import Supryolo.Lib.Words
import Supryolo.Lib.Rounds
import Supryolo.Lib.Loops
import Supryolo.Lib.Atomic
import Supryolo.Lib.Grid
import Supryolo.Crypto
import Supryolo.Cpu
import Supryolo.CpuAvx2
import Supryolo.Gpu
import Supryolo.Cuda
import Supryolo.OpenCl
import Supryolo.Json
import Supryolo.Coin
import Supryolo.Stratum
import Supryolo.Sv2
import Supryolo.Lib.Incremental
import Supryolo.Noise
import Supryolo.Session
import Supryolo.Verdicts
import Supryolo.Backend
import Supryolo.Miner.Socket
import Supryolo.Miner.Machine
import Supryolo.Miner.Steps
import Supryolo.Miner.Iterations
import Supryolo.Miner.Accounting
import Supryolo.Jobs
import Supryolo.Miner.Circulation
import Supryolo.Miner.Channel
import Supryolo.Lib.Tiling
import Supryolo.Miner.Reservations
import Supryolo.Miner.Workers
import Supryolo.Miner.NoncePartition
import Supryolo.Lib.Histories
import Supryolo.Notifications
import Supryolo.Activations
import Supryolo.Lib.Readers
import Supryolo.Wire
import Supryolo.Lib.Chunks
import Supryolo.Framing
import Supryolo.Lib.Effects
import Supryolo.Poisoning
import Supryolo.Live
import Supryolo.Conduct
import Supryolo.PrevHash
import Supryolo.Fragmentation
import Supryolo.Miner.Shares
import Supryolo.Miner.Responses
import Supryolo.Listening
import Supryolo.Miner.Intake
import Supryolo.Miner.Losses
import Supryolo.Targets
import Supryolo.Lib.Blake2
import Supryolo.Oracle
import Supryolo.Work
import Supryolo.Attainable
import Supryolo.Lib.Segments
import Supryolo.Miner.Lines
import Supryolo.Devices
import Supryolo.Lib.Journal
import Supryolo.Numbering
import Supryolo.Hardware.Amd
import Supryolo.Hardware.Plans
import Supryolo.Hardware.FanPolicy
import Supryolo.Hardware.Controls
import Supryolo.Hardware.Commands
import Supryolo.Hardware.Applied
import Supryolo.Dashboard
import Supryolo.Frames
import Supryolo.Agreement
import Supryolo.Lib.Ranking
import Supryolo.Miner.Deliveries
import Supryolo.Miner.Conservation
import Supryolo.Miner.Draining
import Supryolo.Miner.Tickets
import Supryolo.Miner.Process
import Supryolo.Admission
import Supryolo.Api
import Supryolo.Conversation
import Supryolo.EventStream
import Supryolo.Launchers
import Supryolo.Miner.Outgoing
import Supryolo.Miner.Overheard
import Supryolo.Start
