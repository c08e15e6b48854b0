import Supryolo.Admission
import Supryolo.Hardware.Applied
import Supryolo.Miner.Machine
import Supryolo.Numbering

/-!
Model of `mine` in `miner.cpp` up to the loop over connections: what it checks,
which devices and how many CPU threads it chooses, and when it begins to touch
the GPUs.
-/

namespace Supryolo.Start

open CommandLine Devices Effects Hardware Journal Loops

variable {η : Type}

/-- What is found on the machine. The API is bound to a port, and the log file
and the dashboard are opened, or they throw. -/
structure Host (η : Type) where
  drivers : Drivers
  machine : Hardware.Machine η
  outcome : Outcomes
  logical : Nat
  avx2 : Bool
  apiServer : Nat → Except String Unit
  dashboard : Text → Text → Except String Unit

def usesSv2 (o : CommandLine.MineOptions) : Bool := "stratum2+tcp://".toList.isPrefixOf o.url

def sv2Authority (o : CommandLine.MineOptions) : Except String (Option Bytes) :=
  if usesSv2 o then do
    let key ← unhex o.sv2Authority
    if key.length ≠ 32 then throw "SV2 requires --sv2-authority with 32-byte hex key"
    pure (some key)
  else pure none

def cpuThreads (logical : Nat) (o : CommandLine.MineOptions) (selected : List GpuInfo) :
    Except String Nat :=
  let threads : Nat :=
    if o.noCpu then 0
    else if o.cpuThreads = 0 then (max 1 (((logical / 2 : Nat) : Int) - selected.length - 1)).toNat
    else o.cpuThreads
  if threads > 128 then throw "At most 128 CPU threads supported" else pure threads

def cpuBackend (avx2 : Bool) (variant : Text) : Except String Backend :=
  if variant = "avx2".toList ∨ (variant = "auto".toList ∧ avx2 = true) then
    if avx2 = false then throw "AVX2 unavailable on this CPU" else pure .cpuAvx2
  else if variant = "scalar".toList ∨ variant = "auto".toList then pure .cpu
  else throw "CPU variant must be auto, scalar or avx2"

/-- What is settled before anything is touched. -/
structure Chosen where
  authority : Option Bytes
  selected : List GpuInfo
  threads : Nat

def choose (host : Host η) (o : CommandLine.MineOptions) : Except String Chosen := do
  let authority ← sv2Authority o
  if o.user = [] then throw "payout worker required with --user"
  if o.noCpu = true ∧ o.noGpu = true then
    throw "No mining devices enabled (--no-cpu and --no-gpu)"
  let selected ← selectedGpus host.drivers o.toMineOptions
  let threads ← cpuThreads host.logical o selected
  pure ⟨authority, selected, threads⟩

structure Started extends Chosen where
  controlEvents : List String
  cpu : Option Backend

def mine (host : Host η) (o : CommandLine.MineOptions) : Program (Command η) Started := do
  let chosen ← ofExcept (choose host o)
  let controlEvents ← apply host.machine host.outcome chosen.selected o.controls
  ofExcept (host.apiServer o.apiPort)
  ofExcept (host.dashboard o.tui o.logFile)
  let cpu ← ofExcept (if chosen.threads = 0 then pure none
    else (cpuBackend host.avx2 o.cpuVariant).map some)
  pure { toChosen := chosen, controlEvents := controlEvents, cpu := cpu }

/-- The number of CPU threads that fits the options. -/
def threadsFor (logical : Nat) (o : CommandLine.MineOptions) (gpus : Nat) : Nat :=
  if o.noCpu then 0 else if o.cpuThreads = 0 then max 1 (logical / 2 - gpus - 1) else o.cpuThreads

/-- What the choice is, given what the command line asks for. -/
structure Chosen.Fits (host : Host η) (o : CommandLine.MineOptions) (c : Chosen) : Prop where
  user : o.user ≠ []
  authority : ∀ key, c.authority = some key ↔
    usesSv2 o = true ∧ unhex o.sv2Authority = .ok key ∧ key.length = 32
  sv2 : usesSv2 o = true → c.authority ≠ none
  noGpu : o.noGpu = true → c.selected = []
  selected : o.noGpu = false → ∃ devices, gpuDevices host.drivers o.gpuMode = .ok devices ∧
    Numbered host.drivers devices ∧ c.selected ⊆ devices ∧
      (o.devicesExplicit = false → c.selected = devices) ∧
      (o.devicesExplicit = true → c.selected.map GpuInfo.index = o.devices)
  distinct : (c.selected.map GpuInfo.index).Nodup
  gpus : c.selected.length ≤ 64
  threads : c.threads = threadsFor host.logical o c.selected.length ∧ c.threads ≤ 128
  slots : 0 < c.selected.length + c.threads

def sampleOptions : CommandLine.MineOptions :=
  { url := "stratum+tcp://pool:3333".toList, user := "worker".toList, devices := [1]
    devicesExplicit := true, controls := { fanPercent := [50] } }

end Supryolo.Start
