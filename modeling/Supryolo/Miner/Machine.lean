import Supryolo.Backend
import Supryolo.Miner.Socket
import Supryolo.Session
import Mathlib.Logic.Relation

/-!
Model of one connection of `mine` in `miner.cpp`: the connection loop on the
main thread and one worker thread per slot. They share, under one mutex, the
published work, the queue of found shares, the reservation cursor and the
failure message. A step is a critical section or a stretch of code that touches
only the state of its own thread, so a run is an interleaving of threads.

Time and the user enter as choices: whether the run has expired, whether a
timeout strikes, what a read brings. The display, the hardware sensors and the
hash-rate statistics are left out. `trace`, `submissions` and `verdicts` are
history: no step reads them. The generations of the workers and of the cursor
are exact counts like those of a `Job`, and are compared by their 64 bits; so are
the counters of shares, which nothing reads before the process ends.
-/

namespace Supryolo.Miner

open Words

inductive Outcome
  | accepted
  | rejected
  | stale
  deriving DecidableEq

structure Tally where
  accepted : Nat := 0
  rejected : Nat := 0
  stale : Nat := 0
  deriving DecidableEq

def Tally.count (t : Tally) : Outcome → Tally
  | .accepted => { t with accepted := t.accepted + 1 }
  | .rejected => { t with rejected := t.rejected + 1 }
  | .stale => { t with stale := t.stale + 1 }

/-- The counters of the dashboard, which outlive the connection. -/
structure View (rows : Nat) where
  total : Tally := {}
  device : Fin rows → Tally := fun _ => {}
  blockCandidates : Nat := 0

/-- Outstanding shares by id with the device row that found each of them. -/
structure Ledger (rows : Nat) where
  pending : AList fun _ : Int => Fin rows := ∅
  view : View rows := {}
  submissions : List (Int × Fin rows) := []
  verdicts : List (Int × Fin rows × Outcome) := []

/-- The first entry of the `error` array, converted to `int`. -/
def errorCode (message : Json) : Int :=
  match message.member? "error".toList with
  | some (.array (.integer n :: _)) => n.bmod (2 ^ 32)
  | _ => 0

def outcomeOf (message : Json) : Outcome :=
  if (message.value "result".toList).isTrue then .accepted
  else if errorCode message = 21 then .stale
  else .rejected

namespace Ledger

variable {rows : Nat}

def settle (l : Ledger rows) (id : Int) (row : Fin rows) (outcome : Outcome) : Ledger rows :=
  { l with
    pending := l.pending.erase id
    view :=
      { l.view with
        total := l.view.total.count outcome
        device := Function.update l.view.device row ((l.view.device row).count outcome) }
    verdicts := l.verdicts ++ [(id, row, outcome)] }

/-- The part of the message loop that looks at ids. It does not look at
whether the message has a method. -/
def account (l : Ledger rows) (message : Json) : Ledger rows :=
  match message.integerMember? "id".toList with
  | none => l
  | some id =>
      match l.pending.lookup id with
      | none => l
      | some row => l.settle id row (outcomeOf message)

def addCandidates (l : Ledger rows) (n : Nat) : Ledger rows :=
  { l with view := { l.view with blockCandidates := l.view.blockCandidates + n } }

def submit (l : Ledger rows) (id : Int) (row : Fin rows) : Ledger rows :=
  { l with
    pending := l.pending.insert id row
    submissions := l.submissions ++ [(id, row)] }

end Ledger

/-- What `mine` fixes before it connects: a worker per slot, each with its
backend, batch size and device row. -/
structure Config where
  rows : Nat
  slots : Nat
  row : Fin slots → Fin rows
  backend : Fin slots → Backend
  batch : Fin slots → UInt32
  batch_positive : ∀ i, 0 < batch i

/-- The options that decide the slots, once devices have been selected and an
automatic thread count has been resolved. The command line refuses a batch size
of zero. -/
structure Options where
  selected : List Backend
  cpuThreads : Nat
  cpu : Backend
  batch : UInt32
  cpuBatch : UInt32
  batch_positive : 0 < batch
  cpuBatch_positive : 0 < cpuBatch

/-- GPUs come first, each with a row of its own; all CPU threads share the row
after them. -/
def slotsOf (o : Options) : Except String Config :=
  if o.selected.length > 64 then throw "At most 64 GPUs may be selected"
  else if o.selected.length = 0 ∧ o.cpuThreads = 0 then
    throw "No enabled GPU devices available; CPU disabled"
  else if o.cpuThreads > 128 then throw "At most 128 CPU threads supported"
  else
    pure
      { rows := o.selected.length + 1
        slots := o.selected.length + o.cpuThreads
        row := fun i => ⟨min i.val o.selected.length, by omega⟩
        backend := fun i => o.selected.getD i.val o.cpu
        batch := fun i => if i.val < o.selected.length then o.batch else o.cpuBatch
        batch_positive := fun i => by
          split
          · exact o.batch_positive
          · exact o.cpuBatch_positive }

structure Found (rows : Nat) where
  job : Job
  nonce : UInt64
  row : Fin rows

/-- The fields of a submission on the wire. -/
inductive Share
  | sv1 (user id en2 ntime nonce : Text)
  | sv2 (channel sequence job nonce ntime version : UInt32)
  deriving DecidableEq

/-- Where a worker stands in its loop. -/
inductive Phase
  | starting
  | checking
  | ready
  | holding (job : Job) (reserved : UInt64)
  | scanned (job : Job) (r : Scan)
  | throwing (message : String)
  | finished

structure Worker where
  phase : Phase := .starting
  generation : Nat := 0
  cursor : UInt64 := 0

/-- Where the main thread stands in the connection loop. -/
inductive Main (rows : Nat)
  | head
  | polling
  | handling (messages : List Json)
  | collecting
  | submitting (queue : List (Found rows))
  | waiting
  | ended (error : Option String)

/-- The protocol's side of the connection. -/
inductive Link (κ : Type)
  | sv1 (buffer : Text) (state : StratumState)
  | sv2 (session : Sv2.Session κ)

/-- What crosses an interface: messages handled, ranges reserved and scanned,
shares sent. -/
inductive Event (slots rows : Nat)
  | received (message : Json)
  | reserved (job : Job) (cursor : UInt64) (p : Sv2.Partition)
  | scanned (worker : Fin slots) (job : Job) (start : UInt64) (count : UInt32)
  | submitted (id : Int) (share : Share) (found : Found rows)

/-- Foreign code, and the worker name of the command line. -/
structure Env (κ : Type) where
  parse : Parser
  foreign : Sv2.Foreign κ
  user : Text

/-- `parting` is what the read that ended the connection had sent before it
threw. -/
structure Machine (cfg : Config) (κ : Type) where
  link : Link κ
  main : Main cfg.rows := .head
  work : Option Job := none
  found : List (Found cfg.rows) := []
  failure : String := ""
  sharedCursor : UInt64 := 0
  sharedGeneration : Nat := 0
  stop : Bool := false
  workers : Fin cfg.slots → Worker := fun _ => {}
  ledger : Ledger cfg.rows := {}
  nextId : Int := 10
  activated : Bool := false
  draining : Bool := false
  parting : Bytes := []
  trace : List (Event cfg.slots cfg.rows) := []

variable {cfg : Config} {κ : Type}

namespace Link

def current : Link κ → Option Job
  | sv1 _ state => state.current
  | sv2 session => session.current

def valid : Link κ → Job → Bool
  | sv1 _ state, j => state.valid j
  | sv2 session, j => session.valid j

/-- What a read that throws has sent before: an SV2 session answers while it
handles what it has read. -/
def parting (env : Env κ) (link : Link κ) (chunks : List Bytes) (ending : Ending) : Bytes :=
  match link with
  | sv1 _ _ => []
  | sv2 session =>
      match readBytes chunks ending with
      | .ok bytes => (session.interrupted env.foreign bytes).written.drop session.written.length
      | .error _ => []

/-- SV1 reads until the socket would block; SV2 takes one chunk. -/
def read (env : Env κ) (link : Link κ) (chunks : List Bytes) (ending : Ending) :
    Except String (List Json × Link κ) :=
  match link with
  | sv1 buffer state => do
      let texts := chunks.map fun chunk => chunk.map fun byte => Char.ofNat byte.toNat
      let (messages, buffer) ← Miner.read env.parse buffer texts ending
      pure (messages, sv1 buffer state)
  | sv2 session => do
      let bytes ← readBytes chunks ending
      let (messages, session) ← session.receive env.foreign bytes
      pure (messages, sv2 session)

theorem read_sv1 {env : Env κ} {buffer left : Text} {state : StratumState} {chunks : List Bytes}
    {ending : Ending} {messages : List Json}
    (h : Miner.read env.parse buffer (chunks.map fun chunk => chunk.map fun byte =>
      Char.ofNat byte.toNat) ending = .ok (messages, left)) :
    (sv1 buffer state).read env chunks ending = .ok (messages, sv1 left state) := by
  simp only [read, h]
  rfl

theorem read_sv2 {env : Env κ} {session session' : Sv2.Session κ} {chunk : Bytes}
    {chunks : List Bytes} {ending : Ending} {messages : List Json}
    (h : session.receive env.foreign chunk = .ok (messages, session')) :
    (sv2 session).read env (chunk :: chunks) ending = .ok (messages, sv2 session') := by
  have hbytes : readBytes (chunk :: chunks) ending = .ok chunk := rfl
  simp only [read, hbytes, Loops.ok_bind, h]
  rfl

end Link

namespace Worker

/-- A new generation starts a new search. Where the 64 bits agree the cursor goes
on, and the assignment the code leaves out would change none of them. -/
def adopt (w : Worker) (j : Job) : Worker :=
  if sameCount j.generation w.generation then { w with generation := j.generation }
  else { w with generation := j.generation, cursor := 0 }

/-- The range a worker scans next, and the job with the time rolled for it. -/
def range (w : Worker) (index : Nat) (batch : UInt32) (j : Job) (reserved : UInt64) :
    Except String (Job × UInt64 × UInt32) :=
  if j.sv2 then do
    let p ← Sv2.partition j.time32 0 reserved batch
    let work := { j.work with header := storeLe j.work.header 40 p.ntime.toUInt64 }
    pure ({ j with time32 := p.ntime, work := work }, p.nonce.toUInt64, p.count)
  else if w.cursor > 0x100000000000000 - batch.toUInt64 then throw "nonce partition exhausted"
  else pure (j, (index.toUInt64 <<< 56) ||| w.cursor, batch)

end Worker

namespace Machine

def setWorker (m : Machine cfg κ) (i : Fin cfg.slots) (w : Worker) : Machine cfg κ :=
  { m with workers := Function.update m.workers i w }

def setPhase (m : Machine cfg κ) (i : Fin cfg.slots) (phase : Phase) : Machine cfg κ :=
  m.setWorker i { m.workers i with phase := phase }

/-- The reservation cursor starts again at a new generation, as `adopt` does. -/
def syncCursor (m : Machine cfg κ) (j : Job) : Machine cfg κ :=
  if sameCount m.sharedGeneration j.generation then { m with sharedGeneration := j.generation }
  else { m with sharedGeneration := j.generation, sharedCursor := 0 }

/-- The first critical section of the worker loop: a snapshot of the work and,
for SV2, the reservation of a range. -/
def takeWork (m : Machine cfg κ) (i : Fin cfg.slots) : Machine cfg κ :=
  match m.work with
  | none => m.setPhase i .checking
  | some j =>
      if j.sv2 then
        let m := m.syncCursor j
        match Sv2.partition j.time32 0 m.sharedCursor (cfg.batch i) with
        | .error e => m.setPhase i (.throwing e)
        | .ok p =>
            { m with
              sharedCursor := m.sharedCursor + p.count.toUInt64
              trace := m.trace ++ [Event.reserved j m.sharedCursor p] }.setPhase i
                (.holding j m.sharedCursor)
      else m.setPhase i (.holding j 0)

/-- The scan of the range, with the outcome the backend gave. -/
def scanRange (m : Machine cfg κ) (i : Fin cfg.slots) (w : Worker) (j : Job) (start : UInt64)
    (count : UInt32) (outcome : Except String Scan) : Machine cfg κ :=
  let m := { m with trace := m.trace ++ [Event.scanned i j start count] }
  match outcome with
  | .error e => m.setWorker i { w with phase := .throwing e }
  | .ok r => m.setWorker i { w with phase := .scanned j r, cursor := w.cursor + r.hashes }

/-- The second critical section: the nonces join the queue. -/
def pushFound (m : Machine cfg κ) (i : Fin cfg.slots) (j : Job) (r : Scan) : Machine cfg κ :=
  if m.found.length + r.nonces.length > 8192 then m.setPhase i (.throwing "share queue overflow")
  else
    { m with found := m.found ++ r.nonces.map fun n => Found.mk j n (cfg.row i) }.setPhase i .checking

/-- The condition of the loop; `early` is whether the drain deadline is still
ahead. -/
def continues (m : Machine cfg κ) (expired early : Bool) : Bool :=
  let outstanding := !m.ledger.pending.entries.isEmpty
  !expired || (!m.draining && outstanding) || (m.draining && outstanding && early)

def beginIteration (m : Machine cfg κ) (expired : Bool) : Machine cfg κ :=
  if expired && !m.draining then { m with draining := true, stop := true, main := .polling }
  else { m with main := .polling }

/-- The connection is over, by an exception or not; workers are told to stop. -/
def finish (m : Machine cfg κ) (error : Option String) : Machine cfg κ :=
  { m with main := .ended error, stop := true }

/-- The work is published when there is a new job, or none was active yet. -/
def publish (m : Machine cfg κ) (authorized fresh : Bool) : Machine cfg κ :=
  if !m.draining && authorized && (fresh || !m.activated) then
    { m with work := m.link.current, activated := m.link.current.isSome }
  else m

/-- The body of the message loop. -/
def handleMessage (m : Machine cfg κ) (message : Json) : Except String (Machine cfg κ) :=
  let m := { m with trace := m.trace ++ [Event.received message] }
  match m.link with
  | .sv1 buffer state => do
      let (job, state) ← state.receive message
      pure ({ m with link := .sv1 buffer state, ledger := m.ledger.account message }.publish
        state.authorized job.isSome)
  | .sv2 session =>
      pure ({ m with ledger := m.ledger.account message }.publish
        session.current.isSome session.current.isSome)

/-- A share that has gone out is outstanding. -/
def record (m : Machine cfg κ) (share : Share) (f : Found cfg.rows) : Machine cfg κ :=
  { m with
    ledger := m.ledger.submit m.nextId f.row
    nextId := m.nextId + 1
    trace := m.trace ++ [.submitted m.nextId share f] }

def sendShare (env : Env κ) (m : Machine cfg κ) (f : Found cfg.rows) :
    Except String (Machine cfg κ) :=
  match m.link with
  | .sv1 _ _ =>
      pure (m.record (.sv1 env.user f.job.id f.job.en2 f.job.ntime (hex (leBytes 8 f.nonce))) f)
  | .sv2 session =>
      if m.nextId > 0xffffffff then throw "SV2 sequence exhausted; reconnecting"
      else do
        let sequence := m.nextId.toNat.toUInt32
        let next ← session.submit env.foreign f.job f.nonce sequence
        pure ({ m with link := .sv2 next }.record
          (.sv2 session.channel sequence f.job.wireJob f.nonce.toUInt32 f.job.time32
            f.job.version) f)

/-- The checks of the submit loop before a share goes out: `none` when it is
skipped, else how many block candidates it adds. -/
def checkShare (m : Machine cfg κ) (f : Found cfg.rows) : Except String (Option Nat) :=
  if m.draining then pure none
  else if !m.link.valid f.job then pure none
  else if m.ledger.pending.entries.length ≥ 4096 then throw "too many outstanding shares"
  else do
    let hash ← blake2b256 (storeLe f.job.work.header 32 f.nonce).toList
    if !meets hash f.job.work.target then throw "independent submit-time hash check failed"
    pure (some (if meets hash f.job.networkTarget then 1 else 0))

def addCandidates (m : Machine cfg κ) (n : Nat) : Machine cfg κ :=
  { m with ledger := m.ledger.addCandidates n }

/-- The body of the submit loop. -/
def submitOne (env : Env κ) (m : Machine cfg κ) (f : Found cfg.rows) :
    Except String (Machine cfg κ) := do
  match ← m.checkShare f with
  | none => pure m
  | some n => sendShare env (m.addCandidates n) f

/-- What an exception from the body of the submit loop leaves: a block
candidate is counted before the share is sent. -/
def afterFailure (m : Machine cfg κ) (f : Found cfg.rows) : Machine cfg κ :=
  match m.checkShare f with
  | .ok (some n) => m.addCandidates n
  | _ => m

end Machine

/-- The connection loop. -/
inductive MainStep (env : Env κ) : Machine cfg κ → Machine cfg κ → Prop
  -- The run may expire between the condition of the loop and its body.
  | iterate (m : Machine cfg κ) (expired early later : Bool) (hmain : m.main = .head)
      (hloop : m.continues expired early = true) (hlater : expired = true → later = true) :
      MainStep env m (m.beginIteration later)
  | leave (m : Machine cfg κ) (expired early : Bool) (hmain : m.main = .head)
      (hloop : m.continues expired early = false) : MainStep env m (m.finish none)
  | poll (m : Machine cfg κ) (chunks : List Bytes) (ending : Ending) (messages : List Json)
      (link : Link κ) (hmain : m.main = .polling)
      (hread : m.link.read env chunks ending = .ok (messages, link)) :
      MainStep env m { m with link := link, main := .handling messages }
  | pollFailed (m : Machine cfg κ) (chunks : List Bytes) (ending : Ending) (e : String)
      (hmain : m.main = .polling) (hread : m.link.read env chunks ending = .error e) :
      MainStep env m ({ m with parting := m.link.parting env chunks ending }.finish (some e))
  | handle (m next : Machine cfg κ) (message : Json) (rest : List Json)
      (hmain : m.main = .handling (message :: rest))
      (hhandle : m.handleMessage message = .ok next) :
      MainStep env m { next with main := .handling rest }
  | handleFailed (m : Machine cfg κ) (message : Json) (rest : List Json) (e : String)
      (hmain : m.main = .handling (message :: rest))
      (hhandle : m.handleMessage message = .error e) : MainStep env m (m.finish (some e))
  | handled (m : Machine cfg κ) (hmain : m.main = .handling []) :
      MainStep env m { m with main := .collecting }
  | collect (m : Machine cfg κ) (hmain : m.main = .collecting) (hfailure : m.failure = "") :
      MainStep env m { m with main := .submitting m.found, found := [] }
  | collectFailed (m : Machine cfg κ) (hmain : m.main = .collecting) (hfailure : m.failure ≠ "") :
      MainStep env m (m.finish (some m.failure))
  | submit (m next : Machine cfg κ) (f : Found cfg.rows) (rest : List (Found cfg.rows))
      (hmain : m.main = .submitting (f :: rest)) (hsubmit : m.submitOne env f = .ok next) :
      MainStep env m { next with main := .submitting rest }
  | submitFailed (m : Machine cfg κ) (f : Found cfg.rows) (rest : List (Found cfg.rows))
      (e : String) (hmain : m.main = .submitting (f :: rest))
      (hsubmit : m.submitOne env f = .error e) :
      MainStep env m ((m.afterFailure f).finish (some e))
  | submitted (m : Machine cfg κ) (hmain : m.main = .submitting []) :
      MainStep env m { m with main := .waiting }
  | wait (m : Machine cfg κ) (hmain : m.main = .waiting) : MainStep env m { m with main := .head }
  -- The message is made, but it cannot be dumped or written to the socket.
  | sendBroken (m : Machine cfg κ) (f : Found cfg.rows) (rest : List (Found cfg.rows))
      (e : String) (hmain : m.main = .submitting (f :: rest)) (n : Nat) (next : Machine cfg κ)
      (hcheck : m.checkShare f = .ok (some n)) (hsubmit : m.submitOne env f = .ok next) :
      MainStep env m ((m.afterFailure f).finish (some e))
  -- A write to the socket fails, or a response does not arrive in time.
  | broken (m : Machine cfg κ) (e : String) (hmain : m.main = .polling ∨ m.main = .waiting) :
      MainStep env m (m.finish (some e))

/-- The loop of the worker of slot `i`. -/
inductive WorkerStep (i : Fin cfg.slots) : Machine cfg κ → Machine cfg κ → Prop
  | construct (m : Machine cfg κ)
      (hphase : (m.workers i).phase = .starting) : WorkerStep i m (m.setPhase i .checking)
  | constructFailed (m : Machine cfg κ) (e : String)
      (hphase : (m.workers i).phase = .starting) : WorkerStep i m (m.setPhase i (.throwing e))
  | check (m : Machine cfg κ) (hphase : (m.workers i).phase = .checking) :
      WorkerStep i m (m.setPhase i (if m.stop then .finished else .ready))
  | take (m : Machine cfg κ) (hphase : (m.workers i).phase = .ready) :
      WorkerStep i m (m.takeWork i)
  | scan (m : Machine cfg κ) (j j' : Job) (reserved start : UInt64)
      (count : UInt32) (outcome : Except String Scan)
      (hphase : (m.workers i).phase = .holding j reserved)
      (hrange : ((m.workers i).adopt j).range i (cfg.batch i) j reserved = .ok (j', start, count))
      -- A device may also fail for reasons of its own.
      (houtcome : (cfg.backend i).ScansTo j'.work start count outcome ∨ ∃ e, outcome = .error e) :
      WorkerStep i m (m.scanRange i ((m.workers i).adopt j) j' start count outcome)
  | scanRefused (m : Machine cfg κ) (j : Job) (reserved : UInt64) (e : String)
      (hphase : (m.workers i).phase = .holding j reserved)
      (hrange : ((m.workers i).adopt j).range i (cfg.batch i) j reserved = .error e) :
      WorkerStep i m (m.setWorker i { (m.workers i).adopt j with phase := .throwing e })
  | push (m : Machine cfg κ) (j : Job) (r : Scan)
      (hphase : (m.workers i).phase = .scanned j r) : WorkerStep i m (m.pushFound i j r)
  | fail (m : Machine cfg κ) (e : String)
      (hphase : (m.workers i).phase = .throwing e) :
      WorkerStep i m ({ m with failure := e }.setPhase i .finished)

/-- Any thread may move next. -/
inductive Step (env : Env κ) (m m' : Machine cfg κ) : Prop
  | main (h : MainStep env m m')
  | worker (i : Fin cfg.slots) (h : WorkerStep i m m')

/-- A connection that has just been opened. -/
inductive Link.Fresh : Link κ → Prop
  | sv1 : Link.Fresh (.sv1 [] {})
  | sv2 (state : κ) (first : Bytes) (host : Text) (port : UInt16) (user : Text) (rate : UInt32) :
      Link.Fresh (.sv2 (Sv2.Session.start state first host port user rate))

/-- The counters of earlier connections carry over. -/
def Machine.initial (cfg : Config) (link : Link κ) (view : View cfg.rows) : Machine cfg κ :=
  { link := link, ledger := { view := view } }

def Run (env : Env κ) (link : Link κ) (view : View cfg.rows) : Machine cfg κ → Prop :=
  Relation.ReflTransGen (Step env) (Machine.initial cfg link view)

/-- The counters a connection can start from: zero, or what an earlier
connection left. -/
inductive Opens (cfg : Config) (env : Env κ) : View cfg.rows → Prop
  | first : Opens cfg env {}
  | again {view : View cfg.rows} {link : Link κ} {m : Machine cfg κ} {e : String}
      (hopens : Opens cfg env view) (hlink : link.Fresh) (hrun : Run env link view m)
      (hended : m.main = .ended (some e)) : Opens cfg env m.ledger.view

end Supryolo.Miner
