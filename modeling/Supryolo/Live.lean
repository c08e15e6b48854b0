import Supryolo.Poisoning
import Supryolo.Session

/-!
`sv2_session.cpp` once more, as programs that keep what they have changed when
they throw. Two logs that the source does not have come with the session: the
frames it has sent, in plaintext, and what its channel has been assigned.
-/

namespace Supryolo.Sv2

open Effects Words

/-- Foreign code: the C interface of the Noise engine, and the floating-point
value a target is shown as. -/
structure Outside (κ : Type) where
  port : Port κ
  difficulty : Hash → Json

variable {κ : Type}

def Outside.foreign (lib : Outside κ) : Foreign κ := ⟨lib.port.cipher, lib.difficulty⟩

/-- `opened` logs the assignments of channel, group and extranonce. -/
structure Live (κ : Type) where
  session : Session κ
  sent : List Frame := []
  opened : List (UInt32 × UInt32 × Bytes) := []

namespace Live

abbrev Program (κ α : Type) := EStateM String (Live κ) α

def start (state : κ) (first : Bytes) (host : Text) (port : UInt16) (user : Text)
    (rate : UInt32) : Live κ :=
  { session := .start state first host port user rate }

def onNoise {α : Type} (x : EStateM String (Noise κ) α) : Program κ α :=
  zoom (fun s => s.session.noise)
    (fun s noise => { s with session := { s.session with noise := noise } }) x

def getSession : Program κ (Session κ) := do pure (← get).session

def update (f : Session κ → Session κ) : Program κ Unit :=
  modify fun s => { s with session := f s.session }

def require (p : Prop) [Decidable p] (why : String) : Program κ Unit :=
  if p then pure () else throw why

def send (lib : Outside κ) (f : Frame) : Program κ Unit := do
  let bytes ← onNoise (Noise.encodeM lib.port f)
  modify fun s =>
    { s with session := { s.session with written := s.session.written ++ bytes }
             sent := s.sent ++ [f] }

/-- `stored` is the entry of the table under `id`. Its job is filled in place, so
part of it is there when the work cannot be made. -/
def activate (id : UInt32) (stored : Stored) (time : UInt32) : Program κ Unit := do
  let s ← getSession
  require (s.havePrevious = true) "SV2 active job before previous hash"
  let job : Job :=
    { stored.job with
      id := (toString stored.wire.job.toNat).toList, generation := s.generation + 1
      epoch := s.epoch, sv2 := true, channel := s.channel, wireJob := stored.wire.job
      version := stored.wire.version, time32 := time }
  update fun s =>
    { s with generation := s.generation + 1, jobs := s.jobs.insert id { stored with job := job } }
  let header ← ofExcept (standardWork s.previous stored.wire.root s.extra time)
  let job : Job :=
    { job with
      work := { header := header, target := Session.minHash s.target Session.maximum }
      networkTarget := s.networkTarget }
  update fun s =>
    { s with
      current := some job
      jobs := s.jobs.insert id { stored with job := job, future := false } }

def newJob (m : NewJob) : Program κ Unit := do
  let s ← getSession
  require (s.phase = 3 ∧ m.channel = s.channel) "SV2 job channel mismatch"
  require (s.jobs.entries.length < 1024 ∧ m.job ∉ s.jobs) "SV2 job limit or reused active job ID"
  let stored : Stored := { wire := m, future := m.ntime.isNone }
  update fun s => { s with jobs := s.jobs.insert m.job stored }
  match m.ntime with
  | none => pure ()
  | some time => activate m.job stored time

def prevHash (channel job : UInt32) (hash : Hash) (ntime nbits : UInt32) : Program κ Unit := do
  let s ← getSession
  require (s.phase = 3 ∧ (channel = s.channel ∨ channel = s.group))
    "SV2 previous hash channel mismatch"
  match s.jobs.lookup job with
  | none => throw "SV2 activation of unknown job"
  | some selected =>
      require ((hash.toList.take 6).all (· == 0)) "pool sent non-hidden BTCB2 prevhash"
      let networkTarget ← ofExcept (compactTarget (hex (leBytes 4 nbits.toUInt64).reverse))
      update fun s =>
        { s with
          jobs := (∅ : AList fun _ : UInt32 => Stored).insert job selected
          epoch := s.epoch + 1, previous := hash, networkTarget := networkTarget
          havePrevious := true }
      activate job selected ntime

/-- The loop of `settle`, over the batches that are queued. -/
def settle : List Batch → Program κ (List Json)
  | [] => pure []
  | b :: rest => do
      let s ← getSession
      let n := s.pending.countP (· ≤ b.last)
      require (b.count.toNat ≤ n) "SV2 inconsistent accepted count"
      if n ≠ b.count.toNat then pure []
      else
        update fun s =>
          { s with
            pending := s.pending.filter fun sequence => !decide (sequence ≤ b.last)
            batches := rest }
        let out ← settle rest
        pure ((s.pending.filter (· ≤ b.last)).map acceptedEvent ++ out)

def accepted (channel lastSequence count : UInt32) : Program κ (List Json) := do
  let s ← getSession
  require (s.phase = 3 ∧ channel = s.channel ∧ count > 0 ∧ count ≤ 4096 ∧
    lastSequence > s.lastAck ∧ lastSequence ≤ s.lastSent ∧ lastSequence ∈ s.pending)
    "invalid SV2 batch acknowledgement"
  update fun s =>
    { s with lastAck := lastSequence, batches := s.batches ++ [Batch.mk lastSequence count] }
  settle (s.batches ++ [Batch.mk lastSequence count])

def rejected (channel sequence : UInt32) (reason : Text) : Program κ (List Json) := do
  let s ← getSession
  require (s.phase = 3 ∧ channel = s.channel ∧ sequence ∈ s.pending)
    "unknown SV2 rejected sequence"
  update fun s => { s with pending := s.pending.erase sequence }
  let out ← settle s.batches
  pure (rejectedEvent sequence reason :: out)

def setupSuccess (lib : Outside κ) (version : UInt16) (flags : UInt32) : Program κ Unit := do
  let s ← getSession
  require (s.phase = 1 ∧ version = 2 ∧ flags &&& ~~~1 = 0) "unsupported SV2 setup response"
  let frame ← ofExcept (openStandard 1 s.user s.rate (Vector.replicate 32 255))
  send lib frame
  update fun s => { s with phase := 2 }

def openSuccess (request channel : UInt32) (target : Hash) (extranonce : Bytes)
    (group : UInt32) : Program κ Unit := do
  let s ← getSession
  require (s.phase = 2 ∧ request = 1) "unexpected SV2 channel response"
  require (extranonce.length = 4 ∨ extranonce.length = 12) "unsupported BTCB2 standard extranonce"
  let extra := extranonce ++ List.replicate (12 - extranonce.length) 0
  modify fun s =>
    { s with
      session := { s.session with
        channel := channel, group := group, target := target, extra := extra, phase := 3 }
      opened := s.opened ++ [(channel, group, extra)] }

def setTarget (channel : UInt32) (target : Hash) : Program κ Unit := do
  let s ← getSession
  require (s.phase = 3 ∧ (channel = s.channel ∨ channel = s.group)) "SV2 target channel mismatch"
  update fun s => { s with target := target }

/-- The effect of one message and the events it pushes before the prompt. -/
def apply (lib : Outside κ) : Message → Program κ (List Json)
  | .setupSuccess version flags => do
      setupSuccess lib version flags
      pure []
  | .openSuccess request channel target extranonce group => do
      openSuccess request channel target extranonce group
      pure []
  | .newJob job => do
      newJob job
      pure []
  | .prevHash channel job hash ntime nbits => do
      prevHash channel job hash ntime nbits
      pure []
  | .target channel target => do
      setTarget channel target
      pure [difficultyEvent (lib.difficulty target)]
  | .accepted channel last count _ => accepted channel last count
  | .rejected channel sequence reason => rejected channel sequence reason
  | .error _ _ reason => throw ("SV2 pool error: " ++ String.ofList reason)

/-- One pass of the loop over frames. -/
def receiveFrame (lib : Outside κ) (out : List Json) (frame : Frame) : Program κ (List Json) := do
  let message ← ofExcept (decode frame)
  let events ← apply lib message
  pure (out ++ (events ++ [promptEvent]))

/-- A read, given the loop over its frames. -/
def receiveWith (lib : Outside κ) (loop : List Frame → Program κ (List Json)) (bytes : Bytes) :
    Program κ (List Json) := do
  let s ← getSession
  if s.phase = 0 then
    let handshake := s.handshake ++ bytes
    update fun s => { s with handshake := handshake }
    require (handshake.length ≤ 65536) "SV2 handshake buffer limit"
    if handshake.length < 234 then pure []
    else
      onNoise (Noise.finishM lib.port (handshake.take 234))
      update fun s => { s with handshake := [], phase := 1 }
      let frame ← ofExcept (setup s.host s.port "supryolo/0.2.1".toList)
      send lib frame
      loop (← onNoise (Noise.receiveM lib.port (handshake.drop 234)))
  else loop (← onNoise (Noise.receiveM lib.port bytes))

def receive (lib : Outside κ) (bytes : Bytes) : Program κ (List Json) :=
  receiveWith lib (fun frames => frames.foldlM (receiveFrame lib) []) bytes

/-- A read that has come to its `k`-th frame. -/
def receiveFirst (lib : Outside κ) (k : Nat) (bytes : Bytes) : Program κ (List Json) :=
  receiveWith lib (fun frames => (frames.take k).foldlM (receiveFrame lib) []) bytes

def submit (lib : Outside κ) (j : Job) (nonce : UInt64) (sequence : UInt32) : Program κ Unit := do
  let s ← getSession
  require (s.submittable j nonce sequence) "invalid SV2 submit or sequence exhausted"
  update fun s => { s with pending := s.pending ++ [sequence], lastSent := sequence }
  send lib (submitStandard s.channel sequence j.wireJob nonce.toUInt32 j.time32 j.version)

section Rules

variable {α : Type} {R : String → Live κ → Prop} {s : Live κ}

@[simp] theorem ends_getSession {Q : Session κ → Live κ → Prop} :
    Ends getSession Q R s ↔ Q s.session s := Iff.rfl

@[simp] theorem ends_update (f : Session κ → Session κ) {Q : Unit → Live κ → Prop} :
    Ends (update f) Q R s ↔ Q () { s with session := f s.session } := Iff.rfl

@[simp] theorem ends_require (p : Prop) [Decidable p] (why : String) {Q : Unit → Live κ → Prop} :
    Ends (require p why) Q R s ↔ (p → Q () s) ∧ (¬ p → R why s) := by
  rw [require, ends_ite]
  exact Iff.rfl

@[simp] theorem ends_onNoise (x : EStateM String (Noise κ) α) {Q : α → Live κ → Prop} :
    Ends (onNoise x) Q R s ↔
      Ends x (fun a noise => Q a { s with session := { s.session with noise := noise } })
        (fun e noise => R e { s with session := { s.session with noise := noise } })
        s.session.noise :=
  ends_zoom _ _ _

end Rules

inductive Call
  | receive (bytes : Bytes)
  | submit (j : Job) (nonce : UInt64) (sequence : UInt32)

def perform (lib : Outside κ) : Call → Program κ (List Json)
  | .receive bytes => receive lib bytes
  | .submit j nonce sequence => do
      submit lib j nonce sequence
      pure []

end Live

end Supryolo.Sv2
