import Supryolo.Noise
import Supryolo.Stratum

/-!
Model of `sv2_session.cpp`: one SV2 connection, from the handshake to the
settlement of shares. Events keep the JSON shape of SV1 replies. An exception
ends the connection, so an operation returns its events with the new state or
the message of what it threw; what the session gave to `write` is kept in
`written`. The counters `generation` and `epoch` are those of a `Job`: exact
counts that are compared by their low 64 bits.
-/

namespace Supryolo.Sv2

open Words

/-- Foreign code the session calls: the cipher, and the floating-point value a
target is shown as. -/
structure Foreign (κ : Type) where
  cipher : Cipher κ
  difficulty : Hash → Json

def sampleForeign : Foreign Unit := ⟨paddingCipher, fun _ => .null⟩

/-- The answer of the pool to a setup frame, as the padding cipher encrypts it. -/
def sampleAnswer : Bytes :=
  [0, 0, 1, 6, 0, 0] ++ List.replicate 16 0 ++ [2, 0, 0, 0, 0, 0] ++ List.replicate 16 0

structure Stored where
  wire : NewJob
  job : Job := { work := ⟨Vector.replicate 80 0, Vector.replicate 32 0⟩ }
  future : Bool

structure Batch where
  last : UInt32
  count : UInt32
  deriving DecidableEq

/-- `pending` holds the keys of the ordered map in increasing order. -/
structure Session (κ : Type) where
  handshake : Bytes := []
  noise : Noise κ
  written : Bytes
  extra : Bytes := []
  host : Text
  user : Text
  port : UInt16
  rate : UInt32
  phase : Nat := 0
  channel : UInt32 := 0
  group : UInt32 := 0
  generation : Nat := 0
  epoch : Nat := 0
  lastAck : UInt32 := 0
  lastSent : UInt32 := 0
  target : Hash := Vector.replicate 32 0
  networkTarget : Hash := Vector.replicate 32 0
  previous : Hash := Vector.replicate 32 0
  havePrevious : Bool := false
  jobs : AList fun _ : UInt32 => Stored := ∅
  pending : List UInt32 := []
  batches : List Batch := []
  current : Option Job := none

variable {κ : Type}

def acceptedEvent (sequence : UInt32) : Json :=
  .object [("id".toList, .integer sequence.toNat), ("result".toList, .boolean true)]

def isStaleReason (reason : Text) : Bool :=
  reason = "stale-share".toList || reason = "invalid-job-id".toList ||
    reason = "stale-job".toList

def rejectedEvent (sequence : UInt32) (reason : Text) : Json :=
  .object [("id".toList, .integer sequence.toNat), ("result".toList, .boolean false),
    ("error".toList,
      .array [.integer (if isStaleReason reason then 21 else 20), .string reason])]

def difficultyEvent (number : Json) : Json :=
  .object [("method".toList, .string "mining.set_difficulty".toList),
    ("params".toList, .array [number])]

/-- Prompts the scheduler to look at `current`. -/
def promptEvent : Json := .object []

namespace Session

/-- The constructor writes the first handshake message of the cipher. -/
def start (state : κ) (first : Bytes) (host : Text) (port : UInt16) (user : Text)
    (rate : UInt32) : Session κ :=
  { noise := { framing := { state := state } }, written := first, host := host, user := user,
    port := port, rate := rate }

def send (lib : Foreign κ) (s : Session κ) (f : Frame) : Except String (Session κ) := do
  let (bytes, noise) ← s.noise.encode lib.cipher f
  pure { s with noise := noise, written := s.written ++ bytes }

/-- Proofs must have their top 32 digest bits zero even at an easy target. -/
def maximum : Hash := Vector.ofFn fun i => if i.val < 4 then 0 else 255

def minHash (a b : Hash) : Hash := if b.toList < a.toList then b else a

def activate (s : Session κ) (stored : Stored) (time : UInt32) :
    Except String (Stored × Session κ) := do
  if s.havePrevious = false then throw "SV2 active job before previous hash"
  let header ← standardWork s.previous stored.wire.root s.extra time
  let job : Job :=
    { stored.job with
      id := (toString stored.wire.job.toNat).toList, generation := s.generation + 1
      epoch := s.epoch, sv2 := true, channel := s.channel, wireJob := stored.wire.job
      version := stored.wire.version, time32 := time
      work := { header := header, target := minHash s.target maximum }
      networkTarget := s.networkTarget }
  pure ({ stored with job := job, future := false },
    { s with generation := s.generation + 1, current := some job })

def newJob (s : Session κ) (m : NewJob) : Except String (Session κ) := do
  if s.phase ≠ 3 ∨ m.channel ≠ s.channel then throw "SV2 job channel mismatch"
  if s.jobs.entries.length ≥ 1024 ∨ m.job ∈ s.jobs then
    throw "SV2 job limit or reused active job ID"
  match m.ntime with
  | none => pure { s with jobs := s.jobs.insert m.job { wire := m, future := true } }
  | some time =>
      let (stored, s) ← s.activate { wire := m, future := false } time
      pure { s with jobs := s.jobs.insert m.job stored }

def prevHash (s : Session κ) (channel job : UInt32) (hash : Hash) (ntime nbits : UInt32) :
    Except String (Session κ) := do
  if s.phase ≠ 3 ∨ (channel ≠ s.channel ∧ channel ≠ s.group) then
    throw "SV2 previous hash channel mismatch"
  match s.jobs.lookup job with
  | none => throw "SV2 activation of unknown job"
  | some selected =>
      if ¬ (hash.toList.take 6).all (· == 0) then throw "pool sent non-hidden BTCB2 prevhash"
      let networkTarget ← compactTarget (hex (leBytes 4 nbits.toUInt64).reverse)
      let s := { s with
        jobs := ∅, epoch := s.epoch + 1, previous := hash, networkTarget := networkTarget
        havePrevious := true }
      let (stored, s) ← s.activate selected ntime
      pure { s with jobs := s.jobs.insert job stored }

/-- The loop of `settle` over the queued batches. The map is ordered, so the
loop that erases up to the first key above `last` erases every key up to it. -/
def settle : List Batch → List UInt32 → Except String (List Json × List Batch × List UInt32)
  | [], pending => pure ([], [], pending)
  | b :: rest, pending =>
      let n := pending.countP (· ≤ b.last)
      if n < b.count.toNat then throw "SV2 inconsistent accepted count"
      else if n ≠ b.count.toNat then pure ([], b :: rest, pending)
      else do
        let (out, batches, left) ← settle rest (pending.filter fun s => !decide (s ≤ b.last))
        pure ((pending.filter (· ≤ b.last)).map acceptedEvent ++ out, batches, left)

def settled (s : Session κ) : Except String (List Json × Session κ) := do
  let (out, batches, pending) ← settle s.batches s.pending
  pure (out, { s with batches := batches, pending := pending })

def accepted (s : Session κ) (channel lastSequence count : UInt32) :
    Except String (List Json × Session κ) :=
  if s.phase = 3 ∧ channel = s.channel ∧ count > 0 ∧ count ≤ 4096 ∧ lastSequence > s.lastAck ∧
      lastSequence ≤ s.lastSent ∧ lastSequence ∈ s.pending then
    { s with
      lastAck := lastSequence, batches := s.batches ++ [Batch.mk lastSequence count] }.settled
  else throw "invalid SV2 batch acknowledgement"

def rejected (s : Session κ) (channel sequence : UInt32) (reason : Text) :
    Except String (List Json × Session κ) :=
  if s.phase = 3 ∧ channel = s.channel ∧ sequence ∈ s.pending then do
    let (out, s) ← { s with pending := s.pending.erase sequence }.settled
    pure (rejectedEvent sequence reason :: out, s)
  else throw "unknown SV2 rejected sequence"

def setupSuccess (lib : Foreign κ) (s : Session κ) (version : UInt16) (flags : UInt32) :
    Except String (Session κ) := do
  if s.phase ≠ 1 ∨ version ≠ 2 ∨ flags &&& ~~~1 ≠ 0 then throw "unsupported SV2 setup response"
  let frame ← openStandard 1 s.user s.rate (Vector.replicate 32 255)
  let s ← s.send lib frame
  pure { s with phase := 2 }

def openSuccess (s : Session κ) (request channel : UInt32) (target : Hash) (extranonce : Bytes)
    (group : UInt32) : Except String (Session κ) := do
  if s.phase ≠ 2 ∨ request ≠ 1 then throw "unexpected SV2 channel response"
  if extranonce.length ≠ 4 ∧ extranonce.length ≠ 12 then
    throw "unsupported BTCB2 standard extranonce"
  pure { s with
    channel := channel, group := group, target := target
    extra := extranonce ++ List.replicate (12 - extranonce.length) 0, phase := 3 }

def setTarget (s : Session κ) (channel : UInt32) (target : Hash) : Except String (Session κ) :=
  if s.phase ≠ 3 ∨ (channel ≠ s.channel ∧ channel ≠ s.group) then
    throw "SV2 target channel mismatch"
  else pure { s with target := target }

/-- The effect of one message and the events it pushes before the prompt. -/
def apply (lib : Foreign κ) (s : Session κ) : Message → Except String (List Json × Session κ)
  | .setupSuccess version flags => do pure ([], ← s.setupSuccess lib version flags)
  | .openSuccess request channel target extranonce group => do
      pure ([], ← s.openSuccess request channel target extranonce group)
  | .newJob job => do pure ([], ← s.newJob job)
  | .prevHash channel job hash ntime nbits => do
      pure ([], ← s.prevHash channel job hash ntime nbits)
  | .target channel target => do
      pure ([difficultyEvent (lib.difficulty target)], ← s.setTarget channel target)
  | .accepted channel last count _ => s.accepted channel last count
  | .rejected channel sequence reason => s.rejected channel sequence reason
  | .error _ _ reason => throw ("SV2 pool error: " ++ String.ofList reason)

def handle (lib : Foreign κ) (s : Session κ) (message : Message) :
    Except String (List Json × Session κ) := do
  let (out, s) ← s.apply lib message
  pure (out ++ [promptEvent], s)

/-- The loop over the frames of one read. -/
def receiveFrames (lib : Foreign κ) (s : Session κ) (frames : List Frame) :
    Except String (List Json × Session κ) :=
  frames.foldlM (fun (result : List Json × Session κ) frame => do
    let message ← decode frame
    let (out, s) ← result.2.handle lib message
    pure (result.1 ++ out, s)) ([], s)

def receiveReady (lib : Foreign κ) (s : Session κ) (bytes : Bytes) :
    Except String (List Json × Session κ) := do
  let (frames, noise) ← s.noise.receive lib.cipher bytes
  { s with noise := noise }.receiveFrames lib frames

def receive (lib : Foreign κ) (s : Session κ) (bytes : Bytes) :
    Except String (List Json × Session κ) :=
  if s.phase = 0 then do
    let handshake := s.handshake ++ bytes
    if handshake.length > 65536 then throw "SV2 handshake buffer limit"
    if handshake.length < 234 then pure ([], { s with handshake := handshake })
    else
      let noise ← s.noise.finish lib.cipher (handshake.take 234)
      let frame ← setup s.host s.port "supryolo/0.2.1".toList
      let s ← { s with noise := noise, handshake := [], phase := 1 }.send lib frame
      s.receiveReady lib (handshake.drop 234)
  else s.receiveReady lib bytes

/-- The frames of a read have been handled up to the first that is refused. -/
def handled (lib : Foreign κ) (s : Session κ) : List Frame → Session κ
  | [] => s
  | frame :: rest =>
      match decode frame >>= s.handle lib with
      | .ok (_, next) => next.handled lib rest
      | .error _ => s

def interruptedReady (lib : Foreign κ) (s : Session κ) (bytes : Bytes) : Session κ :=
  match s.noise.receive lib.cipher bytes with
  | .ok (frames, noise) => { s with noise := noise }.handled lib frames
  | .error _ => s

/-- How far `receive` has come when it throws, as far as the peer can tell: what
the frames before the refused one have written is on its way. -/
def interrupted (lib : Foreign κ) (s : Session κ) (bytes : Bytes) : Session κ :=
  if s.phase = 0 then
    let handshake := s.handshake ++ bytes
    if handshake.length > 65536 ∨ handshake.length < 234 then s
    else
      let answered := do
        let noise ← s.noise.finish lib.cipher (handshake.take 234)
        let frame ← setup s.host s.port "supryolo/0.2.1".toList
        { s with noise := noise, handshake := [], phase := 1 }.send lib frame
      match answered with
      | .ok ready => ready.interruptedReady lib (handshake.drop 234)
      | .error _ => s
  else s.interruptedReady lib bytes

def valid (s : Session κ) (j : Job) : Bool :=
  match s.jobs.lookup j.wireJob with
  | some stored =>
      s.phase == 3 && j.channel == s.channel && sameCount j.epoch s.epoch && !stored.future &&
        sameCount stored.job.generation j.generation
  | none => false

/-- The guard of `submit`. -/
def submittable (s : Session κ) (j : Job) (nonce : UInt64) (sequence : UInt32) : Bool :=
  s.valid j && nonce ≤ 0xffffffff && sequence > s.lastSent && s.pending.length < 4096

/-- A sequence number above all earlier ones goes to the end of the map. -/
def submit (lib : Foreign κ) (s : Session κ) (j : Job) (nonce : UInt64) (sequence : UInt32) :
    Except String (Session κ) :=
  if s.submittable j nonce sequence then
    { s with pending := s.pending ++ [sequence], lastSent := sequence }.send lib
      (submitStandard s.channel sequence j.wireJob nonce.toUInt32 j.time32 j.version)
  else throw "invalid SV2 submit or sequence exhausted"

end Session

/-! ### What the operations do when they return -/

def Message.isVerdict : Message → Bool
  | .accepted _ _ _ _ => true
  | .rejected _ _ _ => true
  | _ => false

namespace Session

open Loops

variable {lib : Foreign κ} {s s' : Session κ}

theorem send_ok {f : Frame} (h : s.send lib f = .ok s') :
    ∃ noise written, s' = { s with noise := noise, written := written } := by
  obtain ⟨⟨bytes, noise⟩, -, h⟩ := bind_eq_ok.mp h
  exact ⟨noise, _, (pure_eq_ok.mp h).symm⟩

/-- The job `activate` makes of a wire job. -/
structure Activated (s : Session κ) (wire : NewJob) (time : UInt32) (job : Job) : Prop where
  ready : s.havePrevious = true
  generation : job.generation = s.generation + 1
  epoch : job.epoch = s.epoch
  channel : job.channel = s.channel
  wireJob : job.wireJob = wire.job
  time32 : job.time32 = time
  header : standardWork s.previous wire.root s.extra time = .ok job.work.header
  target : job.work.target = minHash s.target maximum
  networkTarget : job.networkTarget = s.networkTarget

theorem activate_ok {stored stored' : Stored} {time : UInt32}
    (h : s.activate stored time = .ok (stored', s')) :
    ∃ job, Activated s stored.wire time job ∧ job.sv2 = true ∧
      stored' = { stored with job := job, future := false } ∧
      s' = { s with generation := s.generation + 1, current := some job } := by
  obtain ⟨hready, h⟩ := guard_eq_ok.mp h
  obtain ⟨header, hheader, h⟩ := bind_eq_ok.mp h
  obtain ⟨rfl, rfl⟩ := Prod.mk.inj (pure_eq_ok.mp h)
  rw [Bool.not_eq_false] at hready
  exact ⟨_, ⟨hready, rfl, rfl, rfl, rfl, rfl, hheader, rfl, rfl⟩, rfl, rfl, rfl⟩

/-- Every way a message can be accepted, with the events it pushes. -/
inductive Applied (s : Session κ) : Message → List Json → Session κ → Prop
  | greeted (version : UInt16) (flags : UInt32) (noise : Noise κ) (written : Bytes)
      (hphase : s.phase = 1) :
      Applied s (.setupSuccess version flags) []
        { s with noise := noise, written := written, phase := 2 }
  | opened (request channel group : UInt32) (target : Hash) (extranonce : Bytes)
      (hphase : s.phase = 2) (hlength : extranonce.length = 4 ∨ extranonce.length = 12) :
      Applied s (.openSuccess request channel target extranonce group) []
        { s with
          channel := channel, group := group, target := target
          extra := extranonce ++ List.replicate (12 - extranonce.length) 0, phase := 3 }
  | stored (m : NewJob) (hphase : s.phase = 3) (hroom : s.jobs.entries.length < 1024)
      (hfresh : m.job ∉ s.jobs) (hntime : m.ntime = none) :
      Applied s (.newJob m) []
        { s with jobs := s.jobs.insert m.job { wire := m, future := true } }
  | announced (m : NewJob) (time : UInt32) (job : Job) (hphase : s.phase = 3)
      (hroom : s.jobs.entries.length < 1024) (hfresh : m.job ∉ s.jobs)
      (hntime : m.ntime = some time) (hjob : Activated s m time job) (hsv2 : job.sv2 = true) :
      Applied s (.newJob m) []
        { s with
          generation := s.generation + 1, current := some job
          jobs := s.jobs.insert m.job { wire := m, job := job, future := false } }
  | renewed (channel id ntime nbits : UInt32) (hash networkTarget : Hash) (selected : Stored)
      (job : Job) (hphase : s.phase = 3) (hlookup : s.jobs.lookup id = some selected)
      (hnetwork : compactTarget (hex (leBytes 4 nbits.toUInt64).reverse) = .ok networkTarget)
      (hjob : Activated { s with
        jobs := ∅, epoch := s.epoch + 1, previous := hash, networkTarget := networkTarget
        havePrevious := true } selected.wire ntime job) (hsv2 : job.sv2 = true) :
      Applied s (.prevHash channel id hash ntime nbits) []
        { s with
          epoch := s.epoch + 1, previous := hash, networkTarget := networkTarget
          havePrevious := true, generation := s.generation + 1, current := some job
          jobs := (∅ : AList fun _ : UInt32 => Stored).insert id
            { selected with job := job, future := false } }
  | targeted (channel : UInt32) (target : Hash) (number : Json) (hphase : s.phase = 3) :
      Applied s (.target channel target) [difficultyEvent number] { s with target := target }
  | accepted (channel last count : UInt32) (sum : UInt64) (events : List Json)
      (batches : List Batch) (pending : List UInt32) (hphase : s.phase = 3)
      (hsettle : settle (s.batches ++ [Batch.mk last count]) s.pending =
        .ok (events, batches, pending)) :
      Applied s (.accepted channel last count sum) events
        { s with lastAck := last, batches := batches, pending := pending }
  | rejected (channel sequence : UInt32) (reason : Text) (events : List Json)
      (batches : List Batch) (pending : List UInt32) (hphase : s.phase = 3)
      (hpending : sequence ∈ s.pending)
      (hsettle : settle s.batches (s.pending.erase sequence) = .ok (events, batches, pending)) :
      Applied s (.rejected channel sequence reason) (rejectedEvent sequence reason :: events)
        { s with batches := batches, pending := pending }

theorem setupSuccess_ok {version : UInt16} {flags : UInt32}
    (h : s.setupSuccess lib version flags = .ok s') :
    Applied s (.setupSuccess version flags) [] s' := by
  obtain ⟨hphase, h⟩ := guard_eq_ok.mp h
  obtain ⟨frame, -, h⟩ := bind_eq_ok.mp h
  obtain ⟨sent, hsent, h⟩ := bind_eq_ok.mp h
  obtain ⟨noise, written, rfl⟩ := send_ok hsent
  simp only [not_or, ne_eq, not_not] at hphase
  obtain rfl := pure_eq_ok.mp h
  exact .greeted version flags noise written hphase.1

theorem openSuccess_ok {request channel group : UInt32} {target : Hash} {extranonce : Bytes}
    (h : s.openSuccess request channel target extranonce group = .ok s') :
    Applied s (.openSuccess request channel target extranonce group) [] s' := by
  obtain ⟨hphase, h⟩ := guard_eq_ok.mp h
  obtain ⟨hlength, h⟩ := guard_eq_ok.mp h
  simp only [not_or, not_and_or, ne_eq, not_not] at hphase hlength
  obtain rfl := pure_eq_ok.mp h
  exact .opened request channel group target extranonce hphase.1 hlength

theorem newJob_ok {m : NewJob} (h : s.newJob m = .ok s') : Applied s (.newJob m) [] s' := by
  obtain ⟨hchannel, h⟩ := guard_eq_ok.mp h
  obtain ⟨hroom, h⟩ := guard_eq_ok.mp h
  simp only [not_or, ne_eq, not_not, not_le, ge_iff_le] at hchannel hroom
  cases htime : m.ntime with
  | none =>
      rw [htime] at h
      obtain rfl := pure_eq_ok.mp h
      exact .stored m hchannel.1 hroom.1 hroom.2 htime
  | some time =>
      rw [htime] at h
      obtain ⟨⟨stored, active⟩, hactivate, h⟩ := bind_eq_ok.mp h
      obtain rfl := pure_eq_ok.mp h
      obtain ⟨job, hjob, hsv2, rfl, rfl⟩ := activate_ok hactivate
      exact .announced m time job hchannel.1 hroom.1 hroom.2 htime hjob hsv2

theorem prevHash_ok {channel id : UInt32} {hash : Hash} {ntime nbits : UInt32}
    (h : s.prevHash channel id hash ntime nbits = .ok s') :
    Applied s (.prevHash channel id hash ntime nbits) [] s' := by
  obtain ⟨hchannel, h⟩ := guard_eq_ok.mp h
  simp only [not_or, ne_eq, not_not] at hchannel
  cases hlookup : s.jobs.lookup id with
  | none => rw [hlookup] at h; cases h
  | some selected =>
      rw [hlookup] at h
      obtain ⟨-, h⟩ := guard_eq_ok.mp h
      obtain ⟨networkTarget, hnetwork, h⟩ := bind_eq_ok.mp h
      obtain ⟨⟨stored, active⟩, hactivate, h⟩ := bind_eq_ok.mp h
      obtain rfl := pure_eq_ok.mp h
      obtain ⟨job, hjob, hsv2, rfl, rfl⟩ := activate_ok hactivate
      exact .renewed channel id ntime nbits hash networkTarget selected job hchannel.1 hlookup
        hnetwork hjob hsv2

theorem setTarget_ok {channel : UInt32} {target : Hash} (h : s.setTarget channel target = .ok s')
    (number : Json) : Applied s (.target channel target) [difficultyEvent number] s' := by
  obtain ⟨hchannel, h⟩ := guard_eq_ok.mp h
  simp only [not_or, ne_eq, not_not] at hchannel
  obtain rfl := pure_eq_ok.mp h
  exact .targeted channel target number hchannel.1

theorem settled_ok {out : List Json} (h : s.settled = .ok (out, s')) :
    ∃ batches pending, settle s.batches s.pending = .ok (out, batches, pending) ∧
      s' = { s with batches := batches, pending := pending } := by
  obtain ⟨⟨events, batches, pending⟩, hsettle, h⟩ := bind_eq_ok.mp h
  obtain ⟨rfl, rfl⟩ := Prod.mk.inj (pure_eq_ok.mp h)
  exact ⟨batches, pending, hsettle, rfl⟩

theorem accepted_ok {channel last count : UInt32} {out : List Json}
    (h : s.accepted channel last count = .ok (out, s')) (sum : UInt64) :
    Applied s (.accepted channel last count sum) out s' := by
  unfold accepted at h
  split at h
  · rename_i hguard
    obtain ⟨batches, pending, hsettle, rfl⟩ := settled_ok h
    exact .accepted channel last count sum out batches pending hguard.1 hsettle
  · cases h

theorem rejected_ok {channel sequence : UInt32} {reason : Text} {out : List Json}
    (h : s.rejected channel sequence reason = .ok (out, s')) :
    Applied s (.rejected channel sequence reason) out s' := by
  unfold rejected at h
  split at h
  · rename_i hguard
    obtain ⟨⟨events, next⟩, hsettled, h⟩ := bind_eq_ok.mp h
    obtain ⟨rfl, rfl⟩ := Prod.mk.inj (pure_eq_ok.mp h)
    obtain ⟨batches, pending, hsettle, rfl⟩ := settled_ok hsettled
    exact .rejected channel sequence reason events batches pending hguard.1 hguard.2.2 hsettle
  · cases h

theorem applied_of_ok {m : Message} {out : List Json} (h : s.apply lib m = .ok (out, s')) :
    Applied s m out s' := by
  have hquiet {x : Except String (Session κ)} {events : List Json}
      (h : (x >>= fun t => pure (events, t)) = .ok (out, s')) : x = .ok s' ∧ events = out := by
    obtain ⟨next, hnext, h⟩ := bind_eq_ok.mp h
    obtain ⟨rfl, rfl⟩ := Prod.mk.inj (pure_eq_ok.mp h)
    exact ⟨hnext, rfl⟩
  cases m with
  | setupSuccess version flags =>
      obtain ⟨hnext, rfl⟩ := hquiet h
      exact setupSuccess_ok hnext
  | openSuccess request channel target extranonce group =>
      obtain ⟨hnext, rfl⟩ := hquiet h
      exact openSuccess_ok hnext
  | newJob job =>
      obtain ⟨hnext, rfl⟩ := hquiet h
      exact newJob_ok hnext
  | prevHash channel job hash ntime nbits =>
      obtain ⟨hnext, rfl⟩ := hquiet h
      exact prevHash_ok hnext
  | target channel target =>
      obtain ⟨hnext, rfl⟩ := hquiet h
      exact setTarget_ok hnext _
  | accepted channel last count sum => exact accepted_ok h sum
  | rejected channel sequence reason => exact rejected_ok h
  | error type reference reason => cases h

/-- The fields that say which shares are outstanding. -/
structure SameShares (s s' : Session κ) : Prop where
  pending : s'.pending = s.pending
  batches : s'.batches = s.batches
  lastAck : s'.lastAck = s.lastAck
  lastSent : s'.lastSent = s.lastSent

/-- Messages other than verdicts leave the shares alone; once the channel is
open it stays open. -/
theorem apply_of_not_verdict {m : Message} {out : List Json} (hother : m.isVerdict = false)
    (h : s.apply lib m = .ok (out, s')) :
    SameShares s s' ∧ (s.phase = 3 → s'.phase = 3 ∧ s'.channel = s.channel) := by
  cases applied_of_ok h with
  | greeted version flags noise written hphase =>
      exact ⟨⟨rfl, rfl, rfl, rfl⟩, fun hopen => by omega⟩
  | opened request channel group target extranonce hphase =>
      exact ⟨⟨rfl, rfl, rfl, rfl⟩, fun hopen => by omega⟩
  | stored => exact ⟨⟨rfl, rfl, rfl, rfl⟩, fun hopen => ⟨hopen, rfl⟩⟩
  | announced => exact ⟨⟨rfl, rfl, rfl, rfl⟩, fun hopen => ⟨hopen, rfl⟩⟩
  | renewed => exact ⟨⟨rfl, rfl, rfl, rfl⟩, fun hopen => ⟨hopen, rfl⟩⟩
  | targeted => exact ⟨⟨rfl, rfl, rfl, rfl⟩, fun hopen => ⟨hopen, rfl⟩⟩
  | accepted => cases hother
  | rejected => cases hother

private theorem receiveFrames_foldlM (frames : List Frame) (acc : List Json) (s : Session κ) :
    frames.foldlM (fun (result : List Json × Session κ) frame => do
      let message ← decode frame
      let (out, s) ← result.2.handle lib message
      pure (result.1 ++ out, s)) (acc, s) =
    (s.receiveFrames lib frames).map fun result => (acc ++ result.1, result.2) := by
  induction frames generalizing acc s with
  | nil => simp [receiveFrames, pure, Except.pure, Except.map]
  | cons frame rest ih =>
      rw [receiveFrames, List.foldlM_cons, List.foldlM_cons]
      cases hdecode : decode frame with
      | error e => rfl
      | ok message =>
          cases hhandle : s.handle lib message with
          | error e => simp only [hhandle, ok_bind]; rfl
          | ok result =>
              simp only [hhandle, ok_bind]
              refine (ih (acc ++ result.1) result.2).trans ?_
              refine Eq.trans ?_ (congrArg _ (ih ([] ++ result.1) result.2)).symm
              cases result.2.receiveFrames lib rest with
              | error e => rfl
              | ok later => simp [Except.map]

/-- The frames of a read are handled one after the other. -/
theorem receiveFrames_cons {frame : Frame} {message : Message} (rest : List Frame)
    (hdecode : decode frame = .ok message) :
    s.receiveFrames lib (frame :: rest) = (do
      let (out, s) ← s.handle lib message
      let (later, s) ← s.receiveFrames lib rest
      pure (out ++ later, s)) := by
  rw [receiveFrames, List.foldlM_cons, hdecode]
  cases hhandle : s.handle lib message with
  | error e => simp only [hhandle, ok_bind]; rfl
  | ok result =>
      simp only [hhandle, ok_bind]
      refine (receiveFrames_foldlM rest ([] ++ result.1) result.2).trans ?_
      cases result.2.receiveFrames lib rest <;> rfl

/-- After the handshake a read is decrypted and its frames are handled. -/
theorem receive_of_noise {bytes : Bytes} {frames : List Frame} {noise : Noise κ}
    (hphase : s.phase ≠ 0) (hnoise : s.noise.receive lib.cipher bytes = .ok (frames, noise)) :
    s.receive lib bytes = { s with noise := noise }.receiveFrames lib frames := by
  rw [receive, if_neg hphase, receiveReady, hnoise]
  rfl

theorem handle_ok {m : Message} {out : List Json} (h : s.handle lib m = .ok (out, s')) :
    ∃ events, s.apply lib m = .ok (events, s') ∧ out = events ++ [promptEvent] := by
  obtain ⟨⟨events, next⟩, happly, h⟩ := bind_eq_ok.mp h
  obtain ⟨rfl, rfl⟩ := Prod.mk.inj (pure_eq_ok.mp h)
  exact ⟨events, happly, rfl⟩

/-- Messages that have been decrypted are handled one after the other, so what
holds before the first and is kept by each holds after the read. -/
theorem receiveFrames_induction {motive : List Json → Session κ → Prop} {frames : List Frame}
    {out : List Json} (h : s.receiveFrames lib frames = .ok (out, s')) (hstart : motive [] s)
    (hstep : ∀ out s m events s', motive out s → s.apply lib m = .ok (events, s') →
      motive (out ++ (events ++ [promptEvent])) s') : motive out s' := by
  have hfold : ∀ frames : List Frame, ∀ before : List Json × Session κ,
      motive before.1 before.2 →
      frames.foldlM (fun (result : List Json × Session κ) frame => do
        let message ← decode frame
        let (out, s) ← result.2.handle lib message
        pure (result.1 ++ out, s)) before = .ok (out, s') → motive out s' := by
    intro frames
    induction frames with
    | nil =>
        intro before hbefore hok
        obtain rfl := pure_eq_ok.mp hok
        exact hbefore
    | cons frame rest ih =>
        intro before hbefore hok
        rw [List.foldlM_cons] at hok
        obtain ⟨after, hafter, hok⟩ := bind_eq_ok.mp hok
        obtain ⟨message, -, hafter⟩ := bind_eq_ok.mp hafter
        obtain ⟨⟨events, next⟩, hhandle, hafter⟩ := bind_eq_ok.mp hafter
        obtain rfl := pure_eq_ok.mp hafter
        obtain ⟨pushed, happly, rfl⟩ := handle_ok hhandle
        exact ih _ (hstep _ _ _ _ _ hbefore happly) hok
  exact hfold frames ([], s) hstart h

/-- A read first moves the transport on, then handles messages. -/
theorem receive_induction {motive : List Json → Session κ → Prop} {bytes : Bytes}
    {out : List Json} (h : s.receive lib bytes = .ok (out, s'))
    (hstart : ∀ noise written handshake phase, phase = s.phase ∨ (s.phase = 0 ∧ phase = 1) →
      motive [] { s with
        noise := noise, written := written, handshake := handshake, phase := phase })
    (hstep : ∀ out s m events s', motive out s → s.apply lib m = .ok (events, s') →
      motive (out ++ (events ++ [promptEvent])) s') : motive out s' := by
  unfold receive at h
  split at h
  · rename_i hphase
    obtain ⟨-, h⟩ := guard_eq_ok.mp h
    split at h
    · obtain ⟨rfl, rfl⟩ := Prod.mk.inj (pure_eq_ok.mp h)
      exact hstart s.noise s.written _ s.phase (Or.inl rfl)
    · obtain ⟨noise, -, h⟩ := bind_eq_ok.mp h
      obtain ⟨frame, -, h⟩ := bind_eq_ok.mp h
      obtain ⟨ready, hsend, h⟩ := bind_eq_ok.mp h
      obtain ⟨noise', written, rfl⟩ := send_ok hsend
      obtain ⟨⟨frames, noise''⟩, -, h⟩ := bind_eq_ok.mp h
      exact receiveFrames_induction h (hstart noise'' written [] 1 (Or.inr ⟨hphase, rfl⟩)) hstep
  · obtain ⟨⟨frames, noise⟩, -, h⟩ := bind_eq_ok.mp h
    exact receiveFrames_induction h (hstart noise s.written s.handshake s.phase (Or.inl rfl)) hstep

/-- The session still holds the job under its id, with its number. -/
def Stands (s : Session κ) (j : Job) : Prop :=
  ∃ stored, s.jobs.lookup j.wireJob = some stored ∧ s.phase = 3 ∧ j.channel = s.channel ∧
    j.epoch = s.epoch ∧ stored.future = false ∧ stored.job.generation = j.generation

/-- The job was activated in this state or before. Each later epoch began with an
activation of its own, so the epochs are no further apart than the numbers. -/
structure Older (s : Session κ) (j : Job) : Prop where
  positive : 0 < j.generation
  generation : j.generation ≤ s.generation
  epoch : j.epoch ≤ s.epoch
  lag : s.epoch + j.generation ≤ s.generation + j.epoch

/-- The jobs that are held have been activated and numbered, but for future ones. -/
def Numbered (s : Session κ) : Prop :=
  ∀ id stored, s.jobs.lookup id = some stored → stored.future = false →
    0 < stored.job.generation ∧ stored.job.generation ≤ s.generation

/-- The code's own comparisons: in 64 bits. -/
theorem valid_iff {j : Job} :
    s.valid j = true ↔ ∃ stored, s.jobs.lookup j.wireJob = some stored ∧ s.phase = 3 ∧
      j.channel = s.channel ∧ sameCount j.epoch s.epoch = true ∧ stored.future = false ∧
      sameCount stored.job.generation j.generation = true := by
  unfold valid
  cases s.jobs.lookup j.wireJob with
  | none => simp
  | some stored => simp [and_assoc]

theorem valid_of_stands {j : Job} (h : s.Stands j) : s.valid j = true := by
  obtain ⟨stored, hlookup, hphase, hchannel, hepoch, hactive, hnumber⟩ := h
  refine valid_iff.mpr ⟨stored, hlookup, hphase, hchannel, ?_, hactive, ?_⟩
  · rw [hepoch, sameCount_self]
  · rw [hnumber, sameCount_self]

/-- As long as the 64 bits of the generation have not come round, the session
takes no other job for one that stands. -/
theorem stands_of_valid {j : Job} (hcount : s.generation ≤ 2 ^ 64) (hnumbered : s.Numbered)
    (hold : s.Older j) (hvalid : s.valid j = true) : s.Stands j := by
  obtain ⟨stored, hlookup, hphase, hchannel, hepoch, hactive, hnumber⟩ := valid_iff.mp hvalid
  obtain ⟨hpositive, hle⟩ := hnumbered _ stored hlookup hactive
  have hfirst := hold.positive
  have hgeneration := hold.generation
  have hbefore := hold.epoch
  have hlag := hold.lag
  exact ⟨stored, hlookup, hphase, hchannel, eq_of_sameCount hepoch (by omega) (by omega), hactive,
    eq_of_sameCount hnumber (by omega) (by omega)⟩

/-- What a step may do to the counters and to the numbers that are held. -/
structure Counts (s s' : Session κ) : Prop where
  generation : s.generation ≤ s'.generation
  epoch : s.epoch ≤ s'.epoch
  lag : s'.epoch + s.generation ≤ s'.generation + s.epoch
  numbers : ∀ id stored, s'.jobs.lookup id = some stored → stored.future = false →
    s.jobs.lookup id = some stored ∨
      (s.generation < stored.job.generation ∧ stored.job.generation ≤ s'.generation)

theorem Older.counts {j : Job} (hold : s.Older j) (h : Counts s s') : s'.Older j := by
  have hgeneration := hold.generation
  have hepoch := hold.epoch
  have hlag := hold.lag
  have hnext := h.generation
  have hturn := h.epoch
  have hstep := h.lag
  exact ⟨hold.positive, by omega, by omega, by omega⟩

theorem Numbered.counts (hnumbered : s.Numbered) (h : Counts s s') : s'.Numbered := by
  intro id stored hlookup hactive
  have hnext := h.generation
  rcases h.numbers id stored hlookup hactive with hbefore | ⟨hlower, hupper⟩
  · obtain ⟨hpositive, hle⟩ := hnumbered id stored hbefore hactive
    exact ⟨hpositive, hle.trans hnext⟩
  · exact ⟨by omega, hupper⟩

theorem Counts.of_same (hgeneration : s'.generation = s.generation) (hepoch : s'.epoch = s.epoch)
    (hjobs : s'.jobs = s.jobs) : Counts s s' := by
  refine ⟨hgeneration.ge, hepoch.ge, by omega, ?_⟩
  intro id stored hlookup _
  rw [hjobs] at hlookup
  exact Or.inl hlookup

/-- A future job is held without a number. -/
theorem Counts.of_stored {key : UInt32} {entry : Stored} (hgeneration : s'.generation = s.generation)
    (hepoch : s'.epoch = s.epoch) (hjobs : s'.jobs = s.jobs.insert key entry)
    (hfuture : entry.future = true) : Counts s s' := by
  refine ⟨hgeneration.ge, hepoch.ge, by omega, ?_⟩
  intro id stored hlookup hactive
  rw [hjobs] at hlookup
  by_cases hid : id = key
  · rw [hid, AList.lookup_insert] at hlookup
    cases hlookup
    rw [hfuture] at hactive
    cases hactive
  · rw [AList.lookup_insert_ne hid] at hlookup
    exact Or.inl hlookup

/-- An activation takes the next number, in this epoch or in the next. -/
theorem Counts.of_activated {key : UInt32} {entry : Stored} {jobs : AList fun _ : UInt32 => Stored}
    (hgeneration : s'.generation = s.generation + 1)
    (hepoch : s'.epoch = s.epoch ∨ s'.epoch = s.epoch + 1) (hjobs : s'.jobs = jobs.insert key entry)
    (hkept : jobs = s.jobs ∨ jobs = ∅) (hnumber : entry.job.generation = s.generation + 1) :
    Counts s s' := by
  refine ⟨by omega, by omega, by omega, ?_⟩
  intro id stored hlookup _
  rw [hjobs] at hlookup
  by_cases hid : id = key
  · rw [hid, AList.lookup_insert] at hlookup
    cases hlookup
    exact Or.inr ⟨by omega, by omega⟩
  · rw [AList.lookup_insert_ne hid] at hlookup
    rcases hkept with rfl | rfl
    · exact Or.inl hlookup
    · cases hlookup

theorem submit_ok {j : Job} {nonce : UInt64} {sequence : UInt32}
    (h : s.submit lib j nonce sequence = .ok s') :
    s.submittable j nonce sequence = true ∧
      ∃ noise written, s' = { s with
        pending := s.pending ++ [sequence], lastSent := sequence, noise := noise
        written := written } := by
  unfold submit at h
  split at h
  · rename_i hguard
    obtain ⟨noise, written, rfl⟩ := send_ok h
    exact ⟨hguard, noise, written, rfl⟩
  · cases h

end Session

/-- The share an event is about and whether it was accepted, as a reader of the
event finds them. -/
def verdictOf (event : Json) : Option (Int × Bool) :=
  (event.integerMember? "id".toList).map fun id => (id, (event.value "result".toList).isTrue)

private theorem bmod_sequence (sequence : UInt32) :
    (sequence.toNat : Int).bmod (2 ^ 64) = sequence.toNat := by
  have hlt := sequence.toNat_lt
  rw [Int.bmod_def]
  split <;> omega

@[simp] theorem verdictOf_accepted (sequence : UInt32) :
    verdictOf (acceptedEvent sequence) = some ((sequence.toNat : Int), true) := by
  have hid : (acceptedEvent sequence).integerMember? "id".toList = some sequence.toNat :=
    congrArg some (bmod_sequence sequence)
  rw [verdictOf, hid]
  rfl

@[simp] theorem verdictOf_rejected (sequence : UInt32) (reason : Text) :
    verdictOf (rejectedEvent sequence reason) = some ((sequence.toNat : Int), false) := by
  have hid : (rejectedEvent sequence reason).integerMember? "id".toList = some sequence.toNat :=
    congrArg some (bmod_sequence sequence)
  rw [verdictOf, hid]
  rfl

@[simp] theorem verdictOf_difficulty (number : Json) :
    verdictOf (difficultyEvent number) = none := rfl

@[simp] theorem verdictOf_prompt : verdictOf promptEvent = none := rfl

/-- Only verdicts produce events about shares. -/
theorem verdicts_of_not_verdict {lib : Foreign κ} {s s' : Session κ} {m : Message}
    {out : List Json} (hother : m.isVerdict = false) (h : s.apply lib m = .ok (out, s')) :
    out.filterMap verdictOf = [] := by
  cases Session.applied_of_ok h with
  | accepted => cases hother
  | rejected => cases hother
  | _ => rfl

@[simp] theorem verdicts_accepted (sequences : List UInt32) :
    (sequences.map acceptedEvent).filterMap verdictOf =
      sequences.map fun s => ((s.toNat : Int), true) := by
  induction sequences with
  | nil => rfl
  | cons s rest ih =>
      rw [List.map_cons, List.filterMap_cons_some (verdictOf_accepted s), ih, List.map_cons]

/-- Every share a list of events is about, in order. -/
def sharesIn (events : List Json) : List Int := (events.filterMap verdictOf).map Prod.fst

@[simp] theorem sharesIn_append (a b : List Json) : sharesIn (a ++ b) = sharesIn a ++ sharesIn b := by
  simp [sharesIn]

theorem sharesIn_of_none {event : Json} (rest : List Json)
    (hid : event.integerMember? "id".toList = none) :
    sharesIn (event :: rest) = sharesIn rest := by
  have hverdict : verdictOf event = none := by rw [verdictOf, hid]; rfl
  rw [sharesIn, List.filterMap_cons_none hverdict, sharesIn]

theorem sharesIn_of_some {event : Json} {id : Int} (rest : List Json)
    (hid : event.integerMember? "id".toList = some id) :
    sharesIn (event :: rest) = id :: sharesIn rest := by
  have hverdict : verdictOf event = some (id, (event.value "result".toList).isTrue) := by
    rw [verdictOf, hid]
    rfl
  rw [sharesIn, List.filterMap_cons_some hverdict, List.map_cons, sharesIn]

@[simp] theorem sharesIn_prompt : sharesIn [promptEvent] = [] := rfl

/-- The outstanding sequence numbers as the ids of the miner. -/
def Session.outstanding (s : Session κ) : List Int := s.pending.map fun n => (n.toNat : Int)

private theorem settle_conserves (batches : List Batch) (pending : List UInt32)
    {out : List Json} {batches' : List Batch} {left : List UInt32}
    (h : Session.settle batches pending = .ok (out, batches', left)) :
    (sharesIn out ++ left.map fun n => (n.toNat : Int)).Perm
      (pending.map fun n => (n.toNat : Int)) := by
  induction batches generalizing pending out with
  | nil =>
      obtain ⟨rfl, -, rfl⟩ := (by simpa using Loops.pure_eq_ok.mp h :
        out = [] ∧ batches' = [] ∧ pending = left)
      exact .refl _
  | cons b rest ih =>
      rw [Session.settle] at h
      obtain ⟨-, h⟩ := Loops.guard_eq_ok.mp h
      split at h
      · obtain ⟨rfl, -, rfl⟩ := (by simpa using Loops.pure_eq_ok.mp h :
          out = [] ∧ b :: rest = batches' ∧ pending = left)
        exact .refl _
      · obtain ⟨⟨later, queue, rest'⟩, hrest, h⟩ := Loops.bind_eq_ok.mp h
        obtain ⟨rfl, rfl, rfl⟩ := (by simpa using Loops.pure_eq_ok.mp h :
          _ = out ∧ queue = batches' ∧ rest' = left)
        have hsettled : sharesIn ((pending.filter (· ≤ b.last)).map acceptedEvent) =
            (pending.filter (· ≤ b.last)).map fun n => (n.toNat : Int) := by
          simp [sharesIn, Function.comp_def]
        rw [sharesIn_append, hsettled, List.append_assoc]
        refine ((ih _ hrest).append_left _).trans ?_
        rw [← List.map_append]
        exact (List.filter_append_perm _ pending).map _

/-- Whatever the pool says, a share that stops being outstanding is in the
events exactly once. -/
theorem apply_conserves {lib : Foreign κ} {s s' : Session κ} {m : Message} {out : List Json}
    (h : s.apply lib m = .ok (out, s')) : (sharesIn out ++ s'.outstanding).Perm s.outstanding := by
  cases Session.applied_of_ok h with
  | accepted channel last count sum events batches pending hphase hsettle =>
      exact settle_conserves _ _ hsettle
  | rejected channel sequence reason events batches pending hphase hpending hsettle =>
      have hevents : sharesIn (rejectedEvent sequence reason :: events) =
          (sequence.toNat : Int) :: sharesIn events := by
        simp [sharesIn]
      rw [hevents, List.cons_append]
      refine ((settle_conserves _ _ hsettle).cons _).trans ?_
      exact ((List.perm_cons_erase hpending).map fun n => (n.toNat : Int)).symm
  | _ => exact .refl _

theorem receive_conserves {lib : Foreign κ} {s s' : Session κ} {bytes : Bytes} {out : List Json}
    (h : s.receive lib bytes = .ok (out, s')) :
    (sharesIn out ++ s'.outstanding).Perm s.outstanding := by
  refine Session.receive_induction
    (motive := fun out next => (sharesIn out ++ next.outstanding).Perm s.outstanding) h ?_ ?_
  · intro noise written handshake phase _
    exact .refl _
  · intro out s₁ m events s₂ hbefore happly
    rw [sharesIn_append, sharesIn_append, sharesIn_prompt, List.append_nil, List.append_assoc]
    exact ((apply_conserves happly).append_left _).trans hbefore

end Supryolo.Sv2
