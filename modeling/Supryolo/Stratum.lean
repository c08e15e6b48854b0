import Supryolo.Coin
import Supryolo.Cpu
import Supryolo.Json
import Supryolo.Lib.Loops
import Mathlib.Data.List.AList

/-!
Model of `stratum.cpp`: the SV1 session state, the messages that change it and
the validity of a job. `generation` and `epoch` are `uint64_t` counters that
wrap: the fields keep the exact count, of which the code holds the low 64 bits,
and every comparison (`sameCount`) and the extranonce are made of those. An
exception ends the connection, and with it the state.
-/

namespace Supryolo

open Words

/-- Two `uint64_t` counters with these exact counts compare equal. -/
def sameCount (a b : Nat) : Bool := a.toUInt64 == b.toUInt64

theorem sameCount_iff {a b : Nat} : sameCount a b = true ↔ a % 2 ^ 64 = b % 2 ^ 64 := by
  rw [sameCount, beq_iff_eq, ← UInt64.toNat_inj, Nat.toUInt64_eq, Nat.toUInt64_eq,
    UInt64.toNat_ofNat', UInt64.toNat_ofNat']

@[simp] theorem sameCount_self (a : Nat) : sameCount a a = true := sameCount_iff.mpr rfl

theorem sameCount_eq_false {a b : Nat} (h : a % 2 ^ 64 ≠ b % 2 ^ 64) : sameCount a b = false := by
  rw [← Bool.not_eq_true, sameCount_iff]
  exact h

/-- Counters that are less than one turn apart compare equal only at the same
count. -/
theorem eq_of_sameCount {a b : Nat} (h : sameCount a b = true) (ha : a < b + 2 ^ 64)
    (hb : b < a + 2 ^ 64) : a = b := by
  have hmod := sameCount_iff.mp h
  omega

structure Job where
  work : Work
  id : Text := []
  en2 : Text := []
  ntime : Text := []
  generation : Nat := 0
  epoch : Nat := 0
  networkTarget : Hash := Vector.replicate 32 0
  sv2 : Bool := false
  channel : UInt32 := 0
  wireJob : UInt32 := 0
  version : UInt32 := 0
  time32 : UInt32 := 0
  deriving DecidableEq

structure StratumState where
  en1 : Text := []
  en2Size : Nat := 0
  nextTarget : Hash := Vector.replicate 32 0
  haveTarget : Bool := false
  generation : Nat := 0
  epoch : Nat := 0
  validIds : AList fun _ : Text => Nat := ∅
  authorized : Bool := false
  current : Option Job := none

namespace StratumState

/-- The eight bytes of the extranonce as text. -/
def extraNonce (generation : Nat) : Text := hex (leBytes 8 generation.toUInt64)

def setDifficulty (s : StratumState) (p : List Json) : Except String StratumState :=
  match p with
  | [number] =>
      match number.dumpNumber with
      | some text => do
          let target ← difficultyTarget text
          pure { s with nextTarget := target, haveTarget := true }
      | none => throw "invalid difficulty message"
  | _ => throw "invalid difficulty message"

/-- Both places that adopt an extranonce check its two sizes alike. -/
def adoptExtranonce (s : StratumState) (message : String) (first second : Json) :
    Except String StratumState := do
  let e ← first.getString
  let n ← second.getInt
  let bytes ← unhex e
  if bytes.length ≠ 4 ∨ n ≠ 8 then throw message
  pure { s with en1 := e, en2Size := n.toNat }

def setExtranonce (s : StratumState) (p : List Json) : Except String StratumState :=
  match p with
  | [e, n] => s.adoptExtranonce "unsupported extranonce sizes" e n
  | _ => throw "invalid extranonce message"

/-- A notification has nine parameters, the fifth an empty merkle branch. -/
def notify (s : StratumState) (p : List Json) : Except String (Job × StratumState) :=
  match p with
  | [id, prev, c1, c2, branch, version, nbits, time, clean] => do
      if s.haveTarget = false ∨ s.en2Size ≠ 8 then throw "unsupported or premature job"
      match branch with
      | .array [] => pure ()
      | _ => throw "unsupported or premature job"
      let id ← id.getString
      if id = [] ∨ id.length > 256 then throw "invalid job ID"
      let version ← unhex (← version.getString)
      if version.length ≠ 4 then throw "invalid version or nbits length"
      let bits ← unhex (← nbits.getString)
      if bits.length ≠ 4 then throw "invalid version or nbits length"
      let clean ← clean.getBool
      let epoch := if clean then s.epoch + 1 else s.epoch
      let ids := if clean then ∅ else s.validIds
      if ids.entries.length ≥ 1024 then throw "too many active jobs"
      let generation := s.generation + 1
      let en2 := extraNonce generation
      let ntime ← time.getString
      let header ← siaWork (← prev.getString) (← c1.getString) (← c2.getString) s.en1 en2 ntime
      let networkTarget ← compactTarget (← nbits.getString)
      let job : Job :=
        { work := { header := header, target := s.nextTarget }
          id := id, en2 := en2, ntime := ntime, generation := generation, epoch := epoch
          networkTarget := networkTarget }
      pure (job,
        { s with
          generation := generation, epoch := epoch, validIds := ids.insert id generation
          current := some job })
  | _ => throw "unsupported or premature job"

/-- A message with a method is a request or a notification of the server. -/
def receiveMethod (s : StratumState) (method : Text) (p : List Json) :
    Except String (Option Job × StratumState) :=
  if method = "mining.set_difficulty".toList then do
    let s ← s.setDifficulty p
    pure (none, s)
  else if method = "mining.set_extranonce".toList then do
    let s ← s.setExtranonce p
    pure (none, s)
  else if method = "mining.notify".toList then do
    let (job, s) ← s.notify p
    pure (some job, s)
  else pure (none, s)

/-- Replies to the three requests the miner opens a connection with; only the
first and the third change the state. -/
def receiveReply (s : StratumState) (msg : Json) (id : Int) : Except String StratumState := do
  if id = 1 then
    match ← msg.atKey "result".toList with
    | .array [_, e, n] => s.adoptExtranonce "unsupported subscription extranonce" e n
    | _ => throw "subscription refused"
  else if id = 3 then
    if (msg.value "result".toList).isTrue then pure { s with authorized := true }
    else throw "authorization refused"
  else pure s

def receive (s : StratumState) (msg : Json) : Except String (Option Job × StratumState) :=
  match msg with
  | .object _ =>
      match msg.member? "method".toList with
      | some method => do
          let method ← method.getString
          match ← msg.atKey "params".toList with
          | .array p => s.receiveMethod method p
          | _ => throw "invalid Stratum parameters"
      | none =>
          match msg.integerMember? "id".toList with
          | some id => do
              let s ← s.receiveReply msg id
              pure (none, s)
          | none => pure (none, s)
  | _ => throw "invalid Stratum object"

def valid (s : StratumState) (j : Job) : Bool :=
  s.authorized && sameCount j.epoch s.epoch &&
    (s.validIds.lookup j.id).any fun number => sameCount number j.generation

open Loops

variable {s s' : StratumState}

/-- The parameters of a notification the state accepts, and the job made of
them. -/
structure Notified (s : StratumState) (p : List Json) (job : Job) where
  prev : Text
  c1 : Text
  c2 : Text
  nbits : Text
  clean : Bool
  params : ∃ branch version, p = [.string job.id, .string prev, .string c1, .string c2, branch,
    version, .string nbits, .string job.ntime, .boolean clean]
  ready : s.haveTarget = true ∧ s.en2Size = 8
  room : (if clean then ∅ else s.validIds).entries.length < 1024
  generation : job.generation = s.generation + 1
  epoch : job.epoch = if clean then s.epoch + 1 else s.epoch
  en2 : job.en2 = extraNonce job.generation
  sv1 : job.sv2 = false
  header : siaWork prev c1 c2 s.en1 job.en2 job.ntime = .ok job.work.header
  target : job.work.target = s.nextTarget
  network : compactTarget nbits = .ok job.networkTarget

theorem getString_ok {json : Json} {text : Text} (h : json.getString = .ok text) :
    json = .string text := by
  cases json with
  | string value => exact congrArg Json.string (pure_eq_ok.mp h)
  | _ => cases h

theorem atKey_ok {json value : Json} {key : Text} (h : json.atKey key = .ok value) :
    json.member? key = some value := by
  unfold Json.atKey at h
  split at h
  · rename_i found hfound
    rw [hfound, pure_eq_ok.mp h]
  · cases h

theorem getBool_ok {json : Json} {b : Bool} (h : json.getBool = .ok b) : json = .boolean b := by
  cases json with
  | boolean value => exact congrArg Json.boolean (pure_eq_ok.mp h)
  | _ => cases h

theorem notify_ok {p : List Json} {job : Job} (h : s.notify p = .ok (job, s')) :
    ∃ n : Notified s p job,
      s' = { s with
        generation := job.generation, epoch := job.epoch, current := some job
        validIds := (if n.clean then ∅ else s.validIds).insert job.id job.generation } := by
  unfold notify at h
  split at h
  · rename_i id prev c1 c2 branch version nbits time clean
    obtain ⟨hready, h⟩ := guard_eq_ok.mp h
    simp only [not_or, Bool.not_eq_false, ne_eq, not_not] at hready
    dsimp only at h
    split at h
    · obtain ⟨idText, hid, h⟩ := bind_eq_ok.mp h
      obtain ⟨-, h⟩ := guard_eq_ok.mp h
      obtain ⟨versionText, -, h⟩ := bind_eq_ok.mp h
      obtain ⟨versionBytes, -, h⟩ := bind_eq_ok.mp h
      obtain ⟨-, h⟩ := guard_eq_ok.mp h
      obtain ⟨bitsText, -, h⟩ := bind_eq_ok.mp h
      obtain ⟨bits, -, h⟩ := bind_eq_ok.mp h
      obtain ⟨-, h⟩ := guard_eq_ok.mp h
      obtain ⟨isClean, hclean, h⟩ := bind_eq_ok.mp h
      obtain ⟨hroom, h⟩ := guard_eq_ok.mp h
      obtain ⟨ntime, htime, h⟩ := bind_eq_ok.mp h
      obtain ⟨prevText, hprev, h⟩ := bind_eq_ok.mp h
      obtain ⟨c1Text, hc1, h⟩ := bind_eq_ok.mp h
      obtain ⟨c2Text, hc2, h⟩ := bind_eq_ok.mp h
      obtain ⟨header, hheader, h⟩ := bind_eq_ok.mp h
      obtain ⟨networkText, hbits, h⟩ := bind_eq_ok.mp h
      obtain ⟨networkTarget, hnetwork, h⟩ := bind_eq_ok.mp h
      obtain ⟨rfl, rfl⟩ := Prod.mk.inj (pure_eq_ok.mp h)
      obtain rfl := getString_ok hid
      obtain rfl := getString_ok hprev
      obtain rfl := getString_ok hc1
      obtain rfl := getString_ok hc2
      obtain rfl := getString_ok htime
      obtain rfl := getString_ok hbits
      obtain rfl := getBool_ok hclean
      exact ⟨⟨prevText, c1Text, c2Text, networkText, isClean, ⟨_, _, rfl⟩, hready,
        Nat.lt_of_not_le hroom, rfl, rfl, rfl, rfl, hheader, rfl, hnetwork⟩, rfl⟩
    · cases h
  · cases h

/-- What only a notification changes. -/
structure SameJobs (s s' : StratumState) : Prop where
  generation : s'.generation = s.generation
  epoch : s'.epoch = s.epoch
  validIds : s'.validIds = s.validIds
  current : s'.current = s.current

theorem adoptExtranonce_ok {message : String} {first second : Json}
    (h : s.adoptExtranonce message first second = .ok s') :
    ∃ e, first = .string e ∧ s' = { s with en1 := e, en2Size := 8 } := by
  obtain ⟨e, he, h⟩ := bind_eq_ok.mp h
  obtain ⟨n, -, h⟩ := bind_eq_ok.mp h
  obtain ⟨bytes, -, h⟩ := bind_eq_ok.mp h
  obtain ⟨hsizes, h⟩ := guard_eq_ok.mp h
  simp only [not_or, ne_eq, not_not] at hsizes
  obtain ⟨-, rfl⟩ := hsizes
  exact ⟨e, getString_ok he, (pure_eq_ok.mp h).symm⟩

theorem setExtranonce_ok {p : List Json} (h : s.setExtranonce p = .ok s') :
    ∃ e size, p = [.string e, size] ∧ s' = { s with en1 := e, en2Size := 8 } := by
  unfold setExtranonce at h
  split at h
  · obtain ⟨e, rfl, rfl⟩ := adoptExtranonce_ok h
    exact ⟨e, _, rfl, rfl⟩
  · cases h

theorem setDifficulty_ok {p : List Json} (h : s.setDifficulty p = .ok s') :
    ∃ number text target, p = [number] ∧ number.dumpNumber = some text ∧
      difficultyTarget text = .ok target ∧
      s' = { s with nextTarget := target, haveTarget := true } := by
  unfold setDifficulty at h
  split at h
  · rename_i number
    split at h
    · rename_i text htext
      obtain ⟨target, htarget, h⟩ := bind_eq_ok.mp h
      exact ⟨number, text, target, rfl, htext, htarget, (pure_eq_ok.mp h).symm⟩
    · cases h
  · cases h

theorem receiveReply_ok {msg : Json} {id : Int} (h : s.receiveReply msg id = .ok s') :
    (id = 1 ∧ ∃ first e size, msg.member? "result".toList = some (.array [first, .string e, size]) ∧
        s' = { s with en1 := e, en2Size := 8 }) ∨
      (id = 3 ∧ (msg.value "result".toList).isTrue = true ∧ s' = { s with authorized := true }) ∨
      (id ≠ 1 ∧ id ≠ 3 ∧ s' = s) := by
  unfold receiveReply at h
  split at h
  · rename_i hid
    obtain ⟨result, hresult, h⟩ := bind_eq_ok.mp h
    split at h
    · rename_i first e size
      obtain ⟨e, rfl, rfl⟩ := adoptExtranonce_ok h
      exact Or.inl ⟨hid, first, e, size, atKey_ok hresult, rfl⟩
    · cases h
  · rename_i hid
    refine Or.inr ?_
    split at h
    · rename_i hthree
      split at h
      · rename_i hgranted
        exact Or.inl ⟨hthree, hgranted, (pure_eq_ok.mp h).symm⟩
      · cases h
    · rename_i hthree
      exact Or.inr ⟨hid, hthree, (pure_eq_ok.mp h).symm⟩

/-- Every way a message can be accepted. -/
inductive Received (s : StratumState) (msg : Json) : Option Job → StratumState → Prop
  | notified (p : List Json) (job : Job) (s' : StratumState)
      (hmethod : msg.member? "method".toList = some (.string "mining.notify".toList))
      (hparams : msg.member? "params".toList = some (.array p))
      (hnotify : s.notify p = .ok (job, s')) : Received s msg (some job) s'
  | difficulty (number : Json) (text : Text) (target : Hash)
      (hmethod : msg.member? "method".toList = some (.string "mining.set_difficulty".toList))
      (hparams : msg.member? "params".toList = some (.array [number]))
      (hnumber : number.dumpNumber = some text) (htarget : difficultyTarget text = .ok target) :
      Received s msg none { s with nextTarget := target, haveTarget := true }
  | extranonce (size : Json) (text : Text)
      (hmethod : msg.member? "method".toList = some (.string "mining.set_extranonce".toList))
      (hparams : msg.member? "params".toList = some (.array [.string text, size])) :
      Received s msg none { s with en1 := text, en2Size := 8 }
  | other (method : Text) (hmethod : msg.member? "method".toList = some (.string method))
      (hother : method ≠ "mining.set_difficulty".toList ∧
        method ≠ "mining.set_extranonce".toList ∧ method ≠ "mining.notify".toList) :
      Received s msg none s
  | subscribed (first size : Json) (text : Text)
      (hmethod : msg.member? "method".toList = none)
      (hid : msg.integerMember? "id".toList = some 1)
      (hresult : msg.member? "result".toList = some (.array [first, .string text, size])) :
      Received s msg none { s with en1 := text, en2Size := 8 }
  | authorized (hmethod : msg.member? "method".toList = none)
      (hid : msg.integerMember? "id".toList = some 3)
      (hresult : (msg.value "result".toList).isTrue = true) :
      Received s msg none { s with authorized := true }
  | replied (hmethod : msg.member? "method".toList = none)
      (hid : msg.integerMember? "id".toList ≠ some 1 ∧ msg.integerMember? "id".toList ≠ some 3) :
      Received s msg none s

private theorem received_of_method {msg : Json} {method : Text} {p : List Json} {job : Option Job}
    (hmethod : msg.member? "method".toList = some (.string method))
    (hparams : msg.member? "params".toList = some (.array p))
    (h : s.receiveMethod method p = .ok (job, s')) : Received s msg job s' := by
  unfold receiveMethod at h
  split at h
  · rename_i hdifficulty
    obtain ⟨next, hnext, h⟩ := bind_eq_ok.mp h
    obtain ⟨rfl, rfl⟩ := Prod.mk.inj (pure_eq_ok.mp h)
    obtain ⟨number, text, target, rfl, hnumber, htarget, rfl⟩ := setDifficulty_ok hnext
    exact .difficulty number text target (by rw [hmethod, hdifficulty]) hparams hnumber htarget
  · rename_i hdifficulty
    split at h
    · rename_i hextranonce
      obtain ⟨next, hnext, h⟩ := bind_eq_ok.mp h
      obtain ⟨rfl, rfl⟩ := Prod.mk.inj (pure_eq_ok.mp h)
      obtain ⟨e, size, rfl, rfl⟩ := setExtranonce_ok hnext
      exact .extranonce size e (by rw [hmethod, hextranonce]) hparams
    · rename_i hextranonce
      split at h
      · rename_i hnotify
        obtain ⟨⟨made, next⟩, hmade, h⟩ := bind_eq_ok.mp h
        obtain ⟨rfl, rfl⟩ := Prod.mk.inj (pure_eq_ok.mp h)
        exact .notified p made next (by rw [hmethod, hnotify]) hparams hmade
      · rename_i hnotify
        obtain ⟨rfl, rfl⟩ := Prod.mk.inj (pure_eq_ok.mp h)
        exact .other method hmethod ⟨hdifficulty, hextranonce, hnotify⟩

theorem received_of_ok {msg : Json} {job : Option Job} (h : s.receive msg = .ok (job, s')) :
    Received s msg job s' := by
  unfold receive at h
  split at h
  · rename_i members
    cases hmethod : (Json.object members).member? "method".toList with
    | none =>
        rw [hmethod] at h
        cases hid : (Json.object members).integerMember? "id".toList with
        | none =>
            rw [hid] at h
            obtain ⟨rfl, rfl⟩ := Prod.mk.inj (pure_eq_ok.mp h)
            exact .replied hmethod (by rw [hid]; simp)
        | some id =>
            rw [hid] at h
            obtain ⟨next, hreply, h⟩ := bind_eq_ok.mp h
            obtain ⟨rfl, rfl⟩ := Prod.mk.inj (pure_eq_ok.mp h)
            rcases receiveReply_ok hreply with
              ⟨rfl, first, e, size, hresult, rfl⟩ | ⟨rfl, hresult, rfl⟩ | ⟨hone, hthree, rfl⟩
            · exact .subscribed first size e hmethod hid hresult
            · exact .authorized hmethod hid hresult
            · exact .replied hmethod (by rw [hid]; simpa using ⟨hone, hthree⟩)
    | some method =>
        rw [hmethod] at h
        obtain ⟨text, htext, h⟩ := bind_eq_ok.mp h
        obtain ⟨params, hparams, h⟩ := bind_eq_ok.mp h
        obtain rfl := getString_ok htext
        cases params with
        | array p => exact received_of_method hmethod (atKey_ok hparams) h
        | _ => cases h
  · cases h

/-- A notice that is accepted announces its job. -/
theorem receive_notify {members : List (Text × Json)} {msg : Json} {p : List Json} {job : Job}
    (hobject : msg = .object members)
    (hmethod : msg.member? "method".toList = some (.string "mining.notify".toList))
    (hparams : msg.atKey "params".toList = .ok (.array p)) (h : s.notify p = .ok (job, s')) :
    s.receive msg = .ok (some job, s') := by
  have hnotify : s.receiveMethod "mining.notify".toList p = .ok (some job, s') := by
    unfold receiveMethod
    rw [if_neg (by decide), if_neg (by decide), if_pos rfl, h]
    rfl
  subst hobject
  have hstring : (Json.string "mining.notify".toList).getString = .ok "mining.notify".toList := rfl
  simp only [receive, hmethod, hparams, hstring, ok_bind, hnotify]

/-- The generation and the current job change only together. -/
theorem sameJobs_of_none {msg : Json} (h : Received s msg none s') : SameJobs s s' := by
  cases h <;> exact ⟨rfl, rfl, rfl, rfl⟩

variable {msg : Json} {job : Option Job}

/-- The id of the job still stands for it. -/
def Stands (s : StratumState) (j : Job) : Prop :=
  j.epoch = s.epoch ∧ s.validIds.lookup j.id = some j.generation

/-- The job was made in this state or before. Each later epoch began with a job
of its own, so the epochs are no further apart than the numbers. -/
structure Older (s : StratumState) (j : Job) : Prop where
  positive : 0 < j.generation
  generation : j.generation ≤ s.generation
  epoch : j.epoch ≤ s.epoch
  lag : s.epoch + j.generation ≤ s.generation + j.epoch

/-- The numbers kept for the ids are numbers of jobs. -/
def Numbered (s : StratumState) : Prop :=
  ∀ id number, s.validIds.lookup id = some number → 0 < number ∧ number ≤ s.generation

theorem valid_of_stands {j : Job} (hauthorized : s.authorized = true) (hstands : s.Stands j) :
    s.valid j = true := by
  rw [valid, hauthorized, hstands.1, hstands.2]
  simp

/-- As long as the 64 bits of the generation have not come round, the code takes
no other job for one that stands. -/
theorem stands_of_valid {j : Job} (hcount : s.generation ≤ 2 ^ 64) (hnumbered : s.Numbered)
    (hold : s.Older j) (hvalid : s.valid j = true) : s.Stands j := by
  simp only [valid, Bool.and_eq_true, Option.any_eq_true] at hvalid
  obtain ⟨⟨-, hepoch⟩, number, hlookup, hnumber⟩ := hvalid
  obtain ⟨hpositive, hle⟩ := hnumbered j.id number hlookup
  have hfirst := hold.positive
  have hgeneration := hold.generation
  have hbefore := hold.epoch
  have hlag := hold.lag
  obtain rfl := eq_of_sameCount hnumber (by omega) (by omega)
  exact ⟨eq_of_sameCount hepoch (by omega) (by omega), hlookup⟩

theorem authorized_of_valid {j : Job} (hvalid : s.valid j = true) : s.authorized = true := by
  simp only [valid, Bool.and_eq_true] at hvalid
  exact hvalid.1.1

theorem valid_iff {j : Job} (hcount : s.generation ≤ 2 ^ 64) (hnumbered : s.Numbered)
    (hold : s.Older j) : s.valid j = true ↔ s.authorized = true ∧ s.Stands j :=
  ⟨fun hvalid => ⟨authorized_of_valid hvalid, stands_of_valid hcount hnumbered hold hvalid⟩,
    fun h => valid_of_stands h.1 h.2⟩

/-- A job that is announced stands. -/
theorem stands_notify {p : List Json} {j : Job} (h : s.notify p = .ok (j, s')) :
    s'.Stands j ∧ s'.Older j := by
  obtain ⟨n, rfl⟩ := notify_ok h
  have hnext := n.generation
  exact ⟨⟨rfl, AList.lookup_insert _⟩, ⟨by omega, le_refl _, le_refl _, (Nat.add_comm _ _).le⟩⟩

theorem Numbered.receive (hnumbered : s.Numbered) (h : s.receive msg = .ok (job, s')) :
    s'.Numbered := by
  intro id number hlookup
  cases job with
  | none =>
      have hsame := sameJobs_of_none (received_of_ok h)
      rw [hsame.validIds] at hlookup
      rw [hsame.generation]
      exact hnumbered id number hlookup
  | some made =>
      cases received_of_ok h with
      | notified p made s' hmethod hparams hnotify =>
          obtain ⟨n, rfl⟩ := notify_ok hnotify
          have hnext := n.generation
          dsimp only at hlookup ⊢
          by_cases hid : id = made.id
          · rw [hid, AList.lookup_insert] at hlookup
            cases hlookup
            omega
          · rw [AList.lookup_insert_ne hid] at hlookup
            split at hlookup
            · cases hlookup
            · have hbefore := hnumbered id number hlookup
              omega

theorem Older.notify {p : List Json} {j made : Job} (hold : s.Older j)
    (h : s.notify p = .ok (made, s')) : s'.Older j := by
  have hgeneration := hold.generation
  have hepoch := hold.epoch
  have hlag := hold.lag
  obtain ⟨n, rfl⟩ := notify_ok h
  have hnext := n.generation
  have hclean := n.epoch
  have hstep : s.epoch ≤ made.epoch ∧ made.epoch ≤ s.epoch + 1 := by
    split at hclean <;> omega
  refine ⟨hold.positive, ?_, ?_, ?_⟩ <;> dsimp only <;> omega

theorem Older.receive {j : Job} (hold : s.Older j) (h : s.receive msg = .ok (job, s')) :
    s'.Older j := by
  cases job with
  | none =>
      have hsame := sameJobs_of_none (received_of_ok h)
      refine ⟨hold.positive, ?_, ?_, ?_⟩
      · rw [hsame.generation]
        exact hold.generation
      · rw [hsame.epoch]
        exact hold.epoch
      · rw [hsame.generation, hsame.epoch]
        exact hold.lag
  | some made =>
      cases received_of_ok h with
      | notified p made s' hmethod hparams hnotify => exact hold.notify hnotify

end StratumState

end Supryolo
