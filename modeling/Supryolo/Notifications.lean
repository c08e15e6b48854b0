import Supryolo.Stratum
import Supryolo.Lib.Histories
import Mathlib.Data.List.ReduceOption

/-!
SV1 jobs over whole histories of accepted messages. What a message says is read
off the message alone: the difficulty or the extranonce it sets, whether it
grants the authorization, which job it announces. The state at the end of a
history and the jobs returned in it are then what these readings determine: a
job is made of the last settings before it, and it stays valid until a later
announcement withdraws it.
-/

namespace Supryolo

open Histories Loops

namespace StratumState

/-- The parameters of a message with the given method. -/
def paramsOf (method : Text) (msg : Json) : Option (List Json) :=
  match msg.member? "method".toList, msg.member? "params".toList with
  | some (.string text), some (.array p) => if text = method then some p else none
  | _, _ => none

/-- The id of the job a notification announces, and whether it is a clean one. -/
def announced (msg : Json) : Option (Text × Bool) :=
  match paramsOf "mining.notify".toList msg with
  | some [.string id, _, _, _, _, _, _, _, .boolean clean] => some (id, clean)
  | _ => none

def difficultySet (msg : Json) : Option Hash :=
  match paramsOf "mining.set_difficulty".toList msg with
  | some [number] => number.dumpNumber.bind fun text => (difficultyTarget text).toOption
  | _ => none

/-- The extranonce comes from a notification of its own or from the reply to the
subscription. -/
def extranonceSet (msg : Json) : Option Text :=
  match paramsOf "mining.set_extranonce".toList msg with
  | some [.string e, _] => some e
  | some _ => none
  | none =>
      match msg.member? "method".toList, msg.integerMember? "id".toList,
        msg.member? "result".toList with
      | none, some 1, some (.array [_, .string e, _]) => some e
      | _, _, _ => none

def grants (msg : Json) : Bool :=
  (msg.member? "method".toList).isNone && msg.integerMember? "id".toList == some 3 &&
    (msg.value "result".toList).isTrue

/-- A message that only stages a difficulty or an extranonce for later jobs. -/
def isSetter (msg : Json) : Bool :=
  (paramsOf "mining.set_difficulty".toList msg).isSome ||
    (paramsOf "mining.set_extranonce".toList msg).isSome

/-- An announcement withdraws the jobs with its id, a clean one every job. -/
def Withdraws (msg : Json) (j : Job) : Prop :=
  ∃ id clean, announced msg = some (id, clean) ∧ (clean = true ∨ id = j.id)

variable {s s' : StratumState} {msg : Json} {job : Option Job}

theorem paramsOf_of {text : Text} {p : List Json}
    (hmethod : msg.member? "method".toList = some (.string text))
    (hparams : msg.member? "params".toList = some (.array p)) (method : Text) :
    paramsOf method msg = if text = method then some p else none := by
  rw [paramsOf, hmethod, hparams]

theorem paramsOf_other {text method : Text}
    (hmethod : msg.member? "method".toList = some (.string text)) (hother : text ≠ method) :
    paramsOf method msg = none := by
  rw [paramsOf, hmethod]
  split
  · rename_i heq _
    cases heq
    exact if_neg hother
  · rfl

theorem paramsOf_reply (hmethod : msg.member? "method".toList = none) (method : Text) :
    paramsOf method msg = none := by
  rw [paramsOf, hmethod]

private theorem readings_method {text : Text}
    (hmethod : msg.member? "method".toList = some (.string text)) : grants msg = false := by
  rw [grants, hmethod]
  rfl

private theorem extranonceSet_method {text : Text}
    (hmethod : msg.member? "method".toList = some (.string text))
    (hother : text ≠ "mining.set_extranonce".toList) : extranonceSet msg = none := by
  rw [extranonceSet, paramsOf_other hmethod hother, hmethod]

private theorem difficultySet_other {text : Text}
    (hmethod : msg.member? "method".toList = some (.string text))
    (hother : text ≠ "mining.set_difficulty".toList) : difficultySet msg = none := by
  rw [difficultySet, paramsOf_other hmethod hother]

private theorem announced_other {text : Text}
    (hmethod : msg.member? "method".toList = some (.string text))
    (hother : text ≠ "mining.notify".toList) : announced msg = none := by
  rw [announced, paramsOf_other hmethod hother]

private theorem readings_reply (hmethod : msg.member? "method".toList = none) :
    announced msg = none ∧ difficultySet msg = none := by
  rw [announced, difficultySet, paramsOf_reply hmethod, paramsOf_reply hmethod]
  exact ⟨rfl, rfl⟩

private theorem extranonceSet_reply (hmethod : msg.member? "method".toList = none)
    (hid : msg.integerMember? "id".toList ≠ some 1) : extranonceSet msg = none := by
  rw [extranonceSet, paramsOf_reply hmethod, hmethod]
  dsimp only
  split
  · rename_i hone _
    exact absurd hone hid
  · rfl

private theorem grants_other (hid : msg.integerMember? "id".toList ≠ some 3) :
    grants msg = false := by
  have hother : (msg.integerMember? "id".toList == some 3) = false := beq_false_of_ne hid
  rw [grants, hother, Bool.and_false, Bool.false_and]

theorem Notified.announced_eq {p : List Json} {made : Job} (n : Notified s p made)
    (hmethod : msg.member? "method".toList = some (.string "mining.notify".toList))
    (hparams : msg.member? "params".toList = some (.array p)) :
    announced msg = some (made.id, n.clean) := by
  obtain ⟨branch, version, hp⟩ := n.params
  rw [hp] at hparams
  rw [announced, paramsOf_of hmethod hparams, if_pos rfl]

/-- A message that is accepted does what it says. -/
theorem Received.readings (h : Received s msg job s') :
    (announced msg).isSome = job.isSome ∧ s'.authorized = (s.authorized || grants msg) ∧
      s'.nextTarget = (difficultySet msg).getD s.nextTarget ∧
      s'.haveTarget = (s.haveTarget || (difficultySet msg).isSome) ∧
      s'.en1 = (extranonceSet msg).getD s.en1 ∧
      s'.en2Size = if (extranonceSet msg).isSome then 8 else s.en2Size := by
  cases h with
  | notified p job s' hmethod hparams hnotify =>
      obtain ⟨n, rfl⟩ := notify_ok hnotify
      rw [n.announced_eq hmethod hparams, readings_method hmethod, difficultySet_other hmethod (by decide),
        extranonceSet_method hmethod (by decide)]
      simp
  | difficulty number text target hmethod hparams hnumber htarget =>
      have hset : difficultySet msg = some target := by
        rw [difficultySet, paramsOf_of hmethod hparams, if_pos rfl]
        dsimp only
        rw [hnumber, Option.bind_some, htarget]
        rfl
      rw [hset, readings_method hmethod, announced_other hmethod (by decide),
        extranonceSet_method hmethod (by decide)]
      simp
  | extranonce size text hmethod hparams =>
      have hset : extranonceSet msg = some text := by
        rw [extranonceSet, paramsOf_of hmethod hparams, if_pos rfl]
      rw [hset, readings_method hmethod, announced_other hmethod (by decide),
        difficultySet_other hmethod (by decide)]
      simp
  | other method hmethod hother =>
      rw [readings_method hmethod, announced_other hmethod hother.2.2,
        difficultySet_other hmethod hother.1, extranonceSet_method hmethod hother.2.1]
      simp
  | subscribed first size text hmethod hid hresult =>
      have hset : extranonceSet msg = some text := by
        rw [extranonceSet, paramsOf_reply hmethod, hmethod, hid, hresult]
        rfl
      rw [hset, (readings_reply hmethod).1, (readings_reply hmethod).2,
        grants_other (by rw [hid]; decide)]
      simp
  | authorized hmethod hid hresult =>
      have hgrants : grants msg = true := by
        rw [grants, hmethod, hid, hresult]
        rfl
      rw [hgrants, (readings_reply hmethod).1, (readings_reply hmethod).2,
        extranonceSet_reply hmethod (by rw [hid]; decide)]
      simp
  | replied hmethod hid =>
      rw [(readings_reply hmethod).1, (readings_reply hmethod).2, grants_other hid.2,
        extranonceSet_reply hmethod hid.1]
      simp

/-- The settings after some messages are the last values they set. -/
structure Settings (first : StratumState) (messages : List Json) (s : StratumState) : Prop where
  authorized : s.authorized = (first.authorized || messages.any grants)
  nextTarget : s.nextTarget = (lastSet difficultySet messages).getD first.nextTarget
  haveTarget : s.haveTarget = (first.haveTarget || (lastSet difficultySet messages).isSome)
  en1 : s.en1 = (lastSet extranonceSet messages).getD first.en1
  en2Size : s.en2Size = if (lastSet extranonceSet messages).isSome then 8 else first.en2Size

theorem settings_of_history {first : StratumState} {messages : List Json}
    {returned : List (Option Job)} (h : history receive first messages = .ok (returned, s)) :
    Settings first messages s := by
  refine history_induction (motive := fun messages _ s => Settings first messages s) h ?_ ?_
  · exact ⟨by simp, rfl, by simp [lastSet], rfl, rfl⟩
  · intro messages returned s msg job s' ih hstep
    obtain ⟨-, hgranted, htarget, hhave, hen1, hsize⟩ := (received_of_ok hstep).readings
    refine ⟨?_, ?_, ?_, ?_, ?_⟩
    · rw [hgranted, ih.authorized, List.any_append, Bool.or_assoc]
      simp
    · rw [htarget, ih.nextTarget, lastSet_concat]
      cases difficultySet msg <;> rfl
    · rw [hhave, ih.haveTarget, lastSet_concat]
      cases difficultySet msg <;> simp
    · rw [hen1, ih.en1, lastSet_concat]
      cases extranonceSet msg <;> rfl
    · rw [hsize, ih.en2Size, lastSet_concat]
      cases extranonceSet msg <;> rfl

end StratumState

def zeros (n : Nat) : Text := List.replicate n '0'

def subscribed : Json :=
  .object [("id".toList, .integer 1),
    ("result".toList, .array [.array [], .string (zeros 8), .integer 8])]

def authorized : Json := .object [("id".toList, .integer 3), ("result".toList, .boolean true)]

/-- So easy that every hash is a share. -/
def easy : Json :=
  .object [("method".toList, .string "mining.set_difficulty".toList),
    ("params".toList, .array [.float "1e-20".toList 0])]

/-- The extranonce is set to what it is. -/
def moved : Json :=
  .object [("method".toList, .string "mining.set_extranonce".toList),
    ("params".toList, .array [.string (zeros 8), .integer 8])]

def opening : List Json := [subscribed, authorized, easy]

/-- A clean job on top of a block. -/
def noticeOf (prev : Text) : Json :=
  .object [("method".toList, .string "mining.notify".toList),
    ("params".toList, .array [.string "j".toList, .string prev, .string (zeros 78),
      .string [], .array [], .string (zeros 8), .string "1d00ffff".toList, .string (zeros 16),
      .boolean true])]

def notice : Json := noticeOf (zeros 64)

/-- The state after the subscription, the authorization and the difficulty. -/
def sampleState : StratumState :=
  { en1 := zeros 8, en2Size := 8, nextTarget := Vector.replicate 32 255, haveTarget := true
    authorized := true }

namespace StratumState

variable {s s' : StratumState} {msg : Json} {job : Option Job}

theorem siaWork_zeros {prev : Text} {bytes : Bytes} (hprev : unhex prev = .ok bytes)
    (hsize : bytes.length = 32) (generation : Nat) : ∃ header,
    siaWork prev (zeros 78) [] (zeros 8) (extraNonce generation) (zeros 16) = .ok header := by
  have hc1 : unhex (zeros 78) = .ok (List.replicate 39 0) := rfl
  have hc2 : unhex [] = .ok [] := rfl
  have hen1 : unhex (zeros 8) = .ok (List.replicate 4 0) := rfl
  have htime : unhex (zeros 16) = .ok (List.replicate 8 0) := rfl
  have hlength : ¬ (bytes.length ≠ 32 ∨
      (List.replicate 39 (0 : UInt8)).length ≠ 39 ∨ ([] : Bytes) ≠ [] ∨
      (List.replicate 4 (0 : UInt8)).length +
        (Words.leBytes 8 generation.toUInt64).length ≠ 12 ∨
      (List.replicate 8 (0 : UInt8)).length ≠ 8) := by
    simp [hsize]
  have hroot : ([0] ++ List.replicate 39 0 ++ List.replicate 4 0 ++
      Words.leBytes 8 generation.toUInt64).length ≤ 128 := by
    simp
  unfold siaWork extraNonce
  simp only [hprev, hc1, hc2, hen1, htime, unhex_hex, ok_bind, if_neg hlength, blake2b256,
    if_neg (not_lt.mpr hroot)]
  exact ⟨_, rfl⟩

/-- The state after the notice that made `job`. -/
def noticed (state : StratumState) (job : Job) : StratumState :=
  { state with
    generation := state.generation + 1, epoch := state.epoch + 1
    validIds := (∅ : AList fun _ : Text => Nat).insert "j".toList (state.generation + 1)
    current := some job }

theorem receive_noticeOf {prev : Text} {bytes : Bytes} (hprev : unhex prev = .ok bytes)
    (hsize : bytes.length = 32) {state : StratumState} (hen1 : state.en1 = zeros 8)
    (hen2 : state.en2Size = 8) (htarget : state.haveTarget = true) :
    ∃ job : Job, state.receive (noticeOf prev) = .ok (some job, noticed state job) ∧
      job.id = "j".toList ∧ job.generation = state.generation + 1 ∧
      job.epoch = state.epoch + 1 ∧ job.en2 = extraNonce (state.generation + 1) ∧
      job.sv2 = false ∧ job.work.target = state.nextTarget := by
  obtain ⟨header, hheader⟩ := siaWork_zeros hprev hsize (state.generation + 1)
  obtain ⟨network, hnetwork⟩ : ∃ network, compactTarget "1d00ffff".toList = .ok network :=
    ⟨_, rfl⟩
  have hbits : unhex "1d00ffff".toList = .ok [0x1d, 0, 0xff, 0xff] := rfl
  refine ⟨⟨⟨header, state.nextTarget⟩, "j".toList, extraNonce (state.generation + 1),
    zeros 16, state.generation + 1, state.epoch + 1, network, false, 0, 0, 0, 0⟩, ?_, rfl, rfl, rfl,
    rfl, rfl, rfl⟩
  refine receive_notify rfl rfl rfl ?_
  have hversion : unhex (zeros 8) = .ok [0, 0, 0, 0] := rfl
  have hgetString (text : Text) : (Json.string text).getString = .ok text := rfl
  have hgetBool (b : Bool) : (Json.boolean b).getBool = .ok b := rfl
  unfold notify
  simp only [noticed, htarget, hen2, hen1, hgetString, hgetBool, hversion, hbits, hheader, hnetwork, ok_bind]
  rfl

theorem receive_notice {state : StratumState} (hen1 : state.en1 = zeros 8)
    (hen2 : state.en2Size = 8) (htarget : state.haveTarget = true) :
    ∃ job : Job, state.receive notice = .ok (some job, noticed state job) ∧
      job.id = "j".toList ∧ job.generation = state.generation + 1 ∧
      job.epoch = state.epoch + 1 ∧ job.en2 = extraNonce (state.generation + 1) ∧
      job.sv2 = false ∧ job.work.target = state.nextTarget :=
  receive_noticeOf (show unhex (zeros 64) = .ok (List.replicate 32 0) from rfl) rfl hen1 hen2 htarget

theorem history_opening :
    history receive {} opening = .ok ([none, none, none], sampleState) := rfl

/-- A message ends the standing of exactly the jobs it withdraws. -/
theorem stands_receive {j : Job} (hold : s.Older j) (h : s.receive msg = .ok (job, s')) :
    s'.Stands j ↔ s.Stands j ∧ ¬ Withdraws msg j := by
  cases job with
  | none =>
      have hreceived := received_of_ok h
      have hsame := sameJobs_of_none hreceived
      have hsilent : announced msg = none := by
        simpa using hreceived.readings.1
      have hkeeps : ¬ Withdraws msg j := by
        rintro ⟨id, clean, hannounced, -⟩
        rw [hsilent] at hannounced
        cases hannounced
      rw [Stands, Stands, hsame.epoch, hsame.validIds]
      exact ⟨fun hstands => ⟨hstands, hkeeps⟩, fun hstands => hstands.1⟩
  | some made =>
      cases received_of_ok h with
      | notified p made s' hmethod hparams hnotify =>
          obtain ⟨n, rfl⟩ := notify_ok hnotify
          have hannounced := n.announced_eq hmethod hparams
          have hwithdraws : Withdraws msg j ↔ n.clean = true ∨ made.id = j.id := by
            simp only [Withdraws, hannounced, Option.some.injEq, Prod.mk.injEq]
            constructor
            · rintro ⟨id, clean, ⟨rfl, rfl⟩, hwithdrawn⟩
              exact hwithdrawn
            · intro hwithdrawn
              exact ⟨_, _, ⟨rfl, rfl⟩, hwithdrawn⟩
          rw [hwithdraws, not_or, Bool.not_eq_true]
          have hgeneration := hold.generation
          have hepoch := hold.epoch
          have hnext := n.generation
          have hclean := n.epoch
          cases hc : n.clean with
          | true =>
              rw [hc] at hclean
              simp only [if_true] at hclean
              constructor
              · rintro ⟨hsame, -⟩
                dsimp only at hsame
                omega
              · rintro ⟨-, hnot, -⟩
                cases hnot
          | false =>
              simp only [hc, Bool.false_eq_true, if_false] at hclean
              simp only [Stands, Bool.false_eq_true, if_false, true_and, hclean]
              by_cases hid : j.id = made.id
              · rw [hid, AList.lookup_insert, Option.some.injEq]
                constructor
                · rintro ⟨-, hsame⟩
                  omega
                · rintro ⟨-, hother⟩
                  exact absurd rfl hother
              · rw [AList.lookup_insert_ne hid]
                exact ⟨fun hstands => ⟨hstands, Ne.symm hid⟩, fun hstands => hstands.1⟩

/-- Over a whole history a job stands until a message withdraws it. -/
theorem stands_of_history {first : StratumState} {messages : List Json}
    {returned : List (Option Job)} {j : Job} (hold : first.Older j)
    (h : history receive first messages = .ok (returned, s)) :
    (s.Stands j ↔ first.Stands j ∧ ∀ msg ∈ messages, ¬ Withdraws msg j) ∧ s.Older j := by
  refine history_induction
    (motive := fun messages _ s =>
      (s.Stands j ↔ first.Stands j ∧ ∀ msg ∈ messages, ¬ Withdraws msg j) ∧ s.Older j) h ?_ ?_
  · exact ⟨by simp, hold⟩
  · rintro messages returned s msg job s' ⟨ih, hbefore⟩ hstep
    refine ⟨?_, hbefore.receive hstep⟩
    rw [stands_receive hbefore hstep, ih]
    simp only [List.mem_append, List.mem_singleton]
    constructor
    · rintro ⟨⟨hstands, hearlier⟩, hlast⟩
      refine ⟨hstands, ?_⟩
      rintro m (hm | rfl)
      · exact hearlier m hm
      · exact hlast
    · rintro ⟨hstands, hall⟩
      exact ⟨⟨hstands, fun m hm => hall m (Or.inl hm)⟩, hall msg (Or.inr rfl)⟩

/-! ### Validity over a whole connection -/

/-- The book of jobs that were returned: numbered from one in order, the last of
them standing, and never more than 1024 ids in use. -/
structure Book (returned : List (Option Job)) (s : StratumState) : Prop where
  count : s.generation = returned.reduceOption.length
  numbered : s.Numbered
  increasing : returned.reduceOption.Pairwise fun a b => a.generation < b.generation
  older : ∀ j ∈ returned.reduceOption, s.Older j
  latest : returned.reduceOption.getLast? = s.current
  stands : ∀ j, s.current = some j → s.Stands j
  room : s.validIds.entries.length ≤ 1024

theorem Book.receive {returned : List (Option Job)} (h : Book returned s)
    (hstep : s.receive msg = .ok (job, s')) : Book (returned ++ [job]) s' := by
  cases job with
  | none =>
      have hsame := sameJobs_of_none (received_of_ok hstep)
      have hjobs : (returned ++ [none]).reduceOption = returned.reduceOption := by
        rw [List.reduceOption_append]
        exact List.append_nil _
      refine ⟨?_, h.numbered.receive hstep, hjobs ▸ h.increasing, ?_, ?_, ?_, ?_⟩
      · rw [hjobs, hsame.generation]
        exact h.count
      · rw [hjobs]
        exact fun j hj => (h.older j hj).receive hstep
      · rw [hjobs, hsame.current]
        exact h.latest
      · rw [hsame.current]
        intro j hj
        rw [Stands, hsame.epoch, hsame.validIds]
        exact h.stands j hj
      · rw [hsame.validIds]
        exact h.room
  | some made =>
      cases received_of_ok hstep with
      | notified p made s' hmethod hparams hnotify =>
          obtain ⟨hstands, hmade⟩ := stands_notify hnotify
          have hnumbered := h.numbered.receive hstep
          have hbefore := fun j hj => (h.older j hj).receive hstep
          obtain ⟨n, rfl⟩ := notify_ok hnotify
          have hnext := n.generation
          have hcount := h.count
          have hjobs : (returned ++ [some made]).reduceOption = returned.reduceOption ++ [made] :=
            List.reduceOption_append _ _
          refine ⟨?_, hnumbered, ?_, ?_, ?_, ?_, ?_⟩
          · rw [hjobs, List.length_append, List.length_singleton]
            dsimp only
            omega
          · rw [hjobs]
            refine List.pairwise_append.mpr ⟨h.increasing, List.pairwise_singleton _ _, ?_⟩
            intro j hj last hlast
            have hle := (h.older j hj).generation
            rw [List.mem_singleton.mp hlast]
            omega
          · rw [hjobs]
            intro j hj
            rcases List.mem_append.mp hj with hj | hj
            · exact hbefore j hj
            · rw [List.mem_singleton.mp hj]
              exact hmade
          · rw [hjobs]
            exact List.getLast?_concat ..
          · intro j hj
            cases hj
            exact hstands
          · have hroom := n.room
            have herase := (List.kerase_sublist made.id
              (if n.clean then ∅ else s.validIds).entries).length_le
            change (List.kerase made.id _).length + 1 ≤ 1024
            omega

theorem book_of_history {messages : List Json} {returned : List (Option Job)}
    (h : history receive {} messages = .ok (returned, s)) : Book returned s := by
  refine history_induction (motive := fun _ returned s => Book returned s) h ?_ ?_
  · exact ⟨rfl, (by intro id number hlookup; cases hlookup), .nil, by simp, rfl,
      (by intro j hj; cases hj), Nat.zero_le _⟩
  · intro messages returned s msg job s' ih hstep
    exact ih.receive hstep

/-- Jobs that are valid at the same time have different ids. -/
theorem Book.valid_length_le {returned : List (Option Job)} (h : Book returned s)
    (hcount : s.generation ≤ 2 ^ 64) :
    (returned.reduceOption.filter fun j => s.valid j).length ≤ 1024 := by
  have hlookup (j : Job) (hj : j ∈ returned.reduceOption.filter fun j => s.valid j) :
      s.validIds.lookup j.id = some j.generation := by
    obtain ⟨hmem, hvalid⟩ := List.mem_filter.mp hj
    exact (stands_of_valid hcount h.numbered (h.older j hmem) hvalid).2
  have hnodup : ((returned.reduceOption.filter fun j => s.valid j).map Job.id).Nodup := by
    rw [List.Nodup, List.pairwise_map]
    refine (h.increasing.filter _).imp_of_mem ?_
    intro a b ha hb hlt hid
    have hsame := (hlookup a ha).symm.trans (hid ▸ hlookup b hb)
    have hgeneration := Option.some.inj hsame
    omega
  have hsubset : ((returned.reduceOption.filter fun j => s.valid j).map Job.id) ⊆ s.validIds.keys := by
    intro id hid
    obtain ⟨j, hj, rfl⟩ := List.mem_map.mp hid
    apply AList.mem_keys.mp
    apply AList.lookup_isSome.mp
    rw [hlookup j hj]
    rfl
  have hle := (List.subperm_of_subset hnodup hsubset).length_le
  have hkeys : s.validIds.keys.length = s.validIds.entries.length := List.length_map _
  have hroom := h.room
  rw [List.length_map] at hle
  omega

/-- What the validity of a job comes down to at the end of a history. The
generation has 64 bits, so a job that was withdrawn is told from later ones as
long as at most `2 ^ 64` jobs have been returned. -/
structure ValidityExact (messages : List Json) (returned : List (Option Job)) (s : StratumState) :
    Prop where
  exact : returned.reduceOption.length ≤ 2 ^ 64 → ∀ i j, returned[i]? = some (some j) →
    (s.valid j = true ↔ messages.any grants = true ∧
      ∀ msg ∈ messages.drop (i + 1), ∀ id clean, announced msg = some (id, clean) →
        clean = false ∧ id ≠ j.id)
  kept : ∀ i j, returned[i]? = some (some j) → messages.any grants = true →
    (∀ msg ∈ messages.drop (i + 1), ∀ id clean, announced msg = some (id, clean) →
      clean = false ∧ id ≠ j.id) → s.valid j = true
  latest : ∀ j, returned.reduceOption.getLast? = some j → messages.any grants = true →
    s.valid j = true
  increasing : returned.reduceOption.length < 2 ^ 64 →
    returned.reduceOption.Pairwise fun a b => a.generation.toUInt64 < b.generation.toUInt64
  bounded : returned.reduceOption.length ≤ 2 ^ 64 →
    (returned.reduceOption.filter fun j => s.valid j).length ≤ 1024

/-- A returned job stands exactly as long as no later notification withdraws it. -/
theorem stands_at {messages : List Json} {returned : List (Option Job)} {i : Nat} {j : Job}
    (h : history receive {} messages = .ok (returned, s)) (hj : returned[i]? = some (some j)) :
    s.Older j ∧ (s.Stands j ↔
      ∀ msg ∈ messages.drop (i + 1), ∀ id clean, announced msg = some (id, clean) →
        clean = false ∧ id ≠ j.id) := by
  obtain ⟨msg, before, after, -, -, hstep, hlater⟩ := history_at h hj
  cases received_of_ok hstep with
  | notified p made after hmethod hparams hnotify =>
      obtain ⟨hstands, hold⟩ := stands_notify hnotify
      obtain ⟨hexact, hafter⟩ := stands_of_history hold hlater
      refine ⟨hafter, ?_⟩
      rw [hexact]
      constructor
      · rintro ⟨-, hall⟩ msg hmsg id clean hannounced
        have hkeeps := hall msg hmsg
        refine ⟨?_, fun hid => hkeeps ⟨id, clean, hannounced, Or.inr hid⟩⟩
        cases clean with
        | false => rfl
        | true => exact absurd ⟨id, true, hannounced, Or.inl rfl⟩ hkeeps
      · intro hall
        refine ⟨hstands, ?_⟩
        rintro msg hmsg ⟨id, clean, hannounced, hwithdrawn⟩
        obtain ⟨rfl, hother⟩ := hall msg hmsg id clean hannounced
        rcases hwithdrawn with hclean | hid
        · cases hclean
        · exact hother hid

/-- Below the turn of the counter the 64 bits increase with the count. -/
theorem Book.increasing_toUInt64 {returned : List (Option Job)} (h : Book returned s)
    (hcount : s.generation < 2 ^ 64) :
    returned.reduceOption.Pairwise fun a b => a.generation.toUInt64 < b.generation.toUInt64 := by
  refine h.increasing.imp_of_mem ?_
  intro a b ha hb hlt
  have hle := (h.older b hb).generation
  rw [UInt64.lt_iff_toNat_lt, Nat.toUInt64_eq, Nat.toUInt64_eq, UInt64.toNat_ofNat',
    UInt64.toNat_ofNat', Nat.mod_eq_of_lt (by omega), Nat.mod_eq_of_lt (by omega)]
  exact hlt

/-- Over every history of accepted messages a job that was granted and not
withdrawn is valid, and no other as long as at most `2 ^ 64` jobs were returned:
validity then means that the authorization was granted and no later notification
was a clean one or had the job's id. So the latest job is valid once the miner is
authorized, at most 1024 jobs are valid at once, and the 64-bit generations
strictly increase below `2 ^ 64` jobs. -/
theorem validity_exact {messages : List Json} {returned : List (Option Job)}
    (h : history receive {} messages = .ok (returned, s)) : ValidityExact messages returned s := by
  have hbook := book_of_history h
  have hcount := hbook.count
  have hgranted : s.authorized = messages.any grants := (settings_of_history h).authorized
  refine ⟨?_, ?_, ?_, fun hfew => hbook.increasing_toUInt64 (by omega),
    fun hfew => hbook.valid_length_le (by omega)⟩
  · intro hfew i j hj
    obtain ⟨hold, hstands⟩ := stands_at h hj
    rw [valid_iff (by omega) hbook.numbered hold, hgranted, hstands]
  · intro i j hj hany hall
    exact valid_of_stands (hgranted.trans hany) ((stands_at h hj).2.mpr hall)
  · intro j hj hany
    rw [hbook.latest] at hj
    exact valid_of_stands (hgranted.trans hany) (hbook.stands j hj)

theorem validity_exact_renotified : ∃ returned s,
    history receive {} (opening ++ [notice, notice]) = .ok (returned, s) ∧
      returned.reduceOption.length = 2 ∧
      ValidityExact (opening ++ [notice, notice]) returned s := by
  obtain ⟨first, hfirst, -⟩ := @receive_notice sampleState rfl rfl rfl
  obtain ⟨second, hsecond, -⟩ := @receive_notice (noticed sampleState first) rfl rfl rfl
  have hnotices : history receive sampleState [notice, notice] =
      .ok ([some first, some second], noticed (noticed sampleState first) second) :=
    history_cons.mpr ⟨_, _, _, hfirst, history_cons.mpr ⟨_, _, _, hsecond, rfl, rfl⟩, rfl⟩
  have hall := history_append.mpr ⟨_, _, _, history_opening, hnotices, rfl⟩
  exact ⟨_, _, hall, rfl, validity_exact hall⟩

/-- Any number of notices are accepted one after the other. Each is a clean job
with a number of its own. -/
theorem history_notices (n : Nat) {state : StratumState} (hen1 : state.en1 = zeros 8)
    (hen2 : state.en2Size = 8) (htarget : state.haveTarget = true) : ∃ returned s,
    history receive state (List.replicate n notice) = .ok (returned, s) ∧
      s.authorized = state.authorized ∧ s.generation = state.generation + n ∧
      s.epoch = state.epoch + n ∧
      (0 < n → s.validIds.lookup "j".toList = some s.generation) := by
  induction n generalizing state with
  | zero => exact ⟨[], state, rfl, rfl, rfl, rfl, fun hpositive => by cases hpositive⟩
  | succ n ih =>
      obtain ⟨job, hjob, -⟩ := receive_notice hen1 hen2 htarget
      obtain ⟨returned, s, hrest, hauthorized, hgeneration, hepoch, hlookup⟩ :=
        @ih (noticed state job) hen1 hen2 htarget
      refine ⟨_, s, history_cons.mpr ⟨_, _, _, hjob, hrest, rfl⟩, hauthorized, ?_, ?_, ?_⟩
      · rw [hgeneration]
        exact Nat.add_right_comm _ _ _
      · rw [hepoch]
        exact Nat.add_right_comm _ _ _
      · intro _
        cases n with
        | zero =>
            obtain ⟨-, rfl⟩ := Prod.mk.inj (pure_eq_ok.mp hrest)
            exact AList.lookup_insert _
        | succ n => exact hlookup (Nat.succ_pos n)

/-- After `2 ^ 64` more clean notices with its id the first job compares equal to
the last in every counter: it is valid again. -/
theorem withdrawn_valid_again : ∃ messages returned s i j,
    history receive {} messages = .ok (returned, s) ∧ returned[i]? = some (some j) ∧
      (∃ msg ∈ messages.drop (i + 1), announced msg = some (j.id, true)) ∧ s.valid j = true := by
  obtain ⟨job, hjob, hid, hgeneration, hepoch, -⟩ := @receive_notice sampleState rfl rfl rfl
  obtain ⟨later, s, hrest, hauthorized, hcount, hturn, hlookup⟩ :=
    @history_notices (2 ^ 64) (noticed sampleState job) rfl rfl rfl
  have hall := append_history history_opening (history_cons.mpr ⟨_, _, _, hjob, hrest, rfl⟩)
  refine ⟨_, _, s, 3, job, hall, rfl, ⟨notice, ?_, ?_⟩, ?_⟩
  · exact List.mem_replicate.mpr ⟨by decide, rfl⟩
  · rw [hid]
    rfl
  · have hsame (a : Nat) : sameCount a (a + 2 ^ 64) = true :=
      sameCount_iff.mpr (Nat.add_mod_right a _).symm
    have hnumber : s.generation = job.generation + 2 ^ 64 := by
      rw [hcount, hgeneration]
      rfl
    have hepoch' : s.epoch = job.epoch + 2 ^ 64 := by
      rw [hturn, hepoch]
      rfl
    have hnumber' : sameCount s.generation job.generation = true := by
      rw [hnumber]
      exact sameCount_iff.mpr (Nat.add_mod_right _ _)
    rw [valid, hauthorized, hepoch', hid, hlookup (by decide)]
    simp only [noticed, sampleState, hsame, hnumber', Bool.true_and, Option.any_some]

/-- The job that `msg` announced after `earlier`: its target is that of the last
difficulty, its header has the last extranonce and the number of its generation,
and its network target is that of its own nbits. -/
def MadeOf (earlier : List Json) (msg : Json) (j : Job) : Prop :=
  ∃ prev c1 c2 branch version nbits clean en1,
    paramsOf "mining.notify".toList msg = some [.string j.id, .string prev, .string c1, .string c2,
      branch, version, .string nbits, .string j.ntime, .boolean clean] ∧
    lastSet difficultySet earlier = some j.work.target ∧
    lastSet extranonceSet earlier = some en1 ∧
    j.en2 = hex (Words.leBytes 8 j.generation.toUInt64) ∧
    siaWork prev c1 c2 en1 j.en2 j.ntime = .ok j.work.header ∧
    compactTarget nbits = .ok j.networkTarget

theorem madeOf_history {messages : List Json} {returned : List (Option Job)} {i : Nat} {j : Job}
    (h : history receive {} messages = .ok (returned, s)) (hj : returned[i]? = some (some j)) :
    ∃ msg, messages[i]? = some msg ∧ MadeOf (messages.take i) msg j := by
  obtain ⟨msg, before, after, hmsg, hearlier, hstep, -⟩ := history_at h hj
  refine ⟨msg, hmsg, ?_⟩
  have hsettings := settings_of_history hearlier
  cases received_of_ok hstep with
  | notified p j after hmethod hparams hnotify =>
      obtain ⟨n, -⟩ := notify_ok hnotify
      obtain ⟨branch, version, hp⟩ := n.params
      obtain ⟨hready, hsize⟩ := n.ready
      have htarget : lastSet difficultySet (messages.take i) = some before.nextTarget := by
        rw [hsettings.haveTarget] at hready
        obtain ⟨target, hset⟩ := Option.isSome_iff_exists.mp
          (by simpa using hready : (lastSet difficultySet (messages.take i)).isSome = true)
        rw [hsettings.nextTarget, hset]
        rfl
      have hen1 : lastSet extranonceSet (messages.take i) = some before.en1 := by
        rw [hsettings.en2Size] at hsize
        cases hset : lastSet extranonceSet (messages.take i) with
        | none => rw [hset] at hsize; cases hsize
        | some e => rw [hsettings.en1, hset]; rfl
      rw [hp] at hparams
      refine ⟨n.prev, n.c1, n.c2, branch, version, n.nbits, n.clean, before.en1, ?_, ?_, hen1, n.en2,
        n.header, n.network⟩
      · rw [paramsOf_of hmethod hparams, if_pos rfl]
      · rw [htarget, n.target]

/-- Without a notification nothing is returned, and the jobs stay as they are. -/
theorem quiet_history {first : StratumState} {messages : List Json}
    {returned : List (Option Job)} (h : history receive first messages = .ok (returned, s))
    (hquiet : ∀ msg ∈ messages, announced msg = none) :
    (∀ job ∈ returned, job = none) ∧ SameJobs first s := by
  revert hquiet
  refine history_induction
    (motive := fun messages returned s => (∀ msg ∈ messages, announced msg = none) →
      (∀ job ∈ returned, job = none) ∧ SameJobs first s) h ?_ ?_
  · intro _
    exact ⟨by simp, ⟨rfl, rfl, rfl, rfl⟩⟩
  · intro messages returned s msg job s' ih hstep hquiet
    obtain ⟨hnone, hsame⟩ := ih fun m hm => hquiet m (List.mem_append_left _ hm)
    have hreceived := received_of_ok hstep
    have hjob : job = none := by
      have hsilent := hreceived.readings.1
      rw [hquiet msg (by simp)] at hsilent
      exact Option.isNone_iff_eq_none.mp (by simpa using hsilent.symm)
    subst hjob
    have hlast := sameJobs_of_none hreceived
    refine ⟨?_, ⟨hlast.generation.trans hsame.generation, hlast.epoch.trans hsame.epoch,
      hlast.validIds.trans hsame.validIds, hlast.current.trans hsame.current⟩⟩
    intro job hjob
    rcases List.mem_append.mp hjob with hjob | hjob
    · exact hnone job hjob
    · exact List.mem_singleton.mp hjob

/-- All that validity depends on. -/
structure SameBook (s s' : StratumState) : Prop where
  generation : s'.generation = s.generation
  epoch : s'.epoch = s.epoch
  validIds : s'.validIds = s.validIds
  authorized : s'.authorized = s.authorized

theorem SameBook.valid (h : SameBook s s') (j : Job) : s'.valid j = s.valid j := by
  rw [StratumState.valid, StratumState.valid, h.authorized, h.epoch, h.validIds]

/-- The same message moves both books alike, whatever difficulty and extranonce
are staged. -/
theorem SameBook.receive {t t' : StratumState} {job' : Option Job} (h : SameBook s t)
    (hs : s.receive msg = .ok (job, s')) (ht : t.receive msg = .ok (job', t')) :
    SameBook s' t' := by
  have hs' := received_of_ok hs
  have ht' := received_of_ok ht
  have hauthorized : t'.authorized = s'.authorized := by
    rw [hs'.readings.2.1, ht'.readings.2.1, h.authorized]
  have hsome : job'.isSome = job.isSome := by
    rw [← ht'.readings.1, hs'.readings.1]
  cases job with
  | none =>
      obtain rfl : job' = none := Option.isNone_iff_eq_none.mp (by simpa using hsome)
      have hsame := sameJobs_of_none hs'
      have hsame' := sameJobs_of_none ht'
      refine ⟨?_, ?_, ?_, hauthorized⟩
      · rw [hsame.generation, hsame'.generation, h.generation]
      · rw [hsame.epoch, hsame'.epoch, h.epoch]
      · rw [hsame.validIds, hsame'.validIds, h.validIds]
  | some made =>
      obtain ⟨made', rfl⟩ : ∃ made', job' = some made' :=
        Option.isSome_iff_exists.mp (by simpa using hsome)
      cases hs' with
      | notified p made s' hmethod hparams hnotify =>
          cases ht' with
          | notified p' made' t' hmethod' hparams' hnotify' =>
              obtain ⟨n, rfl⟩ := notify_ok hnotify
              obtain ⟨n', rfl⟩ := notify_ok hnotify'
              have hsaid := (n.announced_eq hmethod hparams).symm.trans
                (n'.announced_eq hmethod' hparams')
              obtain ⟨hid, hclean⟩ := Prod.mk.inj (Option.some.inj hsaid)
              have hgeneration : made'.generation = made.generation := by
                rw [n.generation, n'.generation, h.generation]
              refine ⟨hgeneration, ?_, ?_, hauthorized⟩
              · dsimp only
                rw [n.epoch, n'.epoch, h.epoch, hclean]
              · dsimp only
                rw [hgeneration, h.validIds, hclean, hid]

theorem SameBook.history {t t' : StratumState} {messages : List Json}
    {returned returned' : List (Option Job)} (h : SameBook s t)
    (hs : Histories.history StratumState.receive s messages = .ok (returned, s'))
    (ht : Histories.history StratumState.receive t messages = .ok (returned', t')) :
    SameBook s' t' := by
  induction messages generalizing s t returned returned' with
  | nil =>
      obtain ⟨-, rfl⟩ := Prod.mk.inj (pure_eq_ok.mp hs)
      obtain ⟨-, rfl⟩ := Prod.mk.inj (pure_eq_ok.mp ht)
      exact h
  | cons msg rest ih =>
      obtain ⟨job, next, later, hstep, hrest, -⟩ := history_cons.mp hs
      obtain ⟨job', next', later', hstep', hrest', -⟩ := history_cons.mp ht
      exact ih (h.receive hstep hstep') hrest hrest'

/-- A message that stages a setting grants nothing. -/
theorem any_grants_of_setters {messages messages' : List Json}
    (hsame : messages.filter (fun msg => !isSetter msg) =
      messages'.filter fun msg => !isSetter msg) :
    messages.any grants = messages'.any grants := by
  have hsetter (msg : Json) : (!isSetter msg && grants msg) = grants msg := by
    cases hgrants : grants msg with
    | false => simp
    | true =>
        rw [grants] at hgrants
        simp only [Bool.and_eq_true, Option.isNone_iff_eq_none] at hgrants
        rw [isSetter, paramsOf_reply hgrants.1.1, paramsOf_reply hgrants.1.1]
        rfl
  have hany (xs : List Json) :
      (xs.filter fun msg => !isSetter msg).any grants = xs.any grants := by
    rw [List.any_filter]
    exact List.any_congr rfl hsetter
  rw [← hany messages, ← hany messages', hsame]

theorem isSetter_of_announced {announcement : Text × Bool}
    (h : announced msg = some announcement) : isSetter msg = false := by
  have hnotify : ∃ p, paramsOf "mining.notify".toList msg = some p := by
    cases hp : paramsOf "mining.notify".toList msg with
    | none => rw [announced, hp] at h; cases h
    | some p => exact ⟨p, rfl⟩
  obtain ⟨p, hp⟩ := hnotify
  have hmethod : msg.member? "method".toList = some (.string "mining.notify".toList) := by
    unfold paramsOf at hp
    split at hp
    · rename_i text _ hmethod _
      split at hp
      · rename_i htext
        rw [hmethod, htext]
      · cases hp
    · cases hp
  rw [isSetter, paramsOf_other hmethod (by decide), paramsOf_other hmethod (by decide)]
  rfl

/-- What moving setters about between two notifications does to a history. -/
structure Staged (first xs ys rest : List Json) (returned returned' : List (Option Job))
    (s s' : StratumState) : Prop where
  made : ∀ i j, returned[i]? = some (some j) → ∃ msg, (first ++ xs ++ rest)[i]? = some msg ∧
    MadeOf ((first ++ xs ++ rest).take i) msg j
  earlier : returned'.take first.length = returned.take first.length
  valid : ∀ j, s'.valid j = s.valid j
  current : (∀ msg ∈ rest, announced msg = none) → s'.current = s.current
  last : lastSet difficultySet (first ++ ys) = lastSet difficultySet (first ++ xs) →
    lastSet extranonceSet (first ++ ys) = lastSet extranonceSet (first ++ xs) →
    returned'.drop (first.length + ys.length) = returned.drop (first.length + xs.length) ∧ s' = s

private theorem quiet_of_setters {xs ys : List Json} (hquiet : ∀ msg ∈ xs, announced msg = none)
    (hsame : xs.filter (fun msg => !isSetter msg) = ys.filter fun msg => !isSetter msg) :
    ∀ msg ∈ ys, announced msg = none := by
  intro msg hmsg
  by_contra hsome
  obtain ⟨announcement, hannounced⟩ := Option.ne_none_iff_exists'.mp hsome
  have hkept : msg ∈ ys.filter fun msg => !isSetter msg :=
    List.mem_filter.mpr ⟨hmsg, by rw [isSetter_of_announced hannounced]; rfl⟩
  rw [← hsame] at hkept
  exact hsome (hquiet msg (List.mem_filter.mp hkept).1)

private theorem eq_of_settings {t : StratumState} (hbook : SameBook s t)
    (hcurrent : t.current = s.current) {messages messages' : List Json}
    (hs : Settings {} messages s) (ht : Settings {} messages' t)
    (hdifficulty : lastSet difficultySet messages' = lastSet difficultySet messages)
    (hextranonce : lastSet extranonceSet messages' = lastSet extranonceSet messages) : t = s := by
  have htarget : t.nextTarget = s.nextTarget := by
    rw [hs.nextTarget, ht.nextTarget, hdifficulty]
  have hhave : t.haveTarget = s.haveTarget := by
    rw [hs.haveTarget, ht.haveTarget, hdifficulty]
  have hen1 : t.en1 = s.en1 := by
    rw [hs.en1, ht.en1, hextranonce]
  have hsize : t.en2Size = s.en2Size := by
    rw [hs.en2Size, ht.en2Size, hextranonce]
  obtain ⟨hgeneration, hepoch, hids, hauthorized⟩ := hbook
  cases s
  cases t
  simp only at hgeneration hepoch hids hauthorized hcurrent htarget hhave hen1 hsize
  rw [hgeneration, hepoch, hids, hauthorized, hcurrent, htarget, hhave, hen1, hsize]

/-- A job is made of the last difficulty, the last extranonce and the fields of
its notification. Setters that are added, dropped or reordered between two
notifications change no job returned before, no validity and not the current
job; as long as the last value of each kind is the same they change nothing. -/
theorem settings_staged {first xs ys rest : List Json} {returned returned' : List (Option Job)}
    (hs : history receive {} (first ++ xs ++ rest) = .ok (returned, s))
    (ht : history receive {} (first ++ ys ++ rest) = .ok (returned', s'))
    (hquiet : ∀ msg ∈ xs, announced msg = none)
    (hsame : xs.filter (fun msg => !isSetter msg) = ys.filter fun msg => !isSetter msg) :
    Staged first xs ys rest returned returned' s s' := by
  obtain ⟨upto, middle, later, hupto, hlater, hreturned⟩ := history_append.mp hs
  obtain ⟨upto', middle', later', hupto', hlater', hreturned'⟩ := history_append.mp ht
  obtain ⟨before, start, between, hfirst, hxs, hbetween⟩ := history_append.mp hupto
  obtain ⟨before', start', between', hfirst', hys, hbetween'⟩ := history_append.mp hupto'
  rw [hfirst] at hfirst'
  cases hfirst'
  have hjobs := (quiet_history hxs hquiet).2
  have hjobs' := (quiet_history hys (quiet_of_setters hquiet hsame)).2
  have hbook : SameBook middle middle' := by
    refine ⟨hjobs'.generation.trans hjobs.generation.symm, hjobs'.epoch.trans hjobs.epoch.symm,
      hjobs'.validIds.trans hjobs.validIds.symm, ?_⟩
    rw [(settings_of_history hxs).authorized, (settings_of_history hys).authorized,
      any_grants_of_setters hsame]
  have hcurrent : middle'.current = middle.current := hjobs'.current.trans hjobs.current.symm
  have hlength : before.length = first.length := history_length hfirst
  refine ⟨fun i j hj => madeOf_history hs hj, ?_, (hbook.history hlater hlater').valid, ?_, ?_⟩
  · rw [hreturned, hreturned', hbetween, hbetween', List.append_assoc, List.append_assoc,
      List.take_left' hlength, List.take_left' hlength]
  · intro hrest
    rw [(quiet_history hlater hrest).2.current, (quiet_history hlater' hrest).2.current, hcurrent]
  · intro hdifficulty hextranonce
    have hmiddle : middle' = middle := eq_of_settings hbook hcurrent
      (settings_of_history hupto) (settings_of_history hupto') hdifficulty hextranonce
    rw [hmiddle, hlater] at hlater'
    cases hlater'
    have hdrop : upto.length = first.length + xs.length := by
      rw [history_length hupto, List.length_append]
    have hdrop' : upto'.length = first.length + ys.length := by
      rw [history_length hupto', List.length_append]
    rw [hreturned, hreturned', List.drop_left' hdrop, List.drop_left' hdrop']
    exact ⟨rfl, rfl⟩

theorem settings_staged_moved : ∃ returned returned' s s',
    history receive {} ((opening ++ [notice]) ++ [easy] ++ [notice]) = .ok (returned, s) ∧
      history receive {} ((opening ++ [notice]) ++ [moved, easy] ++ [notice]) = .ok (returned', s') ∧
      Staged (opening ++ [notice]) [easy] [moved, easy] [notice] returned returned' s s' := by
  obtain ⟨j, hj, -⟩ := @receive_notice sampleState rfl rfl rfl
  obtain ⟨k, hk, -⟩ := @receive_notice (noticed sampleState j) rfl rfl rfl
  have hfirst : history receive {} (opening ++ [notice]) =
      .ok ([none, none, none] ++ [some j], noticed sampleState j) :=
    history_append.mpr ⟨_, _, _, history_opening, history_cons.mpr ⟨_, _, _, hj, rfl, rfl⟩, rfl⟩
  have hlast : history receive (noticed sampleState j) [notice] =
      .ok ([some k], noticed (noticed sampleState j) k) :=
    history_cons.mpr ⟨_, _, _, hk, rfl, rfl⟩
  have hxs : history receive (noticed sampleState j) [easy] =
      .ok ([none], noticed sampleState j) := rfl
  have hys : history receive (noticed sampleState j) [moved, easy] =
      .ok ([none, none], noticed sampleState j) := rfl
  have hs := append_history (append_history hfirst hxs) hlast
  have ht := append_history (append_history hfirst hys) hlast
  have hquiet : ∀ msg ∈ [easy], announced msg = none := by
    intro msg hmsg
    rw [List.mem_singleton.mp hmsg]
    exact @announced_other easy "mining.set_difficulty".toList rfl (by decide)
  have heasy : isSetter easy = true := by decide
  have hmoved : isSetter moved = true := by decide
  have hsame : [easy].filter (fun msg => !isSetter msg) =
      [moved, easy].filter fun msg => !isSetter msg := by
    simp [heasy, hmoved]
  exact ⟨_, _, _, _, hs, ht, settings_staged hs ht hquiet hsame⟩

end StratumState

end Supryolo
