import Supryolo.Targets
import Supryolo.Notifications
import Supryolo.PrevHash

namespace Supryolo

open Histories Loops Sv2 Words

structure Job.Attainable (j : Job) : Prop where
  target : j.work.target ≠ Vector.replicate 32 0
  networkTarget : j.networkTarget ≠ Vector.replicate 32 0

theorem beNat_eq_zero {h : Hash} : beNat h.toList = 0 ↔ h = Vector.replicate 32 0 :=
  beNat_eq_zero_iff.trans all_zero_iff

/-- The compact form has no way to say zero. -/
theorem compactTarget_ne_zero {nbits : Text} {h : Hash} (hok : compactTarget nbits = .ok h) :
    h ≠ Vector.replicate 32 0 := by
  have hlast {out : Hash} (hout : (if out.toList.all (· == 0) = true then
      throw "zero compact target" else pure out : Except String Hash) = .ok h) :
      h ≠ Vector.replicate 32 0 := by
    obtain ⟨hnonzero, hout⟩ := guard_eq_ok.mp hout
    obtain rfl := pure_eq_ok.mp hout
    exact fun hzero => hnonzero (all_zero_iff.mpr hzero)
  unfold compactTarget at hok
  obtain ⟨bytes, -, hok⟩ := bind_eq_ok.mp hok
  obtain ⟨-, hok⟩ := guard_eq_ok.mp hok
  obtain ⟨-, hok⟩ := guard_eq_ok.mp hok
  dsimp only at hok
  split at hok
  · obtain ⟨out, -, hok⟩ := bind_eq_ok.mp hok
    exact hlast hok
  · obtain ⟨out, -, hok⟩ := bind_eq_ok.mp hok
    exact hlast hok

/-- The largest difficulty that has an attainable target. -/
def maxDifficulty : ℚ := (65535 * 2 ^ 208 : Nat)

theorem targetNat_eq_zero {d : ℚ} (hpositive : 0 < d) : targetNat d = 0 ↔ maxDifficulty < d := by
  rw [targetNat, Nat.min_eq_zero_iff, or_iff_right (by decide), Nat.floor_eq_zero,
    div_lt_one hpositive]
  exact Iff.rfl

theorem difficultyTarget_ne_zero {decimal : Text} {h : Hash} {d : ℚ}
    (hok : difficultyTarget decimal = .ok h) (hdenotes : Denotes decimal d) :
    h ≠ Vector.replicate 32 0 ↔ d ≤ maxDifficulty := by
  obtain ⟨-, d', hdenotes', hpositive, hvalue⟩ := difficultyTarget_ok_iff.mp hok
  rw [hdenotes.unique hdenotes', Ne, ← beNat_eq_zero, hvalue, targetNat_eq_zero hpositive, not_lt]

-- The double `65535 * 2 ^ 208` is printed rounded up, which is already too much.
example : difficultyTarget "2.695953529101131e+67".toList = .ok (Vector.replicate 32 0) ∧
    difficultyTarget "2.6959535291011309e+67".toList = .ok ((Vector.replicate 32 0).set 31 1) := by
  decide +kernel

namespace StratumState

variable {s s' : StratumState} {msg : Json} {job : Option Job}

/-- The decimal text of the difficulty that a message sets: what `dump()` prints
for its number. -/
def difficultyText (msg : Json) : Option Text :=
  match paramsOf "mining.set_difficulty".toList msg with
  | some [number] => number.dumpNumber
  | _ => none

theorem difficultySet_eq (msg : Json) :
    difficultySet msg = (difficultyText msg).bind fun text => (difficultyTarget text).toOption := by
  unfold difficultySet difficultyText
  cases paramsOf "mining.set_difficulty".toList msg with
  | none => rfl
  | some p => rcases p with _ | ⟨number, _ | ⟨second, rest⟩⟩ <;> rfl

/-- A difficulty that cannot be converted is not accepted. -/
theorem Received.difficulty_ok (h : Received s msg job s') {text : Text}
    (htext : difficultyText msg = some text) : ∃ target, difficultyTarget text = .ok target := by
  have hother {method : Text} (hmethod : msg.member? "method".toList = some (.string method))
      (hne : method ≠ "mining.set_difficulty".toList) : False := by
    rw [difficultyText, paramsOf_other hmethod hne] at htext
    cases htext
  have hreply (hmethod : msg.member? "method".toList = none) : False := by
    rw [difficultyText, paramsOf_reply hmethod] at htext
    cases htext
  cases h with
  | notified p job s' hmethod hparams hnotify => exact (hother hmethod (by decide)).elim
  | difficulty number text' target hmethod hparams hnumber htarget =>
      rw [difficultyText, paramsOf_of hmethod hparams, if_pos rfl] at htext
      obtain rfl := Option.some.inj (hnumber.symm.trans htext)
      exact ⟨target, htarget⟩
  | extranonce size text' hmethod hparams => exact (hother hmethod (by decide)).elim
  | other method hmethod hne => exact (hother hmethod hne.1).elim
  | subscribed first size text' hmethod hid hresult => exact (hreply hmethod).elim
  | authorized hmethod hid hresult => exact (hreply hmethod).elim
  | replied hmethod hid => exact (hreply hmethod).elim

/-- The target in force is that of the last difficulty. -/
theorem lastSet_difficulty {first : StratumState} {messages : List Json}
    {returned : List (Option Job)} (h : history receive first messages = .ok (returned, s)) :
    lastSet difficultySet messages = (lastSet difficultyText messages).bind
      fun text => (difficultyTarget text).toOption := by
  refine history_induction
    (motive := fun messages _ _ => lastSet difficultySet messages =
      (lastSet difficultyText messages).bind fun text => (difficultyTarget text).toOption) h ?_ ?_
  · rfl
  · intro messages returned s msg job s' ih hstep
    rw [lastSet_concat, lastSet_concat, difficultySet_eq]
    cases htext : difficultyText msg with
    | none => simpa using ih
    | some text =>
        obtain ⟨target, htarget⟩ := (received_of_ok hstep).difficulty_ok htext
        simp [htarget, Except.toOption]

/-- Whenever a message announces a job, the decimal text of the last difficulty
that the messages before it set denotes at most the maximum. -/
def Modest (messages : List Json) : Prop :=
  ∀ i msg, messages[i]? = some msg → (announced msg).isSome = true →
    ∀ text d, lastSet difficultyText (messages.take i) = some text → Denotes text d →
      d ≤ maxDifficulty

/-- Each job is attainable exactly when the difficulty before its announcement
was not too high. -/
theorem attainable_iff {messages : List Json} {returned : List (Option Job)} {i : Nat} {j : Job}
    (h : history receive {} messages = .ok (returned, s)) (hj : returned[i]? = some (some j)) :
    j.Attainable ↔ ∀ text d, lastSet difficultyText (messages.take i) = some text →
      Denotes text d → d ≤ maxDifficulty := by
  obtain ⟨msg, -, prev, c1, c2, branch, version, nbits, clean, en1, -, htarget, -, -, -, hnetwork⟩ :=
    madeOf_history h hj
  obtain ⟨middle, hearlier, -⟩ := history_take h i
  rw [lastSet_difficulty hearlier] at htarget
  obtain ⟨text, htext, hset⟩ := Option.bind_eq_some_iff.mp htarget
  have hok : difficultyTarget text = .ok j.work.target := by
    cases hresult : difficultyTarget text with
    | error e => rw [hresult] at hset; cases hset
    | ok target => rw [hresult] at hset; exact congrArg Except.ok (Option.some.inj hset)
  have hattainable : j.Attainable ↔ j.work.target ≠ Vector.replicate 32 0 :=
    ⟨Job.Attainable.target, fun hne => ⟨hne, compactTarget_ne_zero hnetwork⟩⟩
  obtain ⟨-, d, hdenotes, -⟩ := difficultyTarget_ok_iff.mp hok
  rw [hattainable, difficultyTarget_ne_zero hok hdenotes]
  constructor
  · intro hle text' d' htext' hdenotes'
    obtain rfl := Option.some.inj (htext.symm.trans htext')
    rwa [hdenotes'.unique hdenotes]
  · exact fun hall => hall text d htext hdenotes

/-- A history that announces a job returns it. -/
theorem announced_iff_returned {messages : List Json} {returned : List (Option Job)} {i : Nat}
    {msg : Json} (h : history receive {} messages = .ok (returned, s))
    (hmsg : messages[i]? = some msg) :
    (announced msg).isSome = true ↔ ∃ j, returned[i]? = some (some j) := by
  have hlt : i < returned.length :=
    (history_length h).symm ▸ (List.getElem?_eq_some_iff.mp hmsg).1
  obtain ⟨output, houtput⟩ : ∃ output, returned[i]? = some output :=
    ⟨returned[i], List.getElem?_eq_getElem hlt⟩
  obtain ⟨input, before, after, hinput, -, hstep, -⟩ := history_at h houtput
  obtain rfl := Option.some.inj (hinput.symm.trans hmsg)
  rw [(received_of_ok hstep).readings.1, houtput, Option.isSome_iff_exists]
  simp

/-- The jobs of a history are attainable exactly when no difficulty in force at
an announcement was too high. -/
theorem all_attainable_iff {messages : List Json} {returned : List (Option Job)}
    (h : history receive {} messages = .ok (returned, s)) :
    (∀ j, some j ∈ returned ∨ s.current = some j → j.Attainable) ↔ Modest messages := by
  have hcurrent {j : Job} (hj : s.current = some j) : some j ∈ returned := by
    have hlatest := (book_of_history h).latest
    rw [hj] at hlatest
    exact List.reduceOption_mem_iff.mp (List.mem_of_getLast? hlatest)
  constructor
  · intro hall i msg hmsg hannounced
    obtain ⟨j, hj⟩ := (announced_iff_returned h hmsg).mp hannounced
    exact (attainable_iff h hj).mp (hall j (Or.inl (List.mem_of_getElem? hj)))
  · intro hmodest j hj
    have hmem : some j ∈ returned := hj.elim id hcurrent
    obtain ⟨i, hi⟩ := List.mem_iff_getElem?.mp hmem
    obtain ⟨msg, -, -, hmsg, -⟩ := history_at h hi
    exact (attainable_iff h hi).mpr
      (hmodest i msg hmsg ((announced_iff_returned h hmsg).mpr ⟨j, hi⟩))

end StratumState

namespace Sv2

open Effects

variable {κ : Type}

theorem Session.minHash_ne_zero {target : Hash} (h : target ≠ Vector.replicate 32 0) :
    minHash target maximum ≠ Vector.replicate 32 0 := by
  unfold minHash
  split
  · decide
  · exact h

namespace Live

variable {lib : Outside κ} {s s' : Live κ}

/-- Every target that a job can be given is attainable. -/
structure Aimed (s : Live κ) : Prop where
  target : s.session.phase = 3 → s.session.target ≠ Vector.replicate 32 0
  network : s.session.havePrevious = true → s.session.networkTarget ≠ Vector.replicate 32 0
  current : ∀ j, s.session.current = some j → j.Attainable

/-- From `s` the program ends in a state that is aimed, also where it throws. -/
abbrev Aims {α : Type} (x : Program κ α) (s : Live κ) : Prop :=
  Ends x (fun _ => Aimed) (fun _ => Aimed) s

theorem aims_activate (h : Aimed s) (hphase : s.session.phase = 3) (id : UInt32) (stored : Stored)
    (time : UInt32) : Aims (activate id stored time) s := by
  unfold Aims activate
  simp only [ends_bind, ends_getSession, ends_require, ends_update, ends_ofExcept]
  refine ⟨fun hprevious => ?_, fun _ => h⟩
  split
  · refine ⟨h.target, h.network, ?_⟩
    intro j hj
    obtain rfl := Option.some.inj hj
    exact ⟨Session.minHash_ne_zero (h.target hphase), h.network hprevious⟩
  · exact ⟨h.target, h.network, h.current⟩

theorem aims_newJob (h : Aimed s) (m : NewJob) : Aims (newJob m) s := by
  unfold Aims newJob
  simp only [ends_bind, ends_getSession, ends_require, ends_update]
  refine ⟨fun hphase => ⟨fun _ => ?_, fun _ => h⟩, fun _ => h⟩
  have hstored (jobs : AList fun _ : UInt32 => Stored) :
      Aimed { s with session := { s.session with jobs := jobs } } :=
    ⟨h.target, h.network, h.current⟩
  cases m.ntime with
  | none => exact hstored _
  | some time =>
      refine aims_activate ?_ ?_ _ _ _
      · exact hstored _
      · exact hphase.1

theorem aims_prevHash (h : Aimed s) (channel job : UInt32) (hash : Hash) (ntime nbits : UInt32) :
    Aims (prevHash channel job hash ntime nbits) s := by
  unfold Aims prevHash
  simp only [ends_bind, ends_getSession, ends_require]
  refine ⟨fun hphase => ?_, fun _ => h⟩
  cases s.session.jobs.lookup job with
  | none => exact h
  | some selected =>
      dsimp only
      simp only [ends_bind, ends_require, ends_ofExcept, ends_update]
      refine ⟨fun _ => ?_, fun _ => h⟩
      split
      · rename_i networkTarget hnetwork
        refine aims_activate ?_ ?_ _ _ _
        · exact ⟨h.target, fun _ => compactTarget_ne_zero hnetwork, h.current⟩
        · exact hphase.1
      · exact h

theorem aims_settle (h : Aimed s) (batches : List Batch) : Aims (settle batches) s := by
  induction batches generalizing s with
  | nil => exact h
  | cons b rest ih =>
      unfold Aims settle
      simp only [ends_bind, ends_getSession, ends_require, ends_ite, ends_pure, ends_update]
      exact ⟨fun _ => ⟨fun _ => h, fun _ => ih ⟨h.target, h.network, h.current⟩⟩, fun _ => h⟩

theorem aims_send (h : Aimed s) (f : Frame) : Aims (send lib f) s := by
  unfold Aims send
  simp only [ends_bind, ends_onNoise, ends_modify]
  refine Ends.of_forall ?_ ?_
  · exact fun _ _ => ⟨h.target, h.network, h.current⟩
  · exact fun _ _ => ⟨h.target, h.network, h.current⟩

/-- The messages of the decoder carry no target of zero. -/
theorem aims_apply (h : Aimed s) {m : Message} (hlegal : m.WellFormed) : Aims (apply lib m) s := by
  cases m with
  | setupSuccess version flags =>
      simp only [Aims, apply, setupSuccess, ends_bind, ends_getSession, ends_require, ends_ofExcept]
      refine ⟨fun _ => ?_, fun _ => h⟩
      split
      · refine (aims_send h _).mono ?_ fun _ _ h => h
        exact fun _ s h => ⟨fun hphase => absurd hphase (by decide : ¬ 2 = 3), h.network, h.current⟩
      · exact h
  | openSuccess request channel target extranonce group =>
      simp only [Aims, apply, openSuccess, ends_bind, ends_getSession, ends_require, ends_modify,
        ends_pure]
      exact ⟨fun _ => ⟨fun _ => ⟨fun _ => hlegal.1, h.network, h.current⟩, fun _ => h⟩, fun _ => h⟩
  | newJob job =>
      rw [Aims, apply, ends_bind]
      exact aims_newJob h job
  | prevHash channel job hash ntime nbits =>
      rw [Aims, apply, ends_bind]
      exact aims_prevHash h channel job hash ntime nbits
  | target channel target =>
      simp only [Aims, apply, setTarget, ends_bind, ends_getSession, ends_require, ends_update,
        ends_pure]
      exact ⟨fun _ => ⟨fun _ => hlegal, h.network, h.current⟩, fun _ => h⟩
  | accepted channel last count sum =>
      simp only [Aims, apply, accepted, ends_bind, ends_getSession, ends_require, ends_update]
      refine ⟨fun _ => aims_settle ?_ _, fun _ => h⟩
      exact ⟨h.target, h.network, h.current⟩
  | rejected channel sequence reason =>
      simp only [Aims, apply, rejected, ends_bind, ends_getSession, ends_require, ends_update]
      refine ⟨fun _ => aims_settle ?_ _, fun _ => h⟩
      exact ⟨h.target, h.network, h.current⟩
  | error type reference reason => exact h

theorem aims_frames (h : Aimed s) (frames : List Frame) :
    Aims (frames.foldlM (receiveFrame lib) []) s := by
  refine ends_foldlM (I := fun _ => Aimed) ?_ frames h
  intro out frame s h
  rw [receiveFrame, ends_bind, ends_ofExcept]
  split
  · rename_i m hdecode
    rw [ends_bind]
    exact aims_apply h ((decode_iff frame m).mp hdecode).2
  · exact h

theorem aims_receiveWith (h : Aimed s) {loop : List Frame → Program κ (List Json)}
    (hloop : ∀ frames s, Aimed s → Aims (loop frames) s) (bytes : Bytes) :
    Aims (receiveWith lib loop bytes) s := by
  have hread {s : Live κ} (h : Aimed s) (bytes : Bytes) :
      Aims (onNoise (Noise.receiveM lib.port bytes) >>= loop) s := by
    rw [Aims, ends_bind, ends_onNoise]
    refine Ends.of_forall ?_ ?_
    · exact fun frames _ => hloop frames _ ⟨h.target, h.network, h.current⟩
    · exact fun _ _ => ⟨h.target, h.network, h.current⟩
  simp only [Aims, receiveWith, ends_bind, ends_getSession, ends_ite, ends_update, ends_require,
    ends_pure]
  refine ⟨fun _ => ⟨fun _ => ⟨fun _ => ⟨h.target, h.network, h.current⟩, fun _ => ?_⟩,
    fun _ => ⟨h.target, h.network, h.current⟩⟩, fun _ => (ends_bind _ _).mp (hread h bytes)⟩
  rw [ends_onNoise]
  refine Ends.of_forall ?_ fun _ _ => ⟨h.target, h.network, h.current⟩
  intro _ noise
  simp only [ends_bind, ends_update, ends_ofExcept]
  split
  · refine (aims_send ?_ _).mono ?_ fun _ _ h => h
    · exact ⟨fun hphase => absurd hphase (by decide : ¬ 1 = 3), h.network, h.current⟩
    · exact fun _ s h => hread h _
  · exact ⟨fun hphase => absurd hphase (by decide : ¬ 1 = 3), h.network, h.current⟩

theorem aims_perform (h : Aimed s) (call : Call) : Aims (perform lib call) s := by
  cases call with
  | receive bytes => exact aims_receiveWith h (fun frames s h => aims_frames h frames) bytes
  | submit j nonce sequence =>
      simp only [Aims, perform, submit, ends_bind, ends_getSession, ends_require, ends_update]
      refine ⟨fun _ => aims_send ?_ _, fun _ => h⟩
      exact ⟨h.target, h.network, h.current⟩

/-- Whatever a session receives, before and between its frames, and whether or
not it throws, it only ever has attainable jobs. -/
theorem aimed_reachable {first : Live κ} (hfirst : Aimed first) (h : Reachable lib first s) :
    Aimed s := by
  induction h with
  | start => exact hfirst
  | call call earlier ih => exact (aims_perform ih call).left
  | frames k bytes earlier ih =>
      exact (aims_receiveWith ih (fun frames s h => aims_frames h (frames.take k)) bytes).left

theorem aimed_start (state : κ) (handshake : Bytes) (t : Terms) :
    Aimed (start state handshake t.host t.port t.user t.rate) :=
  ⟨fun hphase => (nomatch hphase), fun hprevious => (nomatch hprevious),
    fun _ hj => nomatch hj⟩

end Live

end Sv2

open StratumState in
/-- No hash meets the target zero. An SV1 connection returns and keeps jobs with
another target only, exactly when before every announcement the text of the last
difficulty set denotes at most `65535 * 2 ^ 208`. The job of an SV2 session always
has one, in every state that calls can lead to, also between two frames of a read
and after an exception. -/
theorem published_attainable {messages : List Json} {returned : List (Option Job)}
    {s : StratumState} (h : history receive {} messages = .ok (returned, s)) {κ : Type}
    {lib : Outside κ} {state : κ} {handshake : Bytes} {t : Terms} {live : Live κ}
    (hlive : Live.Reachable lib (.start state handshake t.host t.port t.user t.rate) live) :
    ((∀ j, some j ∈ returned ∨ s.current = some j → j.Attainable) ↔ Modest messages) ∧
      ∀ j, live.session.current = some j → j.Attainable :=
  ⟨all_attainable_iff h, (Live.aimed_reachable (Live.aimed_start state handshake t) hlive).current⟩

theorem published_attainable_sample : ∃ returned s live,
    history StratumState.receive {} (opening ++ [notice]) = .ok (returned, s) ∧
      Live.Reachable Live.sampleOutside (.start () [] Live.sampleTerms.host Live.sampleTerms.port
        Live.sampleTerms.user Live.sampleTerms.rate) live ∧
      ((∀ j, some j ∈ returned ∨ s.current = some j → j.Attainable) ↔
        StratumState.Modest (opening ++ [notice])) ∧
      ∀ j, live.session.current = some j → j.Attainable := by
  obtain ⟨job, hjob, -⟩ := @StratumState.receive_notice sampleState rfl rfl rfl
  have hnotice : history StratumState.receive sampleState [notice] =
      .ok ([some job], sampleState.noticed job) := history_cons.mpr ⟨_, _, _, hjob, rfl, rfl⟩
  have hhistory := append_history StratumState.history_opening hnotice
  have hlive : Live.Reachable Live.sampleOutside (.start () [] Live.sampleTerms.host
      Live.sampleTerms.port Live.sampleTerms.user Live.sampleTerms.rate) Live.sampleOpen :=
    Live.reachable_calls .start Live.sampleCalls
  exact ⟨_, _, _, hhistory, hlive, published_attainable hhistory hlive⟩

/-- The difficulty 1e70, as a pool may set it. -/
def steep : Json :=
  .object [("method".toList, .string "mining.set_difficulty".toList),
    ("params".toList, .array [.float "1e+70".toList
      10000000000000000725314363815292351261583744096465219555182101554790400])]

/-- After a difficulty of 1e70 the next job has a target that no hash meets. -/
theorem steep_publishes_zero : ∃ returned s j,
    history StratumState.receive {} [subscribed, authorized, steep, notice] = .ok (returned, s) ∧
      some j ∈ returned ∧ s.current = some j ∧ j.work.target = Vector.replicate 32 0 := by
  have hsteep : history StratumState.receive {} [subscribed, authorized, steep] =
      .ok ([none, none, none], { sampleState with nextTarget := Vector.replicate 32 0 }) := rfl
  obtain ⟨job, hjob, -, -, -, -, -, htarget⟩ := @StratumState.receive_notice
    { sampleState with nextTarget := Vector.replicate 32 0 } rfl rfl rfl
  have hnotice : history StratumState.receive
      { sampleState with nextTarget := Vector.replicate 32 0 } [notice] = .ok ([some job], _) :=
    history_cons.mpr ⟨_, _, _, hjob, rfl, rfl⟩
  have hhistory := append_history hsteep hnotice
  exact ⟨_, _, job, hhistory, by simp, rfl, htarget⟩

end Supryolo
