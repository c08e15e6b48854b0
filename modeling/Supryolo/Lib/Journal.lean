import Supryolo.Lib.Effects

/-!
Writes to the outside world that may be refused. A journal records every attempt
and whether it took effect; which attempts are refused may depend on their
number in any way. A program performs a script when it makes the writes of the
script in order, and stops where it throws.
-/

namespace Supryolo.Journal

open Effects

variable {ω α β : Type}

/-- The attempts, oldest first, and whether they took effect. -/
abbrev Log (ω : Type) := List (ω × Bool)

abbrev Program (ω α : Type) := EStateM String (Log ω) α

/-- Why the attempt with a given number is refused, if it is. -/
abbrev Outcomes := Nat → Option String

def attempt (outcome : Outcomes) (w : ω) (what : String) : Program ω Unit := do
  let log ← get
  match outcome log.length with
  | none => set (log ++ [(w, true)])
  | some reason => do
      set (log ++ [(w, false)])
      throw (what ++ ": " ++ reason)

theorem ends_attempt {outcome : Outcomes} {w : ω} {what : String} {log : Log ω} {Q : Unit → Log ω → Prop}
    {R : String → Log ω → Prop} (hQ : outcome log.length = none → Q () (log ++ [(w, true)]))
    (hR : ∀ reason, outcome log.length = some reason → R (what ++ ": " ++ reason) (log ++ [(w, false)])) :
    Ends (attempt outcome w what) Q R log := by
  rw [attempt, ends_bind, ends_get]
  cases houtcome : outcome log.length with
  | none => exact hQ houtcome
  | some reason => exact hR reason houtcome

/-- Writes that all took effect. -/
def done (script : List ω) : Log ω := script.map fun w => (w, true)

@[simp] theorem done_nil : done ([] : List ω) = [] := rfl

@[simp] theorem done_append (first later : List ω) : done (first ++ later) = done first ++ done later :=
  List.map_append

@[simp] theorem length_done (script : List ω) : (done script).length = script.length :=
  List.length_map _

/-- What can be wrong with a write, and what is reported then: it cannot be
attempted at all, or the attempt with a given number is refused. -/
structure Faults (ω : Type) where
  missing : ω → String → Prop
  refused : Nat → ω → String → Prop

/-- What a script leaves that stops before a write or at it, after `n` attempts
of other scripts, and what is reported. -/
inductive Stopped (faults : Faults ω) (script : List ω) (n : Nat) : Log ω → String → Prop
  | before (first : List ω) (w : ω) (rest : List ω) (e : String) (hscript : script = first ++ w :: rest)
      (hmissing : faults.missing w e) : Stopped faults script n (done first) e
  | refused (first : List ω) (w : ω) (rest : List ω) (e : String) (hscript : script = first ++ w :: rest)
      (hrefused : faults.refused (n + first.length) w e) :
      Stopped faults script n (done first ++ [(w, false)]) e

variable {faults : Faults ω}

theorem Stopped.left {n : Nat} {tail : Log ω} {e : String} {first later : List ω}
    (h : Stopped faults first n tail e) : Stopped faults (first ++ later) n tail e := by
  cases h with
  | before done w rest e hscript hmissing =>
      exact .before done w (rest ++ later) e (by simp [hscript]) hmissing
  | refused done w rest e hscript hrefused =>
      exact .refused done w (rest ++ later) e (by simp [hscript]) hrefused

theorem Stopped.right {n : Nat} {tail : Log ω} {e : String} {first later : List ω}
    (h : Stopped faults later (n + first.length) tail e) :
    Stopped faults (first ++ later) n (done first ++ tail) e := by
  cases h with
  | before made w rest e hscript hmissing =>
      rw [← done_append]
      exact .before (first ++ made) w rest e (by simp [hscript]) hmissing
  | refused made w rest e hscript hrefused =>
      rw [← List.append_assoc, ← done_append]
      refine .refused (first ++ made) w rest e (by simp [hscript]) ?_
      rwa [List.length_append, ← Nat.add_assoc]

/-- Nothing is attempted that is not in the script. -/
theorem Stopped.mem {n : Nat} {script : List ω} {tail : Log ω} {e : String}
    (h : Stopped faults script n tail e) {w : ω} {taken : Bool} (hw : (w, taken) ∈ tail) :
    w ∈ script := by
  have hdone {made : List ω} (hmem : (w, taken) ∈ done made) : w ∈ made := by
    obtain ⟨_, hmade, hentry⟩ := List.mem_map.mp hmem
    rwa [← (Prod.mk.inj hentry).1]
  cases h with
  | before first w' rest e hscript =>
      rw [hscript]
      exact List.mem_append_left _ (hdone hw)
  | refused first w' rest e hscript =>
      rw [hscript]
      rcases List.mem_append.mp hw with hw | hw
      · exact List.mem_append_left _ (hdone hw)
      · rw [(Prod.mk.inj (List.mem_singleton.mp hw)).1]
        simp

/-- How a program that performs a script can fail: what it leaves after a number
of attempts of others, and what it reports. -/
abbrev Failure (ω : Type) := Nat → Log ω → String → Prop

/-- Whatever has been written before, the program makes all writes of the script
if it returns, and fails as `stop` says if it throws. -/
def Performs (x : Program ω α) (script : List ω) (stop : Failure ω) : Prop :=
  ∀ log, Ends x (fun _ log' => log' = log ++ done script)
    (fun e log' => ∃ tail, stop log.length tail e ∧ log' = log ++ tail) log

theorem performs_pure (a : α) (stop : Failure ω) : Performs (pure a : Program ω α) [] stop := by
  intro log
  rw [ends_pure, done_nil, List.append_nil]

theorem performs_attempt {outcome : Outcomes} {w : ω} {what : String}
    (hrefused : ∀ n reason, outcome n = some reason → faults.refused n w (what ++ ": " ++ reason)) :
    Performs (attempt outcome w what) [w] (Stopped faults [w]) := by
  intro log
  refine ends_attempt (fun _ => rfl) fun reason hreason => ?_
  exact ⟨[(w, false)], .refused [] w [] _ rfl (hrefused _ _ hreason), rfl⟩

theorem Performs.bind {x : Program ω β} {next : β → Program ω α} {first later : List ω}
    (hx : Performs x first (Stopped faults first))
    (hnext : ∀ b, Performs (next b) later (Stopped faults later)) :
    Performs (x >>= next) (first ++ later) (Stopped faults (first ++ later)) := by
  intro log
  rw [ends_bind]
  refine (hx log).mono ?_ ?_
  · rintro b log' rfl
    refine (hnext b _).mono ?_ ?_
    · rintro a log' rfl
      rw [done_append, List.append_assoc]
    · rintro e log' ⟨tail, htail, rfl⟩
      rw [List.length_append, length_done] at htail
      exact ⟨done first ++ tail, htail.right, by rw [List.append_assoc]⟩
  · rintro e log' ⟨tail, htail, rfl⟩
    exact ⟨tail, htail.left, rfl⟩

/-- What follows without a write changes nothing. -/
theorem Performs.map {x : Program ω β} {f : β → α} {script : List ω} {stop : Failure ω}
    (hx : Performs x script stop) : Performs (x >>= fun b => pure (f b)) script stop := by
  intro log
  rw [ends_bind]
  exact (hx log).mono (fun _ _ h => h) fun _ _ h => h

theorem performs_throw {e : String} {w : ω} (hmissing : faults.missing w e) :
    Performs (throw e : Program ω α) [w] (Stopped faults [w]) := by
  intro log
  exact ⟨[], .before [] w [] e rfl hmissing, (List.append_nil log).symm⟩

/-- An error may be reported in other words. -/
theorem Performs.rethrow {x : Program ω α} {f : String → String} {script : List ω}
    {stop : Failure ω} (hx : Performs x script stop) :
    Performs (tryCatch x fun e => throw (f e)) script
      (fun n tail e => ∃ cause, stop n tail cause ∧ e = f cause) := by
  intro log
  rw [ends_tryCatch]
  refine (hx log).mono (fun _ _ h => h) ?_
  rintro e log' ⟨tail, htail, rfl⟩
  exact ⟨tail, ⟨e, htail, rfl⟩, rfl⟩

theorem Performs.mono {x : Program ω α} {script : List ω} {stop stop' : Failure ω}
    (hx : Performs x script stop) (hstop : ∀ n tail e, stop n tail e → stop' n tail e) :
    Performs x script stop' := by
  intro log
  refine (hx log).mono (fun _ _ h => h) ?_
  rintro e log' ⟨tail, htail, rfl⟩
  exact ⟨tail, hstop _ tail e htail, rfl⟩

/-- A stop in a list of scripts: those before are done, one is stopped in. -/
inductive StoppedAt (out : α → List ω) (stop : α → Failure ω) (xs : List α) : Failure ω
  | stopped (n : Nat) (first : List α) (x : α) (rest : List α) (tail : Log ω) (e : String)
      (hxs : xs = first ++ x :: rest) (htail : stop x (n + (first.flatMap out).length) tail e) :
      StoppedAt out stop xs n (done (first.flatMap out) ++ tail) e

/-- A loop whose passes perform scripts performs them in order, and makes no
further pass after the one that throws. -/
theorem performs_foldlM {body : β → α → Program ω β} {out : α → List ω}
    {stop : α → Failure ω} {xs : List α}
    (hbody : ∀ acc, ∀ x ∈ xs, Performs (body acc x) (out x) (stop x)) (acc : β) :
    Performs (xs.foldlM body acc) (xs.flatMap out) (StoppedAt out stop xs) := by
  induction xs generalizing acc with
  | nil => exact performs_pure acc _
  | cons x rest ih =>
      intro log
      rw [List.foldlM_cons, ends_bind]
      refine (hbody acc x List.mem_cons_self log).mono ?_ ?_
      · rintro acc log' rfl
        refine (ih (fun acc x hx => hbody acc x (List.mem_cons_of_mem _ hx)) acc _).mono ?_ ?_
        · rintro acc log' rfl
          rw [List.flatMap_cons, done_append, List.append_assoc]
        · rintro e log' ⟨_, ⟨_, first, x', later, tail, e, rfl, htail⟩, rfl⟩
          rw [List.length_append, length_done] at htail
          refine ⟨_, .stopped _ (x :: first) x' later tail e rfl ?_, ?_⟩
          · rwa [List.flatMap_cons, List.length_append, ← Nat.add_assoc]
          · rw [List.flatMap_cons, done_append, List.append_assoc, List.append_assoc]
      · rintro e log' ⟨tail, htail, rfl⟩
        exact ⟨_, .stopped _ [] x rest tail e rfl htail, by simp⟩

/-- A loop of scripts that may only stop is one script. -/
theorem StoppedAt.flatten {out : α → List ω} {xs : List α} {n : Nat} {tail : Log ω} {e : String}
    (h : StoppedAt out (fun x => Stopped faults (out x)) xs n tail e) :
    Stopped faults (xs.flatMap out) n tail e := by
  obtain ⟨_, first, x, rest, tail, e, rfl, htail⟩ := h
  rw [List.flatMap_append, List.flatMap_cons]
  exact htail.left.right

end Supryolo.Journal
