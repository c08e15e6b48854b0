import Mathlib.Tactic

/-!
Programs that may throw, and keep what they have written until then. `Ends` is
the weakest precondition of such a program: one condition on what it returns and
one on what it throws, each with the state it leaves. What every operation of an
object keeps, also where it throws, holds after any sequence of calls.
-/

namespace Supryolo.Effects

variable {ε σ α β ι ο : Type}

/-- From `s` the program returns with `Q` or throws with `R`. -/
def Ends (x : EStateM ε σ α) (Q : α → σ → Prop) (R : ε → σ → Prop) (s : σ) : Prop :=
  match x s with
  | .ok a s' => Q a s'
  | .error e s' => R e s'

variable {Q Q' : α → σ → Prop} {R R' : ε → σ → Prop} {s s' : σ}

theorem Ends.mono {x : EStateM ε σ α} (h : Ends x Q R s) (hQ : ∀ a s', Q a s' → Q' a s')
    (hR : ∀ e s', R e s' → R' e s') : Ends x Q' R' s := by
  unfold Ends at h ⊢
  cases hresult : x s with
  | ok a s' =>
      rw [hresult] at h
      exact hQ a s' h
  | error e s' =>
      rw [hresult] at h
      exact hR e s' h

theorem Ends.and {x : EStateM ε σ α} (h : Ends x Q R s) (h' : Ends x Q' R' s) :
    Ends x (fun a s => Q a s ∧ Q' a s) (fun e s => R e s ∧ R' e s) s := by
  unfold Ends at h h' ⊢
  cases hresult : x s with
  | ok a s' =>
      rw [hresult] at h h'
      exact ⟨h, h'⟩
  | error e s' =>
      rw [hresult] at h h'
      exact ⟨h, h'⟩

theorem Ends.ok {x : EStateM ε σ α} {a : α} (h : Ends x Q R s) (hok : x s = .ok a s') :
    Q a s' := by
  unfold Ends at h
  rw [hok] at h
  exact h

theorem Ends.error {x : EStateM ε σ α} {e : ε} (h : Ends x Q R s) (herror : x s = .error e s') :
    R e s' := by
  unfold Ends at h
  rw [herror] at h
  exact h

theorem Ends.of_forall {x : EStateM ε σ α} (hQ : ∀ a s, Q a s) (hR : ∀ e s, R e s) :
    Ends x Q R s := by
  unfold Ends
  cases x s with
  | ok a s' => exact hQ a s'
  | error e s' => exact hR e s'

/-- The state a program leaves, whether it returns or throws. -/
def left (x : EStateM ε σ α) (s : σ) : σ :=
  match x s with
  | .ok _ s' => s'
  | .error _ s' => s'

theorem Ends.left {x : EStateM ε σ α} {I : σ → Prop} (h : Ends x (fun _ => I) (fun _ => I) s) :
    I (left x s) := by
  unfold Effects.left
  cases hresult : x s with
  | ok a s' => exact h.ok hresult
  | error e s' => exact h.error hresult

@[simp] theorem ends_pure (a : α) : Ends (pure a : EStateM ε σ α) Q R s ↔ Q a s := Iff.rfl

@[simp] theorem ends_throw (e : ε) : Ends (throw e : EStateM ε σ α) Q R s ↔ R e s := Iff.rfl

@[simp] theorem ends_bind (x : EStateM ε σ β) (next : β → EStateM ε σ α) :
    Ends (x >>= next) Q R s ↔ Ends x (fun b => Ends (next b) Q R) R s := by
  change (match EStateM.bind x next s with | .ok a s' => Q a s' | .error e s' => R e s') ↔
    match x s with | .ok b s' => Ends (next b) Q R s' | .error e s' => R e s'
  unfold EStateM.bind
  cases x s <;> rfl

@[simp] theorem ends_get {Q : σ → σ → Prop} : Ends (get : EStateM ε σ σ) Q R s ↔ Q s s := Iff.rfl

@[simp] theorem ends_set (s' : σ) {Q : PUnit → σ → Prop} :
    Ends (set s' : EStateM ε σ PUnit) Q R s ↔ Q ⟨⟩ s' := Iff.rfl

@[simp] theorem ends_modify (f : σ → σ) {Q : PUnit → σ → Prop} :
    Ends (modify f : EStateM ε σ PUnit) Q R s ↔ Q ⟨⟩ (f s) := Iff.rfl

@[simp] theorem ends_tryCatch (x : EStateM ε σ α) (handler : ε → EStateM ε σ α) :
    Ends (tryCatch x handler) Q R s ↔ Ends x Q (fun e => Ends (handler e) Q R) s := by
  change (match EStateM.tryCatch x handler s with | .ok a s' => Q a s' | .error e s' => R e s') ↔
    match x s with | .ok a s' => Q a s' | .error e s' => Ends (handler e) Q R s'
  unfold EStateM.tryCatch
  cases x s <;> rfl

@[simp] theorem ends_ofExcept (x : Except ε α) :
    Ends (ofExcept x : EStateM ε σ α) Q R s ↔
      match x with | .ok a => Q a s | .error e => R e s := by
  cases x <;> rfl

@[simp] theorem ends_ite {p : Prop} [Decidable p] (x y : EStateM ε σ α) :
    Ends (if p then x else y) Q R s ↔ (p → Ends x Q R s) ∧ (¬ p → Ends y Q R s) := by
  by_cases hp : p <;> simp [hp]

/-- A program on a part of the state. -/
def zoom {τ : Type} (part : σ → τ) (put : σ → τ → σ) (x : EStateM ε τ α) : EStateM ε σ α := fun s =>
  match x (part s) with
  | .ok a t => .ok a (put s t)
  | .error e t => .error e (put s t)

@[simp] theorem ends_zoom {τ : Type} (part : σ → τ) (put : σ → τ → σ) (x : EStateM ε τ α) :
    Ends (zoom part put x) Q R s ↔
      Ends x (fun a t => Q a (put s t)) (fun e t => R e (put s t)) (part s) := by
  unfold Ends zoom
  cases x (part s) <;> rfl

/-- A loop whose passes keep an invariant keeps it, also where a pass throws. -/
theorem ends_foldlM {body : β → α → EStateM ε σ β} {I : β → σ → Prop}
    (hbody : ∀ acc a s, I acc s → Ends (body acc a) I R s) (xs : List α) {acc : β}
    (h : I acc s) : Ends (xs.foldlM body acc) I R s := by
  induction xs generalizing acc s with
  | nil => exact h
  | cons a xs ih =>
      rw [List.foldlM_cons, ends_bind]
      exact (hbody acc a s h).mono (fun acc s h => ih h) fun e s h => h

/-- A loop over indices whose passes lead from each invariant to the next. -/
theorem ends_foldlM_range {body : β → Nat → EStateM ε σ β} {I : Nat → β → σ → Prop} {n : Nat}
    (hbody : ∀ i < n, ∀ acc s, I i acc s → Ends (body acc i) (I (i + 1)) R s) {acc : β}
    (h : I 0 acc s) : Ends ((List.range n).foldlM body acc) (I n) R s := by
  induction n with
  | zero => exact h
  | succ n ih =>
      rw [List.range_succ, List.foldlM_append, ends_bind]
      refine (ih fun i hi => hbody i (by omega)).mono ?_ fun _ _ h => h
      intro acc s h
      rw [List.foldlM_cons, ends_bind]
      exact (hbody n (by omega) acc s h).mono (fun _ _ h => h) fun _ _ h => h

/-- The program returns what `y` returns, in the same state, and throws exactly
when `y` does. -/
def Agrees (x : EStateM ε σ α) (y : Except ε (α × σ)) (s : σ) : Prop :=
  Ends x (fun a s' => y = .ok (a, s')) (fun _ _ => ∀ result, y ≠ .ok result) s

/-- Agreement up to what `part` shows of the state. -/
def AgreesOn {τ : Type} (part : σ → τ) (x : EStateM ε σ α) (y : Except ε (α × τ)) (s : σ) : Prop :=
  Ends x (fun a s' => y = .ok (a, part s')) (fun _ _ => ∀ result, y ≠ .ok result) s

section Agreement

variable {τ : Type} {part : σ → τ}

theorem AgreesOn.ok_iff {x : EStateM ε σ α} {y : Except ε (α × τ)} (h : AgreesOn part x y s)
    {a : α} {t : τ} : (∃ s', x s = .ok a s' ∧ part s' = t) ↔ y = .ok (a, t) := by
  unfold AgreesOn at h
  constructor
  · rintro ⟨s', hok, rfl⟩
    exact h.ok hok
  · intro hy
    cases hx : x s with
    | ok b last =>
        have hb := h.ok hx
        rw [hb] at hy
        cases hy
        exact ⟨last, rfl, rfl⟩
    | error e last => exact absurd hy (h.error hx (a, t))

theorem agreesOn_bind {x : EStateM ε σ β} {y : Except ε (β × τ)} {next : β → EStateM ε σ α}
    {after : β × τ → Except ε (α × τ)} (hx : AgreesOn part x y s)
    (hnext : ∀ b s', y = .ok (b, part s') → AgreesOn part (next b) (after (b, part s')) s') :
    AgreesOn part (x >>= next) (y >>= after) s := by
  unfold AgreesOn
  rw [ends_bind]
  refine Ends.mono hx ?_ ?_
  · intro b s' hy
    rw [hy]
    exact hnext b s' hy
  · intro e s' hy result
    cases y with
    | error e =>
        intro h
        cases h
    | ok value => exact absurd rfl (hy value)

/-- What is made of the result does not touch the state. -/
theorem AgreesOn.map {x : EStateM ε σ β} {y : Except ε (β × τ)} (h : AgreesOn part x y s)
    (f : β → α) : AgreesOn part (x >>= fun b => pure (f b)) (y >>= fun r => pure (f r.1, r.2)) s :=
  agreesOn_bind h fun _ _ _ => rfl

theorem agreesOn_ofExcept {x : Except ε β} {next : β → EStateM ε σ α}
    {after : β → Except ε (α × τ)} (hnext : ∀ b, x = .ok b → AgreesOn part (next b) (after b) s) :
    AgreesOn part (ofExcept x >>= next) (x >>= after) s := by
  cases x with
  | error e =>
      intro result h
      cases h
  | ok b => exact hnext b rfl

theorem agreesOn_foldlM {body : β → α → EStateM ε σ β} {step : β × τ → α → Except ε (β × τ)}
    (hbody : ∀ acc a s, AgreesOn part (body acc a) (step (acc, part s) a) s) (xs : List α)
    (acc : β) : AgreesOn part (xs.foldlM body acc) (xs.foldlM step (acc, part s)) s := by
  induction xs generalizing acc s with
  | nil => exact rfl
  | cons a xs ih =>
      rw [List.foldlM_cons, List.foldlM_cons]
      exact agreesOn_bind (hbody acc a s) fun acc s _ => ih acc

end Agreement

theorem agrees_foldlM {body : β → α → EStateM ε σ β} {step : β × σ → α → Except ε (β × σ)}
    (hbody : ∀ acc a s, Agrees (body acc a) (step (acc, s) a) s) (xs : List α) (acc : β) :
    Agrees (xs.foldlM body acc) (xs.foldlM step (acc, s)) s := by
  have hall : AgreesOn id (xs.foldlM body acc) (xs.foldlM step (acc, s)) s :=
    agreesOn_foldlM hbody xs acc
  exact hall

/-- Calls made one after the other, whether or not they throw. -/
def calls (call : ι → EStateM ε σ ο) : σ → List ι → List (Except ε ο) × σ
  | s, [] => ([], s)
  | s, i :: rest =>
      match call i s with
      | .ok o s' =>
          let (results, last) := calls call s' rest
          (.ok o :: results, last)
      | .error e s' =>
          let (results, last) := calls call s' rest
          (.error e :: results, last)

/-- What every call keeps and every result has, once it holds. -/
theorem calls_keep {call : ι → EStateM ε σ ο} {I : σ → Prop} {P : Except ε ο → Prop}
    (hcall : ∀ i s, I s → Ends (call i) (fun o s => I s ∧ P (.ok o)) (fun e s => I s ∧ P (.error e)) s)
    (inputs : List ι) (h : I s) :
    I (calls call s inputs).2 ∧ ∀ r ∈ (calls call s inputs).1, P r := by
  induction inputs generalizing s with
  | nil => exact ⟨h, fun r hr => nomatch hr⟩
  | cons i rest ih =>
      have hends := hcall i s h
      rw [calls]
      cases hresult : call i s with
      | ok o s' =>
          obtain ⟨hI, hP⟩ := hends.ok hresult
          obtain ⟨hlast, hrest⟩ := ih hI
          exact ⟨hlast, List.forall_mem_cons.mpr ⟨hP, hrest⟩⟩
      | error e s' =>
          obtain ⟨hI, hP⟩ := hends.error hresult
          obtain ⟨hlast, hrest⟩ := ih hI
          exact ⟨hlast, List.forall_mem_cons.mpr ⟨hP, hrest⟩⟩

end Supryolo.Effects
