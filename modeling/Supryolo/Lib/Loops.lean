import Mathlib.Tactic

namespace Supryolo.Loops

variable {α β ε : Type}

theorem ok_bind {α β : Type} (x : α) (next : α → Except ε β) :
    (Except.ok x >>= next) = next x := rfl

theorem bind_eq_ok {α β : Type} {x : Except ε α} {next : α → Except ε β} {result : β} :
    (x >>= next) = .ok result ↔ ∃ value, x = .ok value ∧ next value = .ok result := by
  cases x with
  | error e =>
      constructor
      · intro h
        cases h
      · rintro ⟨value, h, -⟩
        cases h
  | ok value =>
      constructor
      · intro h
        exact ⟨value, rfl, h⟩
      · rintro ⟨value', h, hnext⟩
        cases h
        exact hnext

theorem pure_eq_ok {α : Type} {value result : α} :
    (pure value : Except ε α) = .ok result ↔ value = result := by
  constructor
  · intro h
    exact Except.ok.inj h
  · rintro rfl
    rfl

/-- A guard that throws has passed. -/
theorem guard_eq_ok {α : Type} {p : Prop} [Decidable p] {e : ε} {next : Except ε α} {result : α} :
    (if p then throw e else next) = .ok result ↔ ¬ p ∧ next = .ok result := by
  by_cases hp : p
  · simp only [hp, if_true, not_true, false_and, iff_false]
    intro h
    cases h
  · simp only [hp, if_false, not_false_eq_true, true_and]

theorem guard_eq_error {α : Type} {p : Prop} [Decidable p] {e e' : ε} {next : Except ε α} :
    (if p then throw e else next) = .error e' ↔ (p ∧ e = e') ∨ (¬ p ∧ next = .error e') := by
  by_cases hp : p
  · simp only [hp, if_true, true_and, not_true, false_and, or_false]
    exact ⟨fun h => Except.error.inj h, fun h => congrArg Except.error h⟩
  · simp only [hp, if_false, false_and, not_false_iff, true_and, false_or]

theorem bind_eq_error {α β : Type} {x : Except ε α} {next : α → Except ε β} {e : ε} :
    (x >>= next) = .error e ↔ x = .error e ∨ ∃ value, x = .ok value ∧ next value = .error e := by
  cases x with
  | error e' =>
      constructor
      · intro h
        exact Or.inl (congrArg Except.error (Except.error.inj h))
      · rintro (h | ⟨value, hvalue, -⟩)
        · rw [Except.error.inj h]
          rfl
        · cases hvalue
  | ok value =>
      constructor
      · intro h
        exact Or.inr ⟨value, rfl, h⟩
      · rintro (h | ⟨value', hvalue, h⟩)
        · cases h
        · obtain rfl := Except.ok.inj hvalue
          exact h

/-- A loop whose body only appends `out x` at `x` appends all of them. -/
theorem foldlM_append (body : List β → α → Except ε (List β)) (out : α → List β)
    (hbody : ∀ acc x, body acc x = .ok (acc ++ out x)) (xs : List α) (acc : List β) :
    xs.foldlM body acc = .ok (acc ++ xs.flatMap out) := by
  induction xs generalizing acc with
  | nil => simp; rfl
  | cons x rest ih =>
      rw [List.foldlM_cons, hbody]
      change rest.foldlM body (acc ++ out x) = _
      rw [ih, List.flatMap_cons, List.append_assoc]

/-- What the body keeps, the loop keeps. -/
theorem foldlM_invariant_mem {σ : Type} {body : σ → α → Except ε σ} {I : σ → Prop} {xs : List α}
    {s s' : σ} (hbody : ∀ s, ∀ x ∈ xs, ∀ s', I s → body s x = .ok s' → I s') (hs : I s)
    (h : xs.foldlM body s = .ok s') : I s' := by
  induction xs generalizing s with
  | nil =>
      obtain rfl := pure_eq_ok.mp h
      exact hs
  | cons x rest ih =>
      rw [List.foldlM_cons] at h
      obtain ⟨middle, hmiddle, h⟩ := bind_eq_ok.mp h
      exact ih (fun s x hx => hbody s x (List.mem_cons_of_mem _ hx))
        (hbody s x List.mem_cons_self middle hs hmiddle) h

theorem foldlM_invariant {σ : Type} {body : σ → α → Except ε σ} {I : σ → Prop}
    (hbody : ∀ s x s', I s → body s x = .ok s' → I s') {xs : List α} {s s' : σ} (hs : I s)
    (h : xs.foldlM body s = .ok s') : I s' :=
  foldlM_invariant_mem (fun s x _ => hbody s x) hs h

/-- A loop fails with an error of its body. -/
theorem foldlM_error {σ : Type} {body : σ → α → Except ε σ} {P : ε → Prop} {xs : List α} {s : σ}
    {e : ε} (hbody : ∀ s x e, body s x = .error e → P e) (h : xs.foldlM body s = .error e) :
    P e := by
  induction xs generalizing s with
  | nil => cases h
  | cons x rest ih =>
      rw [List.foldlM_cons] at h
      rcases bind_eq_error.mp h with h | ⟨s', -, h⟩
      · exact hbody s x e h
      · exact ih h

/-- A loop that maps returns one result for each item, in order. -/
theorem mapM_eq_ok {f : α → Except ε β} {xs : List α} {ys : List β} :
    xs.mapM f = .ok ys ↔ List.Forall₂ (fun x y => f x = .ok y) xs ys := by
  induction xs generalizing ys with
  | nil =>
      rw [List.mapM_nil, pure_eq_ok, List.forall₂_nil_left_iff, eq_comm]
  | cons x rest ih =>
      rw [List.mapM_cons, List.forall₂_cons_left_iff]
      constructor
      · intro h
        obtain ⟨y, hy, h⟩ := bind_eq_ok.mp h
        obtain ⟨later, hlater, h⟩ := bind_eq_ok.mp h
        exact ⟨y, later, hy, ih.mp hlater, (pure_eq_ok.mp h).symm⟩
      · rintro ⟨y, later, hy, hlater, rfl⟩
        rw [hy, ok_bind, ih.mpr hlater]
        rfl

theorem mem_of_mapM {f : α → Except ε β} {xs : List α} {ys : List β} (h : xs.mapM f = .ok ys) {y : β}
    (hy : y ∈ ys) : ∃ x ∈ xs, f x = .ok y := by
  induction mapM_eq_ok.mp h with
  | nil => cases hy
  | cons hstep later ih =>
      rcases List.mem_cons.mp hy with rfl | hy
      · exact ⟨_, List.mem_cons_self, hstep⟩
      · obtain ⟨x, hx, hstep⟩ := ih (mapM_eq_ok.mpr later) hy
        exact ⟨x, List.mem_cons_of_mem _ hx, hstep⟩

theorem mapM_total {f : α → Except ε β} {xs : List α} (h : ∀ x ∈ xs, ∃ y, f x = .ok y) :
    ∃ ys, xs.mapM f = .ok ys := by
  induction xs with
  | nil => exact ⟨[], rfl⟩
  | cons x rest ih =>
      obtain ⟨y, hy⟩ := h x List.mem_cons_self
      obtain ⟨ys, hys⟩ := ih fun x hx => h x (List.mem_cons_of_mem _ hx)
      refine ⟨y :: ys, ?_⟩
      rw [List.mapM_cons, hy, ok_bind, hys]
      rfl

/-- A loop over blocks of `width` indices visits every index once, in order. -/
theorem flatMap_blocks (out : Nat → List β) (width blocks : Nat) :
    (List.range blocks).flatMap (fun k => (List.range width).flatMap fun j => out (width * k + j)) =
      (List.range (width * blocks)).flatMap out := by
  induction blocks with
  | zero => simp
  | succ blocks ih =>
      rw [List.range_succ, List.flatMap_append, ih, Nat.mul_succ, List.range_add,
        List.flatMap_append, List.flatMap_map]
      simp

/-- Indices past the bound contribute nothing. -/
theorem flatMap_range_of_le (out : Nat → List β) (count total : Nat) (hle : count ≤ total) :
    (List.range total).flatMap (fun i => if i < count then out i else []) =
      (List.range count).flatMap out := by
  obtain ⟨extra, rfl⟩ := Nat.exists_eq_add_of_le hle
  rw [List.range_add, List.flatMap_append, List.flatMap_map]
  have hfront : (List.range count).flatMap (fun i => if i < count then out i else []) =
      (List.range count).flatMap out := by
    apply List.flatMap_congr
    intro i hi
    rw [if_pos (List.mem_range.mp hi)]
  simp [hfront]

theorem flatMap_filter_singleton (p : α → Bool) (xs : List α) :
    xs.flatMap (fun x => [x].filter p) = xs.filter p := by
  induction xs with
  | nil => rfl
  | cons x rest ih => rw [List.flatMap_cons, ih, ← List.filter_append, List.singleton_append]

end Supryolo.Loops
