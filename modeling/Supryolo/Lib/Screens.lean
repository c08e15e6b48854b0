import Supryolo.Lib.Effects

/-!
Programs that draw on a flat grid of cells, with accesses out of bounds as
errors. A safe program never makes one, keeps the number of cells, and only
stores cells that have a given property. A confined program changes no cell
outside of its region, so what was drawn elsewhere stays.
-/

namespace Supryolo.Screens

open Effects

variable {γ α β : Type}

abbrev Canvas (γ α : Type) := EStateM String (List γ) α

def store (index : Int) (cell : γ) : Canvas γ Unit := do
  let grid ← get
  if 0 ≤ index ∧ index < grid.length then set (grid.set index.toNat cell)
  else throw "store out of bounds"

def load (index : Int) : Canvas γ γ := do
  let grid ← get
  match if index < 0 then none else grid[index.toNat]? with
  | some cell => pure cell
  | none => throw "load out of bounds"

def each (xs : List β) (draw : β → Canvas γ Unit) : Canvas γ Unit :=
  xs.foldlM (fun _ x => draw x) ()

/-- The cells of a grid of `size` have the property. -/
structure Filled (P : γ → Prop) (size : Int) (grid : List γ) : Prop where
  size : (grid.length : Int) = size
  cells : ∀ cell ∈ grid, P cell

def Safe (P : γ → Prop) (size : Int) (x : Canvas γ α) : Prop :=
  ∀ grid, Filled P size grid → Ends x (fun _ => Filled P size) (fun _ _ => False) grid

section

variable {P : γ → Prop} {size : Int}

theorem safe_pure (a : α) : Safe P size (pure a : Canvas γ α) := fun _ h => h

theorem Safe.bind {x : Canvas γ β} {next : β → Canvas γ α} (hx : Safe P size x)
    (hnext : ∀ b, Safe P size (next b)) : Safe P size (x >>= next) := by
  intro grid hgrid
  rw [ends_bind]
  exact (hx grid hgrid).mono (fun b grid h => hnext b grid h) fun _ _ h => h

theorem Safe.ite {p : Prop} [Decidable p] {x y : Canvas γ α} (hx : p → Safe P size x)
    (hy : ¬ p → Safe P size y) : Safe P size (if p then x else y) := by
  split
  · exact hx ‹_›
  · exact hy ‹_›

theorem safe_each {xs : List β} {draw : β → Canvas γ Unit} (h : ∀ x ∈ xs, Safe P size (draw x)) :
    Safe P size (each xs draw) := by
  unfold each
  induction xs with
  | nil => exact safe_pure ()
  | cons x rest ih =>
      rw [List.foldlM_cons]
      exact (h x List.mem_cons_self).bind fun _ => ih fun x hx => h x (List.mem_cons_of_mem _ hx)

theorem store_ends {index : Int} (cell : γ) {grid : List γ}
    (hindex : 0 ≤ index ∧ index < grid.length) :
    Ends (store index cell) (fun _ grid' => grid' = grid.set index.toNat cell) (fun _ _ => False)
      grid := by
  rw [store, ends_bind, ends_get, if_pos hindex, ends_set]

theorem safe_store {index : Int} {cell : γ} (hindex : 0 ≤ index ∧ index < size) (hcell : P cell) :
    Safe P size (store index cell) := by
  intro grid hgrid
  have hlength := hgrid.size
  refine (store_ends cell (by omega)).mono ?_ fun _ _ h => h
  rintro _ _ rfl
  refine ⟨by rw [List.length_set]; exact hlength, ?_⟩
  intro other hother
  rcases List.mem_or_eq_of_mem_set hother with h | rfl
  · exact hgrid.cells other h
  · exact hcell

theorem load_ends {index : Int} {grid : List γ} (hindex : 0 ≤ index ∧ index < size)
    (h : Filled P size grid) :
    Ends (load index) (fun cell grid' => grid' = grid ∧ P cell ∧ grid[index.toNat]? = some cell)
      (fun _ _ => False) grid := by
  have hlength := h.size
  have hat : index.toNat < grid.length := by omega
  rw [load, ends_bind, ends_get, if_neg (by omega), List.getElem?_eq_getElem hat]
  exact ⟨rfl, h.cells _ (List.getElem_mem hat), rfl⟩

end

/-- Where it returns, the program has changed no cell outside of the region. -/
def Within (region : Int → Prop) (x : Canvas γ α) : Prop :=
  ∀ grid, Ends x (fun _ grid' => ∀ i : Nat, ¬ region i → grid'[i]? = grid[i]?) (fun _ _ => True) grid

section

variable {region : Int → Prop}

theorem within_pure (a : α) : Within region (pure a : Canvas γ α) := fun _ _ _ => rfl

theorem Within.bind {x : Canvas γ β} {next : β → Canvas γ α} (hx : Within region x)
    (hnext : ∀ b, Within region (next b)) : Within region (x >>= next) := by
  intro grid
  rw [ends_bind]
  refine (hx grid).mono ?_ fun _ _ h => h
  intro b middle hfirst
  refine (hnext b middle).mono ?_ fun _ _ h => h
  intro _ _ hlater i hi
  rw [hlater i hi, hfirst i hi]

theorem Within.ite {p : Prop} [Decidable p] {x y : Canvas γ α} (hx : p → Within region x)
    (hy : ¬ p → Within region y) : Within region (if p then x else y) := by
  split
  · exact hx ‹_›
  · exact hy ‹_›

theorem Within.mono {region' : Int → Prop} {x : Canvas γ α} (h : Within region x)
    (hle : ∀ i, region i → region' i) : Within region' x := fun grid =>
  (h grid).mono (fun _ _ hsame i hi => hsame i fun hregion => hi (hle i hregion)) fun _ _ h => h

theorem within_store {index : Int} (cell : γ) (hregion : region index) :
    Within region (store index cell) := by
  intro grid
  rw [store, ends_bind, ends_get, ends_ite, ends_set]
  refine ⟨?_, fun _ => trivial⟩
  rintro ⟨hnonneg, -⟩ i hi
  apply List.getElem?_set_ne
  rintro rfl
  rw [Int.toNat_of_nonneg hnonneg] at hi
  exact hi hregion

end

/-- Row-major positions lie in the grid. -/
theorem position_bounds {x y width height : Int} (hx : 0 ≤ x ∧ x < width) (hy : 0 ≤ y ∧ y < height) :
    0 ≤ y * width + x ∧ y * width + x < width * height := by
  have hrow : 0 ≤ y * width := Int.mul_nonneg hy.1 (by omega)
  have hlast : (y + 1) * width ≤ height * width := Int.mul_le_mul_of_nonneg_right (by omega) (by omega)
  rw [Int.add_mul, Int.one_mul, Int.mul_comm height] at hlast
  omega

/-- Rows that all but the last end with a separator are joined by it. -/
theorem flatten_separated (sep : List α) (rows : List (List α)) :
    (rows.mapIdx fun i row => row ++ if i + 1 < rows.length then sep else []).flatten =
      sep.intercalate rows := by
  induction rows with
  | nil => rfl
  | cons row rest ih =>
      have hrest : (rest.mapIdx fun i row =>
          row ++ if i + 1 + 1 < rest.length + 1 then sep else []) =
          rest.mapIdx fun i row => row ++ if i + 1 < rest.length then sep else [] := by
        simp only [Nat.add_lt_add_iff_right]
      rw [List.mapIdx_cons, List.length_cons, hrest, List.flatten_cons, ih]
      cases rest with
      | nil => simp
      | cons next rest => simp [List.intercalate_cons_cons]

end Supryolo.Screens
