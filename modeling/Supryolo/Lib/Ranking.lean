import Mathlib.Logic.Relation

/-!
Runs that must end. A rank that every step lowers bounds the number of steps, and
a run that is continued while it can be ends in a state without steps.
-/

namespace Supryolo.Ranking

open Relation

variable {σ : Type} {step : σ → σ → Prop} {I : σ → Prop} {rank : σ → Nat} {n : Nat} {s s' : σ}

/-- A run of so many steps. -/
inductive Takes (step : σ → σ → Prop) : Nat → σ → σ → Prop
  | refl (s : σ) : Takes step 0 s s
  | tail {n : Nat} {s s' s'' : σ} (hbefore : Takes step n s s') (hstep : step s' s'') :
      Takes step (n + 1) s s''

/-- An invariant under which every step lowers the rank. -/
def Lowers (step : σ → σ → Prop) (I : σ → Prop) (rank : σ → Nat) : Prop :=
  ∀ s s', I s → step s s' → I s' ∧ rank s' < rank s

/-- A run takes no more steps than the rank goes down. -/
theorem Lowers.takes_le (h : Lowers step I rank) (hs : I s) (htakes : Takes step n s s') :
    I s' ∧ n + rank s' ≤ rank s := by
  induction htakes with
  | refl s => exact ⟨hs, by omega⟩
  | tail hbefore hstep ih =>
      obtain ⟨hinvariant, hle⟩ := ih hs
      obtain ⟨hnext, hlt⟩ := h _ _ hinvariant hstep
      exact ⟨hnext, by omega⟩

/-- Where every state of the invariant can step or is final, a final state is
reached. -/
theorem Lowers.reaches (h : Lowers step I rank) {final : σ → Prop}
    (hprogress : ∀ s, I s → (∃ s', step s s') ∨ final s) (hs : I s) :
    ∃ s', ReflTransGen step s s' ∧ final s' := by
  induction hrank : rank s using Nat.strongRecOn generalizing s with
  | _ r ih =>
      rcases hprogress s hs with ⟨next, hstep⟩ | hfinal
      · obtain ⟨hnext, hlt⟩ := h s next hs hstep
        obtain ⟨last, hsteps, hlast⟩ := ih (rank next) (by omega) hnext rfl
        exact ⟨last, ReflTransGen.head hstep hsteps, hlast⟩
      · exact ⟨s, .refl, hfinal⟩

end Supryolo.Ranking
