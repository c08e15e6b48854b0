import Supryolo.Lib.Loops

/-!
Command lines. A word is a switch, a setting that takes the next word whatever it
is, or ends the scan. A scan reads a command line as the only list of directives
that spells it and performs these one after the other.
-/

namespace Supryolo.Directives

open Loops

inductive Role (φ σ : Type)
  | switch (f : φ)
  | setting (p : σ)
  | stop
  | unknown
  deriving DecidableEq

structure Grammar (α φ σ τ ε : Type) where
  role : α → Role φ σ
  flip : τ → φ → τ
  set : τ → σ → α → Except ε τ
  missing : α → ε
  unknown : α → ε

inductive Directive (α φ σ : Type)
  | flip (f : φ)
  | set (p : σ) (value : α)
  deriving DecidableEq

variable {α φ σ τ ε : Type} {g : Grammar α φ σ τ ε} {s s' : τ} {words : List α}
  {directives : List (Directive α φ σ)}

/-- `none` where a word ended the scan. -/
def scan (g : Grammar α φ σ τ ε) (s : τ) : List α → Except ε (Option τ)
  | [] => pure (some s)
  | word :: rest =>
      match g.role word with
      | .switch f => scan g (g.flip s f) rest
      | .stop => pure none
      | .unknown => throw (g.unknown word)
      | .setting p =>
          match rest with
          | [] => throw (g.missing word)
          | value :: rest => do
              let s ← g.set s p value
              scan g s rest

def perform (g : Grammar α φ σ τ ε) (s : τ) : Directive α φ σ → Except ε τ
  | .flip f => pure (g.flip s f)
  | .set p value => g.set s p value

/-- The words of a list of directives. -/
inductive Spells (g : Grammar α φ σ τ ε) : List (Directive α φ σ) → List α → Prop
  | nil : Spells g [] []
  | flip {directives : List (Directive α φ σ)} {words : List α} {word : α} {f : φ}
      (hrole : g.role word = .switch f) (later : Spells g directives words) :
      Spells g (.flip f :: directives) (word :: words)
  | set {directives : List (Directive α φ σ)} {words : List α} {word value : α} {p : σ}
      (hrole : g.role word = .setting p) (later : Spells g directives words) :
      Spells g (.set p value :: directives) (word :: value :: words)

theorem scan_spells (h : Spells g directives words) (s : τ) :
    scan g s words = (directives.foldlM (perform g) s >>= fun s => pure (some s)) := by
  induction h generalizing s with
  | nil => rfl
  | flip hrole later ih =>
      unfold scan
      rw [hrole, List.foldlM_cons]
      exact ih _
  | @set directives words word value p hrole later ih =>
      unfold scan
      rw [hrole, List.foldlM_cons]
      dsimp only [perform]
      cases g.set s p value with
      | error e => rfl
      | ok s' => exact ih s'

/-- A scan that gets to the end has performed the directives it read. -/
theorem scan_eq_some :
    scan g s words = .ok (some s') ↔
      ∃ directives, Spells g directives words ∧ directives.foldlM (perform g) s = .ok s' := by
  constructor
  · intro h
    induction hlength : words.length using Nat.strongRecOn generalizing s words with
    | _ n ih =>
        subst hlength
        cases words with
        | nil =>
            obtain rfl := Option.some.inj (pure_eq_ok.mp h)
            exact ⟨[], .nil, rfl⟩
        | cons word rest =>
            unfold scan at h
            cases hrole : g.role word with
            | switch f =>
                rw [hrole] at h
                obtain ⟨directives, hspells, hperform⟩ := ih rest.length (Nat.lt_succ_self _) h rfl
                exact ⟨_, .flip hrole hspells, by rw [List.foldlM_cons]; exact hperform⟩
            | stop => rw [hrole] at h; cases h
            | unknown => rw [hrole] at h; cases h
            | setting p =>
                rw [hrole] at h
                cases rest with
                | nil => cases h
                | cons value rest =>
                    obtain ⟨middle, hset, h⟩ := bind_eq_ok.mp h
                    obtain ⟨directives, hspells, hperform⟩ :=
                      ih rest.length (Nat.lt_succ_of_lt (Nat.lt_succ_self _)) h rfl
                    refine ⟨_, .set hrole hspells, ?_⟩
                    rw [List.foldlM_cons, show perform g s (.set p value) = .ok middle from hset]
                    exact hperform
  · rintro ⟨directives, hspells, hperform⟩
    rw [scan_spells hspells, hperform]
    rfl

/-- The value of a setting is one of the words. -/
theorem Spells.mem (h : Spells g directives words) {p : σ} {value : α}
    (hmem : .set p value ∈ directives) : value ∈ words := by
  induction h with
  | nil => cases hmem
  | flip hrole later ih =>
      rcases List.mem_cons.mp hmem with heq | hmem
      · cases heq
      · exact List.mem_cons_of_mem _ (ih hmem)
  | set hrole later ih =>
      rcases List.mem_cons.mp hmem with heq | hmem
      · obtain ⟨rfl, rfl⟩ := Directive.set.inj heq
        exact List.mem_cons_of_mem _ List.mem_cons_self
      · exact List.mem_cons_of_mem _ (List.mem_cons_of_mem _ (ih hmem))

theorem Spells.append {directives' : List (Directive α φ σ)} {words' : List α}
    (h : Spells g directives words) (h' : Spells g directives' words') :
    Spells g (directives ++ directives') (words ++ words') := by
  induction h with
  | nil => exact h'
  | flip hrole later ih => exact .flip hrole ih
  | set hrole later ih => exact .set hrole ih

theorem Spells.set_front {word value : α} {p : σ} (hrole : g.role word = .setting p)
    (h : Spells g directives (word :: value :: words)) :
    ∃ later, directives = .set p value :: later ∧ Spells g later words := by
  cases h with
  | flip hflip => rw [hrole] at hflip; cases hflip
  | set hset later =>
      obtain rfl := Role.setting.inj (hrole.symm.trans hset)
      exact ⟨_, rfl, later⟩

theorem Spells.flip_front {word : α} {f : φ} (hrole : g.role word = .switch f)
    (h : Spells g directives (word :: words)) :
    ∃ later, directives = .flip f :: later ∧ Spells g later words := by
  cases h with
  | flip hflip later =>
      obtain rfl := Role.switch.inj (hrole.symm.trans hflip)
      exact ⟨_, rfl, later⟩
  | set hset => rw [hrole] at hset; cases hset

/-- A word that means nothing by itself can only be the value of the word before
it. So that word is a setting and nobody else's value, and what stands before
and behind the two is read by itself. -/
theorem Spells.sync {word value : α} {rest : List α}
    (h : Spells g directives (words ++ word :: value :: rest)) (hvalue : g.role value = .unknown) :
    ∃ earlier p later, directives = earlier ++ .set p value :: later ∧
      g.role word = .setting p ∧ Spells g earlier words ∧ Spells g later rest := by
  induction hlength : words.length using Nat.strongRecOn generalizing words directives with
  | _ n ih =>
      subst hlength
      have hflip {f : φ} (hrole : g.role value = .switch f) : False := by
        rw [hvalue] at hrole
        cases hrole
      have hset {p : σ} (hrole : g.role value = .setting p) : False := by
        rw [hvalue] at hrole
        cases hrole
      cases words with
      | nil =>
          cases h with
          | flip hrole later =>
              cases later with
              | flip hrole => exact (hflip hrole).elim
              | set hrole => exact (hset hrole).elim
          | set hrole later => exact ⟨[], _, _, rfl, hrole, .nil, later⟩
      | cons first words =>
          cases words with
          | nil =>
              cases h with
              | flip hrole later =>
                  obtain ⟨earlier, p, after, rfl, hword, hspells, hafter⟩ :=
                    ih 0 (Nat.succ_pos 0)
                      (show Spells g _ ([] ++ word :: value :: rest) from later) rfl
                  exact ⟨_ :: earlier, p, after, rfl, hword, .flip hrole hspells, hafter⟩
              | set hrole later =>
                  cases later with
                  | flip hrole => exact (hflip hrole).elim
                  | set hrole => exact (hset hrole).elim
          | cons second words =>
              cases h with
              | flip hrole later =>
                  obtain ⟨earlier, p, after, rfl, hword, hspells, hafter⟩ :=
                    ih (words.length + 1) (Nat.lt_succ_self _)
                      (show Spells g _ (second :: words ++ word :: value :: rest) from later) rfl
                  exact ⟨_ :: earlier, p, after, rfl, hword, .flip hrole hspells, hafter⟩
              | set hrole later =>
                  obtain ⟨earlier, p, after, rfl, hword, hspells, hafter⟩ :=
                    ih words.length (Nat.lt_succ_of_lt (Nat.lt_succ_self _)) later rfl
                  exact ⟨_ :: earlier, p, after, rfl, hword, .set hrole hspells, hafter⟩

end Supryolo.Directives
