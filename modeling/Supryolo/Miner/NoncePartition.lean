import Supryolo.Lib.Tiling
import Supryolo.Miner.Workers

namespace Supryolo.Miner

open Tiling

variable {cfg : Config} {κ : Type} {env : Env κ} {m m' : Machine cfg κ} {start : View cfg.rows}

/-- The nonces of a slot are a block of their own. -/
theorem toNat_slot_or {index : Nat} {cursor : UInt64} (hindex : index < 256)
    (hcursor : cursor.toNat < 2 ^ 56) :
    ((index.toUInt64 <<< 56) ||| cursor).toNat = index * 2 ^ 56 + cursor.toNat := by
  have hnat : index.toUInt64.toNat = index := by
    rw [Nat.toUInt64, UInt64.toNat_ofNat']
    exact Nat.mod_eq_of_lt (by omega)
  have hshift : (index.toUInt64 <<< 56).toNat = 2 ^ 56 * index := by
    rw [UInt64.toNat_shiftLeft, hnat]
    simp [Nat.shiftLeft_eq]
    omega
  rw [UInt64.toNat_or, hshift, ← Nat.two_pow_add_eq_or_of_lt hcursor, Nat.mul_comm]

/-- Eight bytes tell the first `2^64` generations apart. -/
theorem extraNonce_injective {g g' : Nat} (hpositive : 0 < g) (hpositive' : 0 < g')
    (hg : g ≤ 2 ^ 64) (hg' : g' ≤ 2 ^ 64)
    (h : StratumState.extraNonce g = StratumState.extraNonce g') : g = g' := by
  have hbytes : Words.leBytes 8 g.toUInt64 = Words.leBytes 8 g'.toUInt64 := by
    have hhex := congrArg unhex h
    rw [StratumState.extraNonce, StratumState.extraNonce, unhex_hex, unhex_hex] at hhex
    exact Except.ok.inj hhex
  have hword : g.toUInt64 = g'.toUInt64 := by
    rw [← Words.leWord_leBytes g.toUInt64, hbytes, Words.leWord_leBytes]
  have hnat := congrArg UInt64.toNat hword
  simp only [Nat.toUInt64_eq, UInt64.toNat_ofNat'] at hnat
  omega

/-- Where a scan starts within the block of its worker, and how far it goes. -/
def ScanCall.tile {slots : Nat} (s : ScanCall slots) : Nat × Nat :=
  (s.start.toNat - s.worker.val * 2 ^ 56, s.count.toNat)

def Machine.scansOf (m : Machine cfg κ) (i : Fin cfg.slots) (g : Nat) :
    List (ScanCall cfg.slots) :=
  m.scans.filter fun s => s.worker = i ∧ s.job.generation = g

/-- The scans of a worker tile its block for every generation, and its cursor
stands at the end of the present one while it runs. Before its first job it
stands at zero. -/
structure Machine.Blocks (m : Machine cfg κ) : Prop where
  fresh : ∀ i, (m.workers i).generation = 0 → (m.workers i).cursor = 0
  past : ∀ s ∈ m.scans, s.job.generation ≤ (m.workers s.worker).generation
  named : ∀ s ∈ m.scans,
    0 < s.job.generation ∧ s.job.en2 = StratumState.extraNonce s.job.generation
  known : ∀ s ∈ m.scans, s.job.generation ≤ m.link.generation
  inside : ∀ s ∈ m.scans, s.worker.val * 2 ^ 56 ≤ s.start.toNat ∧
    s.start.toNat + s.count.toNat ≤ (s.worker.val + 1) * 2 ^ 56
  tiles : ∀ i g, ∃ limit, limit ≤ 2 ^ 56 ∧ Tiles ((m.scansOf i g).map ScanCall.tile) limit ∧
    (g = (m.workers i).generation → (m.workers i).phase.halted = false →
      limit = (m.workers i).cursor.toNat)

theorem Machine.Blocks.kept (h : m.Blocks)
    (hfresh : ∀ i, (m'.workers i).generation = 0 → (m'.workers i).cursor = 0)
    (hscans : m'.scans = m.scans)
    (hlink : m.link.generation ≤ m'.link.generation)
    (hworkers : ∀ i, (m.workers i).generation ≤ (m'.workers i).generation)
    (htiles : ∀ i g, ∃ limit, limit ≤ 2 ^ 56 ∧
      Tiles ((m.scansOf i g).map ScanCall.tile) limit ∧
      (g = (m'.workers i).generation → (m'.workers i).phase.halted = false →
        limit = (m'.workers i).cursor.toNat)) : m'.Blocks := by
  refine ⟨hfresh, ?_, ?_, ?_, ?_, ?_⟩
  · rw [hscans]
    exact fun s hs => (h.past s hs).trans (hworkers s.worker)
  · rw [hscans]
    exact h.named
  · rw [hscans]
    exact fun s hs => (h.known s hs).trans hlink
  · rw [hscans]
    exact h.inside
  · intro i g
    simp only [Machine.scansOf, hscans]
    exact htiles i g

/-- When a worker takes up a job, its cursor stands at the end of what it has
scanned of that generation: it goes on only where the generation is the same, as
long as the 64 bits have not come round. -/
private theorem Machine.Blocks.adopt (h : m.Blocks) {i : Fin cfg.slots} {j : Job}
    (hle : (m.workers i).generation ≤ j.generation) (hpositive : 0 < j.generation)
    (hfew : j.generation ≤ 2 ^ 64) (hrunning : (m.workers i).phase.halted = false) :
    ∃ limit, limit ≤ 2 ^ 56 ∧ Tiles ((m.scansOf i j.generation).map ScanCall.tile) limit ∧
      limit = ((m.workers i).adopt j).cursor.toNat := by
  have hnone (hnew : j.generation ≠ (m.workers i).generation) : m.scansOf i j.generation = [] := by
    refine List.filter_eq_nil_iff.mpr ?_
    intro s hs
    have hpast := h.past s hs
    simp only [decide_eq_true_eq, not_and]
    rintro rfl
    omega
  unfold Worker.adopt
  by_cases hequal : sameCount j.generation (m.workers i).generation = true
  · rw [if_pos hequal]
    by_cases hsame : j.generation = (m.workers i).generation
    · obtain ⟨limit, hlimit, htiles, hend⟩ := h.tiles i j.generation
      exact ⟨limit, hlimit, htiles, hend hsame hrunning⟩
    · -- Only the worker's first job can be taken for the zero it starts with.
      have hzero : (m.workers i).generation = 0 := by
        have hmod := sameCount_iff.mp hequal
        omega
      rw [hnone hsame]
      refine ⟨0, Nat.zero_le _, .nil, ?_⟩
      rw [h.fresh i hzero]
      rfl
  · rw [if_neg hequal, hnone]
    · exact ⟨0, Nat.zero_le _, .nil, rfl⟩
    · intro hsame
      rw [hsame, sameCount_self] at hequal
      exact hequal rfl

/-- The numbers of an SV1 range. -/
private theorem range_numbers {w : Worker} {index : Nat} {batch : UInt32} {start : UInt64}
    (hindex : index < 256) (hbatch : 0 < batch)
    (hroom : w.cursor ≤ 0x100000000000000 - batch.toUInt64)
    (hstart : start = (index.toUInt64 <<< 56) ||| w.cursor) :
    0 < batch.toNat ∧ w.cursor.toNat + batch.toNat ≤ 2 ^ 56 ∧
      start.toNat = index * 2 ^ 56 + w.cursor.toNat := by
  have hpositive : 0 < batch.toNat := UInt32.lt_iff_toNat_lt.mp hbatch
  have hlt := batch.toNat_lt
  have hlimit : ((0x100000000000000 : UInt64) - batch.toUInt64).toNat = 2 ^ 56 - batch.toNat := by
    rw [UInt64.toNat_sub_of_le, UInt32.toNat_toUInt64]
    · rfl
    · rw [UInt64.le_iff_toNat_le, UInt32.toNat_toUInt64]
      change _ ≤ 2 ^ 56
      omega
  rw [UInt64.le_iff_toNat_le, hlimit] at hroom
  refine ⟨hpositive, by omega, ?_⟩
  rw [hstart, toNat_slot_or hindex (by omega)]

/-- A call of `scan` continues the tiling of its worker. -/
private theorem Machine.Blocks.scan (h : m.Blocks) (hslots : cfg.slots ≤ 256)
    (hfew : m.link.generation ≤ 2 ^ 64) (hlink : m.link.generation ≤ m'.link.generation)
    {i : Fin cfg.slots} {j j' : Job}
    {reserved start : UInt64} {count : UInt32}
    (hphase : (m.workers i).phase = .holding j reserved)
    (hle : (m.workers i).generation ≤ j.generation) (hknown : j.generation ≤ m.link.generation)
    (hsv1 : j.sv2 = false)
    (hnamed : 0 < j.generation ∧ j.en2 = StratumState.extraNonce j.generation)
    (hrange : ((m.workers i).adopt j).range i (cfg.batch i) j reserved = .ok (j', start, count))
    (hscans : m'.scans = m.scans ++ [⟨i, j', start, count⟩])
    (hothers : ∀ k, k ≠ i → m'.workers k = m.workers k)
    (hgeneration : (m'.workers i).generation = j.generation)
    (hcursor : (m'.workers i).phase.halted = false →
      (m'.workers i).cursor = ((m.workers i).adopt j).cursor + count.toUInt64) : m'.Blocks := by
  obtain ⟨limit, hlimit, htiles, hend⟩ := h.adopt hle hnamed.1 (hknown.trans hfew)
    (by rw [hphase]; rfl)
  obtain ⟨rfl, hroom, hstart, rfl⟩ : j' = j ∧
      ((m.workers i).adopt j).cursor ≤ 0x100000000000000 - (cfg.batch i).toUInt64 ∧
      start = (i.val.toUInt64 <<< 56) ||| ((m.workers i).adopt j).cursor ∧
      count = cfg.batch i := by
    rcases range_ok hrange with ⟨hsv2, -⟩ | ⟨-, hrest⟩
    · rw [hsv1] at hsv2
      cases hsv2
    · exact hrest
  have hindex : i.val < 256 := lt_of_lt_of_le i.isLt hslots
  obtain ⟨hpositive, hfits, hnumber⟩ :=
    range_numbers hindex (cfg.batch_positive i) hroom hstart
  have hmem {s : ScanCall cfg.slots} : s ∈ m'.scans ↔
      s ∈ m.scans ∨ s = ⟨i, j', start, cfg.batch i⟩ := by
    rw [hscans, List.mem_append, List.mem_singleton]
  have hworkers (k : Fin cfg.slots) : (m.workers k).generation ≤ (m'.workers k).generation := by
    by_cases hk : k = i
    · rw [hk, hgeneration]
      exact hle
    · rw [hothers k hk]
  refine ⟨?_, ?_, ?_, ?_, ?_, ?_⟩
  · intro k hzero
    by_cases hk : k = i
    · rw [hk, hgeneration] at hzero
      omega
    · rw [hothers k hk] at hzero ⊢
      exact h.fresh k hzero
  · intro s hs
    rcases hmem.mp hs with hs | rfl
    · exact (h.past s hs).trans (hworkers s.worker)
    · exact hgeneration.ge
  · intro s hs
    rcases hmem.mp hs with hs | rfl
    · exact h.named s hs
    · exact hnamed
  · intro s hs
    rcases hmem.mp hs with hs | rfl
    · exact (h.known s hs).trans hlink
    · exact hknown.trans hlink
  · intro s hs
    rcases hmem.mp hs with hs | rfl
    · exact h.inside s hs
    · dsimp only
      omega
  · intro k g
    by_cases hhere : k = i ∧ g = j'.generation
    · obtain ⟨rfl, rfl⟩ := hhere
      have hof : (m'.scansOf k j'.generation).map ScanCall.tile =
          (m.scansOf k j'.generation).map ScanCall.tile ++ [(limit, (cfg.batch k).toNat)] := by
        have htile : ScanCall.tile (ScanCall.mk k j' start (cfg.batch k)) =
            (limit, (cfg.batch k).toNat) := by
          refine Prod.ext ?_ rfl
          change start.toNat - k.val * 2 ^ 56 = limit
          omega
        simp [Machine.scansOf, hscans, htile]
      refine ⟨limit + (cfg.batch k).toNat, by omega, ?_, ?_⟩
      · rw [hof]
        exact htiles.snoc hpositive
      · intro _ hrunning
        rw [hcursor hrunning, UInt64.toNat_add, UInt32.toNat_toUInt64, hend]
        omega
    · obtain ⟨limit', hlimit', htiles', hend'⟩ := h.tiles k g
      have hof : m'.scansOf k g = m.scansOf k g := by
        have hnot : ¬ (i = k ∧ j'.generation = g) := fun hboth =>
          hhere ⟨hboth.1.symm, hboth.2.symm⟩
        simp [Machine.scansOf, hscans, hnot]
      rw [hof]
      refine ⟨limit', hlimit', htiles', ?_⟩
      intro hg hrunning
      by_cases hk : k = i
      · rw [hk, hgeneration] at hg
        exact absurd ⟨hk, hg⟩ hhere
      · rw [hothers k hk] at hg hrunning ⊢
        exact hend' hg hrunning

/-- A connection keeps its protocol. -/
theorem sv1_of_run {buffer : Text} {state : StratumState}
    (hrun : Run env (.sv1 buffer state) start m) : ∃ buffer state, m.link = .sv1 buffer state := by
  induction hrun with
  | refl => exact ⟨buffer, state, rfl⟩
  | @tail before next _ hstep ih =>
      obtain ⟨buffer', state', hlink⟩ := ih
      cases hstep.effect with
      | idle n hsame => exact ⟨buffer', state', hsame.trans hlink⟩
      | received chunks ending messages hread =>
          cases hnext : next.link with
          | sv1 rest kept => exact ⟨rest, kept, rfl⟩
          | sv2 session =>
              rw [hnext] at hread
              obtain ⟨session', bytes, hbefore, -⟩ := read_sv2 hread
              rw [hlink] at hbefore
              cases hbefore
      | handledSv1 message buffer state state' job hbefore hafter => exact ⟨_, _, hafter⟩
      | handledSv2 message session hbefore =>
          rw [hlink] at hbefore
          cases hbefore
      | sentSv1 f n buffer state hcheck hbefore hafter => exact ⟨_, _, hafter⟩
      | sentSv2 f n session session' hcheck hbefore =>
          rw [hlink] at hbefore
          cases hbefore

theorem Machine.Blocks.step (h : m.Blocks) (hslots : cfg.slots ≤ 256)
    (hfew : m.link.generation ≤ 2 ^ 64)
    (hsv1 : ∃ buffer state, m.link = .sv1 buffer state) (hcarries : m.Carries)
    (hsound : m.link.Sound m.poolView) (hstep : Step env m m') : m'.Blocks := by
  have hlink := (hstep.moves hsound).generation
  obtain ⟨buffer, state, hsv1⟩ := hsv1
  cases hstep with
  | main hmain =>
      have hsame := hmain.sameWorkers
      refine h.kept ?_ hmain.scans hlink (fun k => by rw [hsame.workers]) ?_
      · rw [hsame.workers]
        exact h.fresh
      · rw [hsame.workers]
        exact h.tiles
  | worker i hworker =>
      have hothers {k : Fin cfg.slots} (hk : k ≠ i) := hworker.others hk
      have hspeaks {j : Job} {reserved : UInt64} (hphase : (m.workers i).phase = .holding j reserved) :
          j.sv2 = false ∧ 0 < j.generation ∧
            j.en2 = StratumState.extraNonce j.generation := by
        have hj := hcarries.speaks i j (by rw [hphase]; rfl)
        rw [hsv1] at hj
        exact hj
      -- A worker that only changes its phase keeps its cursor.
      have hmoved {phase : Phase} (hworker : m'.workers i = { m.workers i with phase := phase })
          (halted : (m.workers i).phase.halted = true → phase.halted = true)
          (hscans : m'.scans = m.scans) : m'.Blocks := by
        refine h.kept (fun k => ?_) hscans hlink (fun k => ?_) (fun k g => ?_)
        · by_cases hk : k = i
          · rw [hk, hworker]
            exact h.fresh i
          · rw [hothers hk]
            exact h.fresh k
        · by_cases hk : k = i
          · rw [hk, hworker]
          · rw [hothers hk]
        · obtain ⟨limit, hlimit, htiles, hend⟩ := h.tiles k g
          refine ⟨limit, hlimit, htiles, ?_⟩
          by_cases hk : k = i
          · subst hk
            rw [hworker]
            intro hg hrunning
            refine hend hg ?_
            cases hbefore : (m.workers k).phase.halted with
            | false => rfl
            | true => rw [halted hbefore] at hrunning; cases hrunning
          · rw [hothers hk]
            exact hend
      cases hworker.effect with
      | moved phase hworker hphase halted hfound hscans => exact hmoved hworker halted hscans
      | took j reserved hwork hworker halted hfound hscans =>
          refine hmoved hworker ?_ hscans
          intro hbefore
          rw [halted] at hbefore
          cases hbefore
      | pushed j r hphase hworker hfound hscans =>
          refine hmoved hworker ?_ hscans
          intro hbefore
          rw [hphase] at hbefore
          cases hbefore
      | refused j reserved e hphase hworker hfound hscans =>
          obtain ⟨-, hle⟩ := hcarries.holds i j reserved hphase
          refine h.kept (fun k => ?_) hscans hlink (fun k => ?_) (fun k g => ?_)
          · by_cases hk : k = i
            · rw [hk, hworker, adopt_generation]
              intro hzero
              have hpositive := (hspeaks hphase).2.1
              omega
            · rw [hothers hk]
              exact h.fresh k
          · by_cases hk : k = i
            · rw [hk, hworker, adopt_generation]
              exact hle
            · rw [hothers hk]
          · obtain ⟨limit, hlimit, htiles, hend⟩ := h.tiles k g
            refine ⟨limit, hlimit, htiles, ?_⟩
            by_cases hk : k = i
            · rw [hk, hworker]
              intro _ hrunning
              cases hrunning
            · rw [hothers hk]
              exact hend
      | scanned j j' reserved start count r hphase hrange hscan hworker hfound hscans =>
          obtain ⟨hahead, hle⟩ := hcarries.holds i j reserved hphase
          refine h.scan hslots hfew hlink hphase hle hahead.link (hspeaks hphase).1 (hspeaks hphase).2
            hrange hscans (fun k hk => hothers hk) ?_ ?_
          · rw [hworker, adopt_generation]
          · intro _
            rw [hworker, hscan.mem_of_ok.1]
      | failed j j' reserved start count e hphase hrange hworker hfound hscans =>
          obtain ⟨hahead, hle⟩ := hcarries.holds i j reserved hphase
          refine h.scan hslots hfew hlink hphase hle hahead.link (hspeaks hphase).1 (hspeaks hphase).2
            hrange hscans (fun k hk => hothers hk) ?_ ?_
          · rw [hworker, adopt_generation]
          · intro hrunning
            rw [hworker] at hrunning
            cases hrunning

theorem blocks_of_run (hslots : cfg.slots ≤ 256) (hrun : Run env (.sv1 [] {}) start m)
    (hfew : m.link.generation ≤ 2 ^ 64) : m.Blocks := by
  induction hrun with
  | refl =>
      have hnone {s : ScanCall cfg.slots} :
          s ∉ (Machine.initial cfg (.sv1 [] {} : Link κ) start).scans := List.not_mem_nil
      refine ⟨fun _ _ => rfl, fun s hs => absurd hs hnone, fun s hs => absurd hs hnone,
        fun s hs => absurd hs hnone, fun s hs => absurd hs hnone, ?_⟩
      intro i g
      exact ⟨0, Nat.zero_le _, .nil, fun _ _ => rfl⟩
  | tail hbefore hstep ih =>
      have hsound := sound_of_run .sv1 hbefore
      have hbound := (hstep.moves hsound).generation.trans hfew
      exact (ih hbound).step hslots hbound (sv1_of_run hbefore) (carries_of_run .sv1 hbefore) hsound
        hstep

/-- No pair of extranonce and nonce is scanned twice; the scans of a worker for
one job lie side by side from the start of its block, and none of them is
refused by the backend for its range. -/
structure Machine.NeverRepeats (m : Machine cfg κ) : Prop where
  distinct : m.scans.Pairwise fun a b => ∀ nonce, nonce ∈ nonceRange a.start a.count.toNat →
    nonce ∈ nonceRange b.start b.count.toNat → a.job.en2 ≠ b.job.en2
  contiguous : ∀ i g, ∃ limit, limit ≤ 2 ^ 56 ∧ Tiles ((m.scansOf i g).map ScanCall.tile) limit
  inside : ∀ s ∈ m.scans, s.worker.val * 2 ^ 56 ≤ s.start.toNat ∧
    s.start.toNat + s.count.toNat ≤ (s.worker.val + 1) * 2 ^ 56
  accepted : ∀ s ∈ m.scans, rangeOverflows s.start s.count = false

theorem slots_le_of_slotsOf {options : Options} (hcfg : slotsOf options = .ok cfg) :
    cfg.slots ≤ 192 := by
  unfold slotsOf at hcfg
  obtain ⟨hgpus, hcfg⟩ := Loops.guard_eq_ok.mp hcfg
  obtain ⟨-, hcfg⟩ := Loops.guard_eq_ok.mp hcfg
  obtain ⟨hthreads, hcfg⟩ := Loops.guard_eq_ok.mp hcfg
  rw [← Loops.pure_eq_ok.mp hcfg]
  dsimp only
  omega

/-- Within one worker and one generation a later scan starts where the earlier
ones have ended. -/
theorem Machine.Blocks.ordered (h : m.Blocks) {a b : ScanCall cfg.slots}
    (hsub : List.Sublist [a, b] m.scans) (hworker : b.worker = a.worker)
    (hgeneration : b.job.generation = a.job.generation) :
    a.start.toNat + a.count.toNat ≤ b.start.toNat := by
  obtain ⟨limit, -, htiles, -⟩ := h.tiles a.worker a.job.generation
  have hof : List.Sublist [a, b] (m.scansOf a.worker a.job.generation) := by
    have hfilter := hsub.filter fun s =>
      decide (s.worker = a.worker ∧ s.job.generation = a.job.generation)
    simpa [Machine.scansOf, hworker, hgeneration] using hfilter
  have hpairs := htiles.pairwise.sublist (hof.map ScanCall.tile)
  have hbefore : a.tile.1 + a.tile.2 ≤ b.tile.1 := by simpa using hpairs
  obtain ⟨hlow, -⟩ := h.inside a (hsub.subset List.mem_cons_self)
  obtain ⟨hlow', -⟩ := h.inside b (hsub.subset (by simp))
  simp only [ScanCall.tile, hworker] at hbefore hlow'
  omega

private theorem Machine.Blocks.count_pos (h : m.Blocks) {s : ScanCall cfg.slots}
    (hs : s ∈ m.scans) : 0 < s.count.toNat := by
  obtain ⟨limit, -, htiles, -⟩ := h.tiles s.worker s.job.generation
  have hof : s ∈ m.scansOf s.worker s.job.generation := List.mem_filter.mpr ⟨hs, by simp⟩
  exact (htiles.mem (List.mem_map_of_mem hof)).1

private theorem Machine.Blocks.neverRepeats (h : m.Blocks) (hslots : cfg.slots ≤ 256)
    (hfew : m.link.generation ≤ 2 ^ 64) : m.NeverRepeats := by
  have hfits {s : ScanCall cfg.slots} (hs : s ∈ m.scans) :
      s.start.toNat + s.count.toNat ≤ 2 ^ 64 := by
    obtain ⟨-, hhigh⟩ := h.inside s hs
    have hworker := s.worker.isLt
    omega
  refine ⟨?_, ?_, h.inside, ?_⟩
  · refine List.pairwise_iff_forall_sublist.mpr ?_
    intro a b hsub nonce hnonce hnonce' hen2
    have ha : a ∈ m.scans := hsub.subset List.mem_cons_self
    have hb : b ∈ m.scans := hsub.subset (by simp)
    obtain ⟨hpositive, hname⟩ := h.named a ha
    obtain ⟨hpositive', hname'⟩ := h.named b hb
    have hgeneration : b.job.generation = a.job.generation := by
      refine extraNonce_injective hpositive' hpositive ((h.known b hb).trans hfew)
        ((h.known a ha).trans hfew) ?_
      rw [← hname, ← hname', hen2]
    rw [mem_nonceRange (hfits ha), UInt64.le_iff_toNat_le] at hnonce
    rw [mem_nonceRange (hfits hb), UInt64.le_iff_toNat_le] at hnonce'
    obtain ⟨hlow, hhigh⟩ := h.inside a ha
    obtain ⟨hlow', hhigh'⟩ := h.inside b hb
    have hworker : b.worker = a.worker := Fin.ext (by omega)
    have hafter := h.ordered hsub hworker hgeneration
    omega
  · intro i g
    obtain ⟨limit, hlimit, htiles, -⟩ := h.tiles i g
    exact ⟨limit, hlimit, htiles⟩
  · intro s hs
    rw [rangeOverflows_eq_false_iff]
    exact ⟨h.count_pos hs, hfits hs⟩

/-- Over every run of an SV1 connection that has accepted at most `2^64`
notifications, whatever slots `mine` admits and however they interleave, no two
scans cover the same extranonce and nonce. The scans of a worker for one
generation are contiguous from the start of its own block of `2^56` nonces and
stay inside it, so the backend refuses none of them for its range. -/
theorem sv1_never_repeats {options : Options} (hcfg : slotsOf options = .ok cfg)
    (hrun : Run env (.sv1 [] {}) start m) (hfew : m.link.generation ≤ 2 ^ 64) :
    m.NeverRepeats := by
  have hslots : cfg.slots ≤ 256 := (slots_le_of_slotsOf hcfg).trans (by decide)
  exact (blocks_of_run hslots hrun hfew).neverRepeats hslots hfew

/-- The worker of the sample connection is about to look for work. -/
structure Idles (m : Machine sampleConfig Unit) (state : StratumState) (job : Job) : Prop
    extends Mines m state job where
  phase : (m.workers theSlot).phase = .checking
  past : ∀ f ∈ m.found, f.job.epoch = state.epoch

/-- The first nonce of a new job is scanned. -/
private theorem Idles.scan {m : Machine sampleConfig Unit} {state : StratumState} {job : Job}
    (h : Idles m state job) (hroom : m.found.length < 8192)
    (hnew : sameCount state.generation (m.workers theSlot).generation = false) :
    ∃ m' : Machine sampleConfig Unit, Relation.ReflTransGen (Step (sampleEnv [])) m m' ∧
      Idles m' state job ∧ m'.scans = m.scans ++ [⟨theSlot, job, 0, 1⟩] ∧
      (m'.workers theSlot).generation = state.generation ∧
      m'.found.length = m.found.length + 1 := by
  obtain ⟨m', hsteps, hmines, hfound, htrace, -, -, hphase, hgeneration⟩ :=
    h.toMines.round [] h.phase (by rw [h.generation]; exact hnew) hroom
  refine ⟨m', hsteps, ⟨hmines, hphase, ?_⟩, ?_, ?_, ?_⟩
  · intro f hf
    rw [hfound] at hf
    rcases List.mem_append.mp hf with hf | hf
    · exact h.past f hf
    · rw [List.mem_singleton.mp hf]
      exact h.epoch
  · simp [Machine.scans, htrace]
  · rw [hgeneration, h.generation]
  · rw [hfound, List.length_append, List.length_singleton]

/-- Any number of notifications may pass before the worker looks again. -/
private theorem Idles.notify_many {m : Machine sampleConfig Unit} {state : StratumState}
    {job : Job} (h : Idles m state job) (n : Nat) :
    ∃ (m' : Machine sampleConfig Unit) (state' : StratumState) (job' : Job),
      Relation.ReflTransGen (Step (sampleEnv [])) m m' ∧ Idles m' state' job' ∧
      state'.generation = state.generation + n ∧ m'.workers = m.workers ∧ m'.scans = m.scans ∧
      m'.found.length ≤ m.found.length := by
  obtain ⟨m', state', job', hsteps, hmines, hgeneration, -, hpast, hlength, hworkers, htrace, -⟩ :=
    h.toMines.notify_many [] h.past n
  refine ⟨m', state', job', hsteps, ⟨hmines, ?_, hpast⟩, hgeneration, hworkers, ?_, hlength⟩
  · rw [hworkers]
    exact h.phase
  · simp [Machine.scans, htrace]

/-- The first job has been scanned. -/
private theorem sample_scanned : ∃ (m : Machine sampleConfig Unit) (state : StratumState) (job : Job),
    Run (sampleEnv []) (.sv1 [] {}) {} m ∧ Idles m state job ∧ state.generation = 1 ∧
      m.scans = [⟨theSlot, job, 0, 1⟩] ∧ (m.workers theSlot).generation = 1 ∧
      m.found.length = 1 := by
  obtain ⟨m₁, state, job, hrun, hmines, hgeneration, hfound, -, -, hworker, htrace⟩ :=
    sample_mines []
  have hidles : Idles m₁ state job :=
    ⟨hmines, by rw [hworker], by rw [hfound]; simp⟩
  have hnone : m₁.scans = [] := by
    rw [Machine.scans, htrace]
    rfl
  obtain ⟨m₂, hsteps, hidles₂, hscans, hworker₂, hlength⟩ := hidles.scan (by rw [hfound]; decide)
    (by rw [hgeneration, hworker]; decide)
  refine ⟨m₂, state, job, hrun.trans hsteps, hidles₂, hgeneration, ?_, hworker₂.trans hgeneration, ?_⟩
  · rw [hscans, hnone]
    rfl
  · rw [hlength, hfound]
    rfl

/-- A second job has been scanned from its first nonce on as well. -/
private theorem sample_scanned_twice :
    ∃ (m : Machine sampleConfig Unit) (state : StratumState) (job job' : Job),
      Run (sampleEnv []) (.sv1 [] {}) {} m ∧ Idles m state job' ∧ state.generation = 2 ∧
        m.scans = [⟨theSlot, job, 0, 1⟩, ⟨theSlot, job', 0, 1⟩] ∧
        job.generation = 1 ∧ job.en2 = StratumState.extraNonce 1 ∧
        (m.workers theSlot).generation = 2 ∧ m.found.length ≤ 2 := by
  obtain ⟨m₁, state₁, job₁, hrun, hidles₁, hgeneration₁, hscans₁, hworker₁, hlength₁⟩ :=
    sample_scanned
  obtain ⟨m₂, state₂, job₂, hnext, hidles₂, hgeneration₂, hworkers₂, hscans₂, hlength₂⟩ :=
    hidles₁.notify_many 1
  rw [hgeneration₁] at hgeneration₂
  obtain ⟨m₃, hscan, hidles₃, hscans₃, hworker₃, hlength₃⟩ :=
    hidles₂.scan (by omega) (by rw [hworkers₂, hworker₁, hgeneration₂]; decide)
  refine ⟨m₃, state₂, job₁, job₂, (hrun.trans hnext).trans hscan, hidles₃, hgeneration₂, ?_,
    hidles₁.generation.trans hgeneration₁, ?_, hworker₃.trans hgeneration₂, by omega⟩
  · rw [hscans₃, hscans₂, hscans₁]
    rfl
  · rw [hidles₁.en2, hgeneration₁]

theorem sv1_never_repeats_sample :
    ∃ m : Machine sampleConfig Unit, Run (sampleEnv []) (.sv1 [] {}) {} m ∧
      m.scans.map (fun s => (s.start, s.count, s.job.generation)) = [(0, 1, 1), (0, 1, 2)] ∧
      m.NeverRepeats := by
  obtain ⟨m, state, job, job', hrun, hidles, hgeneration, hscans, hfirst, -⟩ := sample_scanned_twice
  refine ⟨m, hrun, ?_, sv1_never_repeats slotsOf_sample hrun ?_⟩
  · rw [hscans]
    simp only [List.map_cons, List.map_nil, hfirst, hidles.generation, hgeneration]
  · rw [hidles.link]
    change state.generation ≤ 2 ^ 64
    rw [hgeneration]
    decide

/-- The counter of notifications wraps: after `2^64` more of them the first nonce
is scanned again under the extranonce of the first job. -/
theorem sv1_repeats_after_wrap :
    slotsOf sampleOptions = .ok sampleConfig ∧
      ∃ m : Machine sampleConfig Unit, Run (sampleEnv []) (.sv1 [] {}) {} m ∧
        m.link.generation = 2 ^ 64 + 1 ∧ ¬ m.NeverRepeats := by
  refine ⟨slotsOf_sample, ?_⟩
  -- The second job is scanned too, so that the worker does not take the last for its first.
  obtain ⟨m₃, state₃, job₁, job₂, hrun, hidles₃, hgeneration₃, hscans₃, -, hname, hworker₃, hlength₃⟩ :=
    sample_scanned_twice
  obtain ⟨m₄, state₄, job₄, hmany, hidles₄, hgeneration₄, hworkers₄, hscans₄, hlength₄⟩ :=
    hidles₃.notify_many (2 ^ 64 - 1)
  obtain ⟨m₅, hagain, hidles₅, hscans₅, -, -⟩ :=
    hidles₄.scan (by omega)
      (by rw [hworkers₄, hworker₃]; exact sameCount_eq_false (by omega))
  refine ⟨m₅, (hrun.trans hmany).trans hagain, ?_, ?_⟩
  · rw [hidles₅.link]
    change state₄.generation = _
    omega
  · intro hnever
    have hdistinct := hnever.distinct
    rw [hscans₅, hscans₄, hscans₃] at hdistinct
    have hends : List.Sublist [ScanCall.mk theSlot job₁ 0 1, ScanCall.mk theSlot job₄ 0 1]
        ([ScanCall.mk theSlot job₁ 0 1, ScanCall.mk theSlot job₂ 0 1] ++
          [ScanCall.mk theSlot job₄ 0 1]) := by
      simp
    have hfirst : (0 : UInt64) ∈ nonceRange 0 (1 : UInt32).toNat := by decide
    refine List.pairwise_iff_forall_sublist.mp hdistinct hends 0 hfirst hfirst ?_
    rw [hname, hidles₅.en2, show state₄.generation = 2 ^ 64 + 1 by omega]
    rfl

end Supryolo.Miner
