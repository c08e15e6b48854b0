import Supryolo.Lib.Tiling
import Supryolo.Miner.Channel
import Supryolo.Miner.Circulation

namespace Supryolo.Miner

open Tiling

variable {cfg : Config} {κ : Type} {env : Env κ} {m m' : Machine cfg κ} {start : View cfg.rows}

/-- The pairs of time and nonce of a partition. -/
def cells (p : Sv2.Partition) : Set (Nat × Nat) :=
  {x | ∃ k < p.count.toNat, x = (p.ntime.toNat, p.nonce.toNat + k)}

/-- The pair of time and nonce a cursor stands for. -/
def cell (base : UInt32) (c : Nat) : Nat × Nat :=
  ((base.toNat + c / 2 ^ 32) % 2 ^ 32, c % 2 ^ 32)

theorem cell_injOn (base : UInt32) : Set.InjOn (cell base) {c | c < 2 ^ 56} := by
  intro c hc c' hc' heq
  have hlt : c < 2 ^ 56 := hc
  have hlt' : c' < 2 ^ 56 := hc'
  obtain ⟨htime, hnonce⟩ := Prod.mk.inj heq
  omega

/-- A partition is the image of its stretch of the cursor. -/
theorem cells_eq {base batch : UInt32} {cursor : UInt64} {p : Sv2.Partition}
    (h : Sv2.partition base 0 cursor batch = .ok p) :
    cells p = cell base '' stretch (cursor.toNat, p.count.toNat) := by
  obtain ⟨-, -, hnonce, hntime, -, hroom⟩ := Sv2.partition_ok h
  have hzero : (0 : UInt32).toNat = 0 := rfl
  rw [hzero] at hntime
  have hcell (k : Nat) (hk : k < p.count.toNat) :
      cell base (cursor.toNat + k) = (p.ntime.toNat, p.nonce.toNat + k) := by
    refine Prod.ext ?_ ?_
    · change (base.toNat + (cursor.toNat + k) / 2 ^ 32) % 2 ^ 32 = p.ntime.toNat
      omega
    · change (cursor.toNat + k) % 2 ^ 32 = p.nonce.toNat + k
      omega
  ext x
  constructor
  · rintro ⟨k, hk, rfl⟩
    exact ⟨cursor.toNat + k, ⟨by dsimp only; omega, by dsimp only; omega⟩, hcell k hk⟩
  · rintro ⟨c, ⟨hlow, hhigh⟩, rfl⟩
    dsimp only at hlow hhigh
    refine ⟨c - cursor.toNat, by omega, ?_⟩
    rw [← hcell _ (by omega), Nat.add_sub_cancel' hlow]

structure Reservation where
  job : Job
  cursor : UInt64
  part : Sv2.Partition

def Machine.reservations (m : Machine cfg κ) : List Reservation :=
  m.trace.filterMap fun
    | .reserved job cursor part => some ⟨job, cursor, part⟩
    | _ => none

/-- What a step does to the reservations: nothing, or a worker reserves, after
the cursor has been reset for a generation that is new to it. -/
inductive Reserves (m m' : Machine cfg κ) : Prop
  | nothing (hreservations : m'.reservations = m.reservations)
      (hcursor : m'.sharedCursor = m.sharedCursor)
      (hgeneration : m'.sharedGeneration = m.sharedGeneration)
  | refused (j : Job) (hwork : m.work = some j)
      (hreservations : m'.reservations = m.reservations)
      (hcursor : m'.sharedCursor = (m.syncCursor j).sharedCursor)
      (hgeneration : m'.sharedGeneration = j.generation)
  | reserved (i : Fin cfg.slots) (j : Job) (p : Sv2.Partition) (hwork : m.work = some j)
      (hpartition : Sv2.partition j.time32 0 (m.syncCursor j).sharedCursor (cfg.batch i) = .ok p)
      (hreservations : m'.reservations =
        m.reservations ++ [⟨j, (m.syncCursor j).sharedCursor, p⟩])
      (hcursor : m'.sharedCursor = (m.syncCursor j).sharedCursor + p.count.toUInt64)
      (hgeneration : m'.sharedGeneration = j.generation)

theorem takeWork_reserves (m : Machine cfg κ) (i : Fin cfg.slots) : Reserves m (m.takeWork i) := by
  unfold Machine.takeWork
  cases hwork : m.work with
  | none => exact .nothing rfl rfl rfl
  | some j =>
      obtain ⟨htrace, hgeneration, -⟩ := syncCursor_fields m j
      cases hsv2 : j.sv2 with
      | false =>
          simp only [hsv2, Bool.false_eq_true, if_false]
          exact .nothing rfl rfl rfl
      | true =>
          simp only [hsv2, if_true]
          cases hpartition : Sv2.partition j.time32 0 (m.syncCursor j).sharedCursor (cfg.batch i) with
          | error e =>
              refine .refused j hwork ?_ rfl hgeneration
              simp [Machine.reservations, Machine.setPhase, Machine.setWorker, htrace]
          | ok p =>
              refine .reserved i j p hwork hpartition ?_ rfl hgeneration
              simp [Machine.reservations, Machine.setPhase, Machine.setWorker, htrace]

theorem WorkerStep.reserves {i : Fin cfg.slots} (h : WorkerStep i m m') : Reserves m m' := by
  cases h with
  | take => exact takeWork_reserves m i
  | scan j j' reserved start count outcome =>
      refine .nothing ?_ ?_ ?_ <;> cases outcome <;>
        simp [Machine.reservations, Machine.scanRange, Machine.setWorker]
  | push j r =>
      unfold Machine.pushFound
      split <;> exact .nothing rfl rfl rfl
  | _ => exact .nothing rfl rfl rfl

theorem Step.reserves (h : Step env m m') : Reserves m m' := by
  cases h with
  | worker i h => exact h.reserves
  | main h =>
      have hsame := h.sameWorkers
      refine .nothing ?_ hsame.sharedCursor hsame.sharedGeneration
      rcases hsame.trace with htrace | ⟨message, htrace⟩ | ⟨id, share, f, htrace⟩ <;>
        simp [Machine.reservations, htrace]

def Machine.reservedUnder (m : Machine cfg κ) (g : Nat) : List Reservation :=
  m.reservations.filter fun r => r.job.generation = g

def Reservation.tile (r : Reservation) : Nat × Nat := (r.cursor.toNat, r.part.count.toNat)

/-- Whatever the generations, every reservation is a partition at its cursor, and
the shared cursor stays within the space. -/
theorem partitioned_of_run {link : Link κ} (hrun : Run env link start m) :
    (∀ r ∈ m.reservations,
      ∃ i, Sv2.partition r.job.time32 0 r.cursor (cfg.batch i) = .ok r.part) ∧
      m.sharedCursor.toNat ≤ 2 ^ 56 := by
  induction hrun with
  | refl => exact ⟨fun r hr => absurd hr List.not_mem_nil, Nat.zero_le _⟩
  | @tail m m' hbefore hstep ih =>
      obtain ⟨hparts, hcursor⟩ := ih
      have hsync (j : Job) : (m.syncCursor j).sharedCursor.toNat ≤ 2 ^ 56 := by
        rw [(syncCursor_fields m j).2.2]
        split
        · exact hcursor
        · exact Nat.zero_le _
      cases hstep.reserves with
      | nothing hreservations hsame =>
          rw [hreservations, hsame]
          exact ⟨hparts, hcursor⟩
      | refused j hwork hreservations hsame =>
          rw [hreservations, hsame]
          exact ⟨hparts, hsync j⟩
      | reserved i j p hwork hpartition hreservations hnext =>
          rw [hreservations, hnext]
          refine ⟨?_, ?_⟩
          · intro r hr
            rcases List.mem_append.mp hr with hr | hr
            · exact hparts r hr
            · rw [List.mem_singleton.mp hr]
              exact ⟨i, hpartition⟩
          · obtain ⟨-, hbelow, hnonce, -, hcount, hroom⟩ := Sv2.partition_ok hpartition
            rw [UInt64.toNat_add, UInt32.toNat_toUInt64]
            omega

/-- The reservations of every generation tile a prefix of the cursor, and the
shared cursor stands at the end of the present one. Before the first job it
stands at zero. -/
structure Machine.Tiled (m : Machine cfg κ) : Prop where
  fresh : m.sharedGeneration = 0 → m.sharedCursor = 0
  ahead : m.Ahead m.sharedGeneration
  known : ∀ r ∈ m.reservations, 0 < r.job.generation ∧ r.job.generation ≤ m.sharedGeneration
  dated : ∀ r ∈ m.reservations, m.Dated r.job
  unique : ∀ r ∈ m.reservations, ∀ r' ∈ m.reservations,
    r.job.generation = r'.job.generation → r.job = r'.job
  tiles : ∀ g, ∃ limit, limit ≤ 2 ^ 56 ∧ Tiles ((m.reservedUnder g).map Reservation.tile) limit ∧
    (g = m.sharedGeneration → limit = m.sharedCursor.toNat)

/-- Before a worker reserves, the cursor stands at the end of the reservations
of its job's generation, as long as the 64 bits have not come round. -/
private theorem Machine.Tiled.sync (h : m.Tiled) {j : Job} (hwork : m.work = some j)
    (hpositive : 0 < j.generation) (hfew : j.generation ≤ 2 ^ 64) :
    ∃ limit, limit ≤ 2 ^ 56 ∧
      Tiles ((m.reservedUnder j.generation).map Reservation.tile) limit ∧
      limit = (m.syncCursor j).sharedCursor.toNat := by
  obtain ⟨-, -, hcursor⟩ := syncCursor_fields m j
  have hle := h.ahead.work j hwork
  have hnone (hnew : m.sharedGeneration ≠ j.generation) : m.reservedUnder j.generation = [] := by
    refine List.filter_eq_nil_iff.mpr ?_
    intro r hr
    have hpast := (h.known r hr).2
    simp only [decide_eq_true_eq]
    omega
  rw [hcursor]
  by_cases hequal : sameCount m.sharedGeneration j.generation = true
  · rw [if_pos hequal]
    by_cases hsame : m.sharedGeneration = j.generation
    · obtain ⟨limit, hlimit, htiles, hend⟩ := h.tiles j.generation
      exact ⟨limit, hlimit, htiles, hend hsame.symm⟩
    · -- Only the first job can be taken for the zero the cursor starts with.
      have hzero : m.sharedGeneration = 0 := by
        have hmod := sameCount_iff.mp hequal
        omega
      rw [hnone hsame, h.fresh hzero]
      exact ⟨0, Nat.zero_le _, .nil, rfl⟩
  · rw [if_neg hequal, hnone]
    · exact ⟨0, Nat.zero_le _, .nil, rfl⟩
    · intro hsame
      rw [hsame, sameCount_self] at hequal
      exact hequal rfl

private theorem ahead_of_work (hpublished : m.Published) {j : Job} (hwork : m.work = some j) :
    m.Ahead j.generation := by
  refine ⟨(hpublished.dated j hwork).generation, ?_⟩
  intro j' hj'
  rw [Option.some.inj (hwork.symm.trans hj')]

theorem Machine.Tiled.step (h : m.Tiled) (hpublished : m.Published)
    (hsound : m.link.Sound m.poolView) (hfew : m.link.generation ≤ 2 ^ 64)
    (hstep : Step env m m') : m'.Tiled := by
  have hdated : ∀ r ∈ m.reservations, m'.Dated r.job :=
    fun r hr => (h.dated r hr).step hsound hstep
  have hnumbered {j : Job} (hwork : m.work = some j) : 0 < j.generation ∧ j.generation ≤ 2 ^ 64 := by
    obtain ⟨hpositive, hle⟩ := (hpublished.knows j hwork).older.numbered
    exact ⟨hpositive, hle.trans hfew⟩
  cases hstep.reserves with
  | nothing hreservations hcursor hgeneration =>
      refine ⟨?_, ?_, ?_, ?_, ?_, ?_⟩
      · rw [hgeneration, hcursor]
        exact h.fresh
      · rw [hgeneration]
        exact h.ahead.step hsound hstep
      · rw [hreservations, hgeneration]
        exact h.known
      · rw [hreservations]
        exact hdated
      · rw [hreservations]
        exact h.unique
      · rw [hcursor, hgeneration]
        simp only [Machine.reservedUnder, hreservations]
        exact h.tiles
  | refused j hwork hreservations hcursor hgeneration =>
      have hle := h.ahead.work j hwork
      obtain ⟨hpositive, hbound⟩ := hnumbered hwork
      refine ⟨fun hzero => absurd (hgeneration.symm.trans hzero) (Nat.ne_of_gt hpositive), ?_, ?_, ?_,
        ?_, ?_⟩
      · rw [hgeneration]
        exact (ahead_of_work hpublished hwork).step hsound hstep
      · rw [hreservations, hgeneration]
        exact fun r hr => ⟨(h.known r hr).1, (h.known r hr).2.trans hle⟩
      · rw [hreservations]
        exact hdated
      · rw [hreservations]
        exact h.unique
      · intro g
        simp only [Machine.reservedUnder, hreservations]
        by_cases hg : g = j.generation
        · obtain ⟨limit, hlimit, htiles, hend⟩ := h.sync hwork hpositive hbound
          rw [hg]
          exact ⟨limit, hlimit, htiles, fun _ => by rw [hcursor, hend]⟩
        · obtain ⟨limit, hlimit, htiles, -⟩ := h.tiles g
          exact ⟨limit, hlimit, htiles, fun hsame => absurd (hsame.trans hgeneration) hg⟩
  | reserved i j p hwork hpartition hreservations hcursor hgeneration =>
      have hle := h.ahead.work j hwork
      have hjob := hpublished.dated j hwork
      obtain ⟨hpositive, hbound⟩ := hnumbered hwork
      have hmem {r : Reservation} : r ∈ m'.reservations ↔
          r ∈ m.reservations ∨ r = ⟨j, (m.syncCursor j).sharedCursor, p⟩ := by
        rw [hreservations, List.mem_append, List.mem_singleton]
      have holder {r : Reservation} (hr : r ∈ m.reservations)
          (hsame : r.job.generation = j.generation) : r.job = j :=
        ((h.dated r hr).unique j (Or.inl hwork) hsame.symm).symm
      refine ⟨fun hzero => absurd (hgeneration.symm.trans hzero) (Nat.ne_of_gt hpositive), ?_, ?_, ?_,
        ?_, ?_⟩
      · rw [hgeneration]
        exact (ahead_of_work hpublished hwork).step hsound hstep
      · intro r hr
        rw [hgeneration]
        rcases hmem.mp hr with hr | rfl
        · exact ⟨(h.known r hr).1, (h.known r hr).2.trans hle⟩
        · exact ⟨hpositive, le_refl _⟩
      · intro r hr
        rcases hmem.mp hr with hr | rfl
        · exact hdated r hr
        · exact hjob.step hsound hstep
      · intro r hr r' hr' hsame
        rcases hmem.mp hr with hr | rfl
        · rcases hmem.mp hr' with hr' | rfl
          · exact h.unique r hr r' hr' hsame
          · exact holder hr hsame
        · rcases hmem.mp hr' with hr' | rfl
          · exact (holder hr' hsame.symm).symm
          · rfl
      · intro g
        by_cases hg : g = j.generation
        · obtain ⟨limit, hlimit, htiles, hend⟩ := h.sync hwork hpositive hbound
          obtain ⟨-, hbelow, hnonce, -, hcount, hroom⟩ := Sv2.partition_ok hpartition
          have hunder : (m'.reservedUnder g).map Reservation.tile =
              (m.reservedUnder j.generation).map Reservation.tile ++ [(limit, p.count.toNat)] := by
            simp [Machine.reservedUnder, hreservations, hg, Reservation.tile, hend]
          refine ⟨limit + p.count.toNat, by omega, ?_, ?_⟩
          · rw [hunder]
            exact htiles.snoc hcount
          · intro _
            rw [hcursor, UInt64.toNat_add, UInt32.toNat_toUInt64, ← hend]
            omega
        · obtain ⟨limit, hlimit, htiles, -⟩ := h.tiles g
          have hunder : m'.reservedUnder g = m.reservedUnder g := by
            simp [Machine.reservedUnder, hreservations, Ne.symm hg]
          rw [hunder]
          exact ⟨limit, hlimit, htiles, fun hsame => absurd (hsame.trans hgeneration) hg⟩

theorem tiled_of_run {link : Link κ} (hlink : link.Fresh) (hrun : Run env link start m)
    (hfew : m.link.generation ≤ 2 ^ 64) : m.Tiled := by
  induction hrun with
  | refl =>
      have hnone {r : Reservation} : r ∉ (Machine.initial cfg link start).reservations :=
        List.not_mem_nil
      refine ⟨fun _ => rfl, ⟨Nat.zero_le _, fun _ _ => Nat.zero_le _⟩, fun r hr => absurd hr hnone,
        fun r hr => absurd hr hnone, fun r hr => absurd hr hnone, ?_⟩
      intro g
      exact ⟨0, Nat.zero_le _, .nil, fun _ => rfl⟩
  | tail hbefore hstep ih =>
      have hsound := sound_of_run hlink hbefore
      have hbound := (hstep.moves hsound).generation.trans hfew
      exact (ih hbound).step (published_of_run hlink hbefore) hsound hbound hstep

/-- The reservations made for the jobs of one generation, read as pairs of time
and nonce, are the first `limit` cells and each of them once. -/
structure ExactUpTo (rs : List Reservation) (base : UInt32) (limit : Nat) : Prop where
  based : ∀ r ∈ rs, r.job.time32 = base
  nonempty : ∀ r ∈ rs, (cells r.part).Nonempty
  narrow : ∀ r ∈ rs, ∀ x ∈ cells r.part, x.2 < 2 ^ 32
  disjoint : rs.Pairwise fun r r' => Disjoint (cells r.part) (cells r'.part)
  covers : (⋃ r ∈ rs, cells r.part) = cell base '' {c | c < limit}

theorem exactUpTo_of_tiles {rs : List Reservation} {base : UInt32} {limit : Nat}
    (htiles : Tiles (rs.map Reservation.tile) limit) (hlimit : limit ≤ 2 ^ 56)
    (hbased : ∀ r ∈ rs, r.job.time32 = base)
    (hparts : ∀ r ∈ rs, ∃ batch, Sv2.partition r.job.time32 0 r.cursor batch = .ok r.part) :
    ExactUpTo rs base limit := by
  have hcells (r : Reservation) (hr : r ∈ rs) : cells r.part = cell base '' stretch r.tile := by
    obtain ⟨batch, hpart⟩ := hparts r hr
    rw [hbased r hr] at hpart
    exact cells_eq hpart
  have hbelow (r : Reservation) (hr : r ∈ rs) : stretch r.tile ⊆ {c | c < 2 ^ 56} := by
    rintro c ⟨-, hc⟩
    have hend := (htiles.mem (List.mem_map_of_mem hr)).2
    exact lt_of_lt_of_le hc (hend.trans hlimit)
  refine ⟨hbased, ?_, ?_, ?_, ?_⟩
  · intro r hr
    obtain ⟨batch, hpart⟩ := hparts r hr
    obtain ⟨-, -, -, -, hcount, -⟩ := Sv2.partition_ok hpart
    exact ⟨_, 0, hcount, rfl⟩
  · rintro r hr x ⟨k, hk, rfl⟩
    obtain ⟨batch, hpart⟩ := hparts r hr
    obtain ⟨-, -, -, -, -, hroom⟩ := Sv2.partition_ok hpart
    dsimp only
    omega
  · refine (List.pairwise_map.mp htiles.pairwise).imp_of_mem ?_
    intro r r' hr hr' hbefore
    rw [hcells r hr, hcells r' hr']
    exact (disjoint_stretch hbefore).image (cell_injOn base) (hbelow r hr) (hbelow r' hr')
  · ext x
    simp only [Set.mem_iUnion]
    constructor
    · rintro ⟨r, hr, hx⟩
      rw [hcells r hr] at hx
      obtain ⟨c, hc, rfl⟩ := hx
      exact ⟨c, (htiles.covers c).mp ⟨r.tile, List.mem_map_of_mem hr, hc⟩, rfl⟩
    · rintro ⟨c, hc, rfl⟩
      obtain ⟨tile, htile, hmem⟩ := (htiles.covers c).mpr hc
      obtain ⟨r, hr, rfl⟩ := List.mem_map.mp htile
      refine ⟨r, hr, ?_⟩
      rw [hcells r hr]
      exact ⟨c, hmem, rfl⟩

/-- The reservations made under a generation as the code counts it, in 64 bits. -/
def Machine.reservedAs (m : Machine cfg κ) (g : UInt64) : List Reservation :=
  m.reservations.filter fun r => r.job.generation.toUInt64 = g

/-- What the shared cursor promises in a state. -/
structure Machine.ReservesExactly (m : Machine cfg κ) : Prop where
  /-- Per generation the reservations are exactly a prefix of the cells, for
  the present one the prefix below the shared cursor. -/
  generations : m.link.generation ≤ 2 ^ 64 → ∀ g, ∃ base limit,
    ExactUpTo (m.reservedAs g) base limit ∧ limit ≤ 2 ^ 56 ∧
      (g = m.sharedGeneration.toUInt64 → limit = m.sharedCursor.toNat)
  ranges : ∀ r ∈ m.reservations, (cells r.part).Nonempty ∧ ∀ x ∈ cells r.part, x.2 < 2 ^ 32
  bounded : m.sharedCursor.toNat ≤ 2 ^ 56
  /-- At the end of the space a worker that asks for more fails. -/
  exhausted : ∀ i j, m.work = some j → j.sv2 = true →
    (m.syncCursor j).sharedCursor.toNat = 2 ^ 56 →
    m.takeWork i = (m.syncCursor j).setPhase i (.throwing "SV2 nonce partition exhausted or invalid")

theorem partition_exhausted {base batch : UInt32} {cursor : UInt64} (h : cursor.toNat = 2 ^ 56) :
    Sv2.partition base 0 cursor batch = .error "SV2 nonce partition exhausted or invalid" := by
  have hcursor : cursor = 0x100000000000000 := UInt64.toNat_inj.mp h
  rw [Sv2.partition, if_pos]
  · rfl
  · rw [hcursor]
    exact Or.inr (Or.inl (UInt64.le_refl _))

/-- The reservations of a job are exact up to the end of their tiles. -/
theorem Machine.Tiled.exact {link : Link κ} (h : m.Tiled) (hrun : Run env link start m) (g : Nat) :
    ∃ base limit, ExactUpTo (m.reservedUnder g) base limit ∧ limit ≤ 2 ^ 56 ∧
      (g = m.sharedGeneration → limit = m.sharedCursor.toNat) := by
  obtain ⟨limit, hlimit, htiles, hend⟩ := h.tiles g
  have hmem {r : Reservation} (hr : r ∈ m.reservedUnder g) :
      r ∈ m.reservations ∧ r.job.generation = g := by
    simpa [Machine.reservedUnder] using hr
  obtain ⟨base, hbase⟩ : ∃ base, ∀ r ∈ m.reservedUnder g, r.job.time32 = base := by
    cases hfirst : m.reservedUnder g with
    | nil => exact ⟨0, fun r hr => absurd hr List.not_mem_nil⟩
    | cons first rest =>
        have hfirst' := hmem (hfirst ▸ List.mem_cons_self : first ∈ m.reservedUnder g)
        refine ⟨first.job.time32, ?_⟩
        intro r hr
        have hr' := hmem (hfirst ▸ hr)
        rw [h.unique r hr'.1 first hfirst'.1 (hr'.2.trans hfirst'.2.symm)]
  refine ⟨base, limit, exactUpTo_of_tiles htiles hlimit hbase ?_, hlimit, hend⟩
  intro r hr
  obtain ⟨i, hpart⟩ := (partitioned_of_run hrun).1 r (hmem hr).1
  exact ⟨cfg.batch i, hpart⟩

/-- Up to `2 ^ 64` jobs a generation in 64 bits is that of one job. -/
theorem Machine.Tiled.reservedAs_eq (h : m.Tiled) (hfew : m.link.generation ≤ 2 ^ 64) (g : UInt64) :
    ∃ n, m.reservedAs g = m.reservedUnder n ∧
      (g = m.sharedGeneration.toUInt64 → n = m.sharedGeneration) := by
  have hbound := h.ahead.link.trans hfew
  have hword (n : Nat) : n.toUInt64 = g ↔ n % 2 ^ 64 = g.toNat := by
    rw [← UInt64.toNat_inj, Nat.toUInt64_eq, UInt64.toNat_ofNat']
  have hlt := g.toNat_lt
  have hunder {n : Nat} (hn : n % 2 ^ 64 = g.toNat) (hrange : n ≤ 2 ^ 64)
      (hpositive : 0 < n ∨ m.sharedGeneration = 0) : m.reservedAs g = m.reservedUnder n := by
    refine List.filter_congr fun r hr => ?_
    obtain ⟨hfirst, hlast⟩ := h.known r hr
    rw [decide_eq_decide, hword]
    omega
  by_cases hshared : m.sharedGeneration.toUInt64 = g
  · have hmod := (hword _).mp hshared
    exact ⟨m.sharedGeneration, hunder hmod hbound (by omega), fun _ => rfl⟩
  · have hother : g ≠ m.sharedGeneration.toUInt64 := Ne.symm hshared
    by_cases hzero : g.toNat = 0
    · exact ⟨2 ^ 64, hunder (by omega) (le_refl _) (by omega), fun hsame => absurd hsame hother⟩
    · exact ⟨g.toNat, hunder (by omega) (by omega) (by omega), fun hsame => absurd hsame hother⟩

/-- In every state of every run each reserved range is non-empty and stays within
the nonces of one time, the shared cursor stays within `2 ^ 56` and a worker that
asks for more at its end fails. Up to `2 ^ 64` activated jobs the ranges reserved
under one generation are disjoint and exactly the cells below a limit, for the
present one the shared cursor. A range says which slot and cursor it was made
for. -/
theorem reservations_exact {link : Link κ} (hlink : link.Fresh) (hrun : Run env link start m) :
    m.ReservesExactly ∧
      ∀ (base slot slot' batch batch' : UInt32) (cursor cursor' : UInt64) (p p' : Sv2.Partition),
        Sv2.partition base slot cursor batch = .ok p →
        Sv2.partition base slot' cursor' batch' = .ok p' →
        (p.ntime, p.nonce) = (p'.ntime, p'.nonce) → slot = slot' ∧ cursor = cursor' := by
  obtain ⟨hparts, hcursor⟩ := partitioned_of_run hrun
  refine ⟨⟨?_, ?_, hcursor, ?_⟩, ?_⟩
  · intro hfew g
    have htiled := tiled_of_run hlink hrun hfew
    obtain ⟨n, hsame, hpresent⟩ := htiled.reservedAs_eq hfew g
    obtain ⟨base, limit, hexact, hlimit, hend⟩ := htiled.exact hrun n
    rw [hsame]
    exact ⟨base, limit, hexact, hlimit, fun hg => hend (hpresent hg)⟩
  · intro r hr
    obtain ⟨i, hpart⟩ := hparts r hr
    obtain ⟨-, -, -, -, hcount, hroom⟩ := Sv2.partition_ok hpart
    refine ⟨⟨_, 0, hcount, rfl⟩, ?_⟩
    rintro x ⟨k, hk, rfl⟩
    dsimp only
    omega
  · intro i j hwork hsv2 hfull
    unfold Machine.takeWork
    simp only [hwork, hsv2, if_true, partition_exhausted hfull]
  · intro base slot slot' batch batch' cursor cursor' p p' h h' hstart
    obtain ⟨hntime, hnonce⟩ := Prod.mk.inj hstart
    exact Sv2.partition_injective h h' hntime hnonce

/-- Three CPU threads that scan one nonce at a time. -/
def crewConfig : Config where
  rows := 1
  slots := 3
  row := fun _ => 0
  backend := fun _ => .cpu
  batch := fun _ => 1
  batch_positive := fun _ => by decide

def crewSlot (k : Fin 3) : Fin crewConfig.slots := k

/-- The cell that a worker of the crew reserves at the cursor. -/
def crewCell (cursor : UInt64) : Sv2.Partition := ⟨cursor.toUInt32, 0x60000000, 1⟩

private theorem reservations_snoc {m' : Machine cfg κ} {events : List (Event cfg.slots cfg.rows)}
    (htrace : m'.trace = m.trace ++ events) :
    m'.reservations = m.reservations ++ ({ m with trace := events }).reservations := by
  rw [Machine.reservations, htrace, List.filterMap_append]
  rfl

/-- Messages reserve nothing. -/
private theorem reservations_received {m' : Machine cfg κ} (messages : List Json)
    (htrace : m'.trace = m.trace ++ messages.map Event.received) :
    m'.reservations = m.reservations := by
  have hnone : ({ m with trace := messages.map Event.received }).reservations = [] := by
    clear htrace
    induction messages with
    | nil => rfl
    | cons message rest ih => exact ih
  rw [reservations_snoc htrace, hnone, List.append_nil]

/-- A worker of the crew reserves its first range. -/
private theorem Works.reserve {m : Machine crewConfig Unit} {session : Sv2.Session Unit} {job : Job}
    (h : Works m session job) (k : Fin 3) (cursor : UInt64)
    (hstart : (m.workers (crewSlot k)).phase = .starting)
    (hsync : (m.syncCursor job).sharedCursor = cursor) (hcursor : cursor = 0 ∨ cursor = 1) :
    ∃ m' : Machine crewConfig Unit, Relation.ReflTransGen (Step (sampleEnv [])) m m' ∧
      Works m' session job ∧ m'.found = m.found ∧
      (∀ l, l ≠ k → m'.workers (crewSlot l) = m.workers (crewSlot l)) ∧
      m'.reservations = m.reservations ++ [⟨job, cursor, crewCell cursor⟩] ∧
      m'.sharedGeneration = job.generation ∧ m'.sharedCursor = cursor + 1 := by
  have hpartition : Sv2.partition 0x60000000 0 cursor (crewConfig.batch (crewSlot k)) =
      .ok (crewCell cursor) := by
    rcases hcursor with rfl | rfl <;> rfl
  obtain ⟨m', hsteps, hworks, hfound, -, -, -, hothers, htrace, hshared, hnext⟩ :=
    h.take _ _ _ hstart hsync hpartition
  exact ⟨m', hsteps, hworks, hfound, fun l hl => hothers l hl, reservations_snoc htrace, hshared, hnext⟩

/-- The crew has not been started yet. -/
private theorem crew_opens : ∃ (m : Machine crewConfig Unit) (session : Sv2.Session Unit) (job : Job),
    Run (sampleEnv []) (.sv2 openingSession) {} m ∧ Works m session job ∧ session.generation = 1 ∧
      m.found = [] ∧ (∀ k, (m.workers (crewSlot k)).phase = .starting) ∧ m.reservations = [] ∧
      m.sharedCursor = 0 := by
  obtain ⟨m, session, job, hrun, hworks, hgeneration, -, -, -, -, -, -, hfound, hworkers, -, -, -,
    hcursor, events, htrace⟩ := opening_works crewConfig
  refine ⟨m, session, job, hrun, hworks, hgeneration, hfound, fun k => by rw [hworkers], ?_, hcursor⟩
  have hquiet : m.trace = ({ m with trace := [] } : Machine crewConfig Unit).trace ++
    events.map Event.received := htrace
  exact reservations_received events hquiet

/-- Two workers share a generation, the third comes after a renewal. -/
theorem reservations_exact_sample :
    ∃ m : Machine crewConfig Unit, Run (sampleEnv []) (.sv2 openingSession) {} m ∧
      m.reservations.map (fun r => (r.job.generation, r.cursor, r.part.count)) =
        [(1, 0, 1), (1, 1, 1), (2, 0, 1)] ∧ m.ReservesExactly := by
  obtain ⟨m, session, job, hrun, hworks, hgeneration, hfound, hstart, hnone, hcursor⟩ := crew_opens
  obtain ⟨m₁, htake₁, hworks₁, hfound₁, hothers₁, hmade₁, hshared₁, hcursor₁⟩ :=
    hworks.reserve 0 0 (hstart 0)
      (by rw [(syncCursor_fields m job).2.2, hcursor, ite_self]) (Or.inl rfl)
  obtain ⟨m₂, htake₂, hworks₂, hfound₂, hothers₂, hmade₂, hshared₂, -⟩ :=
    hworks₁.reserve 1 1 (by rw [hothers₁ 1 (by decide)]; exact hstart 1)
      (by rw [(syncCursor_fields m₁ job).2.2, hshared₁, sameCount_self, hcursor₁]; rfl) (Or.inr rfl)
  obtain ⟨m₃, session₃, job₃, hrenew, hworks₃, hgeneration₃, -, hworkers₃, htrace₃, hshared₃, -⟩ :=
    hworks₂.renew (hfound₂.trans (hfound₁.trans hfound))
  have hnew : sameCount m₃.sharedGeneration job₃.generation = false := by
    rw [hshared₃, hshared₂, hworks₃.generation, hgeneration₃, hworks.generation, hgeneration]
    decide
  obtain ⟨m₄, htake₄, -, -, -, hmade₄, -⟩ :=
    hworks₃.reserve 2 0
      (by rw [hworkers₃, hothers₂ 2 (by decide), hothers₁ 2 (by decide)]; exact hstart 2)
      (by rw [(syncCursor_fields m₃ job₃).2.2, hnew]; rfl) (Or.inl rfl)
  have hrun' := (((hrun.trans htake₁).trans htake₂).trans hrenew).trans htake₄
  refine ⟨m₄, hrun', ?_, (reservations_exact (.sv2 () [] _ _ _ _) hrun').1⟩
  have hkept : m₃.reservations = m₂.reservations :=
    reservations_received [Sv2.promptEvent] htrace₃
  rw [hmade₄, hkept, hmade₂, hmade₁, hnone]
  simp [crewCell, hworks.generation, hworks₃.generation, hgeneration₃, hgeneration]

/-- The counter of activations wraps: after `2 ^ 64` renewals the cursor starts
again under the number of the first job, and its first cell is handed out a second
time. -/
theorem reservations_overlap_after_wrap :
    ∃ m : Machine crewConfig Unit, Run (sampleEnv []) (.sv2 openingSession) {} m ∧
      m.link.generation = 2 ^ 64 + 1 ∧
      ¬ ∃ base limit, ExactUpTo (m.reservedAs 1) base limit := by
  obtain ⟨m, session, job, hrun, hworks, hgeneration, hfound, hstart, hnone, hcursor⟩ := crew_opens
  obtain ⟨m₁, htake₁, hworks₁, hfound₁, hothers₁, hmade₁, hshared₁, hcursor₁⟩ :=
    hworks.reserve 0 0 (hstart 0)
      (by rw [(syncCursor_fields m job).2.2, hcursor, ite_self]) (Or.inl rfl)
  -- A worker reserves for the second job, so that the last is not taken for the first.
  obtain ⟨m₂, session₂, job₂, hrenew, hworks₂, hgeneration₂, hfound₂, hworkers₂, htrace₂, hshared₂, -⟩ :=
    hworks₁.renew (hfound₁.trans hfound)
  have hsecond : sameCount m₂.sharedGeneration job₂.generation = false := by
    rw [hshared₂, hshared₁, hworks₂.generation, hgeneration₂, hworks.generation, hgeneration]
    decide
  obtain ⟨m₃, htake₃, hworks₃, hfound₃, hothers₃, hmade₃, hshared₃, -⟩ :=
    hworks₂.reserve 1 0 (by rw [hworkers₂, hothers₁ 1 (by decide)]; exact hstart 1)
      (by rw [(syncCursor_fields m₂ job₂).2.2, hsecond]; rfl) (Or.inl rfl)
  obtain ⟨m₄, session₄, job₄, hmany, hworks₄, hgeneration₄, -, hworkers₄, htrace₄, hshared₄, -⟩ :=
    hworks₃.renew_many (hfound₃.trans hfound₂) (2 ^ 64 - 1)
  have hlast : sameCount m₄.sharedGeneration job₄.generation = false := by
    rw [hshared₄, hshared₃, hworks₂.generation, hworks₄.generation, hgeneration₄]
    exact sameCount_eq_false (by omega)
  obtain ⟨m₅, htake₅, hworks₅, -, -, hmade₅, -⟩ :=
    hworks₄.reserve 2 0
      (by rw [hworkers₄, hothers₃ 2 (by decide), hworkers₂, hothers₁ 2 (by decide)]; exact hstart 2)
      (by rw [(syncCursor_fields m₄ job₄).2.2, hlast]; rfl) (Or.inl rfl)
  refine ⟨m₅, ((((hrun.trans htake₁).trans hrenew).trans htake₃).trans hmany).trans htake₅, ?_, ?_⟩
  · rw [hworks₅.link]
    change session₄.generation = _
    omega
  · rintro ⟨base, limit, hexact⟩
    have hkept₂ : m₂.reservations = m₁.reservations :=
      reservations_received [Sv2.promptEvent] htrace₂
    have hkept₄ : m₄.reservations = m₃.reservations :=
      reservations_received (List.replicate (2 ^ 64 - 1) Sv2.promptEvent)
        (htrace₄.trans (by rw [List.map_replicate]))
    have hall : m₅.reservations =
        [⟨job, 0, crewCell 0⟩, ⟨job₂, 0, crewCell 0⟩, ⟨job₄, 0, crewCell 0⟩] := by
      rw [hmade₅, hkept₄, hmade₃, hkept₂, hmade₁, hnone]
      rfl
    have hfirst : job.generation.toUInt64 = 1 := by
      rw [hworks.generation, hgeneration]
      rfl
    have hother : job₂.generation.toUInt64 ≠ 1 := by
      rw [hworks₂.generation, hgeneration₂, hgeneration]
      decide
    have hagain : job₄.generation.toUInt64 = 1 := by
      rw [hworks₄.generation, show session₄.generation = 2 ^ 64 + 1 by omega]
      rfl
    have hsame : m₅.reservedAs 1 = [⟨job, 0, crewCell 0⟩, ⟨job₄, 0, crewCell 0⟩] := by
      simp [Machine.reservedAs, hall, hfirst, hother, hagain]
    have hdisjoint := hexact.disjoint
    rw [hsame] at hdisjoint
    simp only [List.pairwise_cons, List.mem_singleton, forall_eq] at hdisjoint
    have hmem : ((0x60000000, 0) : Nat × Nat) ∈ cells (crewCell 0) := ⟨0, by decide, rfl⟩
    exact Set.disjoint_left.mp hdisjoint.1 hmem hmem

end Supryolo.Miner
