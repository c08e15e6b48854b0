import Supryolo.Miner.Deliveries
import Supryolo.Miner.NoncePartition

namespace Supryolo.Miner

open Words

variable {cfg : Config} {κ : Type} {env : Env κ} {m m' : Machine cfg κ} {start : View cfg.rows}

/-- What a share is a solution of, the generation as the code has it. -/
def Found.ticket {rows : Nat} (f : Found rows) : UInt64 × UInt32 × UInt64 :=
  (f.job.generation.toUInt64, f.job.time32, f.nonce)

/-- The same with the exact count of the generation. -/
def Found.stamp {rows : Nat} (f : Found rows) : Nat × UInt32 × UInt64 :=
  (f.job.generation, f.job.time32, f.nonce)

/-- Stamps that differ are tickets that differ, until the generations come round. -/
theorem nodup_tickets {rows : Nat} {l : List (Found rows)} (h : (l.map Found.stamp).Nodup)
    (hnumbered : ∀ f ∈ l, 0 < f.job.generation ∧ f.job.generation ≤ 2 ^ 64) :
    (l.map Found.ticket).Nodup := by
  rw [List.Nodup, List.pairwise_map] at h ⊢
  refine h.imp_of_mem ?_
  intro f f' hf hf' hne heq
  obtain ⟨hgeneration, hrest⟩ := Prod.mk.inj heq
  have hsame : f.job.generation = f'.job.generation := by
    have hpositive := hnumbered f hf
    have hpositive' := hnumbered f' hf'
    refine eq_of_sameCount ?_ (by omega) (by omega)
    rw [sameCount, hgeneration, beq_self_eq_true]
  exact hne (Prod.ext hsame hrest)

/-- SV1 scans owe every pair of generation and nonce once. -/
theorem Machine.Blocks.owed_nodup (h : m.Blocks) (hslots : cfg.slots ≤ 256) :
    (m.owed.map fun f => (f.job.generation, f.nonce)).Nodup := by
  have hfits {s : ScanCall cfg.slots} (hs : s ∈ m.scans) :
      s.start.toNat + s.count.toNat ≤ 2 ^ 64 := by
    obtain ⟨-, hhigh⟩ := h.inside s hs
    have hworker := s.worker.isLt
    omega
  rw [Machine.owed, List.map_flatMap, List.nodup_flatMap]
  refine ⟨?_, List.pairwise_iff_forall_sublist.mpr ?_⟩
  · intro s hs
    have hrange : (nonceRange s.start s.count.toNat).Nodup :=
      (nonceRange_increasing (hfits hs)).imp fun hlt => UInt64.ne_of_lt hlt
    rw [ScanCall.owed, List.map_map]
    exact (hrange.filter _).map fun n n' heq => (Prod.mk.inj heq).2
  · intro a b hsub
    have ha : a ∈ m.scans := hsub.subset List.mem_cons_self
    have hb : b ∈ m.scans := hsub.subset (by simp)
    refine List.disjoint_left.mpr ?_
    intro x hx hx'
    simp only [ScanCall.owed, List.map_map, List.mem_map, List.mem_filter] at hx hx'
    obtain ⟨n, ⟨hn, -⟩, rfl⟩ := hx
    obtain ⟨n', ⟨hn', -⟩, heq⟩ := hx'
    have hgeneration : b.job.generation = a.job.generation := (Prod.mk.inj heq).1
    obtain rfl : n' = n := (Prod.mk.inj heq).2
    rw [mem_nonceRange (hfits ha), UInt64.le_iff_toNat_le] at hn
    rw [mem_nonceRange (hfits hb), UInt64.le_iff_toNat_le] at hn'
    obtain ⟨hlow, hhigh⟩ := h.inside a ha
    obtain ⟨hlow', hhigh'⟩ := h.inside b hb
    have hworker : b.worker = a.worker := Fin.ext (by omega)
    have hafter := h.ordered hsub hworker hgeneration
    omega

/-- Jobs that were scanned are known to the session. -/
theorem scannedKnown_of_run {link : Link κ} (hlink : link.Fresh) (hrun : Run env link start m) :
    ∀ s ∈ m.scans, m.link.Knows m.poolView s.job ∧ m.link.Speaks s.job := by
  induction hrun with
  | refl => exact fun s hs => absurd hs List.not_mem_nil
  | @tail before next hbefore hstep ih =>
      have hmoves := hstep.moves (sound_of_run hlink hbefore)
      have hkept {j : Job} (hj : before.link.Knows before.poolView j ∧ before.link.Speaks j) :
          next.link.Knows next.poolView j ∧ next.link.Speaks j :=
        ⟨hmoves.knows j hj.1, hmoves.speaks j hj.2⟩
      have hsame (hscans : next.scans = before.scans) :
          ∀ s ∈ next.scans, next.link.Knows next.poolView s.job ∧ next.link.Speaks s.job := by
        rw [hscans]
        exact fun s hs => hkept (ih s hs)
      have hmore {i : Fin cfg.slots} {j j' : Job} {reserved start : UInt64} {count : UInt32}
          (hphase : (before.workers i).phase = .holding j reserved)
          (hrange : ((before.workers i).adopt j).range i (cfg.batch i) j reserved =
            .ok (j', start, count))
          (hscans : next.scans = before.scans ++ [⟨i, j', start, count⟩]) :
          ∀ s ∈ next.scans, next.link.Knows next.poolView s.job ∧ next.link.Speaks s.job := by
        have hcarries := carries_of_run hlink hbefore
        have hjob : (before.workers i).phase.job? = some j := by
          rw [hphase]
          rfl
        rw [hscans]
        intro s hs
        rcases List.mem_append.mp hs with hs | hs
        · exact hkept (ih s hs)
        · rw [List.mem_singleton.mp hs]
          exact hkept (knows_range (hcarries.knows i j hjob) (hcarries.speaks i j hjob) hrange)
      cases hstep with
      | main hmain => exact hsame hmain.scans
      | worker i hworker =>
          cases hworker.effect with
          | moved phase hworker hphase halted hfound hscans => exact hsame hscans
          | took j reserved hwork hworker halted hfound hscans => exact hsame hscans
          | refused j reserved e hphase hworker hfound hscans => exact hsame hscans
          | scanned j j' reserved start count r hphase hrange hscan hworker hfound hscans =>
              exact hmore hphase hrange hscans
          | failed j j' reserved start count e hphase hrange hworker hfound hscans =>
              exact hmore hphase hrange hscans
          | pushed j r hphase hworker hfound hscans => exact hsame hscans

/-- The generation and the partition a reservation was made for. -/
abbrev Draw := Nat × Sv2.Partition

def Reservation.draw (r : Reservation) : Draw := (r.job.generation, r.part)

def ScanCall.draw {slots : Nat} (s : ScanCall slots) : Draw :=
  (s.job.generation, ⟨s.start.toUInt32, s.job.time32, s.count⟩)

/-- The reservation a worker is about to scan. -/
def Phase.draws (batch : UInt32) : Phase → List Draw
  | .holding j reserved =>
      ((Sv2.partition j.time32 0 reserved batch).toOption.map (Prod.mk j.generation)).toList
  | _ => []

def Machine.drawn (m : Machine cfg κ) : Multiset Draw :=
  ((m.scans.map ScanCall.draw : List Draw) : Multiset Draw) +
    ∑ i, ((m.workers i).phase.draws (cfg.batch i) : Multiset Draw)

def Machine.drawable (m : Machine cfg κ) : List Draw := m.reservations.map Reservation.draw

/-- A worker turns a reservation into one scan. -/
inductive DrawEffect (i : Fin cfg.slots) (m m' : Machine cfg κ) : Prop
  | nothing (hdrawable : m'.drawable = m.drawable) (hscans : m'.scans = m.scans)
      (hdraws : (m'.workers i).phase.draws (cfg.batch i) = [])
  | reserved (d : Draw) (hdrawable : m'.drawable = m.drawable ++ [d]) (hscans : m'.scans = m.scans)
      (hdraws : (m'.workers i).phase.draws (cfg.batch i) = [d])
  | scanned (s : ScanCall cfg.slots) (hdrawable : m'.drawable = m.drawable)
      (hscans : m'.scans = m.scans ++ [s])
      (hdraws : (m.workers i).phase.draws (cfg.batch i) = [s.draw])
      (hdraws' : (m'.workers i).phase.draws (cfg.batch i) = [])

private theorem takeWork_draws {i : Fin cfg.slots}
    (hsv2 : ∀ j, m.work = some j → j.sv2 = true) : DrawEffect i m (m.takeWork i) := by
  unfold Machine.takeWork
  cases hwork : m.work with
  | none => exact .nothing rfl rfl (by rw [workers_setPhase]; rfl)
  | some j =>
      obtain ⟨htrace, -, -⟩ := syncCursor_fields m j
      simp only [hsv2 j hwork, if_true]
      cases hpartition : Sv2.partition j.time32 0 (m.syncCursor j).sharedCursor (cfg.batch i) with
      | error e =>
          refine .nothing ?_ ?_ (by rw [workers_setPhase]; rfl)
          · simp [Machine.drawable, Machine.reservations, Machine.setPhase, Machine.setWorker, htrace]
          · simp [Machine.scans, Machine.setPhase, Machine.setWorker, htrace]
      | ok p =>
          refine .reserved (j.generation, p) ?_ ?_ ?_
          · simp [Machine.drawable, Machine.reservations, Machine.setPhase, Machine.setWorker,
              htrace, Reservation.draw]
          · simp [Machine.scans, Machine.setPhase, Machine.setWorker, htrace]
          · rw [workers_setPhase]
            simp only [Phase.draws, hpartition]
            rfl

/-- The range of a scan is the reservation the worker holds. -/
theorem draw_of_range {w : Worker} {i : Fin cfg.slots} {batch count : UInt32} {j j' : Job}
    {reserved start : UInt64} (hsv2 : j.sv2 = true)
    (h : w.range i batch j reserved = .ok (j', start, count)) :
    (Phase.holding j reserved).draws batch = [(ScanCall.mk i j' start count).draw] := by
  rcases range_ok h with ⟨-, p, hp, rfl, rfl, rfl⟩ | ⟨hsv1, -⟩
  · simp only [Phase.draws, hp, ScanCall.draw]
    simp [Except.toOption, Job.roll]
  · rw [hsv2] at hsv1
    cases hsv1

theorem WorkerStep.draws {i : Fin cfg.slots} (h : WorkerStep i m m') (hcarries : m.Carries)
    (hpublished : m.Published) {session : Sv2.Session κ} (hlink : m.link = .sv2 session) :
    DrawEffect i m m' := by
  have hspeaks {j : Job} (hj : m.link.Speaks j) : j.sv2 = true := by
    rw [hlink] at hj
    exact hj
  cases h with
  | construct => exact .nothing rfl rfl (by rw [workers_setPhase]; rfl)
  | constructFailed => exact .nothing rfl rfl (by rw [workers_setPhase]; rfl)
  | check => exact .nothing rfl rfl (by rw [workers_setPhase]; split <;> rfl)
  | take => exact takeWork_draws fun j hj => hspeaks (hpublished.speaks j hj)
  | scan j j' reserved start count outcome hphase hrange houtcome =>
      have hsv2 : j.sv2 = true := hspeaks (hcarries.speaks i j (by rw [hphase]; rfl))
      refine .scanned ⟨i, j', start, count⟩ ?_ ?_ ?_ ?_
      · cases outcome <;>
          simp [Machine.drawable, Machine.reservations, Machine.scanRange, Machine.setWorker]
      · cases outcome <;> simp [Machine.scans, Machine.scanRange, Machine.setWorker]
      · rw [hphase]
        exact draw_of_range hsv2 hrange
      · cases outcome <;> rw [Machine.scanRange, workers_setWorker] <;> rfl
  | scanRefused => exact .nothing rfl rfl (by rw [workers_setWorker]; rfl)
  | push j r =>
      unfold Machine.pushFound
      split <;> exact .nothing rfl rfl (by rw [workers_setPhase]; rfl)
  | fail => exact .nothing rfl rfl (by rw [workers_setPhase]; rfl)

private theorem drawn_others {i : Fin cfg.slots} (hstep : WorkerStep i m m') :
    ∑ k, ((m'.workers k).phase.draws (cfg.batch k) : Multiset Draw) +
        ((m.workers i).phase.draws (cfg.batch i) : Multiset Draw) =
      ∑ k, ((m.workers k).phase.draws (cfg.batch k) : Multiset Draw) +
        ((m'.workers i).phase.draws (cfg.batch i) : Multiset Draw) :=
  Atomic.sum_others
    (f := fun k => ((m.workers k).phase.draws (cfg.batch k) : Multiset Draw))
    (g := fun k => ((m'.workers k).phase.draws (cfg.batch k) : Multiset Draw))
    fun k hk => by rw [hstep.others hk]

private theorem WorkerStep.drawn_le {i : Fin cfg.slots} (hstep : WorkerStep i m m')
    (heffect : DrawEffect i m m') (h : m.drawn ≤ (m.drawable : Multiset Draw)) :
    m'.drawn ≤ (m'.drawable : Multiset Draw) := by
  have hsum := drawn_others hstep
  unfold Machine.drawn at h ⊢
  cases heffect with
  | nothing hdrawable hscans hdraws =>
      rw [hdraws, Multiset.coe_nil, add_zero] at hsum
      rw [hdrawable, hscans]
      refine le_trans (add_le_add_right ?_ _) h
      rw [← hsum]
      exact Multiset.le_add_right _ _
  | reserved d hdrawable hscans hdraws =>
      rw [hdraws] at hsum
      rw [hdrawable, hscans, ← Multiset.coe_add]
      have hless : ∑ k, ((m'.workers k).phase.draws (cfg.batch k) : Multiset Draw) ≤
          ∑ k, ((m.workers k).phase.draws (cfg.batch k) : Multiset Draw) + (([d] : List Draw) : _) := by
        rw [← hsum]
        exact Multiset.le_add_right _ _
      refine le_trans (add_le_add_right hless _) ?_
      rw [← add_assoc]
      exact add_le_add_left h _
  | scanned s hdrawable hscans hdraws hdraws' =>
      rw [hdraws, hdraws', Multiset.coe_nil, add_zero] at hsum
      rw [hdrawable, hscans, List.map_append, List.map_singleton, ← Multiset.coe_add, add_assoc,
        add_comm ((([s.draw] : List Draw)) : Multiset Draw), hsum]
      exact h

/-- A connection keeps its protocol. -/
theorem protocol_of_run {link : Link κ} (hrun : Run env link start m) :
    m.link.isSv2 = link.isSv2 := by
  induction hrun with
  | refl => rfl
  | @tail before next _ hstep ih =>
      rw [← ih]
      cases hstep.effect with
      | idle n hsame => rw [hsame]
      | received chunks ending messages hread =>
          cases hnext : next.link with
          | sv1 buffer state =>
              rw [hnext] at hread
              obtain ⟨buffer', hbefore⟩ := read_sv1 hread
              rw [hbefore]
              rfl
          | sv2 session' =>
              rw [hnext] at hread
              obtain ⟨session, bytes, hbefore, -⟩ := read_sv2 hread
              rw [hbefore]
              rfl
      | handledSv1 message buffer state state' job hbefore hafter =>
          rw [hbefore, hafter]
          rfl
      | handledSv2 message session' hbefore hafter => rw [hbefore, hafter]
      | sentSv1 f n buffer state hcheck hbefore hafter => rw [hbefore, hafter]
      | sentSv2 f n session session' hcheck hbefore hafter =>
          rw [hbefore, hafter]
          rfl

theorem sv2_of_run {first : Sv2.Session κ} (hrun : Run env (.sv2 first) start m) :
    ∃ session, m.link = .sv2 session := by
  have hprotocol := protocol_of_run hrun
  cases hlink : m.link with
  | sv1 buffer state =>
      rw [hlink] at hprotocol
      cases hprotocol
  | sv2 session => exact ⟨session, rfl⟩

/-- Every SV2 scan uses up a reservation of its own. -/
theorem drawn_le_of_run {first : Sv2.Session κ} (hlink : (Link.sv2 first).Fresh)
    (hrun : Run env (.sv2 first) start m) : m.drawn ≤ (m.drawable : Multiset Draw) := by
  induction hrun with
  | refl =>
      simp [Machine.drawn, Machine.drawable, Machine.scans, Machine.reservations, Machine.initial,
        Phase.draws]
  | @tail before next hbefore hstep ih =>
      obtain ⟨session, hsession⟩ := sv2_of_run hbefore
      cases hstep with
      | worker i hworker =>
          exact hworker.drawn_le (hworker.draws (carries_of_run hlink hbefore)
            (published_of_run hlink hbefore) hsession) ih
      | main hmain =>
          have hsame := hmain.sameWorkers
          have hdrawable : next.drawable = before.drawable := by
            rcases hsame.trace with htrace | ⟨message, htrace⟩ | ⟨id, share, f, htrace⟩ <;>
              simp [Machine.drawable, Machine.reservations, htrace]
          rw [Machine.drawn, hdrawable, hmain.scans, hsame.workers]
          exact ih

/-- The solutions a partition has room for. -/
def Draw.cells (d : Draw) : List (Nat × Nat × Nat) :=
  (List.range d.2.count.toNat).map fun k => (d.1, d.2.ntime.toNat, d.2.nonce.toNat + k)

theorem mem_drawCells {d : Draw} {x : Nat × Nat × Nat} :
    x ∈ Draw.cells d ↔ x.1 = d.1 ∧ x.2 ∈ cells d.2 := by
  simp only [Draw.cells, List.mem_map, List.mem_range, cells, Set.mem_ofPred_eq]
  constructor
  · rintro ⟨k, hk, rfl⟩
    exact ⟨rfl, k, hk, rfl⟩
  · rintro ⟨hgeneration, k, hk, hcell⟩
    exact ⟨k, hk, Prod.ext hgeneration.symm hcell.symm⟩

/-- Reservations do not overlap. -/
theorem Machine.Tiled.drawable_nodup {link : Link κ} (h : m.Tiled) (hrun : Run env link start m) :
    (m.drawable.flatMap Draw.cells).Nodup := by
  rw [Machine.drawable, List.flatMap_map, List.nodup_flatMap]
  refine ⟨?_, List.pairwise_iff_forall_sublist.mpr ?_⟩
  · intro r _
    refine List.nodup_range.map ?_
    intro k k' heq
    have hnonce := (Prod.mk.inj (Prod.mk.inj heq).2).2
    omega
  · intro a b hsub
    have ha : a ∈ m.reservations := hsub.subset List.mem_cons_self
    have hb : b ∈ m.reservations := hsub.subset (by simp)
    refine List.disjoint_left.mpr ?_
    intro x hx hx'
    obtain ⟨hgeneration, hcell⟩ := mem_drawCells.mp hx
    obtain ⟨hgeneration', hcell'⟩ := mem_drawCells.mp hx'
    have hsame : b.job.generation = a.job.generation := hgeneration'.symm.trans hgeneration
    have hunder : List.Sublist [a, b] (m.reservedUnder a.job.generation) := by
      have hfilter := hsub.filter fun r => decide (r.job.generation = a.job.generation)
      simpa [Machine.reservedUnder, hsame] using hfilter
    obtain ⟨base, limit, hexact, -⟩ := h.exact hrun a.job.generation
    have hpair := hexact.disjoint.sublist hunder
    simp only [List.pairwise_cons, List.mem_singleton, forall_eq] at hpair
    exact Set.disjoint_left.mp hpair.1 hcell hcell'

/-- What a scan owes lies in the reservation it was drawn from. -/
theorem ScanCall.owed_cells {s : ScanCall cfg.slots}
    (hfits : s.start.toNat + s.count.toNat ≤ 2 ^ 32) :
    (s.owed.map fun f => (f.job.generation, f.job.time32.toNat, f.nonce.toNat)).Sublist
      (Draw.cells s.draw) := by
  have hcells : Draw.cells s.draw = (nonceRange s.start s.count.toNat).map fun n =>
      (s.job.generation, s.job.time32.toNat, n.toNat) := by
    rw [Draw.cells, nonceRange, List.map_map]
    refine List.map_congr_left ?_
    intro k hk
    have hk' : k < s.count.toNat := List.mem_range.mp hk
    have hstart : s.start.toUInt32.toNat = s.start.toNat := by
      rw [UInt64.toNat_toUInt32]
      omega
    rw [ScanCall.draw, Function.comp_apply, nonceRange_toNat (hfits.trans (by decide)) hk', hstart]
  rw [hcells, ScanCall.owed, List.map_map]
  exact List.filter_sublist.map _

private theorem nodup_flatMap_of_subperm {α β : Type} {f : α → List β} {l l' : List α}
    (h : l.Subperm l') (hnodup : (l'.flatMap f).Nodup) : (l.flatMap f).Nodup := by
  obtain ⟨part, hperm, hsub⟩ := h
  exact (hperm.flatMap_right f).nodup_iff.mp (hnodup.sublist (hsub.flatMap f))

/-- SV2 scans owe every triple of generation, time and nonce once. -/
theorem owed_nodup_sv2 {first : Sv2.Session κ} (hlink : (Link.sv2 first).Fresh)
    (hrun : Run env (.sv2 first) start m) (hfew : m.link.generation ≤ 2 ^ 64) :
    (m.owed.map Found.stamp).Nodup := by
  obtain ⟨session, hsession⟩ := sv2_of_run hrun
  have hdrawn : (m.scans.map ScanCall.draw).Subperm m.drawable :=
    Multiset.coe_le.mp ((Multiset.le_add_right _ _).trans (drawn_le_of_run hlink hrun))
  have hcells := nodup_flatMap_of_subperm hdrawn ((tiled_of_run hlink hrun hfew).drawable_nodup hrun)
  rw [List.flatMap_map] at hcells
  have hfits {s : ScanCall cfg.slots} (hs : s ∈ m.scans) :
      s.start.toNat + s.count.toNat ≤ 2 ^ 32 := by
    have hspeaks := (scannedKnown_of_run hlink hrun s hs).2
    rw [hsession] at hspeaks
    exact (sourced_of_run hlink hrun).narrow s hs hspeaks
  have hkeys : (m.owed.map fun f =>
      (f.job.generation, f.job.time32.toNat, f.nonce.toNat)).Nodup := by
    rw [Machine.owed, List.map_flatMap]
    exact hcells.sublist (List.Sublist.flatMap_right _ fun s hs => ScanCall.owed_cells (hfits hs))
  refine List.Nodup.of_map (fun x => (x.1, x.2.1.toNat, x.2.2.toNat)) ?_
  rw [List.map_map]
  exact hkeys

/-- An SV1 submission carries the fields of its share. -/
theorem sent_sv1 {buffer : Text} {state : StratumState}
    (hrun : Run env (.sv1 buffer state) start m) :
    ∀ p ∈ m.sent, p.1 = .sv1 env.user p.2.job.id p.2.job.en2 p.2.job.ntime
      (hex (leBytes 8 p.2.nonce)) := by
  induction hrun with
  | refl => exact fun p hp => absurd hp List.not_mem_nil
  | @tail before next hbefore hstep ih =>
      cases hstep with
      | worker i hworker =>
          rw [hworker.sent]
          exact ih
      | main hmain =>
          rcases hmain.sent with hsame | ⟨f, rest, n, -, -, hsent, -⟩
          · rw [hsame]
            exact ih
          · rw [hsent]
            intro p hp
            rcases List.mem_append.mp hp with hp | hp
            · exact ih p hp
            · obtain rfl := List.mem_singleton.mp hp
              have hprotocol := protocol_of_run hbefore
              unfold Machine.shareOf
              cases hlink : before.link with
              | sv1 buffer' state' => rfl
              | sv2 session =>
                  rw [hlink] at hprotocol
                  cases hprotocol

/-- Until the generations come round, the tickets of all shares are distinct. -/
theorem tickets_nodup {link : Link κ} (hslots : cfg.slots ≤ 256) (hlink : link.Fresh)
    (hrun : Run env link start m) (hfew : m.link.generation ≤ 2 ^ 64) :
    (m.shares.map Found.ticket).Nodup := by
  have hstamps : (m.owed.map Found.stamp).Nodup := by
    cases hlink with
    | sv1 =>
        refine List.Nodup.of_map (fun x => (x.1, x.2.2)) ?_
        rw [List.map_map]
        exact (blocks_of_run hslots hrun hfew).owed_nodup hslots
    | sv2 state first host port user rate => exact owed_nodup_sv2 (.sv2 _ _ _ _ _ _) hrun hfew
  have howed : (m.owed.map Found.ticket).Nodup := by
    refine nodup_tickets hstamps ?_
    intro f hf
    obtain ⟨s, hs, hmem⟩ := List.mem_flatMap.mp hf
    obtain ⟨n, -, rfl⟩ := List.mem_map.mp hmem
    have hnumbered := (Link.Knows.older (scannedKnown_of_run hlink hrun s hs).1).numbered
    exact ⟨hnumbered.1, hnumbered.2.trans hfew⟩
  exact Multiset.nodup_of_le (Multiset.map_le_map (shares_le_owed hrun)) howed

/-- While the extranonces tell the generations apart, no two SV1 submissions
agree in extranonce and nonce. -/
theorem submissions_nodup (hslots : cfg.slots ≤ 256) (hrun : Run env (.sv1 [] {}) start m)
    (hfew : m.link.generation ≤ 2 ^ 64) : (m.sent.map Prod.fst).Nodup := by
  have hblocks := blocks_of_run hslots hrun hfew
  have hle : (((m.sent.map Prod.snd : List (Found cfg.rows)) : Multiset (Found cfg.rows))) ≤
      (m.owed : Multiset (Found cfg.rows)) := (sent_le_shares m).trans (shares_le_owed hrun)
  -- A share that went out is a hit of a scan, so its extranonce is that of its generation.
  have hnamed {p : Share × Found cfg.rows} (hp : p ∈ m.sent) :
      (0 < p.2.job.generation ∧ p.2.job.en2 = StratumState.extraNonce p.2.job.generation) ∧
        p.2.job.generation ≤ 2 ^ 64 := by
    have howed : p.2 ∈ m.owed :=
      Multiset.mem_coe.mp (Multiset.mem_of_le hle (Multiset.mem_coe.mpr (List.mem_map_of_mem hp)))
    obtain ⟨s, hs, hmem⟩ := List.mem_flatMap.mp howed
    obtain ⟨n, -, hfound⟩ := List.mem_map.mp hmem
    rw [← hfound]
    exact ⟨hblocks.named s hs, (hblocks.known s hs).trans hfew⟩
  have hkeys : (m.sent.map fun p => (p.2.job.generation, p.2.nonce)).Nodup := by
    have hkeys := Multiset.nodup_of_le
      (Multiset.map_le_map (f := fun f : Found cfg.rows => (f.job.generation, f.nonce)) hle)
      (hblocks.owed_nodup hslots)
    rw [Multiset.map_coe, Multiset.coe_nodup, List.map_map] at hkeys
    exact hkeys
  rw [List.Nodup, List.pairwise_map] at hkeys ⊢
  refine hkeys.imp_of_mem ?_
  intro p q hp hq hne heq
  rw [sent_sv1 hrun p hp, sent_sv1 hrun q hq] at heq
  obtain ⟨-, -, hen2, -, hnonce⟩ := Share.sv1.inj heq
  obtain ⟨⟨hpositive, hen2p⟩, hfewp⟩ := hnamed hp
  obtain ⟨⟨hpositive', hen2q⟩, hfewq⟩ := hnamed hq
  rw [hen2p, hen2q] at hen2
  have hbytes : leBytes 8 p.2.nonce = leBytes 8 q.2.nonce := by
    have hhex := congrArg unhex hnonce
    rw [unhex_hex, unhex_hex] at hhex
    exact Except.ok.inj hhex
  have hword : p.2.nonce = q.2.nonce := by
    rw [← Words.leWord_leBytes p.2.nonce, hbytes, Words.leWord_leBytes]
  exact hne (Prod.ext (extraNonce_injective hpositive hpositive' hfewp hfewq hen2) hword)

/-- Whatever the pool sends and however the threads are interleaved, every share,
wherever it is, is a hit of a scan, and there are no more of them than there are
such scans. As long as the connection has had at most `2 ^ 64` generations, a share
is sent once at most: no two shares have the same generation, time and nonce, and on
the wire no two SV1 submissions are equal. -/
theorem shares_sent_once {options : Options} (hcfg : slotsOf options = .ok cfg) {link : Link κ}
    (hlink : link.Fresh) (hrun : Run env link start m) :
    m.shares ≤ (m.owed : Multiset (Found cfg.rows)) ∧
      (m.link.generation ≤ 2 ^ 64 → (m.shares.map Found.ticket).Nodup ∧
        ((m.sent.map Prod.snd).map Found.ticket).Nodup ∧
        (link = .sv1 [] {} → (m.sent.map Prod.fst).Nodup)) := by
  have hslots : cfg.slots ≤ 256 := (slots_le_of_slotsOf hcfg).trans (by decide)
  refine ⟨shares_le_owed hrun, ?_⟩
  intro hfew
  have htickets := tickets_nodup hslots hlink hrun hfew
  refine ⟨htickets, ?_, ?_⟩
  · have hsent := Multiset.nodup_of_le
      (Multiset.map_le_map (f := Found.ticket) (sent_le_shares m)) htickets
    rw [Multiset.map_coe, Multiset.coe_nodup] at hsent
    exact hsent
  · rintro rfl
    exact submissions_nodup hslots hrun hfew

theorem shares_sent_once_sample :
    ∃ m : Machine sampleConfig Unit, Run (sampleEnv []) (.sv1 [] {}) {} m ∧
      m.sent.length = 1 ∧ (m.shares.map Found.ticket).Nodup := by
  obtain ⟨m, state, job, hrun, hmines, hgeneration, -, -, -, -, -, -, share, htrace⟩ :=
    sample_submitted []
  have hfew : m.link.generation ≤ 2 ^ 64 := by
    rw [hmines.link]
    exact hgeneration.le.trans (by decide)
  refine ⟨m, hrun, ?_, ((shares_sent_once slotsOf_sample .sv1 hrun).2 hfew).1⟩
  rw [Machine.sent, htrace]
  rfl

end Supryolo.Miner
