import Supryolo.Miner.Circulation

namespace Supryolo.Miner

variable {cfg : Config} {κ : Type} {env : Env κ} {m m' : Machine cfg κ} {i : Fin cfg.slots}

structure ScanCall (slots : Nat) where
  worker : Fin slots
  job : Job
  start : UInt64
  count : UInt32

/-- The calls of `Backend::scan` so far. -/
def Machine.scans (m : Machine cfg κ) : List (ScanCall cfg.slots) :=
  m.trace.filterMap fun
    | .scanned worker job start count => some ⟨worker, job, start, count⟩
    | _ => none

/-- The job a worker carries. -/
def Phase.job? : Phase → Option Job
  | .holding job _ => some job
  | .scanned job _ => some job
  | _ => none

/-- A worker that has thrown does not come back. -/
def Phase.halted : Phase → Bool
  | .throwing _ => true
  | .finished => true
  | _ => false

inductive WorkerEffect (i : Fin cfg.slots) (m m' : Machine cfg κ) : Prop
  | moved (phase : Phase) (hworker : m'.workers i = { m.workers i with phase := phase })
      (hphase : phase.job? = none)
      (halted : (m.workers i).phase.halted = true → phase.halted = true)
      (hfound : m'.found = m.found) (hscans : m'.scans = m.scans)
  | took (j : Job) (reserved : UInt64) (hwork : m.work = some j)
      (hworker : m'.workers i = { m.workers i with phase := .holding j reserved })
      (halted : (m.workers i).phase.halted = false)
      (hfound : m'.found = m.found) (hscans : m'.scans = m.scans)
  | refused (j : Job) (reserved : UInt64) (e : String)
      (hphase : (m.workers i).phase = .holding j reserved)
      (hworker : m'.workers i = { (m.workers i).adopt j with phase := .throwing e })
      (hfound : m'.found = m.found) (hscans : m'.scans = m.scans)
  | scanned (j j' : Job) (reserved start : UInt64) (count : UInt32) (r : Scan)
      (hphase : (m.workers i).phase = .holding j reserved)
      (hrange : ((m.workers i).adopt j).range i (cfg.batch i) j reserved = .ok (j', start, count))
      (hscan : (cfg.backend i).ScansTo j'.work start count (.ok r))
      (hworker : m'.workers i = { (m.workers i).adopt j with
        phase := .scanned j' r, cursor := ((m.workers i).adopt j).cursor + r.hashes })
      (hfound : m'.found = m.found) (hscans : m'.scans = m.scans ++ [⟨i, j', start, count⟩])
  | failed (j j' : Job) (reserved start : UInt64) (count : UInt32) (e : String)
      (hphase : (m.workers i).phase = .holding j reserved)
      (hrange : ((m.workers i).adopt j).range i (cfg.batch i) j reserved = .ok (j', start, count))
      (hworker : m'.workers i = { (m.workers i).adopt j with phase := .throwing e })
      (hfound : m'.found = m.found) (hscans : m'.scans = m.scans ++ [⟨i, j', start, count⟩])
  | pushed (j : Job) (r : Scan) (hphase : (m.workers i).phase = .scanned j r)
      (hworker : m'.workers i = { m.workers i with phase := .checking })
      (hfound : m'.found = m.found ++ r.nonces.map fun n => Found.mk j n (cfg.row i))
      (hscans : m'.scans = m.scans)

private theorem moved_setPhase {old phase : Phase} (hold : (m.workers i).phase = old)
    (halted : old.halted = true → phase.halted = true) (hphase : phase.job? = none) :
    WorkerEffect i m (m.setPhase i phase) :=
  .moved phase (workers_setPhase m i phase) hphase (by rw [hold]; exact halted) rfl rfl

theorem takeWork_effect (hready : (m.workers i).phase = .ready) :
    WorkerEffect i m (m.takeWork i) := by
  have halted : (m.workers i).phase.halted = false := by
    rw [hready]
    rfl
  unfold Machine.takeWork
  cases hwork : m.work with
  | none => exact moved_setPhase hready (by simp [Phase.halted]) rfl
  | some j =>
      have hsync : (m.syncCursor j).workers = m.workers ∧ (m.syncCursor j).found = m.found ∧
          (m.syncCursor j).trace = m.trace := by
        unfold Machine.syncCursor
        split <;> exact ⟨rfl, rfl, rfl⟩
      obtain ⟨hworkers, hfound, htrace⟩ := hsync
      cases hsv2 : j.sv2 with
      | false =>
          simp only [hsv2, Bool.false_eq_true, if_false]
          exact .took j 0 hwork (workers_setPhase m i _) halted rfl rfl
      | true =>
          simp only [hsv2, if_true]
          cases Sv2.partition j.time32 0 (m.syncCursor j).sharedCursor (cfg.batch i) with
          | error e =>
              refine .moved (.throwing e) ?_ rfl (fun _ => rfl) hfound ?_
              · rw [workers_setPhase, hworkers]
              · simp [Machine.scans, Machine.setPhase, Machine.setWorker, htrace]
          | ok p =>
              refine .took j (m.syncCursor j).sharedCursor hwork ?_ halted hfound ?_
              · rw [workers_setPhase]
                dsimp only
                rw [hworkers]
              · simp [Machine.scans, Machine.setPhase, Machine.setWorker, htrace]

theorem WorkerStep.effect (h : WorkerStep i m m') : WorkerEffect i m m' := by
  cases h with
  | construct hphase => exact moved_setPhase hphase (by simp [Phase.halted]) rfl
  | constructFailed e hphase => exact moved_setPhase hphase (by simp [Phase.halted]) rfl
  | check hphase =>
      split
      · exact moved_setPhase hphase (by simp [Phase.halted]) rfl
      · exact moved_setPhase hphase (by simp [Phase.halted]) rfl
  | take hphase => exact takeWork_effect hphase
  | scan j j' reserved start count outcome hphase hrange houtcome =>
      have hscans (next : Machine cfg κ)
          (htrace : next.trace = m.trace ++ [.scanned i j' start count]) :
          next.scans = m.scans ++ [⟨i, j', start, count⟩] := by
        simp [Machine.scans, htrace]
      cases outcome with
      | error e =>
          exact .failed j j' reserved start count e hphase hrange (workers_setWorker _ i _) rfl
            (hscans _ rfl)
      | ok r =>
          have hscan : (cfg.backend i).ScansTo j'.work start count (.ok r) := by
            rcases houtcome with hscan | ⟨e, he⟩
            · exact hscan
            · cases he
          exact .scanned j j' reserved start count r hphase hrange hscan (workers_setWorker _ i _)
            rfl (hscans _ rfl)
  | scanRefused j reserved e hphase hrange =>
      exact .refused j reserved e hphase (workers_setWorker _ i _) rfl rfl
  | push j r hphase =>
      unfold Machine.pushFound
      split
      · exact moved_setPhase hphase (by simp [Phase.halted]) rfl
      · exact .pushed j r hphase (workers_setPhase _ i _) rfl rfl
  | fail e hphase => exact .moved .finished (workers_setPhase _ i _) rfl (fun _ => rfl) rfl rfl

/-- The other workers stand where they stood. -/
theorem WorkerStep.others (h : WorkerStep i m m') {k : Fin cfg.slots} (hk : k ≠ i) :
    m'.workers k = m.workers k := by
  have hset (next : Machine cfg κ) (w : Worker) (hworkers : next.workers = m.workers) :
      (next.setWorker i w).workers k = m.workers k := by
    rw [Machine.setWorker, ← hworkers]
    exact Function.update_of_ne hk _ _
  cases h with
  | construct => exact hset m _ rfl
  | constructFailed => exact hset m _ rfl
  | check => exact hset m _ rfl
  | take =>
      unfold Machine.takeWork
      split
      · exact hset m _ rfl
      · rename_i j _
        have hworkers : (m.syncCursor j).workers = m.workers := by
          unfold Machine.syncCursor
          split <;> rfl
        split
        · dsimp only
          split
          · exact hset _ _ hworkers
          · exact hset _ _ hworkers
        · exact hset m _ rfl
  | scan j j' reserved start count outcome =>
      cases outcome
      · exact hset _ _ rfl
      · exact hset _ _ rfl
  | scanRefused => exact hset m _ rfl
  | push j r =>
      unfold Machine.pushFound
      split
      · exact hset m _ rfl
      · exact hset _ _ rfl
  | fail => exact hset _ _ rfl

/-- The connection loop does not scan. -/
theorem MainStep.scans (h : MainStep env m m') : m'.scans = m.scans := by
  rcases h.sameWorkers.trace with htrace | ⟨message, htrace⟩ | ⟨id, share, f, htrace⟩ <;>
    simp [Machine.scans, htrace]

/-- An SV2 range is the reservation under a rolled time; an SV1 range starts at
the worker's own cursor. -/
theorem range_ok {w : Worker} {index : Nat} {batch count : UInt32} {j j' : Job}
    {reserved start : UInt64} (h : w.range index batch j reserved = .ok (j', start, count)) :
    (j.sv2 = true ∧ ∃ p, Sv2.partition j.time32 0 reserved batch = .ok p ∧ j' = j.roll p.ntime ∧
        start = p.nonce.toUInt64 ∧ count = p.count) ∨
      (j.sv2 = false ∧ j' = j ∧ w.cursor ≤ 0x100000000000000 - batch.toUInt64 ∧
        start = (index.toUInt64 <<< 56) ||| w.cursor ∧ count = batch) := by
  unfold Worker.range at h
  cases hsv2 : j.sv2 with
  | true =>
      rw [if_pos hsv2] at h
      obtain ⟨p, hp, h⟩ := Loops.bind_eq_ok.mp h
      obtain ⟨hjob, hrest⟩ := Prod.mk.inj (Loops.pure_eq_ok.mp h)
      obtain ⟨hstart, hcount⟩ := Prod.mk.inj hrest
      exact Or.inl ⟨rfl, p, hp, hjob.symm, hstart.symm, hcount.symm⟩
  | false =>
      rw [if_neg (by rw [hsv2]; decide)] at h
      obtain ⟨hroom, h⟩ := Loops.guard_eq_ok.mp h
      obtain ⟨hjob, hrest⟩ := Prod.mk.inj (Loops.pure_eq_ok.mp h)
      obtain ⟨hstart, hcount⟩ := Prod.mk.inj hrest
      exact Or.inr ⟨rfl, hjob.symm, UInt64.not_lt.mp hroom, hstart.symm, hcount.symm⟩

/-- Whatever a worker carries is known to the session, and no worker is ahead of
the published work. -/
structure Machine.Carries (m : Machine cfg κ) : Prop where
  knows : ∀ i j, (m.workers i).phase.job? = some j → m.link.Knows m.poolView j
  speaks : ∀ i j, (m.workers i).phase.job? = some j → m.link.Speaks j
  ahead : ∀ i, m.Ahead (m.workers i).generation
  holds : ∀ i j reserved, (m.workers i).phase = .holding j reserved →
    m.Ahead j.generation ∧ (m.workers i).generation ≤ j.generation

theorem adopt_generation (w : Worker) (j : Job) : (w.adopt j).generation = j.generation := by
  unfold Worker.adopt
  split <;> rfl

theorem Link.knows_roll {v : PoolView} {link : Link κ} {j : Job} (hsv2 : j.sv2 = true)
    (hknows : link.Knows v j) (hspeaks : link.Speaks j) (time : UInt32) :
    link.Knows v (j.roll time) ∧ link.Speaks (j.roll time) := by
  cases link with
  | sv1 buffer state =>
      rw [hspeaks.1] at hsv2
      cases hsv2
  | sv2 session =>
      obtain ⟨-, -, -, -, hsame, -⟩ := j.roll_same time
      exact ⟨Sv2.Session.Knows.roll hknows time, hsame.trans hsv2⟩

/-- The job that is scanned is known like the one that was taken. -/
theorem knows_range {v : PoolView} {link : Link κ} {w : Worker} {index : Nat}
    {batch count : UInt32} {j j' : Job} {reserved start : UInt64} (hknows : link.Knows v j)
    (hspeaks : link.Speaks j) (h : w.range index batch j reserved = .ok (j', start, count)) :
    link.Knows v j' ∧ link.Speaks j' := by
  rcases range_ok h with ⟨hsv2, p, -, rfl, -⟩ | ⟨-, rfl, -⟩
  · exact Link.knows_roll hsv2 hknows hspeaks p.ntime
  · exact ⟨hknows, hspeaks⟩

private theorem Machine.Carries.worker (h : m.Carries) (hpublished : m.Published)
    (hstep : WorkerStep i m m') :
    (∀ j, (m'.workers i).phase.job? = some j → m.link.Knows m.poolView j ∧ m.link.Speaks j) ∧
      m.Ahead (m'.workers i).generation ∧
      ∀ j reserved, (m'.workers i).phase = .holding j reserved →
        m.Ahead j.generation ∧ (m'.workers i).generation ≤ j.generation := by
  have hholding {j : Job} {reserved : UInt64} (hphase : (m.workers i).phase = .holding j reserved) :
      m.link.Knows m.poolView j ∧ m.link.Speaks j := by
    have hjob : (m.workers i).phase.job? = some j := by
      rw [hphase]
      rfl
    exact ⟨h.knows i j hjob, h.speaks i j hjob⟩
  cases hstep.effect with
  | moved phase hworker hphase =>
      rw [hworker]
      refine ⟨fun j hj => ?_, h.ahead i, fun j reserved hj => ?_⟩
      · rw [hphase] at hj
        cases hj
      · have hjob := congrArg Phase.job? hj
        rw [hphase] at hjob
        cases hjob
  | took j reserved hwork hworker =>
      rw [hworker]
      refine ⟨fun j' hj' => ?_, h.ahead i, fun j' reserved' hj' => ?_⟩
      · cases hj'
        exact ⟨hpublished.knows j hwork, hpublished.speaks j hwork⟩
      · cases hj'
        refine ⟨⟨(hpublished.dated j hwork).generation, ?_⟩, (h.ahead i).work j hwork⟩
        intro other hother
        rw [Option.some.inj (hwork.symm.trans hother)]
  | refused j reserved e hphase hworker =>
      rw [hworker, adopt_generation]
      refine ⟨fun j' hj' => (by cases hj'), (h.holds i j reserved hphase).1, fun j' _ hj' => (by cases hj')⟩
  | scanned j j' reserved start count r hphase hrange hscan hworker =>
      rw [hworker, adopt_generation]
      refine ⟨fun made hmade => ?_, (h.holds i j reserved hphase).1, fun made _ hmade => (by cases hmade)⟩
      cases hmade
      obtain ⟨hknows, hspeaks⟩ := hholding hphase
      exact knows_range hknows hspeaks hrange
  | failed j j' reserved start count e hphase hrange hworker =>
      rw [hworker, adopt_generation]
      refine ⟨fun made hmade => (by cases hmade), (h.holds i j reserved hphase).1,
        fun made _ hmade => (by cases hmade)⟩
  | pushed j r hphase hworker =>
      rw [hworker]
      exact ⟨fun j hj => (by cases hj), h.ahead i, fun j reserved hj => (by cases hj)⟩

theorem Machine.Carries.step (h : m.Carries) (hpublished : m.Published)
    (hsound : m.link.Sound m.poolView) (hstep : Step env m m') : m'.Carries := by
  have hmoves := hstep.moves hsound
  have hworkers : ∀ k, (∀ j, (m'.workers k).phase.job? = some j →
      m.link.Knows m.poolView j ∧ m.link.Speaks j) ∧ m.Ahead (m'.workers k).generation ∧
      ∀ j reserved, (m'.workers k).phase = .holding j reserved →
        m.Ahead j.generation ∧ (m'.workers k).generation ≤ j.generation := by
    intro k
    have hkept (hsame : m'.workers k = m.workers k) := And.intro
      (fun j hj => And.intro (h.knows k j (hsame ▸ hj)) (h.speaks k j (hsame ▸ hj)))
      (And.intro (hsame ▸ h.ahead k) (hsame ▸ h.holds k))
    cases hstep with
    | main hmain => exact hkept (congrFun hmain.sameWorkers.workers k)
    | worker i hworker =>
        by_cases hk : k = i
        · subst hk
          exact h.worker hpublished hworker
        · exact hkept (hworker.others hk)
  refine ⟨?_, ?_, ?_, ?_⟩
  · intro k j hj
    exact hmoves.knows j ((hworkers k).1 j hj).1
  · intro k j hj
    exact hmoves.speaks j ((hworkers k).1 j hj).2
  · intro k
    exact (hworkers k).2.1.step hsound hstep
  · intro k j reserved hj
    obtain ⟨hahead, hle⟩ := (hworkers k).2.2 j reserved hj
    exact ⟨hahead.step hsound hstep, hle⟩

theorem carries_of_run {link : Link κ} {start : View cfg.rows} (hlink : link.Fresh)
    (hrun : Run env link start m) : m.Carries := by
  induction hrun with
  | refl =>
      refine ⟨fun i j hj => (by cases hj), fun i j hj => (by cases hj), fun i => ?_,
        fun i j reserved hj => (by cases hj)⟩
      exact ⟨Nat.zero_le _, fun _ _ => Nat.zero_le _⟩
  | tail hbefore hstep ih =>
      exact ih.step (published_of_run hlink hbefore) (sound_of_run hlink hbefore) hstep

end Supryolo.Miner
