import Supryolo.Lib.Ranking
import Supryolo.Miner.Deliveries

namespace Supryolo.Miner

variable {cfg : Config} {κ : Type} {env : Env κ} {m m' : Machine cfg κ} {start : View cfg.rows}

/-- What a connection that drains leaves alone. Verdicts still come in. -/
structure Machine.WindsDown (m m' : Machine cfg κ) : Prop where
  draining : m'.draining = true
  work : m'.work = m.work
  sent : m'.sent = m.sent
  nextId : m'.nextId = m.nextId
  submissions : m'.ledger.submissions = m.ledger.submissions
  candidates : m'.ledger.view.blockCandidates = m.ledger.view.blockCandidates
  outstanding : m'.ledger.outstanding.Sublist m.ledger.outstanding

theorem Machine.WindsDown.refl (hdraining : m.draining = true) : m.WindsDown m :=
  ⟨hdraining, rfl, rfl, rfl, rfl, rfl, List.Sublist.refl _⟩

theorem Machine.WindsDown.trans {m₁ m₂ m₃ : Machine cfg κ} (h : m₁.WindsDown m₂)
    (h' : m₂.WindsDown m₃) : m₁.WindsDown m₃ :=
  ⟨h'.draining, h'.work.trans h.work, h'.sent.trans h.sent, h'.nextId.trans h.nextId,
    h'.submissions.trans h.submissions, h'.candidates.trans h.candidates,
    h'.outstanding.trans h.outstanding⟩

private theorem windsDown_of_same (hdraining : m.draining = true) (hsame : m'.draining = m.draining)
    (hwork : m'.work = m.work) (hsent : m'.sent = m.sent) (hnextId : m'.nextId = m.nextId)
    (hledger : m'.ledger = m.ledger) : m.WindsDown m' :=
  ⟨hsame.trans hdraining, hwork, hsent, hnextId, by rw [hledger], by rw [hledger],
    by rw [hledger]⟩

/-- A share that comes up while the connection drains is passed over. -/
theorem checkShare_draining (hdraining : m.draining = true) (f : Found cfg.rows) :
    m.checkShare f = .ok none := by
  rw [Machine.checkShare, if_pos hdraining]
  rfl

theorem submitOne_draining (hdraining : m.draining = true) (f : Found cfg.rows) :
    m.submitOne env f = .ok m := by
  rw [Machine.submitOne, checkShare_draining hdraining]
  rfl

theorem afterFailure_draining (hdraining : m.draining = true) (f : Found cfg.rows) :
    m.afterFailure f = m := by
  rw [Machine.afterFailure, checkShare_draining hdraining]

theorem Ledger.account_outstanding {rows : Nat} (l : Ledger rows) (message : Json) :
    (l.account message).outstanding.Sublist l.outstanding ∧
      (l.account message).submissions = l.submissions ∧
      (l.account message).view.blockCandidates = l.view.blockCandidates := by
  unfold Ledger.account
  split
  · exact ⟨List.Sublist.refl _, rfl, rfl⟩
  · split
    · exact ⟨List.Sublist.refl _, rfl, rfl⟩
    · exact ⟨(List.kerase_sublist _ _).map _, rfl, rfl⟩

theorem publish_windingDown (hdraining : m.draining = true) (authorized fresh : Bool) :
    m.publish authorized fresh = m := by
  rw [Machine.publish, hdraining]
  rfl

/-- A message is only looked at for the verdict it may carry. -/
theorem handleMessage_draining (hdraining : m.draining = true) {message : Json}
    {next : Machine cfg κ} (hhandle : m.handleMessage message = .ok next) :
    ∃ link, next = { m with
      trace := m.trace ++ [Event.received message], link := link
      ledger := m.ledger.account message } := by
  rcases handleMessage_ok hhandle with
    ⟨buffer, state, state', job, -, -, rfl⟩ | ⟨session, -, rfl⟩
  · exact ⟨_, publish_windingDown (m := { m with
      trace := m.trace ++ [Event.received message], link := Link.sv1 buffer state'
      ledger := m.ledger.account message }) hdraining _ _⟩
  · exact ⟨_, publish_windingDown (m := { m with
      trace := m.trace ++ [Event.received message], link := Link.sv2 session
      ledger := m.ledger.account message }) hdraining _ _⟩

theorem Step.windsDown (hstep : Step env m m') (hdraining : m.draining = true) :
    m.WindsDown m' := by
  have hsame := @windsDown_of_same cfg κ m m' hdraining
  cases hstep with
  | worker i hworker =>
      obtain ⟨-, -, hwork, hledger, hnextId, -, hkept, -⟩ := hworker.sameConnection
      exact hsame hkept hwork hworker.sent hnextId hledger
  | main hmain =>
      cases hmain with
      | iterate expired early later =>
          have hquiet : m.beginIteration later = { m with main := .polling } := by
            rw [Machine.beginIteration, hdraining, Bool.not_true, Bool.and_false]
            rfl
          rw [hquiet]
          exact windsDown_of_same hdraining rfl rfl rfl rfl rfl
      | handle next message rest hwhere hhandle =>
          obtain ⟨houtstanding, hsubmissions, hcandidates⟩ :=
            m.ledger.account_outstanding message
          obtain ⟨link, rfl⟩ := handleMessage_draining hdraining hhandle
          exact ⟨hdraining, rfl, by simp [Machine.sent], rfl, hsubmissions, hcandidates,
            houtstanding⟩
      | submit next f rest hwhere hsubmit =>
          rw [submitOne_draining hdraining] at hsubmit
          obtain rfl := Except.ok.inj hsubmit
          exact windsDown_of_same hdraining rfl rfl rfl rfl rfl
      | submitFailed f rest e =>
          rw [afterFailure_draining hdraining]
          exact windsDown_of_same hdraining rfl rfl rfl rfl rfl
      | sendBroken f rest e =>
          rw [afterFailure_draining hdraining]
          exact windsDown_of_same hdraining rfl rfl rfl rfl rfl
      | _ => exact windsDown_of_same hdraining rfl rfl rfl rfl rfl

/-- Workers are told to stop when the connection drains and when it has ended. -/
structure Machine.Stopping (m : Machine cfg κ) : Prop where
  draining : m.draining = true → m.stop = true
  ended : ∀ e, m.main = .ended e → m.stop = true

theorem beginIteration_cases (m : Machine cfg κ) (expired : Bool) :
    m.beginIteration expired = { m with draining := true, stop := true, main := .polling } ∨
      m.beginIteration expired = { m with main := .polling } := by
  unfold Machine.beginIteration
  split
  · exact Or.inl rfl
  · exact Or.inr rfl

theorem Step.stop (hstep : Step env m m') (hstop : m.stop = true) : m'.stop = true := by
  cases hstep with
  | worker i hworker => exact hworker.sameConnection.stop.trans hstop
  | main hmain =>
      cases hmain with
      | iterate expired early later =>
          rcases beginIteration_cases m later with hnext | hnext
          · rw [hnext]
          · rw [hnext]
            exact hstop
      | handle next message rest hwhere hhandle =>
          obtain ⟨link, work, activated, rfl⟩ := handleMessage_next hhandle
          exact hstop
      | submit next f rest hwhere hsubmit =>
          rcases submitOne_next hsubmit with rfl | ⟨n, link, share, -, rfl, -⟩
          · exact hstop
          · exact hstop
      | poll => exact hstop
      | handled => exact hstop
      | collect => exact hstop
      | submitted => exact hstop
      | wait => exact hstop
      | _ => rfl

theorem stopping_of_run {link : Link κ} (hrun : Run env link start m) : m.Stopping := by
  induction hrun with
  | refl => exact ⟨fun h => (by cases h), fun e h => (by cases h)⟩
  | @tail before next _ hstep ih =>
      have hkept (hstop : before.stop = true) := hstep.stop hstop
      cases hstep with
      | worker i hworker =>
          obtain ⟨-, hmain, -, -, -, -, hdraining, -⟩ := hworker.sameConnection
          exact ⟨fun h => hkept (ih.draining (hdraining.symm.trans h)),
            fun e h => hkept (ih.ended e (hmain.symm.trans h))⟩
      | main hmain =>
          cases hmain with
          | iterate expired early later hwhere =>
              rcases beginIteration_cases before later with hnext | hnext
              · rw [hnext]
                exact ⟨fun _ => rfl, fun e h => (by cases h)⟩
              · rw [hnext] at hkept ⊢
                exact ⟨fun h => hkept (ih.draining h), fun e h => (by cases h)⟩
          | handle next message rest hwhere hhandle =>
              obtain ⟨link, work, activated, rfl⟩ := handleMessage_next hhandle
              exact ⟨fun h => hkept (ih.draining h), fun e h => (by cases h)⟩
          | submit next f rest hwhere hsubmit =>
              rcases submitOne_next hsubmit with rfl | ⟨n, link, share, -, rfl, -⟩
              · exact ⟨fun h => hkept (ih.draining h), fun e h => (by cases h)⟩
              · exact ⟨fun h => hkept (ih.draining h), fun e h => (by cases h)⟩
          | poll => exact ⟨fun h => hkept (ih.draining h), fun e h => (by cases h)⟩
          | handled => exact ⟨fun h => hkept (ih.draining h), fun e h => (by cases h)⟩
          | collect => exact ⟨fun h => hkept (ih.draining h), fun e h => (by cases h)⟩
          | submitted => exact ⟨fun h => hkept (ih.draining h), fun e h => (by cases h)⟩
          | wait => exact ⟨fun h => hkept (ih.draining h), fun e h => (by cases h)⟩
          | _ => exact ⟨fun _ => rfl, fun _ _ => rfl⟩

/-- How many steps a worker that is told to stop still has to take. -/
def Phase.rank : Phase → Nat
  | .ready => 4
  | .holding _ _ => 3
  | .scanned _ _ => 2
  | .starting => 2
  | .checking => 1
  | .throwing _ => 1
  | .finished => 0

/-- Whether a worker that is told to stop still scans. -/
def Phase.scansYet : Phase → Nat
  | .ready => 1
  | .holding _ _ => 1
  | _ => 0

def Machine.scansBy (m : Machine cfg κ) (i : Fin cfg.slots) : List (ScanCall cfg.slots) :=
  m.scans.filter fun s => s.worker = i

/-- The rank of all threads together. -/
def Machine.rank (m : Machine cfg κ) : Nat := ∑ i, (m.workers i).phase.rank

private theorem takeWork_phase (m : Machine cfg κ) (i : Fin cfg.slots) :
    ((m.takeWork i).workers i).phase.rank ≤ 3 := by
  have hle (n : Machine cfg κ) (phase : Phase) (hphase : phase.rank ≤ 3) :
      ((n.setPhase i phase).workers i).phase.rank ≤ 3 := by
    rw [workers_setPhase]
    exact hphase
  unfold Machine.takeWork
  split
  · exact hle _ _ (by decide)
  · split
    · dsimp only
      split
      · exact hle _ _ (by simp [Phase.rank])
      · exact hle _ _ (by simp [Phase.rank])
    · exact hle _ _ (by simp [Phase.rank])

/-- Once it is told to stop, every step brings a worker closer to its end. -/
theorem WorkerStep.rank {i : Fin cfg.slots} (hstep : WorkerStep i m m') (hstop : m.stop = true) :
    (m'.workers i).phase.rank < (m.workers i).phase.rank := by
  cases hstep with
  | construct hphase => rw [hphase, workers_setPhase]; simp [Phase.rank]
  | constructFailed e hphase => rw [hphase, workers_setPhase]; simp [Phase.rank]
  | check hphase => rw [hphase, workers_setPhase, hstop]; simp [Phase.rank]
  | take hphase =>
      rw [hphase]
      exact Nat.lt_succ_of_le (takeWork_phase m i)
  | scan j j' reserved start count outcome hphase =>
      rw [hphase]
      cases outcome <;> simp [Machine.scanRange, workers_setWorker, Phase.rank]
  | scanRefused j reserved e hphase => rw [hphase, workers_setWorker]; simp [Phase.rank]
  | push j r hphase =>
      rw [hphase]
      unfold Machine.pushFound
      split <;> simp [workers_setPhase, Phase.rank]
  | fail e hphase => rw [hphase, workers_setPhase]; simp [Phase.rank]

theorem WorkerStep.machineRank {i : Fin cfg.slots} (hstep : WorkerStep i m m')
    (hstop : m.stop = true) : m'.rank < m.rank := by
  have hsum := Atomic.sum_others (f := fun k => (m.workers k).phase.rank)
    (g := fun k => (m'.workers k).phase.rank) (i := i) fun k hk => by rw [hstep.others hk]
  have hlt := hstep.rank hstop
  rw [Machine.rank, Machine.rank]
  omega

theorem phase_rank_le (phase : Phase) : phase.rank ≤ 4 := by
  cases phase <;> simp [Phase.rank]

theorem rank_le (m : Machine cfg κ) : m.rank ≤ 4 * cfg.slots := by
  have hle : ∀ i ∈ Finset.univ, (m.workers i).phase.rank ≤ 4 :=
    fun i _ => phase_rank_le (m.workers i).phase
  calc m.rank ≤ ∑ _i : Fin cfg.slots, 4 := Finset.sum_le_sum hle
    _ = 4 * cfg.slots := by simp [Nat.mul_comm]

/-- A thread that has not finished can go on. -/
theorem worker_progress (env : Env κ) (m : Machine cfg κ) (i : Fin cfg.slots) :
    (∃ m', Step env m m') ∨ (m.workers i).phase = .finished := by
  have hnext {m' : Machine cfg κ} (h : WorkerStep i m m') :
      (∃ m', Step env m m') ∨ (m.workers i).phase = .finished := Or.inl ⟨m', .worker i h⟩
  cases hphase : (m.workers i).phase with
  | starting => exact hphase ▸ hnext (.construct m hphase)
  | checking => exact hphase ▸ hnext (.check m hphase)
  | ready => exact hphase ▸ hnext (.take m hphase)
  | holding job reserved =>
      cases hrange : ((m.workers i).adopt job).range i (cfg.batch i) job reserved with
      | error e => exact hphase ▸ hnext (.scanRefused m job reserved e hphase hrange)
      | ok range =>
          obtain ⟨j', first, count⟩ := range
          exact hphase ▸ hnext (.scan m job j' reserved first count (.error "") hphase hrange
            (Or.inr ⟨"", rfl⟩))
  | scanned job r => exact hphase ▸ hnext (.push m job r hphase)
  | throwing message => exact hphase ▸ hnext (.fail m message hphase)
  | finished => exact Or.inr rfl

private theorem lowers_of_ended (env : Env κ) :
    Ranking.Lowers (Step env) (fun m : Machine cfg κ => (∃ e, m.main = .ended e) ∧ m.stop = true)
      Machine.rank := by
  rintro m m' ⟨⟨e, hended⟩, hstop⟩ hstep
  have hstop' := hstep.stop hstop
  cases hstep with
  | main hmain => exact absurd hended (hmain.running e)
  | worker i hworker =>
      exact ⟨⟨⟨e, hworker.sameConnection.main.trans hended⟩, hstop'⟩, hworker.machineRank hstop⟩

theorem joined_or_step (env : Env κ) (m : Machine cfg κ) :
    (∃ next, Step env m next) ∨ ∀ i, (m.workers i).phase = .finished := by
  by_cases hall : ∀ i, (m.workers i).phase = .finished
  · exact Or.inr hall
  · obtain ⟨i, hi⟩ := not_forall.mp hall
    exact Or.inl ((worker_progress env m i).resolve_right hi)

theorem exists_joined {link : Link κ} (hrun : Run env link start m) {e : Option String}
    (hended : m.main = .ended e) :
    ∃ m', Relation.ReflTransGen (Step env) m m' ∧ ∀ i, (m'.workers i).phase = .finished :=
  (lowers_of_ended env).reaches (fun m' _ => joined_or_step env m')
    ⟨⟨e, hended⟩, (stopping_of_run hrun).ended e hended⟩

/-- The threads can be joined: once the connection loop has ended, for whatever
reason, the workers take four steps each at most, whichever of them moves, and
unless all of them have finished one of them can move. -/
theorem threads_join {link : Link κ} (hrun : Run env link start m) {e : Option String}
    (hended : m.main = .ended e) :
    (∀ n m', Ranking.Takes (Step env) n m m' → n ≤ 4 * cfg.slots) ∧
      (∀ m', Relation.ReflTransGen (Step env) m m' →
        (∃ next, Step env m' next) ∨ ∀ i, (m'.workers i).phase = .finished) ∧
      ∃ m', Relation.ReflTransGen (Step env) m m' ∧ ∀ i, (m'.workers i).phase = .finished := by
  have hinvariant : (∃ e, m.main = .ended e) ∧ m.stop = true :=
    ⟨⟨e, hended⟩, (stopping_of_run hrun).ended e hended⟩
  refine ⟨?_, fun m' _ => joined_or_step env m', exists_joined hrun hended⟩
  intro n m' htakes
  have hle := ((lowers_of_ended env).takes_le hinvariant htakes).2
  exact (Nat.le_of_add_right_le hle).trans (rank_le m)

theorem threads_join_sample :
    ∃ m m' : Machine sampleConfig Unit, Run (sampleEnv []) (.sv1 [] {}) {} m ∧
      m.main = .ended none ∧ Relation.ReflTransGen (Step (sampleEnv [])) m m' ∧
      ∀ i, (m'.workers i).phase = .finished := by
  obtain ⟨m, state, job, hrun, hmines, -, -, hledger, -⟩ := sample_mines []
  have hloop : m.continues true false = false := by
    rw [Machine.continues, hledger, hmines.draining]
    rfl
  have hleave : Step (sampleEnv []) m (m.finish none) :=
    .main (.leave m true false hmines.main hloop)
  obtain ⟨-, -, m', hsteps, hfinished⟩ := threads_join (hrun.tail hleave) rfl
  exact ⟨_, m', hrun.tail hleave, rfl, hsteps, hfinished⟩

/-- A worker that is told to stop begins at most one more scan. -/
theorem WorkerStep.scansYet {i : Fin cfg.slots} (hstep : WorkerStep i m m') (hstop : m.stop = true) :
    (m'.scansBy i).length + (m'.workers i).phase.scansYet ≤
      (m.scansBy i).length + (m.workers i).phase.scansYet := by
  have hscans {scans : List (ScanCall cfg.slots)} (h : m'.scans = scans) :
      m'.scansBy i = scans.filter fun s => s.worker = i := by rw [Machine.scansBy, h]
  have hlt := hstep.rank hstop
  cases hstep.effect with
  | moved phase hworker hphase halted hfound hsame =>
      rw [hscans hsame, ← Machine.scansBy]
      rw [hworker] at hlt ⊢
      have hle := phase_rank_le (m.workers i).phase
      cases phase with
      | ready => exact absurd hle (not_le.mpr hlt)
      | holding => cases hphase
      | _ => exact Nat.le_add_right _ _
  | took j reserved hwork hworker halted hfound hsame =>
      rw [hscans hsame, ← Machine.scansBy]
      rw [hworker] at hlt ⊢
      cases hold : (m.workers i).phase with
      | ready => exact le_refl _
      | holding => exact le_refl _
      | _ =>
          rw [hold] at hlt
          exact absurd hlt (by simp [Phase.rank])
  | refused j reserved e hphase hworker hfound hsame =>
      rw [hscans hsame, ← Machine.scansBy, hworker]
      simp [Phase.scansYet]
  | scanned j j' reserved start count r hphase hrange hscan hworker hfound hsame =>
      rw [hscans hsame, hworker, hphase]
      simp [Phase.scansYet, Machine.scansBy]
  | failed j j' reserved start count e hphase hrange hworker hfound hsame =>
      rw [hscans hsame, hworker, hphase]
      simp [Phase.scansYet, Machine.scansBy]
  | pushed j r hphase hworker hfound hsame =>
      rw [hscans hsame, ← Machine.scansBy, hworker]
      simp [Phase.scansYet]

theorem WorkerStep.scansBy_others {i k : Fin cfg.slots} (hstep : WorkerStep k m m') (hk : i ≠ k) :
    m'.scansBy i = m.scansBy i := by
  have hsame (hscans : m'.scans = m.scans) : m'.scansBy i = m.scansBy i := by
    rw [Machine.scansBy, hscans, Machine.scansBy]
  have hmore {s : ScanCall cfg.slots} (hworker : s.worker = k) (hscans : m'.scans = m.scans ++ [s]) :
      m'.scansBy i = m.scansBy i := by
    rw [Machine.scansBy, hscans, List.filter_append,
      List.filter_singleton, hworker, decide_eq_false (Ne.symm hk), cond_false,
      List.append_nil, Machine.scansBy]
  cases hstep.effect with
  | moved phase hworker hphase halted hfound hscans => exact hsame hscans
  | took j reserved hwork hworker halted hfound hscans => exact hsame hscans
  | refused j reserved e hphase hworker hfound hscans => exact hsame hscans
  | scanned j j' reserved start count r hphase hrange hscan hworker hfound hscans =>
      exact hmore rfl hscans
  | failed j j' reserved start count e hphase hrange hworker hfound hscans => exact hmore rfl hscans
  | pushed j r hphase hworker hfound hscans => exact hsame hscans

/-- In every run, once the connection drains because the time is up with shares
outstanding: from then on no share is sent, no request id or sequence number is
used, no job is published and no block candidate counted, the outstanding shares
only become fewer, and each worker begins one more scan at most. -/
theorem draining_winds_down {link : Link κ} (hrun : Run env link start m)
    (hdraining : m.draining = true) (hsteps : Relation.ReflTransGen (Step env) m m') :
    m.WindsDown m' ∧ ∀ i, (m'.scansBy i).length ≤ (m.scansBy i).length + 1 := by
  have hstop := (stopping_of_run hrun).draining hdraining
  have hsettled : m.WindsDown m' ∧ m'.stop = true ∧ ∀ i,
      (m'.scansBy i).length + (m'.workers i).phase.scansYet ≤
        (m.scansBy i).length + (m.workers i).phase.scansYet := by
    clear hrun
    induction hsteps with
    | refl => exact ⟨.refl hdraining, hstop, fun i => le_refl _⟩
    | tail _ hstep ih =>
        obtain ⟨hdown, hstopped, hscans⟩ := ih
        refine ⟨hdown.trans (hstep.windsDown hdown.draining), hstep.stop hstopped, fun i => ?_⟩
        refine le_trans ?_ (hscans i)
        cases hstep with
        | main hmain =>
            rw [Machine.scansBy, hmain.scans, hmain.sameWorkers.workers, Machine.scansBy]
        | worker k hworker =>
            by_cases hk : i = k
            · subst hk
              exact hworker.scansYet hstopped
            · rw [hworker.scansBy_others hk, hworker.others hk]
  obtain ⟨hdown, -, hscans⟩ := hsettled
  refine ⟨hdown, fun i => ?_⟩
  have hone : (m.workers i).phase.scansYet ≤ 1 := by
    cases (m.workers i).phase <;> simp [Phase.scansYet]
  have hle := hscans i
  omega

theorem draining_winds_down_sample :
    ∃ m m' : Machine sampleConfig Unit, Run (sampleEnv []) (.sv1 [] {}) {} m ∧
      m.ledger.outstanding.length = 1 ∧ Relation.ReflTransGen (Step (sampleEnv [])) m m' ∧
      m.WindsDown m' ∧ (m'.scansBy theSlot).length ≤ (m.scansBy theSlot).length + 1 := by
  obtain ⟨m, state, job, hrun, hmines, -, -, hpending, -⟩ := sample_submitted []
  have hloop : m.continues true true = true := by
    rw [Machine.continues, hpending, hmines.draining]
    rfl
  have hdrain : m.beginIteration true = { m with draining := true, stop := true, main := .polling } := by
    rw [Machine.beginIteration, hmines.draining]
    rfl
  have hiterate : Step (sampleEnv []) m (m.beginIteration true) :=
    .main (.iterate m true true true hmines.main hloop fun _ => rfl)
  have hbroken : Step (sampleEnv []) (m.beginIteration true)
      ((m.beginIteration true).finish (some "pool receive timeout")) :=
    .main (.broken _ "pool receive timeout" (Or.inl (by rw [hdrain])))
  have hrun' := hrun.tail hiterate
  have hsteps := Relation.ReflTransGen.single hbroken
  obtain ⟨hdown, hscans⟩ := draining_winds_down hrun' (by rw [hdrain]) hsteps
  refine ⟨_, _, hrun', ?_, hsteps, hdown, hscans theSlot⟩
  rw [hdrain]
  change m.ledger.outstanding.length = 1
  rw [Ledger.outstanding, hpending]
  rfl

end Supryolo.Miner
