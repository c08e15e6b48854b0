import Supryolo.Miner.Publication
import Supryolo.Miner.Shares

namespace Supryolo.Miner

open Words

variable {cfg : Config} {κ : Type} {env : Env κ} {m m' : Machine cfg κ} {start : View cfg.rows}

/-- The shares a worker has found and not handed over yet. -/
def Phase.results {rows : Nat} (row : Fin rows) : Phase → List (Found rows)
  | .scanned job r => r.nonces.map fun n => Found.mk job n row
  | _ => []

/-- The shares in the hands of the connection loop: sent, about to be sent, or
waiting for the loop. -/
def Machine.taken (m : Machine cfg κ) : Multiset (Found cfg.rows) :=
  ((m.sent.map Prod.snd : List (Found cfg.rows)) : Multiset (Found cfg.rows)) +
    (m.queue : Multiset (Found cfg.rows)) + (m.found : Multiset (Found cfg.rows))

def Machine.held (m : Machine cfg κ) : Multiset (Found cfg.rows) :=
  ∑ i, ((m.workers i).phase.results (cfg.row i) : Multiset (Found cfg.rows))

/-- Every share of the connection, wherever it is. -/
def Machine.shares (m : Machine cfg κ) : Multiset (Found cfg.rows) := m.taken + m.held

/-- The shares a scan is there to find. -/
def ScanCall.owed (s : ScanCall cfg.slots) : List (Found cfg.rows) :=
  ((nonceRange s.start s.count.toNat).filter (hits s.job.work)).map fun n =>
    Found.mk s.job n (cfg.row s.worker)

def Machine.owed (m : Machine cfg κ) : List (Found cfg.rows) := m.scans.flatMap ScanCall.owed

/-- What a step of the connection loop does to the shares in its hands. -/
inductive Handles (m m' : Machine cfg κ) : Prop
  | kept (htaken : m'.taken = m.taken)
  | ended (e : Option String) (htaken : m'.taken ≤ m.taken) (hmain : m'.main = .ended e)
  | skipped (f : Found cfg.rows) (htaken : m.taken = f ::ₘ m'.taken)
      (hskip : m.draining = true ∨ m.link.valid f.job = false)

/-- A share is skipped only for these two reasons. -/
theorem checkShare_none {f : Found cfg.rows} (h : m.checkShare f = .ok none) :
    m.draining = true ∨ m.link.valid f.job = false := by
  unfold Machine.checkShare at h
  cases hdraining : m.draining with
  | true => exact Or.inl rfl
  | false =>
      cases hvalid : m.link.valid f.job with
      | false => exact Or.inr rfl
      | true =>
          rw [hdraining, hvalid] at h
          obtain ⟨-, h⟩ := Loops.guard_eq_ok.mp h
          obtain ⟨hash, -, h⟩ := Loops.bind_eq_ok.mp h
          obtain ⟨-, h⟩ := Loops.guard_eq_ok.mp h
          cases h

private theorem taken_of_same {queue : List (Found cfg.rows)} (hsent : m'.sent = m.sent)
    (hqueue : m.queue = queue) (hqueue' : m'.queue = queue) (hfound : m'.found = m.found) :
    m'.taken = m.taken := by
  rw [Machine.taken, Machine.taken, hsent, hqueue, hqueue', hfound]

private theorem taken_of_ended {e : Option String} (hsent : m'.sent = m.sent)
    (hfound : m'.found = m.found) (hmain : m'.main = .ended e) : m'.taken ≤ m.taken := by
  have hqueue : m'.queue = [] := by
    unfold Machine.queue
    rw [hmain]
  rw [Machine.taken, Machine.taken, hsent, hqueue, hfound, Multiset.coe_nil, add_zero]
  exact add_le_add_left (Multiset.le_add_right _ _) _

/-- A share that is sent has gone out. -/
theorem sendShare_sent {f : Found cfg.rows} {next : Machine cfg κ}
    (h : m.sendShare env f = .ok next) : next.sent = m.sent ++ [(m.shareOf env f, f)] := by
  unfold Machine.sendShare at h
  unfold Machine.shareOf
  cases hlink : m.link with
  | sv1 buffer state =>
      rw [hlink] at h
      rw [← Loops.pure_eq_ok.mp h]
      simp [Machine.sent, Machine.record]
  | sv2 session =>
      rw [hlink] at h
      obtain ⟨-, h⟩ := Loops.guard_eq_ok.mp h
      obtain ⟨session', -, h⟩ := Loops.bind_eq_ok.mp h
      rw [← Loops.pure_eq_ok.mp h]
      simp [Machine.sent, Machine.record]

/-- A share that passes the checks and the session is sent. -/
theorem submitOne_passed {f : Found cfg.rows} {next : Machine cfg κ} {n : Nat}
    (hcheck : m.checkShare f = .ok (some n)) (hsubmit : m.submitOne env f = .ok next) :
    next.sent = m.sent ++ [(m.shareOf env f, f)] := by
  rw [Machine.submitOne, hcheck, Loops.ok_bind] at hsubmit
  exact sendShare_sent (m := m.addCandidates n) hsubmit

private theorem submitOne_handles {f : Found cfg.rows} {rest : List (Found cfg.rows)}
    {next : Machine cfg κ} (hmain : m.main = .submitting (f :: rest))
    (hsubmit : m.submitOne env f = .ok next) :
    Handles m { next with main := .submitting rest } := by
  have hfound := submitOne_found hsubmit
  have hqueue : m.queue = f :: rest := by
    unfold Machine.queue
    rw [hmain]
  have htaken : m.taken = f ::ₘ (((m.sent.map Prod.snd : List (Found cfg.rows)) :
      Multiset (Found cfg.rows)) + (rest : Multiset (Found cfg.rows)) + (m.found : Multiset _)) := by
    rw [Machine.taken, hqueue, ← Multiset.cons_coe, Multiset.add_cons, Multiset.cons_add]
  obtain ⟨checked, hcheck, hnext⟩ := Loops.bind_eq_ok.mp hsubmit
  cases checked with
  | none =>
      obtain rfl := Loops.pure_eq_ok.mp hnext
      exact .skipped f htaken (checkShare_none hcheck)
  | some n =>
      have hsent := submitOne_passed hcheck hsubmit
      refine .kept ?_
      rw [htaken, Machine.taken]
      change ((next.sent.map Prod.snd : List (Found cfg.rows)) : Multiset (Found cfg.rows)) +
        (rest : Multiset (Found cfg.rows)) + (next.found : Multiset _) = _
      rw [hsent, hfound, List.map_append, ← Multiset.coe_add, List.map_singleton,
        Multiset.coe_singleton, ← Multiset.singleton_add]
      abel

theorem MainStep.handles (h : MainStep env m m') : Handles m m' := by
  have hsame {main : Main cfg.rows} (hmain : m.main = main)
      (hother : ∀ queue, main ≠ .submitting queue) : m.queue = [] := by
    unfold Machine.queue
    rw [hmain]
    cases main with
    | submitting queue => exact absurd rfl (hother queue)
    | _ => rfl
  cases h with
  | iterate expired early later hmain =>
      unfold Machine.beginIteration
      split <;> exact .kept (taken_of_same rfl (hsame hmain (by simp)) rfl rfl)
  | leave expired early hmain => exact .ended none (taken_of_ended rfl rfl rfl) rfl
  | poll chunks ending messages link hmain hread =>
      exact .kept (taken_of_same rfl (hsame hmain (by simp)) rfl rfl)
  | pollFailed chunks ending e hmain => exact .ended _ (taken_of_ended rfl rfl rfl) rfl
  | handle next message rest hmain hhandle =>
      refine .kept (taken_of_same ?_ (hsame hmain (by simp)) rfl ?_)
      · rcases handleMessage_ok hhandle with
          ⟨buffer, state, state', job, -, -, rfl⟩ | ⟨session, -, rfl⟩
        · exact (publish_sent _ _ _).trans (by simp [Machine.sent])
        · exact (publish_sent _ _ _).trans (by simp [Machine.sent])
      · rcases handleMessage_ok hhandle with
          ⟨buffer, state, state', job, -, -, rfl⟩ | ⟨session, -, rfl⟩
        · exact publish_found _ _ _
        · exact publish_found _ _ _
  | handleFailed message rest e hmain => exact .ended _ (taken_of_ended rfl rfl rfl) rfl
  | handled hmain => exact .kept (taken_of_same rfl (hsame hmain (by simp)) rfl rfl)
  | collect hmain =>
      refine .kept ?_
      rw [Machine.taken, Machine.taken, hsame hmain (by simp)]
      simp [Machine.queue, Machine.sent]
  | collectFailed hmain => exact .ended _ (taken_of_ended rfl rfl rfl) rfl
  | submit next f rest hmain hsubmit => exact submitOne_handles hmain hsubmit
  | submitFailed f rest e hmain =>
      obtain ⟨n, hn⟩ := afterFailure_idle m f
      rw [hn]
      exact .ended _ (taken_of_ended rfl rfl rfl) rfl
  | submitted hmain =>
      have hqueue : m.queue = [] := by
        unfold Machine.queue
        rw [hmain]
      exact .kept (taken_of_same rfl hqueue rfl rfl)
  | wait hmain => exact .kept (taken_of_same rfl (hsame hmain (by simp)) rfl rfl)
  | sendBroken f rest e hmain =>
      obtain ⟨n, hn⟩ := afterFailure_idle m f
      rw [hn]
      exact .ended _ (taken_of_ended rfl rfl rfl) rfl
  | broken e hmain => exact .ended _ (taken_of_ended rfl rfl rfl) rfl

/-- A worker hands over what it has found. -/
private theorem held_others {i : Fin cfg.slots} (hstep : WorkerStep i m m') :
    m'.held + ((m.workers i).phase.results (cfg.row i) : Multiset (Found cfg.rows)) =
      m.held + ((m'.workers i).phase.results (cfg.row i) : Multiset (Found cfg.rows)) :=
  Atomic.sum_others
    (f := fun k => ((m.workers k).phase.results (cfg.row k) : Multiset (Found cfg.rows)))
    (g := fun k => ((m'.workers k).phase.results (cfg.row k) : Multiset (Found cfg.rows)))
    fun k hk => by rw [hstep.others hk]

private theorem WorkerStep.taken {i : Fin cfg.slots} (hstep : WorkerStep i m m')
    (results : List (Found cfg.rows)) (hfound : m'.found = m.found ++ results) :
    m'.taken = m.taken + (results : Multiset (Found cfg.rows)) := by
  have hqueue : m'.queue = m.queue := by
    unfold Machine.queue
    rw [hstep.sameConnection.main]
  rw [Machine.taken, Machine.taken, hstep.sent, hqueue, hfound, ← Multiset.coe_add]
  exact (add_assoc _ _ _).symm

theorem results_of_job {rows : Nat} {row : Fin rows} {phase : Phase} (h : phase.job? = none) :
    phase.results row = [] := by
  cases phase with
  | scanned j r => cases h
  | _ => rfl

theorem owed_snoc {s : ScanCall cfg.slots} (hscans : m'.scans = m.scans ++ [s]) :
    m'.owed = m.owed ++ s.owed := by
  rw [Machine.owed, Machine.owed, hscans, List.flatMap_append, List.flatMap_singleton]

/-- A worker finds at most what its scans owe. -/
theorem WorkerStep.shares_le {i : Fin cfg.slots} (hstep : WorkerStep i m m')
    (h : m.shares ≤ (m.owed : Multiset (Found cfg.rows))) :
    m'.shares ≤ (m'.owed : Multiset (Found cfg.rows)) := by
  have hheld := held_others hstep
  -- A step that leaves the worker without results drops those it had.
  have hempty (hfound : m'.found = m.found) (hscans : m.owed.Sublist m'.owed)
      (hresults : (m'.workers i).phase.results (cfg.row i) = []) :
      m'.shares ≤ (m'.owed : Multiset (Found cfg.rows)) := by
    rw [hresults, Multiset.coe_nil, add_zero] at hheld
    have htaken := hstep.taken [] (by rw [hfound, List.append_nil])
    rw [Multiset.coe_nil, add_zero] at htaken
    have hless : m'.shares ≤ m.shares := by
      rw [Machine.shares, Machine.shares, htaken, ← hheld]
      exact add_le_add_right (Multiset.le_add_right _ _) _
    exact (hless.trans h).trans (Multiset.coe_le.mpr hscans.subperm)
  have hsame (hscans : m'.scans = m.scans) : m.owed.Sublist m'.owed := by
    rw [Machine.owed, Machine.owed, hscans]
  have hmore {s : ScanCall cfg.slots} (hscans : m'.scans = m.scans ++ [s]) :
      m.owed.Sublist m'.owed := by
    rw [owed_snoc hscans]
    exact List.sublist_append_left _ _
  cases hstep.effect with
  | moved phase hworker hphase halted hfound hscans =>
      exact hempty hfound (hsame hscans) (by rw [hworker]; exact results_of_job hphase)
  | took j reserved hwork hworker halted hfound hscans =>
      exact hempty hfound (hsame hscans) (by rw [hworker]; rfl)
  | refused j reserved e hphase hworker hfound hscans =>
      exact hempty hfound (hsame hscans) (by rw [hworker]; rfl)
  | failed j j' reserved start count e hphase hrange hworker hfound hscans =>
      exact hempty hfound (hmore hscans) (by rw [hworker]; rfl)
  | scanned j j' reserved start count r hphase hrange hscan hworker hfound hscans =>
      have htaken := hstep.taken [] (by rw [hfound, List.append_nil])
      rw [hphase, hworker] at hheld
      have hperm := hscan.perm_of_ok.map fun n => Found.mk j' n (cfg.row i)
      have hshares : m'.shares =
          m.shares + ((ScanCall.mk i j' start count).owed : Multiset (Found cfg.rows)) := by
        rw [ScanCall.owed, ← Multiset.coe_eq_coe.mpr hperm, Machine.shares, Machine.shares, htaken]
        simp only [Phase.results, Multiset.coe_nil, add_zero] at hheld ⊢
        rw [hheld, add_assoc]
      rw [hshares, owed_snoc hscans, ← Multiset.coe_add]
      exact add_le_add_left h _
  | pushed j r hphase hworker hfound hscans =>
      have htaken := hstep.taken _ hfound
      rw [hphase, hworker] at hheld
      have hshares : m'.shares = m.shares := by
        rw [Machine.shares, Machine.shares, htaken]
        simp only [Phase.results, Multiset.coe_nil, add_zero] at hheld ⊢
        rw [← hheld]
        abel
      rw [hshares, Machine.owed, hscans]
      exact h

theorem MainStep.shares_le (h : MainStep env m m') : m'.shares ≤ m.shares := by
  have hheld : m'.held = m.held := by
    rw [Machine.held, Machine.held, h.sameWorkers.workers]
  rw [Machine.shares, Machine.shares, hheld]
  refine add_le_add_left ?_ _
  cases h.handles with
  | kept htaken => exact htaken.le
  | ended e htaken => exact htaken
  | skipped f htaken => exact htaken ▸ Multiset.le_cons_self _ _

theorem sent_le_shares (m : Machine cfg κ) :
    ((m.sent.map Prod.snd : List (Found cfg.rows)) : Multiset (Found cfg.rows)) ≤ m.shares := by
  rw [Machine.shares, Machine.taken, add_assoc, add_assoc]
  exact Multiset.le_add_right _ _

/-- Every share is owed by a scan, and every hit of a scan is one share at most. -/
theorem shares_le_owed {link : Link κ} (hrun : Run env link start m) :
    m.shares ≤ (m.owed : Multiset (Found cfg.rows)) := by
  induction hrun with
  | refl =>
      simp [Machine.shares, Machine.taken, Machine.held, Machine.sent, Machine.queue,
        Machine.initial, Phase.results]
  | tail _ hstep ih =>
      cases hstep with
      | main hmain =>
          have howed := hmain.scans
          rw [Machine.owed, howed]
          exact hmain.shares_le.trans ih
      | worker i hworker => exact hworker.shares_le ih

/-- A worker that has thrown stays where it is. -/
theorem WorkerStep.halted {i k : Fin cfg.slots} (h : WorkerStep i m m')
    (halted : (m.workers k).phase.halted = true) : (m'.workers k).phase.halted = true := by
  by_cases hk : k = i
  · subst hk
    cases h.effect with
    | moved phase hworker hphase hkeeps =>
        rw [hworker]
        exact hkeeps halted
    | took j reserved hwork hworker hnot =>
        rw [hnot] at halted
        cases halted
    | refused j reserved e hphase hworker => rw [hworker]; rfl
    | scanned j j' reserved start count r hphase =>
        rw [hphase] at halted
        cases halted
    | failed j j' reserved start count e hphase hrange hworker => rw [hworker]; rfl
    | pushed j r hphase =>
        rw [hphase] at halted
        cases halted
  · rw [h.others hk]
    exact halted

/-- A worker that goes on has handed over what it found. -/
private theorem WorkerStep.results {i : Fin cfg.slots} (h : WorkerStep i m m')
    (hruns : (m'.workers i).phase.halted = false) {f : Found cfg.rows}
    (hf : f ∈ (m.workers i).phase.results (cfg.row i)) : f ∈ m'.taken := by
  have hnone {phase : Phase} (hphase : (m.workers i).phase = phase)
      (hjob : phase.results (cfg.row i) = []) : f ∈ m'.taken := by
    rw [hphase, hjob] at hf
    cases hf
  cases h with
  | construct hphase => exact hnone hphase rfl
  | constructFailed e hphase => exact hnone hphase rfl
  | check hphase => exact hnone hphase rfl
  | take hphase => exact hnone hphase rfl
  | scan j j' reserved start count outcome hphase => exact hnone hphase rfl
  | scanRefused j reserved e hphase => exact hnone hphase rfl
  | fail e hphase => exact hnone hphase rfl
  | push j r hphase =>
      rw [hphase] at hf
      unfold Machine.pushFound at hruns ⊢
      split at hruns
      · rw [workers_setPhase] at hruns
        cases hruns
      · rename_i hroom
        rw [if_neg hroom]
        refine Multiset.mem_add.mpr (Or.inr (Multiset.mem_coe.mpr ?_))
        exact List.mem_append_right _ hf

/-- The hits of every scan are where `good` jobs have them, as long as nothing has
gone wrong: in the hands of the connection loop or still with their worker. -/
def Machine.Keeps (m : Machine cfg κ) (good : Job → Prop) : Prop :=
  ∀ s ∈ m.scans, ∀ f ∈ s.owed, m.draining = false → (∀ e, m.main ≠ .ended e) →
    (m.workers s.worker).phase.halted = false → good s.job →
    f ∈ m.taken ∨ f ∈ (m.workers s.worker).phase.results (cfg.row s.worker)

/-- Where the hits of a scan are, as long as nothing has gone wrong. -/
def Machine.Delivered (m : Machine cfg κ) : Prop := m.Keeps fun j => m.link.valid j = true

private theorem taken_mono {i : Fin cfg.slots} (hstep : WorkerStep i m m') : m.taken ≤ m'.taken := by
  have hsame (hfound : m'.found = m.found) : m.taken ≤ m'.taken := by
    rw [hstep.taken [] (by rw [hfound, List.append_nil])]
    exact Multiset.le_add_right _ _
  cases hstep.effect with
  | moved phase hworker hphase halted hfound => exact hsame hfound
  | took j reserved hwork hworker halted hfound => exact hsame hfound
  | refused j reserved e hphase hworker hfound => exact hsame hfound
  | failed j j' reserved start count e hphase hrange hworker hfound => exact hsame hfound
  | scanned j j' reserved start count r hphase hrange hscan hworker hfound => exact hsame hfound
  | pushed j r hphase hworker hfound =>
      rw [hstep.taken _ hfound]
      exact Multiset.le_add_right _ _

private theorem Machine.Keeps.worker {good : Job → Prop} (h : m.Keeps good) {i : Fin cfg.slots}
    (hstep : WorkerStep i m m') : m'.Keeps good := by
  intro s hs f hf hmines hopen hruns hgood
  obtain ⟨-, hmain, -, -, -, -, hdraining, -⟩ := hstep.sameConnection
  rw [hdraining] at hmines
  rw [hmain] at hopen
  -- Shares of scans that are over move on to the queue or stay with their worker.
  have hold (hs : s ∈ m.scans) :
      f ∈ m'.taken ∨ f ∈ (m'.workers s.worker).phase.results (cfg.row s.worker) := by
    have hran : (m.workers s.worker).phase.halted = false := by
      by_contra hnot
      rw [Bool.not_eq_false] at hnot
      rw [hstep.halted hnot] at hruns
      cases hruns
    rcases h s hs f hf hmines hopen hran hgood with htaken | hresults
    · exact Or.inl (Multiset.mem_of_le (taken_mono hstep) htaken)
    · by_cases hk : s.worker = i
      · rw [hk] at hruns hresults
        exact Or.inl (hstep.results hruns hresults)
      · rw [hstep.others hk]
        exact Or.inr hresults
  cases hstep.effect with
  | moved phase hworker hphase halted hfound hscans => exact hold (hscans ▸ hs)
  | took j reserved hwork hworker halted hfound hscans => exact hold (hscans ▸ hs)
  | refused j reserved e hphase hworker hfound hscans => exact hold (hscans ▸ hs)
  | pushed j r hphase hworker hfound hscans => exact hold (hscans ▸ hs)
  | failed j j' reserved start count e hphase hrange hworker hfound hscans =>
      rw [hscans] at hs
      rcases List.mem_append.mp hs with hs | hs
      · exact hold hs
      · rw [List.mem_singleton.mp hs, hworker] at hruns
        cases hruns
  | scanned j j' reserved start count r hphase hrange hscan hworker hfound hscans =>
      rw [hscans] at hs
      rcases List.mem_append.mp hs with hs | hs
      · exact hold hs
      · obtain rfl := List.mem_singleton.mp hs
        obtain ⟨n, hn, rfl⟩ := List.mem_map.mp hf
        rw [hworker]
        exact Or.inr (List.mem_map_of_mem (hscan.perm_of_ok.mem_iff.mpr hn))

/-- In every run the hits of a job that stands are kept. A job that has been
withdrawn never stands again, so what is skipped as stale is not missed later. -/
theorem keeps_of_run {link : Link κ} (hlink : link.Fresh) (hrun : Run env link start m) :
    m.Keeps m.link.Stands := by
  induction hrun with
  | refl => exact fun s hs => absurd hs List.not_mem_nil
  | @tail before next hbefore hstep ih =>
      cases hstep with
      | worker i hworker =>
          rw [hworker.sameConnection.link]
          exact ih.worker hworker
      | main hmain =>
          intro s hs f hf hmines hopen hruns hstands
          rw [hmain.scans] at hs
          have hsame := hmain.sameWorkers.workers
          have hmined : before.draining = false := by
            by_contra hnot
            rw [Bool.not_eq_false] at hnot
            rw [hmain.draining hnot] at hmines
            cases hmines
          have hpast : before.link.Past s.job := past_of_run hlink hbefore (.scanned s hs rfl)
          have hstood : before.link.Stands s.job := ((Step.main hmain).past hpast).2 hstands
          rw [hsame] at hruns ⊢
          rcases ih s hs f hf hmined hmain.running hruns hstood with htaken | hresults
          · left
            cases hmain.handles with
            | kept hkept => rwa [hkept]
            | ended e hless hended => exact absurd hended (hopen e)
            | skipped skipped hless hskip =>
                rw [hless, Multiset.mem_cons] at htaken
                rcases htaken with rfl | htaken
                · -- Only a stale share is skipped while the connection mines.
                  obtain ⟨n, -, rfl⟩ := List.mem_map.mp hf
                  rcases hskip with hdraining | hstale
                  · rw [hmined] at hdraining
                    cases hdraining
                  · rw [hpast.valid hstood] at hstale
                    cases hstale
                · exact htaken
          · exact Or.inr hresults

/-- No share is dropped while its job is valid and the connection mines: in every
run, a nonce that hits is sent, waits to be sent, or is still with its worker,
unless its job has gone stale, its worker has failed, or the connection winds down.
After more than `2 ^ 64` generations a share that was dropped as stale may belong to
a job that passes for valid again. -/
theorem hits_delivered {link : Link κ} (hlink : link.Fresh) (hrun : Run env link start m)
    (hfew : m.link.generation ≤ 2 ^ 64) : m.Delivered :=
  fun s hs f hf hmines hopen hruns hvalid =>
    keeps_of_run hlink hrun s hs f hf hmines hopen hruns
      (Link.stands_of_valid (sound_of_run hlink hrun) hfew
        (past_of_run hlink hrun (.scanned s hs rfl)).older hvalid)

theorem hits_delivered_sample :
    ∃ m : Machine sampleConfig Unit, Run (sampleEnv []) (.sv1 [] {}) {} m ∧
      m.scans.length = 1 ∧ m.sent.length = 1 ∧ m.Delivered := by
  obtain ⟨m, state, job, hrun, hmines, hgeneration, -, -, -, -, -, -, share, htrace⟩ :=
    sample_submitted []
  have hfew : m.link.generation ≤ 2 ^ 64 := by
    rw [hmines.link]
    exact hgeneration.le.trans (by decide)
  refine ⟨m, hrun, ?_, ?_, hits_delivered .sv1 hrun hfew⟩
  · rw [Machine.scans, htrace]
    rfl
  · rw [Machine.sent, htrace]
    rfl

/-- A share that waits to be submitted hits, so the check before it goes out
finds nothing wrong with its hash. -/
theorem meets_of_submitting {link : Link κ} (hrun : Run env link start m) {f : Found cfg.rows}
    {rest : List (Found cfg.rows)} (hmain : m.main = .submitting (f :: rest)) :
    hits f.job.work f.nonce = true := by
  have hqueue : f ∈ m.queue := by
    rw [Machine.queue, hmain]
    exact List.mem_cons_self
  have hshare : f ∈ m.shares := Multiset.mem_add.mpr (Or.inl
    (Multiset.mem_add.mpr (Or.inl (Multiset.mem_add.mpr (Or.inr (Multiset.mem_coe.mpr hqueue))))))
  obtain ⟨s, -, howed⟩ := List.mem_flatMap.mp
    (Multiset.mem_coe.mp (Multiset.mem_of_le (shares_le_owed hrun) hshare))
  obtain ⟨n, hn, rfl⟩ := List.mem_map.mp howed
  exact (List.mem_filter.mp hn).2

/-- The only ways the submit loop can throw. -/
inductive Machine.CannotSubmit (env : Env κ) (m : Machine cfg κ) (f : Found cfg.rows) (e : String) :
    Prop
  | crowded (hfull : 4096 ≤ m.ledger.pending.entries.length)
      (he : e = "too many outstanding shares")
  | exhausted (session : Sv2.Session κ) (hlink : m.link = .sv2 session)
      (hlast : 0xffffffff < m.nextId) (he : e = "SV2 sequence exhausted; reconnecting")
  | sealing (session : Sv2.Session κ) (hlink : m.link = .sv2 session)
      (hencode : session.noise.encode env.foreign.cipher (Sv2.submitStandard session.channel
        m.nextId.toNat.toUInt32 f.job.wireJob f.nonce.toUInt32 f.job.time32 f.job.version) = .error e)
  -- The message is complete, but dumping it or writing it to the socket fails.
  | unwritten (next : Machine cfg κ) (hsubmit : m.submitOne env f = .ok next)
      (hsent : next.sent = m.sent ++ [(m.shareOf env f, f)])

theorem submission_failures {link : Link κ} (hlink : link.Fresh) (hrun : Run env link start m)
    {f : Found cfg.rows} {rest : List (Found cfg.rows)} {e : String}
    (hmain : m.main = .submitting (f :: rest)) (hsubmit : m.submitOne env f = .error e) :
    m.CannotSubmit env f e := by
  have hmeets : meets (digest (storeLe f.job.work.header 32 f.nonce)) f.job.work.target = true :=
    meets_of_submitting hrun hmain
  rcases Loops.bind_eq_error.mp hsubmit with hcheck | ⟨checked, hcheck, hsend⟩
  · unfold Machine.checkShare at hcheck
    split at hcheck
    · cases hcheck
    · split at hcheck
      · cases hcheck
      · rcases Loops.guard_eq_error.mp hcheck with ⟨hfull, rfl⟩ | ⟨-, hcheck⟩
        · exact .crowded hfull rfl
        · rw [blake2b256_header, Loops.ok_bind, hmeets] at hcheck
          cases hcheck
  · cases checked with
    | none => cases hsend
    | some n =>
        dsimp only at hsend
        unfold Machine.sendShare at hsend
        cases hprotocol : m.link with
        | sv1 buffer state =>
            rw [show (m.addCandidates n).link = m.link from rfl, hprotocol] at hsend
            cases hsend
        | sv2 session =>
            rw [show (m.addCandidates n).link = m.link from rfl, hprotocol] at hsend
            rcases Loops.guard_eq_error.mp hsend with ⟨hlast, rfl⟩ | ⟨hfew, hsend⟩
            · exact .exhausted session hprotocol hlast rfl
            · rcases Loops.bind_eq_error.mp hsend with hsession | ⟨session', -, hsend⟩
              · have hguard := submittable_of_checked hlink hrun hmain hcheck hprotocol
                  (not_lt.mp hfew)
                rw [show (m.addCandidates n).nextId = m.nextId from rfl, Sv2.Session.submit,
                  if_pos hguard] at hsession
                rcases Loops.bind_eq_error.mp hsession with hencode | ⟨sealed, -, hlater⟩
                · exact .sealing session hprotocol hencode
                · cases hlater
              · cases hsend

/-- In every run, when the submit loop throws over a share there is no room for
another one, the sequence numbers are used up, its frame cannot be sealed, or the
finished message cannot be dumped or written. Short of these the message is made:
the hash that is checked again before the share goes out is always good, and the
session's own guard always passes. -/
theorem submission_goes_through {link : Link κ} (hlink : link.Fresh)
    (hrun : Run env link start m) {f : Found cfg.rows} {rest : List (Found cfg.rows)}
    (hmain : m.main = .submitting (f :: rest)) :
    (∀ m' e, MainStep env m m' → m'.main = .ended (some e) → m.CannotSubmit env f e) ∧
      (m.ledger.pending.entries.length < 4096 → m.nextId ≤ 0xffffffff →
        (∀ session, m.link = .sv2 session → ∃ sealed,
          session.noise.encode env.foreign.cipher (Sv2.submitStandard session.channel
            m.nextId.toNat.toUInt32 f.job.wireJob f.nonce.toUInt32 f.job.time32 f.job.version) =
              .ok sealed) →
        ∃ next, m.submitOne env f = .ok next) := by
  constructor
  · intro m' e hstep hended
    cases hstep with
    | submit next f' rest' hmain' hsubmit => cases hended
    | submitFailed f' rest' e' hmain' hsubmit =>
        obtain ⟨rfl, -⟩ := List.cons.inj (Main.submitting.inj (hmain.symm.trans hmain'))
        obtain rfl := Option.some.inj (Main.ended.inj hended)
        exact submission_failures hlink hrun hmain hsubmit
    | sendBroken f' rest' e' hmain' n next hcheck hsubmit =>
        obtain ⟨rfl, -⟩ := List.cons.inj (Main.submitting.inj (hmain.symm.trans hmain'))
        exact .unwritten next hsubmit (submitOne_passed hcheck hsubmit)
    | broken e' hmain' =>
        rcases hmain' with hmain' | hmain' <;> cases hmain.symm.trans hmain'
    | iterate expired early later hmain' => cases hmain.symm.trans hmain'
    | leave expired early hmain' => cases hmain.symm.trans hmain'
    | poll chunks ending messages link hmain' => cases hmain.symm.trans hmain'
    | pollFailed chunks ending e' hmain' => cases hmain.symm.trans hmain'
    | handle next message rest' hmain' => cases hmain.symm.trans hmain'
    | handleFailed message rest' e' hmain' => cases hmain.symm.trans hmain'
    | handled hmain' => cases hmain.symm.trans hmain'
    | collect hmain' => cases hmain.symm.trans hmain'
    | collectFailed hmain' => cases hmain.symm.trans hmain'
    | submitted hmain' => cases hmain.symm.trans hmain'
    | wait hmain' => cases hmain.symm.trans hmain'
  · intro hroom hids hseals
    cases hsubmit : m.submitOne env f with
    | ok next => exact ⟨next, rfl⟩
    | error e =>
        cases submission_failures hlink hrun hmain hsubmit with
        | crowded hfull => exact absurd hfull (not_le.mpr hroom)
        | exhausted session hsv2 hlast => exact absurd hids (not_le.mpr hlast)
        | sealing session hsv2 hencode =>
            obtain ⟨sealed, hseal⟩ := hseals session hsv2
            rw [hseal] at hencode
            cases hencode
        | unwritten next hdone =>
            rw [hsubmit] at hdone
            cases hdone

theorem submission_goes_through_sample :
    ∃ (m : Machine sampleConfig Unit) (f : Found sampleConfig.rows),
      Run (sampleEnv []) (.sv1 [] {}) {} m ∧ m.main = .submitting [f] ∧
        ∃ next, m.submitOne (sampleEnv []) f = .ok next := by
  obtain ⟨m₁, state, job, hrun, hmines, hgeneration, hfound, hledger, hnext, hworker, -⟩ :=
    sample_mines []
  obtain ⟨m₂, hround, hmines₂, hfound₂, -, hledger₂, hnext₂, -⟩ := hmines.round []
    (by rw [hworker]) (by rw [hworker, hmines.generation, hgeneration]; decide)
    (by rw [hfound]; decide)
  have hone : m₂.found = [Found.mk job 0 theRow] := by
    rw [hfound₂, hfound]
    rfl
  have hcollect : Relation.ReflTransGen (Step (sampleEnv [])) m₂
      { m₂ with main := .submitting m₂.found, found := [] } :=
    iteration_collect hmines₂.main hmines₂.failure hmines₂.link
  rw [hone] at hcollect
  have hrun' := (hrun.trans hround).trans hcollect
  refine ⟨_, _, hrun', rfl, (submission_goes_through .sv1 hrun' rfl).2 ?_ ?_ ?_⟩
  · change m₂.ledger.pending.entries.length < 4096
    rw [hledger₂, hledger]
    decide
  · change m₂.nextId ≤ 0xffffffff
    rw [hnext₂, hnext]
    decide
  · intro session hsv2
    cases hsv2.symm.trans hmines₂.link

end Supryolo.Miner
