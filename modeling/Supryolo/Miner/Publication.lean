import Supryolo.Activations
import Supryolo.Miner.Workers

namespace Supryolo

namespace StratumState

variable {s s' : StratumState} {msg : Json} {job : Option Job}

/-- A message that returns no job leaves the current one. -/
theorem current_receive (h : s.receive msg = .ok (job, s')) :
    s'.current = job.or s.current := by
  cases job with
  | none => exact (sameJobs_of_none (received_of_ok h)).current
  | some made =>
      cases received_of_ok h with
      | notified p made s' hmethod hparams hnotify =>
          obtain ⟨n, rfl⟩ := notify_ok hnotify
          rfl

theorem authorized_receive (h : s.receive msg = .ok (job, s')) (hauthorized : s.authorized = true) :
    s'.authorized = true := by
  rw [(received_of_ok h).readings.2.1, hauthorized]
  rfl

end StratumState

namespace Sv2.Session

variable {κ : Type} {lib : Foreign κ} {s s' : Session κ} {bytes : Bytes} {out : List Json}

/-- Every frame that is handled is reported, so a read that reports nothing has
changed no job. -/
theorem current_receive_nil (h : s.receive lib bytes = .ok ([], s')) : s'.current = s.current := by
  have hquiet : ([] : List Json) = [] → s'.current = s.current := by
    refine receive_induction
      (motive := fun out next => out = [] → next.current = s.current) h ?_ ?_
    · intro noise written handshake phase hphase hnone
      rfl
    · intro out s₁ m events s₂ hbefore happly hnone
      exact absurd hnone (by simp)
  exact hquiet rfl

/-- A current job is followed by another one only. -/
theorem current_receive_none (h : s.receive lib bytes = .ok (out, s')) (hnone : s'.current = none) :
    s.current = none := by
  have hkept : s'.current = none → s.current = none := by
    refine receive_induction
      (motive := fun _ next => next.current = none → s.current = none) h ?_ ?_
    · intro noise written handshake phase hphase hcurrent
      exact hcurrent
    · intro out s₁ m events s₂ hbefore happly hcurrent
      cases apply_jobEffect happly with
      | opening hphase hsame => exact hbefore (hsame.current.symm.trans hcurrent)
      | quiet hphase hsame => exact hbefore (hsame.current.symm.trans hcurrent)
      | stored wire hphase hphase' hfresh hjobs hgeneration hepoch hsame =>
          exact hbefore (hsame.symm.trans hcurrent)
      | activated stored key jobs hphase hphase' hjobs hkept hgeneration hsome =>
          rw [hsome] at hcurrent
          cases hcurrent
  exact hkept hnone

theorem holds_receive (hholds : ∃ acts, Holds acts s) (h : s.receive lib bytes = .ok (out, s')) :
    ∃ acts, Holds acts s' := by
  obtain ⟨acts, events, hhistory, -⟩ := receive_acts h
  refine Histories.history_induction (motive := fun _ _ next => ∃ acts, Holds acts next) hhistory
    hholds ?_
  rintro inputs outputs before a events after ⟨earlier, hbefore⟩ hact
  exact ⟨_, hbefore.acted (acted_of_ok hact)⟩

theorem acted_submit {j : Job} {nonce : UInt64} {sequence : UInt32}
    (h : s.submit lib j nonce sequence = .ok s') : Acted s (.submit j nonce sequence) s' := by
  have hact : s.act lib (.submit j nonce sequence) = .ok ([], s') := by
    rw [act, h]
    rfl
  exact acted_of_ok hact

theorem Past.receive {j : Job} (hpast : s.Past j) (h : s.receive lib bytes = .ok (out, s')) :
    s'.Past j ∧ (s'.Stands j → s.Stands j) := by
  obtain ⟨acts, events, hhistory, -⟩ := receive_acts h
  obtain ⟨hpast', hstands⟩ := stands_of_history hpast hhistory
  exact ⟨hpast', fun hlater => (hstands.mp hlater).1⟩

end Sv2.Session

namespace Miner

variable {cfg : Config} {κ : Type} {env : Env κ} {m m' : Machine cfg κ} {start : View cfg.rows}

/-- A job this session has let the miner work on. -/
def Link.Past : Link κ → Job → Prop
  | .sv1 _ state, j => state.authorized = true ∧ state.Older j
  | .sv2 session, j => session.Past j

theorem Link.Past.older {link : Link κ} {j : Job} (h : link.Past j) : link.Older j := by
  cases link with
  | sv1 buffer state => exact h.2
  | sv2 session => exact Sv2.Session.Past.older h

theorem Link.Past.valid {link : Link κ} {j : Job} (h : link.Past j) (hstands : link.Stands j) :
    link.valid j = true := by
  cases link with
  | sv1 buffer state => exact StratumState.valid_of_stands h.1 hstands
  | sv2 session => exact Sv2.Session.valid_of_stands hstands

/-- A step of the connection makes no stale job stand again. -/
theorem Step.past (hstep : Step env m m') {j : Job} (hpast : m.link.Past j) :
    m'.link.Past j ∧ (m'.link.Stands j → m.link.Stands j) := by
  cases hstep.effect with
  | idle n hlink =>
      rw [hlink]
      exact ⟨hpast, id⟩
  | received chunks ending messages hread =>
      cases hnext : m'.link with
      | sv1 buffer' state' =>
          rw [hnext] at hread
          obtain ⟨buffer, hbefore⟩ := read_sv1 hread
          rw [hbefore] at hpast ⊢
          exact ⟨hpast, id⟩
      | sv2 session' =>
          rw [hnext] at hread
          obtain ⟨session, bytes, hbefore, hreceive⟩ := read_sv2 hread
          rw [hbefore] at hpast ⊢
          exact Sv2.Session.Past.receive hpast hreceive
  | handledSv1 message buffer state state' job hlink hlink' hreceive =>
      rw [hlink] at hpast ⊢
      rw [hlink']
      exact ⟨⟨StratumState.authorized_receive hreceive hpast.1, hpast.2.receive hreceive⟩,
        fun hlater => ((StratumState.stands_receive hpast.2 hreceive).mp hlater).1⟩
  | handledSv2 message session hlink hlink' =>
      rw [hlink', ← hlink]
      exact ⟨hpast, id⟩
  | sentSv1 f n buffer state hcheck hlink hlink' =>
      rw [hlink', ← hlink]
      exact ⟨hpast, id⟩
  | sentSv2 f n session session' hcheck hlink hlink' hlimit hsubmit =>
      obtain ⟨-, noise, written, rfl⟩ := Sv2.Session.submit_ok hsubmit
      rw [hlink] at hpast ⊢
      rw [hlink']
      exact ⟨⟨hpast.phase, hpast.older.counts (.of_same rfl rfl rfl)⟩, id⟩

/-- A session that a connection has brought into this state. -/
def Link.Lived : Link κ → Prop
  | .sv1 _ state => ∃ returned, StratumState.Book returned state
  | .sv2 session => ∃ acts, Sv2.Session.Holds acts session

theorem Link.Lived.fresh {link : Link κ} (h : link.Fresh) : link.Lived := by
  cases h with
  | sv1 =>
      have hnone : Histories.history StratumState.receive {} [] = .ok ([], {}) := rfl
      exact ⟨[], StratumState.book_of_history hnone⟩
  | sv2 state first host port user rate => exact ⟨[], Sv2.Session.holds_start _ _ _ _ _ _⟩

theorem Step.lived (hstep : Step env m m') (hlived : m.link.Lived) : m'.link.Lived := by
  cases hstep.effect with
  | idle n hlink =>
      rw [hlink]
      exact hlived
  | received chunks ending messages hread =>
      cases hnext : m'.link with
      | sv1 buffer' state' =>
          rw [hnext] at hread
          obtain ⟨buffer, hbefore⟩ := read_sv1 hread
          rw [hbefore] at hlived
          exact hlived
      | sv2 session' =>
          rw [hnext] at hread
          obtain ⟨session, bytes, hbefore, hreceive⟩ := read_sv2 hread
          rw [hbefore] at hlived
          exact Sv2.Session.holds_receive hlived hreceive
  | handledSv1 message buffer state state' job hlink hlink' hreceive =>
      rw [hlink] at hlived
      rw [hlink']
      obtain ⟨returned, hbook⟩ := hlived
      exact ⟨_, hbook.receive hreceive⟩
  | handledSv2 message session hlink hlink' =>
      rw [hlink', ← hlink]
      exact hlived
  | sentSv1 f n buffer state hcheck hlink hlink' =>
      rw [hlink', ← hlink]
      exact hlived
  | sentSv2 f n session session' hcheck hlink hlink' hlimit hsubmit =>
      rw [hlink] at hlived
      rw [hlink']
      obtain ⟨acts, hholds⟩ := hlived
      exact ⟨_, hholds.acted (Sv2.Session.acted_submit hsubmit)⟩

theorem lived_of_run {link : Link κ} (hlink : link.Fresh) (hrun : Run env link start m) :
    m.link.Lived := by
  induction hrun with
  | refl => exact .fresh hlink
  | tail _ hstep ih => exact hstep.lived ih

/-- The job a session would have mined. -/
def Link.publishable : Link κ → Option Job
  | .sv1 _ state => if state.authorized then state.current else none
  | .sv2 session => session.current

theorem Link.publishable_sv1 {buffer : Text} {state : StratumState} {j : Job} :
    (Link.sv1 buffer state : Link κ).publishable = some j ↔
      state.authorized = true ∧ state.current = some j := by
  unfold Link.publishable
  by_cases hauthorized : state.authorized = true <;> simp [hauthorized]

/-- What would be mined stands, and was made by this session. -/
theorem Link.Lived.publishable {link : Link κ} (hlived : link.Lived) {j : Job}
    (hj : link.publishable = some j) : link.Past j ∧ link.Stands j := by
  cases link with
  | sv1 buffer state =>
      obtain ⟨returned, hbook⟩ := hlived
      obtain ⟨hauthorized, hcurrent⟩ := publishable_sv1.mp hj
      have hstands := hbook.stands j hcurrent
      have hmem : j ∈ returned.reduceOption :=
        List.mem_of_getLast? (hbook.latest.trans hcurrent)
      exact ⟨⟨hauthorized, hbook.older j hmem⟩, hstands⟩
  | sv2 session =>
      obtain ⟨acts, hholds⟩ := hlived
      obtain ⟨hpast, hstands, -⟩ := hholds.current j hj
      exact ⟨hpast, hstands⟩

def Link.isSv2 : Link κ → Bool
  | .sv1 _ _ => false
  | .sv2 _ => true

/-- The SV2 session is ahead of the miner while its reports wait to be handled. -/
def Machine.Behind (m : Machine cfg κ) : Prop := m.link.isSv2 = true ∧ m.queued ≠ []

/-- How the published work goes with the session. -/
structure Machine.Posted (m : Machine cfg κ) : Prop where
  activated : m.activated = m.work.isSome
  none_of_none : m.link.publishable = none → m.work = none
  current : m.draining = false → ¬ m.Behind → m.work = m.link.publishable

theorem Machine.Posted.same (h : m.Posted) (hlink : m'.link.publishable = m.link.publishable)
    (hwork : m'.work = m.work) (hactivated : m'.activated = m.activated)
    (hdraining : m'.draining = false → m.draining = false) (hbehind : m.Behind → m'.Behind) :
    m'.Posted := by
  refine ⟨by rw [hactivated, hwork]; exact h.activated, ?_, ?_⟩
  · rw [hlink, hwork]
    exact h.none_of_none
  · intro hmines hnot
    rw [hlink, hwork]
    exact h.current (hdraining hmines) fun hbefore => hnot (hbehind hbefore)

/-- A session with a job to mine goes on to have one. -/
theorem Step.publishable (hstep : Step env m m') (h : m'.link.publishable = none) :
    m.link.publishable = none := by
  cases hstep.effect with
  | idle n hlink => rwa [hlink] at h
  | received chunks ending messages hread =>
      cases hnext : m'.link with
      | sv1 buffer' state' =>
          rw [hnext] at hread h
          obtain ⟨buffer, hbefore⟩ := read_sv1 hread
          rw [hbefore]
          exact h
      | sv2 session' =>
          rw [hnext] at hread h
          obtain ⟨session, bytes, hbefore, hreceive⟩ := read_sv2 hread
          rw [hbefore]
          exact Sv2.Session.current_receive_none hreceive h
  | handledSv1 message buffer state state' job hlink hlink' hreceive =>
      rw [hlink'] at h
      rw [hlink, Option.eq_none_iff_forall_ne_some]
      intro j hj
      obtain ⟨hauthorized, hcurrent⟩ := Link.publishable_sv1.mp hj
      have hkept := StratumState.current_receive hreceive
      cases job with
      | none =>
          have hlater : (Link.sv1 buffer state' : Link κ).publishable = some j :=
            Link.publishable_sv1.mpr
              ⟨StratumState.authorized_receive hreceive hauthorized, hkept.trans hcurrent⟩
          rw [h] at hlater
          cases hlater
      | some made =>
          have hlater : (Link.sv1 buffer state' : Link κ).publishable = some made :=
            Link.publishable_sv1.mpr
              ⟨StratumState.authorized_receive hreceive hauthorized, hkept⟩
          rw [h] at hlater
          cases hlater
  | handledSv2 message session hlink hlink' => rwa [hlink', ← hlink] at h
  | sentSv1 f n buffer state hcheck hlink hlink' => rwa [hlink', ← hlink] at h
  | sentSv2 f n session session' hcheck hlink hlink' hlimit hsubmit =>
      obtain ⟨-, noise, written, rfl⟩ := Sv2.Session.submit_ok hsubmit
      rw [hlink'] at h
      rw [hlink]
      exact h

theorem publish_link (m : Machine cfg κ) (authorized fresh : Bool) :
    (m.publish authorized fresh).link = m.link := (publish_sameBooks m authorized fresh).1

/-- A message moves the connection, the books and the published work. -/
theorem handleMessage_next {message : Json} {next : Machine cfg κ}
    (hhandle : m.handleMessage message = .ok next) :
    ∃ link work activated, next = { m with
      link := link, work := work, activated := activated, ledger := m.ledger.account message
      trace := m.trace ++ [Event.received message] } := by
  have hpublish (n : Machine cfg κ) (authorized fresh : Bool) :
      ∃ work activated, n.publish authorized fresh = { n with
        work := work, activated := activated } := by
    unfold Machine.publish
    split
    · exact ⟨_, _, rfl⟩
    · exact ⟨_, _, rfl⟩
  rcases handleMessage_ok hhandle with
    ⟨buffer, state, state', job, -, -, rfl⟩ | ⟨session, -, rfl⟩
  · obtain ⟨work, activated, hnext⟩ := hpublish { m with
      trace := m.trace ++ [Event.received message], link := Link.sv1 buffer state'
      ledger := m.ledger.account message } state'.authorized job.isSome
    exact ⟨_, work, activated, hnext⟩
  · obtain ⟨work, activated, hnext⟩ := hpublish { m with
      trace := m.trace ++ [Event.received message], link := Link.sv2 session
      ledger := m.ledger.account message } session.current.isSome session.current.isSome
    exact ⟨_, work, activated, hnext⟩

/-- Publishing brings the work up to the session, or leaves it. -/
theorem publish_cases (m : Machine cfg κ) (authorized fresh : Bool) :
    (m.publish authorized fresh = { m with
        work := m.link.current, activated := m.link.current.isSome } ∧
      m.draining = false ∧ authorized = true) ∨
    (m.publish authorized fresh = m ∧
      (m.draining = true ∨ authorized = false ∨ (fresh = false ∧ m.activated = true))) := by
  unfold Machine.publish
  cases m.draining <;> cases authorized <;> cases fresh <;> cases m.activated <;> simp

/-- A share that goes out moves the connection and the books. -/
theorem submitOne_next {f : Found cfg.rows} {next : Machine cfg κ}
    (hsubmit : m.submitOne env f = .ok next) :
    next = m ∨ ∃ n link share, m.checkShare f = .ok (some n) ∧
      next = Machine.record { m.addCandidates n with link := link } share f ∧
      link.publishable = m.link.publishable := by
  obtain ⟨checked, hcheck, hsubmit⟩ := Loops.bind_eq_ok.mp hsubmit
  cases checked with
  | none =>
      obtain rfl := Loops.pure_eq_ok.mp hsubmit
      exact Or.inl rfl
  | some n =>
      dsimp only at hsubmit
      unfold Machine.sendShare at hsubmit
      refine Or.inr ?_
      cases hlink : m.link with
      | sv1 buffer state =>
          rw [show (m.addCandidates n).link = m.link from rfl, hlink] at hsubmit
          obtain rfl := Loops.pure_eq_ok.mp hsubmit
          refine ⟨n, m.link, _, hcheck, rfl, ?_⟩
          rw [hlink]
      | sv2 session =>
          rw [show (m.addCandidates n).link = m.link from rfl, hlink] at hsubmit
          obtain ⟨-, hsubmit⟩ := Loops.guard_eq_ok.mp hsubmit
          obtain ⟨session', hsession, hsubmit⟩ := Loops.bind_eq_ok.mp hsubmit
          obtain rfl := Loops.pure_eq_ok.mp hsubmit
          obtain ⟨-, noise, written, rfl⟩ := Sv2.Session.submit_ok hsession
          exact ⟨n, _, _, hcheck, rfl, rfl⟩

/-- The work after a message has been handled, and its neighbours. -/
structure Handled (n : Machine cfg κ) : Prop where
  activated : n.activated = n.work.isSome
  none_of_none : n.link.publishable = none → n.work = none
  current : n.draining = false → n.work = n.link.publishable

/-- The SV1 state moves and publishes in one step, so it is never ahead. -/
private theorem Machine.Posted.handledSv1 (h : m.Posted) {n : Machine cfg κ} {message : Json}
    {buffer : Text} {state state' : StratumState} {job : Option Job}
    (hlink : m.link = .sv1 buffer state) (hreceive : state.receive message = .ok (job, state'))
    (hlink' : n.link = .sv1 buffer state') (hwork : n.work = m.work)
    (hactivated : n.activated = m.activated) (hdraining : n.draining = m.draining)
    (hmonotone : n.link.publishable = none → m.link.publishable = none) :
    Handled (n.publish state'.authorized job.isSome) := by
  have hnever : ¬ m.Behind := by
    rintro ⟨hsv2, -⟩
    rw [hlink] at hsv2
    cases hsv2
  have hnone (hnone : n.link.publishable = none) : n.work = none :=
    hwork.trans (h.none_of_none (hmonotone hnone))
  rcases publish_cases n state'.authorized job.isSome with
    ⟨hpublish, hmines, hauthorized⟩ | ⟨hpublish, hwhy⟩
  · have hcurrent : n.link.publishable = n.link.current := by
      rw [hlink']
      exact if_pos hauthorized
    rw [hpublish]
    exact ⟨rfl, fun hnone => hcurrent.symm.trans hnone, fun _ => hcurrent.symm⟩
  · rw [hpublish]
    refine ⟨by rw [hactivated, hwork]; exact h.activated, hnone, ?_⟩
    intro hmines
    rcases hwhy with hstopped | hauthorized | ⟨hfresh, hactive⟩
    · rw [hmines] at hstopped
      cases hstopped
    · have hnot : n.link.publishable = none := by
        rw [hlink']
        exact if_neg (by rw [hauthorized]; decide)
      rw [hnot]
      exact hnone hnot
    · -- The work was published before, and this message returns no job.
      obtain rfl : job = none := by simpa using hfresh
      have hbefore := h.current (hdraining.symm.trans hmines) hnever
      rw [hactivated, h.activated, Option.isSome_iff_exists] at hactive
      obtain ⟨j, hj⟩ := hactive
      have hpublished := hbefore.symm.trans hj
      rw [hlink] at hpublished
      obtain ⟨hauthorized, hcurrent⟩ := Link.publishable_sv1.mp hpublished
      rw [hwork, hj, hlink']
      exact (Link.publishable_sv1.mpr ⟨StratumState.authorized_receive hreceive hauthorized,
        (StratumState.current_receive hreceive).trans hcurrent⟩).symm

/-- Every report of the SV2 session has its current job published. -/
private theorem Machine.Posted.handledSv2 (h : m.Posted) {n : Machine cfg κ}
    {session : Sv2.Session κ} (hlink : m.link = .sv2 session) (hlink' : n.link = .sv2 session)
    (hwork : n.work = m.work) (hactivated : n.activated = m.activated) :
    Handled (n.publish session.current.isSome session.current.isSome) := by
  have hcurrent : n.link.current = session.current ∧ n.link.publishable = session.current := by
    rw [hlink']
    exact ⟨rfl, rfl⟩
  rcases publish_cases n session.current.isSome session.current.isSome with
    ⟨hpublish, -, -⟩ | ⟨hpublish, hwhy⟩
  · rw [hpublish]
    exact ⟨rfl, fun hnone => hcurrent.1.trans (hcurrent.2.symm.trans hnone),
      fun _ => hcurrent.1.trans hcurrent.2.symm⟩
  · have hnone (hnone : session.current = none) : n.work = none := by
      rw [hwork]
      refine h.none_of_none ?_
      rw [hlink]
      exact hnone
    rw [hpublish]
    refine ⟨by rw [hactivated, hwork]; exact h.activated,
      fun hno => hnone (hcurrent.2.symm.trans hno), ?_⟩
    intro hmines
    have hno : session.current = none := by
      rcases hwhy with hstopped | hauthorized | ⟨hfresh, -⟩
      · rw [hmines] at hstopped
        cases hstopped
      · simpa using hauthorized
      · simpa using hfresh
    rw [hnone hno, hcurrent.2, hno]

theorem MainStep.posted (hstep : MainStep env m m') (h : m.Posted) : m'.Posted := by
  have hmonotone := (Step.main hstep).publishable
  have hmain {main : Main cfg.rows} (hmain : m.main = main)
      (hother : ∀ messages, main ≠ .handling messages) : ¬ m.Behind := fun hbehind =>
    hbehind.2 (queued_of_main hmain hother)
  -- A step that neither reads nor handles a message leaves the session where it is.
  have hquiet (hlink : m'.link.publishable = m.link.publishable) (hwork : m'.work = m.work)
      (hactivated : m'.activated = m.activated)
      (hdraining : m'.draining = false → m.draining = false) {main : Main cfg.rows}
      (hwhere : m.main = main) (hother : ∀ messages, main ≠ .handling messages) : m'.Posted :=
    h.same hlink hwork hactivated hdraining fun hbehind => absurd hbehind (hmain hwhere hother)
  cases hstep with
  | iterate expired early later hwhere =>
      refine hquiet ?_ ?_ ?_ ?_ hwhere (by simp)
      all_goals
        unfold Machine.beginIteration
        split
      all_goals first | rfl | simp
  | leave expired early hwhere => exact hquiet rfl rfl rfl id hwhere (by simp)
  | poll chunks ending messages link hwhere hread =>
      refine ⟨h.activated, fun hnone => h.none_of_none (hmonotone hnone), ?_⟩
      intro hmines hnot
      have hbefore := h.current hmines (hmain hwhere (by simp))
      change m.work = link.publishable
      rw [hbefore]
      cases link with
      | sv1 buffer' state' =>
          obtain ⟨buffer, hlink⟩ := read_sv1 hread
          rw [hlink]
          rfl
      | sv2 session' =>
          obtain ⟨session, bytes, hlink, hreceive⟩ := read_sv2 hread
          obtain rfl : messages = [] := by
            by_contra hsome
            exact hnot ⟨rfl, hsome⟩
          rw [hlink]
          exact (Sv2.Session.current_receive_nil hreceive).symm
  | pollFailed chunks ending e hwhere => exact hquiet rfl rfl rfl id hwhere (by simp)
  | handle next message rest hwhere hhandle =>
      rcases handleMessage_ok hhandle with
        ⟨buffer, state, state', job, hlink, hreceive, rfl⟩ | ⟨session, hlink, rfl⟩
      · have hhandled := h.handledSv1 (n := { m with
            trace := m.trace ++ [Event.received message], link := .sv1 buffer state'
            ledger := m.ledger.account message }) hlink hreceive rfl rfl rfl rfl (fun hnone =>
              hmonotone ((congrArg Link.publishable (publish_link _ _ _)).trans hnone))
        exact ⟨hhandled.activated, hhandled.none_of_none, fun hmines _ => hhandled.current hmines⟩
      · have hhandled := h.handledSv2 (n := { m with
            trace := m.trace ++ [Event.received message], link := .sv2 session
            ledger := m.ledger.account message }) hlink rfl rfl rfl
        exact ⟨hhandled.activated, hhandled.none_of_none, fun hmines _ => hhandled.current hmines⟩
  | handleFailed message rest e hwhere hhandle =>
      obtain ⟨buffer, state, hlink⟩ := handleMessage_error hhandle
      refine h.same rfl rfl rfl id ?_
      rintro ⟨hsv2, -⟩
      rw [hlink] at hsv2
      cases hsv2
  | handled hwhere =>
      refine h.same rfl rfl rfl id ?_
      rintro ⟨-, hqueued⟩
      refine absurd ?_ hqueued
      unfold Machine.queued
      rw [hwhere]
  | collect hwhere => exact hquiet rfl rfl rfl id hwhere (by simp)
  | collectFailed hwhere => exact hquiet rfl rfl rfl id hwhere (by simp)
  | submit next f rest hwhere hsubmit =>
      rcases submitOne_next hsubmit with rfl | ⟨n, link, share, -, rfl, hlink⟩
      · exact hquiet rfl rfl rfl id hwhere (by simp)
      · exact hquiet hlink rfl rfl id hwhere (by simp)
  | submitFailed f rest e hwhere =>
      obtain ⟨n, hn⟩ := afterFailure_idle m f
      rw [hn]
      exact h.same rfl rfl rfl id fun hbehind => absurd hbehind (hmain hwhere (by simp))
  | submitted hwhere => exact hquiet rfl rfl rfl id hwhere (by simp)
  | wait hwhere => exact hquiet rfl rfl rfl id hwhere (by simp)
  | sendBroken f rest e hwhere =>
      obtain ⟨n, hn⟩ := afterFailure_idle m f
      rw [hn]
      exact h.same rfl rfl rfl id fun hbehind => absurd hbehind (hmain hwhere (by simp))
  | broken e hwhere =>
      refine h.same rfl rfl rfl id fun hbehind => ?_
      rcases hwhere with hwhere | hwhere
      · exact absurd hbehind (hmain hwhere (by simp))
      · exact absurd hbehind (hmain hwhere (by simp))

theorem posted_of_run {link : Link κ} (hlink : link.Fresh) (hrun : Run env link start m) :
    m.Posted := by
  induction hrun with
  | refl =>
      refine ⟨rfl, fun _ => rfl, fun _ _ => ?_⟩
      cases hlink <;> rfl
  | tail _ hstep ih =>
      cases hstep with
      | main hmain => exact hmain.posted ih
      | worker i hworker =>
          obtain ⟨hlink, hmain, hwork, -, -, hactivated, hdraining, -⟩ := hworker.sameConnection
          refine ih.same (by rw [hlink]) hwork hactivated
            (fun hmines => hdraining.symm.trans hmines) ?_
          rintro ⟨hsv2, hqueued⟩
          refine ⟨by rw [hlink]; exact hsv2, ?_⟩
          rw [Machine.queued, hmain]
          exact hqueued

/-- A connection that winds down goes on to do so. -/
theorem MainStep.draining (hstep : MainStep env m m') (hdraining : m.draining = true) :
    m'.draining = true := by
  cases hstep with
  | iterate expired early later =>
      unfold Machine.beginIteration
      split
      · rfl
      · exact hdraining
  | handle next message rest hmain hhandle =>
      obtain ⟨link, work, activated, rfl⟩ := handleMessage_next hhandle
      exact hdraining
  | submit next f rest hmain hsubmit =>
      rcases submitOne_next hsubmit with rfl | ⟨n, link, share, -, rfl, -⟩
      · exact hdraining
      · exact hdraining
  | submitFailed f rest e =>
      obtain ⟨n, hn⟩ := afterFailure_idle m f
      rw [hn]
      exact hdraining
  | sendBroken f rest e =>
      obtain ⟨n, hn⟩ := afterFailure_idle m f
      rw [hn]
      exact hdraining
  | _ => exact hdraining

/-! ### Jobs that were handed out -/

/-- A job that is published, in the hands of a worker, or was scanned. -/
inductive Machine.Handed (m : Machine cfg κ) (j : Job) : Prop
  | work (h : m.work = some j)
  | carried (i : Fin cfg.slots) (h : (m.workers i).phase.job? = some j)
  | scanned (s : ScanCall cfg.slots) (hs : s ∈ m.scans) (h : s.job = j)

/-- A worker hands out nothing but the job it was given, with the time rolled. -/
theorem WorkerStep.handed {i : Fin cfg.slots} (hstep : WorkerStep i m m') {j : Job}
    (h : m'.Handed j) : m.Handed j ∨ ∃ given time, m.Handed given ∧ j = given.roll time := by
  have hrolled {given : Job} {reserved start : UInt64} {count : UInt32} {j' : Job}
      (hphase : (m.workers i).phase = .holding given reserved)
      (hrange : ((m.workers i).adopt given).range i (cfg.batch i) given reserved =
        .ok (j', start, count)) :
      m.Handed j' ∨ ∃ given time, m.Handed given ∧ j' = given.roll time := by
    have hgiven : m.Handed given := .carried i (by rw [hphase]; rfl)
    rcases range_ok hrange with ⟨-, p, -, rfl, -⟩ | ⟨-, rfl, -⟩
    · exact Or.inr ⟨given, p.ntime, hgiven, rfl⟩
    · exact Or.inl hgiven
  have hsame {k : Fin cfg.slots} (hk : k ≠ i) (hj : (m'.workers k).phase.job? = some j) :
      m.Handed j := .carried k (by rw [← hstep.others hk]; exact hj)
  have hscan {s : ScanCall cfg.slots} (hscans : m'.scans = m.scans) (hs : s ∈ m'.scans)
      (hj : s.job = j) : m.Handed j := .scanned s (hscans ▸ hs) hj
  have hfresh {s call : ScanCall cfg.slots} (hscans : m'.scans = m.scans ++ [call])
      (hs : s ∈ m'.scans) (hj : s.job = j) : m.Handed j ∨ call.job = j := by
    rw [hscans] at hs
    rcases List.mem_append.mp hs with hs | hs
    · exact Or.inl (.scanned s hs hj)
    · rw [List.mem_singleton.mp hs] at hj
      exact Or.inr hj
  cases h with
  | work hwork => exact Or.inl (.work (hstep.sameConnection.work.symm.trans hwork))
  | carried k hj =>
      by_cases hk : k = i
      · subst hk
        cases hstep.effect with
        | moved phase hworker hphase =>
            rw [hworker, hphase] at hj
            cases hj
        | took given reserved hwork hworker =>
            rw [hworker] at hj
            cases hj
            exact Or.inl (.work hwork)
        | refused given reserved e hphase hworker =>
            rw [hworker] at hj
            cases hj
        | scanned given j' reserved start count r hphase hrange hbackend hworker =>
            rw [hworker] at hj
            cases hj
            exact hrolled hphase hrange
        | failed given j' reserved start count e hphase hrange hworker =>
            rw [hworker] at hj
            cases hj
        | pushed given r hphase hworker =>
            rw [hworker] at hj
            cases hj
      · exact Or.inl (hsame hk hj)
  | scanned s hs hj =>
      cases hstep.effect with
      | moved phase hworker hphase halted hfound hscans => exact Or.inl (hscan hscans hs hj)
      | took given reserved hwork hworker halted hfound hscans => exact Or.inl (hscan hscans hs hj)
      | refused given reserved e hphase hworker hfound hscans => exact Or.inl (hscan hscans hs hj)
      | pushed given r hphase hworker hfound hscans => exact Or.inl (hscan hscans hs hj)
      | scanned given j' reserved start count r hphase hrange hbackend hworker hfound hscans =>
          rcases hfresh hscans hs hj with hold | rfl
          · exact Or.inl hold
          · exact hrolled hphase hrange
      | failed given j' reserved start count e hphase hrange hworker hfound hscans =>
          rcases hfresh hscans hs hj with hold | rfl
          · exact Or.inl hold
          · exact hrolled hphase hrange

/-- The connection loop hands out what it publishes. -/
theorem MainStep.handed (hstep : MainStep env m m') {j : Job} (h : m'.Handed j) :
    m.Handed j ∨ m'.work = some j := by
  cases h with
  | work hwork => exact Or.inr hwork
  | carried i hj =>
      rw [hstep.sameWorkers.workers] at hj
      exact Or.inl (.carried i hj)
  | scanned s hs hj =>
      rw [hstep.scans] at hs
      exact Or.inl (.scanned s hs hj)

theorem MainStep.work (hstep : MainStep env m m') :
    m'.work = m.work ∨ m'.work = m'.link.publishable := by
  cases hstep with
  | iterate expired early later =>
      unfold Machine.beginIteration
      split <;> exact Or.inl rfl
  | handle next message rest hmain hhandle =>
      rcases handleMessage_ok hhandle with
        ⟨buffer, state, state', job, hlink, hreceive, rfl⟩ | ⟨session, hlink, rfl⟩
      · rcases publish_cases { m with
            trace := m.trace ++ [Event.received message], link := Link.sv1 buffer state'
            ledger := m.ledger.account message } state'.authorized job.isSome with
          ⟨hpublish, -, hauthorized⟩ | ⟨hpublish, -⟩
        · rw [hpublish]
          exact Or.inr (if_pos hauthorized).symm
        · rw [hpublish]
          exact Or.inl rfl
      · rcases publish_cases { m with
            trace := m.trace ++ [Event.received message], link := Link.sv2 session
            ledger := m.ledger.account message } session.current.isSome session.current.isSome with
          ⟨hpublish, -⟩ | ⟨hpublish, -⟩
        · rw [hpublish]
          exact Or.inr rfl
        · rw [hpublish]
          exact Or.inl rfl
  | submit next f rest hmain hsubmit =>
      rcases submitOne_next hsubmit with rfl | ⟨n, link, share, -, rfl, -⟩
      · exact Or.inl rfl
      · exact Or.inl rfl
  | submitFailed f rest e =>
      obtain ⟨n, hn⟩ := afterFailure_idle m f
      rw [hn]
      exact Or.inl rfl
  | sendBroken f rest e =>
      obtain ⟨n, hn⟩ := afterFailure_idle m f
      rw [hn]
      exact Or.inl rfl
  | _ => exact Or.inl rfl

theorem Link.Past.roll {link : Link κ} {j : Job} (h : link.Past j) (time : UInt32) :
    link.Past (j.roll time) := by
  cases link with
  | sv1 buffer state => exact ⟨h.1, h.2.roll time⟩
  | sv2 session => exact ⟨h.phase, Sv2.Session.Older.roll (Sv2.Session.Past.older h) time⟩

/-- Every job that was handed out is one the session let the miner work on. -/
theorem past_of_run {link : Link κ} (hlink : link.Fresh) (hrun : Run env link start m) {j : Job}
    (h : m.Handed j) : m.link.Past j := by
  induction hrun generalizing j with
  | refl =>
      cases h with
      | work h => cases h
      | carried i h => cases h
      | scanned s hs h => exact absurd hs List.not_mem_nil
  | @tail before next hbefore hstep ih =>
      cases hstep with
      | worker i hworker =>
          rw [hworker.sameConnection.link]
          rcases hworker.handed h with hold | ⟨given, time, hold, rfl⟩
          · exact ih hold
          · exact (ih hold).roll time
      | main hmain =>
          have hpast {j : Job} (hj : before.Handed j) : next.link.Past j :=
            ((Step.main hmain).past (ih hj)).1
          rcases hmain.handed h with hold | hwork
          · exact hpast hold
          · rcases hmain.work with hkept | hpublished
            · exact hpast (.work (hkept.symm.trans hwork))
            · exact (((Step.main hmain).lived (lived_of_run hlink hbefore)).publishable
                (hpublished.symm.trans hwork)).1

theorem stands_of_steps (hsteps : Relation.ReflTransGen (Step env) m m') {j : Job}
    (hpast : m.link.Past j) : m'.link.Past j ∧ (m'.link.Stands j → m.link.Stands j) := by
  induction hsteps with
  | refl => exact ⟨hpast, id⟩
  | tail _ hstep ih =>
      obtain ⟨hlater, hstands⟩ := hstep.past ih.1
      exact ⟨hlater, fun h => ih.2 (hstands h)⟩

/-- In every run, whatever the pool sends and however the threads are
interleaved: while the connection mines and no report of the session waits, the
workers are given the session's current job and nothing else, and it is valid.
No job that was handed out and has gone stale becomes valid again before
`2 ^ 64` jobs have been activated. -/
theorem work_is_current {link : Link κ} (hlink : link.Fresh) (hrun : Run env link start m) :
    (m.draining = false → ¬ m.Behind →
      m.work = m.link.publishable ∧ ∀ j, m.work = some j → m.link.valid j = true) ∧
    ∀ m' j, Relation.ReflTransGen (Step env) m m' → m'.link.generation ≤ 2 ^ 64 → m.Handed j →
      m'.link.valid j = true → m.link.valid j = true := by
  refine ⟨fun hmines hnot => ?_, fun m' j hsteps hfew hj hvalid => ?_⟩
  · have hcurrent := (posted_of_run hlink hrun).current hmines hnot
    refine ⟨hcurrent, fun j hj => ?_⟩
    obtain ⟨hpast, hstands⟩ :=
      (lived_of_run hlink hrun).publishable (hcurrent.symm.trans hj)
    exact hpast.valid hstands
  · have hpast := past_of_run hlink hrun hj
    obtain ⟨hlater, hstands⟩ := stands_of_steps hsteps hpast
    exact hpast.valid (hstands (Link.stands_of_valid (sound_of_run hlink (hrun.trans hsteps)) hfew
      hlater.older hvalid))

theorem work_is_current_sample :
    ∃ (m : Machine sampleConfig Unit) (job : Job), Run (sampleEnv []) (.sv1 [] {}) {} m ∧
      m.work = some job ∧ m.link.publishable = some job ∧ m.link.valid job = true := by
  obtain ⟨m, state, job, hrun, hmines, -⟩ := sample_mines []
  obtain ⟨hcurrent, hvalid⟩ := (work_is_current .sv1 hrun).1 hmines.draining (by
    rintro ⟨hsv2, -⟩
    rw [hmines.link] at hsv2
    cases hsv2)
  exact ⟨m, job, hrun, hmines.work, hcurrent.symm.trans hmines.work, hvalid job hmines.work⟩

end Miner

end Supryolo
