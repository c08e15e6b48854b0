import Supryolo.Miner.Machine

namespace Supryolo.Miner

open Loops

variable {cfg : Config} {κ : Type} {env : Env κ} {m m' : Machine cfg κ}

/-- The messages of a read that have not been handled yet. -/
def Machine.queued (m : Machine cfg κ) : List Json :=
  match m.main with
  | .handling messages => messages
  | _ => []

/-- The messages handled so far. -/
def Machine.received (m : Machine cfg κ) : List Json :=
  m.trace.filterMap fun
    | .received message => some message
    | _ => none

/-- What a worker cannot touch. -/
structure SameConnection (m m' : Machine cfg κ) : Prop where
  link : m'.link = m.link
  main : m'.main = m.main
  work : m'.work = m.work
  ledger : m'.ledger = m.ledger
  nextId : m'.nextId = m.nextId
  activated : m'.activated = m.activated
  draining : m'.draining = m.draining
  stop : m'.stop = m.stop

theorem syncCursor_sameConnection (m : Machine cfg κ) (j : Job) :
    SameConnection m (m.syncCursor j) := by
  unfold Machine.syncCursor
  split <;> constructor <;> rfl

theorem syncCursor_fields (m : Machine cfg κ) (j : Job) :
    (m.syncCursor j).trace = m.trace ∧ (m.syncCursor j).sharedGeneration = j.generation ∧
      (m.syncCursor j).sharedCursor =
        if sameCount m.sharedGeneration j.generation then m.sharedCursor else 0 := by
  unfold Machine.syncCursor
  split <;> exact ⟨rfl, rfl, rfl⟩

theorem takeWork_sameConnection (m : Machine cfg κ) (i : Fin cfg.slots) :
    SameConnection m (m.takeWork i) := by
  unfold Machine.takeWork
  split
  · constructor <;> rfl
  · rename_i j hwork
    have hsync := syncCursor_sameConnection m j
    split
    · dsimp only
      split
      · exact ⟨hsync.1, hsync.2, hsync.3, hsync.4, hsync.5, hsync.6, hsync.7, hsync.8⟩
      · exact ⟨hsync.1, hsync.2, hsync.3, hsync.4, hsync.5, hsync.6, hsync.7, hsync.8⟩
    · constructor <;> rfl

theorem WorkerStep.sameConnection {i : Fin cfg.slots} (h : WorkerStep i m m') :
    SameConnection m m' := by
  cases h with
  | construct => constructor <;> rfl
  | constructFailed => constructor <;> rfl
  | check => constructor <;> rfl
  | take => exact takeWork_sameConnection m i
  | scan j j' reserved start count outcome =>
      cases outcome <;> constructor <;> rfl
  | scanRefused => constructor <;> rfl
  | push j r =>
      unfold Machine.pushFound
      split <;> constructor <;> rfl
  | fail => constructor <;> rfl

theorem takeWork_received (m : Machine cfg κ) (i : Fin cfg.slots) :
    (m.takeWork i).received = m.received := by
  unfold Machine.takeWork
  split
  · rfl
  · split
    · unfold Machine.syncCursor
      dsimp only
      split <;> split <;> simp [Machine.received, Machine.setPhase, Machine.setWorker]
    · rfl

theorem WorkerStep.received {i : Fin cfg.slots} (h : WorkerStep i m m') :
    m'.received = m.received := by
  cases h with
  | take => exact takeWork_received m i
  | scan j j' reserved start count outcome =>
      cases outcome <;> simp [Machine.received, Machine.scanRange, Machine.setWorker]
  | push j r =>
      unfold Machine.pushFound
      split <;> rfl
  | _ => rfl

theorem WorkerStep.parting {i : Fin cfg.slots} (h : WorkerStep i m m') : m'.parting = m.parting := by
  cases h with
  | take =>
      unfold Machine.takeWork
      split
      · rfl
      · split
        · unfold Machine.syncCursor
          dsimp only
          split <;> split <;> rfl
        · rfl
  | scan j j' reserved start count outcome => cases outcome <;> rfl
  | push j r =>
      unfold Machine.pushFound
      split <;> rfl
  | _ => rfl

theorem publish_parting (m : Machine cfg κ) (authorized fresh : Bool) :
    (m.publish authorized fresh).parting = m.parting := by
  unfold Machine.publish
  split <;> rfl

/-- The effect of a step on the connection, the books and the messages still to
be handled. -/
inductive Effect (env : Env κ) (m m' : Machine cfg κ) : Prop
  | idle (n : Nat) (hlink : m'.link = m.link) (hledger : m'.ledger = m.ledger.addCandidates n)
      (hnextId : m'.nextId = m.nextId)
      (hqueued : m'.queued = m.queued ∨ ∃ buffer state, m.link = .sv1 buffer state)
      (hreceived : m'.received = m.received) (hwork : m'.work = m.work)
  | received (chunks : List Bytes) (ending : Ending) (messages : List Json)
      (hread : m.link.read env chunks ending = .ok (messages, m'.link))
      (hledger : m'.ledger = m.ledger) (hnextId : m'.nextId = m.nextId)
      (hempty : m.queued = []) (hqueued : m'.queued = messages)
      (hreceived : m'.received = m.received) (hwork : m'.work = m.work)
  | handledSv1 (message : Json) (buffer : Text) (state state' : StratumState) (job : Option Job)
      (hlink : m.link = .sv1 buffer state) (hlink' : m'.link = .sv1 buffer state')
      (hreceive : state.receive message = .ok (job, state'))
      (hledger : m'.ledger = m.ledger.account message) (hnextId : m'.nextId = m.nextId)
      (hqueued : m.queued = message :: m'.queued)
      (hreceived : m'.received = m.received ++ [message])
      (hwork : m'.work = m.work ∨ m'.work = m'.link.current)
  | handledSv2 (message : Json) (session : Sv2.Session κ) (hlink : m.link = .sv2 session)
      (hlink' : m'.link = .sv2 session) (hledger : m'.ledger = m.ledger.account message)
      (hnextId : m'.nextId = m.nextId) (hqueued : m.queued = message :: m'.queued)
      (hreceived : m'.received = m.received ++ [message])
      (hwork : m'.work = m.work ∨ m'.work = m'.link.current)
  | sentSv1 (f : Found cfg.rows) (n : Nat) (buffer : Text) (state : StratumState)
      (hcheck : m.checkShare f = .ok (some n)) (hlink : m.link = .sv1 buffer state)
      (hlink' : m'.link = .sv1 buffer state)
      (hledger : m'.ledger = (m.ledger.addCandidates n).submit m.nextId f.row)
      (hnextId : m'.nextId = m.nextId + 1) (hempty : m.queued = []) (hqueued : m'.queued = [])
      (hreceived : m'.received = m.received) (hwork : m'.work = m.work)
  | sentSv2 (f : Found cfg.rows) (n : Nat) (session session' : Sv2.Session κ)
      (hcheck : m.checkShare f = .ok (some n)) (hlink : m.link = .sv2 session)
      (hlink' : m'.link = .sv2 session') (hlimit : m.nextId ≤ 0xffffffff)
      (hsubmit : session.submit env.foreign f.job f.nonce m.nextId.toNat.toUInt32 = .ok session')
      (hledger : m'.ledger = (m.ledger.addCandidates n).submit m.nextId f.row)
      (hnextId : m'.nextId = m.nextId + 1) (hempty : m.queued = []) (hqueued : m'.queued = [])
      (hreceived : m'.received = m.received) (hwork : m'.work = m.work)

theorem publish_sameBooks (m : Machine cfg κ) (authorized fresh : Bool) :
    (m.publish authorized fresh).link = m.link ∧
      (m.publish authorized fresh).ledger = m.ledger ∧
      (m.publish authorized fresh).nextId = m.nextId ∧
      (m.publish authorized fresh).trace = m.trace ∧
      ((m.publish authorized fresh).work = m.work ∨
        (m.publish authorized fresh).work = m.link.current) := by
  unfold Machine.publish
  split
  · exact ⟨rfl, rfl, rfl, rfl, Or.inr rfl⟩
  · exact ⟨rfl, rfl, rfl, rfl, Or.inl rfl⟩

theorem queued_of_main {main : Main cfg.rows} (hmain : m.main = main)
    (hother : ∀ messages, main ≠ .handling messages) : m.queued = [] := by
  unfold Machine.queued
  rw [hmain]
  cases main with
  | handling messages => exact absurd rfl (hother messages)
  | _ => rfl

theorem afterFailure_idle (m : Machine cfg κ) (f : Found cfg.rows) :
    ∃ n, m.afterFailure f = m.addCandidates n := by
  unfold Machine.afterFailure
  split
  · exact ⟨_, rfl⟩
  · exact ⟨0, rfl⟩

private theorem effect_of_idle (n : Nat) (hlink : m'.link = m.link)
    (hledger : m'.ledger = m.ledger.addCandidates n) (hnextId : m'.nextId = m.nextId)
    (hqueued' : m'.queued = []) (htrace : m'.trace = m.trace) (hwork : m'.work = m.work)
    {main : Main cfg.rows} (hmain : m.main = main)
    (hother : ∀ messages, main ≠ .handling messages) : Effect env m m' :=
  .idle n hlink hledger hnextId (Or.inl (hqueued'.trans (queued_of_main hmain hother).symm))
    (by rw [Machine.received, htrace, Machine.received]) hwork

/-- A handled message settles the share with its id, and the work is published
afterwards. -/
theorem handleMessage_ok {message : Json} {next : Machine cfg κ}
    (hhandle : m.handleMessage message = .ok next) :
    (∃ buffer state state' job, m.link = .sv1 buffer state ∧
        state.receive message = .ok (job, state') ∧
        next = { m with
          trace := m.trace ++ [Event.received message], link := .sv1 buffer state'
          ledger := m.ledger.account message }.publish state'.authorized job.isSome) ∨
      ∃ session, m.link = .sv2 session ∧
        next = { m with
          trace := m.trace ++ [Event.received message], link := .sv2 session
          ledger := m.ledger.account message }.publish
            session.current.isSome session.current.isSome := by
  unfold Machine.handleMessage at hhandle
  cases hlink : m.link with
  | sv1 buffer state =>
      simp only [hlink] at hhandle
      obtain ⟨⟨job, state'⟩, hreceive, hhandle⟩ := bind_eq_ok.mp hhandle
      exact Or.inl ⟨buffer, state, state', job, rfl, hreceive, (pure_eq_ok.mp hhandle).symm⟩
  | sv2 session =>
      simp only [hlink] at hhandle
      exact Or.inr ⟨session, rfl, (pure_eq_ok.mp hhandle).symm⟩

theorem handleMessage_effect {message : Json} {rest : List Json} {next : Machine cfg κ}
    (hmain : m.main = .handling (message :: rest))
    (hhandle : m.handleMessage message = .ok next) :
    Effect env m { next with main := .handling rest } := by
  have hqueued : m.queued = message :: rest := by
    unfold Machine.queued
    rw [hmain]
  rcases handleMessage_ok hhandle with
    ⟨buffer, state, state', job, hlink, hreceive, rfl⟩ | ⟨session, hlink, rfl⟩
  · obtain ⟨hlink', hledger, hnextId, htrace, hwork⟩ :=
      publish_sameBooks _ state'.authorized job.isSome
    refine .handledSv1 message buffer state state' job hlink hlink' hreceive hledger hnextId hqueued
      ?_ ?_
    · simp [Machine.received, htrace]
    · exact hwork.imp_right fun hcurrent => hcurrent.trans (congrArg Link.current hlink'.symm)
  · obtain ⟨hlink', hledger, hnextId, htrace, hwork⟩ :=
      publish_sameBooks _ session.current.isSome session.current.isSome
    refine .handledSv2 message session hlink hlink' hledger hnextId hqueued ?_ ?_
    · simp [Machine.received, htrace]
    · exact hwork.imp_right fun hcurrent => hcurrent.trans (congrArg Link.current hlink'.symm)

/-- Only the SV1 state machine refuses messages that have been read. -/
theorem handleMessage_error {message : Json} {e : String}
    (hhandle : m.handleMessage message = .error e) :
    ∃ buffer state, m.link = .sv1 buffer state := by
  unfold Machine.handleMessage at hhandle
  cases hlink : m.link with
  | sv1 buffer state => exact ⟨buffer, state, rfl⟩
  | sv2 session =>
      simp only [hlink] at hhandle
      cases hhandle

/-- A read of an SV2 connection is a call of the session. -/
theorem read_sv2 {link : Link κ} {chunks : List Bytes} {ending : Ending} {messages : List Json}
    {session' : Sv2.Session κ} (hread : link.read env chunks ending = .ok (messages, .sv2 session')) :
    ∃ session bytes, link = .sv2 session ∧
      session.receive env.foreign bytes = .ok (messages, session') := by
  unfold Link.read at hread
  cases link with
  | sv1 buffer state =>
      obtain ⟨⟨out, rest⟩, -, hread⟩ := bind_eq_ok.mp hread
      cases hread
  | sv2 session =>
      obtain ⟨bytes, -, hread⟩ := bind_eq_ok.mp hread
      obtain ⟨⟨out, next⟩, hreceive, hread⟩ := bind_eq_ok.mp hread
      obtain ⟨rfl, hnext⟩ := Prod.mk.inj (pure_eq_ok.mp hread)
      obtain rfl := Link.sv2.inj hnext
      exact ⟨session, bytes, rfl, hreceive⟩

theorem submitOne_effect {f : Found cfg.rows} {rest : List (Found cfg.rows)}
    {next : Machine cfg κ} (hmain : m.main = .submitting (f :: rest))
    (hsubmit : m.submitOne env f = .ok next) :
    Effect env m { next with main := .submitting rest } := by
  obtain ⟨checked, hcheck, hsubmit⟩ := bind_eq_ok.mp hsubmit
  have hempty : m.queued = [] := queued_of_main hmain (by simp)
  cases checked with
  | none =>
      obtain rfl := pure_eq_ok.mp hsubmit
      exact effect_of_idle 0 rfl rfl rfl rfl rfl rfl hmain (by simp)
  | some n =>
      dsimp only at hsubmit
      unfold Machine.sendShare at hsubmit
      cases hlink : m.link with
      | sv1 buffer state =>
          rw [show (m.addCandidates n).link = m.link from rfl, hlink] at hsubmit
          obtain rfl := pure_eq_ok.mp hsubmit
          refine .sentSv1 f n buffer state hcheck hlink hlink rfl rfl hempty rfl ?_ rfl
          simp [Machine.received, Machine.record, Machine.addCandidates]
      | sv2 session =>
          rw [show (m.addCandidates n).link = m.link from rfl, hlink] at hsubmit
          dsimp only at hsubmit
          obtain ⟨hlimit, hsubmit⟩ := guard_eq_ok.mp hsubmit
          obtain ⟨session', hsession, hsubmit⟩ := bind_eq_ok.mp hsubmit
          obtain rfl := pure_eq_ok.mp hsubmit
          refine .sentSv2 f n session session' hcheck hlink rfl (not_lt.mp hlimit) hsession rfl rfl
            hempty rfl ?_ rfl
          simp [Machine.received, Machine.record, Machine.addCandidates]

/-- A share that passes the checks is valid and meets the target of its job. -/
theorem checkShare_ok {f : Found cfg.rows} {n : Nat} (h : m.checkShare f = .ok (some n)) :
    m.draining = false ∧ m.link.valid f.job = true ∧ m.ledger.pending.entries.length < 4096 ∧
      ∃ hash, blake2b256 (storeLe f.job.work.header 32 f.nonce).toList = .ok hash ∧
        meets hash f.job.work.target = true := by
  unfold Machine.checkShare at h
  cases hdraining : m.draining with
  | true => rw [hdraining] at h; cases h
  | false =>
      rw [hdraining] at h
      cases hvalid : m.link.valid f.job with
      | false => rw [hvalid] at h; cases h
      | true =>
          rw [hvalid] at h
          obtain ⟨hlimit, h⟩ := Loops.guard_eq_ok.mp h
          obtain ⟨hash, hhash, h⟩ := Loops.bind_eq_ok.mp h
          obtain ⟨hmeets, -⟩ := Loops.guard_eq_ok.mp h
          exact ⟨rfl, rfl, not_le.mp hlimit, hash, hhash, by simpa using hmeets⟩

theorem MainStep.effect (h : MainStep env m m') : Effect env m m' := by
  cases h with
  | iterate expired early later hmain =>
      unfold Machine.beginIteration
      split <;> exact effect_of_idle 0 rfl rfl rfl rfl rfl rfl hmain (by simp)
  | leave expired early hmain => exact effect_of_idle 0 rfl rfl rfl rfl rfl rfl hmain (by simp)
  | poll chunks ending messages link hmain hread =>
      exact .received chunks ending messages hread rfl rfl (queued_of_main hmain (by simp)) rfl rfl
        rfl
  | pollFailed chunks ending e hmain =>
      exact effect_of_idle 0 rfl rfl rfl rfl rfl rfl hmain (by simp)
  | handle next message rest hmain hhandle => exact handleMessage_effect hmain hhandle
  | handleFailed message rest e hmain hhandle =>
      exact .idle 0 rfl rfl rfl (Or.inr (handleMessage_error hhandle)) rfl rfl
  | handled hmain =>
      refine .idle 0 rfl rfl rfl (Or.inl ?_) rfl rfl
      unfold Machine.queued
      rw [hmain]
  | collect hmain => exact effect_of_idle 0 rfl rfl rfl rfl rfl rfl hmain (by simp)
  | collectFailed hmain => exact effect_of_idle 0 rfl rfl rfl rfl rfl rfl hmain (by simp)
  | submit next f rest hmain hsubmit => exact submitOne_effect hmain hsubmit
  | submitFailed f rest e hmain =>
      obtain ⟨n, hn⟩ := afterFailure_idle m f
      rw [hn]
      exact effect_of_idle n rfl rfl rfl rfl rfl rfl hmain (by simp)
  | submitted hmain => exact effect_of_idle 0 rfl rfl rfl rfl rfl rfl hmain (by simp)
  | wait hmain => exact effect_of_idle 0 rfl rfl rfl rfl rfl rfl hmain (by simp)
  | sendBroken f rest e hmain =>
      obtain ⟨n, hn⟩ := afterFailure_idle m f
      rw [hn]
      exact effect_of_idle n rfl rfl rfl rfl rfl rfl hmain (by simp)
  | broken e hmain =>
      rcases hmain with hmain | hmain
      · exact effect_of_idle 0 rfl rfl rfl rfl rfl rfl hmain (by simp)
      · exact effect_of_idle 0 rfl rfl rfl rfl rfl rfl hmain (by simp)

theorem Step.effect (h : Step env m m') : Effect env m m' := by
  cases h with
  | main h => exact h.effect
  | worker i h =>
      have hsame := h.sameConnection
      refine .idle 0 hsame.link hsame.ledger hsame.nextId (Or.inl ?_) h.received hsame.work
      unfold Machine.queued
      rw [hsame.main]

/-- A connection that is over stays over. -/
theorem MainStep.running (h : MainStep env m m') (e : Option String) : m.main ≠ .ended e := by
  intro hended
  cases h with
  | broken e' hmain =>
      rw [hended] at hmain
      rcases hmain with hmain | hmain <;> cases hmain
  | iterate expired early later hmain => rw [hended] at hmain; cases hmain
  | leave expired early hmain => rw [hended] at hmain; cases hmain
  | poll chunks ending messages link hmain => rw [hended] at hmain; cases hmain
  | pollFailed chunks ending e' hmain => rw [hended] at hmain; cases hmain
  | handle next message rest hmain => rw [hended] at hmain; cases hmain
  | handleFailed message rest e' hmain => rw [hended] at hmain; cases hmain
  | handled hmain => rw [hended] at hmain; cases hmain
  | collect hmain => rw [hended] at hmain; cases hmain
  | collectFailed hmain => rw [hended] at hmain; cases hmain
  | submit next f rest hmain => rw [hended] at hmain; cases hmain
  | submitFailed f rest e' hmain => rw [hended] at hmain; cases hmain
  | submitted hmain => rw [hended] at hmain; cases hmain
  | wait hmain => rw [hended] at hmain; cases hmain
  | sendBroken f rest e' hmain => rw [hended] at hmain; cases hmain

/-- The workers and what they share are not the loop's to change. -/
structure SameWorkers (m m' : Machine cfg κ) : Prop where
  workers : m'.workers = m.workers
  sharedCursor : m'.sharedCursor = m.sharedCursor
  sharedGeneration : m'.sharedGeneration = m.sharedGeneration
  trace : m'.trace = m.trace ∨ (∃ message, m'.trace = m.trace ++ [.received message]) ∨
    ∃ id share f, m'.trace = m.trace ++ [.submitted id share f]

theorem publish_sameWorkers (m : Machine cfg κ) (authorized fresh : Bool) :
    (m.publish authorized fresh).workers = m.workers ∧
      (m.publish authorized fresh).sharedCursor = m.sharedCursor ∧
      (m.publish authorized fresh).sharedGeneration = m.sharedGeneration ∧
      (m.publish authorized fresh).trace = m.trace := by
  unfold Machine.publish
  split <;> exact ⟨rfl, rfl, rfl, rfl⟩

private theorem submitOne_sameWorkers {f : Found cfg.rows} {next : Machine cfg κ}
    (hsubmit : m.submitOne env f = .ok next) : SameWorkers m next := by
  obtain ⟨checked, -, hsubmit⟩ := bind_eq_ok.mp hsubmit
  cases checked with
  | none =>
      obtain rfl := pure_eq_ok.mp hsubmit
      exact ⟨rfl, rfl, rfl, Or.inl rfl⟩
  | some n =>
      dsimp only at hsubmit
      unfold Machine.sendShare at hsubmit
      split at hsubmit
      · obtain rfl := pure_eq_ok.mp hsubmit
        exact ⟨rfl, rfl, rfl, Or.inr (Or.inr ⟨_, _, _, rfl⟩)⟩
      · obtain ⟨-, hsubmit⟩ := guard_eq_ok.mp hsubmit
        obtain ⟨session, -, hsubmit⟩ := bind_eq_ok.mp hsubmit
        obtain rfl := pure_eq_ok.mp hsubmit
        exact ⟨rfl, rfl, rfl, Or.inr (Or.inr ⟨_, _, _, rfl⟩)⟩

theorem MainStep.sameWorkers (h : MainStep env m m') : SameWorkers m m' := by
  cases h with
  | iterate expired early later =>
      unfold Machine.beginIteration
      split <;> exact ⟨rfl, rfl, rfl, Or.inl rfl⟩
  | handle next message rest hmain hhandle =>
      rcases handleMessage_ok hhandle with
        ⟨buffer, state, state', job, -, -, rfl⟩ | ⟨session, -, rfl⟩
      · obtain ⟨hworkers, hcursor, hgeneration, htrace⟩ :=
          publish_sameWorkers _ state'.authorized job.isSome
        exact ⟨hworkers, hcursor, hgeneration, Or.inr (Or.inl ⟨message, htrace⟩)⟩
      · obtain ⟨hworkers, hcursor, hgeneration, htrace⟩ :=
          publish_sameWorkers _ session.current.isSome session.current.isSome
        exact ⟨hworkers, hcursor, hgeneration, Or.inr (Or.inl ⟨message, htrace⟩)⟩
  | submit next f rest hmain hsubmit =>
      have hsame := submitOne_sameWorkers hsubmit
      exact ⟨hsame.workers, hsame.sharedCursor, hsame.sharedGeneration, hsame.trace⟩
  | submitFailed f rest e =>
      obtain ⟨n, hn⟩ := afterFailure_idle m f
      rw [hn]
      exact ⟨rfl, rfl, rfl, Or.inl rfl⟩
  | sendBroken f rest e =>
      obtain ⟨n, hn⟩ := afterFailure_idle m f
      rw [hn]
      exact ⟨rfl, rfl, rfl, Or.inl rfl⟩
  | _ => exact ⟨rfl, rfl, rfl, Or.inl rfl⟩

end Supryolo.Miner
