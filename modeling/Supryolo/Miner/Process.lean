import Supryolo.Miner.Draining

/-!
Model of the outer loop of `mine`: connect, mine until the connection ends, pause
and connect again, with the counters and a few flags carried from connection to
connection. The clock, the user and the network enter as choices. `attempts` and
`pauses` are history: no step reads them.
-/

namespace Supryolo

/-- What sealing a frame can complain about. -/
theorem Sv2.Noise.encode_error {κ : Type} {c : Cipher κ} {n : Noise κ} {f : Frame} {e : String}
    (h : n.encode c f = .error e) :
    e = "SV2 frame exceeds local size limit" ∨ e = "SV2 Noise session unavailable" ∨
      e = "SV2 Noise authentication/encryption failed" := by
  rcases Loops.guard_eq_error.mp h with ⟨-, rfl⟩ | ⟨-, h⟩
  · exact Or.inl rfl
  · refine Or.inr (Loops.foldlM_error (P := fun e => e = "SV2 Noise session unavailable" ∨
      e = "SV2 Noise authentication/encryption failed") ?_ h)
    intro out piece e h
    rcases Loops.guard_eq_error.mp h with ⟨-, rfl⟩ | ⟨-, h⟩
    · exact Or.inl rfl
    · cases htransform : c.transform out.2.framing.state false piece with
      | none =>
          rw [htransform] at h
          exact Or.inr (Except.error.inj h).symm
      | some result =>
          rw [htransform] at h
          cases h

namespace Miner

variable {cfg : Config} {κ : Type} {env : Env κ} {m m' : Machine cfg κ} {start : View cfg.rows}

/-- What `mine` keeps besides the counters. -/
structure Watch where
  backoff : Nat := 1
  hadWork : Bool := false
  fatal : Bool := false
  deriving DecidableEq

/-- Whether the message sets the published work to a job. -/
def Machine.activates (m : Machine cfg κ) (message : Json) : Bool :=
  match m.link with
  | .sv1 _ state =>
      match state.receive message with
      | .ok (job, state') =>
          !m.draining && state'.authorized && (job.isSome || !m.activated) && state'.current.isSome
      | .error _ => false
  | .sv2 session => !m.draining && session.current.isSome

/-- What a step of the connection loop does to the flags. -/
def Watch.after (env : Env κ) (w : Watch) (m m' : Machine cfg κ) : Watch :=
  match m.main, m'.main with
  | .handling (message :: _), .handling _ =>
      if m.activates message then { w with backoff := 1, hadWork := true } else w
  | .collecting, .ended _ => { w with fatal := true }
  | .submitting (f :: _), .ended _ =>
      match m.submitOne env f with
      | .error e =>
          if e = "independent submit-time hash check failed" then { w with fatal := true } else w
      | .ok _ => w
  | _, _ => w

/-- Where the outer loop stands. At its head, `expired` is whether the run
has. -/
inductive Stage (cfg : Config) (κ : Type)
  | idle (expired : Bool)
  | connected (m : Machine cfg κ)
  | stopped (code : Nat)

/-- How an attempt to mine has ended. -/
inductive Attempt (cfg : Config) (κ : Type)
  | refused
  | closed (m : Machine cfg κ)

structure Process (cfg : Config) (κ : Type) where
  stage : Stage cfg κ := .idle false
  view : View cfg.rows := {}
  watch : Watch := {}
  attempts : List (Attempt cfg κ) := []
  pauses : List Nat := []

namespace Process

/-- The pause of the exception handler, which doubles the next one. -/
def pause (p : Process cfg κ) (expired : Bool) : Process cfg κ :=
  { p with
    stage := .idle expired
    watch := { p.watch with backoff := min (p.watch.backoff * 2) 30 }
    pauses := p.pauses ++ [p.watch.backoff] }

/-- The socket or the session could not be set up. -/
def refuse (p : Process cfg κ) : Process cfg κ := { p with attempts := p.attempts ++ [.refused] }

/-- The connection is gone, its threads are joined. -/
def close (p : Process cfg κ) (m : Machine cfg κ) : Process cfg κ :=
  { p with view := m.ledger.view, attempts := p.attempts ++ [.closed m] }

/-- The counter of rejected shares is tested as the `uint64_t` it is. -/
def exitCode (p : Process cfg κ) : Nat :=
  if p.watch.fatal then 1
  else if p.view.total.rejected.toUInt64 ≠ 0 then 2
  else if p.watch.hadWork then 0
  else 1

end Process

inductive ProcessStep (env : Env κ) : Process cfg κ → Process cfg κ → Prop
  | expire (p : Process cfg κ) (hstage : p.stage = .idle false) :
      ProcessStep env p { p with stage := .idle true }
  | connect (p : Process cfg κ) (link : Link κ) (hstage : p.stage = .idle false)
      (hfatal : p.watch.fatal = false) (hlink : link.Fresh) :
      ProcessStep env p { p with stage := .connected (Machine.initial cfg link p.view) }
  | refused (p : Process cfg κ) (expired : Bool) (hstage : p.stage = .idle false)
      (hfatal : p.watch.fatal = false) :
      ProcessStep env p (p.refuse.pause expired)
  | main (p : Process cfg κ) (m m' : Machine cfg κ) (hstage : p.stage = .connected m)
      (hstep : MainStep env m m') :
      ProcessStep env p { p with stage := .connected m', watch := p.watch.after env m m' }
  | worker (p : Process cfg κ) (m m' : Machine cfg κ) (i : Fin cfg.slots)
      (hstage : p.stage = .connected m) (hstep : WorkerStep i m m') :
      ProcessStep env p { p with stage := .connected m' }
  -- The connection loop is left only when the run has expired.
  | left (p : Process cfg κ) (m : Machine cfg κ) (hstage : p.stage = .connected m)
      (hmain : m.main = .ended none) (hjoined : ∀ i, (m.workers i).phase = .finished) :
      ProcessStep env p { p.close m with stage := .idle true }
  | thrown (p : Process cfg κ) (m : Machine cfg κ) (e : String) (expired : Bool)
      (hstage : p.stage = .connected m) (hmain : m.main = .ended (some e))
      (hjoined : ∀ i, (m.workers i).phase = .finished) (hfatal : p.watch.fatal = false) :
      ProcessStep env p ((p.close m).pause expired)
  | failed (p : Process cfg κ) (m : Machine cfg κ) (e : String) (expired : Bool)
      (hstage : p.stage = .connected m) (hmain : m.main = .ended (some e))
      (hjoined : ∀ i, (m.workers i).phase = .finished) (hfatal : p.watch.fatal = true) :
      ProcessStep env p { p.close m with stage := .idle expired }
  | stop (p : Process cfg κ) (expired : Bool) (hstage : p.stage = .idle expired)
      (hexpired : expired = true ∨ p.watch.fatal = true) :
      ProcessStep env p { p with stage := .stopped p.exitCode }

def ProcessRun (env : Env κ) : Process cfg κ → Prop :=
  Relation.ReflTransGen (ProcessStep env) {}

theorem Link.current_of_publishable {link : Link κ} (h : link.publishable ≠ none) :
    link.current.isSome = true := by
  obtain ⟨j, hj⟩ := Option.ne_none_iff_exists'.mp h
  cases link with
  | sv1 buffer state =>
      rw [show (Link.sv1 buffer state : Link κ).current = some j from
        (Link.publishable_sv1.mp hj).2]
      rfl
  | sv2 session =>
      rw [show (Link.sv2 session).current = some j from hj]
      rfl

private theorem publish_work (m : Machine cfg κ) (authorized fresh : Bool) :
    (m.publish authorized fresh).work =
      if !m.draining && authorized && (fresh || !m.activated) then m.link.current else m.work := by
  unfold Machine.publish
  split <;> rfl

/-- The work only ever goes from nothing to a job, which is when the flags are
set. -/
theorem work_of_handled (env : Env κ) {message : Json} {rest : List Json} {next : Machine cfg κ}
    (hposted : m.Posted) (hmain : m.main = .handling (message :: rest))
    (hhandle : m.handleMessage message = .ok next) :
    next.work.isSome = (m.work.isSome || m.activates message) := by
  -- What has been published has a successor in the session.
  have hkept (hwork : m.work.isSome = true) : next.link.current.isSome = true := by
    refine Link.current_of_publishable fun hnone => ?_
    have hstep : Step env m { next with main := .handling rest } :=
      .main (.handle m next message rest hmain hhandle)
    rw [hposted.none_of_none (hstep.publishable hnone)] at hwork
    cases hwork
  have hcase {condition : Bool} {current : Option Job}
      (hwork : next.work = if condition then current else m.work)
      (hcurrent : next.link.current = current)
      (hactivates : m.activates message = (condition && current.isSome)) :
      next.work.isSome = (m.work.isSome || m.activates message) := by
    rw [hcurrent] at hkept
    rw [hwork, hactivates]
    cases condition with
    | false => simp
    | true =>
        cases hsome : m.work.isSome with
        | false => simp
        | true => simp [hkept hsome]
  rcases handleMessage_ok hhandle with
    ⟨buffer, state, state', job, hlink, hreceive, rfl⟩ | ⟨session, hlink, rfl⟩
  · refine hcase (publish_work _ _ _) (congrArg Link.current (publish_link _ _ _)) ?_
    simp only [Machine.activates, hlink, hreceive]
    rfl
  · refine hcase (publish_work _ _ _) (congrArg Link.current (publish_link _ _ _)) ?_
    simp only [Machine.activates, hlink, Link.current]
    cases session.current <;> simp

/-- How the flags go with a step of the connection. -/
structure Watch.Follows (w w' : Watch) (m m' : Machine cfg κ) : Prop where
  work : (m'.work.isSome = m.work.isSome ∧ w'.backoff = w.backoff ∧ w'.hadWork = w.hadWork) ∨
    (m'.work.isSome = true ∧ w'.backoff = 1 ∧ w'.hadWork = true)
  fatal : w'.fatal = true → w.fatal = true ∨
    (m.main = .collecting ∧ m.failure ≠ "" ∧ m' = m.finish (some m.failure))

private theorem follows_of_same {w : Watch} (hafter : w.after env m m' = w)
    (hwork : m'.work = m.work) : w.Follows (w.after env m m') m m' := by
  rw [hafter]
  exact ⟨Or.inl ⟨by rw [hwork], rfl, rfl⟩, Or.inl⟩

/-- An exception from the submit loop is never one of the hash check. -/
private theorem follows_of_submitting {link : Link κ} {w : Watch} {f : Found cfg.rows}
    {rest : List (Found cfg.rows)} (hlink : link.Fresh) (hrun : Run env link start m)
    (hmain : m.main = .submitting (f :: rest)) (e : Option String) :
    w.after env m ((m.afterFailure f).finish e) = w := by
  unfold Watch.after
  rw [hmain, show ((m.afterFailure f).finish e).main = .ended e from rfl]
  cases hsubmit : m.submitOne env f with
  | ok next => simp only [hsubmit]
  | error text =>
      have hother : text ≠ "independent submit-time hash check failed" := by
        cases submission_failures hlink hrun hmain hsubmit with
        | crowded hfull he => rw [he]; decide
        | exhausted session hsv2 hlast he => rw [he]; decide
        | sealing session hsv2 hencode =>
            rcases Sv2.Noise.encode_error hencode with he | he | he <;> rw [he] <;> decide
        | unwritten next hdone =>
            rw [hsubmit] at hdone
            cases hdone
      simp only [hsubmit, if_neg hother]

theorem MainStep.follows {link : Link κ} (hlink : link.Fresh) (hrun : Run env link start m)
    (hstep : MainStep env m m') (w : Watch) : w.Follows (w.after env m m') m m' := by
  cases hstep with
  | iterate expired early later hmain =>
      rcases beginIteration_cases m later with hnext | hnext
      · rw [hnext]
        exact follows_of_same (by rw [Watch.after, hmain]) rfl
      · rw [hnext]
        exact follows_of_same (by rw [Watch.after, hmain]) rfl
  | handle next message rest hmain hhandle =>
      have hwork := work_of_handled env (posted_of_run hlink hrun) hmain hhandle
      have hafter : w.after env m { next with main := .handling rest } =
          if m.activates message then { w with backoff := 1, hadWork := true } else w := by
        rw [Watch.after, hmain]
      rw [hafter]
      cases hactivates : m.activates message with
      | false =>
          rw [hactivates, Bool.or_false] at hwork
          exact ⟨Or.inl ⟨hwork, rfl, rfl⟩, Or.inl⟩
      | true =>
          rw [hactivates, Bool.or_true] at hwork
          exact ⟨Or.inr ⟨hwork, rfl, rfl⟩, Or.inl⟩
  | handleFailed message rest e hmain => exact follows_of_same (by rw [Watch.after, hmain]; rfl) rfl
  | collectFailed hmain hfailure =>
      have hafter : w.after env m (m.finish (some m.failure)) = { w with fatal := true } := by
        rw [Watch.after, hmain]
        rfl
      rw [hafter]
      exact ⟨Or.inl ⟨rfl, rfl, rfl⟩, fun _ => Or.inr ⟨hmain, hfailure, rfl⟩⟩
  | submit next f rest hmain hsubmit =>
      refine follows_of_same (by rw [Watch.after, hmain]) ?_
      rcases submitOne_next hsubmit with rfl | ⟨n, link, share, -, rfl, -⟩
      · rfl
      · rfl
  | submitFailed f rest e hmain =>
      obtain ⟨n, hn⟩ := afterFailure_idle m f
      refine follows_of_same (follows_of_submitting hlink hrun hmain (some e)) ?_
      rw [hn]
      rfl
  | sendBroken f rest e hmain =>
      obtain ⟨n, hn⟩ := afterFailure_idle m f
      refine follows_of_same (follows_of_submitting hlink hrun hmain (some e)) ?_
      rw [hn]
      rfl
  | leave expired early hmain => exact follows_of_same (by rw [Watch.after, hmain]) rfl
  | poll chunks ending messages link hmain => exact follows_of_same (by rw [Watch.after, hmain]) rfl
  | pollFailed chunks ending e hmain => exact follows_of_same (by rw [Watch.after, hmain]) rfl
  | handled hmain => exact follows_of_same (by rw [Watch.after, hmain]) rfl
  | collect hmain => exact follows_of_same (by rw [Watch.after, hmain]) rfl
  | submitted hmain => exact follows_of_same (by rw [Watch.after, hmain]) rfl
  | wait hmain => exact follows_of_same (by rw [Watch.after, hmain]) rfl
  | broken e hmain =>
      rcases hmain with hmain | hmain
      · exact follows_of_same (by rw [Watch.after, hmain]) rfl
      · exact follows_of_same (by rw [Watch.after, hmain]) rfl

/-- Whether the attempt got as far as publishing a job. -/
def Attempt.published : Attempt cfg κ → Bool
  | .refused => false
  | .closed m => m.work.isSome

/-- The verdicts of an attempt. -/
def Attempt.verdicts : Attempt cfg κ → List (Int × Fin cfg.rows × Outcome)
  | .refused => []
  | .closed m => m.ledger.verdicts

/-- The shares an attempt has sent. -/
def Attempt.submissions : Attempt cfg κ → List (Int × Fin cfg.rows)
  | .refused => []
  | .closed m => m.ledger.submissions

/-- The shares an attempt has left without a verdict. -/
def Attempt.outstanding : Attempt cfg κ → List (Int × Fin cfg.rows)
  | .refused => []
  | .closed m => m.ledger.outstanding

def Stage.published : Stage cfg κ → Bool
  | .connected m => m.work.isSome
  | _ => false

/-- The attempts in a row that have failed since a job was published. -/
def failures (attempts : List (Attempt cfg κ)) : Nat :=
  attempts.foldl (fun n a => if a.published then 1 else n + 1) 0

theorem failures_snoc (attempts : List (Attempt cfg κ)) (a : Attempt cfg κ) :
    failures (attempts ++ [a]) = if a.published then 1 else failures attempts + 1 := by
  rw [failures, List.foldl_append]
  rfl

/-- The pause after so many failures. -/
def doubled (n : Nat) : Nat := min (2 ^ n) 30

theorem doubled_succ (n : Nat) : min (doubled n * 2) 30 = doubled (n + 1) := by
  unfold doubled
  rw [Nat.pow_succ]
  omega

/-- The books of the whole process. -/
structure Process.Books (p : Process cfg κ) : Prop where
  total : ∀ o, p.view.total.get o =
    (p.attempts.map fun a => a.verdicts.countP (·.2.2 = o)).sum
  device : ∀ row o, (p.view.device row).get o =
    (p.attempts.map fun a => a.verdicts.countP fun v => v.2.1 = row ∧ v.2.2 = o).sum
  settled : ∀ a ∈ p.attempts, a.submissions.Perm
    (a.outstanding ++ a.verdicts.map fun v => (v.1, v.2.1))

/-- The flags of the whole process. While it may go on, every attempt was paused
after. -/
structure Process.Flags (p : Process cfg κ) : Prop where
  hadWork : p.watch.hadWork = (p.attempts.any Attempt.published || p.stage.published)
  connected : ∀ m, p.stage = .connected m → p.pauses.length = p.attempts.length ∧
    p.watch.backoff = if m.work.isSome then 1 else doubled (failures p.attempts)
  idle : p.stage = .idle false → p.watch.fatal = false →
    p.pauses.length = p.attempts.length ∧ p.watch.backoff = doubled (failures p.attempts)
  length : p.pauses.length ≤ p.attempts.length
  pauses : ∀ i pause, p.pauses[i]? = some pause →
    pause = doubled (failures (p.attempts.take (i + 1)) - 1)

/-- The connection that is open is a run from the counters so far. -/
def Process.Opened (env : Env κ) (p : Process cfg κ) : Prop :=
  ∀ m, p.stage = .connected m → ∃ link, link.Fresh ∧ Run env link p.view m

theorem Process.Opened.step {p p' : Process cfg κ} (h : p.Opened env)
    (hstep : ProcessStep env p p') : p'.Opened env := by
  intro n hn
  cases hstep with
  | expire hstage => cases hn
  | connect link hstage hfatal hlink =>
      obtain rfl := Stage.connected.inj hn
      exact ⟨link, hlink, .refl⟩
  | refused expired hstage hfatal => cases hn
  | main m m' hstage hmain =>
      obtain rfl := Stage.connected.inj hn
      obtain ⟨link, hlink, hrun⟩ := h m hstage
      exact ⟨link, hlink, hrun.tail (.main hmain)⟩
  | worker m m' i hstage hworker =>
      obtain rfl := Stage.connected.inj hn
      obtain ⟨link, hlink, hrun⟩ := h m hstage
      exact ⟨link, hlink, hrun.tail (.worker i hworker)⟩
  | left m hstage => cases hn
  | thrown m e expired hstage => cases hn
  | failed m e expired hstage => cases hn
  | stop expired hstage => cases hn

theorem opened_of_run {p : Process cfg κ} (hrun : ProcessRun env p) : p.Opened env := by
  induction hrun with
  | refl => exact fun m hm => by cases hm
  | tail _ hstep ih => exact ih.step hstep

theorem Process.Books.close {p : Process cfg κ} (h : p.Books) {link : Link κ}
    (hrun : Run env link p.view m) : (p.close m).Books := by
  have hbalanced := balanced_of_run hrun
  refine ⟨?_, ?_, ?_⟩
  · intro o
    change m.ledger.view.total.get o = _
    rw [hbalanced.total, h.total]
    simp [Process.close, Attempt.verdicts]
  · intro row o
    change (m.ledger.view.device row).get o = _
    rw [hbalanced.device, h.device]
    simp [Process.close, Attempt.verdicts]
  · intro a ha
    rcases List.mem_append.mp ha with ha | ha
    · exact h.settled a ha
    · rw [List.mem_singleton.mp ha]
      exact hbalanced.conserved

theorem Process.Books.refuse {p : Process cfg κ} (h : p.Books) : p.refuse.Books := by
  refine ⟨?_, ?_, ?_⟩
  · intro o
    change p.view.total.get o = _
    rw [h.total]
    simp [Process.refuse, Attempt.verdicts]
  · intro row o
    change (p.view.device row).get o = _
    rw [h.device]
    simp [Process.refuse, Attempt.verdicts]
  · intro a ha
    rcases List.mem_append.mp ha with ha | ha
    · exact h.settled a ha
    · rw [List.mem_singleton.mp ha]
      exact .refl _

theorem Process.Books.same {p p' : Process cfg κ} (h : p.Books) (hview : p'.view = p.view)
    (hattempts : p'.attempts = p.attempts) : p'.Books := by
  refine ⟨?_, ?_, ?_⟩
  · rw [hview, hattempts]
    exact h.total
  · rw [hview, hattempts]
    exact h.device
  · rw [hattempts]
    exact h.settled

theorem books_of_run {p : Process cfg κ} (hrun : ProcessRun env p) : p.Books := by
  induction hrun with
  | refl =>
      refine ⟨fun o => ?_, fun row o => ?_, fun a ha => absurd ha List.not_mem_nil⟩
      · cases o <;> rfl
      · cases o <;> rfl
  | @tail before next hbefore hstep ih =>
      have hopened := opened_of_run hbefore
      cases hstep with
      | expire hstage => exact ih.same rfl rfl
      | connect link hstage => exact ih.same rfl rfl
      | refused expired hstage => exact ih.refuse.same rfl rfl
      | main m m' hstage hmain => exact ih.same rfl rfl
      | worker m m' i hstage hworker => exact ih.same rfl rfl
      | left m hstage =>
          obtain ⟨link, -, hrun⟩ := hopened m hstage
          exact (ih.close hrun).same rfl rfl
      | thrown m e expired hstage =>
          obtain ⟨link, -, hrun⟩ := hopened m hstage
          exact (ih.close hrun).same rfl rfl
      | failed m e expired hstage =>
          obtain ⟨link, -, hrun⟩ := hopened m hstage
          exact (ih.close hrun).same rfl rfl
      | stop expired hstage => exact ih.same rfl rfl

/-- The flags once the attempt `a` is over and the pause after it as well. -/
theorem Process.Flags.pause {p : Process cfg κ} (h : p.Flags) (p' : Process cfg κ)
    {a : Attempt cfg κ}
    (hpauses : p'.pauses = p.pauses) (hattempts : p'.attempts = p.attempts ++ [a])
    (hwatch : p'.watch = p.watch) (hpublished : p.stage.published = a.published)
    (hlength : p.pauses.length = p.attempts.length)
    (hbackoff : p.watch.backoff = if a.published then 1 else doubled (failures p.attempts))
    (expired : Bool) : (p'.pause expired).Flags := by
  have hlast : p.watch.backoff = doubled (failures (p.attempts ++ [a]) - 1) := by
    rw [hbackoff, failures_snoc]
    cases a.published <;> rfl
  have hnext : min (p.watch.backoff * 2) 30 = doubled (failures (p.attempts ++ [a])) := by
    rw [hbackoff, failures_snoc]
    cases a.published
    · exact doubled_succ _
    · rfl
  have hboth : (p'.pauses ++ [p'.watch.backoff]).length = p'.attempts.length := by
    rw [hpauses, hattempts, List.length_append, List.length_append, hlength]
    rfl
  refine ⟨?_, fun m hm => (by cases hm), fun _ _ => ⟨hboth, ?_⟩, hboth.le, ?_⟩
  · change p'.watch.hadWork = (p'.attempts.any Attempt.published || false)
    rw [hwatch, hattempts, h.hadWork, hpublished]
    simp
  · change min (p'.watch.backoff * 2) 30 = doubled (failures p'.attempts)
    rw [hwatch, hattempts]
    exact hnext
  · intro i pause hpause
    change pause = doubled (failures (p'.attempts.take (i + 1)) - 1)
    have hpause' : (p.pauses ++ [p.watch.backoff])[i]? = some pause := by
      rw [← hpauses, ← hwatch]
      exact hpause
    rw [hattempts]
    by_cases hi : i < p.pauses.length
    · rw [List.getElem?_append_left hi] at hpause'
      rw [List.take_append_of_le_length (by omega)]
      exact h.pauses i pause hpause'
    · have hsingle : i = p.pauses.length := by
        have hlt := (List.getElem?_eq_some_iff.mp hpause').1
        rw [List.length_append, List.length_singleton] at hlt
        omega
      subst hsingle
      rw [List.getElem?_append_right (le_refl _), Nat.sub_self] at hpause'
      rw [hlength, List.take_of_length_le (by simp), ← hlast]
      exact (Option.some.inj hpause').symm

/-- A step within the connection. -/
theorem Process.Flags.inside {p : Process cfg κ} (h : p.Flags) (hstage : p.stage = .connected m)
    {w : Watch} (hfollows : p.watch.Follows w m m') :
    Process.Flags { p with stage := .connected m', watch := w } := by
  obtain ⟨hlength, hbackoff⟩ := h.connected m hstage
  have hhadWork := h.hadWork
  rw [hstage] at hhadWork
  refine ⟨?_, ?_, fun hidle => (by cases hidle), h.length, h.pauses⟩
  · change w.hadWork = (p.attempts.any Attempt.published || m'.work.isSome)
    rcases hfollows.work with ⟨hwork, -, hsame⟩ | ⟨hwork, -, hset⟩
    · rw [hsame, hwork, hhadWork]
      rfl
    · rw [hset, hwork, Bool.or_true]
  · intro n hn
    obtain rfl := Stage.connected.inj hn
    refine ⟨hlength, ?_⟩
    rcases hfollows.work with ⟨hwork, hsame, -⟩ | ⟨hwork, hset, -⟩
    · rw [hwork]
      exact hsame.trans hbackoff
    · rw [hwork]
      exact hset

/-- The end of a connection without a pause after it. -/
theorem Process.Flags.close {p : Process cfg κ} (h : p.Flags) (hstage : p.stage = .connected m)
    {expired : Bool} (hlast : expired = true ∨ p.watch.fatal = true) :
    Process.Flags { p.close m with stage := .idle expired } := by
  obtain ⟨hlength, -⟩ := h.connected m hstage
  have hhadWork := h.hadWork
  rw [hstage] at hhadWork
  refine ⟨?_, fun n hn => (by cases hn), ?_, ?_, ?_⟩
  · change p.watch.hadWork = ((p.attempts ++ [Attempt.closed m]).any Attempt.published || false)
    rw [hhadWork]
    simp [Attempt.published, Stage.published]
  · intro hidle hfatal
    have hgoes : expired = false := Stage.idle.inj hidle
    have hruns : p.watch.fatal = false := hfatal
    rcases hlast with hexpired | hfailed
    · rw [hgoes] at hexpired
      cases hexpired
    · rw [hruns] at hfailed
      cases hfailed
  · change p.pauses.length ≤ (p.attempts ++ [Attempt.closed m]).length
    rw [List.length_append]
    omega
  · intro i pause hpause
    have hi : i < p.pauses.length := (List.getElem?_eq_some_iff.mp hpause).1
    change pause = doubled (failures ((p.attempts ++ [Attempt.closed m]).take (i + 1)) - 1)
    rw [List.take_append_of_le_length (by omega)]
    exact h.pauses i pause hpause

theorem flags_of_run {p : Process cfg κ} (hrun : ProcessRun env p) : p.Flags := by
  induction hrun with
  | refl =>
      refine ⟨rfl, fun m hm => (by cases hm), fun _ _ => ⟨rfl, rfl⟩, le_refl _, ?_⟩
      intro i pause hpause
      cases hpause
  | @tail before next hbefore hstep ih =>
      have hopened := opened_of_run hbefore
      have hidle {expired : Bool} (hstage : before.stage = .idle expired) :
          before.watch.hadWork = (before.attempts.any Attempt.published || false) := by
        have hhadWork := ih.hadWork
        rw [hstage] at hhadWork
        exact hhadWork
      cases hstep with
      | expire hstage =>
          exact ⟨hidle hstage, fun m hm => (by cases hm), fun hother => (by cases hother), ih.length,
            ih.pauses⟩
      | connect link hstage hfatal hlink =>
          obtain ⟨hlength, hbackoff⟩ := ih.idle hstage hfatal
          refine ⟨hidle hstage, ?_, fun hother => (by cases hother), ih.length, ih.pauses⟩
          intro m hm
          obtain rfl := Stage.connected.inj hm
          exact ⟨hlength, hbackoff⟩
      | refused expired hstage hfatal =>
          obtain ⟨hlength, hbackoff⟩ := ih.idle hstage hfatal
          exact ih.pause before.refuse rfl rfl rfl (by rw [hstage]; rfl) hlength hbackoff expired
      | main m m' hstage hmain =>
          obtain ⟨link, hlink, hrun⟩ := hopened m hstage
          exact ih.inside hstage (hmain.follows hlink hrun _)
      | worker m m' i hstage hworker =>
          refine ih.inside hstage ⟨Or.inl ⟨?_, rfl, rfl⟩, Or.inl⟩
          rw [hworker.sameConnection.work]
      | left m hstage => exact ih.close hstage (Or.inl rfl)
      | thrown m e expired hstage =>
          obtain ⟨hlength, hbackoff⟩ := ih.connected m hstage
          exact ih.pause (before.close m) rfl rfl rfl (by rw [hstage]; rfl) hlength hbackoff expired
      | failed m e expired hstage hmain hjoined hfatal => exact ih.close hstage (Or.inr hfatal)
      | stop expired hstage =>
          exact ⟨hidle hstage, fun m hm => (by cases hm), fun hother => (by cases hother), ih.length,
            ih.pauses⟩

/-- Whatever the pools and the network do, and over however many connections, the
pause after the `n`-th failure in a row since a job was published is `2 ^ (n - 1)`
seconds, but not more than thirty. -/
theorem pauses_double {p : Process cfg κ} (hrun : ProcessRun env p) {i pause : Nat}
    (hpause : p.pauses[i]? = some pause) :
    pause = min (2 ^ (failures (p.attempts.take (i + 1)) - 1)) 30 :=
  (flags_of_run hrun).pauses i pause hpause

private theorem refused_many (n : Nat) : ∃ p : Process sampleConfig Unit,
    ProcessRun (sampleEnv []) p ∧ p.stage = .idle false ∧ p.watch.fatal = false ∧
      p = (fun p : Process sampleConfig Unit => p.refuse.pause false)^[n] {} := by
  induction n with
  | zero => exact ⟨{}, .refl, rfl, rfl, rfl⟩
  | succ n ih =>
      obtain ⟨p, hrun, hstage, hfatal, hp⟩ := ih
      refine ⟨p.refuse.pause false, hrun.tail (.refused p false hstage hfatal), rfl, hfatal, ?_⟩
      rw [Function.iterate_succ_apply', ← hp]

theorem pauses_double_sample : ∃ p : Process sampleConfig Unit, ProcessRun (sampleEnv []) p ∧
    p.pauses = [1, 2, 4, 8, 16, 30, 30] ∧
      30 = min (2 ^ (failures (p.attempts.take 7) - 1)) 30 := by
  obtain ⟨p, hrun, -, -, hp⟩ := refused_many 7
  have hpauses : p.pauses = [1, 2, 4, 8, 16, 30, 30] := by
    rw [hp]
    rfl
  exact ⟨p, hrun, hpauses, pauses_double hrun (i := 6) (by rw [hpauses]; rfl)⟩

/-! ### The exit code -/

/-- The connection loop has come upon the failure of a worker. A failure that it
does not come upon before the connection ends is lost. -/
def Process.Observed (env : Env κ) (p : Process cfg κ) : Prop :=
  ∃ (before : Process cfg κ) (m : Machine cfg κ), ProcessRun env before ∧
    before.stage = .connected m ∧ m.main = .collecting ∧ m.failure ≠ "" ∧
    Relation.ReflTransGen (ProcessStep env)
      { before with
        stage := .connected (m.finish (some m.failure))
        watch := before.watch.after env m (m.finish (some m.failure)) } p

/-- Only a worker that has thrown stops the process. -/
theorem fatal_of_step {p p' : Process cfg κ} (hrun : ProcessRun env p) (hstep : ProcessStep env p p')
    (hbefore : p.watch.fatal = false) (hafter : p'.watch.fatal = true) : p'.Observed env := by
  have hnot (hsame : p'.watch.fatal = p.watch.fatal) : False := by
    rw [hsame, hbefore] at hafter
    cases hafter
  cases hstep with
  | main m m' hstage hmain =>
      obtain ⟨link, hlink, hmachine⟩ := opened_of_run hrun m hstage
      rcases (hmain.follows hlink hmachine p.watch).fatal hafter with
        hfatal | ⟨hcollecting, hfailure, rfl⟩
      · rw [hbefore] at hfatal
        cases hfatal
      · exact ⟨p, m, hrun, hstage, hcollecting, hfailure, .refl⟩
  | expire hstage => exact absurd rfl hnot
  | connect link hstage => exact absurd rfl hnot
  | refused expired hstage => exact absurd rfl hnot
  | worker m m' i hstage hworker => exact absurd rfl hnot
  | left m hstage => exact absurd rfl hnot
  | thrown m e expired hstage => exact absurd rfl hnot
  | failed m e expired hstage => exact absurd rfl hnot
  | stop expired hstage => exact absurd rfl hnot

/-- What has stopped the process stays. -/
private theorem ProcessStep.fatal_kept {p p' : Process cfg κ} (hstep : ProcessStep env p p')
    (hfatal : p.watch.fatal = true) : p'.watch.fatal = true := by
  cases hstep with
  | main m m' hstage hmain =>
      change (p.watch.after env m m').fatal = true
      unfold Watch.after
      split
      · split <;> exact hfatal
      · rfl
      · split
        · split
          · rfl
          · exact hfatal
        · exact hfatal
      · exact hfatal
  | _ => exact hfatal

theorem fatal_iff_observed {p : Process cfg κ} (hrun : ProcessRun env p) :
    p.watch.fatal = true ↔ p.Observed env := by
  constructor
  · intro hfatal
    induction hrun with
    | refl => cases hfatal
    | @tail earlier p hbefore hstep ih =>
        cases hearlier : earlier.watch.fatal with
        | false => exact fatal_of_step hbefore hstep hearlier hfatal
        | true =>
            obtain ⟨before, m, hrun, hstage, hcollecting, hfailure, hlater⟩ := ih hearlier
            exact ⟨before, m, hrun, hstage, hcollecting, hfailure, hlater.tail hstep⟩
  · rintro ⟨before, m, -, -, hcollecting, -, hlater⟩
    clear hrun
    induction hlater with
    | refl =>
        change (before.watch.after env m (m.finish (some m.failure))).fatal = true
        rw [Watch.after, hcollecting]
        rfl
    | tail _ hstep ih => exact hstep.fatal_kept ih

/-- While the connection is open after that, its loop has been left with the
failure. -/
theorem ended_of_fatal {p : Process cfg κ} (hrun : ProcessRun env p)
    (hfatal : p.watch.fatal = true) (hstage : p.stage = .connected m) :
    ∃ e, m.main = .ended (some e) := by
  induction hrun generalizing m with
  | refl => cases hstage
  | @tail before next hbefore hstep ih =>
      cases hstep with
      | connect link hidle hrunning =>
          rw [show before.watch.fatal = true from hfatal] at hrunning
          cases hrunning
      | main m₀ m₁ hconnected hmain =>
          obtain rfl := Stage.connected.inj hstage
          obtain ⟨link, hlink, hmachine⟩ := opened_of_run hbefore m₀ hconnected
          rcases (hmain.follows hlink hmachine before.watch).fatal hfatal with hold | ⟨-, -, rfl⟩
          · obtain ⟨e, hended⟩ := ih hold hconnected
            exact absurd hended (hmain.running _)
          · exact ⟨_, rfl⟩
      | worker m₀ m₁ i hconnected hworker =>
          obtain rfl := Stage.connected.inj hstage
          obtain ⟨e, hended⟩ := ih hfatal hconnected
          exact ⟨e, hworker.sameConnection.main.trans hended⟩
      | _ => cases hstage

/-- The code of a process that has stopped is the one its last state gives. -/
theorem code_of_stopped {p : Process cfg κ} (hrun : ProcessRun env p) {code : Nat}
    (hstopped : p.stage = .stopped code) : code = p.exitCode := by
  induction hrun with
  | refl => cases hstopped
  | tail hbefore hstep ih =>
      cases hstep with
      | stop expired hstage => exact (Stage.stopped.inj hstopped).symm
      | _ => cases hstopped

/-- What the exit code of the miner says of everything that happened: whether a
pool gave work, whether a share was rejected on any connection, and whether the
connection loop came upon the failure of a worker. -/
structure Process.Exits (env : Env κ) (p : Process cfg κ) (code : Nat) : Prop where
  success : code = 0 ↔ ¬ p.Observed env ∧
    (∀ a ∈ p.attempts, ∀ v ∈ a.verdicts, v.2.2 ≠ .rejected) ∧
    ∃ a ∈ p.attempts, a.published = true
  rejected : code = 2 ↔ ¬ p.Observed env ∧
    ∃ a ∈ p.attempts, ∃ v ∈ a.verdicts, v.2.2 = .rejected
  failure : code = 1 ↔ p.Observed env ∨
    ((∀ a ∈ p.attempts, ∀ v ∈ a.verdicts, v.2.2 ≠ .rejected) ∧
      ∀ a ∈ p.attempts, a.published = false)

/-- How many shares were rejected, on all connections together. -/
def Process.rejections (p : Process cfg κ) : Nat :=
  (p.attempts.map fun a => a.verdicts.countP (·.2.2 = .rejected)).sum

theorem Process.Books.rejections_eq {p : Process cfg κ} (h : p.Books) :
    p.view.total.rejected = p.rejections :=
  h.total .rejected

theorem Process.rejections_eq_zero {p : Process cfg κ} :
    p.rejections = 0 ↔ ∀ a ∈ p.attempts, ∀ v ∈ a.verdicts, v.2.2 ≠ .rejected := by
  rw [Process.rejections, List.sum_eq_zero_iff]
  simp only [List.mem_map, forall_exists_index, and_imp, forall_apply_eq_imp_iff₂,
    List.countP_eq_zero, decide_eq_true_eq, ne_eq]

theorem Process.Books.rejected_iff {p : Process cfg κ} (h : p.Books)
    (hfew : p.rejections < 2 ^ 64) :
    p.view.total.rejected.toUInt64 = 0 ↔
      ∀ a ∈ p.attempts, ∀ v ∈ a.verdicts, v.2.2 ≠ .rejected := by
  rw [← Process.rejections_eq_zero, h.rejections_eq, ← UInt64.toNat_inj, Nat.toUInt64_eq,
    UInt64.toNat_ofNat', Nat.mod_eq_of_lt hfew]
  rfl

/-- In every run of the miner, over any number of connections, the totals are the
verdicts of all connections, and every share that was sent is counted or was left
without a verdict. As long as fewer than `2 ^ 64` shares have been rejected, the exit
code is 0 where a pool gave work and no share was rejected, 2 where one was, and 1
where there was no work or the connection loop came upon the failure of a worker. -/
theorem exit_code_exact {p : Process cfg κ} (hrun : ProcessRun env p) {code : Nat}
    (hstopped : p.stage = .stopped code) :
    p.Books ∧ (p.rejections < 2 ^ 64 → p.Exits env code) := by
  have hbooks := books_of_run hrun
  refine ⟨hbooks, fun hfew => ?_⟩
  have hwork : p.watch.hadWork = true ↔ ∃ a ∈ p.attempts, a.published = true := by
    rw [(flags_of_run hrun).hadWork, hstopped, show (Stage.stopped code : Stage cfg κ).published =
      false from rfl, Bool.or_false, List.any_eq_true]
  have hnone : p.watch.hadWork = false ↔ ∀ a ∈ p.attempts, a.published = false := by
    rw [← Bool.not_eq_true, hwork]
    simp
  rw [code_of_stopped hrun hstopped]
  have hrejected := hbooks.rejected_iff hfew
  have hsome : p.view.total.rejected.toUInt64 ≠ 0 ↔
      ∃ a ∈ p.attempts, ∃ v ∈ a.verdicts, v.2.2 = .rejected := by
    rw [ne_eq, hrejected]
    simp only [ne_eq, not_forall, not_not, exists_prop]
  unfold Process.exitCode
  refine ⟨?_, ?_, ?_⟩ <;> rw [← fatal_iff_observed hrun]
  · rw [← hrejected, ← hwork]
    cases p.watch.fatal <;> cases p.watch.hadWork <;>
      by_cases hzero : p.view.total.rejected.toUInt64 = 0 <;> simp [hzero]
  · rw [← hsome]
    cases p.watch.fatal <;> cases p.watch.hadWork <;>
      by_cases hzero : p.view.total.rejected.toUInt64 = 0 <;> simp [hzero]
  · rw [← hrejected, ← hnone]
    cases p.watch.fatal <;> cases p.watch.hadWork <;>
      by_cases hzero : p.view.total.rejected.toUInt64 = 0 <;> simp [hzero]

/-- A run of a connection is part of a run of the process. -/
theorem connected_of_run {p : Process cfg κ} (hrun : ProcessRun env p) {link : Link κ}
    (hstage : p.stage = .connected (Machine.initial cfg link p.view))
    (hmachine : Run env link p.view m) :
    ∃ p', ProcessRun env p' ∧ p'.stage = .connected m := by
  induction hmachine with
  | refl => exact ⟨p, hrun, hstage⟩
  | tail _ hstep ih =>
      obtain ⟨p', hbefore, hconnected⟩ := ih
      cases hstep with
      | main hmain => exact ⟨_, hbefore.tail (.main p' _ _ hconnected hmain), rfl⟩
      | worker i hworker => exact ⟨_, hbefore.tail (.worker p' _ _ i hconnected hworker), rfl⟩

/-- After the connection loop only workers move. -/
theorem ended_steps {e : Option String} (hended : m.main = .ended e)
    (hsteps : Relation.ReflTransGen (Step env) m m') :
    m'.main = .ended e ∧ m'.work = m.work ∧ m'.ledger = m.ledger := by
  induction hsteps with
  | refl => exact ⟨hended, rfl, rfl⟩
  | tail _ hstep ih =>
      obtain ⟨hmain, hwork, hledger⟩ := ih
      cases hstep with
      | main hloop => exact absurd hmain (hloop.running e)
      | worker i hworker =>
          obtain ⟨-, hmain', hwork', hledger', -⟩ := hworker.sameConnection
          exact ⟨hmain'.trans hmain, hwork'.trans hwork, hledger'.trans hledger⟩

theorem exit_code_exact_sample : ∃ p : Process sampleConfig Unit, ProcessRun (sampleEnv []) p ∧
    p.stage = .stopped 0 ∧ p.Exits (sampleEnv []) 0 := by
  obtain ⟨m, state, job, hrun, hmines, -, -, hledger, -⟩ := sample_mines []
  have hloop : m.continues true false = false := by
    rw [Machine.continues, hledger, hmines.draining]
    rfl
  have hleft := hrun.tail (.main (.leave m true false hmines.main hloop))
  obtain ⟨m', hsteps, hjoined⟩ := exists_joined hleft rfl
  obtain ⟨hended, hwork, hledger'⟩ := ended_steps rfl hsteps
  let opened : Process sampleConfig Unit :=
    { stage := .connected (Machine.initial sampleConfig (.sv1 [] {}) {}) }
  have hconnect : ProcessRun (sampleEnv []) opened :=
    .single (.connect {} (.sv1 [] {}) rfl rfl .sv1)
  obtain ⟨p, hmined, hstage⟩ := connected_of_run hconnect rfl (hleft.trans hsteps)
  have hclosed := hmined.tail (.left p m' hstage hended hjoined)
  have hstopped := hclosed.tail (.stop _ true rfl (Or.inl rfl))
  have hfatal : p.watch.fatal = false := by
    by_contra hnot
    obtain ⟨e, he⟩ := ended_of_fatal hmined (Bool.not_eq_false _ ▸ hnot) hstage
    rw [hended] at he
    cases he
  have hwork : p.watch.hadWork = true := by
    rw [(flags_of_run hmined).hadWork, hstage, Stage.published, hwork,
      show (m.finish none).work = m.work from rfl, hmines.work]
    simp
  have hview : (p.close m').view.total.rejected = 0 := by
    rw [show (p.close m').view = m'.ledger.view from rfl, hledger',
      show (m.finish none).ledger = m.ledger from rfl, hledger]
  have hcode : (p.close m').exitCode = 0 := by
    rw [Process.exitCode, show (p.close m').watch = p.watch from rfl, hfatal, hview, hwork]
    rfl
  have hexact := exit_code_exact hstopped (congrArg Stage.stopped hcode)
  refine ⟨_, hstopped, congrArg Stage.stopped hcode, hexact.2 ?_⟩
  rw [← hexact.1.rejections_eq]
  change (p.close m').view.total.rejected < 2 ^ 64
  rw [hview]
  decide

end Miner

end Supryolo
