import Supryolo.Live
import Supryolo.Lib.Histories

/-!
The two models of a session are one program. `Session` says what an operation
returns and forgets the state of one that throws; `Live` keeps what was written
until then. Where an operation returns, both return the same and leave the same
session, and they throw on the same inputs.
-/

namespace Supryolo.Sv2.Live

open Effects Histories Words

variable {κ : Type} {lib : Outside κ} {s : Live κ} {α : Type}

section Rules

variable {β : Type} {y : Except String (α × Session κ)}

theorem getSession_agrees {next : Session κ → Program κ α}
    (h : AgreesOn Live.session (next s.session) y s) :
    AgreesOn Live.session (getSession >>= next) y s := h

theorem update_agrees {f : Session κ → Session κ} {next : Program κ α}
    (h : AgreesOn Live.session next y { s with session := f s.session }) :
    AgreesOn Live.session (update f >>= fun _ => next) y s := h

/-- The guard of one model is the opposite of the other's. -/
theorem require_agrees {p q : Prop} [Decidable p] [Decidable q] {why e : String}
    {next : Program κ α} {refused accepted : Except String β}
    {after : β → Except String (α × Session κ)} (hopposite : q ↔ ¬ p) (hrefused : refused = .error e)
    (h : p → AgreesOn Live.session next (accepted >>= after) s) :
    AgreesOn Live.session (require p why >>= fun _ => next)
      ((if q then refused else accepted) >>= after) s := by
  subst hrefused
  by_cases hp : p
  · rw [if_neg (hopposite.not.mpr (not_not.mpr hp)), require, if_pos hp]
    exact h hp
  · rw [if_pos (hopposite.mpr hp), require, if_neg hp]
    intro result hresult
    cases hresult

/-- The guard of one model is that of the other. -/
theorem permit_agrees {p : Prop} [Decidable p] {why e : String} {next : Program κ α}
    {refused : Except String (α × Session κ)} (hrefused : refused = .error e)
    (h : p → AgreesOn Live.session next y s) :
    AgreesOn Live.session (require p why >>= fun _ => next) (if p then y else refused) s := by
  subst hrefused
  by_cases hp : p
  · rw [if_pos hp, require, if_pos hp]
    exact h hp
  · rw [if_neg hp, require, if_neg hp]
    intro result hresult
    cases hresult

/-- What the noise layer returns, the session goes on with. -/
theorem onNoise_agrees {x : EStateM String (Noise κ) β} {y : Except String (β × Noise κ)}
    (h : Agrees x y s.session.noise) {next : β → Program κ α}
    {after : β × Noise κ → Except String (α × Session κ)}
    (hnext : ∀ b noise, y = .ok (b, noise) → AgreesOn Live.session (next b) (after (b, noise))
      { s with session := { s.session with noise := noise } }) :
    AgreesOn Live.session (onNoise x >>= next) (y >>= after) s := by
  unfold AgreesOn
  rw [ends_bind, ends_onNoise]
  refine Ends.mono h ?_ ?_
  · intro b noise hy
    rw [hy]
    exact hnext b noise hy
  · intro e noise hy result
    cases y with
    | error e =>
        intro h
        cases h
    | ok value => exact absurd rfl (hy value)

theorem onNoise_agrees_unit {x : EStateM String (Noise κ) Unit} {y : Except String (Noise κ)}
    (h : Agrees x (y.map fun noise => ((), noise)) s.session.noise) {next : Program κ α}
    {after : Noise κ → Except String (α × Session κ)}
    (hnext : ∀ noise, AgreesOn Live.session next (after noise)
      { s with session := { s.session with noise := noise } }) :
    AgreesOn Live.session (onNoise x >>= fun _ => next) (y >>= after) s := by
  have hpair : AgreesOn Live.session (onNoise x >>= fun _ => next)
      ((y.map fun noise => ((), noise)) >>= fun result => after result.2) s :=
    onNoise_agrees h fun _ noise _ => hnext noise
  cases y with
  | error e => exact hpair
  | ok noise => exact hpair

theorem send_agrees {f : Frame} {next : Program κ α}
    {after : Session κ → Except String (α × Session κ)}
    (hnext : ∀ s' : Live κ, AgreesOn Live.session next (after s'.session) s') :
    AgreesOn Live.session (send lib f >>= fun _ => next)
      (s.session.send lib.foreign f >>= after) s := by
  unfold send Session.send
  rw [bind_assoc, bind_assoc]
  refine onNoise_agrees (Noise.encodeM_agrees f) ?_
  intro bytes noise _
  exact hnext _

/-- An operation without a result may be given one. -/
theorem quiet_agrees {x : Program κ Unit} {y : Except String (Session κ)}
    (h : AgreesOn Live.session x (y >>= fun t => pure ((), t)) s) (events : List Json) :
    AgreesOn Live.session (x >>= fun _ => pure events) (y >>= fun t => pure (events, t)) s := by
  have hmap := h.map fun _ => events
  rwa [bind_assoc] at hmap

end Rules

/-- The entry of the table is there before the work is made. -/
theorem activate_agrees {id : UInt32} {stored old : Stored} {time : UInt32} {t : Session κ}
    (hs : s.session = { t with jobs := t.jobs.insert id old }) :
    AgreesOn Live.session (activate id stored time)
      (t.activate stored time >>= fun r => pure ((), { r.2 with jobs := r.2.jobs.insert id r.1 }))
      s := by
  obtain ⟨session, sent, opened⟩ := s
  subst hs
  unfold activate Session.activate
  refine getSession_agrees (require_agrees (by rw [Bool.not_eq_true]) rfl fun _ =>
    update_agrees ?_)
  dsimp only
  rw [bind_assoc]
  refine agreesOn_ofExcept fun header _ => ?_
  unfold AgreesOn
  rw [ends_update]
  dsimp only
  rw [AList.insert_insert, AList.insert_insert]
  rfl

theorem newJob_agrees (m : NewJob) :
    AgreesOn Live.session (newJob m) (s.session.newJob m >>= fun t => pure ((), t)) s := by
  unfold newJob Session.newJob
  refine getSession_agrees (require_agrees not_and_or.symm rfl fun _ =>
    require_agrees (by rw [not_and_or, not_lt, not_not]) rfl fun _ => update_agrees ?_)
  cases htime : m.ntime with
  | none => exact rfl
  | some time =>
      dsimp only
      rw [bind_assoc]
      exact activate_agrees rfl

theorem prevHash_agrees (channel job : UInt32) (hash : Hash) (ntime nbits : UInt32) :
    AgreesOn Live.session (prevHash channel job hash ntime nbits)
      (s.session.prevHash channel job hash ntime nbits >>= fun t => pure ((), t)) s := by
  unfold prevHash Session.prevHash
  refine getSession_agrees (require_agrees (by rw [not_and_or, not_or]) rfl fun _ => ?_)
  cases s.session.jobs.lookup job with
  | none =>
      intro result h
      cases h
  | some selected =>
      refine require_agrees Iff.rfl rfl fun _ => ?_
      dsimp only
      rw [bind_assoc]
      refine agreesOn_ofExcept fun networkTarget _ => update_agrees ?_
      rw [bind_assoc]
      let t : Session κ := { s.session with
        jobs := ∅, epoch := s.session.epoch + 1, previous := hash
        networkTarget := networkTarget, havePrevious := true }
      exact activate_agrees (s := { s with
        session := { t with jobs := t.jobs.insert job selected } }) (t := t) rfl

/-- One batch of the queue. -/
theorem settled_cons {t : Session κ} {b : Batch} {rest : List Batch}
    (hbatches : t.batches = b :: rest) :
    t.settled =
      if t.pending.countP (· ≤ b.last) < b.count.toNat then throw "SV2 inconsistent accepted count"
      else if t.pending.countP (· ≤ b.last) ≠ b.count.toNat then pure ([], t)
      else
        { t with
          pending := t.pending.filter fun sequence => !decide (sequence ≤ b.last)
          batches := rest }.settled >>= fun r =>
            pure ((t.pending.filter (· ≤ b.last)).map acceptedEvent ++ r.1, r.2) := by
  unfold Session.settled
  rw [hbatches, Session.settle]
  dsimp only
  split
  · rfl
  · split
    · rw [← hbatches]
      rfl
    · simp only [bind_assoc, pure_bind]

theorem settle_agrees (batches : List Batch) (hs : s.session.batches = batches) :
    AgreesOn Live.session (settle batches) s.session.settled s := by
  induction batches generalizing s with
  | nil =>
      unfold AgreesOn Session.settled settle
      rw [hs, ends_pure, Session.settle, ← hs]
      rfl
  | cons b rest ih =>
      rw [settled_cons hs]
      unfold AgreesOn settle
      simp only [ends_bind, ends_getSession, ends_require, ends_ite, ends_update]
      refine ⟨fun hcount => ⟨fun hwait => ?_, fun hwhole => ?_⟩, fun hcount => ?_⟩
      · rw [if_neg (not_lt.mpr hcount), if_pos hwait]
        rfl
      · rw [if_neg (not_lt.mpr hcount), if_neg hwhole]
        have hrest := (ih (s := { s with session := { s.session with
          pending := s.session.pending.filter fun sequence => !decide (sequence ≤ b.last)
          batches := rest } }) rfl).map
            ((s.session.pending.filter (· ≤ b.last)).map acceptedEvent ++ ·)
        exact (ends_bind _ _).mp hrest
      · rw [if_pos (not_le.mp hcount)]
        intro result h
        cases h

theorem accepted_agrees (channel last count : UInt32) :
    AgreesOn Live.session (accepted channel last count) (s.session.accepted channel last count)
      s := by
  unfold accepted Session.accepted
  exact getSession_agrees (permit_agrees rfl fun _ => update_agrees (settle_agrees _ rfl))

theorem rejected_agrees (channel sequence : UInt32) (reason : Text) :
    AgreesOn Live.session (rejected channel sequence reason)
      (s.session.rejected channel sequence reason) s := by
  unfold rejected Session.rejected
  refine getSession_agrees (permit_agrees rfl fun _ => update_agrees ?_)
  have hsettle := settle_agrees (s := { s with
    session := { s.session with pending := s.session.pending.erase sequence } }) _ rfl
  exact hsettle.map (rejectedEvent sequence reason :: ·)

theorem setupSuccess_agrees (version : UInt16) (flags : UInt32) :
    AgreesOn Live.session (setupSuccess lib version flags)
      (s.session.setupSuccess lib.foreign version flags >>= fun t => pure ((), t)) s := by
  unfold setupSuccess Session.setupSuccess
  refine getSession_agrees (require_agrees (by rw [not_and_or, not_and_or]) rfl fun _ => ?_)
  simp only [bind_assoc, pure_bind]
  exact agreesOn_ofExcept fun f _ => send_agrees fun s' => rfl

theorem openSuccess_agrees (request channel : UInt32) (target : Hash) (extranonce : Bytes)
    (group : UInt32) :
    AgreesOn Live.session (openSuccess request channel target extranonce group)
      (s.session.openSuccess request channel target extranonce group >>= fun t => pure ((), t))
      s := by
  unfold openSuccess Session.openSuccess
  exact getSession_agrees (require_agrees not_and_or.symm rfl fun _ =>
    require_agrees not_or.symm rfl fun _ => rfl)

theorem setTarget_agrees (channel : UInt32) (target : Hash) :
    AgreesOn Live.session (setTarget channel target)
      (s.session.setTarget channel target >>= fun t => pure ((), t)) s := by
  unfold setTarget Session.setTarget
  exact getSession_agrees (require_agrees (by rw [not_and_or, not_or]) rfl fun _ => rfl)

theorem apply_agrees (m : Message) :
    AgreesOn Live.session (apply lib m) (s.session.apply lib.foreign m) s := by
  cases m with
  | setupSuccess version flags => exact quiet_agrees (setupSuccess_agrees version flags) []
  | openSuccess request channel target extranonce group =>
      exact quiet_agrees (openSuccess_agrees request channel target extranonce group) []
  | newJob job => exact quiet_agrees (newJob_agrees job) []
  | prevHash channel job hash ntime nbits =>
      exact quiet_agrees (prevHash_agrees channel job hash ntime nbits) []
  | target channel target => exact quiet_agrees (setTarget_agrees channel target) _
  | accepted channel last count sum => exact accepted_agrees channel last count
  | rejected channel sequence reason => exact rejected_agrees channel sequence reason
  | error type reference reason =>
      intro result h
      cases h

theorem receiveFrames_agrees (frames : List Frame) :
    AgreesOn Live.session (frames.foldlM (receiveFrame lib) [])
      (s.session.receiveFrames lib.foreign frames) s := by
  refine agreesOn_foldlM ?_ frames []
  intro out frame s
  refine agreesOn_ofExcept fun m _ => ?_
  unfold Session.handle
  simp only [bind_assoc, pure_bind]
  exact (apply_agrees m).map fun events => out ++ (events ++ [promptEvent])

theorem receiveReady_agrees (bytes : Bytes) :
    AgreesOn Live.session
      (onNoise (Noise.receiveM lib.port bytes) >>= fun frames =>
        frames.foldlM (receiveFrame lib) [])
      (s.session.receiveReady lib.foreign bytes) s :=
  onNoise_agrees (Noise.receiveM_agrees bytes) fun frames _ _ => receiveFrames_agrees frames

/-- A read that returns does the same to the session in both models. -/
theorem receive_agrees (bytes : Bytes) :
    AgreesOn Live.session (receive lib bytes) (s.session.receive lib.foreign bytes) s := by
  unfold receive receiveWith Session.receive AgreesOn
  rw [ends_bind, ends_getSession, ends_ite]
  refine ⟨fun hphase => ?_, fun hphase => ?_⟩
  · rw [if_pos hphase]
    dsimp only
    rw [ends_bind, ends_update, ends_bind, ends_require]
    refine ⟨fun hlimit => ?_, fun hlimit => ?_⟩
    · rw [if_neg (not_lt.mpr hlimit), ends_ite]
      refine ⟨fun hshort => ?_, fun hfull => ?_⟩
      · rw [if_pos hshort]
        rfl
      · rw [if_neg hfull]
        refine onNoise_agrees_unit (s := { s with session := { s.session with
          handshake := s.session.handshake ++ bytes } }) (Noise.finishM_agrees _) fun noise => ?_
        unfold AgreesOn
        rw [ends_bind, ends_update]
        exact agreesOn_ofExcept fun f _ => send_agrees fun s' => receiveReady_agrees _
    · rw [if_pos (not_le.mp hlimit)]
      intro result h
      cases h
  · rw [if_neg hphase]
    exact receiveReady_agrees bytes

theorem submit_agrees (j : Job) (nonce : UInt64) (sequence : UInt32) :
    AgreesOn Live.session (submit lib j nonce sequence)
      (s.session.submit lib.foreign j nonce sequence >>= fun t => pure ((), t)) s := by
  unfold submit Session.submit AgreesOn
  simp only [ends_bind, ends_getSession, ends_require, ends_update]
  refine ⟨fun hguard => ?_, fun hguard => ?_⟩
  · rw [if_pos hguard]
    have hsend (s : Live κ) (f : Frame) :
        AgreesOn Live.session (send lib f >>= fun _ => pure ())
          (s.session.send lib.foreign f >>= fun t => pure ((), t)) s :=
      send_agrees fun _ => rfl
    exact (ends_bind _ _).mp (hsend _ _)
  · rw [if_neg hguard]
    intro result h
    cases h

/-- A call of either operation on the session that forgets. -/
def forgetful (lib : Outside κ) (t : Session κ) : Call → Except String (List Json × Session κ)
  | .receive bytes => t.receive lib.foreign bytes
  | .submit j nonce sequence => t.submit lib.foreign j nonce sequence >>= fun t => pure ([], t)

theorem perform_agrees (call : Call) :
    AgreesOn Live.session (perform lib call) (forgetful lib s.session call) s := by
  cases call with
  | receive bytes => exact receive_agrees bytes
  | submit j nonce sequence => exact quiet_agrees (submit_agrees j nonce sequence) []

theorem performs_agree (calls : List Call) :
    AgreesOn Live.session (calls.mapM (perform lib)) (history (forgetful lib) s.session calls)
      s := by
  induction calls generalizing s with
  | nil => exact rfl
  | cons call calls ih =>
      rw [List.mapM_cons]
      refine agreesOn_bind (perform_agrees call) fun out s' _ => ?_
      exact (ih (s := s')).map (out :: ·)

/-- A run of calls that all return leaves the session that the run of the
forgetful one leaves, with the same events. -/
theorem run_iff_history {first : Live κ} {calls : List Call} {outs : List (List Json)}
    {last : Session κ} :
    (∃ s', calls.mapM (perform lib) first = .ok outs s' ∧ s'.session = last) ↔
      history (forgetful lib) first.session calls = .ok (outs, last) :=
  (performs_agree calls).ok_iff

end Supryolo.Sv2.Live
