import Supryolo.Live

/-!
How a session conducts itself, whatever it receives and whatever it has thrown
before. Every phase fixes which frames have been sent and whether a channel is
open; every operation keeps to that, also where it throws.
-/

namespace Supryolo.Sv2

open Effects Words

variable {κ : Type}

/-- What a session is started with. -/
structure Terms where
  host : Text
  port : UInt16
  user : Text
  rate : UInt32

namespace Terms

def setup (t : Terms) : Except String Frame :=
  Sv2.setup t.host t.port "supryolo/0.2.1".toList

def openStandard (t : Terms) : Except String Frame :=
  Sv2.openStandard 1 t.user t.rate (Vector.replicate 32 255)

/-- The setup frame, or nothing when it cannot be made. -/
def opening (t : Terms) : List Frame := t.setup.toOption.toList

end Terms

/-- The fields of a share that has been sent. -/
structure Submission where
  sequence : UInt32
  job : UInt32
  nonce : UInt32
  ntime : UInt32
  version : UInt32

def Submission.frame (channel : UInt32) (x : Submission) : Frame :=
  submitStandard channel x.sequence x.job x.nonce x.ntime x.version

namespace Live

variable {lib : Outside κ} {t : Terms} {s s' : Live κ}

/-- What the phase says of the frames sent and of the channel. -/
structure Conduct (t : Terms) (s : Live κ) : Prop where
  terms : (⟨s.session.host, s.session.port, s.session.user, s.session.rate⟩ : Terms) = t
  ready_iff : s.session.noise.ready = true ↔ s.session.phase ≠ 0
  phase_le : s.session.phase ≤ 3
  closed : s.session.phase ≠ 3 → s.opened = [] ∧ s.session.channel = 0 ∧ s.session.group = 0 ∧
    s.session.extra = [] ∧ s.session.jobs = ∅ ∧ s.session.current = none
  opened : s.session.phase = 3 →
    s.opened = [(s.session.channel, s.session.group, s.session.extra)] ∧
      s.session.extra.length = 12
  silent : s.session.phase = 0 → s.sent = []
  greeted : s.session.phase = 1 →
    s.sent = t.opening ∨ (s.sent = [] ∧ s.session.noise.failed = true)
  asked : s.session.phase = 2 → ∃ f, t.openStandard = .ok f ∧ s.sent = t.opening ++ [f]
  submitting : s.session.phase = 3 → ∃ (f : Frame) (submissions : List Submission),
    t.openStandard = .ok f ∧
    s.sent = t.opening ++ f :: submissions.map (Submission.frame s.session.channel) ∧
    (submissions.map Submission.sequence).Pairwise (· < ·) ∧
    ∀ x ∈ submissions, x.sequence ≤ s.session.lastSent

/-- While the channel is open, only what has been submitted can change. -/
theorem Conduct.of_open (submissions : List Submission) (hphase : s.session.phase = 3)
    (hterms : (⟨s.session.host, s.session.port, s.session.user, s.session.rate⟩ : Terms) = t)
    (hready : s.session.noise.ready = true)
    (hopened : s.opened = [(s.session.channel, s.session.group, s.session.extra)] ∧
      s.session.extra.length = 12) {f : Frame} (hopen : t.openStandard = .ok f)
    (hsent : s.sent = t.opening ++ f :: submissions.map (Submission.frame s.session.channel))
    (hincreasing : (submissions.map Submission.sequence).Pairwise (· < ·))
    (hbound : ∀ x ∈ submissions, x.sequence ≤ s.session.lastSent) : Conduct t s where
  terms := hterms
  ready_iff := ⟨fun _ => by omega, fun _ => hready⟩
  phase_le := by omega
  closed hclosed := absurd hphase hclosed
  opened _ := hopened
  silent hzero := by omega
  greeted hone := by omega
  asked htwo := by omega
  submitting _ := ⟨f, submissions, hopen, hsent, hincreasing, hbound⟩

/-- The part of the state that messages within a channel leave alone. -/
structure Outline (κ : Type) where
  terms : Terms
  noise : Noise κ
  phase : Nat
  channel : UInt32
  group : UInt32
  extra : Bytes
  lastSent : UInt32
  sent : List Frame
  opened : List (UInt32 × UInt32 × Bytes)

def outline (s : Live κ) : Outline κ :=
  ⟨⟨s.session.host, s.session.port, s.session.user, s.session.rate⟩, s.session.noise,
    s.session.phase, s.session.channel, s.session.group, s.session.extra, s.session.lastSent,
    s.sent, s.opened⟩

/-- Jobs come and go only while the channel is open. -/
structure Inner (s s' : Live κ) : Prop where
  outline : s'.outline = s.outline
  jobs : s.session.phase ≠ 3 →
    s'.session.jobs = s.session.jobs ∧ s'.session.current = s.session.current

theorem Inner.refl (s : Live κ) : Inner s s := ⟨rfl, fun _ => ⟨rfl, rfl⟩⟩

theorem Inner.of_open (hphase : s.session.phase = 3) (h : s'.outline = s.outline) : Inner s s' :=
  ⟨h, fun hclosed => absurd hphase hclosed⟩

theorem Conduct.inner (h : Conduct t s) (hinner : Inner s s') : Conduct t s' := by
  have houtline := hinner.outline
  simp only [outline, Outline.mk.injEq] at houtline
  obtain ⟨hterms, hnoise, hphase, hchannel, hgroup, hextra, hlast, hsent, hopened⟩ := houtline
  refine ⟨hterms.trans h.terms, ?_, ?_, ?_, ?_, ?_, ?_, ?_, ?_⟩
  · rw [hnoise, hphase]
    exact h.ready_iff
  · rw [hphase]
    exact h.phase_le
  · rw [hphase, hopened, hchannel, hgroup, hextra]
    intro hclosed
    obtain ⟨hjobs, hcurrent⟩ := hinner.jobs hclosed
    rw [hjobs, hcurrent]
    exact h.closed hclosed
  · rw [hphase, hopened, hchannel, hgroup, hextra]
    exact h.opened
  · rw [hphase, hsent]
    exact h.silent
  · rw [hphase, hsent, hnoise]
    exact h.greeted
  · rw [hphase, hsent]
    exact h.asked
  · rw [hphase, hsent, hchannel, hlast]
    exact h.submitting

theorem activate_inner {before : Live κ} (hphase : before.session.phase = 3)
    (h : s.outline = before.outline) (id : UInt32) (stored : Stored) (time : UInt32) :
    Ends (activate id stored time) (fun _ => Inner before) (fun _ => Inner before) s := by
  unfold activate
  simp only [ends_bind, ends_getSession, ends_require, ends_update, ends_ofExcept]
  refine ⟨fun _ => ?_, fun _ => Inner.of_open hphase h⟩
  split
  · exact Inner.of_open hphase h
  · exact Inner.of_open hphase h

theorem newJob_inner (m : NewJob) :
    Ends (newJob m) (fun _ => Inner s) (fun _ => Inner s) s := by
  unfold newJob
  simp only [ends_bind, ends_getSession, ends_require, ends_update]
  refine ⟨fun hphase => ⟨fun _ => ?_, fun _ => Inner.refl s⟩, fun _ => Inner.refl s⟩
  cases m.ntime with
  | none => exact Inner.of_open hphase.1 rfl
  | some time => exact activate_inner hphase.1 (by rfl) _ _ _

theorem prevHash_inner (channel job : UInt32) (hash : Hash) (ntime nbits : UInt32) :
    Ends (prevHash channel job hash ntime nbits) (fun _ => Inner s) (fun _ => Inner s) s := by
  unfold prevHash
  simp only [ends_bind, ends_getSession, ends_require]
  refine ⟨fun hphase => ?_, fun _ => Inner.refl s⟩
  cases s.session.jobs.lookup job with
  | none => exact Inner.refl s
  | some selected =>
      dsimp only
      simp only [ends_bind, ends_require, ends_ofExcept, ends_update]
      refine ⟨fun _ => ?_, fun _ => Inner.refl s⟩
      split
      · exact activate_inner hphase.1 (by rfl) _ _ _
      · exact Inner.refl s

theorem settle_inner (batches : List Batch) :
    Ends (settle batches) (fun _ => Inner s) (fun _ => Inner s) s := by
  induction batches generalizing s with
  | nil => exact Inner.refl s
  | cons b rest ih =>
      unfold settle
      simp only [ends_bind, ends_getSession, ends_require, ends_ite, ends_pure, ends_update]
      refine ⟨fun _ => ⟨fun _ => Inner.refl s, fun _ => ?_⟩, fun _ => Inner.refl s⟩
      refine ih.mono ?_ ?_
      · exact fun _ s' h => ⟨h.outline, h.jobs⟩
      · exact fun _ s' h => ⟨h.outline, h.jobs⟩

theorem accepted_inner (channel last count : UInt32) :
    Ends (accepted channel last count) (fun _ => Inner s) (fun _ => Inner s) s := by
  unfold accepted
  simp only [ends_bind, ends_getSession, ends_require, ends_update]
  refine ⟨fun _ => ?_, fun _ => Inner.refl s⟩
  refine (settle_inner _).mono ?_ ?_
  · exact fun _ s' h => ⟨h.outline, h.jobs⟩
  · exact fun _ s' h => ⟨h.outline, h.jobs⟩

theorem rejected_inner (channel sequence : UInt32) (reason : Text) :
    Ends (rejected channel sequence reason) (fun _ => Inner s) (fun _ => Inner s) s := by
  unfold rejected
  simp only [ends_bind, ends_getSession, ends_require, ends_update]
  refine ⟨fun _ => ?_, fun _ => Inner.refl s⟩
  refine (settle_inner _).mono ?_ ?_
  · exact fun _ s' h => ⟨h.outline, h.jobs⟩
  · exact fun _ s' h => ⟨h.outline, h.jobs⟩

theorem setTarget_inner (channel : UInt32) (target : Hash) :
    Ends (setTarget channel target) (fun _ => Inner s) (fun _ => Inner s) s := by
  unfold setTarget
  simp only [ends_bind, ends_getSession, ends_require, ends_update]
  exact ⟨fun hphase => Inner.of_open hphase.1 rfl, fun _ => Inner.refl s⟩

/-- The transport may move, as long as it is as ready and as failed as before. -/
theorem Conduct.transport (h : Conduct t s) {noise : Noise κ}
    (hready : noise.ready = s.session.noise.ready)
    (hfailed : s.session.noise.failed = true → noise.failed = true) :
    Conduct t { s with session := { s.session with noise := noise } } where
  terms := h.terms
  ready_iff := by
    rw [← h.ready_iff, ← hready]
  phase_le := h.phase_le
  closed := h.closed
  opened := h.opened
  silent := h.silent
  greeted hphase := by
    rcases h.greeted hphase with hsent | ⟨hsent, hdown⟩
    · exact Or.inl hsent
    · exact Or.inr ⟨hsent, hfailed hdown⟩
  asked := h.asked
  submitting := h.submitting

/-- A frame that is sent is logged. One that is not has poisoned the connection,
or left it as it was. -/
theorem send_ends {f : Frame} {Q : Unit → Live κ → Prop} {R : String → Live κ → Prop}
    (hok : ∀ noise written, s.session.noise.Up → noise.Up →
      Q () { s with
        session := { s.session with noise := noise, written := written }
        sent := s.sent ++ [f] })
    (herror : ∀ e noise, noise.ready = s.session.noise.ready →
      (noise.failed = true ∨ noise = s.session.noise ∧
        (s.session.noise.Up → maxPayload < f.payload.length)) →
      R e { s with session := { s.session with noise := noise } }) :
    Ends (send lib f) Q R s := by
  unfold send
  simp only [ends_bind, ends_onNoise, ends_modify]
  refine ((Noise.encodeM_poisons f).and (Noise.encodeM_ready f rfl)).mono ?_ ?_
  · rintro bytes noise ⟨⟨hup, hup'⟩, -⟩
    exact hok noise _ hup hup'
  · rintro e noise ⟨⟨-, hsame, hlarge⟩ | ⟨-, hfailed⟩, hready⟩
    · exact herror e noise hready (Or.inr ⟨hsame, hlarge⟩)
    · exact herror e noise hready (Or.inl hfailed)

theorem conduct_setupSuccess (h : Conduct t s) (version : UInt16) (flags : UInt32) :
    Ends (setupSuccess lib version flags) (fun _ => Conduct t) (fun _ => Conduct t) s := by
  unfold setupSuccess
  simp only [ends_bind, ends_getSession, ends_require, ends_ofExcept]
  refine ⟨fun hguard => ?_, fun _ => h⟩
  have hphase := hguard.1
  have hframe : openStandard 1 s.session.user s.session.rate (Vector.replicate 32 255) =
      t.openStandard := by rw [← h.terms]; rfl
  rw [hframe]
  cases hopen : t.openStandard with
  | error e => exact h
  | ok f =>
      refine send_ends ?_ ?_
      · intro noise written hup hup'
        have hsent : s.sent = t.opening := by
          rcases h.greeted hphase with hsent | ⟨-, hfailed⟩
          · exact hsent
          · rw [hup.failed] at hfailed
            cases hfailed
        exact
          { terms := h.terms
            ready_iff := by simp [hup'.ready]
            phase_le := (by decide : 2 ≤ 3)
            closed := fun _ => h.closed (by omega)
            opened := fun hthree => absurd hthree (by decide : ¬ 2 = 3)
            silent := fun hzero => absurd hzero (by decide : ¬ 2 = 0)
            greeted := fun hone => absurd hone (by decide : ¬ 2 = 1)
            asked := fun _ => ⟨f, hopen, by rw [← hsent]⟩
            submitting := fun hthree => absurd hthree (by decide : ¬ 2 = 3) }
      · intro e noise hready hnoise
        refine h.transport hready ?_
        rcases hnoise with hfailed | ⟨rfl, -⟩
        · exact fun _ => hfailed
        · exact id

theorem conduct_openSuccess (h : Conduct t s) (request channel : UInt32) (target : Hash)
    (extranonce : Bytes) (group : UInt32) :
    Ends (openSuccess request channel target extranonce group) (fun _ => Conduct t)
      (fun _ => Conduct t) s := by
  unfold openSuccess
  simp only [ends_bind, ends_getSession, ends_require, ends_modify]
  refine ⟨fun hguard => ⟨fun hlength => ?_, fun _ => h⟩, fun _ => h⟩
  have hphase := hguard.1
  obtain ⟨hopened, -⟩ := h.closed (by omega)
  obtain ⟨f, hopen, hsent⟩ := h.asked hphase
  exact
    { terms := h.terms
      ready_iff := by simp [h.ready_iff.mpr (by omega)]
      phase_le := le_refl 3
      closed := fun hclosed => absurd rfl hclosed
      opened := fun _ => ⟨by rw [hopened]; rfl, by
        rw [List.length_append, List.length_replicate]
        omega⟩
      silent := fun hzero => absurd hzero (by decide : ¬ 3 = 0)
      greeted := fun hone => absurd hone (by decide : ¬ 3 = 1)
      asked := fun htwo => absurd htwo (by decide : ¬ 3 = 2)
      submitting := fun _ =>
        ⟨f, [], hopen, hsent, List.Pairwise.nil, fun _ hx => absurd hx List.not_mem_nil⟩ }

theorem conduct_apply (h : Conduct t s) (m : Message) :
    Ends (apply lib m) (fun _ => Conduct t) (fun _ => Conduct t) s := by
  have hwithin {α : Type} {x : Program κ α} (hx : Ends x (fun _ => Inner s) (fun _ => Inner s) s) :
      Ends x (fun _ => Conduct t) (fun _ => Conduct t) s :=
    hx.mono (fun _ _ hinner => h.inner hinner) fun _ _ hinner => h.inner hinner
  cases m with
  | setupSuccess version flags =>
      rw [apply, ends_bind]
      exact conduct_setupSuccess h version flags
  | openSuccess request channel target extranonce group =>
      rw [apply, ends_bind]
      exact conduct_openSuccess h request channel target extranonce group
  | newJob job =>
      rw [apply, ends_bind]
      exact hwithin (newJob_inner job)
  | prevHash channel job hash ntime nbits =>
      rw [apply, ends_bind]
      exact hwithin (prevHash_inner channel job hash ntime nbits)
  | target channel target =>
      rw [apply, ends_bind]
      exact hwithin (setTarget_inner channel target)
  | accepted channel last count sum => exact hwithin (accepted_inner channel last count)
  | rejected channel sequence reason => exact hwithin (rejected_inner channel sequence reason)
  | error type reference reason => exact h

theorem conduct_frames (h : Conduct t s) (frames : List Frame) :
    Ends (frames.foldlM (receiveFrame lib) []) (fun _ => Conduct t) (fun _ => Conduct t) s := by
  refine ends_foldlM (I := fun _ => Conduct t) ?_ frames h
  intro out frame s h
  unfold receiveFrame
  rw [ends_bind, ends_ofExcept]
  split
  · rw [ends_bind]
    exact conduct_apply h _
  · exact h

theorem conduct_transport (h : Conduct t s) {α : Type} {x : List Frame → Program κ α}
    (hx : ∀ frames s, Conduct t s → Ends (x frames) (fun _ => Conduct t) (fun _ => Conduct t) s)
    (bytes : Bytes) :
    Ends (onNoise (Noise.receiveM lib.port bytes) >>= x) (fun _ => Conduct t)
      (fun _ => Conduct t) s := by
  rw [ends_bind, ends_onNoise]
  refine ((Noise.receiveM_ready bytes rfl).and (Noise.receiveM_poisons bytes)).mono ?_ ?_
  · rintro frames noise ⟨hready, hup⟩
    refine hx frames _ (h.transport hready ?_)
    intro hfailed
    rw [hup] at hfailed
    cases hfailed
  · rintro e noise ⟨hready, hfailed⟩
    exact h.transport hready fun _ => hfailed

/-- The setup frame is far below the size limit. -/
theorem setup_size {f : Frame} (h : t.setup = .ok f) : f.payload.length ≤ maxPayload := by
  obtain ⟨host, hhost, h⟩ := Loops.bind_eq_ok.mp h
  obtain ⟨hlength, hhost⟩ := Loops.guard_eq_ok.mp hhost
  obtain rfl := Loops.pure_eq_ok.mp hhost
  obtain rfl := Except.ok.inj h
  simp only [List.length_append, leBytes_length, List.length_cons, List.length_map]
  change 1 + 2 + 2 + 4 + (t.host.length + 1) + 2 + (7 + 1) + (8 + 1) + (14 + 1) + (0 + 1) ≤ 1048576
  omega

/-- Once the handshake is done, the setup frame is the first that is sent. -/
theorem conduct_authenticated (h : Conduct t s) (hzero : s.session.phase = 0) {noise : Noise κ}
    {written : Bytes} {sent : List Frame} (hready : noise.ready = true)
    (hsent : sent = t.opening ∨ (sent = [] ∧ noise.failed = true)) :
    Conduct t { s with
      session := { s.session with noise := noise, written := written, handshake := [], phase := 1 }
      sent := sent } where
  terms := h.terms
  ready_iff := by simp [hready]
  phase_le := (by decide : 1 ≤ 3)
  closed _ := h.closed (by omega)
  opened hthree := nomatch hthree
  silent hphase := nomatch hphase
  greeted _ := hsent
  asked htwo := nomatch htwo
  submitting hthree := nomatch hthree

/-- A read keeps to the protocol, however far its loop over the frames goes. -/
theorem conduct_receiveWith (h : Conduct t s) {loop : List Frame → Program κ (List Json)}
    (hloop : ∀ frames s, Conduct t s →
      Ends (loop frames) (fun _ => Conduct t) (fun _ => Conduct t) s) (bytes : Bytes) :
    Ends (receiveWith lib loop bytes) (fun _ => Conduct t) (fun _ => Conduct t) s := by
  unfold receiveWith
  rw [ends_bind, ends_getSession, ends_ite]
  refine ⟨fun hzero => ?_, fun _ => conduct_transport h hloop bytes⟩
  -- While the handshake is gathered nothing else changes.
  have hgathered (handshake : Bytes) :
      Conduct t { s with session := { s.session with handshake := handshake } } :=
    ⟨h.terms, h.ready_iff, h.phase_le, h.closed, h.opened, h.silent, h.greeted, h.asked,
      h.submitting⟩
  simp only [ends_bind, ends_update, ends_require, ends_ite, ends_onNoise, ends_pure]
  refine ⟨fun _ => ⟨fun _ => hgathered _, fun _ => ?_⟩, fun _ => hgathered _⟩
  refine ((Noise.finishM_ready _).and (Noise.finishM_poisons _)).mono ?_ ?_
  · rintro - noise ⟨⟨hup, -⟩, -⟩
    have hsetup : setup s.session.host s.session.port "supryolo/0.2.1".toList = t.setup := by
      rw [← h.terms]
      rfl
    have hsilent := h.silent hzero
    rw [ends_ofExcept, hsetup]
    cases hframe : t.setup with
    | error e =>
        refine conduct_authenticated h hzero hup.ready (Or.inl ?_)
        rw [hsilent, Terms.opening, hframe]
        rfl
    | ok f =>
        have hopening : s.sent ++ [f] = t.opening := by
          rw [hsilent, Terms.opening, hframe]
          rfl
        dsimp only
        rw [ends_bind]
        refine send_ends ?_ ?_
        · intro noise' written _ hup'
          exact conduct_transport (conduct_authenticated h hzero hup'.ready (Or.inl hopening)) hloop _
        · rintro e noise' hready hnoise
          refine conduct_authenticated h hzero (hready.trans hup.ready) (Or.inr ⟨hsilent, ?_⟩)
          rcases hnoise with hfailed | ⟨-, hlarge⟩
          · exact hfailed
          · exact absurd (setup_size hframe) (Nat.not_le.mpr (hlarge ⟨hup.ready, hup.failed⟩))
  · rintro e noise ⟨hready, hfailed⟩
    exact (hgathered _).transport hready fun _ => hfailed

theorem conduct_submit (h : Conduct t s) (j : Job) (nonce : UInt64) (sequence : UInt32) :
    Ends (submit lib j nonce sequence) (fun _ => Conduct t) (fun _ => Conduct t) s := by
  unfold submit
  simp only [ends_bind, ends_getSession, ends_require, ends_update]
  refine ⟨fun hguard => ?_, fun _ => h⟩
  simp only [Session.submittable, Bool.and_eq_true, decide_eq_true_eq] at hguard
  obtain ⟨⟨⟨hvalid, -⟩, hlater⟩, -⟩ := hguard
  obtain ⟨-, -, hphase, -⟩ := Session.valid_iff.mp hvalid
  obtain ⟨f, submissions, hopen, hsent, hincreasing, hbound⟩ := h.submitting hphase
  have hle {x : UInt32} (hx : x ≤ s.session.lastSent) : x < sequence :=
    UInt32.lt_of_le_of_lt hx hlater
  refine send_ends ?_ ?_
  · intro noise written hup hup'
    refine Conduct.of_open
      (submissions ++ [⟨sequence, j.wireJob, nonce.toUInt32, j.time32, j.version⟩]) hphase h.terms
      hup'.ready (h.opened hphase) hopen ?_ ?_ ?_
    · simp [hsent, Submission.frame]
    · rw [List.map_append, List.pairwise_append]
      refine ⟨hincreasing, List.pairwise_singleton _ _, ?_⟩
      intro a ha b hb
      obtain ⟨x, hx, rfl⟩ := List.mem_map.mp ha
      obtain rfl : b = sequence := by simpa using hb
      exact hle (hbound x hx)
    · intro x hx
      rcases List.mem_append.mp hx with hx | hx
      · exact UInt32.le_of_lt (hle (hbound x hx))
      · obtain rfl := List.mem_singleton.mp hx
        exact UInt32.le_refl _
  · intro e noise hready hnoise
    -- The sequence number is used up even where the frame could not be sent.
    have hused : Conduct t { s with session := { s.session with
        pending := s.session.pending ++ [sequence], lastSent := sequence } } :=
      ⟨h.terms, h.ready_iff, h.phase_le, h.closed, h.opened, h.silent, h.greeted, h.asked,
        fun _ => ⟨f, submissions, hopen, hsent, hincreasing, fun x hx => UInt32.le_of_lt (hle (hbound x hx))⟩⟩
    refine hused.transport hready ?_
    rcases hnoise with hfailed | ⟨rfl, -⟩
    · exact fun _ => hfailed
    · exact id

theorem conduct_perform (h : Conduct t s) (call : Call) :
    Ends (perform lib call) (fun _ => Conduct t) (fun _ => Conduct t) s := by
  cases call with
  | receive bytes => exact conduct_receiveWith h (fun frames s h => conduct_frames h frames) bytes
  | submit j nonce sequence =>
      rw [perform, ends_bind]
      exact conduct_submit h j nonce sequence

theorem conduct_start (state : κ) (first : Bytes) (t : Terms) :
    Conduct t (start state first t.host t.port t.user t.rate) where
  terms := rfl
  ready_iff := by simp [start, Session.start]
  phase_le := Nat.zero_le 3
  closed _ := ⟨rfl, rfl, rfl, rfl, rfl, rfl⟩
  opened hthree := nomatch hthree
  silent _ := rfl
  greeted hone := nomatch hone
  asked htwo := nomatch htwo
  submitting hthree := nomatch hthree

/-- Authentication is not undone. -/
theorem ready_apply (h : s.session.noise.ready = true) (m : Message) :
    Ends (apply lib m) (fun _ s' => s'.session.noise.ready = true)
      (fun _ s' => s'.session.noise.ready = true) s := by
  have hwithin {α : Type} {x : Program κ α} (hx : Ends x (fun _ => Inner s) (fun _ => Inner s) s) :
      Ends x (fun _ s' => s'.session.noise.ready = true)
        (fun _ s' => s'.session.noise.ready = true) s := by
    have hsame {s' : Live κ} (hinner : Inner s s') : s'.session.noise.ready = true := by
      have hnoise : s'.session.noise = s.session.noise := congrArg Outline.noise hinner.outline
      rw [hnoise, h]
    exact hx.mono (fun _ _ hinner => hsame hinner) fun _ _ hinner => hsame hinner
  cases m with
  | setupSuccess version flags =>
      simp only [apply, setupSuccess, ends_bind, ends_getSession, ends_require, ends_ofExcept]
      refine ⟨fun _ => ?_, fun _ => h⟩
      split
      · exact send_ends (fun noise written _ hup => hup.ready) fun e noise hready _ => hready.trans h
      · exact h
  | openSuccess request channel target extranonce group =>
      simp only [apply, openSuccess, ends_bind, ends_getSession, ends_require, ends_modify]
      exact ⟨fun _ => ⟨fun _ => h, fun _ => h⟩, fun _ => h⟩
  | newJob job =>
      rw [apply, ends_bind]
      exact hwithin (newJob_inner job)
  | prevHash channel job hash ntime nbits =>
      rw [apply, ends_bind]
      exact hwithin (prevHash_inner channel job hash ntime nbits)
  | target channel target =>
      rw [apply, ends_bind]
      exact hwithin (setTarget_inner channel target)
  | accepted channel last count sum => exact hwithin (accepted_inner channel last count)
  | rejected channel sequence reason => exact hwithin (rejected_inner channel sequence reason)
  | error type reference reason => exact h

theorem ready_frames (h : s.session.noise.ready = true) (frames : List Frame) :
    Ends (frames.foldlM (receiveFrame lib) []) (fun _ s' => s'.session.noise.ready = true)
      (fun _ s' => s'.session.noise.ready = true) s := by
  refine ends_foldlM (I := fun _ (s' : Live κ) => s'.session.noise.ready = true) ?_ frames h
  intro out frame s h
  unfold receiveFrame
  rw [ends_bind, ends_ofExcept]
  split
  · rw [ends_bind]
    exact ready_apply h _
  · exact h

theorem ready_transport (h : s.session.noise.ready = true) (bytes : Bytes) :
    Ends (onNoise (Noise.receiveM lib.port bytes) >>= fun frames =>
      frames.foldlM (receiveFrame lib) []) (fun _ s' => s'.session.noise.ready = true)
      (fun _ s' => s'.session.noise.ready = true) s := by
  rw [ends_bind, ends_onNoise]
  refine (Noise.receiveM_ready bytes h).mono ?_ fun _ _ hready => hready
  intro frames noise hready
  exact ready_frames hready frames

/-- A call that ends without authentication has returned no event, and began
without it. -/
theorem quiet_perform (h : Conduct t s) (call : Call) :
    Ends (perform lib call)
      (fun out s' => s'.session.noise.ready = false → s.session.noise.ready = false ∧ out = [])
      (fun _ s' => s'.session.noise.ready = false → s.session.noise.ready = false) s := by
  by_cases hready : s.session.noise.ready = true
  · -- Authenticated before: then it still is.
    have hkept : Ends (perform lib call) (fun _ s' => s'.session.noise.ready = true)
        (fun _ s' => s'.session.noise.ready = true) s := by
      cases call with
      | receive bytes =>
          simp only [perform, receive, receiveWith, ends_bind, ends_getSession, ends_ite]
          refine ⟨fun hzero => absurd hzero (h.ready_iff.mp hready), fun _ => ?_⟩
          exact (ends_bind _ _).mp (ready_transport hready bytes)
      | submit j nonce sequence =>
          simp only [perform, submit, ends_bind, ends_getSession, ends_require, ends_update]
          refine ⟨fun _ => ?_, fun _ => hready⟩
          exact send_ends (fun noise written _ hup => hup.ready) fun e noise h _ => h.trans hready
    refine hkept.mono ?_ ?_
    · intro out s' htrue hfalse
      rw [htrue] at hfalse
      cases hfalse
    · intro e s' htrue hfalse
      rw [htrue] at hfalse
      cases hfalse
  · rw [Bool.not_eq_true] at hready
    have hzero : s.session.phase = 0 := by
      by_contra hphase
      rw [h.ready_iff.mpr hphase] at hready
      cases hready
    cases call with
    | receive bytes =>
        simp only [perform, receive, receiveWith, ends_bind, ends_getSession, ends_ite, ends_update,
          ends_require, ends_onNoise, ends_pure]
        refine ⟨fun _ => ⟨fun _ => ⟨fun _ _ => ⟨hready, trivial⟩, fun _ => ?_⟩, fun _ _ => hready⟩,
          fun hphase => absurd hzero hphase⟩
        refine (Noise.finishM_ready _).mono ?_ fun _ _ _ _ => hready
        rintro - noise ⟨hup, -⟩
        rw [ends_ofExcept]
        split
        · -- From here on the connection is authenticated.
          rw [ends_bind]
          refine send_ends ?_ fun _ _ _ _ _ => hready
          intro noise' written _ hup'
          refine (ready_transport hup'.ready _).mono ?_ fun _ _ _ _ => hready
          intro out s' htrue hfalse
          rw [htrue] at hfalse
          cases hfalse
        · exact fun _ => hready
    | submit j nonce sequence =>
        simp only [perform, submit, ends_bind, ends_getSession, ends_require, ends_update]
        refine ⟨fun hguard => ?_, fun _ _ => hready⟩
        simp only [Session.submittable, Bool.and_eq_true, decide_eq_true_eq] at hguard
        obtain ⟨-, -, hphase, -⟩ := Session.valid_iff.mp hguard.1.1.1
        omega

/-! ### Runs -/

theorem conduct_calls (h : Conduct t s) (inputs : List Call) :
    Conduct t (calls (perform lib) s inputs).2 :=
  (calls_keep (P := fun _ => True) (fun call _ h =>
    (conduct_perform h call).mono (fun _ _ h => ⟨h, trivial⟩) fun _ _ h => ⟨h, trivial⟩) inputs h).1

theorem quiet_calls (h : Conduct t s) (inputs : List Call)
    (hend : (calls (perform lib) s inputs).2.session.noise.ready = false) :
    s.session.noise.ready = false ∧
      ∀ result ∈ (calls (perform lib) s inputs).1, ∀ out, result = .ok out → out = [] := by
  induction inputs generalizing s with
  | nil => exact ⟨hend, fun result hresult => nomatch hresult⟩
  | cons call rest ih =>
      have hconduct : Ends (perform lib call) (fun _ => Conduct t) (fun _ => Conduct t) s :=
        conduct_perform h call
      have hquiet : Ends (perform lib call) _ _ s := quiet_perform h call
      rw [calls] at hend ⊢
      cases hcall : perform lib call s with
      | ok out s' =>
          rw [hcall] at hend
          obtain ⟨hready, hrest⟩ := ih (hconduct.ok hcall) hend
          obtain ⟨hbefore, rfl⟩ := hquiet.ok hcall hready
          refine ⟨hbefore, List.forall_mem_cons.mpr ⟨?_, hrest⟩⟩
          intro out hout
          exact (Except.ok.inj hout).symm
      | error e s' =>
          rw [hcall] at hend
          obtain ⟨hready, hrest⟩ := ih (hconduct.error hcall) hend
          refine ⟨hquiet.error hcall hready, List.forall_mem_cons.mpr ⟨?_, hrest⟩⟩
          intro out hout
          cases hout

/-- What the protocol asks of a session: it sends a setup frame, asks for a
channel and then submits shares to the channel it was given, with increasing
sequence numbers; before authentication there is nothing; and the channel is
assigned once. -/
structure Orderly (t : Terms) (s : Live κ) : Prop where
  order : ∃ submissions : List Submission,
    s.sent.map Except.ok <+: t.setup :: t.openStandard ::
      submissions.map (fun x => Except.ok (x.frame s.session.channel)) ∧
    (submissions.map Submission.sequence).Pairwise (· < ·) ∧
    (submissions ≠ [] →
      s.opened = [(s.session.channel, s.session.group, s.session.extra)])
  quiet : s.session.noise.ready = false → s.sent = [] ∧ s.opened = [] ∧
    s.session.channel = 0 ∧ s.session.group = 0 ∧ s.session.extra = [] ∧ s.session.jobs = ∅ ∧
    s.session.current = none
  once : (s.opened = [] ∧ s.session.channel = 0 ∧ s.session.group = 0 ∧ s.session.extra = []) ∨
    s.opened = [(s.session.channel, s.session.group, s.session.extra)]

/-- With a setup frame that can be made, every phase is in order. -/
theorem Conduct.orderly (h : Conduct t s) {f : Frame} (hsetup : t.setup = .ok f) : Orderly t s := by
  have hopening : t.opening = [f] := by
    rw [Terms.opening, hsetup]
    rfl
  have hle := h.phase_le
  refine ⟨?_, ?_, ?_⟩
  · by_cases hthree : s.session.phase = 3
    · obtain ⟨g, submissions, hopen, hsent, hincreasing, -⟩ := h.submitting hthree
      refine ⟨submissions, ?_, hincreasing, fun _ => (h.opened hthree).1⟩
      rw [hsent, hopening, hsetup, hopen]
      simp only [List.map_append, List.map_cons, List.map_nil, List.map_map]
      exact List.prefix_refl _
    · refine ⟨[], ?_, List.Pairwise.nil, fun hne => absurd rfl hne⟩
      have hsent : s.sent = [] ∨ s.sent = [f] ∨ ∃ g, t.openStandard = .ok g ∧ s.sent = [f, g] := by
        rcases Nat.lt_or_ge s.session.phase 2 with hsmall | hlarge
        · by_cases hzero : s.session.phase = 0
          · exact Or.inl (h.silent hzero)
          · rcases h.greeted (by omega) with hsent | ⟨hsent, -⟩
            · exact Or.inr (Or.inl (hsent.trans hopening))
            · exact Or.inl hsent
        · obtain ⟨g, hopen, hsent⟩ := h.asked (by omega)
          exact Or.inr (Or.inr ⟨g, hopen, by rw [hsent, hopening]; rfl⟩)
      rcases hsent with hsent | hsent | ⟨g, hopen, hsent⟩
      · rw [hsent]
        exact List.nil_prefix
      · rw [hsent, hsetup]
        simp
      · rw [hsent, hsetup, hopen]
        simp
  · intro hready
    have hzero : s.session.phase = 0 := by
      by_contra hphase
      rw [h.ready_iff.mpr hphase] at hready
      cases hready
    exact ⟨h.silent hzero, h.closed (by omega)⟩
  · by_cases hthree : s.session.phase = 3
    · exact Or.inr (h.opened hthree).1
    · obtain ⟨hopened, hchannel, hgroup, hextra, -⟩ := h.closed hthree
      exact Or.inl ⟨hopened, hchannel, hgroup, hextra⟩

theorem setup_ok (h : t.host.length ≤ 255) : ∃ f, t.setup = .ok f := by
  unfold Terms.setup Sv2.setup
  rw [writeString, if_neg (Nat.not_lt.mpr h)]
  exact ⟨_, rfl⟩

/-- A session whose host name fits into a setup frame keeps to the protocol, for
every sequence of reads and submissions, whether or not they throw: it sends a setup
frame, then asks for a channel, then submits shares to the channel it was given
under increasing sequence numbers, and is assigned a channel once. Before the pool
is authenticated it sends nothing, holds no job and reports no event. -/
theorem protocol_order (lib : Outside κ) (state : κ) (first : Bytes) (t : Terms)
    (hhost : t.host.length ≤ 255) (inputs : List Call) :
    Orderly t (calls (perform lib) (start state first t.host t.port t.user t.rate) inputs).2 ∧
      ((calls (perform lib) (start state first t.host t.port t.user t.rate)
          inputs).2.session.noise.ready = false →
        ∀ result ∈ (calls (perform lib) (start state first t.host t.port t.user t.rate) inputs).1,
          ∀ out, result = .ok out → out = []) := by
  have hstart := conduct_start state first t
  obtain ⟨f, hsetup⟩ := setup_ok hhost
  exact ⟨(conduct_calls hstart inputs).orderly hsetup, fun hend => (quiet_calls hstart inputs hend).2⟩

def paddingPort : Port Unit where
  finish state _ := (true, state)
  transform state decrypt b :=
    (some (if decrypt then b.take (b.length - 16) else b ++ List.replicate 16 0), state)

def sampleOutside : Outside Unit := ⟨paddingPort, fun _ => .null⟩

def sampleTerms : Terms := ⟨"pool".toList, 3336, "user".toList, 0⟩

theorem protocol_order_sample :
    sampleTerms.host.length ≤ 255 ∧
      Orderly sampleTerms (calls (perform sampleOutside) (start () [] sampleTerms.host
        sampleTerms.port sampleTerms.user sampleTerms.rate)
        [.receive (List.replicate 234 0), .receive sampleAnswer]).2 :=
  ⟨by decide, (protocol_order sampleOutside () [] sampleTerms (by decide) _).1⟩

def longTerms : Terms := { sampleTerms with host := List.replicate 256 'a' }

/-- With a longer host name the session asks for a channel though it has sent no
setup frame: the phase has moved on before the setup frame could be made. -/
theorem order_broken_long_host :
    ¬ Orderly longTerms (calls (perform sampleOutside) (start () [] longTerms.host longTerms.port
      longTerms.user longTerms.rate) [.receive (List.replicate 234 0), .receive sampleAnswer]).2 := by
  intro h
  obtain ⟨submissions, hprefix, -⟩ := h.order
  have hsent : (calls (perform sampleOutside) (start () [] longTerms.host longTerms.port
      longTerms.user longTerms.rate)
      [.receive (List.replicate 234 0), .receive sampleAnswer]).2.sent.length = 1 := by
    decide +kernel
  have hsetup : longTerms.setup = .error "SV2 string exceeds 255 bytes" := by
    have hlong : longTerms.host.length > 255 := by
      change (List.replicate 256 'a').length > 255
      rw [List.length_replicate]
      decide
    unfold Terms.setup Sv2.setup
    rw [writeString, if_pos hlong]
    rfl
  obtain ⟨f, hf⟩ := List.length_eq_one_iff.mp hsent
  rw [hf, hsetup] at hprefix
  cases (List.cons_prefix_cons.mp hprefix).1

end Live

end Supryolo.Sv2
