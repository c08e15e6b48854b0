import Supryolo.Fragmentation
import Supryolo.Jobs

namespace Supryolo.Sv2

open Histories Incremental Loops

variable {κ : Type}

/-- The cipher without its encrypting half. -/
def Cipher.listening (c : Cipher κ) : Cipher κ where
  finish := c.finish
  transform state
    | true, b => c.transform state true b
    | false, _ => none

theorem Cipher.listening_independent (c : Cipher κ) : Independent c.listening where
  swap b x q p := by
    intro s u
    constructor
    · rintro ⟨m, hseal, -⟩
      cases hseal
    · rintro ⟨m, -, hseal⟩
      cases hseal

def Foreign.listening (lib : Foreign κ) : Foreign κ := { lib with cipher := lib.cipher.listening }

namespace Session

variable {lib : Foreign κ} {s s' : Session κ}

theorem phase_open {m : Message} {out : List Json} (hphase : s.phase = 3)
    (h : s.apply lib m = .ok (out, s')) : s'.phase = 3 := by
  cases apply_jobEffect h with
  | opening hother => exact absurd hphase hother
  | quiet hsame => exact hsame.trans hphase
  | stored wire _ hphase' => exact hphase'
  | activated stored key jobs _ hphase' => exact hphase'

theorem apply_listening (hphase : s.phase = 3) (m : Message) :
    s.apply lib.listening m = s.apply lib m := by
  cases m with
  | setupSuccess version flags =>
      have hrefused : s.phase ≠ 1 ∨ version ≠ 2 ∨ flags &&& ~~~1 ≠ 0 := Or.inl (by omega)
      simp only [apply, setupSuccess, if_pos hrefused]
      rfl
  | _ => rfl

theorem receiveFrames_listening (hphase : s.phase = 3) (frames : List Frame) :
    s.receiveFrames lib.listening frames = s.receiveFrames lib frames := by
  induction frames generalizing s with
  | nil => rfl
  | cons frame rest ih =>
      cases hdecode : decode frame with
      | error e => rw [receiveFrames, receiveFrames, List.foldlM_cons, List.foldlM_cons, hdecode]; rfl
      | ok message =>
          rw [receiveFrames_cons rest hdecode, receiveFrames_cons rest hdecode]
          have hhandle : s.handle lib.listening message = s.handle lib message := by
            rw [handle, handle, apply_listening hphase]
          rw [hhandle]
          cases hresult : s.handle lib message with
          | error e => rfl
          | ok result =>
              obtain ⟨pushed, next⟩ := result
              obtain ⟨events, happly, -⟩ := handle_ok hresult
              rw [ok_bind, ok_bind]
              dsimp only
              rw [ih (phase_open hphase happly)]

theorem receiveReady_listening (hphase : s.phase = 3) (bytes : Bytes) :
    s.receiveReady lib.listening bytes = s.receiveReady lib bytes := by
  have hnoise : s.noise.receive lib.listening.cipher bytes = s.noise.receive lib.cipher bytes := rfl
  unfold receiveReady
  rw [hnoise]
  cases s.noise.receive lib.cipher bytes with
  | error e => rfl
  | ok result => exact receiveFrames_listening (s := { s with noise := result.2 }) hphase result.1

theorem receiveReady_open {bytes : Bytes} {out : List Json} (hphase : s.phase = 3)
    (h : s.receiveReady lib bytes = .ok (out, s')) : s'.phase = 3 := by
  obtain ⟨⟨frames, noise⟩, -, h⟩ := bind_eq_ok.mp h
  exact receiveFrames_induction (motive := fun _ s => s.phase = 3) h hphase
    fun _ _ _ _ _ hphase happly => phase_open hphase happly

theorem history_listening (hphase : s.phase = 3) (chunks : List Bytes)
    {outs : List (List Json)} :
    history (receiveReady lib.listening) s chunks = .ok (outs, s') ↔
      history (receiveReady lib) s chunks = .ok (outs, s') := by
  induction chunks generalizing s outs with
  | nil => exact Iff.rfl
  | cons b chunks ih =>
      rw [history_cons, history_cons, receiveReady_listening hphase]
      constructor
      · rintro ⟨out, middle, later, hout, hlater, rfl⟩
        exact ⟨out, middle, later, hout, (ih (receiveReady_open hphase hout)).mp hlater, rfl⟩
      · rintro ⟨out, middle, later, hout, hlater, rfl⟩
        exact ⟨out, middle, later, hout, (ih (receiveReady_open hphase hout)).mpr hlater, rfl⟩

/-- A read of an open session may be cut into smaller ones. -/
theorem receive_pieces (hphase : s.phase = 3) (hwaits : s.Waits lib) {bytes : Bytes}
    {out : List Json} (h : s.receive lib bytes = .ok (out, s')) (chunks : List Bytes)
    (hsizes : ∀ b ∈ chunks, b.length ≤ 8192) (hcut : chunks.flatten = bytes) :
    ∃ outs, history (receive lib) s chunks = .ok (outs, s') ∧ outs.flatten = out := by
  have hready : s.phase ≠ 0 := by omega
  have hwaits' : s.Waits lib.listening := ⟨hwaits.up, hwaits.wait⟩
  have hone : s.receiveReady lib.listening bytes = .ok (out, s') := by
    rw [receiveReady_listening hphase, ← h, receive, if_neg hready]
  have hreads := (receiveReady_reads hone).2
  rw [← hcut] at hreads
  obtain ⟨outs, houts, hflatten⟩ :=
    reads_history lib.cipher.listening_independent hwaits' chunks hsizes hreads
  exact ⟨outs, (history_ready hready).mpr ((history_listening hphase chunks).mp houts), hflatten⟩

/-- What holds of a session between two calls: after the handshake the transport
waits, and before the channel is open no share is outstanding. -/
structure Calm (lib : Foreign κ) (s : Session κ) : Prop where
  fresh : s.phase = 0 → s.noise.framing.incoming = none ∧ s.noise.input = []
  waits : s.phase ≠ 0 → s.Waits lib
  pending : s.phase ≠ 3 → s.pending = []

theorem calm_start (lib : Foreign κ) (state : κ) (first : Bytes) (host : Text) (port : UInt16)
    (user : Text) (rate : UInt32) : (start state first host port user rate).Calm lib :=
  ⟨fun _ => ⟨rfl, rfl⟩, fun hphase => absurd rfl hphase, fun _ => rfl⟩

theorem pending_receive {bytes : Bytes} {out : List Json} (hpending : s.phase ≠ 3 → s.pending = [])
    (h : s.receive lib bytes = .ok (out, s')) : s'.phase ≠ 3 → s'.pending = [] := by
  refine receive_induction (motive := fun _ next => next.phase ≠ 3 → next.pending = []) h ?_ ?_
  · rintro noise written handshake phase (rfl | ⟨hzero, -⟩)
    · exact hpending
    · exact fun _ => hpending (by omega)
  · intro out s₁ m events s₂ hbefore happly hphase
    have hclosed : s₁.phase ≠ 3 := fun hopen => hphase (phase_open hopen happly)
    cases applied_of_ok happly with
    | accepted channel last count sum events batches pending hopen => exact absurd hopen hclosed
    | rejected channel sequence reason events batches pending hopen => exact absurd hopen hclosed
    | _ => exact hbefore hclosed

theorem Waits.receiveReady {bytes : Bytes} {out : List Json} (hwaits : s.Waits lib)
    (h : s.receiveReady lib bytes = .ok (out, s')) : s'.Waits lib :=
  hwaits.reads (receiveReady_reads h).2

theorem Calm.receive {bytes : Bytes} {out : List Json} (hcalm : s.Calm lib)
    (h : s.receive lib bytes = .ok (out, s')) : s'.Calm lib := by
  have hpending := pending_receive hcalm.pending h
  by_cases hphase : s.phase = 0
  · by_cases hshort : (s.handshake ++ bytes).length < 234
    · rw [receive_gathers lib s bytes hphase hshort] at h
      obtain ⟨-, rfl⟩ := Prod.mk.inj (Except.ok.inj h)
      exact ⟨hcalm.fresh, fun hready => absurd hphase hready, hcalm.pending⟩
    · have hlimit : (s.handshake ++ bytes).length ≤ 65536 := by
        by_contra hlong
        rw [Session.receive, if_pos hphase, if_pos (by omega)] at h
        cases h
      rw [receive_greets lib s bytes hphase (by omega) hlimit] at h
      obtain ⟨t, hgreet, hread⟩ := bind_eq_ok.mp h
      obtain ⟨hincoming, hinput⟩ := hcalm.fresh hphase
      obtain ⟨hwaits, hready⟩ := greet_waits hincoming hinput hgreet
      exact ⟨fun hzero => absurd hzero (phase_of_receiveReady hready hread),
        fun _ => hwaits.receiveReady hread, hpending⟩
  · rw [Session.receive, if_neg hphase] at h
    exact ⟨fun hzero => absurd hzero (phase_of_receiveReady hphase h),
      fun _ => (hcalm.waits hphase).receiveReady h, hpending⟩

theorem Calm.submit {j : Job} {nonce : UInt64} {sequence : UInt32} (hcalm : s.Calm lib)
    (h : s.submit lib j nonce sequence = .ok s') : s'.Calm lib := by
  obtain ⟨hguard, -⟩ := submit_ok h
  have hopen : s.phase = 3 := by
    have hvalid := hguard
    simp only [submittable, Bool.and_eq_true] at hvalid
    obtain ⟨stored, -, hopen, -⟩ := valid_iff.mp hvalid.1.1.1
    exact hopen
  rw [Session.submit, if_pos hguard] at h
  obtain ⟨⟨bytes, noise⟩, hencode, h⟩ := bind_eq_ok.mp h
  obtain rfl := pure_eq_ok.mp h
  obtain ⟨-, hup, pieces, state, -, -, rfl⟩ := Noise.encode_ok.mp hencode
  have hwaits := hcalm.waits (by omega)
  have hshort : s.noise.input.length < s.noise.framing.needs := step_wait_iff.mp hwaits.wait
  exact ⟨fun hzero => absurd (hopen.symm.trans hzero) (by decide),
    fun _ => ⟨hwaits.up.withState state, step_wait_iff.mpr hshort⟩,
    fun hclosed => absurd hopen hclosed⟩

end Session

end Supryolo.Sv2
