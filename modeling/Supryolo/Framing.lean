import Supryolo.Noise
import Supryolo.Lib.Chunks
import Supryolo.Lib.Histories

/-!
Encrypted framing, encoder against decoder. What a peer encodes is a sequence of
sealed pieces, one for the header of a frame and one for every chunk of its
payload; the decoder opens them one by one in the same order. So a stream of
frames is decoded to the same frames however the network cuts it.
-/

namespace Supryolo.Sv2

open Incremental Histories Loops Chunks

variable {κ : Type} {c : Cipher κ}

/-- What is relied on of the cipher: `follows me peer` says that the next
decryption of `me` is the counterpart of the next encryption of `peer`. An
encryption adds sixteen bytes, and its counterpart takes them off. -/
structure InOrder (c : Cipher κ) (follows : κ → κ → Prop) : Prop where
  seals : ∀ me peer b, follows me peer → b.length ≤ chunk → ∃ piece peer' me',
    c.transform peer false b = some (piece, peer') ∧ piece.length = b.length + 16 ∧
      c.transform me true piece = some (b, me') ∧ follows me' peer'

/-- Pieces that a peer has sealed one after the other, and that open in the same
order. -/
inductive Sealed (c : Cipher κ) : κ → κ → List Bytes → List Bytes → κ → κ → Prop
  | nil (me peer : κ) : Sealed c me peer [] [] me peer
  | cons {me me' last peer peer' final : κ} {b piece : Bytes} {plain pieces : List Bytes}
      (hseal : c.transform peer false b = some (piece, peer'))
      (hlength : piece.length = b.length + 16)
      (hopen : c.transform me true piece = some (b, me'))
      (later : Sealed c me' peer' plain pieces last final) :
      Sealed c me peer (b :: plain) (piece :: pieces) last final

theorem sealed_exists {follows : κ → κ → Prop} (hc : InOrder c follows) {me peer : κ}
    (hfollows : follows me peer) {plain : List Bytes} (hplain : ∀ b ∈ plain, b.length ≤ chunk) :
    ∃ pieces me' peer', Sealed c me peer plain pieces me' peer' ∧ follows me' peer' := by
  induction plain generalizing me peer with
  | nil => exact ⟨[], me, peer, .nil me peer, hfollows⟩
  | cons b plain ih =>
      obtain ⟨piece, peer₁, me₁, hseal, hlength, hopen, hnext⟩ :=
        hc.seals me peer b hfollows (hplain b List.mem_cons_self)
      obtain ⟨pieces, me', peer', hlater, hlast⟩ :=
        ih hnext fun b hb => hplain b (List.mem_cons_of_mem _ hb)
      exact ⟨piece :: pieces, me', peer', .cons hseal hlength hopen hlater, hlast⟩

/-- The size of the piece the decoder waits for. -/
def pieceSize : Option Frame → Nat → Nat
  | none, _ => 22
  | some _, remaining => min remaining chunk + 16

def Framing.needs (s : Framing κ) : Nat := pieceSize s.incoming s.remaining

/-- What an opened piece means: the frame at hand, how much of it is missing,
and the frame it completes. -/
def absorb : Option Frame → Nat → Bytes → Except String (Option Frame × Nat × Option Frame)
  | none, _, h =>
      let byte (i : Nat) := h.getD i 0
      let remaining := (byte 3).toNat + (byte 4).toNat * 2 ^ 8 + (byte 5).toNat * 2 ^ 16
      let frame : Frame := ⟨(byte 0).toUInt16 ||| (byte 1).toUInt16 <<< 8, byte 2, []⟩
      if remaining > maxPayload then throw "SV2 frame exceeds local size limit"
      else if remaining = 0 then pure (none, 0, some frame)
      else pure (some frame, remaining, none)
  | some frame, remaining, p =>
      let frame := { frame with payload := frame.payload ++ p }
      if remaining - min remaining chunk = 0 then pure (none, 0, some frame)
      else pure (some frame, remaining - min remaining chunk, none)

/-- The decoder waits for a piece, opens it and absorbs it. -/
theorem frameStep_eq (s : Framing κ) (xs : Bytes) :
    frameStep c s xs =
      if xs.length < s.needs then .ok .wait
      else
        match c.transform s.state true (xs.take s.needs) with
        | none => .error "SV2 Noise authentication/encryption failed"
        | some (p, state) => (absorb s.incoming s.remaining p).map fun result =>
            .take ⟨state, result.1, result.2.1⟩ (xs.drop s.needs) result.2.2 := by
  obtain ⟨state, incoming, remaining⟩ := s
  cases incoming with
  | none =>
      change onFront 22 (receiveHeader c state) xs = _
      rw [onFront]
      change (if xs.length < 22 then _ else _) = if xs.length < 22 then _ else _
      split
      · rfl
      · unfold receiveHeader
        change _ = match c.transform state true (xs.take 22) with
          | none => _
          | some (p, state) => _
        cases c.transform state true (xs.take 22) with
        | none => rfl
        | some result =>
            obtain ⟨p, next⟩ := result
            dsimp only [absorb]
            split
            · rfl
            · split <;> rfl
  | some frame =>
      change onFront (min remaining chunk + 16) (receivePayload c state frame remaining _) xs = _
      rw [onFront]
      change (if xs.length < min remaining chunk + 16 then _ else _) =
        if xs.length < min remaining chunk + 16 then _ else _
      split
      · rfl
      · unfold receivePayload
        change _ = match c.transform state true (xs.take (min remaining chunk + 16)) with
          | none => _
          | some (p, state) => _
        cases c.transform state true (xs.take (min remaining chunk + 16)) with
        | none => rfl
        | some result =>
            obtain ⟨p, next⟩ := result
            dsimp only [absorb]
            split <;> rfl

theorem step_wait_iff {s : Framing κ} {xs : Bytes} :
    (frameDecoder c).step s xs = .ok .wait ↔ xs.length < s.needs := by
  change frameStep c s xs = _ ↔ _
  rw [frameStep_eq]
  split
  · rename_i hshort
    simp [hshort]
  · rename_i hlong
    simp only [hlong, iff_false]
    intro h
    split at h
    · cases h
    · rename_i p state _
      cases habsorb : absorb s.incoming s.remaining p with
      | error e => rw [habsorb] at h; cases h
      | ok result => rw [habsorb] at h; cases h

theorem step_take_iff {s s' : Framing κ} {xs left : Bytes} {o : Option Frame} :
    (frameDecoder c).step s xs = .ok (.take s' left o) ↔
      s.needs ≤ xs.length ∧ left = xs.drop s.needs ∧ ∃ p,
        c.transform s.state true (xs.take s.needs) = some (p, s'.state) ∧
        absorb s.incoming s.remaining p = .ok (s'.incoming, s'.remaining, o) := by
  change frameStep c s xs = _ ↔ _
  rw [frameStep_eq]
  constructor
  · intro h
    split at h
    · cases h
    · rename_i hlong
      split at h
      · cases h
      · rename_i p state htransform
        cases habsorb : absorb s.incoming s.remaining p with
        | error e => rw [habsorb] at h; cases h
        | ok result =>
            rw [habsorb] at h
            cases h
            exact ⟨Nat.le_of_not_lt hlong, rfl, p, htransform, habsorb⟩
  · rintro ⟨hle, rfl, p, htransform, habsorb⟩
    rw [if_neg (Nat.not_lt.mpr hle), htransform]
    dsimp only
    rw [habsorb]
    rfl

/-- The first piece of a frame: its extension, type and size. -/
def headerBytes (f : Frame) : Bytes :=
  [f.extension.toUInt8, (f.extension >>> 8).toUInt8, f.type, f.payload.length.toUInt8,
    (f.payload.length / 2 ^ 8).toUInt8, (f.payload.length / 2 ^ 16).toUInt8]

def framePieces (f : Frame) : List Bytes := headerBytes f :: f.payload.toChunks chunk

private theorem extension_bytes (e : UInt16) :
    e.toUInt8.toUInt16 ||| (e >>> 8).toUInt8.toUInt16 <<< 8 = e := by
  have hlt := e.toNat_lt
  have hlow : e.toUInt8.toUInt16.toNat = e.toNat % 2 ^ 8 := by simp
  have hhigh : ((e >>> 8).toUInt8.toUInt16 <<< 8).toNat = (e.toNat / 2 ^ 8) <<< 8 := by
    simp only [UInt16.toNat_shiftLeft, UInt8.toNat_toUInt16, UInt16.toNat_toUInt8,
      UInt16.toNat_shiftRight, Nat.shiftLeft_eq, Nat.shiftRight_eq_div_pow]
    simp
    omega
  apply UInt16.toNat_inj.mp
  rw [UInt16.toNat_or, hlow, hhigh, Nat.or_comm,
    ← Nat.shiftLeft_add_eq_or_of_lt (Nat.mod_lt _ (by decide)), Nat.shiftLeft_eq]
  omega

private theorem size_bytes {n : Nat} (h : n ≤ maxPayload) :
    n.toUInt8.toNat + (n / 2 ^ 8).toUInt8.toNat * 2 ^ 8 + (n / 2 ^ 16).toUInt8.toNat * 2 ^ 16 =
      n := by
  have hmax : maxPayload = 2 ^ 20 := rfl
  have hbyte (m : Nat) : m.toUInt8.toNat = m % 256 := by simp
  rw [hbyte, hbyte, hbyte]
  omega

theorem absorb_header {f : Frame} (h : f.payload.length ≤ maxPayload) (remaining : Nat) :
    absorb none remaining (headerBytes f) =
      if f.payload.length = 0 then .ok (none, 0, some { f with payload := [] })
      else .ok (some { f with payload := [] }, f.payload.length, none) := by
  have hsize := size_bytes h
  have hextension := extension_bytes f.extension
  simp only [absorb, headerBytes, List.getD_cons_zero, List.getD_cons_succ]
  rw [hsize, hextension, if_neg (Nat.not_lt.mpr h)]
  rfl

theorem run_idle (me : κ) : (frameDecoder c).run ⟨me, none, 0⟩ [] = .ok ([], ⟨me, none, 0⟩, []) :=
  Decoder.run_wait (step_wait_iff.mpr (by simp [Framing.needs, pieceSize]))

/-- The pieces of a payload complete the frame they belong to. -/
theorem run_payload {me me' peer peer' : κ} {payload : Bytes} {pieces : List Bytes} {f : Frame}
    (hpayload : payload ≠ []) (hsealed : Sealed c me peer (payload.toChunks chunk) pieces me' peer') :
    (frameDecoder c).run ⟨me, some f, payload.length⟩ pieces.flatten =
      .ok ([{ f with payload := f.payload ++ payload }], ⟨me', none, 0⟩, []) := by
  induction hlength : payload.length using Nat.strong_induction_on
    generalizing me peer payload pieces f with
  | _ n ih =>
      subst hlength
      have hchunk : 0 < chunk := by decide
      rw [toChunks_eq hchunk hpayload] at hsealed
      cases hsealed with
      | @cons _ me₁ _ _ peer₁ _ _ piece _ pieces hseal hsize hopen later =>
          have hneeds : (⟨me, some f, payload.length⟩ : Framing κ).needs = piece.length := by
            rw [hsize, List.length_take, Nat.min_comm]
            rfl
          rw [List.flatten_cons]
          by_cases hlast : payload.length ≤ chunk
          · -- The last piece: nothing is sealed behind it.
            rw [List.drop_eq_nil_of_le hlast, toChunks_nil] at later
            cases later
            rw [List.take_of_length_le hlast] at hopen
            have hstep : (frameDecoder c).step ⟨me, some f, payload.length⟩ (piece ++ [].flatten) =
                .ok (.take ⟨me', none, 0⟩ [] (some { f with payload := f.payload ++ payload })) := by
              refine step_take_iff.mpr ⟨?_, ?_, payload, ?_, ?_⟩
              · rw [hneeds, List.length_append]
                omega
              · rw [hneeds, List.drop_left]
                rfl
              · rw [hneeds, List.take_left]
                exact hopen
              · simp only [absorb]
                rw [if_pos (by omega)]
                rfl
            rw [Decoder.run_take hstep, run_idle]
            rfl
          · have hstep : (frameDecoder c).step ⟨me, some f, payload.length⟩
                (piece ++ pieces.flatten) =
                .ok (.take ⟨me₁, some { f with payload := f.payload ++ payload.take chunk },
                  (payload.drop chunk).length⟩ pieces.flatten none) := by
              refine step_take_iff.mpr ⟨?_, ?_, payload.take chunk, ?_, ?_⟩
              · rw [hneeds, List.length_append]
                omega
              · rw [hneeds, List.drop_left]
              · rw [hneeds, List.take_left]
                exact hopen
              · have hrest : payload.length - min payload.length chunk =
                    (payload.drop chunk).length := by
                  rw [List.length_drop]
                  omega
                simp only [absorb, hrest]
                rw [if_neg (by rw [List.length_drop]; omega)]
                rfl
            have hnext : payload.drop chunk ≠ [] := by
              rw [Ne, List.drop_eq_nil_iff]
              exact hlast
            rw [Decoder.run_take hstep, ih _ (by rw [List.length_drop]; omega) hnext later rfl]
            simp [Except.map, List.append_assoc]

theorem run_frame {me me' peer peer' : κ} {f : Frame} {pieces : List Bytes}
    (hsize : f.payload.length ≤ maxPayload)
    (hsealed : Sealed c me peer (framePieces f) pieces me' peer') :
    (frameDecoder c).run ⟨me, none, 0⟩ pieces.flatten = .ok ([f], ⟨me', none, 0⟩, []) := by
  cases hsealed with
  | @cons _ me₁ _ _ peer₁ _ _ piece _ pieces hseal hlength hopen later =>
      have hpiece : piece.length = 22 := hlength
      rw [List.flatten_cons]
      by_cases hempty : f.payload = []
      · rw [hempty, toChunks_nil] at later
        cases later
        have hf : f = { f with payload := [] } := by rw [← hempty]
        have hstep : (frameDecoder c).step ⟨me, none, 0⟩ (piece ++ [].flatten) =
            .ok (.take ⟨me', none, 0⟩ [] (some f)) := by
          refine step_take_iff.mpr ⟨?_, ?_, headerBytes f, ?_, ?_⟩
          · exact le_of_eq (by simp [hpiece]; rfl)
          · exact (List.drop_left' hpiece).symm
          · rw [show (⟨me, none, 0⟩ : Framing κ).needs = 22 from rfl, List.take_left' hpiece]
            exact hopen
          · rw [absorb_header hsize, if_pos (by rw [hempty]; rfl), ← hf]
        rw [Decoder.run_take hstep, run_idle]
        rfl
      · have hpositive := List.length_pos_iff.mpr hempty
        have hstep : (frameDecoder c).step ⟨me, none, 0⟩ (piece ++ pieces.flatten) =
            .ok (.take ⟨me₁, some { f with payload := [] }, f.payload.length⟩ pieces.flatten
              none) := by
          refine step_take_iff.mpr ⟨?_, ?_, headerBytes f, ?_, ?_⟩
          · exact (by simp [hpiece] : 22 ≤ (piece ++ pieces.flatten).length)
          · exact (List.drop_left' hpiece).symm
          · rw [show (⟨me, none, 0⟩ : Framing κ).needs = 22 from rfl, List.take_left' hpiece]
            exact hopen
          · rw [absorb_header hsize, if_neg (by omega)]
        rw [Decoder.run_take hstep, run_payload hempty later]
        rfl

namespace Noise

/-- The connection is up and nothing has gone wrong. -/
structure Up (n : Noise κ) : Prop where
  ready : n.ready = true
  failed : n.failed = false

def withState (n : Noise κ) (state : κ) : Noise κ :=
  { n with framing := { n.framing with state := state } }

theorem Up.withState {n : Noise κ} (hup : n.Up) (state : κ) : (n.withState state).Up :=
  ⟨hup.ready, hup.failed⟩

theorem down_iff {n : Noise κ} : (!n.ready || n.failed) = true ↔ ¬ n.Up := by
  constructor
  · intro hguard hup
    rw [hup.ready, hup.failed] at hguard
    cases hguard
  · intro hdown
    by_contra hguard
    rw [Bool.or_eq_true, not_or, Bool.not_eq_true', Bool.not_eq_false, Bool.not_eq_true] at hguard
    exact hdown ⟨hguard.1, hguard.2⟩

theorem encrypt_ok {n n' : Noise κ} {out out' b : Bytes} :
    encrypt c (out, n) b = .ok (out', n') ↔
      n.Up ∧ ∃ x state, c.transform n.framing.state false b = some (x, state) ∧ out' = out ++ x ∧
        n' = n.withState state := by
  unfold encrypt
  rw [guard_eq_ok]
  rw [down_iff, not_not]
  refine and_congr_right fun _ => ?_
  cases c.transform n.framing.state false b with
  | none =>
      constructor
      · intro h
        cases h
      · rintro ⟨x, state, h, -⟩
        cases h
  | some result =>
      obtain ⟨x, state⟩ := result
      constructor
      · intro h
        obtain ⟨rfl, rfl⟩ := Prod.mk.inj (pure_eq_ok.mp h)
        exact ⟨x, state, rfl, rfl, rfl⟩
      · rintro ⟨x', state', h, rfl, rfl⟩
        cases h
        rfl

/-- Nothing is buffered and no frame is under way. -/
structure Idle (n : Noise κ) : Prop extends Up n where
  input : n.input = []
  incoming : n.framing.incoming = none
  remaining : n.framing.remaining = 0

theorem encrypt_sealed {n : Noise κ} {me me' peer' : κ} {plain pieces : List Bytes} (hup : n.Up)
    (hsealed : Sealed c me n.framing.state plain pieces me' peer') (out : Bytes) :
    plain.foldlM (encrypt c) (out, n) =
      .ok (out ++ pieces.flatten, n.withState peer') := by
  generalize hpeer : n.framing.state = peer at hsealed
  induction hsealed generalizing n out with
  | nil me peer =>
      subst hpeer
      simp only [List.foldlM_nil, List.flatten_nil, List.append_nil]
      rfl
  | @cons me me₁ last peer peer₁ final b piece plain pieces hseal hlength hopen later ih =>
      subst hpeer
      have hstep : encrypt c (out, n) b = .ok (out ++ piece, n.withState peer₁) :=
        encrypt_ok.mpr ⟨hup, piece, peer₁, hseal, rfl, rfl⟩
      have hrest := ih (hup.withState peer₁) (out ++ piece) rfl
      rw [List.foldlM_cons, hstep, ok_bind, hrest, List.flatten_cons, List.append_assoc]
      rfl

/-- The frames a peer encodes are decoded to themselves, as many as have come. -/
theorem encode_frames {follows : κ → κ → Prop} (hc : InOrder c follows) (peer : Noise κ) {me : κ}
    (hup : peer.Up) (hfollows : follows me peer.framing.state) {frames : List Frame}
    (hsizes : ∀ f ∈ frames, f.payload.length ≤ maxPayload) :
    ∃ encodings peer', history (encode c) peer frames = .ok (encodings, peer') ∧
      ∀ k, ∃ me', (frameDecoder c).run ⟨me, none, 0⟩ (encodings.take k).flatten =
        .ok (frames.take k, ⟨me', none, 0⟩, []) := by
  induction frames generalizing peer me with
  | nil =>
      refine ⟨[], peer, rfl, ?_⟩
      intro k
      rw [List.take_nil, List.take_nil]
      exact ⟨me, run_idle me⟩
  | cons f frames ih =>
      have hsize := hsizes f List.mem_cons_self
      have hpieces : ∀ b ∈ framePieces f, b.length ≤ chunk := by
        intro b hb
        rcases List.mem_cons.mp hb with rfl | hb
        · exact (by decide : 6 ≤ chunk)
        · exact length_le_of_mem_toChunks (by decide) hb
      obtain ⟨pieces, me₁, peer₁, hsealed, hnext⟩ := sealed_exists hc hfollows hpieces
      have hencode : peer.encode c f = .ok (pieces.flatten, peer.withState peer₁) := by
        rw [encode, if_neg (Nat.not_lt.mpr hsize)]
        exact encrypt_sealed hup hsealed []
      have hrun := run_frame hsize hsealed
      obtain ⟨encodings, peer', hrest, hruns⟩ :=
        ih (peer.withState peer₁) (hup.withState peer₁) hnext fun f hf => hsizes f (List.mem_cons_of_mem _ hf)
      refine ⟨pieces.flatten :: encodings, peer', history_cons.mpr ⟨_, _, _, hencode, hrest, rfl⟩, ?_⟩
      intro k
      cases k with
      | zero => exact ⟨me, run_idle me⟩
      | succ k =>
          obtain ⟨me', hruns⟩ := hruns k
          refine ⟨me', ?_⟩
          rw [List.take_succ_cons, List.take_succ_cons, List.flatten_cons, Decoder.run_append hrun,
            List.nil_append, hruns]
          rfl

/-- A frame takes at least one more piece. -/
theorem taken_of_step {s s' : Framing κ} {xs left : Bytes} {o : Option Frame}
    (h : (frameDecoder c).step s xs = .ok (.take s' left o)) :
    left.length + s.needs = xs.length ∧ 16 ≤ s.needs := by
  obtain ⟨hle, rfl, -⟩ := step_take_iff.mp h
  refine ⟨?_, ?_⟩
  · rw [List.length_drop]
    omega
  · unfold Framing.needs pieceSize
    split <;> omega

theorem needs_le (s : Framing κ) : s.needs ≤ 65535 := by
  have hchunk : chunk = 65519 := rfl
  unfold Framing.needs pieceSize
  split <;> omega

/-- A read of 8192 bytes completes far fewer frames than the flood limit. -/
theorem frames_le {s s' : Framing κ} {input b rest : Bytes} {items : List Frame}
    (hwait : (frameDecoder c).step s input = .ok .wait) (hb : b.length ≤ 8192)
    (hrun : (frameDecoder c).run s (input ++ b) = .ok (items, s', rest)) : items.length ≤ 1024 := by
  rw [step_wait_iff] at hwait
  cases Decoder.run_iff.mp hrun with
  | wait hstep => simp
  | @take _ mid _ _ left _ o items hstep later =>
      obtain ⟨htaken, -⟩ := taken_of_step hstep
      have hmoves : items.length * 16 + rest.length ≤ left.length := later.items_le (by
        intro s xs s' left o hstep
        obtain ⟨htaken, hneeds⟩ := taken_of_step hstep
        omega)
      have hone : o.toList.length ≤ 1 := by cases o <;> simp
      rw [List.length_append] at htaken ⊢
      omega

/-- A read of at most 8192 bytes is within the limits. -/
theorem receive_of_run {n : Noise κ} (hup : n.Up)
    (hwait : (frameDecoder c).step n.framing n.input = .ok .wait) {b : Bytes} (hb : b.length ≤ 8192)
    {items : List Frame} {framing : Framing κ} {rest : Bytes}
    (hrun : (frameDecoder c).run n.framing (n.input ++ b) = .ok (items, framing, rest)) :
    n.receive c b = .ok (items, { n with framing := framing, input := rest }) := by
  have hbuffer : n.input.length < 65535 := (step_wait_iff.mp hwait).trans_le (needs_le _)
  have hlimit : maxPayload = 1048576 := rfl
  have hflood : ¬ items.length > 1024 := Nat.not_lt.mpr (frames_le hwait hb hrun)
  rw [receive, if_neg (down_iff.not.mpr (not_not.mpr hup)), if_neg (by omega), hrun, ok_bind]
  dsimp only
  rw [if_neg hflood]
  rfl

/-- Reads of at most 8192 bytes decode a stream as one read of all of it would. -/
theorem receive_fragments {n : Noise κ} (hup : n.Up)
    (hwait : (frameDecoder c).step n.framing n.input = .ok .wait) {fragments : List Bytes}
    (hsizes : ∀ b ∈ fragments, b.length ≤ 8192) {items : List Frame} {framing : Framing κ}
    {rest : Bytes}
    (hrun : (frameDecoder c).run n.framing (n.input ++ fragments.flatten) = .ok (items, framing, rest)) :
    ∃ outs, history (receive c) n fragments =
        .ok (outs, { n with framing := framing, input := rest }) ∧ outs.flatten = items := by
  induction fragments generalizing n items with
  | nil =>
      rw [List.flatten_nil, List.append_nil, Decoder.run_wait hwait] at hrun
      cases hrun
      exact ⟨[], rfl, rfl⟩
  | cons b fragments ih =>
      rw [List.flatten_cons, ← List.append_assoc] at hrun
      obtain ⟨first, mid, left, later, hfirst, hlater, rfl⟩ := Decoder.run_split hrun
      have hreceive := receive_of_run hup hwait (hsizes b List.mem_cons_self) hfirst
      obtain ⟨outs, houts, hflatten⟩ := ih (n := { n with framing := mid, input := left })
        ⟨hup.ready, hup.failed⟩ (Decoder.run_iff.mp hfirst).stops
        (fun b hb => hsizes b (List.mem_cons_of_mem _ hb)) hlater
      exact ⟨first :: outs, history_cons.mpr ⟨_, _, _, hreceive, houts, rfl⟩, by
        rw [List.flatten_cons, hflatten]⟩

/-- A piece that emits nothing leaves a frame under way. -/
theorem absorb_none {incoming incoming' : Option Frame} {remaining remaining' : Nat} {p : Bytes}
    (h : absorb incoming remaining p = .ok (incoming', remaining', none)) : incoming' ≠ none := by
  cases incoming with
  | none =>
      simp only [absorb] at h
      split at h
      · cases h
      · split at h <;> cases h
        simp
  | some frame =>
      simp only [absorb] at h
      split at h <;> cases h
      simp

/-- A run that emits nothing and ends between two frames has not moved. -/
theorem still_of_silent {s s' : Framing κ} {xs rest : Bytes} {items : List Frame}
    (h : Decoder.Runs (frameDecoder c) s xs items s' rest) (hitems : items = [])
    (hidle : s'.incoming = none) : s = s' ∧ xs = rest := by
  induction h with
  | wait hstep => exact ⟨rfl, rfl⟩
  | @take s mid s' xs left rest o items hstep later ih =>
      obtain ⟨ho, rfl⟩ := List.append_eq_nil_iff.mp hitems
      obtain ⟨rfl, -⟩ := ih rfl hidle
      cases o with
      | some frame => cases ho
      | none =>
          obtain ⟨-, -, p, -, habsorb⟩ := step_take_iff.mp hstep
          exact absurd hidle (absorb_none habsorb)

/-- Each frame is delivered by the call that gets its last byte: it is among the
results of the first `i` calls exactly when its encoding is among their bytes. -/
def Prompt (encodings fragments : List Bytes) (outs : List (List Frame)) : Prop :=
  ∀ i n, n < encodings.length →
    (n < (outs.take i).flatten.length ↔
      (encodings.take (n + 1)).flatten.length ≤ (fragments.take i).flatten.length)

/-- A beginning of the stream completes the frames it holds entirely. -/
theorem completed_iff {me : κ} {encodings : List Bytes} {frames : List Frame}
    (hlength : encodings.length = frames.length)
    (hruns : ∀ k, ∃ me', (frameDecoder c).run ⟨me, none, 0⟩ (encodings.take k).flatten =
      .ok (frames.take k, ⟨me', none, 0⟩, []))
    {first more : Bytes} (hcut : first ++ more = encodings.flatten) {items : List Frame}
    {framing : Framing κ} {rest : Bytes}
    (hrun : (frameDecoder c).run ⟨me, none, 0⟩ first = .ok (items, framing, rest)) {n : Nat}
    (hn : n < encodings.length) :
    n < items.length ↔ (encodings.take (n + 1)).flatten.length ≤ first.length := by
  obtain ⟨me', htake⟩ := hruns (n + 1)
  have hprefix : (encodings.take (n + 1)).flatten <+: encodings.flatten := by
    refine ⟨(encodings.drop (n + 1)).flatten, ?_⟩
    rw [← List.flatten_append, List.take_append_drop]
  have hfirst : first <+: encodings.flatten := ⟨more, hcut⟩
  have hcount : (frames.take (n + 1)).length = n + 1 := by
    rw [List.length_take]
    omega
  constructor
  · intro hitems
    by_contra hshort
    -- The frame is still under way: what completes it is delivered later.
    obtain ⟨missing, hmissing⟩ := List.prefix_of_prefix_length_le hfirst hprefix (by omega)
    rw [← hmissing] at htake
    obtain ⟨items', mid, left, later, hrun', hlater, hframes⟩ := Decoder.run_split htake
    obtain ⟨rfl, rfl, rfl⟩ : items = items' ∧ framing = mid ∧ rest = left := by
      rw [hrun] at hrun'
      cases hrun'
      exact ⟨rfl, rfl, rfl⟩
    have hsilent : later = [] := by
      have hsum := congrArg List.length hframes
      rw [hcount, List.length_append] at hsum
      exact List.length_eq_zero_iff.mp (by omega)
    obtain ⟨-, hempty⟩ := still_of_silent (Decoder.run_iff.mp hlater) hsilent rfl
    have hmissing_length := congrArg List.length hmissing
    rw [(List.append_eq_nil_iff.mp hempty).2, List.length_append, List.length_nil] at hmissing_length
    omega
  · intro hlong
    obtain ⟨extra, rfl⟩ := List.prefix_of_prefix_length_le hprefix hfirst hlong
    rw [Decoder.run_append htake] at hrun
    cases hlater : (frameDecoder c).run ⟨me', none, 0⟩ ([] ++ extra) with
    | error e => rw [hlater] at hrun; cases hrun
    | ok result =>
        obtain ⟨later, last, remaining⟩ := result
        rw [hlater] at hrun
        cases hrun
        rw [List.length_append, hcount]
        omega

/-- Frames survive encryption, any fragmentation and decryption. Each is delivered
by the call that gets its last byte, and between calls less than one encrypted
chunk is buffered. -/
theorem frames_round_trip {follows : κ → κ → Prop} (hc : InOrder c follows) {me peer : Noise κ}
    (hme : me.Idle) (hpeer : peer.Up) (hfollows : follows me.framing.state peer.framing.state)
    (frames : List Frame) (hsizes : ∀ f ∈ frames, f.payload.length ≤ maxPayload) :
    ∃ encodings peer', history (encode c) peer frames = .ok (encodings, peer') ∧
      ∀ fragments : List Bytes, (∀ b ∈ fragments, b.length ≤ 8192) →
        fragments.flatten = encodings.flatten →
        ∃ outs me', history (receive c) me fragments = .ok (outs, me') ∧ outs.flatten = frames ∧
          Prompt encodings fragments outs ∧
          ∀ i, ∃ between, history (receive c) me (fragments.take i) = .ok (outs.take i, between) ∧
            between.input.length < 65535 := by
  obtain ⟨encodings, peer', hencode, hruns⟩ := encode_frames hc peer hpeer hfollows hsizes
  refine ⟨encodings, peer', hencode, ?_⟩
  intro fragments hfragments hcut
  have hlength := history_length hencode
  have hframing : me.framing = ⟨me.framing.state, none, 0⟩ := by
    rw [← hme.incoming, ← hme.remaining]
  have hwait : (frameDecoder c).step me.framing me.input = .ok .wait := by
    rw [step_wait_iff, hme.input, hframing]
    exact (by decide : 0 < 22)
  obtain ⟨state, hwhole⟩ := hruns frames.length
  rw [List.take_of_length_le hlength.le, List.take_length, ← hframing] at hwhole
  have hstream (more : Bytes) : me.input ++ more = more := by rw [hme.input, List.nil_append]
  obtain ⟨outs, houts, hflatten⟩ := receive_fragments hme.toUp hwait hfragments
    (by rw [hstream, hcut]; exact hwhole)
  -- What has happened after the first calls is a history of its own.
  have hbefore : ∀ i, ∃ between, history (receive c) me (fragments.take i) =
      .ok (outs.take i, between) ∧ (frameDecoder c).run me.framing (fragments.take i).flatten =
        .ok ((outs.take i).flatten, between.framing, between.input) := by
    intro i
    have hsplit : (fragments.take i).flatten ++ (fragments.drop i).flatten = encodings.flatten := by
      rw [← List.flatten_append, List.take_append_drop, hcut]
    rw [← hsplit] at hwhole
    obtain ⟨first, mid, left, later, hfirst, -, -⟩ := Decoder.run_split hwhole
    obtain ⟨earlier, hearlier, rfl⟩ := receive_fragments hme.toUp hwait
      (fun b hb => hfragments b (List.mem_of_mem_take hb)) (by rw [hstream]; exact hfirst)
    obtain ⟨middle, htake, -⟩ := history_take houts i
    rw [hearlier] at htake
    obtain ⟨rfl, rfl⟩ := Prod.mk.inj (Except.ok.inj htake)
    exact ⟨_, hearlier, hfirst⟩
  refine ⟨outs, _, houts, hflatten, ?_, ?_⟩
  · intro i n hn
    obtain ⟨between, -, hrun⟩ := hbefore i
    rw [hframing] at hrun
    exact completed_iff hlength hruns (by rw [← List.flatten_append, List.take_append_drop, hcut])
      hrun hn
  · intro i
    obtain ⟨between, hhistory, hrun⟩ := hbefore i
    have hshort := step_wait_iff.mp (Decoder.run_iff.mp hrun).stops
    exact ⟨between, hhistory, hshort.trans_le (needs_le _)⟩

theorem paddingCipher_inOrder : InOrder paddingCipher fun _ _ => True where
  seals me peer b _ _ := by
    refine ⟨b ++ List.replicate 16 0, (), (), rfl, by simp, ?_, trivial⟩
    simp [paddingCipher]

def sampleConnection : Noise Unit := { ready := true, framing := ⟨(), none, 0⟩ }

def sampleFrames : List Frame := [⟨0, 1, [7, 9]⟩, ⟨0x8000, 2, []⟩]

def sampleEncodings : List Bytes :=
  [[0, 0, 1, 2, 0, 0] ++ List.replicate 16 0 ++ [7, 9] ++ List.replicate 16 0,
    [0, 128, 2, 0, 0, 0] ++ List.replicate 16 0]

theorem frames_round_trip_sample :
    history (encode paddingCipher) sampleConnection sampleFrames =
        .ok (sampleEncodings, sampleConnection) ∧
      ∃ outs me', history (receive paddingCipher) sampleConnection
        (sampleEncodings.flatten.map fun b => [b]) = .ok (outs, me') ∧
        outs.flatten = sampleFrames := by
  have hencode : history (encode paddingCipher) sampleConnection sampleFrames =
      .ok (sampleEncodings, sampleConnection) := rfl
  refine ⟨hencode, ?_⟩
  obtain ⟨encodings, peer', hencodings, hfragments⟩ := @frames_round_trip Unit paddingCipher _
    paddingCipher_inOrder sampleConnection sampleConnection ⟨⟨rfl, rfl⟩, rfl, rfl, rfl⟩ ⟨rfl, rfl⟩
    trivial sampleFrames (by decide)
  rw [hencode] at hencodings
  obtain ⟨rfl, -⟩ := Prod.mk.inj (Except.ok.inj hencodings)
  obtain ⟨outs, me', hreceive, hflatten, -⟩ := hfragments
    (sampleEncodings.flatten.map fun b => [b]) (by decide) (by decide)
  exact ⟨outs, me', hreceive, hflatten⟩

end Noise

end Supryolo.Sv2
