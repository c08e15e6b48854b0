import Supryolo.Framing
import Supryolo.Lib.Effects

/-!
`sv2_noise.cpp` and the C interface of `lib.rs` once more, as programs that keep
what they have changed when they throw. Both sides have a flag for failure of
their own. What matters is the flag of the connection: every call looks at it
first, and whatever fails because of the peer or of the cipher sets it.
-/

namespace Supryolo.Sv2

open Chunks Effects Incremental Loops

/-- The Noise library: the initiator of a handshake, and the engine it turns
into. An engine may have moved also where it fails. -/
structure Library (ι η : Type) where
  step2 : ι → Bytes → Option η
  encrypt : η → Bytes → Option Bytes × η
  decrypt : η → Bytes → Option Bytes × η

namespace Abi

structure State (ι η : Type) where
  initiator : Option ι
  engine : Option η
  failed : Bool

variable {ι η : Type}

/-- `true` is the return value zero. Finishing uses the initiator up. -/
def yoloNoiseFinish (lib : Library ι η) (s : State ι η) (message : Bytes) : Bool × State ι η :=
  if message.length ≠ 234 then (false, s)
  else if s.failed then (false, s)
  else
    match s.initiator with
    | none => (false, { s with failed := true })
    | some initiator =>
        match lib.step2 initiator message with
        | none => (false, { s with initiator := none, failed := true })
        | some engine => (true, { s with initiator := none, engine := some engine })

/-- The bytes written to the output; `none` is a negative return value. -/
def yoloNoiseTransform (lib : Library ι η) (s : State ι η) (decrypt : Bool) (input : Bytes)
    (capacity : Nat) : Option Bytes × State ι η :=
  if input.length > 65535 ∨ (decrypt = false ∧ input.length > 65519) ∨
      capacity < input.length + 16 then (none, s)
  else if s.failed then (none, s)
  else
    match s.engine with
    | none => (none, { s with failed := true })
    | some engine =>
        match if decrypt then lib.decrypt engine input else lib.encrypt engine input with
        | (none, engine) => (none, { s with engine := some engine, failed := true })
        | (some bytes, engine) => (some bytes, { s with engine := some engine })

/-- How many encryptions an engine has made, as `count` reads it. -/
def State.counter (count : η → Nat) (s : State ι η) : Nat := s.engine.elim 0 count

end Abi

/-- What the connection calls, with the state that is left also where it fails. -/
structure Port (κ : Type) where
  finish : κ → Bytes → Bool × κ
  transform : κ → Bool → Bytes → Option Bytes × κ

def abi {ι η : Type} (lib : Library ι η) : Port (Abi.State ι η) where
  finish := Abi.yoloNoiseFinish lib
  transform state decrypt b := Abi.yoloNoiseTransform lib state decrypt b (b.length + 16)

/-- The cipher a port is, as long as nothing fails. -/
def Port.cipher {κ : Type} (p : Port κ) : Cipher κ where
  finish state b :=
    match p.finish state b with
    | (true, state) => some state
    | (false, _) => none
  transform state decrypt b :=
    match p.transform state decrypt b with
    | (some out, state) => some (out, state)
    | (none, _) => none

variable {κ : Type}

namespace Noise

def finishM (p : Port κ) (b : Bytes) : EStateM String (Noise κ) Unit := do
  let n ← get
  if n.ready || n.failed then
    set { n with failed := true }
    throw "SV2 Noise certificate authentication failed"
  else
    match p.finish n.framing.state b with
    | (true, state) => set { n.withState state with ready := true }
    | (false, state) =>
        set { n.withState state with failed := true }
        throw "SV2 Noise certificate authentication failed"

def transformM (p : Port κ) (decrypt : Bool) (b : Bytes) : EStateM String (Noise κ) Bytes := do
  let n ← get
  if !n.ready || n.failed then throw "SV2 Noise session unavailable"
  else
    match p.transform n.framing.state decrypt b with
    | (none, state) =>
        set { n.withState state with failed := true }
        throw "SV2 Noise authentication/encryption failed"
    | (some out, state) =>
        set (n.withState state)
        pure out

/-- One more piece of an encoding. -/
def encryptM (p : Port κ) (out b : Bytes) : EStateM String (Noise κ) Bytes := do
  pure (out ++ (← transformM p false b))

def encodeM (p : Port κ) (f : Frame) : EStateM String (Noise κ) Bytes :=
  if f.payload.length > maxPayload then throw "SV2 frame exceeds local size limit"
  else (framePieces f).foldlM (encryptM p) []

/-- One pass of the receive loop, split where it may have to wait for input:
`none` where it leaves the loop, else how much is consumed and the frame that is
complete. -/
def receivePass (p : Port κ) (consumed : Nat) :
    EStateM String (Noise κ) (Option (Nat × Option Frame)) := do
  let n ← get
  match n.framing.incoming with
  | none =>
      if n.input.length - consumed < 22 then pure none
      else
        let h ← transformM p true ((n.input.drop consumed).take 22)
        let byte (i : Nat) := h.getD i 0
        let remaining := (byte 3).toNat + (byte 4).toNat * 2 ^ 8 + (byte 5).toNat * 2 ^ 16
        let frame : Frame := ⟨(byte 0).toUInt16 ||| (byte 1).toUInt16 <<< 8, byte 2, []⟩
        modify fun n => { n with framing := { n.framing with remaining := remaining } }
        if remaining > maxPayload then throw "SV2 frame exceeds local size limit"
        else if remaining = 0 then pure (some (consumed + 22, some frame))
        else
          modify fun n => { n with framing := { n.framing with incoming := some frame } }
          pure (some (consumed + 22, none))
  | some frame =>
      let size := min n.framing.remaining chunk
      if n.input.length - consumed < size + 16 then pure none
      else
        let b ← transformM p true ((n.input.drop consumed).take (size + 16))
        let frame := { frame with payload := frame.payload ++ b }
        let remaining := n.framing.remaining - size
        if remaining = 0 then
          modify fun n => { n with framing := { n.framing with incoming := none, remaining := 0 } }
          pure (some (consumed + (size + 16), some frame))
        else
          modify fun n =>
            { n with framing := { n.framing with incoming := some frame, remaining := remaining } }
          pure (some (consumed + (size + 16), none))

/-- The receive loop. Every pass that does not leave it consumes input, so that
fuel beyond the length of the input is not used. -/
def receiveLoop (p : Port κ) : Nat → Nat → List Frame → EStateM String (Noise κ) (Nat × List Frame)
  | 0, consumed, out => pure (consumed, out)
  | fuel + 1, consumed, out => do
      match ← receivePass p consumed with
      | none => pure (consumed, out)
      | some (consumed, emitted) =>
          if (out ++ emitted.toList).length > 1024 then throw "SV2 message flood"
          else receiveLoop p fuel consumed (out ++ emitted.toList)

def receiveM (p : Port κ) (b : Bytes) : EStateM String (Noise κ) (List Frame) :=
  tryCatch
    (do
      let n ← get
      if !n.ready || n.failed then throw "SV2 Noise session unavailable"
      else if n.input.length + b.length > maxPayload + 4096 then throw "SV2 receive buffer limit"
      else
        set { n with input := n.input ++ b }
        let (consumed, out) ← receiveLoop p (n.input.length + b.length + 1) 0 []
        modify fun n => { n with input := n.input.drop consumed }
        pure out)
    fun e => do
      modify fun n => { n with failed := true }
      throw e

variable {p : Port κ} {n n' : Noise κ}

theorem transformM_eq (p : Port κ) (decrypt : Bool) (b : Bytes) (n : Noise κ) :
    transformM p decrypt b n =
      if !n.ready || n.failed then .error "SV2 Noise session unavailable" n
      else
        match p.transform n.framing.state decrypt b with
        | (none, state) =>
            .error "SV2 Noise authentication/encryption failed"
              { n.withState state with failed := true }
        | (some out, state) => .ok out (n.withState state) := by
  change (if !n.ready || n.failed then (throw _ : EStateM String (Noise κ) Bytes) else _) n = _
  split
  · rfl
  · cases p.transform n.framing.state decrypt b with
    | mk out state => cases out <;> rfl

/-- A cipher that fails poisons the connection; a connection that is not up is
left as it is. -/
theorem transformM_ends {decrypt : Bool} {b : Bytes} {Q : Bytes → Noise κ → Prop}
    {R : String → Noise κ → Prop} (hdown : ¬ n.Up → R "SV2 Noise session unavailable" n)
    (hnone : ∀ state, n.Up → p.transform n.framing.state decrypt b = (none, state) →
      R "SV2 Noise authentication/encryption failed" { n.withState state with failed := true })
    (hsome : ∀ out state, n.Up → p.transform n.framing.state decrypt b = (some out, state) →
      Q out (n.withState state)) :
    Ends (transformM p decrypt b) Q R n := by
  unfold Ends
  rw [transformM_eq]
  by_cases hup : n.Up
  · rw [if_neg (down_iff.not.mpr (not_not.mpr hup))]
    cases htransform : p.transform n.framing.state decrypt b with
    | mk result state =>
        cases result with
        | none => exact hnone state hup htransform
        | some out => exact hsome out state hup htransform
  · rw [if_pos (down_iff.mpr hup)]
    exact hdown hup

theorem finishM_agrees (b : Bytes) :
    Agrees (finishM p b) ((n.finish p.cipher b).map fun n' => ((), n')) n := by
  unfold Agrees finishM finish
  simp only [ends_bind, ends_get, ends_ite, ends_set, ends_throw]
  refine ⟨?_, ?_⟩
  · intro hguard result
    rw [if_pos hguard]
    intro h
    cases h
  · intro hguard
    rw [if_neg hguard]
    have hcipher : p.cipher.finish n.framing.state b =
        match p.finish n.framing.state b with
        | (true, state) => some state
        | (false, _) => none := rfl
    rw [hcipher]
    cases p.finish n.framing.state b with
    | mk authentic state =>
        cases authentic with
        | true => exact rfl
        | false =>
            intro result h
            cases h

theorem cipher_transform {state state' : κ} {decrypt : Bool} {b : Bytes} {result : Option Bytes}
    (h : p.transform state decrypt b = (result, state')) :
    p.cipher.transform state decrypt b = result.map fun out => (out, state') := by
  change (match p.transform state decrypt b with
    | (some out, state) => some (out, state)
    | (none, _) => none) = _
  rw [h]
  cases result <;> rfl

theorem encryptM_agrees (out b : Bytes) : Agrees (encryptM p out b) (encrypt p.cipher (out, n) b) n := by
  unfold Agrees encryptM encrypt
  rw [ends_bind]
  refine transformM_ends ?_ ?_ ?_
  · intro hdown result
    rw [if_pos (down_iff.mpr hdown)]
    exact fun h => nomatch h
  · intro state hup htransform result
    rw [if_neg (down_iff.not.mpr (not_not.mpr hup)), cipher_transform htransform]
    exact fun h => nomatch h
  · intro piece state hup htransform
    rw [if_neg (down_iff.not.mpr (not_not.mpr hup)), cipher_transform htransform]
    rfl

theorem encodeM_agrees (f : Frame) : Agrees (encodeM p f) (n.encode p.cipher f) n := by
  unfold encodeM encode
  split
  · intro result h
    cases h
  · exact agrees_foldlM (fun out b n => encryptM_agrees out b) (framePieces f) []

/-- A pass waits for a piece, opens it and absorbs it. -/
theorem receivePass_ends {consumed : Nat} {Q : Option (Nat × Option Frame) → Noise κ → Prop}
    {R : String → Noise κ → Prop} (hup : n.Up)
    (hwait : n.input.length - consumed < n.framing.needs → Q none n)
    (hnone : ∀ state e n', n.framing.needs ≤ n.input.length - consumed →
      p.transform n.framing.state true ((n.input.drop consumed).take n.framing.needs) =
        (none, state) → R e n')
    (herror : ∀ b state e n', n.framing.needs ≤ n.input.length - consumed →
      p.transform n.framing.state true ((n.input.drop consumed).take n.framing.needs) =
        (some b, state) → absorb n.framing.incoming n.framing.remaining b = .error e → R e n')
    (hok : ∀ b state incoming remaining o, n.framing.needs ≤ n.input.length - consumed →
      p.transform n.framing.state true ((n.input.drop consumed).take n.framing.needs) =
        (some b, state) →
      absorb n.framing.incoming n.framing.remaining b = .ok (incoming, remaining, o) →
      Q (some (consumed + n.framing.needs, o)) { n with framing := ⟨state, incoming, remaining⟩ }) :
    Ends (receivePass p consumed) Q R n := by
  unfold receivePass
  rw [ends_bind, ends_get]
  cases hincoming : n.framing.incoming with
  | none =>
      have hneeds : n.framing.needs = 22 := by rw [Framing.needs, hincoming]; rfl
      rw [hneeds, hincoming] at herror hok
      rw [hneeds] at hwait hnone
      dsimp only
      rw [ends_ite]
      refine ⟨hwait, fun hlong => ?_⟩
      have hle := Nat.le_of_not_lt hlong
      rw [ends_bind]
      refine transformM_ends (absurd hup) (fun state _ h => hnone state _ _ hle h) ?_
      intro h state _ htransform
      simp only [ends_bind, ends_modify, ends_ite, ends_throw, ends_pure]
      refine ⟨?_, ?_⟩
      · intro hlarge
        exact herror h state _ _ hle htransform (by simp only [absorb]; rw [if_pos hlarge]; rfl)
      · intro hsmall
        refine ⟨?_, ?_⟩
        · intro hzero
          have habsorb := hok h state none 0 _ hle htransform (by
            simp only [absorb]
            rw [if_neg hsmall, if_pos hzero]
            rfl)
          rw [hzero]
          simp only [withState, hincoming]
          exact habsorb
        · intro hpositive
          have habsorb := hok h state _ _ none hle htransform (by
            simp only [absorb]
            rw [if_neg hsmall, if_neg hpositive]
            rfl)
          exact habsorb
  | some frame =>
      have hneeds : n.framing.needs = min n.framing.remaining chunk + 16 := by
        rw [Framing.needs, hincoming]
        rfl
      rw [hneeds, hincoming] at herror hok
      rw [hneeds] at hwait hnone
      dsimp only
      rw [ends_ite]
      refine ⟨hwait, fun hlong => ?_⟩
      have hle := Nat.le_of_not_lt hlong
      rw [ends_bind]
      refine transformM_ends (absurd hup) (fun state _ h => hnone state _ _ hle h) ?_
      intro b state _ htransform
      simp only [ends_bind, ends_modify, ends_ite, ends_pure]
      refine ⟨?_, ?_⟩
      · intro hlast
        exact hok b state none 0 _ hle htransform (by simp only [absorb]; rw [if_pos hlast]; rfl)
      · intro hmore
        exact hok b state _ _ none hle htransform (by simp only [absorb]; rw [if_neg hmore]; rfl)

/-- The loop decodes what the decoder decodes, unless that is a flood. -/
theorem receiveLoop_runs (fuel consumed : Nat) (out : List Frame) (hup : n.Up)
    (hfuel : n.input.length - consumed < fuel) (hout : out.length ≤ 1024) :
    Ends (receiveLoop p fuel consumed out)
      (fun result n' => ∃ items,
        (frameDecoder p.cipher).run n.framing (n.input.drop consumed) =
          .ok (items, n'.framing, n.input.drop result.1) ∧
        result.2 = out ++ items ∧ result.2.length ≤ 1024 ∧
        n' = { n with framing := n'.framing })
      (fun _ _ => ∀ items framing rest,
        (frameDecoder p.cipher).run n.framing (n.input.drop consumed) =
          .ok (items, framing, rest) → 1024 < (out ++ items).length) n := by
  induction fuel generalizing consumed out n with
  | zero => omega
  | succ fuel ih =>
      rw [receiveLoop, ends_bind]
      have hdropped : (n.input.drop consumed).length = n.input.length - consumed :=
        List.length_drop
      have hneeds : 16 ≤ n.framing.needs := by
        unfold Framing.needs pieceSize
        split <;> omega
      refine receivePass_ends hup ?_ ?_ ?_ ?_
      · intro hshort
        have hstep : (frameDecoder p.cipher).step n.framing (n.input.drop consumed) = .ok .wait :=
          step_wait_iff.mpr (by rw [hdropped]; exact hshort)
        exact ⟨[], Decoder.run_wait hstep, (List.append_nil out).symm, hout, rfl⟩
      · intro state e n' hlong htransform items framing rest hrun
        have hstep : (frameDecoder p.cipher).step n.framing (n.input.drop consumed) =
            .error "SV2 Noise authentication/encryption failed" := by
          change frameStep p.cipher n.framing _ = _
          rw [frameStep_eq, if_neg (by rw [hdropped]; omega), cipher_transform htransform]
          rfl
        rw [Decoder.run_error hstep] at hrun
        cases hrun
      · intro b state e n' hlong htransform habsorb items framing rest hrun
        have hstep : (frameDecoder p.cipher).step n.framing (n.input.drop consumed) = .error e := by
          change frameStep p.cipher n.framing _ = _
          rw [frameStep_eq, if_neg (by rw [hdropped]; omega), cipher_transform htransform]
          dsimp only [Option.map]
          rw [habsorb]
          rfl
        rw [Decoder.run_error hstep] at hrun
        cases hrun
      · intro b state incoming remaining o hlong htransform habsorb
        have hstep : (frameDecoder p.cipher).step n.framing (n.input.drop consumed) =
            .ok (.take ⟨state, incoming, remaining⟩
              (n.input.drop (consumed + n.framing.needs)) o) := by
          refine step_take_iff.mpr ⟨by rw [hdropped]; exact hlong, ?_, b, ?_, habsorb⟩
          · rw [List.drop_drop]
          · rw [cipher_transform htransform]
            rfl
        dsimp only
        rw [ends_ite]
        refine ⟨?_, ?_⟩
        · intro hflood items framing rest hitems
          obtain ⟨later, -, rfl⟩ := (Decoder.run_take_iff hstep).mp hitems
          rw [List.length_append] at hflood ⊢
          rw [List.length_append]
          omega
        · intro hroom
          have hnext := ih (n := { n with framing := ⟨state, incoming, remaining⟩ })
            (consumed + n.framing.needs) (out ++ o.toList) ⟨hup.ready, hup.failed⟩ (by dsimp only; omega) (Nat.le_of_not_lt hroom)
          refine hnext.mono ?_ ?_
          · rintro result n' ⟨items, hitems, hresult, hcount, hn'⟩
            refine ⟨o.toList ++ items, ?_, ?_, hcount, hn'⟩
            · exact (Decoder.run_take_iff hstep).mpr ⟨items, hitems, rfl⟩
            · rw [hresult, List.append_assoc]
          · intro e n' hlater items framing rest hitems
            obtain ⟨later, hrest, rfl⟩ := (Decoder.run_take_iff hstep).mp hitems
            rw [← List.append_assoc]
            exact hlater later _ _ hrest

theorem receiveM_agrees (b : Bytes) : Agrees (receiveM p b) (n.receive p.cipher b) n := by
  unfold Agrees receiveM receive
  simp only [ends_tryCatch, ends_bind, ends_get, ends_ite, ends_set, ends_throw, ends_modify]
  refine ⟨?_, ?_⟩
  · intro hdown result
    rw [if_pos hdown]
    intro h
    cases h
  · intro hguard
    have hup : n.Up := not_not.mp (down_iff.not.mp hguard)
    rw [if_neg hguard]
    refine ⟨?_, ?_⟩
    · intro hlarge result
      rw [if_pos hlarge]
      intro h
      cases h
    · intro hsmall
      rw [if_neg hsmall]
      have hloop := receiveLoop_runs (p := p) (n := { n with input := n.input ++ b })
        (n.input.length + b.length + 1) 0 [] ⟨hup.ready, hup.failed⟩
        (by dsimp only; rw [List.length_append]; omega) (Nat.zero_le _)
      refine hloop.mono ?_ ?_
      · rintro ⟨consumed, out⟩ n' ⟨items, hrun, hout, hcount, hn'⟩
        obtain rfl : out = items := hout
        rw [ends_bind, ends_modify, ends_pure]
        dsimp only at hrun
        rw [List.drop_zero] at hrun
        rw [hrun, ok_bind, if_neg (Nat.not_lt.mpr hcount), hn']
        rfl
      · rintro e n' hflood ⟨out, last⟩ h
        obtain ⟨⟨items, framing, rest⟩, hrun, h⟩ := bind_eq_ok.mp h
        obtain ⟨hroom, -⟩ := guard_eq_ok.mp h
        exact hroom (hflood items framing rest hrun)

/-- Only `finish` makes a connection ready. -/
theorem receivePass_ready {consumed : Nat} {ready : Bool} (h : n.ready = ready) :
    Ends (receivePass p consumed) (fun _ n' => n'.ready = ready) (fun _ n' => n'.ready = ready)
      n := by
  unfold receivePass
  rw [ends_bind, ends_get]
  cases n.framing.incoming with
  | none =>
      dsimp only
      rw [ends_ite]
      refine ⟨fun _ => h, fun _ => ?_⟩
      rw [ends_bind]
      refine transformM_ends (fun _ => h) (fun _ _ _ => h) fun b state _ _ => ?_
      simp only [ends_bind, ends_modify, ends_ite, ends_throw, ends_pure]
      exact ⟨fun _ => h, fun _ => ⟨fun _ => h, fun _ => h⟩⟩
  | some frame =>
      dsimp only
      rw [ends_ite]
      refine ⟨fun _ => h, fun _ => ?_⟩
      rw [ends_bind]
      refine transformM_ends (fun _ => h) (fun _ _ _ => h) fun b state _ _ => ?_
      simp only [ends_bind, ends_modify, ends_ite, ends_pure]
      exact ⟨fun _ => h, fun _ => h⟩

theorem receiveLoop_ready {fuel consumed : Nat} {out : List Frame} {ready : Bool}
    (h : n.ready = ready) :
    Ends (receiveLoop p fuel consumed out) (fun _ n' => n'.ready = ready)
      (fun _ n' => n'.ready = ready) n := by
  induction fuel generalizing consumed out n with
  | zero => exact h
  | succ fuel ih =>
      rw [receiveLoop, ends_bind]
      refine (receivePass_ready h).mono ?_ fun _ _ h => h
      intro result n' h
      cases result with
      | none => exact h
      | some moved =>
          dsimp only
          rw [ends_ite]
          exact ⟨fun _ => h, fun _ => ih h⟩

theorem receiveM_ready {ready : Bool} (b : Bytes) (h : n.ready = ready) :
    Ends (receiveM p b) (fun _ n' => n'.ready = ready) (fun _ n' => n'.ready = ready) n := by
  unfold receiveM
  simp only [ends_tryCatch, ends_bind, ends_get, ends_ite, ends_set, ends_throw, ends_modify]
  exact ⟨fun _ => h, fun _ => ⟨fun _ => h, fun _ => receiveLoop_ready h⟩⟩

theorem encodeM_ready {ready : Bool} (f : Frame) (h : n.ready = ready) :
    Ends (encodeM p f) (fun _ n' => n'.ready = ready) (fun _ n' => n'.ready = ready) n := by
  unfold encodeM
  rw [ends_ite]
  refine ⟨fun _ => h, fun _ => ends_foldlM ?_ (framePieces f) h⟩
  intro out b m hm
  unfold encryptM
  rw [ends_bind]
  exact transformM_ends (fun _ => hm) (fun _ _ _ => hm) fun _ _ _ _ => hm

theorem finishM_ready (b : Bytes) :
    Ends (finishM p b) (fun _ n' => n'.Up ∧ n.ready = false) (fun _ n' => n'.ready = n.ready) n := by
  unfold finishM
  simp only [ends_bind, ends_get, ends_ite, ends_set, ends_throw]
  refine ⟨fun _ => trivial, fun hguard => ?_⟩
  rw [Bool.not_eq_true, Bool.or_eq_false_iff] at hguard
  cases p.finish n.framing.state b with
  | mk authentic state =>
      cases authentic with
      | true => exact ⟨⟨rfl, hguard.2⟩, hguard.1⟩
      | false => exact rfl

/-! ### Calls -/

inductive Call
  | finish (response : Bytes)
  | encode (frame : Frame)
  | receive (bytes : Bytes)

inductive Output
  | authenticated
  | ciphertext (bytes : Bytes)
  | frames (frames : List Frame)

def perform (p : Port κ) : Call → EStateM String (Noise κ) Output
  | .finish response => do
      finishM p response
      pure .authenticated
  | .encode frame => do pure (.ciphertext (← encodeM p frame))
  | .receive bytes => do pure (.frames (← receiveM p bytes))

/-- The failures that come from received data or from the cipher. An encoding
can also be refused for its size, or because there is no session yet. -/
def Poisons : Call → String → Prop
  | .finish _, _ => True
  | .encode _, e => e = "SV2 Noise authentication/encryption failed"
  | .receive _, _ => True

/-- Where `finish` throws it has poisoned the connection, and a poisoned one
makes it throw. -/
theorem finishM_poisons (b : Bytes) :
    Ends (finishM p b) (fun _ _ => n.failed = false) (fun _ n => n.failed = true) n := by
  unfold finishM
  simp only [ends_bind, ends_get, ends_ite, ends_set, ends_throw, Bool.or_eq_true, not_or,
    Bool.not_eq_true]
  refine ⟨fun _ => trivial, fun hguard => ?_⟩
  cases p.finish n.framing.state b with
  | mk authentic state =>
      cases authentic with
      | true => exact hguard.2
      | false => exact rfl

theorem receiveM_poisons (b : Bytes) :
    Ends (receiveM p b) (fun _ _ => n.failed = false) (fun _ n => n.failed = true) n := by
  unfold receiveM
  simp only [ends_tryCatch, ends_bind, ends_get, ends_ite, ends_set, ends_throw, ends_modify,
    Bool.or_eq_true, Bool.not_eq_true', not_or, Bool.not_eq_true]
  refine ⟨fun _ => trivial, fun hup => ⟨fun _ => trivial, fun _ => ?_⟩⟩
  exact Ends.of_forall (fun _ _ => hup.2) fun _ _ => rfl

/-- Everything an encoding can do: refused with nothing changed, or stopped by
the cipher with the connection poisoned. -/
theorem encodeM_poisons (f : Frame) :
    Ends (encodeM p f) (fun _ n' => n.Up ∧ n'.Up)
      (fun e n' => (e ≠ "SV2 Noise authentication/encryption failed" ∧ n' = n ∧
          (n.Up → maxPayload < f.payload.length)) ∨
        (e = "SV2 Noise authentication/encryption failed" ∧ n'.failed = true)) n := by
  unfold encodeM
  rw [ends_ite]
  refine ⟨fun hlarge => Or.inl ⟨by decide, rfl, fun _ => hlarge⟩, fun _ => ?_⟩
  by_cases hup : n.Up
  · refine Ends.mono (ends_foldlM (I := fun _ m => m.Up)
      (R := fun e m => e = "SV2 Noise authentication/encryption failed" ∧ m.failed = true)
      ?_ (framePieces f) hup) (fun _ _ hlast => ⟨hup, hlast⟩) fun _ _ h => Or.inr h
    intro out b m hm
    unfold encryptM
    rw [ends_bind]
    exact transformM_ends (absurd hm) (fun _ _ _ => ⟨rfl, rfl⟩) fun _ _ hm _ => ⟨hm.ready, hm.failed⟩
  · unfold framePieces encryptM
    rw [List.foldlM_cons, ends_bind, ends_bind]
    exact transformM_ends (fun _ => Or.inl ⟨by decide, rfl, fun h => absurd h hup⟩)
      (fun _ h => absurd h hup) fun _ _ h => absurd h hup

/-- What has poisoned the connection makes every call throw. -/
theorem perform_down (call : Call) (h : n.failed = true) :
    Ends (perform p call) (fun _ _ => False) (fun _ n => n.failed = true) n := by
  have hnot : ¬ n.failed = false := by
    rw [h]
    simp
  cases call with
  | finish response =>
      unfold perform
      rw [ends_bind]
      exact (finishM_poisons response).mono (fun _ _ h => hnot h) fun _ _ h => h
  | encode frame =>
      unfold perform
      rw [ends_bind]
      refine (encodeM_poisons frame).mono (fun _ _ hup => hnot hup.1.failed) ?_
      rintro e n' (⟨-, rfl, -⟩ | ⟨-, hfailed⟩)
      · exact h
      · exact hfailed
  | receive bytes =>
      unfold perform
      rw [ends_bind]
      exact (receiveM_poisons bytes).mono (fun _ _ h => hnot h) fun _ _ h => h

/-- A failure that comes from the peer or the cipher poisons the connection. -/
theorem perform_poisons (call : Call) :
    Ends (perform p call) (fun _ _ => True) (fun e n => Poisons call e → n.failed = true) n := by
  cases call with
  | finish response =>
      unfold perform
      rw [ends_bind]
      exact (finishM_poisons response).mono (fun _ _ _ => trivial) fun _ _ h _ => h
  | encode frame =>
      unfold perform
      rw [ends_bind]
      refine (encodeM_poisons frame).mono (fun _ _ _ => trivial) ?_
      rintro e n' (⟨hother, -⟩ | ⟨-, hfailed⟩) hcipher
      · exact absurd hcipher hother
      · exact hfailed
  | receive bytes =>
      unfold perform
      rw [ends_bind]
      exact (receiveM_poisons bytes).mono (fun _ _ _ => trivial) fun _ _ h _ => h

section Counters

variable {ι η : Type} {lib : Library ι η} {count : η → Nat}

/-- The encryptions the engine of a connection has made. -/
def counter (count : η → Nat) (n : Noise (Abi.State ι η)) : Nat :=
  n.framing.state.counter count

theorem transform_counts
    (hcount : ∀ engine b out engine', lib.encrypt engine b = (some out, engine') →
      count engine' = count engine + 1)
    {s s' : Abi.State ι η} {b out : Bytes} (h : (abi lib).transform s false b = (some out, s')) :
    s'.counter count = s.counter count + 1 := by
  change Abi.yoloNoiseTransform lib s false b (b.length + 16) = _ at h
  unfold Abi.yoloNoiseTransform at h
  split at h
  · cases h
  · split at h
    · cases h
    · cases hengine : s.engine with
      | none => rw [hengine] at h; cases h
      | some engine =>
          rw [hengine] at h
          dsimp only at h
          rw [if_neg Bool.false_ne_true] at h
          cases hencrypt : lib.encrypt engine b with
          | mk result engine' =>
              rw [hencrypt] at h
              cases result with
              | none => cases h
              | some bytes =>
                  cases h
                  simp only [Abi.State.counter, hengine]
                  exact hcount engine b _ engine' hencrypt

/-- Every piece takes one encryption. -/
theorem pieces_count
    (hcount : ∀ engine b out engine', lib.encrypt engine b = (some out, engine') →
      count engine' = count engine + 1)
    (pieces : List Bytes) (out : Bytes) (n : Noise (Abi.State ι η)) :
    Ends (pieces.foldlM (encryptM (abi lib)) out)
      (fun _ n' => n'.counter count = n.counter count + pieces.length) (fun _ _ => True) n := by
  induction pieces generalizing out n with
  | nil => exact rfl
  | cons b pieces ih =>
      unfold encryptM
      rw [List.foldlM_cons, ends_bind, ends_bind]
      refine transformM_ends (fun _ => trivial) (fun _ _ _ => trivial) ?_
      intro piece state _ htransform
      refine (ih _ _).mono ?_ fun _ _ _ => trivial
      intro _ n' hlater
      have hone : (n.withState state).counter count = n.counter count + 1 :=
        transform_counts hcount htransform
      rw [hlater, hone, List.length_cons]
      omega

/-- Poisoning is absorbing. After a call has failed because of received data or
of the cipher, every later call throws. An encoding that is too large changes
nothing, and one that succeeds takes one encryption for the header and one for
every chunk of the payload. -/
theorem poisoning_absorbing (lib : Library ι η) (count : η → Nat)
    (hcount : ∀ engine b out engine', lib.encrypt engine b = (some out, engine') →
      count engine' = count engine + 1) (n : Noise (Abi.State ι η)) :
    (∀ (before : List Call) (call : Call) (e : String) (n' : Noise (Abi.State ι η))
        (after : List Call),
      perform (abi lib) call (calls (perform (abi lib)) n before).2 = .error e n' →
      Poisons call e →
      ∀ result ∈ (calls (perform (abi lib)) n' after).1, ∃ e', result = .error e') ∧
    (∀ f : Frame, maxPayload < f.payload.length →
      encodeM (abi lib) f n = .error "SV2 frame exceeds local size limit" n) ∧
    ∀ (f : Frame) (bytes : Bytes) (n' : Noise (Abi.State ι η)),
      encodeM (abi lib) f n = .ok bytes n' →
      n'.counter count = n.counter count + 1 + (f.payload.length + chunk - 1) / chunk := by
  refine ⟨?_, ?_, ?_⟩
  · intro before call e n' after herror hpoisons
    have hfailed : n'.failed = true := (perform_poisons call).error herror hpoisons
    refine (calls_keep (I := fun n => n.failed = true)
      (P := fun result => ∃ e', result = .error e') ?_ after hfailed).2
    intro call n h
    exact (perform_down call h).mono (fun _ _ h => h.elim) fun e _ h => ⟨h, e, rfl⟩
  · intro f hlarge
    unfold encodeM
    rw [if_pos hlarge]
    rfl
  · intro f bytes n' h
    have hsize : ¬ f.payload.length > maxPayload := by
      intro hlarge
      unfold encodeM at h
      rw [if_pos hlarge] at h
      cases h
    unfold encodeM at h
    rw [if_neg hsize] at h
    have hpieces := (pieces_count hcount (framePieces f) [] n).ok h
    rw [hpieces, framePieces, List.length_cons, length_toChunks (by decide)]
    omega

end Counters

/-- A library whose engine counts its encryptions and pads with sixteen bytes. -/
def sampleLibrary : Library Unit Nat where
  step2 _ _ := some 0
  encrypt engine b := (some (b ++ List.replicate 16 0), engine + 1)
  decrypt engine b := (if b.length < 16 then none else some (b.take (b.length - 16)), engine)

def sampleFresh : Noise (Abi.State Unit Nat) := { framing := ⟨⟨some (), none, false⟩, none, 0⟩ }

theorem poisoning_absorbing_sample :
    perform (abi sampleLibrary) (.receive []) sampleFresh =
        .error "SV2 Noise session unavailable" { sampleFresh with failed := true } ∧
      (∀ result ∈ (calls (perform (abi sampleLibrary)) { sampleFresh with failed := true }
        [.finish (List.replicate 234 0), .encode ⟨0, 1, [7]⟩, .receive [1]]).1,
        ∃ e, result = .error e) ∧
      ∃ bytes n', encodeM (abi sampleLibrary) ⟨0, 1, [7]⟩
          { ready := true, framing := ⟨⟨none, some 5, false⟩, none, 0⟩ } = .ok bytes n' ∧
        n'.counter id = 5 + 1 + 1 := by
  have hreceive : perform (abi sampleLibrary) (.receive []) sampleFresh =
      .error "SV2 Noise session unavailable" { sampleFresh with failed := true } := rfl
  have hcount : ∀ (engine : Nat) (b out : Bytes) (engine' : Nat),
      sampleLibrary.encrypt engine b = (some out, engine') → id engine' = id engine + 1 := by
    intro engine b out engine' h
    exact (Prod.mk.inj h).2.symm
  obtain ⟨hlater, -, -⟩ := poisoning_absorbing sampleLibrary id hcount sampleFresh
  obtain ⟨-, -, hencode⟩ := poisoning_absorbing sampleLibrary id hcount
    { ready := true, framing := ⟨⟨none, some 5, false⟩, none, 0⟩ }
  exact ⟨hreceive, hlater [] _ _ _ _ hreceive trivial, _, _, rfl, hencode ⟨0, 1, [7]⟩ _ _ rfl⟩

end Noise

end Supryolo.Sv2
