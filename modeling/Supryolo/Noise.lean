import Supryolo.Sv2
import Supryolo.Lib.Incremental
import Supryolo.Lib.Loops

/-!
Model of `sv2_noise.cpp`: encrypted framing on top of a cipher. The cipher
itself is foreign code and a parameter; `none` is its negative return value. A
failure poisons the connection, so no state is kept of it.
-/

namespace Supryolo.Sv2

open Incremental

/-- The C interface of the Noise engine. -/
structure Cipher (κ : Type) where
  finish : κ → Bytes → Option κ
  transform : κ → Bool → Bytes → Option (Bytes × κ)

/-- Where the decoder stands between two pieces of ciphertext. -/
structure Framing (κ : Type) where
  state : κ
  incoming : Option Frame := none
  remaining : Nat := 0

structure Noise (κ : Type) where
  ready : Bool := false
  failed : Bool := false
  framing : Framing κ
  input : Bytes := []

variable {κ : Type}

def maxPayload : Nat := 1024 * 1024

def chunk : Nat := 65519

/-- The encrypted header of a frame announces the size of its payload. -/
def receiveHeader (c : Cipher κ) (state : κ) (b : Bytes) :
    Except String (Framing κ × Option Frame) :=
  match c.transform state true b with
  | none => throw "SV2 Noise authentication/encryption failed"
  | some (h, state) =>
      let byte (i : Nat) := h.getD i 0
      let remaining := (byte 3).toNat + (byte 4).toNat * 2 ^ 8 + (byte 5).toNat * 2 ^ 16
      let frame : Frame := ⟨(byte 0).toUInt16 ||| (byte 1).toUInt16 <<< 8, byte 2, []⟩
      if remaining > maxPayload then throw "SV2 frame exceeds local size limit"
      else if remaining = 0 then pure (⟨state, none, 0⟩, some frame)
      else pure (⟨state, some frame, remaining⟩, none)

/-- The payload follows in pieces of at most `chunk` plaintext bytes. -/
def receivePayload (c : Cipher κ) (state : κ) (frame : Frame) (remaining n : Nat) (b : Bytes) :
    Except String (Framing κ × Option Frame) :=
  match c.transform state true b with
  | none => throw "SV2 Noise authentication/encryption failed"
  | some (p, state) =>
      let frame := { frame with payload := frame.payload ++ p }
      if remaining - n = 0 then pure (⟨state, none, 0⟩, some frame)
      else pure (⟨state, some frame, remaining - n⟩, none)

/-- One pass of the receive loop, split where it may have to wait for input. -/
def frameStep (c : Cipher κ) (s : Framing κ) :
    Bytes → Except String (Move (Framing κ) UInt8 Frame) :=
  match s.incoming with
  | none => onFront 22 (receiveHeader c s.state)
  | some frame =>
      let n := min s.remaining chunk
      onFront (n + 16) (receivePayload c s.state frame s.remaining n)

/-- Framing never looks past the piece of ciphertext it decrypts. -/
def frameDecoder (c : Cipher κ) : Decoder (Framing κ) UInt8 Frame String where
  step := frameStep c
  stands s input := by
    unfold frameStep
    cases s.incoming with
    | none => exact onFront_stands (by decide) _ input
    | some frame => exact onFront_stands (Nat.succ_pos _) _ input

/-- A cipher that appends sixteen bytes and takes them off again. -/
def paddingCipher : Cipher Unit where
  finish state _ := some state
  transform state decrypt b :=
    some (if decrypt then b.take (b.length - 16) else b ++ List.replicate 16 0, state)

namespace Noise

def finish (c : Cipher κ) (n : Noise κ) (b : Bytes) : Except String (Noise κ) :=
  if n.ready || n.failed then throw "SV2 Noise certificate authentication failed"
  else
    match c.finish n.framing.state b with
    | none => throw "SV2 Noise certificate authentication failed"
    | some state => pure { n with ready := true, framing := { n.framing with state := state } }

/-- Encryption of one piece; the bytes are appended to those already written. -/
def encrypt (c : Cipher κ) (out : Bytes × Noise κ) (b : Bytes) : Except String (Bytes × Noise κ) :=
  let n := out.2
  if !n.ready || n.failed then throw "SV2 Noise session unavailable"
  else
    match c.transform n.framing.state false b with
    | none => throw "SV2 Noise authentication/encryption failed"
    | some (p, state) =>
        pure (out.1 ++ p, { n with framing := { n.framing with state := state } })

def encode (c : Cipher κ) (n : Noise κ) (f : Frame) : Except String (Bytes × Noise κ) :=
  if f.payload.length > maxPayload then throw "SV2 frame exceeds local size limit"
  else
    let size := f.payload.length
    let h := [f.extension.toUInt8, (f.extension >>> 8).toUInt8, f.type, size.toUInt8,
      (size / 2 ^ 8).toUInt8, (size / 2 ^ 16).toUInt8]
    (h :: f.payload.toChunks chunk).foldlM (encrypt c) ([], n)

def receive (c : Cipher κ) (n : Noise κ) (b : Bytes) : Except String (List Frame × Noise κ) :=
  if !n.ready || n.failed then throw "SV2 Noise session unavailable"
  else if n.input.length + b.length > maxPayload + 4096 then throw "SV2 receive buffer limit"
  else do
    let (out, framing, input) ← (frameDecoder c).run n.framing (n.input ++ b)
    if out.length > 1024 then throw "SV2 message flood"
    pure (out, { n with framing := framing, input := input })

end Noise

end Supryolo.Sv2
