import Supryolo.Lib.Words
import Supryolo.Lib.Rounds

/-!
Unkeyed BLAKE2b as RFC 7693 defines it, for messages of any length and digests
of 1 to 64 bytes. The parameter block is folded into the first chaining word, a
message is cut into blocks of 128 bytes with zeros after the last byte, and the
last block is compressed with the finalization flag.
-/

namespace Supryolo.Blake2

open Words Rounds

/-- Initialization vector (section 2.6). -/
def iv : Vector UInt64 8 :=
  #[0x6a09e667f3bcc908, 0xbb67ae8584caa73b, 0x3c6ef372fe94f82b, 0xa54ff53a5f1d36f1,
    0x510e527fade682d1, 0x9b05688c2b3e6c1f, 0x1f83d9abfb41bd6b, 0x5be0cd19137e2179].toVector

/-- Message schedule (section 2.7). -/
def sigma : Vector Row 10 :=
  #[#[0, 1, 2, 3, 4, 5, 6, 7, 8, 9, 10, 11, 12, 13, 14, 15].toVector,
    #[14, 10, 4, 8, 9, 15, 13, 6, 1, 12, 0, 2, 11, 7, 5, 3].toVector,
    #[11, 8, 12, 0, 5, 2, 15, 13, 10, 14, 3, 6, 7, 1, 9, 4].toVector,
    #[7, 9, 3, 1, 13, 12, 11, 14, 2, 6, 5, 10, 4, 0, 15, 8].toVector,
    #[9, 0, 5, 7, 2, 4, 10, 15, 14, 1, 11, 12, 6, 8, 3, 13].toVector,
    #[2, 12, 6, 10, 0, 11, 8, 3, 4, 13, 7, 5, 15, 14, 1, 9].toVector,
    #[12, 5, 1, 15, 14, 13, 4, 10, 0, 7, 6, 3, 9, 2, 8, 11].toVector,
    #[13, 11, 7, 14, 12, 1, 3, 9, 5, 0, 15, 4, 8, 6, 2, 10].toVector,
    #[6, 15, 14, 9, 11, 3, 0, 8, 12, 2, 13, 7, 1, 4, 10, 5].toVector,
    #[10, 2, 8, 4, 7, 6, 1, 5, 15, 11, 9, 14, 3, 12, 13, 0].toVector].toVector

/-- Mixing function `G` (section 3.1). -/
def mix (v : State UInt64) (a b c d : Fin 16) (x y : UInt64) : State UInt64 :=
  let v := put v a (v.get a + v.get b + x)
  let v := put v d (rotateRight (v.get d ^^^ v.get a) 32)
  let v := put v c (v.get c + v.get d)
  let v := put v b (rotateRight (v.get b ^^^ v.get c) 24)
  let v := put v a (v.get a + v.get b + y)
  let v := put v d (rotateRight (v.get d ^^^ v.get a) 16)
  let v := put v c (v.get c + v.get d)
  put v b (rotateRight (v.get b ^^^ v.get c) 63)

/-- One round: four mixes of columns and four of diagonals. -/
def round (m v : State UInt64) (i : Nat) : State UInt64 :=
  let s := sigma.get (Fin.ofNat 10 i)
  let v := mix v 0 4 8 12 (m.get (s.get 0)) (m.get (s.get 1))
  let v := mix v 1 5 9 13 (m.get (s.get 2)) (m.get (s.get 3))
  let v := mix v 2 6 10 14 (m.get (s.get 4)) (m.get (s.get 5))
  let v := mix v 3 7 11 15 (m.get (s.get 6)) (m.get (s.get 7))
  let v := mix v 0 5 10 15 (m.get (s.get 8)) (m.get (s.get 9))
  let v := mix v 1 6 11 12 (m.get (s.get 10)) (m.get (s.get 11))
  let v := mix v 2 7 8 13 (m.get (s.get 12)) (m.get (s.get 13))
  mix v 3 4 9 14 (m.get (s.get 14)) (m.get (s.get 15))

/-- Compression function `F` (section 3.2): the chaining value, a block, the
offset counter of 128 bits and the finalization flag. -/
def compress (h : Vector UInt64 8) (m : State UInt64) (t : Nat) (final : Bool) :
    Vector UInt64 8 :=
  let v : State UInt64 := h ++ iv
  let v := put v 12 (v.get 12 ^^^ UInt64.ofNat (t % 2 ^ 64))
  let v := put v 13 (v.get 13 ^^^ UInt64.ofNat (t / 2 ^ 64))
  let v := if final then put v 14 (v.get 14 ^^^ 0xffffffffffffffff) else v
  let v := (List.range 12).foldl (round m) v
  Vector.ofFn fun i => h.get i ^^^ lower v i ^^^ upper v i

/-- The words of a block, with zeros after its last byte. -/
def words (block : List UInt8) : State UInt64 :=
  Vector.ofFn fun i => leWord (((block ++ List.replicate 128 0).drop (8 * i)).take 8)

/-- Block `i` of a message. -/
def block (data : List UInt8) (i : Nat) : List UInt8 := (data.drop (128 * i)).take 128

/-- How many blocks are compressed; an empty message is one block of zeros. -/
def blocks (size : Nat) : Nat := max 1 ((size + 127) / 128)

/-- The chaining value under the parameter block of a digest of `size` bytes
without a key. -/
def chain (size : Nat) : Vector UInt64 8 :=
  iv.setIfInBounds 0 (iv.get 0 ^^^ 0x01010000 ^^^ UInt64.ofNat size)

/-- The digest of `size` bytes (section 3.3). -/
def blake2b (size : Nat) (data : List UInt8) : List UInt8 :=
  let last := blocks data.length - 1
  let h := (List.range last).foldl
    (fun h i => compress h (words (block data i)) (128 * (i + 1)) false) (chain size)
  let h := compress h (words (block data last)) data.length true
  (h.toList.flatMap (leBytes 8)).take size

/-- A message of at most one block is compressed once. -/
theorem blake2b_one_block (size : Nat) {data : List UInt8} (hdata : data.length ≤ 128) :
    blake2b size data =
      ((compress (chain size) (words data) data.length true).toList.flatMap (leBytes 8)).take size := by
  have hlast : blocks data.length - 1 = 0 := by
    unfold blocks
    omega
  have hblock : block data 0 = data := List.take_of_length_le hdata
  rw [blake2b, hlast, hblock]
  rfl

end Supryolo.Blake2
