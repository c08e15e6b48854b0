import Supryolo.Lib.Words
import Supryolo.Lib.Rounds

/-!
Model of `crypto.cpp`: hexadecimal text, little-endian words, the scalar
one-block BLAKE2b-256 and the comparison of a digest with a target.

A `std::string` is a list of characters, one per byte, so that its size is the
length of the list. Arrays of fixed size are vectors; a pointer into one is the
array together with an offset. Exceptions are `Except` with the message text.
-/

namespace Supryolo

open Words Rounds

abbrev Text := List Char

abbrev Bytes := List UInt8

abbrev Hash := Vector UInt8 32

abbrev Header := Vector UInt8 80

/-- Value of one hexadecimal digit, as the lambda `nib` computes it. -/
def nib (c : Char) : Except String UInt8 :=
  if '0' ≤ c ∧ c ≤ '9' then pure (c.toNat - '0'.toNat).toUInt8
  else if 'a' ≤ c ∧ c ≤ 'f' then pure (c.toNat - 'a'.toNat + 10).toUInt8
  else if 'A' ≤ c ∧ c ≤ 'F' then pure (c.toNat - 'A'.toNat + 10).toUInt8
  else throw "invalid hex"

/-- The byte loop of `unhex`, two digits at a time. -/
def unhexPairs : Text → Except String Bytes
  | high :: low :: rest => do
      let byte := (← nib high) <<< 4 ||| (← nib low)
      return byte :: (← unhexPairs rest)
  | _ => pure []

def unhex (s : Text) : Except String Bytes :=
  if s.length % 2 ≠ 0 then throw "odd hex length" else unhexPairs s

def hexDigit (nibble : UInt8) : Char :=
  "0123456789abcdef".toList.getD nibble.toNat '0'

def hex (b : Bytes) : Text :=
  b.flatMap fun (v : UInt8) => [hexDigit (v >>> 4), hexDigit (v &&& 15)]

/-- `std::copy` of a byte string into an array at an offset. -/
def copyTo {n : Nat} : Vector UInt8 n → Nat → Bytes → Vector UInt8 n
  | p, _, [] => p
  | p, offset, byte :: rest => copyTo (p.setIfInBounds offset byte) (offset + 1) rest

def loadLe {n : Nat} (p : Vector UInt8 n) (offset : Nat) : UInt64 :=
  leWord ((p.toList.drop offset).take 8)

def storeLe {n : Nat} (p : Vector UInt8 n) (offset : Nat) (x : UInt64) : Vector UInt8 n :=
  copyTo p offset (leBytes 8 x)

def iv : Vector UInt64 8 :=
  #v[0x6a09e667f3bcc908, 0xbb67ae8584caa73b, 0x3c6ef372fe94f82b, 0xa54ff53a5f1d36f1,
    0x510e527fade682d1, 0x9b05688c2b3e6c1f, 0x1f83d9abfb41bd6b, 0x5be0cd19137e2179]

def sigma : Vector Row 10 :=
  #v[#v[0, 1, 2, 3, 4, 5, 6, 7, 8, 9, 10, 11, 12, 13, 14, 15],
    #v[14, 10, 4, 8, 9, 15, 13, 6, 1, 12, 0, 2, 11, 7, 5, 3],
    #v[11, 8, 12, 0, 5, 2, 15, 13, 10, 14, 3, 6, 7, 1, 9, 4],
    #v[7, 9, 3, 1, 13, 12, 11, 14, 2, 6, 5, 10, 4, 0, 15, 8],
    #v[9, 0, 5, 7, 2, 4, 10, 15, 14, 1, 11, 12, 6, 8, 3, 13],
    #v[2, 12, 6, 10, 0, 11, 8, 3, 4, 13, 7, 5, 15, 14, 1, 9],
    #v[12, 5, 1, 15, 14, 13, 4, 10, 0, 7, 6, 3, 9, 2, 8, 11],
    #v[13, 11, 7, 14, 12, 1, 3, 9, 5, 0, 15, 4, 8, 6, 2, 10],
    #v[6, 15, 14, 9, 11, 3, 0, 8, 12, 2, 13, 7, 1, 4, 10, 5],
    #v[10, 2, 8, 4, 7, 6, 1, 5, 15, 11, 9, 14, 3, 12, 13, 0]]

/-- The in-place mixing lambda `g` of `blake2b256`. The CUDA and OpenCL host
code repeat it word for word. -/
def g (v : State UInt64) (a b c d : Fin 16) (x y : UInt64) : State UInt64 :=
  let v := put v a (v.get a + (v.get b + x))
  let v := put v d (rotateRight (v.get d ^^^ v.get a) 32)
  let v := put v c (v.get c + v.get d)
  let v := put v b (rotateRight (v.get b ^^^ v.get c) 24)
  let v := put v a (v.get a + (v.get b + y))
  let v := put v d (rotateRight (v.get d ^^^ v.get a) 16)
  let v := put v c (v.get c + v.get d)
  put v b (rotateRight (v.get b ^^^ v.get c) 63)

/-- One pass of the round loop with schedule row `sigma[r % 10]`. -/
def blakeRound (m : State UInt64) (v : State UInt64) (r : Nat) : State UInt64 :=
  let s := sigma.get (Fin.ofNat 10 r)
  let v := g v 0 4 8 12 (m.get (s.get 0)) (m.get (s.get 1))
  let v := g v 1 5 9 13 (m.get (s.get 2)) (m.get (s.get 3))
  let v := g v 2 6 10 14 (m.get (s.get 4)) (m.get (s.get 5))
  let v := g v 3 7 11 15 (m.get (s.get 6)) (m.get (s.get 7))
  let v := g v 0 5 10 15 (m.get (s.get 8)) (m.get (s.get 9))
  let v := g v 1 6 11 12 (m.get (s.get 10)) (m.get (s.get 11))
  let v := g v 2 7 8 13 (m.get (s.get 12)) (m.get (s.get 13))
  g v 3 4 9 14 (m.get (s.get 14)) (m.get (s.get 15))

/-- Chaining value after the parameter block is folded in. -/
def blakeChain : Vector UInt64 8 := iv.set 0 (iv[0] ^^^ 0x01010020)

/-- Working state before the first round of the only block. -/
def blakeInitial (size : Nat) : State UInt64 :=
  let v : State UInt64 := blakeChain ++ iv
  let v := put v 12 (v.get 12 ^^^ size.toUInt64)
  put v 14 (~~~(v.get 14))

/-- The message words of a zero-padded block. -/
def blakeMessage (block : Vector UInt8 128) : State UInt64 :=
  Vector.ofFn fun i => loadLe block (8 * i)

/-- The four digest words of a one-block message. -/
def blakeWords (size : Nat) (m : State UInt64) : Vector UInt64 4 :=
  let v := (List.range 12).foldl (blakeRound m) (blakeInitial size)
  Vector.ofFn fun word =>
    let i := Fin.castAdd 4 word
    blakeChain.get i ^^^ lower v i ^^^ upper v i

/-- Digest words are written by literal positions. -/
instance neZero_digest : NeZero 4 := ⟨by decide⟩

/-- The output loop of `blake2b256`. -/
def storeWords (words : Vector UInt64 4) : Hash :=
  (List.finRange 4).foldl (fun out (i : Fin 4) => storeLe out (8 * i) words[i]) (Vector.replicate 32 0)

def blake2b256 (b : Bytes) : Except String Hash :=
  if b.length > 128 then throw "reference BLAKE2b supports one block only"
  else
    let block := copyTo (Vector.replicate 128 0) 0 b
    pure (storeWords (blakeWords b.length (blakeMessage block)))

/-- `meets` refuses a digest that is lexicographically above the target. -/
def meets (h t : Hash) : Bool := !decide (t.toList < h.toList)

theorem nib_hexDigit (nibble : UInt8) (h : nibble < 16) : nib (hexDigit nibble) = .ok nibble := by
  have hall : ∀ n : Fin 16, nib (hexDigit (UInt8.ofNat n.val)) = .ok (UInt8.ofNat n.val) := by decide
  simpa using hall ⟨nibble.toNat, UInt8.lt_iff_toNat_lt.mp h⟩

private theorem nibbles_or (byte : UInt8) : (byte >>> 4) <<< 4 ||| (byte &&& 15) = byte := by
  apply UInt8.toBitVec_inj.mp
  apply BitVec.eq_of_getLsbD_eq
  intro i hi
  interval_cases i <;> simp

theorem unhex_hex (b : Bytes) : unhex (hex b) = .ok b := by
  have hlength : (hex b).length = 2 * b.length := by
    simp [hex, List.length_flatMap, Nat.mul_comm]
  have hpairs : unhexPairs (hex b) = .ok b := by
    induction b with
    | nil => rfl
    | cons byte rest ih =>
        have hhigh : byte >>> 4 < 16 := by
          rw [UInt8.lt_iff_toNat_lt, UInt8.toNat_shiftRight]
          change byte.toNat >>> 4 < 16
          have := byte.toNat_lt
          rw [Nat.shiftRight_eq_div_pow]
          omega
        have hlow : byte &&& 15 < 16 := by
          rw [UInt8.lt_iff_toNat_lt, UInt8.toNat_and]
          exact Nat.lt_succ_of_le Nat.and_le_right
        have hstep : hex (byte :: rest) =
            hexDigit (byte >>> 4) :: hexDigit (byte &&& 15) :: hex rest := rfl
        rw [hstep, unhexPairs, nib_hexDigit _ hhigh, nib_hexDigit _ hlow, ih (by simp [hex, List.length_flatMap, Nat.mul_comm])]
        simp [bind, Except.bind, pure, Except.pure, nibbles_or]
  rw [unhex, if_neg (by omega), hpairs]

theorem copyTo_toList {n : Nat} (p : Vector UInt8 n) (offset : Nat) (bytes : Bytes)
    (hfit : offset + bytes.length ≤ n) :
    (copyTo p offset bytes).toList =
      p.toList.take offset ++ bytes ++ p.toList.drop (offset + bytes.length) := by
  induction bytes generalizing p offset with
  | nil => simp [copyTo]
  | cons byte rest ih =>
      simp only [List.length_cons] at hfit
      have hlength : offset < p.toList.length := by simp; omega
      rw [copyTo, ih _ _ (by omega), Vector.toList_setIfInBounds]
      have htake : (p.toList.set offset byte).take (offset + 1) =
          p.toList.take offset ++ [byte] := by
        rw [List.take_add_one, List.getElem?_set_self hlength, List.take_set_of_le (le_refl _)]
        simp
      have hdrop : (p.toList.set offset byte).drop (offset + 1 + rest.length) =
          p.toList.drop (offset + 1 + rest.length) :=
        List.drop_set_of_lt (by omega)
      rw [htake, hdrop, List.length_cons, Nat.add_right_comm offset 1, Nat.add_assoc offset]
      simp

theorem copyTo_overwrite {n : Nat} (p : Vector UInt8 n) (offset : Nat) (first second : Bytes)
    (hlength : first.length = second.length) (hfit : offset + first.length ≤ n) :
    copyTo (copyTo p offset first) offset second = copyTo p offset second := by
  have htake : (p.toList.take offset).length = offset := by simp; omega
  apply Vector.toList_inj.mp
  rw [copyTo_toList _ _ _ (by omega), copyTo_toList _ _ _ hfit, copyTo_toList _ _ _ (by omega),
    hlength]
  congr 1
  · simp [htake]
  · rw [List.drop_append]
    simp [htake, hlength]

theorem storeLe_toList {n : Nat} (p : Vector UInt8 n) (offset : Nat) (x : UInt64)
    (hfit : offset + 8 ≤ n) :
    (storeLe p offset x).toList =
      p.toList.take offset ++ leBytes 8 x ++ p.toList.drop (offset + 8) := by
  rw [storeLe, copyTo_toList _ _ _ (by simpa using hfit), leBytes_length]

@[simp] theorem storeLe_storeLe {n : Nat} (p : Vector UInt8 n) (offset : Nat) (x y : UInt64)
    (hfit : offset + 8 ≤ n) : storeLe (storeLe p offset x) offset y = storeLe p offset y :=
  copyTo_overwrite p offset _ _ (by simp) (by simpa using hfit)

theorem loadLe_storeLe_same {n : Nat} (p : Vector UInt8 n) (offset : Nat) (x : UInt64)
    (hfit : offset + 8 ≤ n) : loadLe (storeLe p offset x) offset = x := by
  have hfront : (p.toList.take offset).length = offset := by simp; omega
  rw [loadLe, storeLe_toList p offset x hfit, List.append_assoc, List.drop_left' hfront,
    List.take_left' (leBytes_length 8 x), leWord_leBytes]

@[simp] theorem storeLe_loadLe {n : Nat} (p : Vector UInt8 n) (offset : Nat)
    (hfit : offset + 8 ≤ n) : storeLe p offset (loadLe p offset) = p := by
  apply Vector.toList_inj.mp
  have hsplit : p.toList.drop (offset + 8) = (p.toList.drop offset).drop 8 := by simp
  rw [storeLe_toList p offset _ hfit, loadLe, leBytes_leWord _ (by simp; omega), hsplit,
    List.append_assoc, List.take_append_drop, List.take_append_drop]

/-- Words that do not overlap the written one keep their value. -/
theorem loadLe_storeLe_of_disjoint {n : Nat} (p : Vector UInt8 n) (offset other : Nat)
    (x : UInt64) (hfit : offset + 8 ≤ n)
    (hdisjoint : other + 8 ≤ offset ∨ offset + 8 ≤ other) :
    loadLe (storeLe p offset x) other = loadLe p other := by
  have hfront : (p.toList.take offset).length = offset := by simp; omega
  rw [loadLe, loadLe, storeLe_toList p offset x hfit]
  apply congrArg leWord
  rcases hdisjoint with hbefore | hafter
  · rw [List.append_assoc, List.drop_append_of_le_length (by omega),
      List.take_append_of_le_length (by rw [List.length_drop]; omega), List.drop_take,
      List.take_take, Nat.min_eq_left (by omega)]
  · have hskip : (p.toList.take offset ++ leBytes 8 x).length = offset + 8 := by
      rw [List.length_append, hfront, leBytes_length]
    rw [List.drop_append, List.drop_eq_nil_of_le (by omega), hskip, List.nil_append,
      List.drop_drop, Nat.add_sub_cancel' hafter]

/-- Half of the words `g` computes: one message word and two rotations. -/
def mixHalf (r s : UInt64) : Mix UInt64 := fun a b c d x _ =>
  let a := a + (b + x)
  let d := rotateRight (d ^^^ a) r
  let c := c + d
  let b := rotateRight (b ^^^ c) s
  ⟨a, b, c, d⟩

/-- The words `g` computes, as a step of the mixing network. -/
def mixWords : Mix UInt64 := fun a b c d x y =>
  let words := mixHalf 32 24 a b c d x x
  mixHalf 16 63 words.a words.b words.c words.d y y

private def gHalf (r s : UInt64) (v : State UInt64) (a b c d : Fin 16) (x : UInt64) :
    State UInt64 :=
  let v := put v a (v.get a + (v.get b + x))
  let v := put v d (rotateRight (v.get d ^^^ v.get a) r)
  let v := put v c (v.get c + v.get d)
  put v b (rotateRight (v.get b ^^^ v.get c) s)

private theorem gHalf_eq_column (r s : UInt64) (v : State UInt64) (a b c d : Fin 16)
    (x : UInt64) (hnodup : [a, b, c, d].Nodup) :
    gHalf r s v a b c d x = column (mixHalf r s) v a b c d x x := by
  simp only [List.nodup_cons, List.mem_cons, List.not_mem_nil, or_false, not_or,
    Fin.ext_iff] at hnodup
  obtain ⟨⟨hab, hac, had⟩, ⟨hbc, hbd⟩, hcd, -⟩ := hnodup
  apply Vector.ext
  intro i hi
  rw [column_getElem]
  simp only [gHalf, mixHalf, put, get_val, Vector.getElem_set, if_true, hab, hac, had,
    Ne.symm hbc, Ne.symm hbd, Ne.symm hcd, if_false]
  by_cases hb : b.val = i
  · simp [← hb, Ne.symm hbd, Ne.symm hbc]
  by_cases hc : c.val = i
  · simp [← hc, hbc, Ne.symm hcd]
  by_cases hd : d.val = i
  · simp [← hd, hbd, hcd]
  · simp [hd, hc, hb]

/-- On four different positions the in-place lambda is a step of the network. -/
theorem g_eq_column (v : State UInt64) (a b c d : Fin 16) (x y : UInt64)
    (hnodup : [a, b, c, d].Nodup) :
    g v a b c d x y = column mixWords v a b c d x y := by
  have hhalves : g v a b c d x y = gHalf 16 63 (gHalf 32 24 v a b c d x) a b c d y := rfl
  rw [hhalves, gHalf_eq_column _ _ _ _ _ _ _ _ hnodup, gHalf_eq_column _ _ _ _ _ _ _ _ hnodup,
    column_column _ _ _ _ _ _ _ _ _ _ _ hnodup]
  rfl

theorem blakeRound_eq_mixRound (m v : State UInt64) (r : Nat) :
    blakeRound m v r = mixRound mixWords m (sigma.get (Fin.ofNat 10 r)) v := by
  unfold blakeRound mixRound columns diagonals
  repeat rw [g_eq_column _ _ _ _ _ _ _ (by decide)]

/-- The twelve schedule rows the round loop walks through. -/
def schedule : List Row := (List.range 12).map fun r => sigma.get (Fin.ofNat 10 r)

theorem blakeRounds_eq_mixRounds (m v : State UInt64) :
    (List.range 12).foldl (blakeRound m) v = mixRounds mixWords m schedule v := by
  have hround : blakeRound m = fun v r => mixRound mixWords m (sigma.get (Fin.ofNat 10 r)) v := by
    funext v r
    exact blakeRound_eq_mixRound m v r
  rw [mixRounds, schedule, List.foldl_map, hround]

theorem blakeWords_get (size : Nat) (m : State UInt64) (word : Fin 4) :
    (blakeWords size m).get word =
      blakeChain.get (word.castAdd 4) ^^^
        lower (mixRounds mixWords m schedule (blakeInitial size)) (word.castAdd 4) ^^^
        upper (mixRounds mixWords m schedule (blakeInitial size)) (word.castAdd 4) := by
  rw [get_val, blakeWords, blakeRounds_eq_mixRounds, Vector.getElem_ofFn]

/-- Message words of an 80-byte header: ten words and zero padding. -/
def headerMessage (h : Header) : State UInt64 :=
  Vector.ofFn fun i => if i.val < 10 then loadLe h (8 * i) else 0

/-- Digest of an 80-byte header, the only length the scan backends hash. -/
def digest (h : Header) : Hash := storeWords (blakeWords 80 (headerMessage h))

theorem blakeMessage_header (h : Header) :
    blakeMessage (copyTo (Vector.replicate 128 0) 0 h.toList) = headerMessage h := by
  have hlist : (copyTo (Vector.replicate 128 (0 : UInt8)) 0 h.toList).toList =
      h.toList ++ List.replicate 48 0 := by
    rw [copyTo_toList _ _ _ (by simp)]
    simp
  apply Vector.ext
  intro i hi
  simp only [blakeMessage, headerMessage, Vector.getElem_ofFn, loadLe, hlist]
  split
  · rename_i hlow
    rw [List.drop_append_of_le_length (by simp; omega), List.take_append_of_le_length (by simp; omega)]
  · rename_i hhigh
    rw [List.drop_append, List.drop_eq_nil_of_le (by simp; omega)]
    rw [List.nil_append, List.drop_replicate, List.take_replicate,
      Nat.min_eq_left (by simp; omega)]
    rfl

/-- A message of at most one block is always hashed. -/
theorem blake2b256_total {b : Bytes} (hsize : b.length ≤ 128) : ∃ h, blake2b256 b = .ok h := by
  rw [blake2b256, if_neg (by omega)]
  exact ⟨_, rfl⟩

theorem blake2b256_header (h : Header) : blake2b256 h.toList = .ok (digest h) := by
  have hsize : ¬ (h.toList.length > 128) := by simp
  rw [blake2b256, if_neg hsize]
  dsimp only
  rw [blakeMessage_header, Vector.length_toList]
  rfl

/-- Writing the nonce field changes message word 4 and nothing else. -/
theorem headerMessage_storeLe (h : Header) (nonce : UInt64) :
    headerMessage (storeLe h 32 nonce) = put (headerMessage h) 4 nonce := by
  have hput : put (headerMessage h) 4 nonce = (headerMessage h).set 4 nonce := rfl
  rw [hput]
  apply Vector.ext
  intro i hi
  simp only [headerMessage, Vector.getElem_ofFn, Vector.getElem_set]
  by_cases hnonce : 4 = i
  · subst hnonce
    rw [if_pos (by decide), if_pos rfl]
    exact loadLe_storeLe_same h 32 nonce (by decide)
  · rw [if_neg hnonce]
    split
    · exact loadLe_storeLe_of_disjoint h 32 (8 * i) nonce (by decide) (by omega)
    · rfl

theorem storeWords_toList (words : Vector UInt64 4) :
    (storeWords words).toList =
      leBytes 8 words[0] ++ leBytes 8 words[1] ++ leBytes 8 words[2] ++ leBytes 8 words[3] := by
  have hrange : List.finRange 4 = [0, 1, 2, 3] := by decide
  simp only [storeWords, hrange, List.foldl_cons, List.foldl_nil, storeLe]
  rw [copyTo_toList _ _ _ (by simp), copyTo_toList _ _ _ (by simp), copyTo_toList _ _ _ (by simp),
    copyTo_toList _ _ _ (by simp)]
  have htake (word : UInt64) (n : Nat) (hn : 8 ≤ n) : (leBytes 8 word).take n = leBytes 8 word :=
    List.take_of_length_le (by simpa using hn)
  have hdrop (word : UInt64) (n : Nat) (hn : 8 ≤ n) : (leBytes 8 word).drop n = [] :=
    List.drop_eq_nil_of_le (by simpa using hn)
  simp [List.take_append, List.drop_append, htake, hdrop]

/-- The first eight digest bytes as a big-endian word, the prefilter value. -/
def leading (h : Hash) : UInt64 := beWord (h.toList.take 8)

theorem loadLe_storeWords (words : Vector UInt64 4) :
    loadLe (storeWords words) 0 = words.get 0 := by
  rw [loadLe, storeWords_toList]
  simp [get_val]

theorem leading_eq_byteSwap (h : Hash) : leading h = byteSwap (loadLe h 0) := by
  rw [loadLe, List.drop_zero, byteSwap_leWord _ (by simp)]
  rfl

theorem meets_iff (h t : Hash) : meets h t = true ↔ beNat h.toList ≤ beNat t.toList := by
  have hlength : t.toList.length = h.toList.length := by simp
  simp [meets, lt_iff_beNat_lt hlength]

theorem leading_le_of_meets {h t : Hash} (hmeets : meets h t = true) : leading h ≤ leading t := by
  have hle := (meets_iff h t).mp hmeets
  rw [← List.take_append_drop 8 h.toList, ← List.take_append_drop 8 t.toList, beNat_append,
    beNat_append] at hle
  have hdrop := beNat_lt (t.toList.drop 8)
  rw [UInt64.le_iff_toNat_le, leading, leading, beWord_toNat _ (by simp), beWord_toNat _ (by simp)]
  simp only [List.length_drop, Vector.length_toList] at hle hdrop
  by_contra hlt
  have hstep : beNat (t.toList.take 8) + 1 ≤ beNat (h.toList.take 8) := by omega
  have hmul := Nat.mul_le_mul_right (256 ^ (32 - 8)) hstep
  rw [Nat.add_mul] at hmul
  omega

end Supryolo
