import Supryolo.Crypto
import Supryolo.Lib.Blake2

namespace Supryolo

open Rounds Words

theorem g_eq_mix (v : State UInt64) (a b c d : Fin 16) (x y : UInt64) :
    g v a b c d x y = Blake2.mix v a b c d x y := by
  simp only [g, Blake2.mix, UInt64.add_assoc]

theorem blakeRound_eq_round (m v : State UInt64) (r : Nat) :
    blakeRound m v r = Blake2.round m v r := by
  unfold blakeRound Blake2.round
  simp only [g_eq_mix]
  rfl

theorem blakeChain_eq_chain : blakeChain = Blake2.chain 32 := by
  rw [blakeChain, Blake2.chain]
  rfl

private theorem not_eq_xor (word : UInt64) : ~~~word = word ^^^ 0xffffffffffffffff := by
  apply UInt64.toBitVec_inj.mp
  rw [UInt64.toBitVec_xor, UInt64.toBitVec_not]
  exact (BitVec.xor_allOnes (x := word.toBitVec)).symm

/-- The parameters of the only block are those of a final block, whose counter
fits into one word. -/
theorem blakeInitial_eq {size : Nat} (hsize : size < 2 ^ 64) :
    blakeInitial size =
      let v : State UInt64 := Blake2.chain 32 ++ Blake2.iv
      let v := put v 12 (v.get 12 ^^^ UInt64.ofNat (size % 2 ^ 64))
      let v := put v 13 (v.get 13 ^^^ UInt64.ofNat (size / 2 ^ 64))
      put v 14 (v.get 14 ^^^ 0xffffffffffffffff) := by
  have hhigh : UInt64.ofNat (size / 2 ^ 64) = 0 := by rw [Nat.div_eq_of_lt hsize]; rfl
  have hiv : iv = Blake2.iv := rfl
  simp only [blakeInitial, blakeChain_eq_chain, hiv, hhigh, Nat.mod_eq_of_lt hsize, not_eq_xor,
    UInt64.xor_zero, put, get_val, Vector.set_getElem_self]

/-- A short message and its zero padding have the words of a block. -/
theorem blakeMessage_eq_words {b : Bytes} (hsize : b.length ≤ 128) :
    blakeMessage (copyTo (Vector.replicate 128 0) 0 b) = Blake2.words b := by
  have hlist : (copyTo (Vector.replicate 128 (0 : UInt8)) 0 b).toList =
      b ++ List.replicate (128 - b.length) 0 := by
    rw [copyTo_toList _ _ _ (by simpa using hsize), Vector.toList_replicate, List.take_zero,
      List.nil_append, List.drop_replicate, Nat.zero_add]
  apply Vector.ext
  intro i hi
  simp only [blakeMessage, Blake2.words, Vector.getElem_ofFn, loadLe, hlist]
  -- Both paddings reach past the word.
  have hcut : (b ++ List.replicate 128 (0 : UInt8)).take 128 =
      b ++ List.replicate (128 - b.length) 0 := by
    rw [List.take_append, List.take_of_length_le hsize, List.take_replicate,
      Nat.min_eq_left (Nat.sub_le _ _)]
  rw [← hcut, List.drop_take, List.take_take, Nat.min_eq_left (by omega)]

/-- The output loop takes the first four chaining words. -/
theorem storeWords_eq_take (words : Vector UInt64 8) :
    (storeWords (Vector.ofFn fun i => words.get (i.castAdd 4))).toList =
      (words.toList.flatMap (leBytes 8)).take 32 := by
  have hlist : words.toList = [words[0], words[1], words[2], words[3], words[4], words[5], words[6],
      words[7]] := by
    apply List.ext_getElem
    · simp
    · intro i hi hi'
      have hlt : i < 8 := by simpa using hi
      interval_cases i <;> simp
  have hfront : (leBytes 8 words[0] ++ leBytes 8 words[1] ++ leBytes 8 words[2] ++
      leBytes 8 words[3]).length = 32 := by simp
  rw [storeWords_toList, hlist]
  simp only [Vector.getElem_ofFn, get_val, Fin.val_castAdd, List.flatMap_cons, List.flatMap_nil]
  rw [← List.append_assoc, ← List.append_assoc, ← List.append_assoc, List.take_left' hfront]

/-- The one-block hash of `crypto.cpp`, which every backend and every share is
checked against, is BLAKE2b of RFC 7693 with digests of 32 bytes: it returns the
digest of the standard for every message of at most 128 bytes, and throws for a
longer one. -/
theorem blake2b256_eq_blake2b :
    (∀ b : Bytes, b.length ≤ 128 →
      ∃ h, blake2b256 b = .ok h ∧ h.toList = Blake2.blake2b 32 b) ∧
    ∀ b : Bytes, 128 < b.length → ∃ e, blake2b256 b = .error e := by
  refine ⟨?_, ?_⟩
  · intro b hsize
    rw [blake2b256, if_neg (by omega)]
    refine ⟨_, rfl, ?_⟩
    have hrounds : blakeRound (Blake2.words b) = Blake2.round (Blake2.words b) := by
      funext v r
      exact blakeRound_eq_round _ v r
    rw [Blake2.blake2b_one_block 32 hsize, ← storeWords_eq_take, ← blakeMessage_eq_words hsize]
    refine congrArg (fun words => (storeWords words).toList) ?_
    rw [blakeMessage_eq_words hsize, blakeWords, blakeInitial_eq (by omega), hrounds,
      blakeChain_eq_chain]
    apply Vector.ext
    intro i hi
    simp only [Blake2.compress, if_true]
    rw [Vector.getElem_ofFn, Vector.getElem_ofFn, get_val (Vector.ofFn _), Vector.getElem_ofFn]
  · intro b hlong
    exact ⟨_, if_pos hlong⟩

end Supryolo
