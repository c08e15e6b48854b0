import Mathlib.Data.List.Basic
import Mathlib.Data.UInt

namespace Supryolo.Utf8

/-- A byte that goes on with a sequence. -/
def Follows (b : UInt8) : Prop := 0x80 ≤ b.toNat ∧ b.toNat < 0xc0

instance (b : UInt8) : Decidable (Follows b) :=
  inferInstanceAs (Decidable (0x80 ≤ b.toNat ∧ b.toNat < 0xc0))

/-- A well-formed sequence of bytes and the number of its character. -/
inductive Spelling : List UInt8 → Nat → Prop
  | one {a : UInt8} (ha : a.toNat < 0x80) : Spelling [a] a.toNat
  | two {a b : UInt8} (ha : 0xc2 ≤ a.toNat ∧ a.toNat < 0xe0) (hb : Follows b) :
      Spelling [a, b] (a.toNat % 32 * 64 + b.toNat % 64)
  -- Nothing shorter is spelled longer, and there are no surrogates.
  | three {a b c : UInt8} (ha : 0xe0 ≤ a.toNat ∧ a.toNat < 0xf0) (hb : Follows b)
      (hlong : a.toNat = 0xe0 → 0xa0 ≤ b.toNat) (hsurrogate : a.toNat = 0xed → b.toNat < 0xa0)
      (hc : Follows c) :
      Spelling [a, b, c] ((a.toNat % 16 * 64 + b.toNat % 64) * 64 + c.toNat % 64)
  | four {a b c d : UInt8} (ha : 0xf0 ≤ a.toNat ∧ a.toNat < 0xf5) (hb : Follows b)
      (hlong : a.toNat = 0xf0 → 0x90 ≤ b.toNat) (hlast : a.toNat = 0xf4 → b.toNat < 0x90)
      (hc : Follows c) (hd : Follows d) :
      Spelling [a, b, c, d]
        (((a.toNat % 8 * 64 + b.toNat % 64) * 64 + c.toNat % 64) * 64 + d.toNat % 64)

theorem Spelling.valid {bytes : List UInt8} {n : Nat} (h : Spelling bytes n) : n.isValidChar := by
  unfold Nat.isValidChar
  cases h with
  | one ha => omega
  | two ha hb =>
      unfold Follows at hb
      omega
  | three ha hb hlong hsurrogate hc =>
      unfold Follows at hb hc
      omega
  | four ha hb hlong hlast hc hd =>
      unfold Follows at hb hc hd
      omega

theorem Spelling.narrow {bytes : List UInt8} {n : Nat} (h : Spelling bytes n) (hn : n < 0x80) :
    ∃ a : UInt8, bytes = [a] ∧ a.toNat = n := by
  cases h with
  | one ha => exact ⟨_, rfl, rfl⟩
  | two ha hb => omega
  | three ha hb hlong =>
      unfold Follows at hb
      omega
  | four ha hb hlong =>
      unfold Follows at hb
      omega

theorem Spelling.wide {bytes : List UInt8} {n : Nat} (h : Spelling bytes n) (hn : 0x80 ≤ n) :
    ∀ b ∈ bytes, 0x80 ≤ b.toNat := by
  cases h with
  | one ha => omega
  | two ha hb =>
      simp only [List.forall_mem_cons]
      exact ⟨by omega, hb.1, by simp⟩
  | three ha hb hlong hsurrogate hc =>
      simp only [List.forall_mem_cons]
      exact ⟨by omega, hb.1, hc.1, by simp⟩
  | four ha hb hlong hlast hc hd =>
      simp only [List.forall_mem_cons]
      exact ⟨by omega, hb.1, hc.1, hd.1, by simp⟩

private theorem ofNat_eq {n : Nat} {a : UInt8} (h : n = a.toNat) : UInt8.ofNat n = a := by
  rw [h, UInt8.ofNat_toNat]

theorem toNat_ofNat {n : Nat} (h : n.isValidChar) : (Char.ofNat n).toNat = n := by
  rw [Char.ofNat, dif_pos h]
  rfl

theorem Spelling.encode {bytes : List UInt8} {n : Nat} (h : Spelling bytes n) :
    String.utf8EncodeChar (Char.ofNat n) = bytes := by
  have hvalue : (Char.ofNat n).val.toNat = n := toNat_ofNat h.valid
  unfold String.utf8EncodeChar
  simp only [hvalue]
  cases h with
  | one ha =>
      rw [if_pos (by omega), UInt8.ofNat_toNat]
  | two ha hb =>
      unfold Follows at hb
      rw [if_neg (by omega), if_pos (by omega)]
      refine congrArg₂ List.cons (ofNat_eq (by omega)) (congrArg₂ List.cons (ofNat_eq (by omega)) rfl)
  | three ha hb hlong hsurrogate hc =>
      unfold Follows at hb hc
      rw [if_neg (by omega), if_neg (by omega), if_pos (by omega)]
      refine congrArg₂ List.cons (ofNat_eq (by omega)) (congrArg₂ List.cons (ofNat_eq (by omega))
        (congrArg₂ List.cons (ofNat_eq (by omega)) rfl))
  | four ha hb hlong hlast hc hd =>
      unfold Follows at hb hc hd
      rw [if_neg (by omega), if_neg (by omega), if_neg (by omega)]
      refine congrArg₂ List.cons (ofNat_eq (by omega)) (congrArg₂ List.cons (ofNat_eq (by omega))
        (congrArg₂ List.cons (ofNat_eq (by omega)) (congrArg₂ List.cons (ofNat_eq (by omega)) rfl)))

theorem Spelling.of_eq {bytes : List UInt8} {n k : Nat} (h : Spelling bytes n) (heq : n = k) :
    Spelling bytes k := heq ▸ h

theorem spelling_encode (c : Char) : Spelling (String.utf8EncodeChar c) c.toNat := by
  have hvalid : c.val.toNat.isValidChar := c.valid
  have hbyte (n : Nat) : (UInt8.ofNat n).toNat = n % 256 := UInt8.toNat_ofNat'
  change Spelling _ c.val.toNat
  unfold String.utf8EncodeChar Nat.isValidChar at *
  generalize c.val.toNat = n at hvalid
  dsimp only
  split_ifs with hone htwo hthree
  · exact (Spelling.one (by rw [hbyte]; omega)).of_eq (by rw [hbyte]; omega)
  · refine (Spelling.two ?_ ?_).of_eq ?_ <;> simp only [Follows, hbyte] <;> omega
  · refine (Spelling.three ?_ ?_ ?_ ?_ ?_).of_eq ?_ <;> simp only [Follows, hbyte] <;> omega
  · refine (Spelling.four ?_ ?_ ?_ ?_ ?_ ?_).of_eq ?_ <;> simp only [Follows, hbyte] <;> omega

/-- Characters one after the other. -/
def encode (cs : List Char) : List UInt8 := cs.flatMap String.utf8EncodeChar

theorem encode_cons (c : Char) (cs : List Char) :
    encode (c :: cs) = String.utf8EncodeChar c ++ encode cs := List.flatMap_cons

end Supryolo.Utf8
