import Supryolo.Coin
import Supryolo.Sv2

namespace Supryolo

open Loops Sv2 Words

theorem hex_append (first second : Bytes) : hex (first ++ second) = hex first ++ hex second :=
  List.flatMap_append

/-- The padding around a commitment is text in one protocol and bytes in the
other. -/
theorem unhex_padded (commitment : Bytes) :
    unhex ("000000".toList ++ hex commitment ++ "00000000".toList) =
      .ok (List.replicate 3 0 ++ commitment ++ List.replicate 4 0) := by
  have hfront : "000000".toList = hex (List.replicate 3 0) := rfl
  have hback : "00000000".toList = hex (List.replicate 4 0) := rfl
  rw [hfront, hback, ← hex_append, ← hex_append, unhex_hex]

/-- The texts of a job decode to fields of the sizes a Sia job has. -/
structure SiaFields (prev c1 c2 en1 en2 time : Text) (p a e1 e2 t : Bytes) : Prop where
  prev : unhex prev = .ok p
  c1 : unhex c1 = .ok a
  c2 : unhex c2 = .ok []
  en1 : unhex en1 = .ok e1
  en2 : unhex en2 = .ok e2
  time : unhex time = .ok t
  prevSize : p.length = 32
  c1Size : a.length = 39
  extraSize : e1.length + e2.length = 12
  timeSize : t.length = 8

/-- The leaf and the header of the decoded fields. -/
def siaHeader (p a e1 e2 t : Bytes) : Except String Header := do
  let root ← blake2b256 ([0] ++ a ++ e1 ++ e2)
  let w : Header := Vector.replicate 80 0
  let w := copyTo w 0 p
  let w := copyTo w 40 t
  pure (copyTo w 48 root.toList)

theorem siaWork_iff {prev c1 c2 en1 en2 time : Text} {header : Header} :
    siaWork prev c1 c2 en1 en2 time = .ok header ↔
      ∃ p a e1 e2 t, SiaFields prev c1 c2 en1 en2 time p a e1 e2 t ∧
        siaHeader p a e1 e2 t = .ok header := by
  constructor
  · intro h
    obtain ⟨p, hp, h⟩ := bind_eq_ok.mp h
    obtain ⟨a, ha, h⟩ := bind_eq_ok.mp h
    obtain ⟨b, hb, h⟩ := bind_eq_ok.mp h
    obtain ⟨e1, he1, h⟩ := bind_eq_ok.mp h
    obtain ⟨e2, he2, h⟩ := bind_eq_ok.mp h
    obtain ⟨t, ht, h⟩ := bind_eq_ok.mp h
    obtain ⟨hsizes, hbuilt⟩ := guard_eq_ok.mp h
    simp only [not_or, not_not] at hsizes
    obtain ⟨hprev, hc1, rfl, hextra, htime⟩ := hsizes
    exact ⟨p, a, e1, e2, t, ⟨hp, ha, hb, he1, he2, ht, hprev, hc1, hextra, htime⟩, hbuilt⟩
  · rintro ⟨p, a, e1, e2, t, hfields, h⟩
    simp only [siaWork, hfields.prev, hfields.c1, hfields.c2, hfields.en1, hfields.en2, hfields.time,
      ok_bind]
    rw [if_neg (by simp [hfields.prevSize, hfields.c1Size, hfields.extraSize, hfields.timeSize])]
    exact h

theorem siaHeader_total {p a e1 e2 t : Bytes} (ha : a.length = 39)
    (hextra : e1.length + e2.length = 12) : ∃ header, siaHeader p a e1 e2 t = .ok header := by
  obtain ⟨root, hroot⟩ := blake2b256_total (b := [0] ++ a ++ e1 ++ e2) (by
    simp only [List.length_append, List.length_singleton]
    omega)
  exact ⟨_, by rw [siaHeader, hroot]; rfl⟩

/-- The header in three parts: the previous hash and the nonce, the time, the
root. -/
theorem siaHeader_toList {p a e1 e2 t : Bytes} {header : Header} (hp : p.length = 32)
    (ht : t.length = 8) (h : siaHeader p a e1 e2 t = .ok header) :
    ∃ root : Hash, blake2b256 ([0] ++ a ++ e1 ++ e2) = .ok root ∧
      header.toList = p ++ List.replicate 8 0 ++ t ++ root.toList := by
  obtain ⟨root, hroot, h⟩ := bind_eq_ok.mp h
  obtain rfl := pure_eq_ok.mp h
  refine ⟨root, hroot, ?_⟩
  have hr : root.toList.length = 32 := Vector.length_toList
  rw [copyTo_toList _ _ _ (by rw [hr]), copyTo_toList _ _ _ (by rw [ht]; decide),
    copyTo_toList _ _ _ (by rw [hp]; decide), Vector.toList_replicate, hp, ht, hr]
  have htake (n : Nat) (hn : 32 ≤ n) : p.take n = p := List.take_of_length_le (by omega)
  have hdrop (bytes : Bytes) (n : Nat) (hn : bytes.length ≤ n) : bytes.drop n = [] :=
    List.drop_eq_nil_of_le hn
  simp [List.take_append, List.drop_append, hp, ht, htake, hdrop]

/-- The header starts with the previous hash. -/
theorem siaWork_prev {prev c1 c2 en1 en2 time : Text} {header : Header}
    (h : siaWork prev c1 c2 en1 en2 time = .ok header) :
    unhex prev = .ok (header.toList.take 32) := by
  obtain ⟨p, a, e1, e2, t, hfields, hbuilt⟩ := siaWork_iff.mp h
  obtain ⟨root, -, hheader⟩ := siaHeader_toList hfields.prevSize hfields.timeSize hbuilt
  have htake : header.toList.take 32 = p := by
    rw [hheader, List.append_assoc, List.append_assoc, List.take_left' hfields.prevSize]
  rw [htake]
  exact hfields.prev

/-- SV1 and SV2 search the same headers. An SV1 job whose texts spell the fields of
an SV2 job has the header of that job, with the eight bytes of the nonce zero in
both; and SV1 builds a header for exactly those texts that spell fields of the right
sizes, whatever they contain. -/
theorem same_work :
    (∀ (hidden commitment : Hash) (extranonce : Bytes) (t : UInt32),
      (hidden.toList.take 6).all (· == 0) = true → extranonce.length = 12 →
      ∃ header, standardWork hidden commitment extranonce t = .ok header ∧
        siaWork (hex hidden.toList)
          ("000000".toList ++ hex commitment.toList ++ "00000000".toList) []
          (hex (extranonce.take 4)) (hex (extranonce.drop 4)) (hex (leBytes 8 t.toUInt64)) =
            .ok header ∧
        (header.toList.drop 32).take 8 = List.replicate 8 0) ∧
    ∀ prev c1 c2 en1 en2 time, (∃ header, siaWork prev c1 c2 en1 en2 time = .ok header) ↔
      ∃ p a e1 e2 t, SiaFields prev c1 c2 en1 en2 time p a e1 e2 t := by
  refine ⟨?_, ?_⟩
  · intro hidden commitment extranonce t hhidden hextra
    have hpadded : (List.replicate 3 0 ++ commitment.toList ++ List.replicate 4 (0 : UInt8)).length =
        39 := by simp
    have hsplit : (extranonce.take 4).length + (extranonce.drop 4).length = 12 := by
      rw [List.length_take, List.length_drop, hextra]
      rfl
    have hfields := SiaFields.mk (unhex_hex hidden.toList) (unhex_padded commitment.toList)
      (rfl : unhex [] = .ok []) (unhex_hex (extranonce.take 4)) (unhex_hex (extranonce.drop 4))
      (unhex_hex (leBytes 8 t.toUInt64)) Vector.length_toList hpadded hsplit (leBytes_length _ _)
    obtain ⟨header, hheader⟩ := siaHeader_total (p := hidden.toList)
      (t := leBytes 8 t.toUInt64) hpadded hsplit
    obtain ⟨root, hroot, hlist⟩ :=
      siaHeader_toList Vector.length_toList (leBytes_length _ _) hheader
    refine ⟨header, ?_, siaWork_iff.mpr ⟨_, _, _, _, _, hfields, hheader⟩, ?_⟩
    · have hleaf : List.replicate 4 0 ++ commitment.toList ++ List.replicate 4 0 ++ extranonce =
          [0] ++ (List.replicate 3 0 ++ commitment.toList ++ List.replicate 4 0) ++
            extranonce.take 4 ++ extranonce.drop 4 := by
        rw [List.append_assoc _ (extranonce.take 4), List.take_append_drop]
        simp [List.replicate_succ]
      rw [standardWork, if_neg (by simp [hextra, hhidden])]
      dsimp only
      rw [hleaf, hroot, ok_bind]
      refine congrArg Except.ok (Vector.toList_inj.mp ?_)
      rw [workHeader_toList, hlist, copyTo_toList _ _ _ (by simp)]
      simp [List.take_append]
    · rw [hlist]
      simp [List.take_append]
  · intro prev c1 c2 en1 en2 time
    constructor
    · rintro ⟨header, h⟩
      obtain ⟨p, a, e1, e2, t, hfields, -⟩ := siaWork_iff.mp h
      exact ⟨p, a, e1, e2, t, hfields⟩
    · rintro ⟨p, a, e1, e2, t, hfields⟩
      obtain ⟨header, hheader⟩ := siaHeader_total (p := p) (t := t) hfields.c1Size hfields.extraSize
      exact ⟨header, siaWork_iff.mpr ⟨p, a, e1, e2, t, hfields, hheader⟩⟩

end Supryolo
