import CSearch.Basic.Utf8

set_option autoImplicit false

/-! # Texts in UTF-16 and UTF-8

A text in UTF-16 has one code unit for most characters and two surrogates for the others. `decode`
reads any units, and takes U+FFFD for a surrogate without its partner; what `encode` has written comes
back (`decode_encode`). `Utf8.read` reads any bytes as UTF-8, and takes U+FFFD for a byte that begins
no character.

Zero stands for the character zero and for nothing else, so strings that end with a zero can be
converted.
-/

namespace CSearch

open String (utf8EncodeChar)

/-- U+FFFD. -/
def replacement : Char := Char.ofNat 0xFFFD

theorem toNat_ofNat {n : Nat} (h : n.isValidChar) : (Char.ofNat n).toNat = n := by
  rw [Char.ofNat, dif_pos h]
  rfl

theorem ofNat_ne_zero {n : Nat} (h : n.isValidChar) (hn : n ≠ 0) : Char.ofNat n ≠ Char.ofNat 0 := by
  intro heq
  have hnat := congrArg Char.toNat heq
  rw [toNat_ofNat h] at hnat
  exact hn hnat

theorem toNat_ne_zero {text : List Char} (h : Char.ofNat 0 ∉ text) {c : Char} (hc : c ∈ text) :
    c.toNat ≠ 0 := by
  intro h0
  rw [← Char.ofNat_toNat c, h0] at hc
  exact h hc

namespace Utf16

/-- The code units of a character. -/
def encodeChar (c : Char) : List UInt16 :=
  if c.toNat < 0x10000 then [UInt16.ofNat c.toNat]
  else [UInt16.ofNat (0xD800 + (c.toNat - 0x10000) / 0x400),
    UInt16.ofNat (0xDC00 + (c.toNat - 0x10000) % 0x400)]

def encode (text : List Char) : List UInt16 := text.flatMap encodeChar

/-- The first of two surrogates. -/
def IsLead (u : UInt16) : Prop := 0xD800 ≤ u.toNat ∧ u.toNat < 0xDC00

/-- The second of two surrogates. -/
def IsTrail (u : UInt16) : Prop := 0xDC00 ≤ u.toNat ∧ u.toNat < 0xE000

instance (u : UInt16) : Decidable (IsLead u) := inferInstanceAs (Decidable (_ ∧ _))

instance (u : UInt16) : Decidable (IsTrail u) := inferInstanceAs (Decidable (_ ∧ _))

/-- The character of one unit. -/
def charOf (u : UInt16) : Char := if IsLead u ∨ IsTrail u then replacement else Char.ofNat u.toNat

/-- The character of two surrogates. -/
def pairOf (u v : UInt16) : Char :=
  Char.ofNat (0x10000 + (u.toNat - 0xD800) * 0x400 + (v.toNat - 0xDC00))

def decode : List UInt16 → List Char
  | [] => []
  | [u] => [charOf u]
  | u :: v :: rest =>
      if IsLead u ∧ IsTrail v then pairOf u v :: decode rest else charOf u :: decode (v :: rest)

theorem decode_cons {u : UInt16} (h : ¬ IsLead u) (rest : List UInt16) :
    decode (u :: rest) = charOf u :: decode rest := by
  cases rest with
  | nil => rfl
  | cons v rest => rw [decode, if_neg (fun h' => h h'.1)]

/-- A character is read back. -/
theorem decode_encodeChar_append (c : Char) (rest : List UInt16) :
    decode (encodeChar c ++ rest) = c :: decode rest := by
  have hscalar := Utf8.scalar c
  rw [encodeChar]
  split
  · next hlt =>
    have hnat : (UInt16.ofNat c.toNat).toNat = c.toNat := UInt16.toNat_ofNat_of_lt' hlt
    have hlead : ¬ IsLead (UInt16.ofNat c.toNat) := by
      rw [IsLead, hnat]
      omega
    have htrail : ¬ IsTrail (UInt16.ofNat c.toNat) := by
      rw [IsTrail, hnat]
      omega
    rw [List.singleton_append, decode_cons hlead, charOf, if_neg (not_or.mpr ⟨hlead, htrail⟩), hnat,
      Char.ofNat_toNat]
  · next hge =>
    have hu : (UInt16.ofNat (0xD800 + (c.toNat - 0x10000) / 0x400)).toNat
        = 0xD800 + (c.toNat - 0x10000) / 0x400 :=
      UInt16.toNat_ofNat_of_lt' (show _ < 65536 by omega)
    have hv : (UInt16.ofNat (0xDC00 + (c.toNat - 0x10000) % 0x400)).toNat
        = 0xDC00 + (c.toNat - 0x10000) % 0x400 :=
      UInt16.toNat_ofNat_of_lt' (show _ < 65536 by omega)
    have hsum : 0x10000 + (0xD800 + (c.toNat - 0x10000) / 0x400 - 0xD800) * 0x400
        + (0xDC00 + (c.toNat - 0x10000) % 0x400 - 0xDC00) = c.toNat := by omega
    rw [List.cons_append, List.singleton_append, decode, if_pos, pairOf, hu, hv, hsum,
      Char.ofNat_toNat]
    rw [IsLead, IsTrail, hu, hv]
    omega

theorem decode_encode (text : List Char) : decode (encode text) = text := by
  induction text with
  | nil => rfl
  | cons c text ih =>
      rw [encode, List.flatMap_cons, decode_encodeChar_append]
      exact congrArg (c :: ·) ih

theorem charOf_ne_zero {u : UInt16} (h : u ≠ 0) : charOf u ≠ Char.ofNat 0 := by
  rw [charOf]
  split
  · decide
  · next hpair =>
    have hlt : u.toNat < 65536 := u.toNat_lt
    rw [IsLead, IsTrail] at hpair
    refine ofNat_ne_zero (show _ ∨ _ by omega) (fun h0 => h (UInt16.toNat_inj.mp h0))

theorem pairOf_ne_zero {u v : UInt16} (hu : IsLead u) (hv : IsTrail v) :
    pairOf u v ≠ Char.ofNat 0 := by
  obtain ⟨hu1, hu2⟩ := hu
  obtain ⟨hv1, hv2⟩ := hv
  exact ofNat_ne_zero (Or.inr ⟨by omega, by omega⟩) (by omega)

theorem zero_not_mem_decode {us : List UInt16} (h : 0 ∉ us) : Char.ofNat 0 ∉ decode us := by
  fun_induction decode us with
  | case1 => exact List.not_mem_nil
  | case2 u =>
      rw [List.mem_singleton]
      exact (charOf_ne_zero (fun h0 => h (List.mem_singleton.mpr h0.symm))).symm
  | case3 u v rest hpair ih =>
      rw [List.mem_cons, List.mem_cons, not_or, not_or] at h
      exact List.not_mem_cons_of_ne_of_not_mem (pairOf_ne_zero hpair.1 hpair.2).symm (ih h.2.2)
  | case4 u v rest hpair ih =>
      rw [List.mem_cons, not_or] at h
      exact List.not_mem_cons_of_ne_of_not_mem (charOf_ne_zero (Ne.symm h.1)).symm (ih h.2)

theorem zero_not_mem_encode {text : List Char} (h : Char.ofNat 0 ∉ text) : 0 ∉ encode text := by
  intro hmem
  obtain ⟨c, hc, hu⟩ := List.mem_flatMap.mp hmem
  have hscalar := Utf8.scalar c
  have hne := toNat_ne_zero h hc
  -- no unit of another character is zero
  rw [encodeChar] at hu
  split at hu
  · rw [List.mem_singleton, ← UInt16.toNat_inj, UInt16.toNat_ofNat_of_lt' (by assumption)] at hu
    exact hne hu.symm
  · rw [List.mem_cons, List.mem_singleton, ← UInt16.toNat_inj, ← UInt16.toNat_inj,
      UInt16.toNat_ofNat_of_lt' (show _ < 65536 by omega),
      UInt16.toNat_ofNat_of_lt' (show _ < 65536 by omega)] at hu
    have hzero : (0 : UInt16).toNat = 0 := rfl
    omega

end Utf16

namespace Utf8

/-- The characters of some bytes, for as many characters as there is fuel. -/
def readFrom : Nat → List UInt8 → List Char
  | 0, _ => []
  | _ + 1, [] => []
  | fuel + 1, b :: bs =>
      match (b :: bs).toByteArray.utf8DecodeChar? 0 with
      | some c => c :: readFrom fuel ((b :: bs).drop c.utf8Size)
      | none => replacement :: readFrom fuel bs

/-- The characters of some bytes. -/
def read (bs : List UInt8) : List Char := readFrom bs.length bs

theorem zero_not_mem_readFrom (fuel : Nat) {bs : List UInt8} (h : 0 ∉ bs) :
    Char.ofNat 0 ∉ readFrom fuel bs := by
  induction fuel generalizing bs with
  | zero => exact List.not_mem_nil
  | succ fuel ih =>
      cases bs with
      | nil => exact List.not_mem_nil
      | cons b bs =>
          rw [readFrom]
          split
          · next c hc =>
            refine List.not_mem_cons_of_ne_of_not_mem ?_
              (ih (fun hmem => h (List.mem_of_mem_drop hmem)))
            rintro rfl
            -- the byte of the character zero would be the first one
            obtain ⟨rest, hbytes⟩ := ByteArray.exists_of_utf8DecodeChar?_eq_some hc
            have hdata := congrArg (fun a => a.data.toList) hbytes
            simp only [List.data_toByteArray, ByteArray.data_append, Array.toList_append] at hdata
            exact h (by rw [hdata]; exact List.mem_append_left _ (by decide))
          · refine List.not_mem_cons_of_ne_of_not_mem (by decide) (ih ?_)
            exact fun hmem => h (List.mem_cons_of_mem _ hmem)

theorem zero_not_mem_encode {text : List Char} (h : Char.ofNat 0 ∉ text) :
    0 ∉ text.flatMap utf8EncodeChar := by
  intro hmem
  obtain ⟨c, hc, hb⟩ := List.mem_flatMap.mp hmem
  have hne := toNat_ne_zero h hc
  rw [encode_eq, List.mem_cons, List.mem_map] at hb
  rcases hb with hfirst | ⟨i, -, htail⟩
  · rcases size_cases c with ⟨hs, hc'⟩ | ⟨hs, hc'⟩ | ⟨hs, hc'⟩ | ⟨hs, hc'⟩ <;>
      rw [hs, ← UInt8.toNat_inj, UInt8.toNat_ofNat'] at hfirst <;>
      simp [lead] at hfirst <;> omega
  · have hnat := congrArg UInt8.toNat htail
    rw [tail_toNat] at hnat
    exact absurd hnat (by show ¬ _ = 0; omega)

end Utf8

end CSearch
