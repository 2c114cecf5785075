import Mathlib.Algebra.Group.Nat.Defs
import Mathlib.Data.List.Basic

set_option autoImplicit false

/-! # How characters are spelled

The encoding of a character in UTF-8 is `String.utf8EncodeChar`. A decoder sees it byte by byte, so
what matters is which characters a few bytes can still become. If any do, they are the characters of
one size whose leading bits have one value (`Spelled`), and a further byte adds six bits to that value
(`Spelled.concat`) or ends the matter (`Spelled.not_concat`). The longest beginning of a character is a
function of the bytes (`Longest.unique`).
-/

namespace CSearch.Utf8

open String (utf8EncodeChar)

/-! ## Scalar values -/

theorem scalar (c : Char) :
    c.toNat < 0xD800 ∨ (0xDFFF < c.toNat ∧ c.toNat < 0x110000) := c.valid

theorem size_eq (c : Char) : c.utf8Size = if c.toNat < 0x80 then 1 else if c.toNat < 0x800 then 2
    else if c.toNat < 0x10000 then 3 else 4 := by
  have hle : ∀ n : Nat, n < 2 ^ 32 → (c.val ≤ UInt32.ofNat n ↔ c.toNat < n + 1) := by
    intro n hn
    rw [UInt32.le_iff_toNat_le, UInt32.toNat_ofNat_of_lt' hn]
    exact Nat.lt_succ_iff.symm
  have h1 := hle 127 (by decide)
  have h2 := hle 2047 (by decide)
  have h3 := hle 65535 (by decide)
  show (if c.val ≤ UInt32.ofNat 127 then 1 else if c.val ≤ UInt32.ofNat 2047 then 2
    else if c.val ≤ UInt32.ofNat 65535 then 3 else 4) = _
  simp only [h1, h2, h3]

theorem size_cases (c : Char) : (c.utf8Size = 1 ∧ c.toNat < 0x80)
    ∨ (c.utf8Size = 2 ∧ 0x80 ≤ c.toNat ∧ c.toNat < 0x800)
    ∨ (c.utf8Size = 3 ∧ 0x800 ≤ c.toNat ∧ c.toNat < 0x10000)
    ∨ (c.utf8Size = 4 ∧ 0x10000 ≤ c.toNat ∧ c.toNat < 0x110000) := by
  have hv := scalar c
  rw [size_eq]
  split_ifs <;> omega

/-- The number `u` is a character of size `n`. -/
def IsChar (n u : Nat) : Prop := ∃ c : Char, c.toNat = u ∧ c.utf8Size = n

theorem isChar_of_scalar {u : Nat} (h : u < 0xD800 ∨ (0xDFFF < u ∧ u < 0x110000)) :
    IsChar (if u < 0x80 then 1 else if u < 0x800 then 2 else if u < 0x10000 then 3 else 4) u := by
  have hlt : u < 2 ^ 32 := by omega
  have hval : (UInt32.ofNat u).toNat = u := UInt32.toNat_ofNat_of_lt' hlt
  have hvalid : (UInt32.ofNat u).isValidChar := by
    show (UInt32.ofNat u).toNat.isValidChar
    rw [hval]
    exact h
  have hu : (Char.mk (UInt32.ofNat u) hvalid).toNat = u := hval
  refine ⟨⟨UInt32.ofNat u, hvalid⟩, hu, ?_⟩
  rw [size_eq, hu]

theorem isChar_one {u : Nat} (h : u < 0x80) : IsChar 1 u := by
  have hchar := isChar_of_scalar (u := u) (by omega)
  rwa [if_pos h] at hchar

theorem isChar_two {u : Nat} (h : 0x80 ≤ u ∧ u < 0x800) : IsChar 2 u := by
  have hchar := isChar_of_scalar (u := u) (by omega)
  rwa [if_neg (by omega), if_pos h.2] at hchar

theorem isChar_three {u : Nat} (h : 0x800 ≤ u ∧ u < 0x10000) (hs : u < 0xD800 ∨ 0xDFFF < u) :
    IsChar 3 u := by
  have hchar := isChar_of_scalar (u := u) (by omega)
  rwa [if_neg (by omega), if_neg (by omega), if_pos h.2] at hchar

theorem isChar_four {u : Nat} (h : 0x10000 ≤ u ∧ u < 0x110000) : IsChar 4 u := by
  have hchar := isChar_of_scalar (u := u) (by omega)
  rwa [if_neg (by omega), if_neg (by omega), if_neg (by omega)] at hchar

/-! ## The bytes of a character -/

/-- The marker in the first byte of a character of `n` bytes. -/
def lead (n : Nat) : Nat := if n = 1 then 0 else if n = 2 then 0xC0 else if n = 3 then 0xE0 else 0xF0

/-- The byte of a character that is followed by `k` others. -/
def tail (u k : Nat) : UInt8 := UInt8.ofNat (u / 64 ^ k % 64 + 0x80)

/-- A character is spelled by its leading bits with the marker, and then six bits at a time. -/
theorem encode_eq (c : Char) :
    utf8EncodeChar c = UInt8.ofNat (c.toNat / 64 ^ (c.utf8Size - 1) + lead c.utf8Size)
      :: (List.range (c.utf8Size - 1)).map (fun i => tail c.toNat (c.utf8Size - 2 - i)) := by
  have hv := scalar c
  have hsize := size_eq c
  have hdef : utf8EncodeChar c
      = if c.toNat ≤ 127 then [UInt8.ofNat c.toNat]
        else if c.toNat ≤ 2047 then
          [UInt8.ofNat (c.toNat / 64 % 32 + 192), UInt8.ofNat (c.toNat % 64 + 128)]
        else if c.toNat ≤ 65535 then
          [UInt8.ofNat (c.toNat / 4096 % 16 + 224), UInt8.ofNat (c.toNat / 64 % 64 + 128),
            UInt8.ofNat (c.toNat % 64 + 128)]
        else
          [UInt8.ofNat (c.toNat / 262144 % 8 + 240), UInt8.ofNat (c.toNat / 4096 % 64 + 128),
            UInt8.ofNat (c.toNat / 64 % 64 + 128), UInt8.ofNat (c.toNat % 64 + 128)] := rfl
  rw [hdef]
  by_cases h1 : c.toNat < 0x80
  · rw [if_pos (by omega), hsize, if_pos h1]
    simp [lead]
  by_cases h2 : c.toNat < 0x800
  · rw [if_neg (by omega), if_pos (by omega), hsize, if_neg h1, if_pos h2]
    have hfirst : c.toNat / 64 % 32 = c.toNat / 64 := by omega
    simp [lead, tail, List.range_succ, hfirst]
  by_cases h3 : c.toNat < 0x10000
  · rw [if_neg (by omega), if_neg (by omega), if_pos (by omega), hsize, if_neg h1, if_neg h2,
      if_pos h3]
    have hfirst : c.toNat / 4096 % 16 = c.toNat / 4096 := by omega
    simp [lead, tail, List.range_succ, hfirst]
  · rw [if_neg (by omega), if_neg (by omega), if_neg (by omega), hsize, if_neg h1, if_neg h2,
      if_neg h3]
    have hfirst : c.toNat / 262144 % 8 = c.toNat / 262144 := by omega
    simp [lead, tail, List.range_succ, hfirst]

theorem length_encode (c : Char) : (utf8EncodeChar c).length = c.utf8Size :=
  String.length_utf8EncodeChar c

/-! ## Beginnings of characters -/

/-- The bytes `l` are the beginning of a character. -/
def Begins (l : List UInt8) : Prop := ∃ c, l <+: utf8EncodeChar c

/-- **The characters that begin with the bytes `l`** are those with `owed` bytes more whose bits in
front of these bytes are `v`. -/
def Spelled (l : List UInt8) (owed v : Nat) : Prop :=
  ∀ c : Char, l <+: utf8EncodeChar c ↔ c.utf8Size = l.length + owed ∧ c.toNat / 64 ^ owed = v

theorem concat_prefix_iff {l : List UInt8} {b : UInt8} {c : Char} :
    l ++ [b] <+: utf8EncodeChar c
      ↔ l <+: utf8EncodeChar c ∧ (utf8EncodeChar c)[l.length]? = some b := by
  constructor
  · rintro ⟨t, ht⟩
    rw [← ht, List.append_assoc]
    refine ⟨List.prefix_append _ _, ?_⟩
    rw [List.getElem?_append_right (Nat.le_refl _), Nat.sub_self]
    rfl
  · rintro ⟨⟨t, ht⟩, hb⟩
    rw [← ht, List.getElem?_append_right (Nat.le_refl _), Nat.sub_self] at hb
    obtain ⟨b', t', rfl⟩ : ∃ b' t', t = b' :: t' := by
      cases t with
      | nil => cases hb
      | cons b' t' => exact ⟨b', t', rfl⟩
    rw [List.getElem?_cons_zero, Option.some.injEq] at hb
    rw [← ht, hb]
    exact ⟨t', by rw [List.append_assoc]; rfl⟩

/-- A byte behind the first one. -/
theorem getElem?_encode_succ (c : Char) (i : Nat) (hi : i + 1 < c.utf8Size) :
    (utf8EncodeChar c)[i + 1]? = some (tail c.toNat (c.utf8Size - 2 - i)) := by
  rw [encode_eq, List.getElem?_cons_succ, List.getElem?_map, List.getElem?_range (by omega),
    Option.map_some]

theorem tail_toNat (u k : Nat) : (tail u k).toNat = u / 64 ^ k % 64 + 0x80 := by
  rw [tail, UInt8.toNat_ofNat_of_lt' (show _ < 256 by omega)]

section

variable {l : List UInt8} {owed v : Nat}

/-- The next byte of a character that begins with the bytes `l`. -/
theorem next_iff {c : Char} (hl : l ≠ []) (hsize : c.utf8Size = l.length + (owed + 1)) (b : UInt8) :
    (utf8EncodeChar c)[l.length]? = some b
      ↔ b.toNat = c.toNat / 64 ^ owed % 64 + 0x80 := by
  obtain ⟨i, hi⟩ : ∃ i, l.length = i + 1 :=
    ⟨l.length - 1, (Nat.succ_pred_eq_of_pos (List.length_pos_iff.mpr hl)).symm⟩
  rw [hi, getElem?_encode_succ c i (by omega), Option.some.injEq, ← UInt8.toNat_inj, tail_toNat,
    show c.utf8Size - 2 - i = owed by omega]
  exact eq_comm

/-- A byte more with six bits more. -/
theorem Spelled.concat (h : Spelled l (owed + 1) v) (hl : l ≠ []) {b : UInt8}
    (hb : 0x80 ≤ b.toNat ∧ b.toNat < 0xC0) :
    Spelled (l ++ [b]) owed (64 * v + (b.toNat - 0x80)) := by
  intro c
  have hdiv : c.toNat / 64 ^ (owed + 1) = c.toNat / 64 ^ owed / 64 := by
    rw [Nat.pow_succ, Nat.div_div_eq_div_mul]
  rw [concat_prefix_iff, h c, List.length_append, List.length_singleton, hdiv]
  constructor
  · rintro ⟨⟨hsize, hv⟩, hnext⟩
    rw [next_iff hl hsize] at hnext
    exact ⟨by omega, by omega⟩
  · rintro ⟨hsize, hv⟩
    refine ⟨⟨by omega, by omega⟩, ?_⟩
    rw [next_iff hl (show c.utf8Size = l.length + (owed + 1) by omega)]
    omega

/-- Any other byte cannot follow. -/
theorem Spelled.not_concat (h : Spelled l (owed + 1) v) (hl : l ≠ []) {b : UInt8}
    (hb : ¬ (0x80 ≤ b.toNat ∧ b.toNat < 0xC0)) : ¬ Begins (l ++ [b]) := by
  rintro ⟨c, hc⟩
  obtain ⟨hl', hnext⟩ := concat_prefix_iff.mp hc
  rw [next_iff hl ((h c).mp hl').1] at hnext
  omega

end

/-! ## The first byte -/

/-- The first byte of a character of `n` bytes is less than this. -/
def leadEnd (n : Nat) : Nat :=
  if n = 1 then 0x80 else if n = 2 then 0xE0 else if n = 3 then 0xF0 else 0xF8

theorem singleton_prefix_iff {b : UInt8} {c : Char} :
    [b] <+: utf8EncodeChar c ↔ b.toNat = c.toNat / 64 ^ (c.utf8Size - 1) + lead c.utf8Size := by
  have hlt : c.toNat / 64 ^ (c.utf8Size - 1) + lead c.utf8Size < 256 := by
    rcases size_cases c with ⟨hs, hc⟩ | ⟨hs, hc⟩ | ⟨hs, hc⟩ | ⟨hs, hc⟩ <;> rw [hs] <;>
      simp only [lead, Nat.reduceSub, Nat.reducePow, Nat.reduceEqDiff, if_true, if_false] <;> omega
  rw [encode_eq, List.cons_prefix_cons, ← UInt8.toNat_inj, UInt8.toNat_ofNat_of_lt' hlt]
  exact and_iff_left (List.nil_prefix)

/-- The first byte tells the size of a character. -/
theorem spelled_first {b : UInt8} {n : Nat} (hn : n < 4)
    (hb : lead (n + 1) ≤ b.toNat ∧ b.toNat < leadEnd (n + 1)) :
    Spelled [b] n (b.toNat - lead (n + 1)) := by
  intro c
  rw [singleton_prefix_iff, List.length_singleton]
  have hn' : n = 0 ∨ n = 1 ∨ n = 2 ∨ n = 3 := by omega
  rcases hn' with rfl | rfl | rfl | rfl <;>
    rcases size_cases c with ⟨hs, hc⟩ | ⟨hs, hc⟩ | ⟨hs, hc⟩ | ⟨hs, hc⟩ <;> rw [hs] <;>
      simp [lead, leadEnd] at hb ⊢ <;> omega

/-- No character begins with any other byte. -/
theorem not_begins_first {b : UInt8} (hb : (0x80 ≤ b.toNat ∧ b.toNat < 0xC2) ∨ 0xF5 ≤ b.toNat) :
    ¬ Begins [b] := by
  rintro ⟨c, hc⟩
  rw [singleton_prefix_iff] at hc
  rcases size_cases c with ⟨hs, hc'⟩ | ⟨hs, hc'⟩ | ⟨hs, hc'⟩ | ⟨hs, hc'⟩ <;> rw [hs] at hc <;>
    simp [lead] at hc <;> omega

/-! ## Whole characters -/

/-- With nothing owed, the bytes are a character. -/
theorem Spelled.eq_encode {l : List UInt8} {v : Nat} (h : Spelled l 0 v) (hv : IsChar l.length v) :
    ∃ c, utf8EncodeChar c = l ∧ c.toNat = v := by
  obtain ⟨c, hc, hsize⟩ := hv
  have hstart : l <+: utf8EncodeChar c := (h c).mpr ⟨hsize, (Nat.div_one _).trans hc⟩
  exact ⟨c, (hstart.eq_of_length (by rw [length_encode, hsize])).symm, hc⟩

/-- The first character of a text can be told from its bytes. -/
theorem first_unique {c d : Char} {s t : List UInt8}
    (h : utf8EncodeChar c ++ s = utf8EncodeChar d ++ t) : c = d ∧ s = t := by
  have hdecode := congrArg (fun l => l.toByteArray.utf8DecodeChar? 0) h
  simp only [List.toByteArray_append, ByteArray.utf8DecodeChar?_utf8EncodeChar_append,
    Option.some.injEq] at hdecode
  subst hdecode
  exact ⟨rfl, List.append_cancel_left h⟩

/-! ## The longest beginning of a character -/

section

variable {m m' p bs : List UInt8} {b : UInt8}

theorem Begins.of_prefix (h : Begins m) (hp : p <+: m) : Begins p := by
  obtain ⟨c, hc⟩ := h
  exact ⟨c, hp.trans hc⟩

theorem not_begins_encode_concat (c : Char) (b : UInt8) : ¬ Begins (utf8EncodeChar c ++ [b]) := by
  rintro ⟨d, t, ht⟩
  rw [List.append_assoc] at ht
  have hcancel := first_unique (ht.trans (List.append_nil _).symm)
  exact List.cons_ne_nil b t hcancel.2

/-- How far a character goes that begins with the first bytes of `bs`. -/
structure Longest (m bs : List UInt8) : Prop where
  isPrefix : m <+: bs
  begins : Begins m
  max : ∀ p, p <+: bs → Begins p → p <+: m

theorem Longest.unique (h : Longest m bs) (h' : Longest m' bs) : m = m' :=
  (h'.max m h.isPrefix h.begins).eq_of_length_le (h.max m' h'.isPrefix h'.begins).length_le

theorem longest_self (h : Begins m) : Longest m m := ⟨List.prefix_rfl, h, fun _ hp _ => hp⟩

theorem longest_append (h : Begins m) (hb : ¬ Begins (m ++ [b])) (bs : List UInt8) :
    Longest m (m ++ b :: bs) := by
  refine ⟨List.prefix_append m _, h, fun p hp hbegins => ?_⟩
  rcases List.prefix_or_prefix_of_prefix hp (List.prefix_append m (b :: bs)) with hpm | ⟨t, rfl⟩
  · exact hpm
  · cases t with
    | nil => exact ⟨[], by rw [List.append_nil, List.append_nil]⟩
    | cons x t =>
        -- a longer beginning has the byte that cannot follow
        have hx : x = b := (List.cons_prefix_cons.mp ((List.prefix_append_right_inj m).mp hp)).1
        subst hx
        exact absurd (hbegins.of_prefix ⟨t, by rw [List.append_assoc]; rfl⟩) hb

theorem longest_encode (c : Char) (bs : List UInt8) :
    Longest (utf8EncodeChar c) (utf8EncodeChar c ++ bs) := by
  have hbegins : Begins (utf8EncodeChar c) := ⟨c, List.prefix_rfl⟩
  cases bs with
  | nil =>
      rw [List.append_nil]
      exact longest_self hbegins
  | cons b bs => exact longest_append hbegins (not_begins_encode_concat c b) bs

end

end CSearch.Utf8
