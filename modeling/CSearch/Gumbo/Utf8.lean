import CSearch.Basic.Utf8
import Mathlib.Data.List.GetD

set_option autoImplicit false

/-! # The UTF-8 decoder of `utf8.c`

The parser reads a page as UTF-8, with an automaton in a table (`utf8d`) that takes one byte at a
time. The states of the automaton are named here by what they wait for (`Phase`), and the table is
compared with these names once (`decode_eq`).

What the automaton has read is the beginning of a character (`Reads`). So it accepts the characters
and nothing else, and it rejects a byte as soon as no character can come of it (`Reads.step`).
-/

namespace CSearch.Gumbo

open String (utf8EncodeChar)
open Utf8

/-! ## The functions of the source -/

/-- `UTF8_ACCEPT`. -/
def utf8Accept : UInt32 := 0

/-- `UTF8_REJECT`. -/
def utf8Reject : UInt32 := 12

/-- The first part of `utf8d`, which maps bytes to character classes. -/
def utf8dClasses : List UInt8 :=
  [0, 0, 0, 0, 0, 0, 0, 0, 0, 0, 0, 0, 0, 0, 0, 0, 0, 0, 0, 0, 0, 0, 0, 0, 0, 0, 0, 0, 0, 0, 0, 0,
   0, 0, 0, 0, 0, 0, 0, 0, 0, 0, 0, 0, 0, 0, 0, 0, 0, 0, 0, 0, 0, 0, 0, 0, 0, 0, 0, 0, 0, 0, 0, 0,
   0, 0, 0, 0, 0, 0, 0, 0, 0, 0, 0, 0, 0, 0, 0, 0, 0, 0, 0, 0, 0, 0, 0, 0, 0, 0, 0, 0, 0, 0, 0, 0,
   0, 0, 0, 0, 0, 0, 0, 0, 0, 0, 0, 0, 0, 0, 0, 0, 0, 0, 0, 0, 0, 0, 0, 0, 0, 0, 0, 0, 0, 0, 0, 0,
   1, 1, 1, 1, 1, 1, 1, 1, 1, 1, 1, 1, 1, 1, 1, 1, 9, 9, 9, 9, 9, 9, 9, 9, 9, 9, 9, 9, 9, 9, 9, 9,
   7, 7, 7, 7, 7, 7, 7, 7, 7, 7, 7, 7, 7, 7, 7, 7, 7, 7, 7, 7, 7, 7, 7, 7, 7, 7, 7, 7, 7, 7, 7, 7,
   8, 8, 2, 2, 2, 2, 2, 2, 2, 2, 2, 2, 2, 2, 2, 2, 2, 2, 2, 2, 2, 2, 2, 2, 2, 2, 2, 2, 2, 2, 2, 2,
   10, 3, 3, 3, 3, 3, 3, 3, 3, 3, 3, 3, 3, 4, 3, 3, 11, 6, 6, 6, 5, 8, 8, 8, 8, 8, 8, 8, 8, 8, 8,
   8]

/-- The second part of `utf8d`, which maps a state and a class to a state. -/
def utf8dStates : List UInt8 :=
  [0, 12, 24, 36, 60, 96, 84, 12, 12, 12, 48, 72, 12, 12, 12, 12, 12, 12, 12, 12, 12, 12, 12, 12,
   12, 0, 12, 12, 12, 12, 12, 0, 12, 0, 12, 12, 12, 24, 12, 12, 12, 12, 12, 24, 12, 24, 12, 12,
   12, 12, 12, 12, 12, 12, 12, 24, 12, 12, 12, 12, 12, 24, 12, 12, 12, 12, 12, 12, 12, 24, 12, 12,
   12, 12, 12, 12, 12, 12, 12, 36, 12, 36, 12, 12, 12, 36, 12, 12, 12, 12, 12, 36, 12, 36, 12, 12,
   12, 36, 12, 12, 12, 12, 12, 12, 12, 12, 12, 12]

/-- `utf8d`. -/
def utf8d : List UInt8 := utf8dClasses ++ utf8dStates

/-- `decode`: the state and the code point behind the byte. -/
def decode (state codep : UInt32) (byte : UInt8) : UInt32 × UInt32 :=
  let type := (utf8d.getD byte.toNat 0).toUInt32
  let codep : UInt32 :=
    if state ≠ utf8Accept then (byte.toUInt32 &&& (0x3f : UInt32)) ||| (codep <<< 6)
    else ((0xff : UInt32) >>> type) &&& byte.toUInt32
  ((utf8d.getD (256 + state + type).toNat 0).toUInt32, codep)

/-- `utf8_is_invalid_code_point`. -/
def isInvalidCodePoint (c : Int) : Bool :=
  decide ((0x1 ≤ c ∧ c ≤ 0x8) ∨ c = 0xB ∨ (0xE ≤ c ∧ c ≤ 0x1F) ∨ (0x7F ≤ c ∧ c ≤ 0x9F)
    ∨ (0xFDD0 ≤ c ∧ c ≤ 0xFDEF) ∨ c % 0x10000 = 0xFFFE ∨ c % 0x10000 = 0xFFFF)

/-! ## The states of the automaton -/

/-- What the automaton waits for: a character, one to three bytes more, or a byte of a smaller range
behind one of four first bytes. -/
inductive Phase where
  | accept
  | reject
  | tail1
  | tail2
  | tail3
  | afterE0
  | afterED
  | afterF0
  | afterF4
  deriving DecidableEq, Repr

namespace Phase

/-- The number of a state in the table. -/
def state : Phase → Nat
  | accept => 0
  | reject => 12
  | tail1 => 24
  | tail2 => 36
  | afterE0 => 48
  | afterED => 60
  | afterF0 => 72
  | tail3 => 84
  | afterF4 => 96

/-- How many bytes are missing. -/
def owed : Phase → Nat
  | accept | reject => 0
  | tail1 => 1
  | tail2 | afterE0 | afterED => 2
  | tail3 | afterF0 | afterF4 => 3

/-- A byte between two others leads on. -/
def within (l h b : Nat) (p : Phase) : Phase := if l ≤ b ∧ b ≤ h then p else reject

/-- One byte. -/
def step : Phase → Nat → Phase
  | accept, b =>
      if b < 0x80 then accept
      else if b < 0xC2 then reject
      else if b < 0xE0 then tail1
      else if b = 0xE0 then afterE0
      else if b = 0xED then afterED
      else if b < 0xF0 then tail2
      else if b = 0xF0 then afterF0
      else if b < 0xF4 then tail3
      else if b = 0xF4 then afterF4
      else reject
  | reject, _ => reject
  | tail1, b => within 0x80 0xBF b accept
  | tail2, b => within 0x80 0xBF b tail1
  | tail3, b => within 0x80 0xBF b tail2
  | afterE0, b => within 0xA0 0xBF b tail1
  | afterED, b => within 0x80 0x9F b tail1
  | afterF0, b => within 0x90 0xBF b tail2
  | afterF4, b => within 0x80 0x8F b tail2

end Phase

/-! ## The table -/

/-- The class of a byte. -/
def byteClass (b : Nat) : Nat :=
  if b < 0x80 then 0
  else if b < 0x90 then 1
  else if b < 0xA0 then 9
  else if b < 0xC0 then 7
  else if b < 0xC2 then 8
  else if b < 0xE0 then 2
  else if b = 0xE0 then 10
  else if b = 0xED then 4
  else if b < 0xF0 then 3
  else if b = 0xF0 then 11
  else if b < 0xF4 then 6
  else if b = 0xF4 then 5
  else 8

theorem utf8dClasses_eq : utf8dClasses.map UInt8.toNat = (List.range 256).map byteClass := by
  decide +kernel

/-- A byte of every class. -/
def classByte (k : Nat) : Nat :=
  [0x00, 0x80, 0xC2, 0xE1, 0xED, 0xF4, 0xF1, 0xA0, 0xC0, 0x90, 0xE0, 0xF0].getD k 0

theorem utf8dStates_eq (p : Phase) : ∀ k < 12,
    (utf8dStates.getD (p.state + k) 0).toNat = (p.step (classByte k)).state := by
  cases p <;> decide +kernel

/-- A state treats all bytes of a class alike. -/
theorem step_classByte (p : Phase) : ∀ b < 256, p.step (classByte (byteClass b)) = p.step b := by
  cases p <;> decide +kernel

/-- The bits of a first byte. -/
def firstBits (b : Nat) : Nat := b - lead ((Phase.accept.step b).owed + 1)

theorem firstBits_eq : ∀ b < 256, Phase.accept.step b ≠ .reject →
    ((0xff : UInt32) >>> UInt32.ofNat (byteClass b)) &&& UInt32.ofNat b = UInt32.ofNat (firstBits b) := by
  decide +kernel

theorem utf8dClasses_length : utf8dClasses.length = 256 := by decide +kernel

theorem byteClass_lt : ∀ b < 256, byteClass b < 12 := by decide +kernel

theorem getD_utf8d_class (b : UInt8) : (utf8d.getD b.toNat 0).toNat = byteClass b.toNat := by
  have hlt := b.toNat_lt
  have hget : (utf8dClasses.map UInt8.toNat)[b.toNat]? = some (byteClass b.toNat) := by
    rw [utf8dClasses_eq, List.getElem?_map, List.getElem?_range hlt, Option.map_some]
  rw [utf8d, List.getD_append _ _ _ _ (by rw [utf8dClasses_length]; exact hlt),
    List.getD_eq_getElem?_getD]
  rw [List.getElem?_map] at hget
  obtain ⟨x, hx, hxb⟩ := Option.map_eq_some_iff.mp hget
  rw [hx, Option.getD_some, hxb]

theorem getD_utf8d_state (p : Phase) (b : UInt8) :
    (utf8d.getD (256 + (p.state + byteClass b.toNat)) 0).toNat = (p.step b.toNat).state := by
  have hle : utf8dClasses.length ≤ 256 + (p.state + byteClass b.toNat) := by
    rw [utf8dClasses_length]
    exact Nat.le_add_right _ _
  rw [utf8d, List.getD_append_right _ _ _ _ hle, utf8dClasses_length, Nat.add_sub_cancel_left,
    utf8dStates_eq p _ (byteClass_lt _ b.toNat_lt), step_classByte p _ b.toNat_lt]

theorem state_eq_accept_iff (p : Phase) : UInt32.ofNat p.state = utf8Accept ↔ p = .accept := by
  cases p <;> decide

theorem state_eq_reject_iff (p : Phase) : UInt32.ofNat p.state = utf8Reject ↔ p = .reject := by
  cases p <;> decide

theorem state_le (p : Phase) : p.state ≤ 96 := by cases p <;> decide

theorem decode_fst (p : Phase) (codep : UInt32) (b : UInt8) :
    (decode (UInt32.ofNat p.state) codep b).1 = UInt32.ofNat (p.step b.toNat).state := by
  have hlt := byteClass_lt _ b.toNat_lt
  have hp := state_le p
  have hp' := state_le (p.step b.toNat)
  have hindex : (256 + UInt32.ofNat p.state + (utf8d.getD b.toNat 0).toUInt32).toNat
      = 256 + (p.state + byteClass b.toNat) := by
    rw [UInt32.toNat_add, UInt32.toNat_add, UInt8.toNat_toUInt32, getD_utf8d_class,
      UInt32.toNat_ofNat_of_lt' (show p.state < 2 ^ 32 by omega),
      show UInt32.toNat 256 = 256 from rfl]
    omega
  show (utf8d.getD (256 + UInt32.ofNat p.state + (utf8d.getD b.toNat 0).toUInt32).toNat 0).toUInt32 = _
  rw [hindex, ← UInt32.toNat_inj, UInt8.toNat_toUInt32, getD_utf8d_state,
    UInt32.toNat_ofNat_of_lt' (show (p.step b.toNat).state < 2 ^ 32 by omega)]

theorem decode_snd_accept (codep : UInt32) {b : UInt8} (h : Phase.accept.step b.toNat ≠ .reject) :
    (decode utf8Accept codep b).2 = UInt32.ofNat (firstBits b.toNat) := by
  have hclass : (utf8d.getD b.toNat 0).toUInt32 = UInt32.ofNat (byteClass b.toNat) := by
    rw [← getD_utf8d_class, ← UInt32.toNat_inj, UInt8.toNat_toUInt32, UInt32.toNat_ofNat_of_lt']
    exact Nat.lt_trans (UInt8.toNat_lt _) (by decide)
  have hbyte : b.toUInt32 = UInt32.ofNat b.toNat := by
    rw [← UInt32.toNat_inj, UInt8.toNat_toUInt32, UInt32.toNat_ofNat_of_lt']
    exact Nat.lt_trans b.toNat_lt (by decide)
  unfold decode
  dsimp only
  rw [if_neg (not_not_intro rfl), hclass, hbyte, firstBits_eq _ b.toNat_lt h]

/-- A byte more shifts the bits by six. -/
theorem decode_snd {state : UInt32} (hs : state ≠ utf8Accept) {codep : UInt32}
    (hc : codep.toNat < 2 ^ 26) {b : UInt8} (hb : 0x80 ≤ b.toNat ∧ b.toNat < 0xC0) :
    (decode state codep b).2.toNat = 64 * codep.toNat + (b.toNat - 0x80) := by
  have hlow : (b.toUInt32 &&& 0x3f).toNat = b.toNat - 0x80 := by
    rw [UInt32.toNat_and, UInt8.toNat_toUInt32, show UInt32.toNat 0x3f = 2 ^ 6 - 1 from rfl,
      Nat.and_two_pow_sub_one_eq_mod]
    omega
  have hhigh : (codep <<< 6).toNat = codep.toNat <<< 6 := by
    rw [UInt32.toNat_shiftLeft, show UInt32.toNat 6 % 32 = 6 from rfl, Nat.mod_eq_of_lt]
    rw [Nat.shiftLeft_eq]
    omega
  unfold decode
  dsimp only
  rw [if_pos hs, UInt32.toNat_or, hlow, hhigh, Nat.or_comm,
    ← Nat.shiftLeft_add_eq_or_of_lt (show b.toNat - 0x80 < 2 ^ 6 by omega), Nat.shiftLeft_eq]
  omega

/-! ## What has been read -/

namespace Phase

/-- The bits `v` of the first `n` bytes can come before what a state waits for: any bytes that it
waits for make a character; or there was a certain first byte. -/
def Fits (n v : Nat) : Phase → Prop
  | reject => False
  | afterE0 => n = 1 ∧ v = 0x0
  | afterED => n = 1 ∧ v = 0xD
  | afterF0 => n = 1 ∧ v = 0x0
  | afterF4 => n = 1 ∧ v = 0x4
  | p => ∀ u, u / 64 ^ p.owed = v → IsChar (n + p.owed) u

/-- **The automaton has read the bytes `l`** of a character that is not complete yet, and their bits
are `v`. -/
structure Reads (p : Phase) (l : List UInt8) (v : Nat) : Prop where
  spelled : Spelled l p.owed v
  ne : l ≠ []
  pending : 0 < p.owed
  fits : p.Fits l.length v

section

variable {p : Phase} {l : List UInt8} {v : Nat} {b : UInt8}

/-- There is such a character. -/
theorem Reads.begins (h : p.Reads l v) : Begins l := by
  have hfits := h.fits
  have hpos := h.pending
  have hchar : ∀ u, IsChar (l.length + p.owed) u → u / 64 ^ p.owed = v → Begins l := by
    rintro u ⟨c, rfl, hsize⟩ hu
    exact ⟨c, (h.spelled c).mpr ⟨hsize, hu⟩⟩
  have hall : (∀ u, u / 64 ^ p.owed = v → IsChar (l.length + p.owed) u) → Begins l := by
    intro hu
    have hdiv : v * 64 ^ p.owed / 64 ^ p.owed = v := Nat.mul_div_cancel _ (Nat.pow_pos (by decide))
    exact hchar _ (hu _ hdiv) hdiv
  cases p with
  | accept => exact absurd hpos (Nat.lt_irrefl 0)
  | reject => exact hfits.elim
  | tail1 => exact hall hfits
  | tail2 => exact hall hfits
  | tail3 => exact hall hfits
  | afterE0 =>
      obtain ⟨hn, rfl⟩ := hfits
      rw [hn] at hchar
      exact hchar 0x800 (isChar_of_scalar (by decide)) (by decide)
  | afterED =>
      obtain ⟨hn, rfl⟩ := hfits
      rw [hn] at hchar
      exact hchar 0xD000 (isChar_of_scalar (by decide)) (by decide)
  | afterF0 =>
      obtain ⟨hn, rfl⟩ := hfits
      rw [hn] at hchar
      exact hchar 0x10000 (isChar_of_scalar (by decide)) (by decide)
  | afterF4 =>
      obtain ⟨hn, rfl⟩ := hfits
      rw [hn] at hchar
      exact hchar 0x100000 (isChar_of_scalar (by decide)) (by decide)

/-- It is not complete. -/
theorem Reads.ne_encode (h : p.Reads l v) (c : Char) : l ≠ utf8EncodeChar c := by
  rintro rfl
  have hsize := ((h.spelled c).mp (List.prefix_refl _)).1
  have hpos := h.pending
  rw [length_encode] at hsize
  omega

theorem Reads.concat (h : p.Reads l v) (hb : 0x80 ≤ b.toNat ∧ b.toNat < 0xC0) :
    Spelled (l ++ [b]) (p.owed - 1) (64 * v + (b.toNat - 0x80)) := by
  have hpos := h.pending
  have hspelled := h.spelled
  rw [show p.owed = p.owed - 1 + 1 by omega] at hspelled
  exact hspelled.concat h.ne hb

theorem Reads.not_concat (h : p.Reads l v) (hb : ¬ (0x80 ≤ b.toNat ∧ b.toNat < 0xC0)) :
    ¬ Begins (l ++ [b]) := by
  have hpos := h.pending
  have hspelled := h.spelled
  rw [show p.owed = p.owed - 1 + 1 by omega] at hspelled
  exact hspelled.not_concat h.ne hb

/-- The next state has read a byte more. -/
theorem Reads.next (h : p.Reads l v) {q : Phase} (hq : q.owed = p.owed - 1) (hpos : 0 < q.owed)
    (hb : 0x80 ≤ b.toNat ∧ b.toNat < 0xC0)
    (hfits : q.Fits (l.length + 1) (64 * v + (b.toNat - 0x80))) :
    q.Reads (l ++ [b]) (64 * v + (b.toNat - 0x80)) := by
  refine ⟨?_, by simp, hpos, ?_⟩
  · rw [hq]
    exact h.concat hb
  · rw [List.length_append, List.length_singleton]
    exact hfits

/-- What the state `q` behind the byte `b` says. -/
inductive Outcome (l : List UInt8) (v : Nat) (b : UInt8) : Phase → Prop where
  | accept (c : Char) (hc : utf8EncodeChar c = l ++ [b]) (hv : c.toNat = 64 * v + (b.toNat - 0x80))
      (hb : 0x80 ≤ b.toNat ∧ b.toNat < 0xC0) : Outcome l v b .accept
  | reject (h : ¬ Begins (l ++ [b])) : Outcome l v b .reject
  | more {q : Phase} (h : q.Reads (l ++ [b]) (64 * v + (b.toNat - 0x80)))
      (hb : 0x80 ≤ b.toNat ∧ b.toNat < 0xC0) : Outcome l v b q

/-- Six bits less. -/
theorem bits_div {u k v x : Nat} (hx : x < 64) (h : u / 64 ^ k = 64 * v + x) : u / 64 ^ (k + 1) = v := by
  rw [Nat.pow_succ, ← Nat.div_div_eq_div_mul, h]
  omega

/-- A byte for a state that waits for two or more. The range it waits for is that of the bytes that can
follow. -/
theorem Reads.step_within (h : p.Reads l v) {q : Phase} {x y : Nat} (hx : 0x80 ≤ x) (hy : y < 0xC0)
    (hq : q.owed = p.owed - 1) (hpos : 0 < q.owed)
    (hfits : ∀ w, x ≤ w + 0x80 → w + 0x80 ≤ y → q.Fits (l.length + 1) (64 * v + w))
    (hnext : ∀ c : Char, c.utf8Size = l.length + p.owed → c.toNat / 64 ^ p.owed = v →
      x ≤ c.toNat / 64 ^ (p.owed - 1) % 64 + 0x80 ∧ c.toNat / 64 ^ (p.owed - 1) % 64 + 0x80 ≤ y) :
    Outcome l v b (within x y b.toNat q) := by
  by_cases hb : x ≤ b.toNat ∧ b.toNat ≤ y
  · rw [within, if_pos hb]
    have hb' : 0x80 ≤ b.toNat ∧ b.toNat < 0xC0 := by omega
    exact .more (h.next hq hpos hb' (hfits _ (by omega) (by omega))) hb'
  · rw [within, if_neg hb]
    by_cases hb' : 0x80 ≤ b.toNat ∧ b.toNat < 0xC0
    · refine .reject (fun ⟨c, hc⟩ => ?_)
      obtain ⟨hsize, hbits⟩ := (h.spelled c).mp ((List.prefix_append l [b]).trans hc)
      obtain ⟨-, hbits'⟩ := (h.concat hb' c).mp hc
      have hrange := hnext c hsize hbits
      omega
    · exact .reject (h.not_concat hb')

/-- **One byte.** -/
theorem Reads.step (h : p.Reads l v) (b : UInt8) : Outcome l v b (p.step b.toNat) := by
  have hfits := h.fits
  have hpos := h.pending
  cases p with
  | accept => exact absurd hpos (Nat.lt_irrefl 0)
  | reject => exact hfits.elim
  | tail1 =>
      by_cases hb : 0x80 ≤ b.toNat ∧ b.toNat < 0xC0
      · rw [Phase.step, within, if_pos (by omega)]
        have hchar : IsChar (l ++ [b]).length (64 * v + (b.toNat - 0x80)) := by
          rw [List.length_append]
          exact hfits _ (bits_div (k := 0) (show b.toNat - 0x80 < 64 by omega) (Nat.div_one _))
        obtain ⟨c, hc, hv⟩ := (h.concat hb).eq_encode hchar
        exact .accept c hc hv hb
      · rw [Phase.step, within, if_neg (by omega)]
        exact .reject (h.not_concat hb)
  | tail2 =>
      refine h.step_within (by decide) (by decide) rfl (by decide) ?_ (fun c _ _ => by omega)
      intro w _ hw u hu
      exact hfits u (bits_div (show w < 64 by omega) hu)
  | tail3 =>
      refine h.step_within (by decide) (by decide) rfl (by decide) ?_ (fun c _ _ => by omega)
      intro w _ hw u hu
      exact hfits u (bits_div (show w < 64 by omega) hu)
  | afterE0 =>
      obtain ⟨hn, rfl⟩ := hfits
      refine h.step_within (by decide) (by decide) rfl (by decide) ?_ ?_
      · intro w hx hy u hu
        rw [hn]
        simp only [owed] at hu
        exact isChar_three (by omega) (by omega)
      · intro c hsize hbits
        have hcases := size_cases c
        simp only [owed] at hsize hbits ⊢
        omega
  | afterED =>
      obtain ⟨hn, rfl⟩ := hfits
      refine h.step_within (by decide) (by decide) rfl (by decide) ?_ ?_
      · intro w hx hy u hu
        rw [hn]
        simp only [owed] at hu
        exact isChar_three (by omega) (by omega)
      · intro c hsize hbits
        have hscalar := scalar c
        simp only [owed] at hbits ⊢
        omega
  | afterF0 =>
      obtain ⟨hn, rfl⟩ := hfits
      refine h.step_within (by decide) (by decide) rfl (by decide) ?_ ?_
      · intro w hx hy u hu
        rw [hn]
        simp only [owed] at hu
        exact isChar_four (by omega)
      · intro c hsize hbits
        have hcases := size_cases c
        simp only [owed] at hsize hbits ⊢
        omega
  | afterF4 =>
      obtain ⟨hn, rfl⟩ := hfits
      refine h.step_within (by decide) (by decide) rfl (by decide) ?_ ?_
      · intro w hx hy u hu
        rw [hn]
        simp only [owed] at hu
        exact isChar_four (by omega)
      · intro c hsize hbits
        have hscalar := scalar c
        simp only [owed] at hbits ⊢
        omega

end

/-- What the state `q` behind the first byte `b` says. -/
inductive FirstOutcome (b : UInt8) : Phase → Prop where
  | accept (c : Char) (hc : utf8EncodeChar c = [b]) (hv : c.toNat = b.toNat) : FirstOutcome b .accept
  | reject (h : ¬ Begins [b]) : FirstOutcome b .reject
  | more {q : Phase} (h : q.Reads [b] (firstBits b.toNat)) : FirstOutcome b q

/-- A first byte that others have to follow. -/
theorem reads_first {b : UInt8} {q : Phase} (hq : accept.step b.toNat = q) (hpos : 0 < q.owed)
    (hlead : lead (q.owed + 1) ≤ b.toNat ∧ b.toNat < leadEnd (q.owed + 1))
    (hfits : q.Fits 1 (b.toNat - lead (q.owed + 1))) :
    FirstOutcome b (accept.step b.toNat) := by
  have howed : q.owed < 4 := by cases q <;> decide
  refine .more ?_
  rw [firstBits, hq]
  exact ⟨spelled_first howed hlead, List.cons_ne_nil _ _, hpos, hfits⟩

/-- A first byte. -/
theorem step_first (b : UInt8) : FirstOutcome b (accept.step b.toNat) := by
  by_cases h1 : b.toNat < 0x80
  · rw [step, if_pos h1]
    obtain ⟨c, hc, hv⟩ := (spelled_first (n := 0) (by decide) ⟨Nat.zero_le _, h1⟩).eq_encode
      (isChar_one h1)
    exact .accept c hc hv
  by_cases h2 : b.toNat < 0xC2
  · rw [step, if_neg h1, if_pos h2]
    exact .reject (not_begins_first (Or.inl ⟨by omega, h2⟩))
  by_cases h3 : b.toNat < 0xE0
  · refine reads_first (q := tail1) (by rw [step, if_neg h1, if_neg h2, if_pos h3]) (by decide)
      (show 0xC0 ≤ b.toNat ∧ b.toNat < 0xE0 by omega) (fun u hu => ?_)
    have hu' : u / 64 ^ 1 = b.toNat - 0xC0 := hu
    exact isChar_two (by omega)
  by_cases h4 : b.toNat = 0xE0
  · refine reads_first (q := afterE0) (by rw [h4]; rfl) (by decide) (by rw [h4]; decide) ?_
    rw [h4]
    exact ⟨rfl, rfl⟩
  by_cases h5 : b.toNat = 0xED
  · refine reads_first (q := afterED) (by rw [h5]; rfl) (by decide) (by rw [h5]; decide) ?_
    rw [h5]
    exact ⟨rfl, rfl⟩
  by_cases h6 : b.toNat < 0xF0
  · refine reads_first (q := tail2)
      (by rw [step, if_neg h1, if_neg h2, if_neg h3, if_neg h4, if_neg h5, if_pos h6]) (by decide)
      (show 0xE0 ≤ b.toNat ∧ b.toNat < 0xF0 by omega) (fun u hu => ?_)
    have hu' : u / 64 ^ 2 = b.toNat - 0xE0 := hu
    exact isChar_three (by omega) (by omega)
  by_cases h7 : b.toNat = 0xF0
  · refine reads_first (q := afterF0) (by rw [h7]; rfl) (by decide) (by rw [h7]; decide) ?_
    rw [h7]
    exact ⟨rfl, rfl⟩
  by_cases h8 : b.toNat < 0xF4
  · refine reads_first (q := tail3)
      (by rw [step, if_neg h1, if_neg h2, if_neg h3, if_neg h4, if_neg h5, if_neg h6, if_neg h7,
        if_pos h8]) (by decide) (show 0xF0 ≤ b.toNat ∧ b.toNat < 0xF8 by omega) (fun u hu => ?_)
    have hu' : u / 64 ^ 3 = b.toNat - 0xF0 := hu
    exact isChar_four (by omega)
  by_cases h9 : b.toNat = 0xF4
  · refine reads_first (q := afterF4) (by rw [h9]; rfl) (by decide) (by rw [h9]; decide) ?_
    rw [h9]
    exact ⟨rfl, rfl⟩
  · rw [step, if_neg h1, if_neg h2, if_neg h3, if_neg h4, if_neg h5, if_neg h6, if_neg h7, if_neg h8,
      if_neg h9]
    exact .reject (not_begins_first (Or.inr (by omega)))

end Phase

end CSearch.Gumbo
