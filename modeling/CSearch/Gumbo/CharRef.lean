import CSearch.Basic.Search
import CSearch.Gumbo.StringBuffer

set_option autoImplicit false

/-! # Character references of `char_ref.c`

`consume_char_ref` stands at an ampersand. It looks at the code point behind it, and reads a number if
that is `#`; names are left to a table, which is a parameter here.

In terms of the code points of the page, a numeric reference is a run of digits, in base 16 behind an
`x`, and perhaps a semicolon (`numericRefAt`). The number is computed with an `int`, so the function is
defined if it is below `2^31`, and then it does what it should (`charRef_refines`). What it returns is
a character in any case, also for the numbers that are none (`numericRef_isChar`).
-/

namespace CSearch.Gumbo

open String (utf8EncodeChar)

/-! ## The functions of the source -/

/-- `kGumboNoChar`. -/
def kGumboNoChar : Int := -1

/-- `kCharReplacements`. -/
def kCharReplacements : List (Int × Int) :=
  [(0x00, 0xfffd), (0x0d, 0x000d), (0x80, 0x20ac), (0x81, 0x0081), (0x82, 0x201A), (0x83, 0x0192),
    (0x84, 0x201E), (0x85, 0x2026), (0x86, 0x2020), (0x87, 0x2021), (0x88, 0x02C6), (0x89, 0x2030),
    (0x8A, 0x0160), (0x8B, 0x2039), (0x8C, 0x0152), (0x8D, 0x008D), (0x8E, 0x017D), (0x8F, 0x008F),
    (0x90, 0x0090), (0x91, 0x2018), (0x92, 0x2019), (0x93, 0x201C), (0x94, 0x201D), (0x95, 0x2022),
    (0x96, 0x2013), (0x97, 0x2014), (0x98, 0x02DC), (0x99, 0x2122), (0x9A, 0x0161), (0x9B, 0x203A),
    (0x9C, 0x0153), (0x9D, 0x009D), (0x9E, 0x017E), (0x9F, 0x0178)]

/-- `parse_digit`. -/
def parseDigit (c : Int) (allowHex : Bool) : Int :=
  if 0x30 ≤ c ∧ c ≤ 0x39 then c - 0x30
  else if allowHex = true ∧ 0x61 ≤ c ∧ c ≤ 0x66 then c - 0x61 + 10
  else if allowHex = true ∧ 0x41 ≤ c ∧ c ≤ 0x46 then c - 0x41 + 10
  else -1

/-- `maybe_replace_codepoint`. -/
def maybeReplaceCodepoint (codepoint : Int) : Int :=
  match kCharReplacements.find? (fun r => r.1 = codepoint) with
  | some r => r.2
  | none => -1

namespace Utf8Iterator

/-- `gumbo_add_error` and `utf8iterator_fill_error_at_mark`. -/
def addErrorAtMark (it : Utf8Iterator) (type : ErrorType) (codepoint : Option UInt64) :
    Utf8Iterator :=
  { it with parser := it.parser.addError ⟨type, it.markPos, it.mark, codepoint⟩ }

/-- `add_no_digit_error`. -/
def addNoDigitError (it : Utf8Iterator) : Utf8Iterator :=
  it.addErrorAtMark .numericCharRefNoDigits none

/-- `add_codepoint_error`. -/
def addCodepointError (it : Utf8Iterator) (type : ErrorType) (codepoint : Int) : Utf8Iterator :=
  it.addErrorAtMark type (some (UInt64.ofInt codepoint))

/-- The loop over the digits. An `int` that is too large is undefined. -/
def digitsLoop (isHex : Bool) : Nat → Int → Int → Utf8Iterator → Option (Int × Utf8Iterator)
  | 0, _, _, _ => none
  | fuel + 1, codepoint, digit, it =>
      let codepoint := codepoint * (if isHex then 16 else 10) + digit
      if 2 ^ 31 ≤ codepoint then none
      else
        let it := it.next
        let digit := parseDigit it.current isHex
        if digit ≠ -1 then digitsLoop isHex fuel codepoint digit it else some (codepoint, it)

/-- The lines about the semicolon. -/
def consumeSemicolon (it : Utf8Iterator) (codepoint : Int) : Bool × Utf8Iterator :=
  if it.current ≠ 0x3B then (false, it.addCodepointError .numericCharRefWithoutSemicolon codepoint)
  else (true, it.next)

/-- The lines behind the loop. -/
def finishNumericRef (it : Utf8Iterator) (codepoint : Int) : Bool × Int × Utf8Iterator :=
  let r := it.consumeSemicolon codepoint
  let replacement := maybeReplaceCodepoint codepoint
  if replacement ≠ -1 then
    (false, replacement, r.2.addCodepointError .numericCharRefInvalid codepoint)
  else if (0xd800 ≤ codepoint ∧ codepoint ≤ 0xdfff) ∨ 0x10ffff < codepoint then
    (false, 0xfffd, r.2.addCodepointError .numericCharRefInvalid codepoint)
  else if isInvalidCodePoint codepoint = true ∨ codepoint = 0xb then
    (false, codepoint, r.2.addCodepointError .numericCharRefInvalid codepoint)
  else (r.1, codepoint, r.2)

/-- `consume_numeric_ref`. -/
def consumeNumericRef (it : Utf8Iterator) : Option (Bool × Int × Utf8Iterator) :=
  let it := it.next
  let isHex : Bool := it.current = 0x78 ∨ it.current = 0x58
  let it := if isHex then it.next else it
  let digit := parseDigit it.current isHex
  if digit = -1 then some (false, kGumboNoChar, it.addNoDigitError.reset)
  else
    (digitsLoop isHex (it.source.length + 1) 0 digit it).map (fun r => r.2.finishNumericRef r.1)

/-- `consume_char_ref`, with `consume_named_ref` as a parameter. The result has the two code points of
`OneOrTwoCodepoints`. -/
def consumeCharRef (consumeNamedRef : Utf8Iterator → Option (Bool × Int × Int × Utf8Iterator))
    (it : Utf8Iterator) (additionalAllowedChar : Int) : Option (Bool × Int × Int × Utf8Iterator) :=
  let it := it.setMark.next
  let c := it.current
  if c = additionalAllowedChar then some (true, kGumboNoChar, kGumboNoChar, it.reset)
  else if c ∈ [0x09, 0x0A, 0x0C, 0x20, 0x3C, 0x26, -1] then
    some (true, kGumboNoChar, kGumboNoChar, it.reset)
  else if c = 0x23 then it.consumeNumericRef.map (fun r => (r.1, r.2.1, kGumboNoChar, r.2.2))
  else consumeNamedRef it

end Utf8Iterator

/-! ## References among code points -/

/-- The number that digits spell, behind a number `v`. -/
def digitsValue (isHex : Bool) (v : Int) (digits : List Int) : Int :=
  digits.foldl (fun v c => v * (if isHex then 16 else 10) + parseDigit c isHex) v

/-- What a number stands for. -/
def refOutput (v : Int) : Int :=
  if maybeReplaceCodepoint v ≠ -1 then maybeReplaceCodepoint v
  else if (0xd800 ≤ v ∧ v ≤ 0xdfff) ∨ 0x10ffff < v then 0xfffd
  else v

/-- A number that may be referred to. -/
def refOk (v : Int) : Bool :=
  maybeReplaceCodepoint v = -1 ∧ ¬ (0xd800 ≤ v ∧ v ≤ 0xdfff) ∧ v ≤ 0x10ffff
    ∧ isInvalidCodePoint v = false

/-- A numeric reference whose `#` has number `p`: the status, the code point, and the number of the
code point behind it. Without digits it goes back to `mark`. -/
def numericRefAt (codes : List Int) (p mark : Nat) : Option (Bool × Int × Nat) :=
  let isHex : Bool := codes[p + 1]? = some 0x78 ∨ codes[p + 1]? = some 0x58
  let q := if isHex then p + 2 else p + 1
  let digits := (codes.drop q).takeWhile (fun c => parseDigit c isHex ≠ -1)
  let v := digitsValue isHex 0 digits
  let semicolon : Bool := codes[q + digits.length]? = some 0x3B
  if digits = [] then some (false, kGumboNoChar, mark)
  else if 2 ^ 31 ≤ v then none
  else
    some (refOk v && semicolon, refOutput v, q + digits.length + (if semicolon then 1 else 0))

/-- The number that is written behind a `#` with number `p`, and 0 if there is none. -/
def numberAt (codes : List Int) (p : Nat) : Int :=
  let isHex : Bool := codes[p + 1]? = some 0x78 ∨ codes[p + 1]? = some 0x58
  let q := if isHex then p + 2 else p + 1
  digitsValue isHex 0 ((codes.drop q).takeWhile (fun c => parseDigit c isHex ≠ -1))

theorem exists_numericRefAt {codes : List Int} {p : Nat} (h : numberAt codes p < 2 ^ 31)
    (mark : Nat) : ∃ r, numericRefAt codes p mark = some r := by
  unfold numberAt at h
  unfold numericRefAt
  dsimp only at h ⊢
  generalize decide (codes[p + 1]? = some 0x78 ∨ codes[p + 1]? = some 0x58) = isHex at h ⊢
  generalize (codes.drop (if isHex then p + 2 else p + 1)).takeWhile
    (fun c => parseDigit c isHex ≠ -1) = digits at h ⊢
  by_cases hnil : digits = []
  · rw [if_pos hnil]
    exact ⟨_, rfl⟩
  · rw [if_neg hnil, if_neg (Int.not_le.mpr h)]
    exact ⟨_, rfl⟩

/-- A reference whose ampersand has number `p`; `allowed` ends it at once. -/
def charRefAt (codes : List Int) (p : Nat) (allowed : Int) : Option (Bool × Int × Nat) :=
  let c := codes[p + 1]?.getD (-1)
  if c = allowed ∨ c ≠ 0x23 then some (true, kGumboNoChar, p) else numericRefAt codes (p + 1) p

/-- The code point behind the ampersand begins a name. -/
def NameAt (codes : List Int) (p : Nat) (allowed : Int) : Prop :=
  codes[p + 1]?.getD (-1) ∉ [allowed, 0x09, 0x0A, 0x0C, 0x20, 0x3C, 0x26, -1, 0x23]

instance (codes : List Int) (p : Nat) (allowed : Int) : Decidable (NameAt codes p allowed) :=
  inferInstanceAs (Decidable (_ ∉ _))

/-! ## Digits -/

section

variable {isHex : Bool}

theorem parseDigit_nonneg {c : Int} (h : parseDigit c isHex ≠ -1) : 0 ≤ parseDigit c isHex := by
  unfold parseDigit at h ⊢
  split_ifs at h ⊢ <;> omega

/-- A further digit makes a number larger, if anything. -/
theorem le_digitsValue {digits : List Int} (h : ∀ c ∈ digits, parseDigit c isHex ≠ -1) {v : Int}
    (hv : 0 ≤ v) : v ≤ digitsValue isHex v digits := by
  induction digits generalizing v with
  | nil => exact Int.le_refl v
  | cons c digits ih =>
      have hc := parseDigit_nonneg (h c List.mem_cons_self)
      have hstep : v ≤ v * (if isHex then 16 else 10) + parseDigit c isHex := by
        split <;> omega
      have hrest := ih (fun d hd => h d (List.mem_cons_of_mem c hd)) (Int.le_trans hv hstep)
      exact Int.le_trans hstep hrest

end

namespace Utf8Iterator

section

variable {src : List UInt8} {codes : List Int} {n m : Nat} {it : Utf8Iterator}

theorem Follows.next (h : Follows src codes ⟨n, m⟩ it) : Follows src codes ⟨n + 1, m⟩ it.next :=
  h.moved (next_kept it) h.place.next

theorem Follows.reset (h : Follows src codes ⟨n, m⟩ it) : Follows src codes ⟨m, m⟩ it.reset :=
  h.moved (reset_kept it) h.mark

theorem Follows.addErrorAtMark (h : Follows src codes ⟨n, m⟩ it) (type : ErrorType)
    (codepoint : Option UInt64) : Follows src codes ⟨n, m⟩ (it.addErrorAtMark type codepoint) :=
  h.moved ⟨rfl, rfl, rfl, addError_tabStop _ _⟩ (h.place.addError _)

theorem Follows.current (h : Follows src codes ⟨n, m⟩ it) :
    it.current = (codes.drop n).head?.getD (-1) := by
  rw [h.place.current, List.head?_drop]

/-- One round of the loop. -/
theorem digitsLoop_succ (isHex : Bool) (fuel : Nat) (v d : Int) (it : Utf8Iterator) :
    digitsLoop isHex (fuel + 1) v (parseDigit d isHex) it
      = if 2 ^ 31 ≤ digitsValue isHex v [d] then none
        else if parseDigit it.next.current isHex ≠ -1 then
          digitsLoop isHex fuel (digitsValue isHex v [d]) (parseDigit it.next.current isHex) it.next
        else some (digitsValue isHex v [d], it.next) := rfl

/-- The loop, from a digit on. The induction is on the digits behind it. -/
theorem digitsLoop_eq {isHex : Bool} {d : Int} {digits rest : List Int} {fuel : Nat} {v : Int}
    (h : Follows src codes ⟨n, m⟩ it) (hcodes : codes.drop n = d :: (digits ++ rest))
    (hd : parseDigit d isHex ≠ -1) (hdigits : ∀ c ∈ digits, parseDigit c isHex ≠ -1)
    (hrest : parseDigit (rest.head?.getD (-1)) isHex = -1) (hfuel : digits.length < fuel)
    (hv : 0 ≤ v) :
    (2 ^ 31 ≤ digitsValue isHex v (d :: digits)
        ∧ digitsLoop isHex fuel v (parseDigit d isHex) it = none)
      ∨ (digitsValue isHex v (d :: digits) < 2 ^ 31
        ∧ ∃ it', digitsLoop isHex fuel v (parseDigit d isHex) it
            = some (digitsValue isHex v (d :: digits), it')
          ∧ Follows src codes ⟨n + 1 + digits.length, m⟩ it') := by
  induction digits generalizing d fuel v n it with
  | nil =>
      obtain ⟨fuel, rfl⟩ : ∃ k, fuel = k + 1 := ⟨fuel - 1, by simp at hfuel; omega⟩
      have hnext := h.next
      have hcurrent : it.next.current = rest.head?.getD (-1) := by
        rw [hnext.current, ← List.drop_drop, hcodes]
        rfl
      rw [digitsLoop_succ, hcurrent, hrest]
      by_cases hbig : (2 : Int) ^ 31 ≤ digitsValue isHex v [d]
      · exact .inl ⟨hbig, if_pos hbig⟩
      · exact .inr ⟨Int.lt_of_not_ge hbig, it.next, if_neg hbig, hnext⟩
  | cons d' digits ih =>
      obtain ⟨fuel, rfl⟩ : ∃ k, fuel = k + 1 := ⟨fuel - 1, by simp at hfuel; omega⟩
      have hnext := h.next
      have hcodes' : codes.drop (n + 1) = d' :: (digits ++ rest) := by
        rw [← List.drop_drop, hcodes]
        rfl
      have hcurrent : it.next.current = d' := by
        rw [hnext.current, hcodes']
        rfl
      have hd' := hdigits d' List.mem_cons_self
      have htail := fun c hc => hdigits c (List.mem_cons_of_mem d' hc)
      have hdnat := parseDigit_nonneg hd
      have hstep : 0 ≤ digitsValue isHex v [d] := by
        show 0 ≤ v * (if isHex then 16 else 10) + parseDigit d isHex
        split <;> omega
      have hlen : digits.length < fuel := by
        rw [List.length_cons] at hfuel
        omega
      have hplace : n + 1 + (d' :: digits).length = n + 1 + 1 + digits.length := by
        rw [List.length_cons]
        omega
      have hvalue : digitsValue isHex v (d :: d' :: digits)
          = digitsValue isHex (digitsValue isHex v [d]) (d' :: digits) := rfl
      rw [digitsLoop_succ, hplace, hvalue, hcurrent, if_pos hd']
      by_cases hbig : (2 : Int) ^ 31 ≤ digitsValue isHex v [d]
      · have hmono := le_digitsValue hdigits hstep
        exact .inl ⟨Int.le_trans hbig hmono, if_pos hbig⟩
      · rw [if_neg hbig]
        exact ih hnext hcodes' hd' htail hlen hstep

theorem Follows.current_eq_iff (h : Follows src codes ⟨n, m⟩ it) {c : Int} (hc : c ≠ -1) :
    it.current = c ↔ codes[n]? = some c := by
  rw [h.place.current, Option.getD_eq_iff]
  constructor
  · rintro (hsome | ⟨-, hnone⟩)
    · exact hsome
    · exact absurd hnone.symm hc
  · exact .inl

/-- A result of the code and one in terms of code points. -/
def Refers (src : List UInt8) (codes : List Int) (m : Nat) (r : Bool × Int × Utf8Iterator)
    (r' : Bool × Int × Nat) : Prop :=
  r.1 = r'.1 ∧ r.2.1 = r'.2.1 ∧ Follows src codes ⟨r'.2.2, m⟩ r.2.2

theorem consumeSemicolon_eq (h : Follows src codes ⟨n, m⟩ it) (v : Int) :
    (it.consumeSemicolon v).1 = decide (codes[n]? = some 0x3B)
      ∧ Follows src codes ⟨n + (if (it.consumeSemicolon v).1 = true then 1 else 0), m⟩
        (it.consumeSemicolon v).2 := by
  have hiff := h.current_eq_iff (c := 0x3B) (by decide)
  rw [consumeSemicolon]
  by_cases hc : it.current = 0x3B
  · rw [if_neg (not_not.mpr hc), decide_eq_true (hiff.mp hc)]
    exact ⟨rfl, h.next⟩
  · have hne : ¬ codes[n]? = some 0x3B := fun h' => hc (hiff.mpr h')
    rw [if_pos hc, decide_eq_false hne]
    exact ⟨rfl, h.addErrorAtMark _ _⟩

theorem finishNumericRef_eq (h : Follows src codes ⟨n, m⟩ it) (v : Int) :
    Refers src codes m (it.finishNumericRef v)
      (refOk v && decide (codes[n]? = some 0x3B), refOutput v,
        n + (if decide (codes[n]? = some 0x3B) = true then 1 else 0)) := by
  obtain ⟨hstatus, hfollows⟩ := consumeSemicolon_eq h v
  rw [← hstatus, finishNumericRef]
  generalize it.consumeSemicolon v = r at hfollows
  have herror := hfollows.addErrorAtMark .numericCharRefInvalid (some (UInt64.ofInt v))
  by_cases hreplace : maybeReplaceCodepoint v ≠ -1
  · have hok : refOk v = false := decide_eq_false fun hok => hreplace hok.1
    have hout : refOutput v = maybeReplaceCodepoint v := if_pos hreplace
    rw [if_pos hreplace, hok, hout]
    exact ⟨rfl, rfl, herror⟩
  · rw [if_neg hreplace]
    by_cases hrange : (0xd800 ≤ v ∧ v ≤ 0xdfff) ∨ 0x10ffff < v
    · have hok : refOk v = false := decide_eq_false fun hok =>
        hrange.elim hok.2.1 (fun hgt => absurd hok.2.2.1 (Int.not_le.mpr hgt))
      have hout : refOutput v = 0xfffd := (if_neg hreplace).trans (if_pos hrange)
      rw [if_pos hrange, hok, hout]
      exact ⟨rfl, rfl, herror⟩
    · have hout : refOutput v = v := (if_neg hreplace).trans (if_neg hrange)
      rw [if_neg hrange, hout]
      by_cases hinvalid : isInvalidCodePoint v = true ∨ v = 0xb
      · have hbad : isInvalidCodePoint v = true := by
          rcases hinvalid with hbad | rfl
          · exact hbad
          · decide
        have hok : refOk v = false := decide_eq_false fun hok => by
          rw [hbad] at hok
          exact absurd hok.2.2.2 (by decide)
        rw [if_pos hinvalid, hok]
        exact ⟨rfl, rfl, herror⟩
      · have hok : refOk v = true := by
          rw [not_or] at hrange hinvalid
          rw [refOk, decide_eq_true_iff]
          exact ⟨not_not.mp hreplace, hrange.1, Int.not_lt.mp hrange.2,
            Bool.eq_false_iff.mpr hinvalid.1⟩
        rw [if_neg hinvalid, hok]
        exact ⟨rfl, rfl, hfollows⟩

/-- **A numeric reference.** -/
theorem consumeNumericRef_refines (h : Follows src codes ⟨n, m⟩ it) :
    Option.Rel (Refers src codes m) it.consumeNumericRef (numericRefAt codes n m) := by
  have hnext := h.next
  have hx := hnext.current_eq_iff (c := 0x78) (by decide)
  have hX := hnext.current_eq_iff (c := 0x58) (by decide)
  unfold consumeNumericRef numericRefAt
  simp only [hx, hX]
  generalize hhex : decide (codes[n + 1]? = some 0x78 ∨ codes[n + 1]? = some 0x58) = isHex
  -- the iterator at the first digit
  obtain ⟨it', hit', q, hq, hfollows⟩ : ∃ it', (if isHex = true then it.next.next else it.next) = it'
      ∧ ∃ q, (if isHex = true then n + 2 else n + 1) = q ∧ Follows src codes ⟨q, m⟩ it' := by
    cases isHex with
    | true => exact ⟨_, rfl, _, rfl, hnext.next⟩
    | false => exact ⟨_, rfl, _, rfl, hnext⟩
  rw [hit', hq]
  generalize hdigits : (codes.drop q).takeWhile (fun c => parseDigit c isHex ≠ -1) = digits
  have hall : ∀ c ∈ digits, parseDigit c isHex ≠ -1 := by
    intro c hc
    rw [← hdigits] at hc
    simpa using List.all_eq_true.mp List.all_takeWhile c hc
  obtain ⟨rest, hsplit, hends⟩ :=
    exists_takeWhile_append (fun c => decide (parseDigit c isHex ≠ -1)) (codes.drop q)
  rw [hdigits] at hsplit
  have hrest : parseDigit (rest.head?.getD (-1)) isHex = -1 := by
    cases hc : rest.head? with
    | none => cases isHex <;> decide
    | some c => simpa using hends c hc
  cases digits with
  | nil =>
      have hcurrent : parseDigit it'.current isHex = -1 := by
        rw [hfollows.current, hsplit]
        exact hrest
      rw [if_pos hcurrent, if_pos rfl]
      exact .some ⟨rfl, rfl, (hfollows.addErrorAtMark _ _).reset⟩
  | cons d digits =>
      have hcurrent : it'.current = d := by
        rw [hfollows.current, hsplit]
        rfl
      have hd := hall d List.mem_cons_self
      have hfuel : digits.length < it'.source.length + 1 := by
        have hle := hfollows.place.length_drop_le
        rw [hsplit, List.length_append, List.length_cons] at hle
        omega
      rw [hcurrent, if_neg hd, if_neg (List.cons_ne_nil d digits)]
      have hloop := digitsLoop_eq hfollows hsplit hd
        (fun c hc => hall c (List.mem_cons_of_mem d hc)) hrest hfuel (Int.le_refl 0)
      rcases hloop with ⟨hbig, hnone⟩ | ⟨hsmall, it'', hsome, hfollows'⟩
      · rw [hnone, if_pos hbig]
        exact .none
      · have hplace : q + (d :: digits).length = q + 1 + digits.length := by
          rw [List.length_cons]
          omega
        rw [hsome, if_neg (Int.not_le.mpr hsmall), hplace]
        exact .some (finishNumericRef_eq hfollows' _)

/-- **A reference**, at a place reached in any way. Where the code goes back to the ampersand or takes
a number, it is right about the code points. -/
theorem charRef_refines (consumeNamedRef : Utf8Iterator → Option (Bool × Int × Int × Utf8Iterator))
    (allowed : Int) (h : Stands src codes n it) (hname : ¬ NameAt codes n allowed) :
    Option.Rel (fun r r' => Refers src codes n (r.1, r.2.1, r.2.2.2) r' ∧ r.2.2.1 = kGumboNoChar)
      (it.consumeCharRef consumeNamedRef allowed) (charRefAt codes n allowed) := by
  have hnext := (follows_setMark h).next
  have hback := hnext.reset
  rw [NameAt, not_not, ← hnext.place.current] at hname
  unfold consumeCharRef charRefAt
  rw [← hnext.place.current]
  generalize it.setMark.next = it' at hnext hback hname
  dsimp only
  by_cases hallowed : it'.current = allowed
  · rw [if_pos hallowed, if_pos (.inl hallowed)]
    exact .some ⟨⟨rfl, rfl, hback⟩, rfl⟩
  · rw [if_neg hallowed]
    by_cases hhash : it'.current = 0x23
    · have hnumber : ¬ (it'.current = allowed ∨ it'.current ≠ 0x23) := fun hor =>
        hor.elim hallowed (fun hne => hne hhash)
      rw [if_neg (by rw [hhash]; decide), if_pos hhash, if_neg hnumber]
      have href := consumeNumericRef_refines hnext
      generalize it'.consumeNumericRef = r at href
      generalize numericRefAt codes (n + 1) n = r' at href
      cases href with
      | some h => exact .some ⟨h, rfl⟩
      | none => exact .none
    · have hstop : it'.current ∈ [0x09, 0x0A, 0x0C, 0x20, 0x3C, 0x26, -1] := by
        simp only [List.mem_cons, List.not_mem_nil, or_false] at hname ⊢
        tauto
      rw [if_pos hstop, if_pos (.inr hhash)]
      exact .some ⟨⟨rfl, rfl, hback⟩, rfl⟩

end

theorem exists_of_rel_some {α β : Type} {r : α → β → Prop} {x : Option α} {b : β}
    (h : Option.Rel r x (some b)) : ∃ a, x = some a ∧ r a b := by
  cases h with
  | some h => exact ⟨_, rfl, h⟩

/-- An iterator at the beginning of a text. -/
def atText (text : List Char) : Utf8Iterator :=
  blank.init Parser.defaults (text.flatMap utf8EncodeChar)

theorem charRef_refines_letter :
    ∃ it', (atText ['&', '#', '6', '5', ';', 'B']).consumeCharRef (fun _ => none) 0
        = some (true, 65, kGumboNoChar, it')
      ∧ it'.current = 66 := by
  have href := charRef_refines (fun _ => none) 0
    (init_stands blank Parser.defaults (segments_text ['&', '#', '6', '5', ';', 'B'])) (by decide)
  have hspec : charRefAt (codePoints (['&', '#', '6', '5', ';', 'B'].map .char)) 0 0
      = some (true, 65, 5) := by decide
  rw [hspec] at href
  obtain ⟨⟨status, first, second, it'⟩, hrun, ⟨hstatus, hfirst, hfollows⟩, hsecond⟩ :=
    exists_of_rel_some href
  subst hstatus hfirst hsecond
  exact ⟨it', hrun, hfollows.place.current⟩

/-! ## What a number stands for -/

theorem replacements_isChar : ∀ r ∈ kCharReplacements,
    0 ≤ r.2 ∧ (r.2 < 0xd800 ∨ 0xdfff < r.2) ∧ r.2 < 0x110000 := by
  decide

/-- Every number stands for a character. -/
theorem refOutput_isChar {v : Int} (hv : 0 ≤ v) : ∃ c : Char, refOutput v = c.toNat := by
  have hrange : 0 ≤ refOutput v ∧ (refOutput v < 0xd800 ∨ 0xdfff < refOutput v)
      ∧ refOutput v < 0x110000 := by
    unfold refOutput
    split
    · rename_i hreplace
      rw [maybeReplaceCodepoint] at hreplace ⊢
      split at hreplace
      · rename_i r hfind
        exact replacements_isChar r (List.mem_of_find?_eq_some hfind)
      · exact absurd rfl hreplace
    · split
      · decide
      · omega
  obtain ⟨hnonneg, hsurrogate, hlt⟩ := hrange
  obtain ⟨c, hc, -⟩ := Utf8.isChar_of_scalar (u := (refOutput v).toNat) (by omega)
  exact ⟨c, by omega⟩

theorem digitsLoop_nonneg {isHex : Bool} {fuel : Nat} {v d w : Int} {it it' : Utf8Iterator}
    (hv : 0 ≤ v) (hd : 0 ≤ d) (h : digitsLoop isHex fuel v d it = some (w, it')) : 0 ≤ w := by
  induction fuel generalizing v d it with
  | zero => cases h
  | succ fuel ih =>
      have hstep : 0 ≤ v * (if isHex then 16 else 10) + d := by
        split <;> omega
      rw [digitsLoop] at h
      dsimp only at h
      generalize v * (if isHex then 16 else 10) + d = u at h hstep
      split at h
      · cases h
      · split at h
        · rename_i hdigit
          exact ih hstep (parseDigit_nonneg hdigit) h
        · rw [← (Prod.mk.inj (Option.some.inj h)).1]
          exact hstep

theorem finishNumericRef_output (it : Utf8Iterator) (v : Int) :
    (it.finishNumericRef v).2.1 = refOutput v := by
  unfold finishNumericRef refOutput
  by_cases hreplace : maybeReplaceCodepoint v ≠ -1
  · rw [if_pos hreplace, if_pos hreplace]
  · rw [if_neg hreplace, if_neg hreplace]
    by_cases hrange : (0xd800 ≤ v ∧ v ≤ 0xdfff) ∨ 0x10ffff < v
    · rw [if_pos hrange, if_pos hrange]
    · rw [if_neg hrange, if_neg hrange]
      split <;> rfl

/-- What is returned is a character, or the mark for none. -/
theorem consumeNumericRef_isChar {it : Utf8Iterator} {r : Bool × Int × Utf8Iterator}
    (h : it.consumeNumericRef = some r) :
    r.2.1 = kGumboNoChar ∨ ∃ c : Char, r.2.1 = c.toNat ∧ codepointBytes r.2.1 = utf8EncodeChar c := by
  dsimp only [consumeNumericRef] at h
  generalize decide (it.next.current = 0x78 ∨ it.next.current = 0x58) = isHex at h
  generalize (if isHex = true then it.next.next else it.next) = it₁ at h
  by_cases hdigit : parseDigit it₁.current isHex = -1
  · rw [if_pos hdigit] at h
    left
    rw [← Option.some.inj h]
  · rw [if_neg hdigit] at h
    obtain ⟨⟨v, it'⟩, hloop, rfl⟩ := Option.map_eq_some_iff.mp h
    have hv := digitsLoop_nonneg (Int.le_refl 0) (parseDigit_nonneg hdigit) hloop
    obtain ⟨c, hc⟩ := refOutput_isChar hv
    right
    refine ⟨c, (finishNumericRef_output it' v).trans hc, ?_⟩
    rw [finishNumericRef_output, hc, codepointBytes_char]

/-- **Every reference to a number is a character**, and so is what `append_codepoint` makes of it, as
long as the number is an `int`. -/
theorem numericRef_isChar {src : List UInt8} {codes : List Int} {n m : Nat} {it : Utf8Iterator}
    (h : Follows src codes ⟨n, m⟩ it) (hfits : numberAt codes n < 2 ^ 31) :
    ∃ r, it.consumeNumericRef = some r
      ∧ (r.2.1 = kGumboNoChar
        ∨ ∃ c : Char, r.2.1 = c.toNat ∧ codepointBytes r.2.1 = utf8EncodeChar c) := by
  obtain ⟨r', hr'⟩ := exists_numericRefAt hfits m
  have href := consumeNumericRef_refines h
  rw [hr'] at href
  obtain ⟨r, hr, -⟩ := exists_of_rel_some href
  exact ⟨r, hr, consumeNumericRef_isChar hr⟩

theorem numericRef_isChar_surrogate :
    ∃ r, (atText ['&', '#', 'x', 'D', '8', '0', '0', ';']).setMark.next.consumeNumericRef = some r
      ∧ (r.2.1 = kGumboNoChar
        ∨ ∃ c : Char, r.2.1 = c.toNat ∧ codepointBytes r.2.1 = utf8EncodeChar c) :=
  numericRef_isChar (follows_setMark (init_stands blank Parser.defaults
    (segments_text ['&', '#', 'x', 'D', '8', '0', '0', ';']))).next (by decide)

end Utf8Iterator

end CSearch.Gumbo
