import CSearch.Gumbo.Utf8
import Mathlib.Logic.Function.Iterate

set_option autoImplicit false

/-! # `Utf8Iterator` of `utf8.c`

The iterator stands at a place of the source and has the code point there. What it finds is a matter
of the bytes from that place on (`Front`): a character, a byte no character begins with, or the
beginning of a character that is not continued, as far as it goes. There is just one answer
(`Front.unique`), and `read_char` finds it (`readChar_eq`).
-/

namespace CSearch.Gumbo

open String (utf8EncodeChar)
open Utf8

/-! ## The functions of the source -/

/-- `GumboSourcePosition`. -/
structure SourcePosition where
  line : UInt32
  column : UInt32
  offset : UInt32
  deriving DecidableEq, Repr

/-- `GumboErrorType`, as far as it is used here. -/
inductive ErrorType where
  | utf8Invalid
  | utf8Truncated
  | utf8Null
  | numericCharRefNoDigits
  | numericCharRefWithoutSemicolon
  | numericCharRefInvalid
  | tagEof
  deriving DecidableEq, Repr

/-- `GumboError`. The pointer `original_text` is a place of the source. -/
structure Error where
  type : ErrorType
  position : SourcePosition
  originalText : Nat
  codepoint : Option UInt64
  deriving DecidableEq, Repr

/-- What is used of `GumboParser`: two options and the errors. A tab stop of zero would be divided
by. -/
structure Parser where
  tabStop : UInt32
  maxErrors : Int
  errors : List Error
  tabStop_ne : tabStop ≠ 0

theorem eight_ne_zero : (8 : UInt32) ≠ 0 := by decide

/-- A new parser with `kGumboDefaultOptions`. -/
def Parser.defaults : Parser := ⟨8, -1, [], eight_ne_zero⟩

/-- `gumbo_add_error`, and the fields of the new error. -/
def Parser.addError (p : Parser) (e : Error) : Parser :=
  if 0 ≤ p.maxErrors ∧ p.maxErrors ≤ p.errors.length then p
  else { p with errors := p.errors ++ [e] }

/-- `Utf8Iterator`. The source is the bytes up to `_end`, and the pointers are places in it. -/
structure Utf8Iterator where
  source : List UInt8
  start : Nat
  mark : Nat
  current : Int
  width : Nat
  pos : SourcePosition
  markPos : SourcePosition
  parser : Parser

/-- `kUtf8ReplacementChar`. -/
def kUtf8ReplacementChar : Int := 0xFFFD

/-- The loop of `add_error`: some bytes as one number. -/
def rawCodePoint (bs : List UInt8) : UInt64 := bs.foldl (fun n b => (n <<< 8) ||| b.toUInt64) 0

namespace Utf8Iterator

/-- `add_error`. The code point is made of the bytes under the cursor. -/
def addError (it : Utf8Iterator) (type : ErrorType) : Utf8Iterator :=
  let codePoint := rawCodePoint ((it.source.drop it.start).take it.width)
  { it with parser := it.parser.addError ⟨type, it.pos, it.start, some codePoint⟩ }

/-- The branch of `read_char` for `UTF8_ACCEPT`, with the bytes behind the character. -/
def accepted (it : Utf8Iterator) (width : Nat) (codePoint : UInt32) (next : List UInt8) :
    Utf8Iterator :=
  let it := { it with width := width }
  let r : Utf8Iterator × UInt32 :=
    if codePoint = 0x0D then
      -- a line feed for a carriage return, with the line feed that follows it
      (if next.head? = some 0x0A then
        { it with start := it.start + 1, pos := { it.pos with offset := it.pos.offset + 1 } }
      else it, 0x0A)
    else (it, codePoint)
  if isInvalidCodePoint r.2.toNat then
    { r.1.addError .utf8Invalid with current := kUtf8ReplacementChar }
  else { r.1 with current := r.2.toNat }

/-- The branch for `UTF8_REJECT` at byte number `n`. -/
def rejected (it : Utf8Iterator) (n : Nat) : Utf8Iterator :=
  { it with width := n + (if n = 0 then 1 else 0), current := kUtf8ReplacementChar }.addError
    .utf8Invalid

/-- The lines behind the loop. -/
def truncated (it : Utf8Iterator) : Utf8Iterator :=
  { it with current := kUtf8ReplacementChar, width := it.source.length - it.start }.addError
    .utf8Truncated

/-- The loop of `read_char`, with the bytes from number `n` on. -/
def readLoop (it : Utf8Iterator) : List UInt8 → Nat → UInt32 → UInt32 → Utf8Iterator
  | [], _, _, _ => it.truncated
  | c :: cs, n, state, codePoint =>
      let r := decode state codePoint c
      if r.1 = utf8Accept then it.accepted (n + 1) r.2 cs
      else if r.1 = utf8Reject then it.rejected n
      else it.readLoop cs (n + 1) r.1 r.2

/-- `read_char`. -/
def readChar (it : Utf8Iterator) : Utf8Iterator :=
  if it.source.length ≤ it.start then { it with current := -1, width := 0 }
  else it.readLoop (it.source.drop it.start) 0 utf8Accept 0

/-- `update_position`. -/
def updatePosition (it : Utf8Iterator) : Utf8Iterator :=
  let pos := { it.pos with offset := it.pos.offset + UInt32.ofNat it.width }
  if it.current = 0x0A then { it with pos := { pos with line := pos.line + 1, column := 1 } }
  else if it.current = 0x09 then
    { it with
      pos := { pos with column := (pos.column / it.parser.tabStop + 1) * it.parser.tabStop } }
  else if it.current ≠ -1 then { it with pos := { pos with column := pos.column + 1 } }
  else { it with pos := pos }

/-- `utf8iterator_init`. The mark keeps what was in memory. -/
def init (it : Utf8Iterator) (parser : Parser) (source : List UInt8) : Utf8Iterator :=
  { it with source := source, start := 0, pos := ⟨1, 1, 0⟩, parser := parser }.readChar

/-- `utf8iterator_next`. -/
def next (it : Utf8Iterator) : Utf8Iterator :=
  let it := it.updatePosition
  { it with start := it.start + it.width }.readChar

/-- `utf8iterator_mark`. -/
def setMark (it : Utf8Iterator) : Utf8Iterator := { it with mark := it.start, markPos := it.pos }

/-- `utf8iterator_reset`. -/
def reset (it : Utf8Iterator) : Utf8Iterator :=
  { it with start := it.mark, pos := it.markPos }.readChar

/-- `tolower` for bytes. -/
def tolower (b : UInt8) : UInt8 := if 65 ≤ b ∧ b ≤ 90 then b + 32 else b

/-- `utf8iterator_maybe_consume_match`, for a string without zeros. -/
def maybeConsumeMatch (it : Utf8Iterator) (str : List UInt8) (caseSensitive : Bool) :
    Bool × Utf8Iterator :=
  let upcoming := (it.source.drop it.start).take str.length
  if it.start + str.length ≤ it.source.length
      ∧ (if caseSensitive then upcoming = str else upcoming.map tolower = str.map tolower) then
    (true, next^[str.length] it)
  else (false, it)

/-- A loop over the page: the code points up to the end. -/
def collect : Nat → Utf8Iterator → Option (List Int × Utf8Iterator)
  | 0, _ => none
  | fuel + 1, it =>
      if it.current = -1 then some ([], it)
      else (collect fuel it.next).map (fun r => (it.current :: r.1, r.2))

end Utf8Iterator

/-! ## What stands at a place -/

/-- A piece of a page: a character, or bytes that are none. -/
inductive Item where
  | char (c : Char)
  | bad (type : ErrorType) (bytes : List UInt8)
  deriving DecidableEq

def Item.bytes : Item → List UInt8
  | char c => utf8EncodeChar c
  | bad _ m => m

/-- **What stands at the beginning of some bytes**, and what is behind it. -/
inductive Front : List UInt8 → Item → List UInt8 → Prop where
  | char (c : Char) (rest : List UInt8) : Front (utf8EncodeChar c ++ rest) (.char c) rest
  /-- A byte no character begins with. -/
  | stray {b : UInt8} (rest : List UInt8) (hb : ¬ Begins [b]) :
      Front (b :: rest) (.bad .utf8Invalid [b]) rest
  /-- The beginning of a character and a byte that does not continue it. -/
  | broken {m : List UInt8} {b : UInt8} (bs : List UInt8) (hm : Begins m) (hne : m ≠ [])
      (hinc : ∀ c, m ≠ utf8EncodeChar c) (hb : ¬ Begins (m ++ [b])) :
      Front (m ++ b :: bs) (.bad .utf8Invalid m) (b :: bs)
  /-- The beginning of a character at the end of the page. -/
  | cut {m : List UInt8} (hm : Begins m) (hne : m ≠ []) (hinc : ∀ c, m ≠ utf8EncodeChar c) :
      Front m (.bad .utf8Truncated m) []

section

variable {bs rest rest' : List UInt8} {i i' : Item}

theorem Front.append (h : Front bs i rest) : bs = i.bytes ++ rest := by
  cases h with
  | char c rest => rfl
  | stray rest hb => rfl
  | broken bs hm hne hinc hb => rfl
  | cut hm hne hinc => exact (List.append_nil _).symm

theorem Front.bytes_ne (h : Front bs i rest) : i.bytes ≠ [] := by
  cases h with
  | char c rest => exact String.utf8EncodeChar_ne_nil
  | stray rest hb => exact List.cons_ne_nil _ _
  | broken bs hm hne hinc hb => exact hne
  | cut hm hne hinc => exact hne

/-- What the longest beginning of a character in `bs` says about the first piece. -/
inductive Kind (bs : List UInt8) : List UInt8 → Item → Prop where
  | char (c : Char) : Kind bs (utf8EncodeChar c) (.char c)
  | stray : Kind bs [] (.bad .utf8Invalid (bs.take 1))
  | broken {m : List UInt8} (hne : m ≠ []) (hinc : ∀ c, m ≠ utf8EncodeChar c) (hbs : m ≠ bs) :
      Kind bs m (.bad .utf8Invalid m)
  | cut (hne : bs ≠ []) (hinc : ∀ c, bs ≠ utf8EncodeChar c) : Kind bs bs (.bad .utf8Truncated bs)

theorem Front.kind (h : Front bs i rest) : ∃ m, Longest m bs ∧ Kind bs m i := by
  cases h with
  | char c rest => exact ⟨_, longest_encode c rest, .char c⟩
  | stray rest hb =>
      have hnil : Begins [] := ⟨default, List.nil_prefix⟩
      exact ⟨[], longest_append hnil hb rest, .stray⟩
  | broken bs hm hne hinc hb =>
      refine ⟨_, longest_append hm hb bs, .broken hne hinc ?_⟩
      intro heq
      exact List.cons_ne_nil _ _ (List.self_eq_append_right.mp heq)
  | cut hm hne hinc => exact ⟨_, longest_self hm, .cut hne hinc⟩

theorem Kind.unique {m : List UInt8} (h : Kind bs m i) (h' : Kind bs m i') : i = i' := by
  have hchar : ∀ c : Char, utf8EncodeChar c ≠ [] := fun c => String.utf8EncodeChar_ne_nil
  generalize hm : m = m' at h'
  cases h with
  | char c =>
      cases h' with
      | char d =>
          have hcd := first_unique (congrArg (· ++ []) hm)
          rw [hcd.1]
      | stray => exact absurd hm (hchar c)
      | broken hne hinc hbs => exact absurd hm.symm (hinc c)
      | cut hne hinc => exact absurd hm.symm (hinc c)
  | stray =>
      cases h' with
      | char d => exact absurd hm.symm (hchar d)
      | stray => rfl
      | broken hne hinc hbs => exact absurd hm.symm hne
      | cut hne hinc => exact absurd hm.symm hne
  | broken hne hinc hbs =>
      cases h' with
      | char d => exact absurd hm (hinc d)
      | stray => exact absurd hm hne
      | broken hne' hinc' hbs' => rw [hm]
      | cut hne' hinc' => exact absurd hm hbs
  | cut hne hinc =>
      cases h' with
      | char d => exact absurd hm (hinc d)
      | stray => exact absurd hm hne
      | broken hne' hinc' hbs' => exact absurd hm.symm hbs'
      | cut hne' hinc' => rfl

/-- **There is one answer.** -/
theorem Front.unique (h : Front bs i rest) (h' : Front bs i' rest') : i = i' ∧ rest = rest' := by
  obtain ⟨m, hm, hkind⟩ := h.kind
  obtain ⟨m', hm', hkind'⟩ := h'.kind
  rw [← hm.unique hm'] at hkind'
  have hi := hkind.unique hkind'
  subst hi
  exact ⟨rfl, List.append_cancel_left (h.append.symm.trans h'.append)⟩

end

/-! ## What `read_char` finds -/

/-- What `read_char` does about a piece. -/
def Item.see (it : Utf8Iterator) (rest : List UInt8) : Item → Utf8Iterator
  | char c => it.accepted c.utf8Size c.val rest
  | bad type m => { it with width := m.length, current := kUtf8ReplacementChar }.addError type

theorem Phase.Reads.bits_lt {p : Phase} {l : List UInt8} {v : Nat} (h : p.Reads l v) :
    v < 2 ^ 26 := by
  obtain ⟨c, hc⟩ := h.begins
  have hscalar := scalar c
  have hv := ((h.spelled c).mp hc).2
  have hle : c.toNat / 64 ^ p.owed ≤ c.toNat := Nat.div_le_self _ _
  omega

namespace Utf8Iterator

theorem rejected_eq (it : Utf8Iterator) {m : List UInt8} (hm : m ≠ []) (rest : List UInt8) :
    it.rejected m.length = (Item.bad .utf8Invalid m).see it rest := by
  have hpos : m.length ≠ 0 := fun h => hm (List.length_eq_zero_iff.mp h)
  rw [rejected, if_neg hpos]
  rfl

theorem truncated_eq {it : Utf8Iterator} {m : List UInt8} (h : it.source.drop it.start = m) :
    it.truncated = (Item.bad .utf8Truncated m).see it [] := by
  rw [truncated, ← List.length_drop, h]
  rfl

section

variable {p q : Phase} {c : UInt8}

/-! One round of the loop. -/

theorem readLoop_accept (h : p.step c.toNat = .accept) (it : Utf8Iterator) (cs : List UInt8) (n : Nat)
    (cp : UInt32) : it.readLoop (c :: cs) n (UInt32.ofNat p.state) cp
      = it.accepted (n + 1) (decode (UInt32.ofNat p.state) cp c).2 cs := by
  have hstate := decode_fst p cp c
  rw [h] at hstate
  exact if_pos hstate

theorem readLoop_reject (h : p.step c.toNat = .reject) (it : Utf8Iterator) (cs : List UInt8) (n : Nat)
    (cp : UInt32) : it.readLoop (c :: cs) n (UInt32.ofNat p.state) cp = it.rejected n := by
  have hstate : (decode (UInt32.ofNat p.state) cp c).1 = utf8Reject := by
    rw [decode_fst, h]
    rfl
  rw [readLoop, hstate, if_neg (by decide), if_pos rfl]

theorem readLoop_more (h : p.step c.toNat = q) (hq : 0 < q.owed) (it : Utf8Iterator)
    (cs : List UInt8) (n : Nat) (cp : UInt32) :
    it.readLoop (c :: cs) n (UInt32.ofNat p.state) cp
      = it.readLoop cs (n + 1) (UInt32.ofNat q.state) (decode (UInt32.ofNat p.state) cp c).2 := by
  have hstate := decode_fst p cp c
  rw [h] at hstate
  have hacc : UInt32.ofNat q.state ≠ utf8Accept := by
    rw [ne_eq, state_eq_accept_iff]
    rintro rfl
    exact absurd hq (by decide)
  have hrej : UInt32.ofNat q.state ≠ utf8Reject := by
    rw [ne_eq, state_eq_reject_iff]
    rintro rfl
    exact absurd hq (by decide)
  rw [readLoop, hstate, if_neg hacc, if_neg hrej]

end

/-- The loop, when the bytes `l` have been read already. The induction is on those that have not. -/
theorem readLoop_reads {it : Utf8Iterator} (bs : List UInt8) {p : Phase} {l : List UInt8} {v : Nat}
    {cp : UInt32} (h : p.Reads l v) (hcp : cp.toNat = v) (hit : it.source.drop it.start = l ++ bs) :
    ∃ i rest, Front (l ++ bs) i rest
      ∧ it.readLoop bs l.length (UInt32.ofNat p.state) cp = i.see it rest := by
  induction bs generalizing p l v cp with
  | nil =>
      rw [List.append_nil] at hit ⊢
      exact ⟨_, [], .cut h.begins h.ne h.ne_encode, truncated_eq hit⟩
  | cons b bs ih =>
      have happ : l ++ b :: bs = l ++ [b] ++ bs := by rw [List.append_assoc]; rfl
      have hne : UInt32.ofNat p.state ≠ utf8Accept := by
        rw [ne_eq, state_eq_accept_iff]
        rintro rfl
        exact absurd h.pending (by decide)
      have hbits : 0x80 ≤ b.toNat ∧ b.toNat < 0xC0 →
          (decode (UInt32.ofNat p.state) cp b).2.toNat = 64 * v + (b.toNat - 0x80) := by
        intro hb
        rw [decode_snd hne (by rw [hcp]; exact h.bits_lt) hb, hcp]
      have hstep := h.step b
      generalize hq : p.step b.toNat = q at hstep
      cases hstep with
      | accept c hc hv hb =>
          refine ⟨.char c, bs, ?_, ?_⟩
          · rw [happ, ← hc]
            exact .char c bs
          · have hsize : c.utf8Size = l.length + 1 := by
              rw [← length_encode, hc, List.length_append, List.length_singleton]
            have hval : (decode (UInt32.ofNat p.state) cp b).2 = c.val := by
              rw [← UInt32.toNat_inj, hbits hb]
              exact hv.symm
            rw [readLoop_accept hq, hval, ← hsize]
            rfl
      | reject hb =>
          refine ⟨_, b :: bs, .broken bs h.begins h.ne h.ne_encode hb, ?_⟩
          rw [readLoop_reject hq]
          exact it.rejected_eq h.ne (b :: bs)
      | more hreads hb =>
          obtain ⟨i, rest, hfront, hsee⟩ := ih hreads (hbits hb) (hit.trans happ)
          refine ⟨i, rest, happ ▸ hfront, ?_⟩
          rw [readLoop_more hq hreads.pending, ← hsee, List.length_append]
          rfl

/-- The loop from the first byte on. -/
theorem readLoop_front {it : Utf8Iterator} {bs : List UInt8} (hbs : bs ≠ [])
    (hit : it.source.drop it.start = bs) :
    ∃ i rest, Front bs i rest ∧ it.readLoop bs 0 utf8Accept 0 = i.see it rest := by
  obtain ⟨b, bs, rfl⟩ := List.exists_cons_of_ne_nil hbs
  have hbits : Phase.accept.step b.toNat ≠ .reject →
      (decode utf8Accept 0 b).2.toNat = firstBits b.toNat := by
    intro hne
    have hb := b.toNat_lt
    rw [decode_snd_accept 0 hne, UInt32.toNat_ofNat_of_lt']
    exact Nat.lt_of_le_of_lt (Nat.sub_le _ _) (Nat.lt_trans hb (by decide))
  have hstep := Phase.step_first b
  generalize hq : Phase.accept.step b.toNat = q at hstep hbits
  cases hstep with
  | accept c hc hv =>
      refine ⟨.char c, bs, ?_, ?_⟩
      · rw [← List.singleton_append, ← hc]
        exact .char c bs
      · have hsize : c.utf8Size = 1 := by rw [← length_encode, hc]; rfl
        have hval : (decode utf8Accept 0 b).2 = c.val := by
          rw [← UInt32.toNat_inj, hbits (by decide), firstBits, hq]
          exact hv.symm
        refine (readLoop_accept hq it bs 0 0).trans ?_
        show it.accepted 1 (decode utf8Accept 0 b).2 bs = it.accepted c.utf8Size c.val bs
        rw [hval, hsize]
  | reject hb => exact ⟨_, bs, .stray bs hb, readLoop_reject hq it bs 0 0⟩
  | more hreads =>
      have hne : q ≠ .reject := by
        rintro rfl
        exact absurd hreads.pending (by decide)
      obtain ⟨i, rest, hfront, hsee⟩ := readLoop_reads bs hreads (hbits hne) hit
      exact ⟨i, rest, hfront, (readLoop_more hq hreads.pending it bs 0 0).trans hsee⟩

theorem readChar_front (it : Utf8Iterator) (h : it.start < it.source.length) :
    ∃ i rest, Front (it.source.drop it.start) i rest ∧ it.readChar = i.see it rest := by
  have hne : it.source.drop it.start ≠ [] := by
    rw [ne_eq, List.drop_eq_nil_iff]
    omega
  rw [readChar, if_neg (by omega)]
  exact readLoop_front hne rfl

theorem readChar_end {it : Utf8Iterator} (h : it.source.length ≤ it.start) :
    it.readChar = { it with current := -1, width := 0 } := if_pos h

/-- **`read_char` finds what stands at its place.** -/
theorem readChar_eq {it : Utf8Iterator} {i : Item} {rest : List UInt8}
    (h : Front (it.source.drop it.start) i rest) : it.readChar = i.see it rest := by
  have hlt : it.start < it.source.length := by
    have hpos := List.length_pos_iff.mpr h.bytes_ne
    have hlen := congrArg List.length h.append
    rw [List.length_drop, List.length_append] at hlen
    omega
  obtain ⟨i', rest', hfront, hsee⟩ := readChar_front it hlt
  obtain ⟨rfl, rfl⟩ := h.unique hfront
  exact hsee

end Utf8Iterator

end CSearch.Gumbo
