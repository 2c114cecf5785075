import CSearch.Gumbo.Pages

set_option autoImplicit false

/-! # The iterator as a cursor on the code points of a page

The tokenizer moves the iterator on, marks places, goes back to the mark, and asks whether a literal
is ahead. For it the page is the list of its code points, and the iterator is a place in this list
with a marked place (`Cursor`). This is so for any calls in any order (`run_refines`): the code point
under the iterator, the line and the column, and the answer to every question are those of the
cursor, whatever the bytes are.

`readChar_form` says all that `read_char` can do to an iterator. The errors are the one thing it
leaves behind that a reset does not take back (`run_errors`).
-/

namespace CSearch.Gumbo

open String (utf8EncodeChar)
open Utf8

/-! ## Calls -/

/-- A literal of the tokenizer, such as `DOCTYPE`. -/
structure Literal where
  bytes : List UInt8
  plain : ∀ b ∈ bytes, 0x20 ≤ b ∧ b < 0x7F

/-- The calls that move an iterator. -/
inductive Call where
  | next
  | mark
  | reset
  | consume (literal : Literal) (caseSensitive : Bool)

/-- A call, and its answer: `true` if it has none. -/
def Call.run (it : Utf8Iterator) : Call → Bool × Utf8Iterator
  | next => (true, it.next)
  | mark => (true, it.setMark)
  | reset => (true, it.reset)
  | consume literal caseSensitive => it.maybeConsumeMatch literal.bytes caseSensitive

/-- What is seen of an iterator after a call: the answer, `utf8iterator_current`, and line and column
of `utf8iterator_get_position`. -/
structure Seen where
  answer : Bool
  current : Int
  line : UInt32
  column : UInt32
  deriving DecidableEq

/-- Calls in order, with what is seen after each. -/
def runCalls : List Call → Utf8Iterator → List Seen × Utf8Iterator
  | [], it => ([], it)
  | call :: calls, it =>
      let r := call.run it
      let rest := runCalls calls r.2
      (⟨r.1, r.2.current, r.2.pos.line, r.2.pos.column⟩ :: rest.1, rest.2)

/-! ## The cursor -/

/-- A place in a list of code points, and a marked place. -/
structure Cursor where
  place : Nat
  mark : Nat

namespace Cursor

/-- A code point up to what is not compared. -/
def lower (caseSensitive : Bool) (c : Int) : Int :=
  if caseSensitive = false ∧ 65 ≤ c ∧ c ≤ 90 then c + 32 else c

/-- The code points ahead of a place agree with a literal. -/
def matchesAt (codes : List Int) (place : Nat) (literal : Literal) (caseSensitive : Bool) : Bool :=
  ((codes.drop place).take literal.bytes.length).map (lower caseSensitive)
    = literal.bytes.map (fun b => lower caseSensitive b.toNat)

def run (codes : List Int) (cursor : Cursor) : Call → Bool × Cursor
  | .next => (true, { cursor with place := cursor.place + 1 })
  | .mark => (true, { cursor with mark := cursor.place })
  | .reset => (true, { cursor with place := cursor.mark })
  | .consume literal caseSensitive =>
      if matchesAt codes cursor.place literal caseSensitive then
        (true, { cursor with place := cursor.place + literal.bytes.length })
      else (false, cursor)

end Cursor

/-- The column behind a code point. -/
def columnStep (tabStop column : UInt32) (c : Int) : UInt32 :=
  if c = 0x0A then 1
  else if c = 0x09 then (column / tabStop + 1) * tabStop
  else if c ≠ -1 then column + 1
  else column

/-- The line behind some code points. -/
def lineOf (codes : List Int) : UInt32 := 1 + UInt32.ofNat (codes.count 0x0A)

/-- The column behind some code points. -/
def columnOf (tabStop : UInt32) (codes : List Int) : UInt32 := codes.foldl (columnStep tabStop) 1

/-- What is seen at a place. -/
def Cursor.seen (tabStop : UInt32) (codes : List Int) (answer : Bool) (place : Nat) : Seen :=
  ⟨answer, codes[place]?.getD (-1), lineOf (codes.take place), columnOf tabStop (codes.take place)⟩

/-- Calls on a cursor, with what is seen after each. -/
def Cursor.runCalls (tabStop : UInt32) (codes : List Int) : List Call → Cursor → List Seen
  | [], _ => []
  | call :: calls, cursor =>
      let r := cursor.run codes call
      seen tabStop codes r.1 r.2.place :: runCalls tabStop codes calls r.2

namespace Utf8Iterator

/-! ## What `read_char` can do -/

/-- The iterator after `read_char`, when it has moved on by `d` bytes and added the errors `es`. -/
def moved (it : Utf8Iterator) (d width : Nat) (current : Int) (es : List Error) : Utf8Iterator :=
  { it with
    start := it.start + d
    width := width
    current := current
    pos := { it.pos with offset := it.pos.offset + UInt32.ofNat d }
    parser := it.parser.addErrors es }

/-- An error says what stands at its place. -/
def Honest (src : List UInt8) (e : Error) : Prop :=
  ∃ i rest, Front (src.drop e.originalText) i rest ∧ i.error? = some e.type
    ∧ e.codepoint = some (rawCodePoint i.bytes)

/-- Errors about the iterator's place. -/
def ErrorsHere (it : Utf8Iterator) (es : List Error) : Prop :=
  ∀ e ∈ es, e.position = it.pos ∧ e.originalText = it.start ∧ Honest it.source e

theorem moved_zero (it : Utf8Iterator) (width : Nat) (current : Int) (es : List Error) :
    it.moved 0 width current es
      = { it with width := width, current := current, parser := it.parser.addErrors es } := by
  have hoffset : it.pos.offset + UInt32.ofNat 0 = it.pos.offset := UInt32.add_zero _
  rw [moved, hoffset]
  rfl

theorem addError_moved {it : Utf8Iterator} {i : Item} {rest : List UInt8} {type : ErrorType}
    (hfront : Front (it.source.drop it.start) i rest) (herror : i.error? = some type) (current : Int) :
    ∃ es, { it with width := i.bytes.length, current := current }.addError type
        = it.moved 0 i.bytes.length current es ∧ ErrorsHere it es := by
  have hbytes : (it.source.drop it.start).take i.bytes.length = i.bytes := by
    rw [hfront.append, List.take_left]
  have hmoved := moved_zero it i.bytes.length current
    [⟨type, it.pos, it.start, some (rawCodePoint ((it.source.drop it.start).take i.bytes.length))⟩]
  refine ⟨_, hmoved.symm, ?_⟩
  intro e he
  rw [List.mem_singleton.mp he]
  exact ⟨rfl, rfl, i, rest, hfront, herror, by rw [hbytes]⟩

theorem nil_moved (it : Utf8Iterator) (width : Nat) (current : Int) :
    ∃ es, { it with width := width, current := current } = it.moved 0 width current es
      ∧ ErrorsHere it es :=
  ⟨[], (moved_zero it width current []).symm, fun _ he => absurd he List.not_mem_nil⟩

/-- How a piece is taken: by `d` bytes if it is a carriage return with a line feed behind it. -/
theorem see_form (i : Item) (rest : List UInt8) :
    ∃ d width current, (d = 0 ∨ d = 1 ∧ i = .char '\r' ∧ rest.head? = some 0x0A)
      ∧ ∀ it : Utf8Iterator, Front (it.source.drop it.start) i rest →
        ∃ es, i.see it rest = it.moved d width current es ∧ ErrorsHere it es := by
  cases i with
  | bad type m =>
      exact ⟨0, m.length, kUtf8ReplacementChar, .inl rfl, fun it hfront => addError_moved hfront rfl _⟩
  | char c =>
      by_cases hc : c = '\r'
      · subst hc
        by_cases hrest : rest.head? = some 0x0A
        · refine ⟨1, 1, 0x0A, .inr ⟨rfl, rfl, hrest⟩, fun it _ => ⟨[], ?_, ?_⟩⟩
          · exact (accepted_cr it rest).trans (if_pos hrest)
          · exact fun _ he => absurd he List.not_mem_nil
        · refine ⟨0, 1, 0x0A, .inl rfl, fun it _ => ?_⟩
          obtain ⟨es, hes, hhere⟩ := nil_moved it 1 0x0A
          exact ⟨es, ((accepted_cr it rest).trans (if_neg hrest)).trans hes, hhere⟩
      · refine ⟨0, (utf8EncodeChar c).length, scrub c, .inl rfl, fun it hfront => ?_⟩
        have hsee : (Item.char c).see it rest = it.accepted c.utf8Size c.val rest := rfl
        rw [hsee, accepted_of_ne hc, ← length_encode, scrub]
        by_cases hinvalid : isInvalidCodePoint c.toNat = true
        · rw [if_pos hinvalid, if_pos hinvalid]
          exact addError_moved hfront (if_pos hinvalid) kUtf8ReplacementChar
        · rw [if_neg hinvalid, if_neg hinvalid]
          exact nil_moved it _ c.toNat

/-- **What `read_char` can do.** How far it goes and what it finds is a matter of the source and the
place. -/
theorem readChar_form (source : List UInt8) (start : Nat) :
    ∃ d width current, (d = 0 ∨ d = 1 ∧ ∃ rest, source.drop start = 0x0D :: 0x0A :: rest)
      ∧ ∀ it : Utf8Iterator, it.source = source → it.start = start →
        ∃ es, it.readChar = it.moved d width current es ∧ ErrorsHere it es := by
  by_cases hend : source.length ≤ start
  · refine ⟨0, 0, -1, .inl rfl, ?_⟩
    rintro it rfl rfl
    rw [readChar_end hend]
    exact nil_moved it 0 (-1)
  · have hfront : ∃ i rest, Front (source.drop start) i rest := by
      obtain ⟨i, rest, hfront, -⟩ := readChar_front
        { blank with source := source, start := start } (Nat.lt_of_not_le hend)
      exact ⟨i, rest, hfront⟩
    obtain ⟨i, rest, hfront⟩ := hfront
    obtain ⟨d, width, current, hd, hsee⟩ := see_form i rest
    refine ⟨d, width, current, ?_, ?_⟩
    · rcases hd with hd | ⟨hd, rfl, hrest⟩
      · exact .inl hd
      · obtain ⟨rest', rfl⟩ : ∃ rest', rest = 0x0A :: rest' := by
          cases rest with
          | nil => cases hrest
          | cons b rest' => exact ⟨rest', by rw [Option.some.inj hrest]⟩
        exact .inr ⟨hd, rest', hfront.append⟩
    · rintro it rfl rfl
      rw [readChar_eq hfront]
      exact hsee it hfront

theorem addError_tabStop (p : Parser) (e : Error) : (p.addError e).tabStop = p.tabStop := by
  rw [Parser.addError]
  split <;> rfl

theorem addErrors_tabStop (p : Parser) (es : List Error) : (p.addErrors es).tabStop = p.tabStop := by
  induction es generalizing p with
  | nil => rfl
  | cons e es ih => exact (ih _).trans (addError_tabStop p e)

/-- What the code points ahead depend on. -/
structure View where
  source : List UInt8
  start : Nat
  current : Int
  width : Nat
  pos : SourcePosition
  tabStop : UInt32

def view (it : Utf8Iterator) : View :=
  ⟨it.source, it.start, it.current, it.width, it.pos, it.parser.tabStop⟩

/-- `read_char` looks at the source and the place only. -/
theorem view_readChar {it it' : Utf8Iterator} (hsource : it.source = it'.source)
    (hstart : it.start = it'.start) (hpos : it.pos = it'.pos)
    (htab : it.parser.tabStop = it'.parser.tabStop) : it.readChar.view = it'.readChar.view := by
  obtain ⟨d, width, current, -, hform⟩ := readChar_form it'.source it'.start
  obtain ⟨es, hread, -⟩ := hform it hsource hstart
  obtain ⟨es', hread', -⟩ := hform it' rfl rfl
  rw [hread, hread']
  simp only [view, moved, addErrors_tabStop, hsource, hstart, hpos, htab]

/-- What reading leaves alone. -/
structure Kept (it it' : Utf8Iterator) : Prop where
  source : it'.source = it.source
  mark : it'.mark = it.mark
  markPos : it'.markPos = it.markPos
  tabStop : it'.parser.tabStop = it.parser.tabStop

theorem readChar_kept (it : Utf8Iterator) : Kept it it.readChar := by
  obtain ⟨d, width, current, -, hform⟩ := readChar_form it.source it.start
  obtain ⟨es, hread, -⟩ := hform it rfl rfl
  rw [hread]
  exact ⟨rfl, rfl, rfl, addErrors_tabStop _ _⟩

theorem next_kept (it : Utf8Iterator) : Kept it it.next := by
  rw [next_eq]
  obtain ⟨hsource, hmark, hmarkPos, htab⟩ := readChar_kept
    { it with pos := it.updatePosition.pos, start := it.start + it.width }
  exact ⟨hsource, hmark, hmarkPos, htab⟩

theorem reset_kept (it : Utf8Iterator) : Kept it it.reset := by
  obtain ⟨hsource, hmark, hmarkPos, htab⟩ := readChar_kept
    { it with start := it.mark, pos := it.markPos }
  exact ⟨hsource, hmark, hmarkPos, htab⟩

theorem iterate_kept (k : Nat) (it : Utf8Iterator) : Kept it (Utf8Iterator.next^[k] it) := by
  induction k with
  | zero => exact ⟨rfl, rfl, rfl, rfl⟩
  | succ k ih =>
      rw [Function.iterate_succ_apply']
      have hnext := next_kept (Utf8Iterator.next^[k] it)
      exact ⟨hnext.source.trans ih.source, hnext.mark.trans ih.mark, hnext.markPos.trans ih.markPos,
        hnext.tabStop.trans ih.tabStop⟩

/-- What a reset finds depends on the mark. -/
theorem Kept.view_reset {it it' : Utf8Iterator} (h : Kept it it') : it.reset.view = it'.reset.view :=
  view_readChar h.source.symm h.mark.symm h.markPos.symm h.tabStop.symm

/-- Reading again finds the same. A carriage return is passed by then, if a line feed was behind it. -/
theorem view_readChar_readChar (it : Utf8Iterator) : it.readChar.readChar.view = it.readChar.view := by
  obtain ⟨d, width, current, hd, hform⟩ := readChar_form it.source it.start
  obtain ⟨es, hread, -⟩ := hform it rfl rfl
  rcases hd with rfl | ⟨rfl, rest, hdrop⟩
  · rw [moved_zero] at hread
    apply view_readChar
    · rw [hread]
    · rw [hread]
    · rw [hread]
    · rw [hread]
      exact addErrors_tabStop _ _
  · have hcrlf : it.readChar = it.accepted 1 0x0D (0x0A :: rest) := by
      have hfront : Front (it.source.drop it.start) (.char '\r') (0x0A :: rest) := by
        rw [hdrop]
        exact .char '\r' _
      exact readChar_eq hfront
    rw [accepted_cr, if_pos (show (0x0A :: rest).head? = some 0x0A from rfl)] at hcrlf
    have hlf : it.readChar.source.drop it.readChar.start = 0x0A :: rest := by
      rw [hcrlf]
      show it.source.drop (it.start + 1) = _
      rw [← List.drop_drop, hdrop]
      rfl
    have hfront : Front (it.readChar.source.drop it.readChar.start) (.char '\n') rest := by
      rw [hlf]
      exact .char '\n' _
    rw [readChar_eq hfront, hcrlf]
    rfl

/-! ## A place in the list -/

/-- The iterator stands at number `n` of the code points of the page. -/
structure Stands (src : List UInt8) (codes : List Int) (n : Nat) (it : Utf8Iterator) : Prop where
  source : it.source = src
  le : it.start ≤ src.length
  ahead : ∃ items, Segments (src.drop it.start) items ∧ codes.drop n = codePoints items
  settled : it.readChar.view = it.view
  offset : it.pos.offset = UInt32.ofNat it.start
  line : it.pos.line = lineOf (codes.take n)
  column : it.pos.column = columnOf it.parser.tabStop (codes.take n)

section

variable {src : List UInt8} {codes : List Int} {n : Nat} {it it' : Utf8Iterator}

theorem Stands.of_view (h : Stands src codes n it) (hview : it.view = it'.view) :
    Stands src codes n it' := by
  obtain ⟨hsource, hstart, hcurrent, hwidth, hpos, htab⟩ := View.mk.inj hview
  have hread : it'.readChar.view = it'.view :=
    (view_readChar hsource hstart hpos htab).symm.trans (h.settled.trans hview)
  refine ⟨hsource ▸ h.source, hstart ▸ h.le, hstart ▸ h.ahead, hread, ?_, hpos ▸ h.line, ?_⟩
  · rw [← hpos, ← hstart]
    exact h.offset
  · rw [← hpos, ← htab]
    exact h.column

/-- An error makes no difference. -/
theorem Stands.addError (h : Stands src codes n it) (e : Error) :
    Stands src codes n { it with parser := it.parser.addError e } := by
  apply h.of_view
  rw [view, view, addError_tabStop]

/-- A line feed behind a carriage return stands for both. -/
theorem codePoints_crlf (items : List Item) :
    codePoints (.char '\r' :: .char '\n' :: items) = codePoints (.char '\n' :: items) := rfl

/-- Reading at a place. -/
theorem stands_readChar (hsource : it.source = src) (hle : it.start ≤ src.length)
    (hahead : ∃ items, Segments (src.drop it.start) items ∧ codes.drop n = codePoints items)
    (hoffset : it.pos.offset = UInt32.ofNat it.start) (hline : it.pos.line = lineOf (codes.take n))
    (hcolumn : it.pos.column = columnOf it.parser.tabStop (codes.take n)) :
    Stands src codes n it.readChar := by
  have hsettled := view_readChar_readChar it
  obtain ⟨d, width, current, hd, hform⟩ := readChar_form src it.start
  obtain ⟨es, hread, -⟩ := hform it hsource rfl
  rw [hread] at hsettled ⊢
  refine ⟨hsource, ?_, ?_, hsettled, ?_, hline, ?_⟩
  · rcases hd with rfl | ⟨rfl, rest, hdrop⟩
    · exact hle
    · have hlen := congrArg List.length hdrop
      rw [List.length_drop, List.length_cons] at hlen
      show it.start + 1 ≤ src.length
      omega
  · rcases hd with rfl | ⟨rfl, rest, hdrop⟩
    · exact hahead
    · obtain ⟨items, hseg, hcodes⟩ := hahead
      obtain ⟨items', hseg'⟩ := segments_exists rest
      have hlf : Segments (0x0A :: rest) (.char '\n' :: items') := .cons (.char '\n' rest) hseg'
      have hitems : items = .char '\r' :: .char '\n' :: items' :=
        hseg.unique (hdrop ▸ .cons (.char '\r' _) hlf)
      refine ⟨.char '\n' :: items', ?_, ?_⟩
      · show Segments (src.drop (it.start + 1)) (.char '\n' :: items')
        rw [← List.drop_drop, hdrop]
        exact hlf
      · rw [hcodes, hitems, codePoints_crlf]
  · show it.pos.offset + UInt32.ofNat d = UInt32.ofNat (it.start + d)
    rw [hoffset, UInt32.ofNat_add]
  · show it.pos.column = columnOf (it.parser.addErrors es).tabStop _
    rw [addErrors_tabStop, hcolumn]

/-- What is ahead: the end, or the code point under the iterator and then the rest. -/
theorem Stands.cases (h : Stands src codes n it) :
    (codes.length ≤ n ∧ it.width = 0 ∧ it.current = -1)
      ∨ (it.current ≠ -1 ∧ it.start + it.width ≤ src.length
        ∧ ∃ items, Segments (src.drop (it.start + it.width)) items
          ∧ codes.drop n = it.current :: codePoints items) := by
  obtain ⟨items, hseg, hcodes⟩ := h.ahead
  obtain ⟨-, hstart, hcurrent, hwidth, -, -⟩ := View.mk.inj h.settled
  by_cases hend : it.source.length ≤ it.start
  · left
    rw [readChar_end hend] at hcurrent hwidth
    rw [List.drop_eq_nil_of_le (h.source ▸ hend)] at hseg
    rw [hseg.unique .nil] at hcodes
    exact ⟨List.drop_eq_nil_iff.mp hcodes, hwidth.symm, hcurrent.symm⟩
  · right
    obtain ⟨is, rest, hread⟩ := readChar_read (Nat.lt_of_not_le hend)
    have hplace := hread.place
    rw [hstart, hwidth] at hplace
    have hcover := hread.cover
    have hne := hread.current
    have hsegments := hread.segments
    have hpoints := hread.codePoints
    rw [h.source] at hcover hsegments
    rw [hcurrent] at hne hpoints
    obtain ⟨items', hseg'⟩ := segments_exists rest
    have hitems := hseg.unique (hsegments items' hseg')
    have hlen := congrArg List.length hcover
    rw [List.length_drop, List.length_append] at hlen
    have hle := h.le
    have hpos := List.length_pos_iff.mpr hread.ne
    refine ⟨hne, by omega, items', ?_, ?_⟩
    · rw [hplace, ← List.drop_drop, hcover, List.drop_left]
      exact hseg'
    · rw [hcodes, hitems, hpoints items' hseg']

theorem Stands.current (h : Stands src codes n it) : it.current = codes[n]?.getD (-1) := by
  rcases h.cases with ⟨hlen, -, hcurrent⟩ | ⟨-, -, items, -, hcodes⟩
  · rw [hcurrent, List.getElem?_eq_none hlen]
    rfl
  · have hget : codes[n]? = some it.current := by
      rw [← List.head?_drop, hcodes]
      rfl
    rw [hget]
    rfl

theorem updatePosition_pos (it : Utf8Iterator) :
    it.updatePosition.pos
      = { line := if it.current = 0x0A then it.pos.line + 1 else it.pos.line
          column := columnStep it.parser.tabStop it.pos.column it.current
          offset := it.pos.offset + UInt32.ofNat it.width } := by
  unfold updatePosition columnStep
  by_cases hlf : it.current = 0x0A
  · simp only [hlf, if_true]
  · simp only [hlf, if_false]
    by_cases htab : it.current = 0x09
    · simp only [htab, if_true]
    · simp only [htab, if_false]
      split <;> rfl

theorem lineOf_concat (codes : List Int) (c : Int) :
    lineOf (codes ++ [c]) = if c = 0x0A then lineOf codes + 1 else lineOf codes := by
  unfold lineOf
  by_cases hc : c = 0x0A
  · rw [if_pos hc, hc, List.count_append, List.count_singleton_self, UInt32.ofNat_add, UInt32.add_assoc]
    rfl
  · rw [if_neg hc, List.count_append, List.count_singleton, if_neg (by simpa using hc), Nat.add_zero]

theorem columnOf_concat (tabStop : UInt32) (codes : List Int) (c : Int) :
    columnOf tabStop (codes ++ [c]) = columnStep tabStop (columnOf tabStop codes) c :=
  List.foldl_concat ..

theorem Stands.length_drop_le (h : Stands src codes n it) :
    (codes.drop n).length ≤ it.source.length := by
  obtain ⟨items, hseg, hcodes⟩ := h.ahead
  calc (codes.drop n).length = (codePoints items).length := by rw [hcodes]
    _ ≤ (src.drop it.start).length := length_codePoints_le hseg
    _ ≤ src.length := by rw [List.length_drop]; exact Nat.sub_le _ _
    _ = it.source.length := by rw [h.source]

/-- **The next code point.** -/
theorem Stands.next (h : Stands src codes n it) : Stands src codes (n + 1) it.next := by
  rw [next_eq]
  have hpos := updatePosition_pos it
  have hoffset : (it.pos.offset + UInt32.ofNat it.width) = UInt32.ofNat (it.start + it.width) := by
    rw [h.offset, UInt32.ofNat_add]
  rcases h.cases with ⟨hlen, hwidth, hcurrent⟩ | ⟨hne, hle, items, hseg, hcodes⟩
  · -- nothing is left, so nothing moves
    have htake : codes.take (n + 1) = codes.take n := by
      rw [List.take_of_length_le hlen, List.take_of_length_le (Nat.le_succ_of_le hlen)]
    have hdrop : codes.drop (n + 1) = codes.drop n := by
      rw [List.drop_eq_nil_of_le hlen, List.drop_eq_nil_of_le (Nat.le_succ_of_le hlen)]
    apply stands_readChar
    · exact h.source
    · show it.start + it.width ≤ src.length
      rw [hwidth]
      exact h.le
    · show ∃ items, Segments (src.drop (it.start + it.width)) items ∧ _
      rw [hwidth, hdrop]
      exact h.ahead
    · rw [hpos]
      exact hoffset
    · rw [hpos, htake, hcurrent]
      exact h.line
    · rw [hpos, htake, hcurrent]
      exact h.column
  · have hget : codes[n]? = some it.current := by
      rw [← List.head?_drop, hcodes]
      rfl
    have htake : codes.take (n + 1) = codes.take n ++ [it.current] := by
      rw [List.take_add_one, hget]
      rfl
    apply stands_readChar
    · exact h.source
    · exact hle
    · refine ⟨items, hseg, ?_⟩
      rw [← List.drop_drop, hcodes]
      rfl
    · rw [hpos]
      exact hoffset
    · rw [hpos, htake, lineOf_concat, h.line]
    · rw [hpos, htake, columnOf_concat]
      show columnStep _ _ _ = _
      rw [h.column]

theorem Stands.iterate (h : Stands src codes n it) (k : Nat) :
    Stands src codes (n + k) (Utf8Iterator.next^[k] it) := by
  induction k with
  | zero => exact h
  | succ k ih =>
      rw [Function.iterate_succ_apply']
      exact ih.next

end

/-! ## Literals ahead -/

/-- A byte of a literal. -/
def Plain (b : UInt8) : Prop := 0x20 ≤ b.toNat ∧ b.toNat < 0x7F

/-- A byte up to what is not compared. -/
def lowerByte (caseSensitive : Bool) (b : UInt8) : UInt8 := if caseSensitive then b else tolower b

theorem lowerByte_toNat (caseSensitive : Bool) (b : UInt8) :
    ((lowerByte caseSensitive b).toNat : Int) = Cursor.lower caseSensitive b.toNat := by
  unfold lowerByte tolower Cursor.lower
  have hb := b.toNat_lt
  cases caseSensitive with
  | true => simp
  | false =>
      by_cases hupper : 65 ≤ b ∧ b ≤ 90
      · have hle : b.toNat ≤ 90 := UInt8.le_iff_toNat_le.mp hupper.2
        have hadd : (b + 32).toNat = b.toNat + 32 := by
          rw [UInt8.toNat_add]
          show (b.toNat + 32) % 256 = _
          exact Nat.mod_eq_of_lt (by omega)
        rw [if_neg (by decide), if_pos hupper, if_pos, hadd]
        · rfl
        · rw [UInt8.le_iff_toNat_le, UInt8.le_iff_toNat_le] at hupper
          exact ⟨rfl, Int.ofNat_le.mpr hupper.1, Int.ofNat_le.mpr hupper.2⟩
      · rw [if_neg (by decide), if_neg hupper, if_neg]
        rintro ⟨-, hlow, hhigh⟩
        apply hupper
        rw [UInt8.le_iff_toNat_le, UInt8.le_iff_toNat_le]
        exact ⟨Int.ofNat_le.mp hlow, Int.ofNat_le.mp hhigh⟩

/-- What is compared with a byte of a literal is such a byte, too. -/
theorem plain_of_lower {caseSensitive : Bool} {b : UInt8} {c : Int} (hb : Plain b)
    (h : Cursor.lower caseSensitive c = Cursor.lower caseSensitive b.toNat) :
    ∃ u : UInt8, Plain u ∧ c = u.toNat := by
  obtain ⟨hlow, hhigh⟩ := hb
  have hc : 0x20 ≤ c ∧ c < 0x7F := by
    unfold Cursor.lower at h
    split_ifs at h <;> omega
  refine ⟨UInt8.ofNat c.toNat, ?_, ?_⟩
  · rw [Plain, UInt8.toNat_ofNat_of_lt' (show _ < 256 by omega)]
    omega
  · rw [UInt8.toNat_ofNat_of_lt' (show _ < 256 by omega)]
    omega

theorem exists_char {b : UInt8} (hb : Plain b) :
    ∃ c : Char, utf8EncodeChar c = [b] ∧ c.toNat = b.toNat ∧ c ≠ '\r' ∧ scrub c = b.toNat := by
  obtain ⟨hlow, hhigh⟩ := hb
  obtain ⟨c, hc, hsize⟩ := isChar_one (u := b.toNat) (by omega)
  refine ⟨c, ?_, hc, ?_, ?_⟩
  · rw [String.utf8EncodeChar_eq_singleton hsize]
    congr 1
    rw [← UInt8.toNat_inj, ← hc]
    show c.val.toNat % 256 = c.toNat
    exact Nat.mod_eq_of_lt (by rw [Char.toNat] at hc; omega)
  · rintro rfl
    have : (13 : Nat) = b.toNat := hc
    omega
  · rw [scrub, if_neg, hc]
    rw [hc, isInvalidCodePoint]
    simp
    omega

/-- A byte of a literal at the front is a code point ahead. -/
theorem segments_plain {b : UInt8} (hb : Plain b) {bs : List UInt8} {items : List Item}
    (h : Segments (b :: bs) items) :
    ∃ items', Segments bs items' ∧ codePoints items = (b.toNat : Int) :: codePoints items' := by
  obtain ⟨c, henc, hc, hcr, hscrub⟩ := exists_char hb
  obtain ⟨items', hseg⟩ := segments_exists bs
  have hfront : Front (b :: bs) (.char c) bs := by
    rw [← List.singleton_append, ← henc]
    exact .char c bs
  refine ⟨items', hseg, ?_⟩
  rw [h.unique (.cons hfront hseg), codePoints_cons (i := .char c) hcr]
  exact congrArg (· :: codePoints items') hscrub

/-- A code point ahead that is in a literal is a byte at the front. -/
theorem head?_of_codePoints {b : UInt8} (hb : Plain b) {bs : List UInt8} {items : List Item}
    (h : Segments bs items) (hhead : (codePoints items).head? = some (b.toNat : Int)) :
    bs.head? = some b := by
  obtain ⟨hlow, hhigh⟩ := hb
  cases h with
  | nil => cases hhead
  | @cons bs rest i items hfront hs =>
      by_cases hcr : i.toChar = '\r'
      · -- it would be a line feed
        have hlf : (codePoints (i :: items)).head? = some 0x0A := by
          rw [codePoints, List.map_cons, newlines, if_pos hcr]
          rfl
        have hten : (0x0A : Int) = b.toNat := Option.some.inj (hlf.symm.trans hhead)
        omega
      · rw [codePoints_cons hcr] at hhead
        have hscrub : scrub i.toChar = b.toNat := Option.some.inj hhead
        have hvalid : isInvalidCodePoint i.toChar.toNat = false := by
          by_contra hinvalid
          rw [scrub, if_pos (by simpa using hinvalid)] at hscrub
          have hbig : (0xFFFD : Int) = b.toNat := hscrub
          omega
        rw [scrub, hvalid] at hscrub
        have hnat : i.toChar.toNat = b.toNat := Int.ofNat_inj.mp hscrub
        cases i with
        | bad type m =>
            have hbig : (0xFFFD : Nat) = b.toNat := hnat
            omega
        | char c =>
            obtain ⟨d, henc, hd, -, -⟩ := exists_char ⟨hlow, hhigh⟩
            have hcd : c = d := Char.toNat_inj.mp (hnat.trans hd.symm)
            rw [hfront.append, hcd]
            show (utf8EncodeChar d ++ rest).head? = some b
            rw [henc]
            rfl

/-- **A literal is compared with bytes, and so with code points.** -/
theorem match_iff (caseSensitive : Bool) {str : List UInt8} (hstr : ∀ b ∈ str, Plain b)
    {bs : List UInt8} {items : List Item} (h : Segments bs items) :
    (bs.take str.length).map (lowerByte caseSensitive) = str.map (lowerByte caseSensitive)
      ↔ ((codePoints items).take str.length).map (Cursor.lower caseSensitive)
        = str.map (fun b => Cursor.lower caseSensitive b.toNat) := by
  induction str generalizing bs items with
  | nil => simp
  | cons s str ih =>
      have hs := hstr s List.mem_cons_self
      have hinj : ∀ b : UInt8, lowerByte caseSensitive b = lowerByte caseSensitive s
          ↔ Cursor.lower caseSensitive b.toNat = Cursor.lower caseSensitive s.toNat := by
        intro b
        rw [← lowerByte_toNat, ← lowerByte_toNat, Int.ofNat_inj, UInt8.toNat_inj]
      cases bs with
      | nil =>
          rw [h.unique .nil]
          simp [codePoints, newlines]
      | cons b bs =>
          by_cases hb : Plain b
          · obtain ⟨items', hseg, hcodes⟩ := segments_plain hb h
            have htail := ih (fun x hx => hstr x (List.mem_cons_of_mem s hx)) hseg
            rw [hcodes]
            simp only [List.length_cons, List.take_succ_cons, List.map_cons, List.cons.injEq, hinj,
              htail]
          · -- neither the byte nor what it is read as is in a literal
            constructor
            · intro hmatch
              simp only [List.length_cons, List.take_succ_cons, List.map_cons, List.cons.injEq,
                hinj] at hmatch
              obtain ⟨u, hu, hbu⟩ := plain_of_lower hs hmatch.1
              have hbu' : b = u := UInt8.toNat_inj.mp (Int.ofNat_inj.mp hbu)
              exact absurd (hbu' ▸ hu) hb
            · intro hmatch
              generalize hcodes : codePoints items = codes at hmatch
              cases codes with
              | nil => simp at hmatch
              | cons c codes =>
                  simp only [List.length_cons, List.take_succ_cons, List.map_cons,
                    List.cons.injEq] at hmatch
                  obtain ⟨u, hu, hcu⟩ := plain_of_lower hs hmatch.1
                  have hhead := head?_of_codePoints hu h (by rw [hcodes, hcu]; rfl)
                  have hbu : b = u := Option.some.inj hhead
                  exact absurd (hbu ▸ hu) hb

/-! ## The cursor and the iterator -/

/-- The iterator is at the place of the cursor, and a reset brings it to the marked place. -/
structure Follows (src : List UInt8) (codes : List Int) (cursor : Cursor) (it : Utf8Iterator) :
    Prop where
  place : Stands src codes cursor.place it
  mark : Stands src codes cursor.mark it.reset
  offset : it.markPos.offset = UInt32.ofNat it.mark

section

variable {src : List UInt8} {codes : List Int} {cursor : Cursor} {it it' : Utf8Iterator}

theorem follows_setMark {n : Nat} (h : Stands src codes n it) :
    Follows src codes ⟨n, n⟩ it.setMark := by
  have hview : it.setMark.reset.view = it.readChar.view := view_readChar rfl rfl rfl rfl
  exact ⟨h.of_view rfl, h.of_view (hview.trans h.settled).symm, h.offset⟩

/-- The place moves and the mark stays. -/
theorem Follows.moved {n : Nat} (h : Follows src codes cursor it) (hkept : Kept it it')
    (hplace : Stands src codes n it') : Follows src codes { cursor with place := n } it' := by
  refine ⟨hplace, h.mark.of_view hkept.view_reset, ?_⟩
  rw [hkept.markPos, hkept.mark]
  exact h.offset

/-- `utf8iterator_maybe_consume_match` moves the iterator on, if at all. -/
theorem maybeConsumeMatch_snd (it : Utf8Iterator) (str : List UInt8) (caseSensitive : Bool) :
    ∃ k, (it.maybeConsumeMatch str caseSensitive).2 = Utf8Iterator.next^[k] it := by
  unfold maybeConsumeMatch
  cases caseSensitive with
  | true =>
      simp only [if_true]
      split
      · exact ⟨str.length, rfl⟩
      · exact ⟨0, rfl⟩
  | false =>
      simp only [Bool.false_eq_true, if_false]
      split
      · exact ⟨str.length, rfl⟩
      · exact ⟨0, rfl⟩

/-- The comparison of `utf8iterator_maybe_consume_match` is one of code points. -/
theorem maybeConsumeMatch_eq {n : Nat} (h : Stands src codes n it) (literal : Literal)
    (caseSensitive : Bool) :
    it.maybeConsumeMatch literal.bytes caseSensitive
      = if Cursor.matchesAt codes n literal caseSensitive then
          (true, Utf8Iterator.next^[literal.bytes.length] it)
        else (false, it) := by
  obtain ⟨items, hseg, hcodes⟩ := h.ahead
  have hplain : ∀ b ∈ literal.bytes, Plain b := fun b hb =>
    ⟨UInt8.le_iff_toNat_le.mp (literal.plain b hb).1, UInt8.lt_iff_toNat_lt.mp (literal.plain b hb).2⟩
  have hmatch := match_iff caseSensitive hplain hseg
  rw [← hcodes, ← h.source] at hmatch
  have hcompare : (if caseSensitive = true then
        (it.source.drop it.start).take literal.bytes.length = literal.bytes
      else ((it.source.drop it.start).take literal.bytes.length).map tolower
        = literal.bytes.map tolower)
      ↔ ((it.source.drop it.start).take literal.bytes.length).map (lowerByte caseSensitive)
        = literal.bytes.map (lowerByte caseSensitive) := by
    cases caseSensitive with
    | true =>
        have hid : lowerByte true = id := rfl
        rw [hid, List.map_id, List.map_id]
        rfl
    | false => exact Iff.rfl
  have hcond : (it.start + literal.bytes.length ≤ it.source.length
      ∧ (if caseSensitive = true then
          (it.source.drop it.start).take literal.bytes.length = literal.bytes
        else ((it.source.drop it.start).take literal.bytes.length).map tolower
          = literal.bytes.map tolower))
      ↔ Cursor.matchesAt codes n literal caseSensitive = true := by
    rw [hcompare, Cursor.matchesAt, decide_eq_true_iff, ← hmatch]
    refine ⟨fun hboth => hboth.2, fun heq => ⟨?_, heq⟩⟩
    -- bytes that agree with the literal are as many
    have hlen := congrArg List.length heq
    rw [List.length_map, List.length_map, List.length_take, List.length_drop] at hlen
    have hle := h.le
    rw [← h.source] at hle
    omega
  unfold maybeConsumeMatch
  exact if_congr hcond rfl rfl

/-- **One call.** -/
theorem call_follows (h : Follows src codes cursor it) (call : Call) :
    (call.run it).1 = (cursor.run codes call).1
      ∧ Follows src codes (cursor.run codes call).2 (call.run it).2 := by
  cases call with
  | next => exact ⟨rfl, h.moved (next_kept it) h.place.next⟩
  | mark => exact ⟨rfl, follows_setMark h.place⟩
  | reset => exact ⟨rfl, h.moved (reset_kept it) h.mark⟩
  | consume literal caseSensitive =>
      have hrun : Call.run it (.consume literal caseSensitive)
          = it.maybeConsumeMatch literal.bytes caseSensitive := rfl
      rw [hrun, maybeConsumeMatch_eq h.place, Cursor.run]
      split
      · exact ⟨rfl, h.moved (iterate_kept _ it) (h.place.iterate _)⟩
      · exact ⟨rfl, h⟩

theorem Follows.seen (h : Follows src codes cursor it) (answer : Bool) :
    (⟨answer, it.current, it.pos.line, it.pos.column⟩ : Seen)
      = Cursor.seen it.parser.tabStop codes answer cursor.place := by
  rw [h.place.current, h.place.line, h.place.column]
  rfl

theorem run_tabStop (call : Call) (it : Utf8Iterator) :
    (call.run it).2.parser.tabStop = it.parser.tabStop := by
  cases call with
  | next => exact (next_kept it).tabStop
  | mark => rfl
  | reset => exact (reset_kept it).tabStop
  | consume literal caseSensitive =>
      obtain ⟨k, hk⟩ := it.maybeConsumeMatch_snd literal.bytes caseSensitive
      show (it.maybeConsumeMatch literal.bytes caseSensitive).2.parser.tabStop = _
      rw [hk]
      exact (iterate_kept k it).tabStop

/-- Any calls. -/
theorem runCalls_follows (calls : List Call) (h : Follows src codes cursor it) :
    (runCalls calls it).1 = Cursor.runCalls it.parser.tabStop codes calls cursor := by
  induction calls generalizing cursor it with
  | nil => rfl
  | cons call calls ih =>
      obtain ⟨hanswer, hfollows⟩ := call_follows h call
      rw [runCalls, Cursor.runCalls, hfollows.seen, ih hfollows, run_tabStop, hanswer]

end

theorem init_stands (it : Utf8Iterator) (parser : Parser) {source : List UInt8} {items : List Item}
    (h : Segments source items) :
    Stands source (codePoints items) 0 (it.init parser source) :=
  stands_readChar rfl (Nat.zero_le _) ⟨items, h, rfl⟩ rfl rfl rfl

/-- **The iterator is a cursor.** For any calls behind `utf8iterator_init` and `utf8iterator_mark`. -/
theorem run_refines (it : Utf8Iterator) (parser : Parser) (source : List UInt8) :
    ∃ items, Segments source items
      ∧ ∀ calls, (runCalls calls (it.init parser source).setMark).1
        = Cursor.runCalls parser.tabStop (codePoints items) calls ⟨0, 0⟩ := by
  obtain ⟨items, hseg⟩ := segments_exists source
  have hfollows := follows_setMark (init_stands it parser hseg)
  refine ⟨items, hseg, fun calls => ?_⟩
  rw [runCalls_follows calls hfollows]
  congr 1
  exact (readChar_kept _).tabStop

/-! ## Errors -/

/-- The errors added from `p` to `p'` are about their places. -/
def Reported (src : List UInt8) (p p' : Parser) : Prop :=
  ∃ es, p' = p.addErrors es
    ∧ ∀ e ∈ es, e.position.offset = UInt32.ofNat e.originalText ∧ Honest src e

theorem Reported.refl (src : List UInt8) (p : Parser) : Reported src p p :=
  ⟨[], rfl, fun _ he => absurd he List.not_mem_nil⟩

theorem Reported.trans {src : List UInt8} {p q r : Parser} (h : Reported src p q)
    (h' : Reported src q r) : Reported src p r := by
  obtain ⟨es, rfl, hes⟩ := h
  obtain ⟨es', rfl, hes'⟩ := h'
  refine ⟨es ++ es', Parser.addErrors_append p es es', fun e he => ?_⟩
  rcases List.mem_append.mp he with he | he
  · exact hes e he
  · exact hes' e he

section

variable {src : List UInt8} {codes : List Int} {cursor : Cursor} {it : Utf8Iterator}

theorem readChar_reported (hoffset : it.pos.offset = UInt32.ofNat it.start) :
    Reported it.source it.parser it.readChar.parser := by
  obtain ⟨d, width, current, -, hform⟩ := readChar_form it.source it.start
  obtain ⟨es, hread, hhere⟩ := hform it rfl rfl
  refine ⟨es, by rw [hread]; rfl, fun e he => ?_⟩
  obtain ⟨hpos, hstart, hhonest⟩ := hhere e he
  rw [hpos, hstart]
  exact ⟨hoffset, hhonest⟩

theorem Stands.next_reported {n : Nat} (h : Stands src codes n it) :
    Reported src it.parser it.next.parser := by
  have hoffset : it.updatePosition.pos.offset = UInt32.ofNat (it.start + it.width) := by
    rw [updatePosition_pos, h.offset, UInt32.ofNat_add]
  rw [next_eq, ← h.source]
  exact readChar_reported hoffset

theorem Stands.iterate_reported {n : Nat} (h : Stands src codes n it) (k : Nat) :
    Reported src it.parser (Utf8Iterator.next^[k] it).parser := by
  induction k with
  | zero => exact .refl src _
  | succ k ih =>
      rw [Function.iterate_succ_apply']
      exact ih.trans (h.iterate k).next_reported

theorem Follows.call_reported (h : Follows src codes cursor it) (call : Call) :
    Reported src it.parser (call.run it).2.parser := by
  cases call with
  | next => exact h.place.next_reported
  | mark => exact .refl src _
  | reset =>
      rw [← h.place.source]
      exact readChar_reported h.offset
  | consume literal caseSensitive =>
      obtain ⟨k, hk⟩ := it.maybeConsumeMatch_snd literal.bytes caseSensitive
      show Reported src it.parser (it.maybeConsumeMatch literal.bytes caseSensitive).2.parser
      rw [hk]
      exact h.place.iterate_reported k

theorem Follows.runCalls_reported (h : Follows src codes cursor it) (calls : List Call) :
    Reported src it.parser (runCalls calls it).2.parser := by
  induction calls generalizing cursor it with
  | nil => exact .refl src _
  | cons call calls ih => exact (h.call_reported call).trans (ih (call_follows h call).2)

end

/-- **Every error is true**, after any calls. -/
theorem run_errors (it : Utf8Iterator) (parser : Parser) (source : List UInt8) (calls : List Call) :
    ∃ es, (runCalls calls (it.init parser source).setMark).2.parser = parser.addErrors es
      ∧ ∀ e ∈ es, e.position.offset = UInt32.ofNat e.originalText ∧ Honest source e := by
  obtain ⟨items, hseg⟩ := segments_exists source
  have hinit : Reported source parser (it.init parser source).parser := readChar_reported rfl
  have hfollows := follows_setMark (init_stands it parser hseg)
  exact hinit.trans (hfollows.runCalls_reported calls)

end Utf8Iterator

end CSearch.Gumbo
