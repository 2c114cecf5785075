import CSearch.Gumbo.Iterator

set_option autoImplicit false

/-! # Reading a page to its end

A page is cut into pieces (`Segments`) from the front, in just one way. The iterator goes over it and
gives U+FFFD for each piece that is no character and for each character that HTML forbids, and a line
feed for a carriage return, with or without a line feed behind it (`iterate_segments`). Every such
U+FFFD is reported, with the place and the bytes of the piece.

For a page that is the encoding of a text, these are the characters of the text (`iterate_text`), and
pages without reports are of this kind (`iterate_silent_iff`).
-/

namespace CSearch.Gumbo

open String (utf8EncodeChar)
open Utf8

/-! ## The pieces of a page -/

/-- **How a page is cut into pieces.** -/
inductive Segments : List UInt8 → List Item → Prop where
  | nil : Segments [] []
  | cons {bs rest : List UInt8} {i : Item} {items : List Item} (h : Front bs i rest)
      (hs : Segments rest items) : Segments bs (i :: items)

theorem Segments.unique {bs : List UInt8} {items items' : List Item} (h : Segments bs items)
    (h' : Segments bs items') : items = items' := by
  have hempty : ∀ {i rest}, ¬ Front [] i rest := by
    intro i rest hfront
    exact hfront.bytes_ne (List.append_eq_nil_iff.mp hfront.append.symm).1
  induction h generalizing items' with
  | nil =>
      cases h' with
      | nil => rfl
      | cons hfront hs => exact absurd hfront hempty
  | cons hfront hs ih =>
      cases h' with
      | nil => exact absurd hfront hempty
      | cons hfront' hs' =>
          obtain ⟨rfl, rfl⟩ := hfront.unique hfront'
          rw [ih hs']

theorem segments_text (text : List Char) :
    Segments (text.flatMap utf8EncodeChar) (text.map .char) := by
  induction text with
  | nil => exact .nil
  | cons c text ih => exact .cons (.char c _) ih

theorem Segments.flatMap_bytes {bs : List UInt8} {items : List Item} (h : Segments bs items) :
    items.flatMap Item.bytes = bs := by
  induction h with
  | nil => rfl
  | cons hfront hs ih => rw [List.flatMap_cons, ih, ← hfront.append]

namespace Item

/-- The character a piece is read as. -/
def toChar : Item → Char
  | char c => c
  | bad _ _ => Char.ofNat 0xFFFD

/-- The error for a piece. -/
def error? : Item → Option ErrorType
  | char c => if isInvalidCodePoint c.toNat then some .utf8Invalid else none
  | bad type _ => some type

end Item

/-- Line feeds for carriage returns, and for carriage returns with a line feed behind them. `cr` says
that a carriage return has just been read. -/
def newlines : Bool → List Char → List Char
  | _, [] => []
  | cr, c :: text =>
      if c = '\r' then '\n' :: newlines true text
      else if cr = true ∧ c = '\n' then newlines false text
      else c :: newlines false text

/-- U+FFFD for a character that HTML forbids. -/
def scrub (c : Char) : Int := if isInvalidCodePoint c.toNat then kUtf8ReplacementChar else c.toNat

/-- **The code points of a page.** -/
def codePoints (items : List Item) : List Int := (newlines false (items.map Item.toChar)).map scrub

/-- A page has no more code points than bytes. -/
theorem length_codePoints_le {bs : List UInt8} {items : List Item} (h : Segments bs items) :
    (codePoints items).length ≤ bs.length := by
  have hnewlines : ∀ cr text, (newlines cr text).length ≤ text.length := by
    intro cr text
    induction text generalizing cr with
    | nil => exact Nat.le_refl 0
    | cons c text ih =>
        rw [newlines]
        split
        · exact Nat.succ_le_succ (ih true)
        · split
          · exact Nat.le_succ_of_le (ih false)
          · exact Nat.succ_le_succ (ih false)
  have hitems : items.length ≤ bs.length := by
    induction h with
    | nil => exact Nat.le_refl 0
    | cons hfront hs ih =>
        have hpos := List.length_pos_iff.mpr hfront.bytes_ne
        rw [hfront.append, List.length_append, List.length_cons]
        omega
  calc (codePoints items).length
      = (newlines false (items.map Item.toChar)).length := List.length_map _
    _ ≤ (items.map Item.toChar).length := hnewlines false _
    _ = items.length := List.length_map _
    _ ≤ bs.length := hitems

/-- What an error says: its type, where the piece is, and its bytes as a number. -/
def Error.report (e : Error) : ErrorType × Nat × Option UInt64 := (e.type, e.originalText, e.codepoint)

/-- **The reports about a page**, for pieces from place `n` on. -/
def reports : Nat → List Item → List (ErrorType × Nat × Option UInt64)
  | _, [] => []
  | n, i :: items =>
      i.error?.toList.map (fun type => (type, n, some (rawCodePoint i.bytes)))
        ++ reports (n + i.bytes.length) items

theorem reports_append (n : Nat) (is items : List Item) :
    reports n (is ++ items)
      = reports n is ++ reports (n + (is.flatMap Item.bytes).length) items := by
  induction is generalizing n with
  | nil => rfl
  | cons i is ih =>
      rw [List.cons_append, reports, reports, ih, List.append_assoc, List.flatMap_cons,
        List.length_append, Nat.add_assoc]

theorem reports_eq_nil_iff (n : Nat) (items : List Item) :
    reports n items = [] ↔ ∀ i ∈ items, i.error? = none := by
  induction items generalizing n with
  | nil => simp [reports]
  | cons i items ih => simp [reports, ih]

/-- Pieces without errors are characters that HTML allows. -/
theorem exists_text {items : List Item} (h : ∀ i ∈ items, i.error? = none) :
    ∃ text : List Char, items = text.map .char ∧ ∀ c ∈ text, isInvalidCodePoint c.toNat = false := by
  induction items with
  | nil => exact ⟨[], rfl, fun c hc => absurd hc List.not_mem_nil⟩
  | cons i items ih =>
      obtain ⟨text, rfl, htext⟩ := ih (fun j hj => h j (List.mem_cons_of_mem i hj))
      have hi := h i List.mem_cons_self
      cases i with
      | char c =>
          have hc : isInvalidCodePoint c.toNat = false := by simpa [Item.error?] using hi
          exact ⟨c :: text, rfl, List.forall_mem_cons.mpr ⟨hc, htext⟩⟩
      | bad type m => cases hi

/-- `gumbo_add_error`, again and again. -/
def Parser.addErrors (p : Parser) (es : List Error) : Parser := es.foldl Parser.addError p

theorem Parser.addErrors_append (p : Parser) (es es' : List Error) :
    (p.addErrors es).addErrors es' = p.addErrors (es ++ es') :=
  List.foldl_append.symm

/-- Without a limit, every error is kept. -/
theorem Parser.errors_addErrors {p : Parser} (h : p.maxErrors < 0) (es : List Error) :
    (p.addErrors es).errors = p.errors ++ es := by
  induction es generalizing p with
  | nil => exact (List.append_nil _).symm
  | cons e es ih =>
      have hadd : p.addError e = { p with errors := p.errors ++ [e] } := if_neg (by omega)
      have hrest := ih (p := { p with errors := p.errors ++ [e] }) h
      show ((p.addError e).addErrors es).errors = _
      rw [hadd, hrest, List.append_assoc]
      rfl

/-! ## Reading a code point -/

namespace Utf8Iterator

/-- What `read_char` has done: the pieces `is` have been read, and `rest` is behind them. -/
structure Read (it it' : Utf8Iterator) (is : List Item) (rest : List UInt8) : Prop where
  source : it'.source = it.source
  cover : it.source.drop it.start = is.flatMap Item.bytes ++ rest
  ne : is.flatMap Item.bytes ≠ []
  place : it'.start + it'.width = it.start + (is.flatMap Item.bytes).length
  current : it'.current ≠ -1
  segments : ∀ items, Segments rest items → Segments (it.source.drop it.start) (is ++ items)
  codePoints : ∀ items, Segments rest items →
    codePoints (is ++ items) = it'.current :: codePoints items
  errors : ∃ es, it'.parser = it.parser.addErrors es ∧ es.map Error.report = reports it.start is

section

variable {it : Utf8Iterator} {rest : List UInt8}

theorem scrub_ne (c : Char) : scrub c ≠ -1 := by
  rw [scrub]
  split
  · decide
  · omega

/-- A carriage return makes no difference if no line feed follows. -/
theorem newlines_true {text : List Char} (h : text.head? ≠ some '\n') :
    newlines true text = newlines false text := by
  cases text with
  | nil => rfl
  | cons c text =>
      have hc : c ≠ '\n' := fun hc => h (by rw [hc]; rfl)
      rw [newlines, newlines]
      simp only [hc, and_false]

/-- A line feed among the pieces is one in the source. -/
theorem head?_of_segments {items : List Item} (h : Segments rest items)
    (hlf : (items.map Item.toChar).head? = some '\n') : rest.head? = some 0x0A := by
  cases h with
  | nil => cases hlf
  | cons hfront hs =>
      have hbad : Char.ofNat 0xFFFD ≠ '\n' := by decide
      cases hfront with
      | char c rest =>
          have hc : c = '\n' := Option.some.inj hlf
          rw [hc]
          rfl
      | stray rest hb => exact absurd (Option.some.inj hlf) hbad
      | broken bs hm hne hinc hb => exact absurd (Option.some.inj hlf) hbad
      | cut hm hne hinc => exact absurd (Option.some.inj hlf) hbad

/-- A piece that is not a carriage return. -/
theorem codePoints_cons {i : Item} (h : i.toChar ≠ '\r') (items : List Item) :
    Gumbo.codePoints (i :: items) = scrub i.toChar :: Gumbo.codePoints items := by
  rw [Gumbo.codePoints, List.map_cons, newlines, if_neg h, if_neg (by simp), List.map_cons]
  rfl

/-- A character that is not a carriage return. -/
theorem accepted_of_ne {c : Char} (hc : c ≠ '\r') (it : Utf8Iterator) (n : Nat)
    (rest : List UInt8) :
    it.accepted n c.val rest
      = if isInvalidCodePoint c.toNat then
          { { it with width := n }.addError .utf8Invalid with current := kUtf8ReplacementChar }
        else { it with width := n, current := c.toNat } := by
  have hval : c.val ≠ 0x0D := fun h => hc (Char.ext h)
  unfold accepted
  simp only [hval, if_false]
  rfl

/-- A carriage return, alone or with a line feed. -/
theorem accepted_cr (it : Utf8Iterator) (rest : List UInt8) :
    it.accepted 1 0x0D rest
      = if rest.head? = some 0x0A then
          { it with
            width := 1
            start := it.start + 1
            pos := { it.pos with offset := it.pos.offset + 1 }
            current := 0x0A }
        else { it with width := 1, current := 0x0A } := by
  have hvalid : isInvalidCodePoint (UInt32.toNat 0x0A) = false := by decide
  unfold accepted
  simp only [if_true, hvalid, Bool.false_eq_true, if_false]
  split <;> rfl

theorem read_cr (hdrop : it.source.drop it.start = 0x0D :: rest) (hrest : rest.head? ≠ some 0x0A) :
    Read it (it.accepted 1 0x0D rest) [.char '\r'] rest := by
  rw [accepted_cr, if_neg hrest]
  refine ⟨rfl, hdrop, List.cons_ne_nil _ _, rfl, show (0x0A : Int) ≠ -1 by decide, ?_, ?_,
    [], rfl, rfl⟩
  · intro items hs
    rw [hdrop]
    exact .cons (.char '\r' rest) hs
  · intro items hs
    have hhead : (items.map Item.toChar).head? ≠ some '\n' := fun h => hrest (head?_of_segments hs h)
    show (newlines false ('\r' :: items.map Item.toChar)).map scrub = _
    rw [newlines, if_pos rfl, newlines_true hhead]
    rfl

theorem read_crlf (hdrop : it.source.drop it.start = 0x0D :: 0x0A :: rest) :
    Read it (it.accepted 1 0x0D (0x0A :: rest)) [.char '\r', .char '\n'] rest := by
  rw [accepted_cr, if_pos (show (0x0A :: rest).head? = some 0x0A from rfl)]
  refine ⟨rfl, hdrop, List.cons_ne_nil _ _, rfl, show (0x0A : Int) ≠ -1 by decide, ?_, ?_,
    [], rfl, rfl⟩
  · intro items hs
    rw [hdrop]
    exact .cons (.char '\r' _) (.cons (.char '\n' rest) hs)
  · intro items hs
    show (newlines false ('\r' :: '\n' :: items.map Item.toChar)).map scrub = _
    rw [newlines, if_pos rfl, newlines, if_neg (by decide), if_pos (by decide)]
    rfl

theorem addError_report {it it' : Utf8Iterator} {type : ErrorType} {m : List UInt8}
    (hdrop : it.source.drop it.start = m ++ rest) (hsource : it'.source = it.source)
    (hstart : it'.start = it.start) (hwidth : it'.width = m.length) (hparser : it'.parser = it.parser) :
    ∃ es, (it'.addError type).parser = it.parser.addErrors es
      ∧ es.map Error.report = [(type, it.start, some (rawCodePoint m))] := by
  refine ⟨[⟨type, it'.pos, it.start, some (rawCodePoint m)⟩], ?_, rfl⟩
  show it'.parser.addError _ = it.parser.addError _
  rw [hsource, hstart, hwidth, hdrop, List.take_left, hparser]

/-- A piece that is not a carriage return, in one step. -/
theorem read_item {i : Item} (hcr : i.toChar ≠ '\r') (hfront : Front (it.source.drop it.start) i rest) :
    Read it (i.see it rest) [i] rest := by
  have hdrop := hfront.append
  have hbytes : [i].flatMap Item.bytes = i.bytes := List.append_nil _
  have hreports : reports it.start [i]
      = i.error?.toList.map (fun type => (type, it.start, some (rawCodePoint i.bytes))) :=
    List.append_nil _
  have hcodes : ∀ items, Gumbo.codePoints ([i] ++ items) = scrub i.toChar :: Gumbo.codePoints items :=
    codePoints_cons hcr
  have hsegments : ∀ items, Segments rest items →
      Segments (it.source.drop it.start) ([i] ++ items) := fun _ hs => .cons hfront hs
  suffices h : (i.see it rest).source = it.source ∧ (i.see it rest).start = it.start
      ∧ (i.see it rest).width = i.bytes.length ∧ (i.see it rest).current = scrub i.toChar
      ∧ ∃ es, (i.see it rest).parser = it.parser.addErrors es
        ∧ es.map Error.report = reports it.start [i] by
    obtain ⟨hsource, hstart, hwidth, hcurrent, herrors⟩ := h
    refine ⟨hsource, ?_, ?_, ?_, ?_, hsegments, ?_, herrors⟩
    · rw [hbytes, hdrop]
    · rw [hbytes]
      exact hfront.bytes_ne
    · rw [hbytes, hstart, hwidth]
    · rw [hcurrent]
      exact scrub_ne _
    · intro items _
      rw [hcodes, hcurrent]
  rw [hreports]
  cases i with
  | char c =>
      have hsee : (Item.char c).see it rest = it.accepted c.utf8Size c.val rest := rfl
      rw [hsee, accepted_of_ne (show c ≠ '\r' from hcr)]
      have hlen : c.utf8Size = (utf8EncodeChar c).length := (length_encode c).symm
      by_cases hinvalid : isInvalidCodePoint c.toNat = true
      · have herror : (Item.char c).error? = some .utf8Invalid := if_pos hinvalid
        have hscrub : scrub c = kUtf8ReplacementChar := if_pos hinvalid
        rw [if_pos hinvalid, herror]
        exact ⟨rfl, rfl, hlen, hscrub.symm, addError_report hdrop rfl rfl hlen rfl⟩
      · have herror : (Item.char c).error? = none := if_neg hinvalid
        have hscrub : scrub c = c.toNat := if_neg hinvalid
        rw [if_neg hinvalid, herror]
        exact ⟨rfl, rfl, hlen, hscrub.symm, [], rfl, rfl⟩
  | bad type m => exact ⟨rfl, rfl, rfl, rfl, addError_report hdrop rfl rfl rfl rfl⟩

/-- **What `read_char` does** before the end of the page. -/
theorem readChar_read (h : it.start < it.source.length) : ∃ is rest, Read it it.readChar is rest := by
  obtain ⟨i, rest, hfront, hsee⟩ := readChar_front it h
  rw [hsee]
  by_cases hcr : i.toChar = '\r'
  · have hi : i = .char '\r' := by
      cases i with
      | char c => rw [show c = '\r' from hcr]
      | bad type m => exact absurd hcr (show Char.ofNat 0xFFFD ≠ '\r' by decide)
    subst hi
    have hdrop := hfront.append
    by_cases hrest : rest.head? = some 0x0A
    · obtain ⟨rest', rfl⟩ : ∃ rest', rest = 0x0A :: rest' := by
        cases rest with
        | nil => cases hrest
        | cons b rest' => exact ⟨rest', by rw [Option.some.inj hrest]⟩
      exact ⟨_, rest', read_crlf hdrop⟩
    · exact ⟨_, rest, read_cr hdrop hrest⟩
  · exact ⟨[i], rest, read_item hcr hfront⟩

end

/-! ## Reading a page -/

theorem next_eq (it : Utf8Iterator) :
    it.next = { it with pos := it.updatePosition.pos, start := it.start + it.width }.readChar := by
  unfold next updatePosition
  dsimp only
  split
  · rfl
  · split
    · rfl
    · split <;> rfl

/-- The loop from a place on. The induction is on how often it goes round, and every round leaves
less of the page. -/
theorem collect_readChar (fuel : Nat) (it : Utf8Iterator) (hle : it.start ≤ it.source.length)
    (hfuel : it.source.length - it.start < fuel) :
    ∃ items es it', Segments (it.source.drop it.start) items
      ∧ collect fuel it.readChar = some (codePoints items, it')
      ∧ it'.parser = it.parser.addErrors es ∧ es.map Error.report = reports it.start items := by
  induction fuel generalizing it with
  | zero => exact absurd hfuel (Nat.not_lt_zero _)
  | succ fuel ih =>
      by_cases hend : it.source.length ≤ it.start
      · rw [readChar_end hend, List.drop_eq_nil_of_le hend]
        exact ⟨[], [], _, .nil, if_pos rfl, rfl, rfl⟩
      · obtain ⟨is, rest, hread⟩ := readChar_read (Nat.lt_of_not_le hend)
        have hlen := congrArg List.length hread.cover
        rw [List.length_drop, List.length_append] at hlen
        have hpos := List.length_pos_iff.mpr hread.ne
        have hplace := hread.place
        have hrest : it.source.drop (it.start + (is.flatMap Item.bytes).length) = rest := by
          rw [← List.drop_drop, hread.cover, List.drop_left]
        obtain ⟨items, es, it', hseg, hcollect, hparser, hes⟩ :=
          ih { it.readChar with
            pos := it.readChar.updatePosition.pos
            start := it.readChar.start + it.readChar.width }
            (by simp only [hread.source]; omega) (by simp only [hread.source]; omega)
        simp only [hread.source, hplace, hrest] at hseg hes
        obtain ⟨es₀, hparser₀, hes₀⟩ := hread.errors
        refine ⟨is ++ items, es₀ ++ es, it', hread.segments items hseg, ?_, ?_, ?_⟩
        · rw [collect, if_neg hread.current, next_eq, hcollect, hread.codePoints items hseg]
          rfl
        · rw [hparser, ← Parser.addErrors_append, ← hparser₀]
        · rw [List.map_append, hes₀, hes, reports_append]

/-- The loop over a page with known pieces. -/
theorem iterate_of_segments (it : Utf8Iterator) (parser : Parser) {source : List UInt8}
    {items : List Item} (h : Segments source items) :
    ∃ es it', collect (source.length + 1) (it.init parser source) = some (codePoints items, it')
      ∧ it'.parser = parser.addErrors es ∧ es.map Error.report = reports 0 items := by
  obtain ⟨items', es, it', hseg, hrun⟩ :=
    collect_readChar (source.length + 1)
      { it with source := source, start := 0, pos := ⟨1, 1, 0⟩, parser := parser }
      (Nat.zero_le _) (Nat.lt_succ_self _)
  rw [h.unique hseg]
  exact ⟨es, it', hrun⟩

/-- An iterator in fresh memory. -/
def blank : Utf8Iterator := ⟨[], 0, 0, 0, 0, ⟨0, 0, 0⟩, ⟨0, 0, 0⟩, Parser.defaults⟩

/-- Every page can be cut into pieces. -/
theorem segments_exists (source : List UInt8) : ∃ items, Segments source items := by
  obtain ⟨items, -, -, hseg, -⟩ :=
    collect_readChar (source.length + 1) { blank with source := source } (Nat.zero_le _)
      (Nat.lt_succ_self _)
  exact ⟨items, hseg⟩

/-- **What the iterator makes of a page.** The page can be cut into pieces in one way, and their code
points come out. -/
theorem iterate_segments (it : Utf8Iterator) (parser : Parser) (source : List UInt8) :
    ∃ items, (∀ items', Segments source items' ↔ items' = items)
      ∧ ∃ es it', collect (source.length + 1) (it.init parser source) = some (codePoints items, it')
        ∧ it'.parser = parser.addErrors es ∧ es.map Error.report = reports 0 items := by
  obtain ⟨items, hseg⟩ := segments_exists source
  refine ⟨items, fun items' => ⟨fun h => h.unique hseg, ?_⟩, iterate_of_segments it parser hseg⟩
  rintro rfl
  exact hseg

/-- **A text is read as it is**, up to carriage returns and what HTML forbids. -/
theorem iterate_text (it : Utf8Iterator) (parser : Parser) (text : List Char) :
    (collect ((text.flatMap utf8EncodeChar).length + 1)
        (it.init parser (text.flatMap utf8EncodeChar))).map Prod.fst
      = some ((newlines false text).map scrub) := by
  obtain ⟨es, it', hrun, -⟩ := iterate_of_segments it parser (segments_text text)
  have htext : (text.map Item.char).map Item.toChar = text := by
    rw [List.map_map]
    exact List.map_id text
  rw [hrun, Option.map_some, codePoints, htext]

/-- **Pages without errors** are the encodings of texts that HTML allows. -/
theorem iterate_silent_iff (it : Utf8Iterator) (parser : Parser) (hmax : parser.maxErrors < 0)
    (source : List UInt8) :
    (∃ codes it', collect (source.length + 1) (it.init parser source) = some (codes, it')
        ∧ it'.parser.errors = parser.errors)
      ↔ ∃ text : List Char, source = text.flatMap utf8EncodeChar
        ∧ ∀ c ∈ text, isInvalidCodePoint c.toNat = false := by
  constructor
  · rintro ⟨codes, it', hrun, hsilent⟩
    obtain ⟨items, hitems⟩ := segments_exists source
    obtain ⟨es, it'', hrun', hparser, hes⟩ := iterate_of_segments it parser hitems
    obtain ⟨-, rfl⟩ := Prod.mk.inj (Option.some.inj (hrun.symm.trans hrun'))
    rw [hparser, Parser.errors_addErrors hmax] at hsilent
    have hempty : es = [] := List.self_eq_append_right.mp hsilent.symm
    have hnone : reports 0 items = [] := by rw [← hes, hempty]; rfl
    obtain ⟨text, rfl, htext⟩ := exists_text ((reports_eq_nil_iff 0 items).mp hnone)
    refine ⟨text, ?_, htext⟩
    rw [← hitems.flatMap_bytes, List.flatMap_map]
    rfl
  · rintro ⟨text, rfl, htext⟩
    obtain ⟨es, it', hrun, hparser, hes⟩ := iterate_of_segments it parser (segments_text text)
    refine ⟨_, it', hrun, ?_⟩
    have hnone : reports 0 (text.map .char) = [] := by
      rw [reports_eq_nil_iff, List.forall_mem_map]
      intro c hc
      simp [Item.error?, htext c hc]
    rw [hnone, List.map_eq_nil_iff] at hes
    rw [hparser, hes]
    rfl

theorem iterate_silent_iff_defaults :
    ∃ codes it', collect 3 (blank.init Parser.defaults [0xC3, 0xA9]) = some (codes, it')
      ∧ it'.parser.errors = [] :=
  (iterate_silent_iff blank Parser.defaults (by decide) [0xC3, 0xA9]).mpr
    ⟨['é'], by decide, List.forall_mem_singleton.mpr (by decide)⟩

end Utf8Iterator

end CSearch.Gumbo
