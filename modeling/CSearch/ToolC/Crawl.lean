import CSearch.ToolC.CrawlFetch
import CSearch.ToolC.CrawlParse
import CSearch.ToolC.Tokenizer

set_option autoImplicit false

/-! # Crawling a page with `tool.c`

`fetchtest` puts the pieces together: a page is fetched, parsed and cut into words. Every stage hands
a C string to the next one, and takes it from a buffer that need not have a terminator. The parser
and ICU are parameters.

What is printed are the words of the text of the page, and of what `realloc` has left behind that
text, up to a zero (`fetch_words`). Without a zero, or without a text, a stage reads where it has
no memory; and the tokenizer writes where it has none, unless the text is shorter as `UChar` or there
are two bytes to spare behind the allocation (`fetch_defined_iff`).
-/

namespace CSearch.ToolC

/-! ## The functions of the source -/

/-- The string in a buffer. Nothing can be read behind the allocation; before the first one there is
a null pointer. -/
def BuffT.str (b : BuffT) : Option CString := b.buff.cstring 0 b.cap.toNat

/-- `crawl_parse_parse`. -/
def CrawlParseT.parse (c : CrawlParseT) (gumboParse : CString → Node) (content : CString) :
    CrawlParseT :=
  c.parseReal (gumboParse content)

/-- `while( !tokenizer_next( &t, word, sizeof(word) ) )`: the words that are printed. -/
def TokenizerT.loop (icu : Icu) (size : Nat) : Nat → TokenizerT → Mem → Option (List (List UInt8))
  | 0, _, _ => none
  | fuel + 1, t, word =>
      let r := t.next icu word size
      if r.1 = 0 then do
        let w ← r.2.2.cstring 0 size
        let ws ← loop icu size fuel r.2.1 r.2.2
        return w.chars :: ws
      else some []

/-- What the program uses of other libraries: ICU, the boundaries its iterator finds in a text, and
the parser. -/
structure Libraries where
  icu : Icu
  boundaries : (text : UString) → Boundaries text.chars.length
  gumboParse : CString → Node

/-- The memory that is returned by allocations: for the page, for its text, for the text as `UChar`,
with `slack` usable bytes behind the last; and the array `word`. -/
structure Heaps where
  fetch : Nat → Mem
  parse : Nat → Mem
  token : Nat → UInt16
  slack : Nat
  word : Mem

/-- `fetchtest`, for a page that arrives in pieces. -/
def fetchtest (L : Libraries) (H : Heaps) (url : CString) (ps : List Piece) (fuel : Nat) :
    Option (List (List UInt8)) := do
  let f := ((CrawlFetchT.init url H.fetch).deliver ps).2
  let content ← f.buff.str
  let p := (CrawlParseT.init H.parse).parse L.gumboParse content
  let input ← p.buff.str
  let t ← TokenizerT.init L.icu input (L.boundaries (L.icu.fromChars input)).bounds H.token H.slack
  TokenizerT.loop L.icu 1024 fuel t H.word

/-! ## Words -/

/-- **The loop prints the words that are left**, each cut to the size of the array. -/
theorem TokenizerT.Pending.loop_eq {icu : Icu} {text : UString} {ws : List (List UInt16)}
    {t : TokenizerT} (h : Pending icu text ws t) (word : Mem) (n : Nat) {fuel : Nat}
    (hfuel : ws.length < fuel) :
    TokenizerT.loop icu (n + 1) fuel t word
      = some (ws.map (fun w => (icu.toChars (w.take n)).take n)) := by
  induction ws generalizing t word fuel with
  | nil =>
      obtain ⟨fuel, rfl⟩ : ∃ k, fuel = k + 1 := ⟨fuel - 1, by omega⟩
      obtain ⟨-, hret, -⟩ := h.next word n
      have hdone : (t.next icu word (n + 1)).1 = -1 := hret
      rw [TokenizerT.loop, hdone]
      rfl
  | cons w ws ih =>
      obtain ⟨fuel, rfl⟩ : ∃ k, fuel = k + 1 := ⟨fuel - 1, by omega⟩
      obtain ⟨-, ⟨hzero, hword⟩, hrest⟩ := h.next word n
      have hlen : ((icu.toChars (w.take n)).take n).length < n + 1 :=
        Nat.lt_succ_of_le (List.length_take_le n _)
      have hcopy := hword.cstring_eq hlen
      have hloop := ih hrest (t.next icu word (n + 1)).2.2 (Nat.lt_of_succ_lt_succ hfuel)
      simp only [TokenizerT.loop, hzero, if_true, hcopy, hloop]
      rfl

/-! ## The page -/

/-- A zero stands behind the bytes. -/
def BuffT.Ends (b : BuffT) : Prop := b.buff b.size.toNat = 0

/-- `buff_catn` writes a terminator, so there is one as soon as a piece has been kept. -/
theorem CrawlFetchT.deliver_ends (f : CrawlFetchT) (ps : List Piece)
    (h : f.buff.Ends ∨ Piece.kept ps ≠ []) : (f.deliver ps).2.buff.Ends := by
  induction ps generalizing f with
  | nil => exact h.resolve_right (not_not_intro rfl)
  | cons p ps ih =>
      show ((f.data p.content p.size p.nmemb).2.deliver ps).2.buff.Ends
      by_cases hp : p.content 0 = 0
      · rw [Piece.kept_cons_of_eq hp] at h
        rw [CrawlFetchT.data_of_zero f hp]
        exact ih f h
      · refine ih _ (Or.inl ?_)
        show (f.buff.catn (some p.content) (p.size * p.nmemb)).Ends
        rw [BuffT.catn, if_neg hp]
        exact (Mem.holds_cons.mp (Mem.holds_store _ _ [0])).1

theorem CrawlFetchT.deliver_of_kept_nil (f : CrawlFetchT) {ps : List Piece}
    (h : Piece.kept ps = []) : (f.deliver ps).2 = f := by
  induction ps with
  | nil => rfl
  | cons p ps ih =>
      have hp : p.content 0 = 0 := by
        by_contra hne
        rw [Piece.kept_cons_of_ne hne] at h
        exact List.cons_ne_nil _ _ h
      rw [Piece.kept_cons_of_eq hp] at h
      show ((f.data p.content p.size p.nmemb).2.deliver ps).2 = f
      rw [CrawlFetchT.data_of_zero f hp]
      exact ih h

/-- There is a byte to spare behind the bytes appended. -/
theorem BuffT.extentOf_lt {as : List Append} (h : (as.flatMap Append.bytes).length < 2 ^ 30)
    (hne : as ≠ []) : (extentOf as).size < (extentOf as).cap := by
  obtain ⟨as, a, rfl⟩ := (List.eq_nil_or_concat' as).resolve_left hne
  rw [List.flatMap_append, List.length_append] at h
  have hlen : (as.flatMap Append.bytes).length < 2 ^ 30 := by omega
  have hrep := BuffT.appendAll_rep (fun _ _ => 0) (BuffT.hasRoom_of_lt hlen) (by omega)
  rw [extentOf_concat]
  exact Extent.add_lt hrep.le _

/-- **What the parser gets**: the pieces that are kept, up to the first zero in them. -/
def page (ps : List Piece) : CString :=
  ⟨(Piece.body (Piece.kept ps)).takeWhile (fun b => decide (b ≠ 0)), Mem.zero_not_mem_takeWhile _⟩

theorem CrawlFetchT.deliver_str (url : CString) (heap : Nat → Mem) {ps : List Piece}
    (h : (Piece.body ps).length < 2 ^ 30) (hne : Piece.kept ps ≠ []) :
    ((CrawlFetchT.init url heap).deliver ps).2.buff.str = some (page ps) := by
  have hends := (CrawlFetchT.init url heap).deliver_ends ps (Or.inr hne)
  obtain ⟨as, hbytes, hall⟩ := exists_appends (show (Piece.body ps).length < 2 ^ 64 by omega)
  have hlt : (as.flatMap Append.bytes).length < 2 ^ 30 := by
    rw [hbytes]
    exact Nat.lt_of_le_of_lt (Piece.body_kept_length_le ps) h
  have has : as ≠ [] := by
    rintro rfl
    obtain ⟨p, ps', hkept⟩ := List.exists_cons_of_ne_nil hne
    have hlen := congrArg List.length hbytes
    rw [hkept, Piece.body_cons, List.length_append] at hlen
    exact absurd hlen (Nat.ne_of_lt (Nat.add_pos_left p.bytes_length_pos _))
  have hrep := BuffT.appendAll_rep heap (BuffT.hasRoom_of_lt hlt) (by omega)
  rw [hbytes] at hrep
  rw [hall] at hends ⊢
  -- the terminator stands behind the bytes
  have hholds : ((BuffT.zero heap).appendAll as).buff.Holds 0
      (Piece.body (Piece.kept ps) ++ [0]) := by
    refine Mem.holds_append.mpr ⟨hrep.holds, Mem.holds_cons.mpr ⟨?_, Mem.Holds.nil _ _⟩⟩
    rw [Nat.zero_add, hrep.length, ← hrep.size]
    exact hends
  refine hholds.takeWhile.cstring_eq ?_
  have hsize := BuffT.extentOf_lt hlt has
  rw [← hrep.length, ← hrep.cap] at hsize
  exact Nat.lt_of_le_of_lt (List.takeWhile_prefix _).length_le hsize

theorem CrawlFetchT.deliver_str_none (url : CString) (heap : Nat → Mem) {ps : List Piece}
    (h : Piece.kept ps = []) : ((CrawlFetchT.init url heap).deliver ps).2.buff.str = none := by
  rw [CrawlFetchT.deliver_of_kept_nil _ h]
  rfl

/-! ## The text -/

/-- The size of the last allocation for the text. -/
def textCap (root : Node) : Nat := (BuffT.extentOf ((appended [] root).map Text.append)).cap

namespace CrawlParseT

variable {heap : Nat → Mem} {root : Node}

/-- Behind the text is what `realloc` has left there. -/
theorem parseReal_behind (h : (extracted root).length < 2 ^ 30) (hne : extracted root ≠ []) {a : Nat}
    (ha : (extracted root).length ≤ a) :
    (parseReal (init heap) root).buff.buff a = heap (reallocs root - 1) a := by
  have happ : appended [] root ≠ [] := fun h' => hne ((Text.bytesOf_eq_nil_iff _).mpr h')
  rw [init_eq_after, (parseReal_eq heap).1 root [] h]
  refine after_fresh heap h (Extent.run_moves_pos (by simpa using happ)) a ?_
  exact (after_rep heap h).length.symm.trans_le ha

variable (heap root) in
/-- The parser leaves the string `input`: a text, and what follows it in the last allocation up to a
zero. -/
def Leaves (input : CString) : Prop :=
  extracted root ≠ [] ∧ ∃ stale, input.chars = extracted root ++ stale
    ∧ (heap (reallocs root - 1)).HoldsString (extracted root).length stale
    ∧ input.chars.length < textCap root

theorem extracted_ne_nil (h : 0 < textCap root) : extracted root ≠ [] := by
  intro hnil
  have happ : appended [] root = [] := (Text.bytesOf_eq_nil_iff _).mp hnil
  rw [textCap, happ] at h
  exact Nat.lt_irrefl 0 h

/-- Reading the buffer of the text as a string. -/
theorem parse_str_iff (h : (extracted root).length < 2 ^ 30) {input : CString} :
    (parseReal (init heap) root).buff.str = some input ↔ Leaves heap root input := by
  have hrep := parseReal_rep heap h
  have hcap : (parseReal (init heap) root).buff.cap.toNat = textCap root := hrep.cap
  rw [BuffT.str, hcap]
  constructor
  · intro hstr
    obtain ⟨hstring, hlt⟩ := Mem.holdsString_of_cstring hstr
    have hne := extracted_ne_nil (Nat.zero_lt_of_lt hlt)
    -- the text has no zero, so the string ends behind it
    obtain ⟨stale, hstale⟩ := hrep.holds.prefix_string (zero_not_mem_bytesOf _) hstring
    refine ⟨hne, stale, hstale.symm, ?_, hlt⟩
    rw [← hstale] at hstring
    obtain ⟨hholds, hzero⟩ := hstring
    rw [List.append_assoc, Mem.holds_append, Nat.zero_add] at hholds
    exact ⟨hholds.2.congr (fun a ha _ => parseReal_behind h hne ha),
      fun h' => hzero (List.mem_append_right _ h')⟩
  · rintro ⟨hne, stale, hinput, hstale, hlt⟩
    have hstring : (parseReal (init heap) root).buff.buff.HoldsString 0 input.chars := by
      refine ⟨?_, input.nonzero⟩
      rw [hinput, List.append_assoc, Mem.holds_append, Nat.zero_add]
      exact ⟨hrep.holds, hstale.1.congr (fun a ha _ => (parseReal_behind h hne ha).symm)⟩
    exact hstring.cstring_eq hlt

end CrawlParseT

/-! ## From the pieces to the words -/

section

variable (L : Libraries) (H : Heaps) (url : CString) (ps : List Piece)

/-- The stages, for a page that reaches the parser. -/
theorem fetchtest_eq (h : (Piece.body ps).length < 2 ^ 30) (hne : Piece.kept ps ≠ []) (fuel : Nat) :
    fetchtest L H url ps fuel
      = ((CrawlParseT.init H.parse).parseReal (L.gumboParse (page ps))).buff.str.bind (fun input =>
          (TokenizerT.init L.icu input (L.boundaries (L.icu.fromChars input)).bounds H.token
            H.slack).bind (fun t => TokenizerT.loop L.icu 1024 fuel t H.word)) := by
  rw [fetchtest]
  simp only [CrawlFetchT.deliver_str url H.fetch h hne]
  rfl

/-- What is printed for a string. -/
def Libraries.printed (input : CString) : List (List UInt8) :=
  (L.icu.words (L.icu.fromChars input) (L.boundaries _)).map
    (fun w => (L.icu.toChars (w.take 1023)).take 1023)

theorem fetchtest_of_leaves (h : (Piece.body ps).length < 2 ^ 30) (hps : Piece.kept ps ≠ [])
    (htext : (extracted (L.gumboParse (page ps))).length < 2 ^ 30) {input : CString}
    (hinput : CrawlParseT.Leaves H.parse (L.gumboParse (page ps)) input)
    (hfits : TokenizerT.Fits L.icu H.slack input) {fuel : Nat}
    (hfuel : (L.printed input).length < fuel) :
    fetchtest L H url ps fuel = some (L.printed input) := by
  rw [Libraries.printed, List.length_map] at hfuel
  rw [fetchtest_eq L H url ps h hps, (CrawlParseT.parse_str_iff htext).mpr hinput, Option.bind_some,
    TokenizerT.init, if_pos hfits, Option.bind_some]
  exact (TokenizerT.pending_fresh L.icu input (L.boundaries _) H.token).loop_eq H.word 1023 hfuel

/-- **What is printed for a page**: the words of its text and of the bytes behind it, each cut to 1023
characters before and after its conversion. The pieces the page arrived in make no difference beyond
`page`. -/
theorem fetch_words (h : (Piece.body ps).length < 2 ^ 30) (hps : Piece.kept ps ≠ [])
    (htext : (extracted (L.gumboParse (page ps))).length < 2 ^ 30) (input : CString)
    (hinput : CrawlParseT.Leaves H.parse (L.gumboParse (page ps)) input)
    (hfits : TokenizerT.Fits L.icu H.slack input) (fuel : Nat)
    (hfuel : (L.icu.words (L.icu.fromChars input) (L.boundaries _)).length < fuel) :
    fetchtest L H url ps fuel
      = some ((L.icu.words (L.icu.fromChars input) (L.boundaries _)).map
        (fun w => (L.icu.toChars (w.take 1023)).take 1023)) := by
  refine fetchtest_of_leaves L H url ps h hps htext hinput hfits ?_
  rw [Libraries.printed, List.length_map]
  exact hfuel

/-- A text that is one segment. -/
def Boundaries.whole : (n : Nat) → Boundaries n
  | 0 => ⟨[], List.isChain_singleton _, rfl⟩
  | n + 1 => ⟨[n + 1], List.isChain_cons_cons.mpr ⟨Nat.succ_pos n, List.isChain_singleton _⟩, rfl⟩

/-- A parser for pages that are one text. -/
def plainText : Libraries := ⟨Icu.utf8, fun text => Boundaries.whole text.chars.length, .text⟩

/-- Memory with a letter `C` at the address 2, and `slack` bytes behind the text as `UChar`. -/
def staleC (slack : Nat) : Heaps :=
  ⟨fun _ _ => 0, fun _ a => if a = 2 then 67 else 0, fun _ => 0, slack, fun _ => 0⟩

theorem abc_nonzero : 0 ∉ ([65, 66, 67] : List UInt8) := by decide

/-- The string `ABC`. -/
def abc : CString := ⟨[65, 66, 67], abc_nonzero⟩

theorem staleC_leaves (slack : Nat) : CrawlParseT.Leaves (staleC slack).parse
    (plainText.gumboParse (page [CrawlFetchT.pieceAB])) abc := by
  have hstale : Mem.HoldsString (fun a => if a = 2 then 67 else 0) 2 [67] :=
    ⟨Mem.holds_cons.mpr ⟨rfl, Mem.holds_cons.mpr ⟨rfl, Mem.Holds.nil _ _⟩⟩, by decide⟩
  exact ⟨by decide, [67], by decide, hstale, by decide⟩

/-- The page `AB` is printed as `ABC`: the last letter was in memory before. -/
theorem fetch_words_stale :
    fetchtest plainText (staleC 2) ⟨[], List.not_mem_nil⟩ [CrawlFetchT.pieceAB] 2
      = some [[65, 66, 67]] := by
  rw [fetch_words plainText (staleC 2) ⟨[], List.not_mem_nil⟩ [CrawlFetchT.pieceAB] (by decide)
    (by decide) (by decide) abc (staleC_leaves 2) (by decide +kernel) 2 (by decide +kernel)]
  decide +kernel

/-- **When every stage stays in its memory**: a piece is kept; the page has a text, and there is a zero
between its end and the end of its buffer; and the tokenizer has space for the string. It has none
without two bytes behind the allocation, if the string is not shorter as `UChar`. -/
theorem fetch_defined_iff (h : (Piece.body ps).length < 2 ^ 30)
    (htext : (extracted (L.gumboParse (page ps))).length < 2 ^ 30) :
    ((∃ fuel, (fetchtest L H url ps fuel).isSome = true) ↔ Piece.kept ps ≠ []
      ∧ ∃ input, CrawlParseT.Leaves H.parse (L.gumboParse (page ps)) input
        ∧ TokenizerT.Fits L.icu H.slack input)
    ∧ ∀ input, TokenizerT.Fits L.icu H.slack input →
      input.chars.length ≤ (L.icu.fromChars input).chars.length → 2 ≤ H.slack := by
  refine ⟨⟨?_, ?_⟩, ?_⟩
  · rintro ⟨fuel, hsome⟩
    have hps : Piece.kept ps ≠ [] := by
      intro hnil
      rw [fetchtest] at hsome
      simp only [CrawlFetchT.deliver_str_none url H.fetch hnil] at hsome
      cases hsome
    rw [fetchtest_eq L H url ps h hps] at hsome
    obtain ⟨ws, hws⟩ := Option.isSome_iff_exists.mp hsome
    obtain ⟨input, hinput, hrest⟩ := Option.bind_eq_some_iff.mp hws
    obtain ⟨t, ht, -⟩ := Option.bind_eq_some_iff.mp hrest
    rw [TokenizerT.init, Option.ite_none_right_eq_some] at ht
    exact ⟨hps, input, (CrawlParseT.parse_str_iff htext).mp hinput, ht.1⟩
  · rintro ⟨hps, input, hinput, hfits⟩
    refine ⟨(L.printed input).length + 1, ?_⟩
    rw [fetchtest_of_leaves L H url ps h hps htext hinput hfits (Nat.lt_succ_self _)]
    rfl
  · intro input hfits hlen
    rw [TokenizerT.Fits] at hfits
    omega

/-- The page `AB` again. -/
theorem fetch_defined_iff_stale :
    (∃ fuel, (fetchtest plainText (staleC 2) ⟨[], List.not_mem_nil⟩ [CrawlFetchT.pieceAB] fuel).isSome
      = true)
    ∧ ¬ ∃ fuel, (fetchtest plainText (staleC 0) ⟨[], List.not_mem_nil⟩ [CrawlFetchT.pieceAB]
      fuel).isSome = true := by
  constructor
  · rw [(fetch_defined_iff plainText (staleC 2) _ [CrawlFetchT.pieceAB] (by decide) (by decide)).1]
    exact ⟨by decide, abc, staleC_leaves 2, by decide +kernel⟩
  · rw [(fetch_defined_iff plainText (staleC 0) _ [CrawlFetchT.pieceAB] (by decide) (by decide)).1]
    rintro ⟨-, input, hinput, hfits⟩
    have habc : input = abc := Option.some.inj
      (((CrawlParseT.parse_str_iff (by decide)).mpr hinput).symm.trans
        ((CrawlParseT.parse_str_iff (by decide)).mpr (staleC_leaves 0)))
    rw [habc] at hfits
    exact absurd hfits (by decide +kernel)

end

end CSearch.ToolC
