import CSearch.Basic.Memory
import CSearch.Basic.Utf16

set_option autoImplicit false

/-! # `tokenizer_t` of `tool.c`

The words of a text. `tokenizer_next` asks the word iterator of ICU for boundaries until it finds a
segment that is a word: one that is not a single punctuation character and has no whitespace. While
it looks at a segment, the character behind it is overwritten with a terminator.

What ICU does is a parameter (`Icu`, `BreakIterator`): strings are converted as a whole, from and to
UTF-8 for instance (`Icu.utf8`), and the iterator returns the boundaries of the text one after the
other and then `UBRK_DONE`. `tokenizer_init` allocates no space for the terminator of the text
(`Fits`); once the text is there (`fresh`), one pass through the code behind the label `again` leaves
it as it was and moves on by one segment (`again_cons`). So a call returns the next word
(`Scanning.again`), and all calls together return every word once (`next_enumerates`).
-/

namespace CSearch.ToolC

open String (utf8EncodeChar)

/-! ## ICU -/

/-- A string of `UChar`. -/
abbrev UString : Type := ZString UInt16

/-- What is used of ICU: the conversion of a string to `UChar` and back to `char`, and the classes of
characters. -/
structure Icu where
  fromChars : CString → UString
  toChars : List UInt16 → List UInt8
  toChars_nonzero : ∀ us, 0 ∉ us → 0 ∉ toChars us
  ispunct : UInt16 → Bool
  isspace : UInt16 → Bool

theorem utf8_from_nonzero (s : CString) : 0 ∉ Utf16.encode (Utf8.read s.chars) :=
  Utf16.zero_not_mem_encode (Utf8.zero_not_mem_readFrom _ s.nonzero)

theorem utf8_to_nonzero (us : List UInt16) (h : 0 ∉ us) :
    0 ∉ (Utf16.decode us).flatMap utf8EncodeChar :=
  Utf8.zero_not_mem_encode (Utf16.zero_not_mem_decode h)

/-- ICU with UTF-8, the space as whitespace, and the full stop and the comma as punctuation. -/
def Icu.utf8 : Icu where
  fromChars s := ⟨Utf16.encode (Utf8.read s.chars), utf8_from_nonzero s⟩
  toChars us := (Utf16.decode us).flatMap utf8EncodeChar
  toChars_nonzero := utf8_to_nonzero
  ispunct c := c == 46 || c == 44
  isspace c := c == 32

theorem Icu.utf8_toChars (text : List Char) :
    Icu.utf8.toChars (Utf16.encode text) = text.flatMap utf8EncodeChar :=
  congrArg (List.flatMap utf8EncodeChar) (Utf16.decode_encode text)

/-- `UBRK_DONE`. -/
def ubrkDone : Int := -1

/-- A word iterator: the boundaries of its text behind the first one, which is `0`, and those not
returned yet. -/
structure BreakIterator where
  bounds : List Nat
  rest : List Nat

/-- `ubrk_first`. -/
def BreakIterator.first (b : BreakIterator) : Int × BreakIterator := (0, { b with rest := b.bounds })

/-- The characters from index `p` on, up to a terminator and not more than `n`. -/
def ustrn (str : Nat → UInt16) (p : Nat) : Nat → List UInt16
  | 0 => []
  | n + 1 => if str p = 0 then [] else str p :: ustrn str (p + 1) n

/-- `u_austrncpy(word, str + p, n)`: not more than `n` characters are read and converted, and not
more than `n` are written; a terminator is written if there is space for it. ICU has `n` as an
`int32_t`, so this is meant for buffers of up to `2^31` characters. -/
def Icu.austrncpy (icu : Icu) (word : Mem) (str : Nat → UInt16) (p n : Nat) : Mem :=
  let bs := (icu.toChars (ustrn str p n)).take n
  if bs.length < n then word.store 0 (bs ++ [0]) else word.store 0 bs

/-! ## The functions of the source -/

/-- `tokenizer_t`. -/
structure TokenizerT where
  str : Nat → UInt16
  boundary : BreakIterator
  start : Int
  end_ : Int

namespace TokenizerT

/-- A new object with its text, and the boundaries that the new iterator will find: what is there
after `tokenizer_init`. -/
def fresh (icu : Icu) (input : CString) (bounds : List Nat) (heap : Nat → UInt16) : TokenizerT :=
  ⟨fun a => ((icu.fromChars input).chars ++ [0]).getD a (heap a), ⟨bounds, bounds⟩, 0, 0⟩

/-- The string as `UChar`, with its terminator, stays within `malloc(sizeof(UChar) * strlen(input))`
and the `slack` bytes behind it. -/
def Fits (icu : Icu) (slack : Nat) (input : CString) : Prop :=
  2 * ((icu.fromChars input).chars.length + 1) ≤ 2 * input.chars.length + slack

instance (icu : Icu) (slack : Nat) (input : CString) : Decidable (Fits icu slack input) :=
  Nat.decLe _ _

/-- `tokenizer_init`. -/
def init (icu : Icu) (input : CString) (bounds : List Nat) (heap : Nat → UInt16) (slack : Nat) :
    Option TokenizerT :=
  if Fits icu slack input then some (fresh icu input bounds heap) else none

/-- `t->str[t->end] = savedEndChar; t->start = t->end`. -/
def advance (t : TokenizerT) (savedEndChar : UInt16) : TokenizerT :=
  { t with str := Function.update t.str t.end_.toNat savedEndChar, start := t.end_ }

/-- The loop that looks for whitespace. -/
def hasSpace (icu : Icu) (t : TokenizerT) : Bool :=
  (List.range (t.end_ - t.start).toNat).any fun k => icu.isspace (t.str (t.start.toNat + k))

/-- `tokenizer_next` from the label `again` on; the list has the boundaries that `ubrk_next` has yet
to return. The result is the value returned, the object and the buffer of the word. -/
def again (icu : Icu) (word : Mem) (size : Nat) :
    List Nat → TokenizerT → Int32 × TokenizerT × Mem
  | [], t => (-1, { t with boundary := { t.boundary with rest := [] }, end_ := ubrkDone }, word)
  | e :: rest, t =>
      let t := { t with boundary := { t.boundary with rest := rest }, end_ := e }
      let savedEndChar := t.str t.end_.toNat
      let t := { t with str := Function.update t.str t.end_.toNat 0 }
      if (t.end_ - t.start : Int) = 1 ∧ icu.ispunct (t.str t.start.toNat) then
        again icu word size rest (t.advance savedEndChar)
      else if t.hasSpace icu then
        again icu word size rest (t.advance savedEndChar)
      else
        let word := icu.austrncpy word t.str t.start.toNat (size - 1)
        (0, t.advance savedEndChar, word.store (size - 1) [0])

/-- The lines of `tokenizer_next` before the label: the iterator is started by the first call. -/
def begin (t : TokenizerT) : TokenizerT :=
  if t.end_ = 0 then { t with boundary := t.boundary.first.2, start := t.boundary.first.1 } else t

/-- `tokenizer_next`. -/
def next (t : TokenizerT) (icu : Icu) (word : Mem) (size : Nat) : Int32 × TokenizerT × Mem :=
  again icu word size t.begin.boundary.rest t.begin

end TokenizerT

/-! ## Words -/

/-- The boundaries of a text of length `n`: `0 = b₀ < b₁ < … = n`. The list has them from `b₁` on. -/
structure Boundaries (n : Nat) where
  bounds : List Nat
  chain : (0 :: bounds).IsChain (· < ·)
  last : (0 :: bounds).getLast (List.cons_ne_nil _ _) = n

/-- The segments of a text between the boundary `s` and the next ones. -/
def segments (text : List UInt16) : Nat → List Nat → List (List UInt16)
  | _, [] => []
  | s, e :: rest => (text.drop s).take (e - s) :: segments text e rest

/-- A segment that is not a word: a single punctuation character, or one with whitespace in it. -/
def Icu.skips (icu : Icu) (seg : List UInt16) : Bool :=
  (seg.length == 1 && seg.all icu.ispunct) || seg.any icu.isspace

/-- The words of a text, from the boundary `s` on. -/
def Icu.wordsFrom (icu : Icu) (text : List UInt16) (s : Nat) (rest : List Nat) :
    List (List UInt16) :=
  (segments text s rest).filter (fun seg => !icu.skips seg)

theorem Icu.wordsFrom_cons_of_skips {icu : Icu} {text : List UInt16} {s e : Nat} {rest : List Nat}
    (h : icu.skips ((text.drop s).take (e - s)) = true) :
    icu.wordsFrom text s (e :: rest) = icu.wordsFrom text e rest :=
  List.filter_cons_of_neg (by rw [h]; simp)

theorem Icu.wordsFrom_cons_of_word {icu : Icu} {text : List UInt16} {s e : Nat} {rest : List Nat}
    (h : icu.skips ((text.drop s).take (e - s)) = false) :
    icu.wordsFrom text s (e :: rest)
      = (text.drop s).take (e - s) :: icu.wordsFrom text e rest :=
  List.filter_cons_of_pos (by rw [h]; rfl)

/-! ## Copying a word -/

/-- Characters that are followed by a terminator are read up to it. -/
theorem ustrn_eq {str : Nat → UInt16} {seg : List UInt16} {p : Nat} (hne : 0 ∉ seg)
    (hseg : ∀ i c, seg[i]? = some c → str (p + i) = c) (hend : str (p + seg.length) = 0) (n : Nat) :
    ustrn str p n = seg.take n := by
  induction seg generalizing p n with
  | nil =>
      cases n with
      | zero => rfl
      | succ n =>
          rw [List.length_nil, Nat.add_zero] at hend
          rw [ustrn, if_pos hend, List.take_nil]
  | cons c seg ih =>
      cases n with
      | zero => rfl
      | succ n =>
          have hc : str p = c := hseg 0 c rfl
          have hc0 : c ≠ 0 := fun h => hne (h ▸ List.mem_cons_self)
          have hrest := ih (p := p + 1) (fun h => hne (List.mem_cons_of_mem _ h))
            (fun i d hi => by rw [show p + 1 + i = p + (i + 1) by omega]; exact hseg (i + 1) d hi)
            (by rw [show p + 1 + seg.length = p + (seg.length + 1) by omega]; exact hend) n
          rw [ustrn, hc, if_neg hc0, hrest, List.take_succ_cons]

/-- **Copying a word**: the segment is in the buffer as a string, cut to `size - 1` characters before
and after the conversion. -/
theorem Icu.copy_spec (icu : Icu) {str : Nat → UInt16} {seg : List UInt16} {p : Nat}
    (hne : 0 ∉ seg) (hseg : ∀ i c, seg[i]? = some c → str (p + i) = c)
    (hend : str (p + seg.length) = 0) (word : Mem) (n : Nat) :
    ((icu.austrncpy word str p n).store n [0]).HoldsString 0
      ((icu.toChars (seg.take n)).take n) := by
  rw [Icu.austrncpy, ustrn_eq hne hseg hend]
  set bs := (icu.toChars (seg.take n)).take n with hbs
  have hzero : 0 ∉ bs := by
    intro h
    refine icu.toChars_nonzero (seg.take n) (fun h' => ?_) (List.mem_of_mem_take h)
    exact hne (List.mem_of_mem_take h')
  refine ⟨?_, hzero⟩
  have hlen : bs.length ≤ n := by
    rw [hbs]
    exact List.length_take_le n _
  split
  · -- the terminator is in front of the last character of the buffer
    refine (Mem.holds_store word 0 (bs ++ [0])).congr (fun a _ ha => ?_)
    rw [List.length_append, List.length_singleton] at ha
    exact (Mem.store_lt _ _ _ _ (by omega)).symm
  · have hn : bs.length = n := by omega
    rw [Mem.holds_append, hn, Nat.zero_add]
    refine ⟨(Mem.holds_store word 0 bs).congr (fun a _ ha => ?_), Mem.holds_store _ n [0]⟩
    exact (Mem.store_lt _ _ _ _ (by omega)).symm

/-! ## One segment -/

namespace TokenizerT

/-- The text is in `str`, the boundary `s` has been reached, and `rest` are the next ones. -/
structure Scanning (text : UString) (s : Nat) (rest : List Nat) (t : TokenizerT) : Prop where
  holds : ∀ i c, text.chars[i]? = some c → t.str i = c
  start : t.start = s
  chain : (s :: rest).IsChain (· < ·)
  le : ∀ e ∈ rest, e ≤ text.chars.length

section

variable {text : UString} {s e : Nat} {rest : List Nat} {t : TokenizerT}

theorem Scanning.lt (h : Scanning text s (e :: rest) t) : s < e :=
  (List.isChain_cons_cons.mp h.chain).1

theorem Scanning.segment_length (h : Scanning text s (e :: rest) t) :
    ((text.chars.drop s).take (e - s)).length = e - s := by
  have hle := h.le e List.mem_cons_self
  rw [List.length_take, List.length_drop]
  omega

/-- With the terminator in place, the segment is what stands in front of it. -/
theorem Scanning.segment_getElem? (h : Scanning text s (e :: rest) t) (i : Nat) (hi : i < e - s) :
    ((text.chars.drop s).take (e - s))[i]? = some (Function.update t.str e 0 (s + i)) := by
  have hle := h.le e List.mem_cons_self
  have hget : text.chars[s + i]? = some (text.chars.get ⟨s + i, by omega⟩) :=
    List.getElem?_eq_getElem _
  rw [List.getElem?_take_of_lt hi, List.getElem?_drop, Function.update_of_ne (by omega), hget,
    h.holds _ _ hget]

theorem Scanning.segment_eq_map (h : Scanning text s (e :: rest) t) :
    (text.chars.drop s).take (e - s)
      = (List.range (e - s)).map (fun i => Function.update t.str e 0 (s + i)) := by
  apply List.ext_getElem?
  intro i
  rcases Nat.lt_or_ge i (e - s) with hi | hi
  · rw [h.segment_getElem? i hi, List.getElem?_map, List.getElem?_range hi, Option.map_some]
  · rw [List.getElem?_eq_none (by rw [h.segment_length]; exact hi),
      List.getElem?_eq_none (by simpa using hi)]

/-- The object while the segment up to `e` is looked at. -/
def atSegment (t : TokenizerT) (e : Nat) (rest : List Nat) : TokenizerT :=
  { t with
    str := Function.update t.str e 0
    boundary := { t.boundary with rest := rest }
    end_ := e }

/-- The object behind the segment up to `e`, with the text as it was. -/
def behind (t : TokenizerT) (e : Nat) (rest : List Nat) : TokenizerT :=
  { t with boundary := { t.boundary with rest := rest }, start := e, end_ := e }

/-- The character that was overwritten comes back. -/
theorem advance_atSegment (t : TokenizerT) (e : Nat) (rest : List Nat) :
    (t.atSegment e rest).advance (t.str e) = t.behind e rest := by
  have hstr : Function.update (Function.update t.str e 0) e (t.str e) = t.str := by
    rw [Function.update_idem, Function.update_eq_self]
  show { t.atSegment e rest with str := Function.update (Function.update t.str e 0) e (t.str e),
                                 start := (e : Int) } = t.behind e rest
  rw [hstr]
  rfl

theorem Scanning.behind (h : Scanning text s (e :: rest) t) :
    Scanning text e rest (t.behind e rest) :=
  ⟨h.holds, rfl, (List.isChain_cons_cons.mp h.chain).2,
    fun d hd => h.le d (List.mem_cons_of_mem _ hd)⟩

/-- The two tests of the source decide whether the segment is a word. -/
theorem Scanning.skips_iff (h : Scanning text s (e :: rest) t) (icu : Icu) :
    icu.skips ((text.chars.drop s).take (e - s)) = true
      ↔ ((e : Int) - t.start = 1 ∧ icu.ispunct (Function.update t.str e 0 t.start.toNat) = true)
        ∨ (t.atSegment e rest).hasSpace icu = true := by
  have hlt := h.lt
  have hspace : (t.atSegment e rest).hasSpace icu
      = ((text.chars.drop s).take (e - s)).any icu.isspace := by
    rw [hasSpace, h.segment_eq_map, List.any_map]
    show (List.range ((e : Int) - t.start).toNat).any
      (fun k => icu.isspace (Function.update t.str e 0 (t.start.toNat + k))) = _
    rw [h.start, show ((e : Int) - (s : Int)).toNat = e - s by omega, Int.toNat_natCast]
    rfl
  have hsingle : (((text.chars.drop s).take (e - s)).length == 1) = true
      ↔ (e : Int) - t.start = 1 := by
    rw [beq_iff_eq, h.segment_length, h.start]
    omega
  rw [hspace, Icu.skips, Bool.or_eq_true, Bool.and_eq_true, hsingle]
  apply or_congr_left
  apply and_congr_right
  intro hone
  rw [h.start] at hone
  rw [h.segment_eq_map, h.start, show e - s = 1 by omega, Int.toNat_natCast]
  simp

/-- **One pass through `again`.** -/
theorem again_cons (icu : Icu) (word : Mem) (size e : Nat) (rest : List Nat) (t : TokenizerT) :
    again icu word size (e :: rest) t
      = if ((e : Int) - t.start = 1
            ∧ icu.ispunct (Function.update t.str e 0 t.start.toNat) = true)
          ∨ (t.atSegment e rest).hasSpace icu = true then
          again icu word size rest (t.behind e rest)
        else (0, t.behind e rest,
          (icu.austrncpy word (Function.update t.str e 0) t.start.toNat (size - 1)).store
            (size - 1) [0]) := by
  rw [← advance_atSegment, ite_or]
  rfl

/-- The segment up to `e` is copied. -/
theorem Scanning.copied (h : Scanning text s (e :: rest) t) (icu : Icu) (word : Mem) (n : Nat) :
    ((icu.austrncpy word (Function.update t.str e 0) t.start.toNat n).store n [0]).HoldsString 0
      ((icu.toChars (((text.chars.drop s).take (e - s)).take n)).take n) := by
  have hlt := h.lt
  rw [h.start, Int.toNat_natCast]
  apply icu.copy_spec
  · intro h0
    exact text.nonzero (List.mem_of_mem_drop (List.mem_of_mem_take h0))
  · intro i c hi
    have hi' : i < e - s := by
      rw [← h.segment_length]
      exact (List.getElem?_eq_some_iff.mp hi).1
    rw [h.segment_getElem? i hi', Option.some.injEq] at hi
    exact hi
  · rw [h.segment_length, show s + (e - s) = e by omega, Function.update_self]

end

/-! ## One call -/

/-- What a call returns with a buffer of `n + 1` characters: `0` and the next word, cut to `n`
characters before and after its conversion, or `-1` if there is none. -/
def Returns (icu : Icu) (n : Nat) (r : Int32 × TokenizerT × Mem) : Option (List UInt16) → Prop
  | some w => r.1 = 0 ∧ r.2.2.HoldsString 0 ((icu.toChars (w.take n)).take n)
  | none => r.1 = -1

section

variable {icu : Icu} {text : UString}

/-- From `again` on, the next word is returned. The text is as it was, and the words behind that
word are left. -/
theorem Scanning.again {s : Nat} {rest : List Nat} {t : TokenizerT} (h : Scanning text s rest t)
    (icu : Icu) (word : Mem) (n : Nat) :
    ∃ s', Scanning text s' (again icu word (n + 1) rest t).2.1.boundary.rest
          (again icu word (n + 1) rest t).2.1
      ∧ icu.wordsFrom text.chars s' (again icu word (n + 1) rest t).2.1.boundary.rest
        = (icu.wordsFrom text.chars s rest).tail
      ∧ (again icu word (n + 1) rest t).2.1.end_ ≠ 0
      ∧ (again icu word (n + 1) rest t).2.1.str = t.str
      ∧ Returns icu n (again icu word (n + 1) rest t) (icu.wordsFrom text.chars s rest).head? := by
  induction rest generalizing s t with
  | nil =>
      have hdone : ubrkDone ≠ 0 := by decide
      exact ⟨s, ⟨h.holds, h.start, h.chain, h.le⟩, rfl, hdone, rfl, rfl⟩
  | cons e rest ih =>
      rw [again_cons]
      by_cases hskip : icu.skips ((text.chars.drop s).take (e - s)) = true
      · rw [if_pos ((h.skips_iff icu).mp hskip), Icu.wordsFrom_cons_of_skips hskip]
        exact ih h.behind
      · have hword : icu.skips ((text.chars.drop s).take (e - s)) = false := by simpa using hskip
        have hlt := h.lt
        rw [if_neg (fun h' => hskip ((h.skips_iff icu).mpr h')), Icu.wordsFrom_cons_of_word hword]
        refine ⟨e, h.behind, rfl, ?_, rfl, rfl, h.copied icu word n⟩
        show (e : Int) ≠ 0
        omega

theorem begin_of_ne {t : TokenizerT} (h : t.end_ ≠ 0) : t.begin = t := if_neg h

theorem begin_str (t : TokenizerT) : t.begin.str = t.str := by
  rw [begin]
  split <;> rfl

/-- The words `ws` of the text are left. -/
def Pending (icu : Icu) (text : UString) (ws : List (List UInt16)) (t : TokenizerT) : Prop :=
  ∃ s, Scanning text s t.begin.boundary.rest t.begin
    ∧ icu.wordsFrom text.chars s t.begin.boundary.rest = ws

/-- **One call** returns the first of the words that are left. -/
theorem Pending.next {ws : List (List UInt16)} {t : TokenizerT} (h : Pending icu text ws t)
    (word : Mem) (n : Nat) :
    (t.next icu word (n + 1)).2.1.str = t.str
      ∧ Returns icu n (t.next icu word (n + 1)) ws.head?
      ∧ Pending icu text ws.tail (t.next icu word (n + 1)).2.1 := by
  obtain ⟨s, hscan, rfl⟩ := h
  have hnext : t.next icu word (n + 1)
      = TokenizerT.again icu word (n + 1) t.begin.boundary.rest t.begin := rfl
  obtain ⟨s', hscan', hwords, hend, hstr, hret⟩ := hscan.again icu word n
  rw [← hnext] at hscan' hwords hend hstr hret
  refine ⟨hstr.trans (begin_str t), hret, s', ?_⟩
  rw [begin_of_ne hend]
  exact ⟨hscan', hwords⟩

end

/-! ## All calls -/

/-- The object before the call number `k`; call number `i` gets the buffer `word i`. -/
def before (t : TokenizerT) (icu : Icu) (word : Nat → Mem) (size : Nat) : Nat → TokenizerT
  | 0 => t
  | k + 1 => ((t.before icu word size k).next icu (word k) size).2.1

/-- After `k` calls the first `k` words are gone. -/
theorem Pending.before {icu : Icu} {text : UString} {ws : List (List UInt16)} {t : TokenizerT}
    (h : Pending icu text ws t) (word : Nat → Mem) (n k : Nat) :
    Pending icu text (ws.drop k) (t.before icu word (n + 1) k) := by
  induction k with
  | zero => exact h
  | succ k ih =>
      have hnext := (ih.next (word k) n).2.2
      rwa [List.tail_drop] at hnext

end TokenizerT

theorem Boundaries.le {n : Nat} (b : Boundaries n) : ∀ e ∈ b.bounds, e ≤ n := by
  intro e he
  have hpair : (0 :: b.bounds).Pairwise (· < ·) := List.isChain_iff_pairwise.mp b.chain
  have hsplit := List.dropLast_append_getLast (List.cons_ne_nil 0 b.bounds)
  rw [b.last] at hsplit
  rw [← hsplit, List.pairwise_append] at hpair
  have hmem : e ∈ (0 :: b.bounds).dropLast ++ [n] := by
    rw [hsplit]
    exact List.mem_cons_of_mem _ he
  rcases List.mem_append.mp hmem with h | h
  · exact (hpair.2.2 e h n List.mem_cons_self).le
  · exact (List.mem_singleton.mp h).le

/-- **The words of a text**: its segments without the single punctuation characters and those with
whitespace. -/
def Icu.words (icu : Icu) (text : UString) (b : Boundaries text.chars.length) :
    List (List UInt16) :=
  icu.wordsFrom text.chars 0 b.bounds

namespace TokenizerT

/-- A new tokenizer has all words before it. -/
theorem pending_fresh (icu : Icu) (input : CString)
    (b : Boundaries (icu.fromChars input).chars.length) (heap : Nat → UInt16) :
    Pending icu (icu.fromChars input) (icu.words (icu.fromChars input) b)
      (fresh icu input b.bounds heap) := by
  refine ⟨0, ⟨?_, rfl, b.chain, b.le⟩, rfl⟩
  intro i c hi
  have hlt := (List.getElem?_eq_some_iff.mp hi).1
  show ((icu.fromChars input).chars ++ [0]).getD i (heap i) = c
  rw [List.getD, List.getElem?_append_left hlt, hi, Option.getD_some]

/-- **`tokenizer_next` enumerates the words**: call number `k` on a new tokenizer returns `0` with
word number `k` in the buffer of `n + 1` characters, or `-1` if there are not that many words, and
leaves the text as it was. -/
theorem next_enumerates (icu : Icu) (input : CString)
    (b : Boundaries (icu.fromChars input).chars.length) (heap : Nat → UInt16) (word : Nat → Mem)
    (n k : Nat) :
    let t := (fresh icu input b.bounds heap).before icu word (n + 1) k
    (t.next icu (word k) (n + 1)).2.1.str = t.str
      ∧ Returns icu n (t.next icu (word k) (n + 1)) (icu.words (icu.fromChars input) b)[k]? := by
  have h := ((pending_fresh icu input b heap).before word n k).next (word k) n
  rw [List.head?_drop] at h
  exact ⟨h.1, h.2.1⟩

theorem smileOk_nonzero : 0 ∉ ([0xF0, 0x9F, 0x98, 0x80, 0x20, 0x6F, 0x6B] : List UInt8) := by decide

/-- U+1F600, a space and `ok`, in UTF-8. -/
def smileOk : CString := ⟨[0xF0, 0x9F, 0x98, 0x80, 0x20, 0x6F, 0x6B], smileOk_nonzero⟩

/-- The first word has two surrogates, and is four bytes in the buffer. -/
theorem next_enumerates_smile :
    ∃ b : Boundaries (Icu.utf8.fromChars smileOk).chars.length, b.bounds = [2, 3, 5]
      ∧ ((fresh Icu.utf8 smileOk b.bounds (fun _ => 0)).next Icu.utf8 (fun _ => 0) 1024).1 = 0
      ∧ Mem.HoldsString
        ((fresh Icu.utf8 smileOk b.bounds (fun _ => 0)).next Icu.utf8 (fun _ => 0) 1024).2.2 0
        [0xF0, 0x9F, 0x98, 0x80] := by
  have hchars : (Icu.utf8.fromChars smileOk).chars = [0xD83D, 0xDE00, 0x20, 0x6F, 0x6B] := by
    decide +kernel
  have hlast : [0, 2, 3, 5].getLast (List.cons_ne_nil _ _)
      = (Icu.utf8.fromChars smileOk).chars.length := by
    rw [hchars]
    rfl
  have hwords : (Icu.utf8.wordsFrom (Icu.utf8.fromChars smileOk).chars 0 [2, 3, 5])[0]?
      = some (Utf16.encode ['😀']) := by
    rw [hchars]
    decide +kernel
  have hreturns := (next_enumerates Icu.utf8 smileOk ⟨[2, 3, 5], by decide, hlast⟩ (fun _ => 0)
    (fun _ _ => 0) 1023 0).2
  rw [show (Icu.utf8.words (Icu.utf8.fromChars smileOk) ⟨[2, 3, 5], by decide, hlast⟩)[0]?
    = some (Utf16.encode ['😀']) from hwords] at hreturns
  obtain ⟨hzero, hword⟩ := hreturns
  refine ⟨⟨[2, 3, 5], by decide, hlast⟩, rfl, hzero, ?_⟩
  rw [List.take_of_length_le (show (Utf16.encode ['😀']).length ≤ 1023 by decide),
    Icu.utf8_toChars] at hword
  exact hword

end TokenizerT

end CSearch.ToolC
