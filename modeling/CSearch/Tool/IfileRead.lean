import CSearch.Tool.Ifile

set_option autoImplicit false

/-! # `ifile::read` over any source of blocks

`ifile::read` gives the documents of the blocks that `real_read` delivers one after the other. Here
`real_read` is a parameter (`BlockSource`), so that what `read` does with the blocks is apart from
how they come out of the file; the class itself is the instance `Ifile.source`
(`Ifile.read_reader`).

Two things are in the way of a faithful enumeration. Inside a block `read` sets only the document of
its argument, so that the caller must come with the right term. And it uses the document as a
condition, so that a document `0` inside a block makes it drop the rest of the block.
`read_fills_iff` says that nothing else is.
-/

namespace CSearch.Tool

open Index

/-- A `real_read` and what it leaves in the members `h` and `c`; `behind` is the memory behind the
vector `c`. -/
structure BlockSource (σ : Type) where
  realRead : σ → Option (Bool × σ)
  term : σ → UInt32
  doc : σ → UInt32
  c : σ → List UInt32
  behind : σ → Nat → UInt32

/-- An `ifile` over a source. -/
structure Reader (σ : Type) where
  src : σ
  it : Nat
  t : Tupe

/-- A term with its documents, of which there is at least one. -/
structure Posting where
  term : UInt32
  first : UInt32
  more : List UInt32

namespace Posting

/-- The documents. -/
def docs (b : Posting) : List UInt32 := b.first :: b.more

/-- What it stands for. -/
def tuples (b : Posting) : List Tupe := b.docs.map (Tupe.mk b.term)

theorem flatMap_tuples_length (b : Posting) (bs : List Posting) :
    ((b :: bs).flatMap tuples).length = b.more.length + 1 + (bs.flatMap tuples).length := by
  rw [List.flatMap_cons, List.length_append, tuples, List.length_map, docs, List.length_cons]

/-- The tuples, marked with whether they come from inside the block. -/
def places (b : Posting) : List (Bool × Tupe) :=
  (false, ⟨b.term, b.first⟩) :: b.more.map (fun d => (true, ⟨b.term, d⟩))

end Posting

namespace BlockSource

variable {σ : Type} (S : BlockSource σ)

/-- `*it`. -/
def deref (r : Reader σ) : UInt32 := (S.c r.src).getD r.it (S.behind r.src r.it)

/-- The second half of `ifile::read`. -/
def readNext (r : Reader σ) (tt : Tupe) : Option (Bool × Tupe × Reader σ) :=
  (S.realRead r.src).map fun q =>
    if q.1 then
      let t : Tupe := ⟨S.term q.2, S.doc q.2⟩
      (true, t, ⟨q.2, 0 + 1, t⟩)
    else (false, tt, { r with src := q.2 })

/-- `ifile::read`. -/
def read (r : Reader σ) (tt : Tupe) : Option (Bool × Tupe × Reader σ) :=
  if r.it ≠ (S.c r.src).length then
    let d := S.deref r
    let r := { r with it := r.it + 1, t := { r.t with doc := d } }
    let tt := { tt with doc := d }
    if d ≠ 0 then some (true, tt, r) else S.readNext r tt
  else S.readNext r tt

/-- The source delivers these blocks, one per call, and then fails. -/
def Delivers (s : σ) (bs : List Posting) : Prop :=
  Yields S.realRead (fun s => (S.term s, S.doc s, S.c s)) s
    (bs.map (fun b => (b.term, b.first, b.docs)))

/-! ## Where the reader is -/

/-- The reader is inside a block of this term, with these documents of it and these blocks to
come. -/
structure At (r : Reader σ) (term : UInt32) (ds : List UInt32) (bs : List Posting) : Prop where
  le : r.it ≤ (S.c r.src).length
  rest : (S.c r.src).drop r.it = ds
  term_eq : r.t.term = term
  delivers : S.Delivers r.src bs

variable {S}

theorem At.it_ne {r : Reader σ} {term d : UInt32} {ds : List UInt32} {bs : List Posting}
    (h : S.At r term (d :: ds) bs) : r.it ≠ (S.c r.src).length := by
  intro hit
  have hrest := h.rest
  rw [hit, List.drop_length] at hrest
  exact absurd hrest.symm (List.cons_ne_nil _ _)

theorem At.deref_eq {r : Reader σ} {term d : UInt32} {ds : List UInt32} {bs : List Posting}
    (h : S.At r term (d :: ds) bs) : S.deref r = d := by
  have hd : (S.c r.src)[r.it]? = some d := by
    rw [← List.head?_drop, h.rest, List.head?_cons]
  rw [deref, List.getD_eq_getElem?_getD, hd]
  rfl

/-- `it++`. -/
theorem At.next {r : Reader σ} {term d : UInt32} {ds : List UInt32} {bs : List Posting}
    (h : S.At r term (d :: ds) bs) :
    S.At { r with it := r.it + 1, t := { r.t with doc := d } } term ds bs := by
  have hlt := lt_of_le_of_ne h.le h.it_ne
  refine ⟨hlt, ?_, h.term_eq, h.delivers⟩
  show (S.c r.src).drop (r.it + 1) = ds
  rw [← List.tail_drop, h.rest, List.tail_cons]

/-- A document other than `0` comes out of the block. -/
theorem At.read_cons {r : Reader σ} {term d : UInt32} {ds : List UInt32} {bs : List Posting}
    (h : S.At r term (d :: ds) bs) (hd : d ≠ 0) (tt : Tupe) :
    S.read r tt = some (true, { tt with doc := d },
      { r with it := r.it + 1, t := { r.t with doc := d } }) := by
  rw [read, if_pos h.it_ne]
  simp only [h.deref_eq]
  rw [if_pos hd]

/-- A document `0` counts as the end of the block. -/
theorem At.read_zero {r : Reader σ} {term : UInt32} {ds : List UInt32} {bs : List Posting}
    (h : S.At r term (0 :: ds) bs) (tt : Tupe) :
    S.read r tt = S.readNext { r with it := r.it + 1, t := { r.t with doc := 0 } }
      { tt with doc := 0 } := by
  rw [read, if_pos h.it_ne]
  simp only [h.deref_eq]
  rw [if_neg (not_not.mpr rfl)]

theorem At.read_nil {r : Reader σ} {term : UInt32} {bs : List Posting}
    (h : S.At r term [] bs) (tt : Tupe) : S.read r tt = S.readNext r tt := by
  have hle := List.drop_eq_nil_iff.mp h.rest
  rw [read, if_neg (not_not.mpr (le_antisymm h.le hle))]

theorem readNext_nil {r : Reader σ} (h : S.Delivers r.src []) (tt : Tupe) :
    ∃ r', S.readNext r tt = some (false, tt, r') := by
  obtain ⟨s, hs⟩ := h
  refine ⟨{ r with src := s }, ?_⟩
  rw [readNext, hs]
  rfl

/-- The first document of the next block comes out of the header. -/
theorem readNext_cons {r : Reader σ} {b : Posting} {bs : List Posting}
    (h : S.Delivers r.src (b :: bs)) (tt : Tupe) :
    ∃ r', S.readNext r tt = some (true, ⟨b.term, b.first⟩, r') ∧ r'.t = ⟨b.term, b.first⟩
      ∧ S.At r' b.term b.more bs := by
  obtain ⟨s, hs, hseen, hrest⟩ := h
  simp only [Prod.mk.injEq] at hseen
  obtain ⟨hterm, hdoc, hc⟩ := hseen
  refine ⟨⟨s, 1, ⟨b.term, b.first⟩⟩, ?_, rfl, ?_, ?_, rfl, hrest⟩
  · rw [readNext, hs, Option.map_some]
    simp only [if_true, hterm, hdoc, Nat.zero_add]
  · show 1 ≤ (S.c s).length
    rw [hc, Posting.docs, List.length_cons]
    exact Nat.le_add_left 1 _
  · show (S.c s).drop 1 = b.more
    rw [hc]
    rfl

/-! ## What can come out -/

/-- The next block, and no more than is left behind it. -/
theorem length_le_of_readNext {q r' : Reader σ} {bs : List Posting} {tt x : Tupe}
    {xs : List Tupe} (hq : S.Delivers q.src bs) (hread : S.readNext q tt = some (true, x, r'))
    (ih : ∀ {b : Posting} {bs : List Posting}, S.At r' b.term b.more bs →
      xs.length ≤ b.more.length + (bs.flatMap Posting.tuples).length) :
    (x :: xs).length ≤ (bs.flatMap Posting.tuples).length := by
  cases bs with
  | nil =>
      obtain ⟨q', hfail⟩ := readNext_nil hq tt
      rw [hfail, Option.some.injEq] at hread
      exact absurd (congrArg Prod.fst hread) Bool.false_ne_true
  | cons b bs =>
      obtain ⟨q', hok, -, hat⟩ := readNext_cons hq tt
      rw [hok, Option.some.injEq, Prod.mk.injEq, Prod.mk.injEq] at hread
      rw [hread.2.2] at hat
      have hlen := ih hat
      rw [List.length_cons, Posting.flatMap_tuples_length]
      omega

/-- Every success takes something away from what is left, so that no more can come out. -/
theorem At.length_le {r : Reader σ} {term : UInt32} {ds : List UInt32} {bs : List Posting}
    (h : S.At r term ds bs) {args : Nat → Tupe} {l : List Tupe}
    (hl : Fills S.read Reader.t r args l) :
    l.length ≤ ds.length + (bs.flatMap Posting.tuples).length := by
  induction l generalizing r term ds bs args with
  | nil => exact Nat.zero_le _
  | cons x xs ih =>
      obtain ⟨r', hread, -, hxs⟩ := hl
      cases ds with
      | nil =>
          rw [h.read_nil] at hread
          have hlen := length_le_of_readNext h.delivers hread (fun hat => ih hat hxs)
          rwa [List.length_nil, Nat.zero_add]
      | cons d ds =>
          by_cases hd : d = 0
          · subst hd
            rw [h.read_zero] at hread
            have hlen := length_le_of_readNext h.next.delivers hread (fun hat => ih hat hxs)
            omega
          · rw [h.read_cons hd, Option.some.injEq, Prod.mk.injEq, Prod.mk.injEq] at hread
            have hlen := ih (hread.2.2 ▸ h.next) hxs
            simp only [List.length_cons] at hlen ⊢
            omega

/-- With a document `0` in front, not everything can. -/
theorem At.not_fills_zero {r : Reader σ} {term : UInt32} {ds : List UInt32} {bs : List Posting}
    (h : S.At r term (0 :: ds) bs) (args : Nat → Tupe) (x : Tupe) (xs : List Tupe)
    (hlen : (x :: xs).length = ds.length + 1 + (bs.flatMap Posting.tuples).length) :
    ¬ Fills S.read Reader.t r args (x :: xs) := by
  rintro ⟨r', hread, -, hxs⟩
  rw [h.read_zero] at hread
  have hle := length_le_of_readNext h.next.delivers hread (fun hat => hat.length_le hxs)
  omega

/-! ## When all of it comes out -/

/-- Inside a block no document is `0`, and the caller comes with the term. -/
def Supplied (args : Nat → Tupe) (ps : List (Bool × Tupe)) : Prop :=
  ∀ i x, ps[i]? = some (true, x) → x.doc ≠ 0 ∧ (args i).term = x.term

theorem supplied_nil (args : Nat → Tupe) : Supplied args [] := by
  intro i x h
  exact absurd h (by simp)

theorem supplied_cons (args : Nat → Tupe) (inside : Bool) (x : Tupe) (ps : List (Bool × Tupe)) :
    Supplied args ((inside, x) :: ps)
      ↔ (inside = true → x.doc ≠ 0 ∧ (args 0).term = x.term)
        ∧ Supplied (fun n => args (n + 1)) ps := by
  constructor
  · intro h
    refine ⟨?_, fun i y hy => h (i + 1) y hy⟩
    rintro rfl
    exact h 0 x rfl
  · rintro ⟨h0, h⟩ i y hy
    cases i with
    | zero =>
        rw [List.getElem?_cons_zero, Option.some.injEq, Prod.mk.injEq] at hy
        obtain ⟨hin, rfl⟩ := hy
        exact h0 hin
    | succ i => exact h i y hy

/-- The documents and blocks to come are enumerated exactly if all is supplied. -/
def Enumerates (S : BlockSource σ) (r : Reader σ) (term : UInt32) (ds : List UInt32)
    (bs : List Posting) : Prop :=
  ∀ args, Fills S.read Reader.t r args (ds.map (Tupe.mk term) ++ bs.flatMap Posting.tuples)
    ↔ Supplied args (ds.map (fun d => (true, ⟨term, d⟩)) ++ bs.flatMap Posting.places)

/-- One document of a block. -/
theorem At.enumerates_cons {r : Reader σ} {term d : UInt32} {ds : List UInt32} {bs : List Posting}
    (h : S.At r term (d :: ds) bs)
    (ih : Enumerates S { r with it := r.it + 1, t := { r.t with doc := d } } term ds bs) :
    Enumerates S r term (d :: ds) bs := by
  intro args
  rw [List.map_cons, List.cons_append, List.map_cons, List.cons_append, supplied_cons]
  by_cases hd : d = 0
  · subst hd
    refine iff_of_false (h.not_fills_zero args _ _ ?_) (fun hs => (hs.1 rfl).1 rfl)
    simp only [List.length_cons, List.length_append, List.length_map]
    omega
  · have harg : ({ (args 0) with doc := d } : Tupe) = ⟨term, d⟩ ↔ (args 0).term = term := by
      simp
    have ht : ({ r.t with doc := d } : Tupe) = ⟨term, d⟩ := by simp [h.term_eq]
    have hread := h.read_cons hd (args 0)
    constructor
    · rintro ⟨r', hr', -, hs⟩
      rw [hread, Option.some.injEq, Prod.mk.injEq, Prod.mk.injEq] at hr'
      obtain ⟨-, ha, rfl⟩ := hr'
      exact ⟨fun _ => ⟨hd, harg.mp ha⟩, (ih _).mp hs⟩
    · rintro ⟨hin, hs⟩
      exact ⟨_, by rw [hread, harg.mpr (hin rfl).2], ht, (ih _).mpr hs⟩

/-- The rest of a block. -/
theorem At.enumerates_of_nil {term : UInt32} {bs : List Posting}
    (hnil : ∀ r, S.At r term [] bs → Enumerates S r term [] bs) {r : Reader σ}
    {ds : List UInt32} (h : S.At r term ds bs) : Enumerates S r term ds bs := by
  induction ds generalizing r with
  | nil => exact hnil r h
  | cons d ds ih => exact h.enumerates_cons (ih h.next)

/-- **From any place in the file.** -/
theorem At.enumerates {r : Reader σ} {term : UInt32} {ds : List UInt32} {bs : List Posting}
    (h : S.At r term ds bs) : Enumerates S r term ds bs := by
  induction bs generalizing r term ds with
  | nil =>
      refine At.enumerates_of_nil (fun r h args => ?_) h
      refine iff_of_true ?_ (supplied_nil args)
      obtain ⟨r', hr'⟩ := readNext_nil h.delivers (args 0)
      exact ⟨_, r', by rw [h.read_nil, hr']⟩
  | cons b bs ih =>
      refine At.enumerates_of_nil (fun r h args => ?_) h
      obtain ⟨r', hread, ht, hat⟩ := readNext_cons h.delivers (args 0)
      have hrest := ih hat (fun n => args (n + 1))
      have hplaces : (b :: bs).flatMap Posting.places
          = (false, ⟨b.term, b.first⟩)
            :: (b.more.map (fun d => (true, ⟨b.term, d⟩)) ++ bs.flatMap Posting.places) := rfl
      have htuples : (b :: bs).flatMap Posting.tuples
          = ⟨b.term, b.first⟩ :: (b.more.map (Tupe.mk b.term) ++ bs.flatMap Posting.tuples) := rfl
      rw [List.map_nil, List.nil_append, List.map_nil, List.nil_append, hplaces, htuples,
        supplied_cons, ← hrest]
      constructor
      · rintro ⟨r₂, hr₂, -, hs⟩
        rw [h.read_nil, hread, Option.some.injEq, Prod.mk.injEq, Prod.mk.injEq] at hr₂
        rw [← hr₂.2.2] at hs
        exact ⟨fun hin => absurd hin Bool.false_ne_true, hs⟩
      · rintro ⟨-, hs⟩
        exact ⟨r', by rw [h.read_nil, hread], ht, hs⟩

/-- A fresh reader has an empty block behind it. -/
theorem at_fresh {s : σ} {bs : List Posting} (hfresh : S.c s = []) (hdel : S.Delivers s bs)
    (t : Tupe) : S.At ⟨s, 0, t⟩ t.term [] bs := by
  refine ⟨Nat.zero_le _, ?_, rfl, hdel⟩
  show (S.c s).drop 0 = []
  rw [hfresh, List.drop_zero]

/-- **What `ifile::read` enumerates.** Over a source that delivers any blocks, a fresh reader gives
every document with its term, in the argument and in the member, and then fails, exactly if no
document but the first one of a block is `0`, and the caller comes with the right term at all of
these. -/
theorem read_fills_iff (S : BlockSource σ) (s : σ) (t : Tupe) (bs : List Posting)
    (args : Nat → Tupe) (hfresh : S.c s = []) (hdel : S.Delivers s bs) :
    Fills S.read Reader.t ⟨s, 0, t⟩ args (bs.flatMap Posting.tuples)
      ↔ Supplied args (bs.flatMap Posting.places) :=
  (at_fresh hfresh hdel t).enumerates args

/-- The source that has the blocks in a list. -/
def scripted : BlockSource (List UInt32 × Tupe × List Posting) where
  realRead
    | (c, t, []) => some (false, (c, t, []))
    | (_, _, b :: bs) => some (true, (b.docs, ⟨b.term, b.first⟩, bs))
  term s := s.2.1.term
  doc s := s.2.1.doc
  c s := s.1
  behind _ _ := 0

theorem scripted_delivers (c : List UInt32) (t : Tupe) (bs : List Posting) :
    scripted.Delivers (c, t, bs) bs := by
  induction bs generalizing c t with
  | nil => exact ⟨_, rfl⟩
  | cons b bs ih => exact ⟨_, rfl, rfl, ih b.docs ⟨b.term, b.first⟩⟩

/-- A block with two documents, read by a caller that knows the term. -/
theorem fills_two :
    Fills scripted.read Reader.t ⟨([], ⟨0, 0⟩, [⟨7, 1, [2]⟩]), 0, ⟨0, 0⟩⟩ (fun _ => ⟨7, 0⟩)
      [⟨7, 1⟩, ⟨7, 2⟩] :=
  (read_fills_iff scripted ([], ⟨0, 0⟩, [⟨7, 1, [2]⟩]) ⟨0, 0⟩ [⟨7, 1, [2]⟩] (fun _ => ⟨7, 0⟩) rfl
    (scripted_delivers [] ⟨0, 0⟩ _)).mpr (by
      intro i x h
      match i, h with
      | 0, h => exact absurd h (by simp [Posting.places])
      | 1, h =>
          simp only [Posting.places, List.flatMap_cons, List.flatMap_nil, List.map_cons,
            List.map_nil, List.append_nil, List.getElem?_cons_succ, List.getElem?_cons_zero,
            Option.some.injEq, Prod.mk.injEq, true_and] at h
          subst h
          decide
      | i + 2, h => exact absurd h (by simp [Posting.places]))

/-- A caller that comes with another term keeps it, and a document `0` is lost. -/
theorem not_fills_two :
    ¬ Fills scripted.read Reader.t ⟨([], ⟨0, 0⟩, [⟨7, 1, [2]⟩]), 0, ⟨0, 0⟩⟩ (fun _ => ⟨0, 0⟩)
        [⟨7, 1⟩, ⟨7, 2⟩]
      ∧ ¬ Fills scripted.read Reader.t ⟨([], ⟨0, 0⟩, [⟨7, 1, [0]⟩]), 0, ⟨0, 0⟩⟩
        (fun _ => ⟨7, 0⟩) [⟨7, 1⟩, ⟨7, 0⟩] := by
  constructor
  · rintro ⟨r₁, h₁, -, r₂, h₂, -⟩
    cases h₁
    have hd : _ = some (⟨7, 2⟩ : Tupe) := congrArg (Option.map (fun p => p.2.1)) h₂
    exact absurd hd (by decide)
  · rintro ⟨r₁, h₁, -, r₂, h₂, -⟩
    cases h₁
    have hd : _ = some true := congrArg (Option.map Prod.fst) h₂
    exact absurd hd (by decide)

end BlockSource

/-! ## The class -/

namespace Ifile

/-- `real_read` of the class. -/
def source : BlockSource (RecState ChunkHead) where
  realRead := readRecord headCodec
  term s := s.h.term
  doc s := s.h.doc
  c s := s.c
  behind s i := UInt32.ofNat ((s.heap 0).le (4 * i) 4)

/-- The members that `read` works on. -/
def reader (f : Ifile) : Reader (RecState ChunkHead) := ⟨f.toRec, f.it, f.t⟩

theorem readNext_reader (f : Ifile) (tt : Tupe) :
    (f.readNext tt).map (fun p => (p.1, p.2.1, p.2.2.reader)) = source.readNext f.reader tt := by
  have hsrc : source.realRead f.reader.src = f.realRead.map (Prod.map id toRec) :=
    (realRead_toRec f).symm
  rw [readNext, BlockSource.readNext, hsrc, Option.map_map, Option.map_map]
  refine Option.map_congr fun r hf' => ?_
  obtain ⟨ok, f'⟩ := r
  cases ok with
  | false =>
      rw [realRead_false hf']
      rfl
  | true =>
      dsimp only [Function.comp, Prod.map_apply, id]
      simp only [if_true, reader, realRead_it hf']
      rfl

/-- **The class is the reader over its own `real_read`.** -/
theorem read_reader (f : Ifile) (tt : Tupe) :
    (f.read tt).map (fun p => (p.1, p.2.1, p.2.2.reader)) = source.read f.reader tt := by
  have hderef : source.deref f.reader = f.deref := rfl
  have hlen : (source.c f.reader.src).length = f.c.length := rfl
  unfold read BlockSource.read
  rw [hlen, hderef]
  by_cases hit : f.it ≠ f.c.length
  · rw [if_pos hit, if_pos (show f.reader.it ≠ f.c.length from hit)]
    by_cases hd : f.deref ≠ 0
    · simp only [if_pos hd]
      rfl
    · simp only [if_neg hd]
      exact readNext_reader _ _
  · rw [if_neg hit, if_neg (show ¬ f.reader.it ≠ f.c.length from hit)]
    exact readNext_reader f tt

/-- What follows for a fresh object over any file. -/
theorem read_new_fills_iff (fs : FStream) (t : Tupe) (heap : Heap) (bs : List Posting)
    (args : Nat → Tupe) (hdel : source.Delivers (new fs t heap).toRec bs) :
    Fills read Ifile.t (new fs t heap) args (bs.flatMap Posting.tuples)
      ↔ BlockSource.Supplied args (bs.flatMap Posting.places) := by
  have hmap := fills_map Reader.t reader read_reader (new fs t heap) args
    (bs.flatMap Posting.tuples)
  exact hmap.trans ((BlockSource.at_fresh rfl hdel t).enumerates args)

end Ifile

end CSearch.Tool
