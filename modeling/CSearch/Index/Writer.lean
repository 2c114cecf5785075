import CSearch.Basic.Runs
import CSearch.Index.Block

set_option autoImplicit false

/-! # Index writers

What the two index writers of the repository do to a sequence of tuples, without the bytes. A
`Group` is what is known of a block: the term and the document in its header and its documents. A
`Writer` is the group under construction and the groups handed over so far.

The writers differ in the size of a full group and in what they do at a change of the term: one
renames the group under construction (`rename`), the other leaves the old header in place.

`Writer.tuples` is what a writer holds. Handing over a group never changes it (`emit_tuples`), so
everything depends on the header being right when a document is added (`step_tuples`). A writer
that renames always has the right one (`run_true_tuples`); `run_false_iff` says when the other one
has. The document in the header is another matter: renaming leaves it as it was, and
`run_true_firstDocs_iff` says when it is the first one of the group.
-/

namespace CSearch.Index

/-- A block without its bytes. -/
structure Group where
  term : UInt32
  doc : UInt32
  docs : List UInt32
  deriving DecidableEq, Repr

/-- What a group stands for. -/
def Group.tuples (g : Group) : List Tupe := g.docs.map (Tupe.mk g.term)

/-- The group of a block. -/
def groupOf (b : Block) : Group := ⟨b.head.term, b.head.doc, b.docs⟩

/-- A writer: the group under construction and those handed over. -/
structure Writer where
  cur : Group
  out : List Group
  deriving DecidableEq, Repr

namespace Writer

/-- A writer that has seen nothing. -/
def new : Writer := ⟨⟨0, 0, []⟩, []⟩

/-- Hand over the group under construction, if there is one; the header stays. -/
def emit (s : Writer) : Writer :=
  if s.cur.docs = [] then s else ⟨{ s.cur with docs := [] }, s.out ++ [s.cur]⟩

/-- An empty group takes its header from the tuple. -/
def start (s : Writer) (t : Tupe) : Writer :=
  if s.cur.docs = [] then { s with cur := { s.cur with term := t.term, doc := t.doc } } else s

/-- A tuple of another term ends the group. -/
def change (rename : Bool) (s : Writer) (t : Tupe) : Writer :=
  if t.term ≠ s.cur.term then
    let s := s.emit
    if rename then { s with cur := { s.cur with term := t.term } } else s
  else s

/-- Add a document. -/
def push (s : Writer) (d : UInt32) : Writer :=
  { s with cur := { s.cur with docs := s.cur.docs ++ [d] } }

/-- A full group is handed over. -/
def close (cap : Nat) (s : Writer) : Writer := if s.cur.docs.length = cap then s.emit else s

/-- One tuple. -/
def step (cap : Nat) (rename : Bool) (s : Writer) (t : Tupe) : Writer :=
  (((s.start t).change rename t).push t.doc).close cap

/-- A sequence of tuples. -/
def run (cap : Nat) (rename : Bool) (s : Writer) (ts : List Tupe) : Writer :=
  ts.foldl (step cap rename) s

@[simp] theorem run_nil (cap : Nat) (rename : Bool) (s : Writer) : run cap rename s [] = s := rfl

@[simp] theorem run_cons (cap : Nat) (rename : Bool) (s : Writer) (t : Tupe) (ts : List Tupe) :
    run cap rename s (t :: ts) = run cap rename (step cap rename s t) ts := rfl

theorem run_concat (cap : Nat) (rename : Bool) (s : Writer) (ts : List Tupe) (t : Tupe) :
    run cap rename s (ts ++ [t]) = step cap rename (run cap rename s ts) t := by
  rw [run, List.foldl_append]
  rfl

/-- Everything a writer holds, in order. -/
def tuples (s : Writer) : List Tupe := s.out.flatMap Group.tuples ++ s.cur.tuples

/-! ## What is held -/

theorem emit_of_nil {s : Writer} (h : s.cur.docs = []) : s.emit = s := by
  rw [emit, if_pos h]

theorem emit_of_ne {s : Writer} (h : s.cur.docs ≠ []) :
    s.emit = ⟨{ s.cur with docs := [] }, s.out ++ [s.cur]⟩ := by
  rw [emit, if_neg h]

@[simp] theorem emit_docs (s : Writer) : s.emit.cur.docs = [] := by
  by_cases h : s.cur.docs = []
  · rw [emit_of_nil h, h]
  · rw [emit_of_ne h]

@[simp] theorem emit_term (s : Writer) : s.emit.cur.term = s.cur.term := by
  rw [emit]
  split <;> rfl

@[simp] theorem emit_tuples (s : Writer) : s.emit.tuples = s.tuples := by
  by_cases h : s.cur.docs = []
  · rw [emit_of_nil h]
  · rw [emit_of_ne h]
    simp [tuples, Group.tuples]

/-- After handing over, everything is in the groups handed over. -/
theorem emit_out_tuples (s : Writer) : s.emit.out.flatMap Group.tuples = s.tuples := by
  rw [← emit_tuples, tuples, Group.tuples, emit_docs, List.map_nil, List.append_nil]

/-- The header of an empty group does not matter. -/
theorem tuples_of_docs_nil {s : Writer} (h : s.cur.docs = []) (term doc : UInt32) :
    tuples { s with cur := ⟨term, doc, []⟩ } = s.tuples := by
  simp [tuples, Group.tuples, h]

/-- A group without documents gets the header of the tuple. -/
theorem start_of_nil {s : Writer} (h : s.cur.docs = []) (t : Tupe) :
    s.start t = ⟨⟨t.term, t.doc, []⟩, s.out⟩ := by
  simp [start, h]

theorem start_of_ne {s : Writer} (h : s.cur.docs ≠ []) (t : Tupe) : s.start t = s := by
  rw [start, if_neg h]

@[simp] theorem start_tuples (s : Writer) (t : Tupe) : (s.start t).tuples = s.tuples := by
  by_cases h : s.cur.docs = []
  · rw [start_of_nil h, tuples_of_docs_nil h]
  · rw [start_of_ne h]

@[simp] theorem start_out (s : Writer) (t : Tupe) : (s.start t).out = s.out := by
  rw [start]
  split <;> rfl

@[simp] theorem start_docs (s : Writer) (t : Tupe) : (s.start t).cur.docs = s.cur.docs := by
  rw [start]
  split <;> rfl

theorem change_of_eq {s : Writer} {t : Tupe} (rename : Bool) (h : t.term = s.cur.term) :
    s.change rename t = s := by
  rw [change, if_neg (not_not.mpr h)]

theorem change_true_of_ne {s : Writer} {t : Tupe} (h : t.term ≠ s.cur.term) :
    s.change true t = { s.emit with cur := { s.emit.cur with term := t.term } } := by
  rw [change, if_pos h]
  rfl

@[simp] theorem change_tuples (rename : Bool) (s : Writer) (t : Tupe) :
    (s.change rename t).tuples = s.tuples := by
  rw [change]
  split
  · cases rename with
    | false => exact emit_tuples s
    | true =>
        rw [← emit_tuples s, ← tuples_of_docs_nil (emit_docs s) t.term s.emit.cur.doc]
        simp
  · rfl

/-- A document is filed under the term of the header. -/
@[simp] theorem push_tuples (s : Writer) (d : UInt32) :
    (s.push d).tuples = s.tuples ++ [⟨s.cur.term, d⟩] := by
  simp [push, tuples, Group.tuples]

@[simp] theorem close_tuples (cap : Nat) (s : Writer) : (s.close cap).tuples = s.tuples := by
  rw [close]
  split
  · exact emit_tuples s
  · rfl

/-- What one tuple adds. -/
theorem step_tuples (cap : Nat) (rename : Bool) (s : Writer) (t : Tupe) :
    (step cap rename s t).tuples
      = s.tuples ++ [⟨((s.start t).change rename t).cur.term, t.doc⟩] := by
  rw [step, close_tuples, push_tuples, change_tuples, start_tuples]

/-- A writer that renames files everything under its term. -/
theorem change_true_term (s : Writer) (t : Tupe) : (s.change true t).cur.term = t.term := by
  rw [change]
  split
  · rfl
  · next h => exact (not_not.mp h).symm

theorem run_true_tuples (cap : Nat) (s : Writer) (ts : List Tupe) :
    (run cap true s ts).tuples = s.tuples ++ ts := by
  induction ts generalizing s with
  | nil => simp
  | cons t ts ih =>
      rw [run_cons, ih, step_tuples, change_true_term, List.append_assoc, List.singleton_append]

/-! ## Sizes -/

/-- No group is larger than `cap`, and none that was handed over is empty. -/
structure Bounded (cap : Nat) (s : Writer) : Prop where
  cur_lt : s.cur.docs.length < cap
  out_ne : ∀ g ∈ s.out, g.docs ≠ []
  out_le : ∀ g ∈ s.out, g.docs.length ≤ cap

/-- What is handed over in the end: all that has been, and the group under construction. -/
theorem forall_emit_out (s : Writer) (P : Group → Prop) :
    (∀ g ∈ s.emit.out, P g) ↔ (∀ g ∈ s.out, P g) ∧ (s.cur.docs ≠ [] → P s.cur) := by
  by_cases hd : s.cur.docs = []
  · rw [emit_of_nil hd]
    exact ⟨fun h => ⟨h, fun hne => absurd hd hne⟩, fun h => h.1⟩
  · rw [emit_of_ne hd, forall_mem_concat]
    exact and_congr_right (fun _ => ⟨fun h _ => h, fun h => h hd⟩)

/-- Handing over keeps the sizes, also from a group that is just full. -/
theorem Bounded.emit {cap : Nat} {s : Writer} (hcap : 0 < cap) (hle : s.cur.docs.length ≤ cap)
    (hne : ∀ g ∈ s.out, g.docs ≠ []) (hout : ∀ g ∈ s.out, g.docs.length ≤ cap) :
    Bounded cap s.emit := by
  refine ⟨by simpa using hcap, ?_, ?_⟩
  · exact (forall_emit_out s _).mpr ⟨hne, fun h => h⟩
  · exact (forall_emit_out s _).mpr ⟨hout, fun _ => hle⟩

theorem Bounded.start {cap : Nat} {s : Writer} (hb : Bounded cap s) (t : Tupe) :
    Bounded cap (s.start t) :=
  ⟨by rw [start_docs]; exact hb.cur_lt, by rw [start_out]; exact hb.out_ne,
    by rw [start_out]; exact hb.out_le⟩

theorem Bounded.change {cap : Nat} {s : Writer} (hb : Bounded cap s) (rename : Bool) (t : Tupe) :
    Bounded cap (s.change rename t) := by
  have hpos : 0 < cap := Nat.lt_of_le_of_lt (Nat.zero_le _) hb.cur_lt
  have he := Bounded.emit hpos hb.cur_lt.le hb.out_ne hb.out_le
  rw [Writer.change]
  split
  · cases rename with
    | false => exact he
    | true => exact ⟨he.cur_lt, he.out_ne, he.out_le⟩
  · exact hb

theorem Bounded.step {cap : Nat} {s : Writer} (hb : Bounded cap s) (rename : Bool) (t : Tupe) :
    Bounded cap (step cap rename s t) := by
  have hc := (hb.start t).change rename t
  have hlen : (((s.start t).change rename t).push t.doc).cur.docs.length
      = ((s.start t).change rename t).cur.docs.length + 1 := by simp [push]
  have hlt := hc.cur_lt
  rw [Writer.step, close]
  split
  · exact Bounded.emit (by omega) (by omega) hc.out_ne hc.out_le
  · exact ⟨by omega, hc.out_ne, hc.out_le⟩

theorem Bounded.run {cap : Nat} {s : Writer} (hb : Bounded cap s) (rename : Bool)
    (ts : List Tupe) : Bounded cap (run cap rename s ts) := by
  induction ts generalizing s with
  | nil => exact hb
  | cons t ts ih => exact ih (hb.step rename t)

/-! ## Room

Every group that is handed over is compressed into a buffer of four bytes per document. What does
not fit in it stays among the groups handed over, so that it is enough to look at these in the
end. -/

/-- The groups handed over fit the buffers they are compressed into. -/
def Fits (slack : Nat) (s : Writer) : Prop := ∀ g ∈ s.out, Tool.FitsWithin slack g.docs

theorem fits_new (slack : Nat) : Fits slack new := fun _ hg => absurd hg List.not_mem_nil

theorem Fits.of_emit {slack : Nat} {s : Writer} (h : s.emit.Fits slack) : s.Fits slack :=
  ((forall_emit_out s _).mp h).1

theorem Fits.of_change {slack : Nat} {rename : Bool} {s : Writer} {t : Tupe}
    (h : (s.change rename t).Fits slack) : s.Fits slack := by
  rw [change] at h
  split at h
  · cases rename with
    | false => exact Fits.of_emit h
    | true => exact Fits.of_emit h
  · exact h

theorem Fits.of_close {slack cap : Nat} {s : Writer} (h : (s.close cap).Fits slack) :
    s.Fits slack := by
  rw [close] at h
  split at h
  · exact h.of_emit
  · exact h

theorem Fits.change_of_step {slack cap : Nat} {rename : Bool} {s : Writer} {t : Tupe}
    (h : (step cap rename s t).Fits slack) : ((s.start t).change rename t).Fits slack := by
  have hpush : (((s.start t).change rename t).push t.doc).Fits slack := Fits.of_close h
  exact hpush

theorem Fits.of_step {slack cap : Nat} {rename : Bool} {s : Writer} {t : Tupe}
    (h : (step cap rename s t).Fits slack) : s.Fits slack := by
  have hstart : (s.start t).Fits slack := h.change_of_step.of_change
  rwa [Fits, start_out] at hstart

theorem Fits.of_run {slack cap : Nat} {rename : Bool} {s : Writer} (ts : List Tupe)
    (h : (run cap rename s ts).Fits slack) : s.Fits slack := by
  induction ts generalizing s with
  | nil => exact h
  | cons t ts ih => exact (ih h).of_step

/-- With a byte of slack for four documents everything fits. -/
theorem Bounded.fits {cap slack : Nat} {s : Writer} (h : s.Bounded cap)
    (hslack : (cap + 3) / 4 ≤ slack) : s.Fits slack := by
  intro g hg
  have hle := h.out_le g hg
  exact Tool.fitsWithin_of_le (by omega)

/-! ## Neighbours -/

/-- Two consecutive groups: the first one is full, or they have different terms. -/
def Apart (cap : Nat) (g g' : Group) : Prop := g.term ≠ g'.term ∨ g.docs.length = cap

/-- Consecutive groups are apart, the one under construction included. -/
structure Separated (cap : Nat) (s : Writer) : Prop where
  chain : s.out.IsChain (Apart cap)
  last : ∀ g ∈ s.out.getLast?, Apart cap g s.cur

/-- When nothing is under construction the last group handed over is full. -/
def LastFull (cap : Nat) (s : Writer) : Prop :=
  s.cur.docs = [] → ∀ g ∈ s.out.getLast?, g.docs.length = cap

theorem Separated.emit_chain {cap : Nat} {s : Writer} (h : Separated cap s) :
    s.emit.out.IsChain (Apart cap) := by
  by_cases hd : s.cur.docs = []
  · rw [emit_of_nil hd]
    exact h.chain
  · rw [emit_of_ne hd, List.isChain_append]
    refine ⟨h.chain, List.isChain_singleton _, fun g hg g' hg' => ?_⟩
    rw [List.head?_cons, Option.mem_some_iff] at hg'
    rw [← hg']
    exact h.last g hg

theorem emit_getLast? {s : Writer} (h : s.cur.docs ≠ []) : s.emit.out.getLast? = some s.cur := by
  rw [emit_of_ne h, List.getLast?_append]
  rfl

theorem Separated.start {cap : Nat} {s : Writer} (h : Separated cap s) (hl : LastFull cap s)
    (t : Tupe) : Separated cap (s.start t) := by
  by_cases hd : s.cur.docs = []
  · rw [start_of_nil hd]
    exact ⟨h.chain, fun g hg => Or.inr (hl hd g hg)⟩
  · rw [start_of_ne hd]
    exact h

/-- A change of the term is met with documents in the group, so the group is handed over. -/
theorem Separated.change {cap : Nat} {s : Writer} {t : Tupe} (h : Separated cap s)
    (hd : s.cur.docs = [] → t.term = s.cur.term) : Separated cap (s.change true t) := by
  by_cases ht : t.term = s.cur.term
  · rw [change_of_eq true ht]
    exact h
  · have hne : s.cur.docs ≠ [] := fun h' => ht (hd h')
    rw [change_true_of_ne ht]
    refine ⟨h.emit_chain, fun g hg => Or.inl ?_⟩
    simp only [emit_getLast? hne, Option.mem_some_iff] at hg
    rw [← hg]
    exact fun h' => ht h'.symm

theorem start_term_of_nil {s : Writer} {t : Tupe} (h : (s.start t).cur.docs = []) :
    t.term = (s.start t).cur.term := by
  rw [start_docs] at h
  rw [start_of_nil h]

/-- Both facts are kept by a writer that renames. -/
theorem Separated.step {cap : Nat} {s : Writer} (h : Separated cap s) (hl : LastFull cap s)
    (t : Tupe) :
    Separated cap (Writer.step cap true s t) ∧ LastFull cap (Writer.step cap true s t) := by
  have hc : Separated cap ((s.start t).change true t) :=
    (h.start hl t).change start_term_of_nil
  set w := (s.start t).change true t with hw
  have hp : Separated cap (w.push t.doc) := ⟨hc.chain, hc.last⟩
  have hne : (w.push t.doc).cur.docs ≠ [] := by simp [push]
  rw [Writer.step, ← hw, close]
  split
  · next hfull =>
    have hlast : ∀ g ∈ (w.push t.doc).emit.out.getLast?, g.docs.length = cap := by
      intro g hg
      rw [emit_getLast? hne, Option.mem_some_iff] at hg
      rw [← hg]
      exact hfull
    exact ⟨⟨hp.emit_chain, fun g hg => Or.inr (hlast g hg)⟩, fun _ => hlast⟩
  · exact ⟨hp, fun h' => absurd h' hne⟩

theorem Separated.run {cap : Nat} {s : Writer} (h : Separated cap s) (hl : LastFull cap s)
    (ts : List Tupe) : Separated cap (Writer.run cap true s ts) := by
  induction ts generalizing s with
  | nil => exact h
  | cons t ts ih =>
      obtain ⟨h', hl'⟩ := h.step hl t
      exact ih h' hl'

theorem separated_new (cap : Nat) : Separated cap new ∧ LastFull cap new := by
  refine ⟨⟨List.IsChain.nil, ?_⟩, ?_⟩ <;> simp [new, LastFull]

theorem bounded_new {cap : Nat} (h : 0 < cap) : Bounded cap new := by
  refine ⟨h, ?_, ?_⟩ <;> simp [new]

/-! ## Groups as blocks of a file -/

/-- One more block in the file is one more group handed over. -/
theorem blocks_append {bytes : List UInt8} {gs : List Group}
    (h : ∃ bs : List Block, bytes = bs.flatMap Block.bytes ∧ bs.map groupOf = gs) (b : Block) :
    ∃ bs : List Block, bytes ++ b.bytes = bs.flatMap Block.bytes
      ∧ bs.map groupOf = gs ++ [groupOf b] := by
  obtain ⟨bs, hbytes, hgroups⟩ := h
  refine ⟨bs ++ [b], ?_, ?_⟩
  · rw [hbytes, List.flatMap_append, List.flatMap_singleton]
  · rw [List.map_append, hgroups, List.map_singleton]

/-- Blocks with the groups of a writer that has handed over everything stand for what it held. -/
theorem blocks_tuples {bs : List Block} {s : Writer} (h : bs.map groupOf = s.emit.out) :
    bs.flatMap Block.tuples = s.tuples :=
  calc bs.flatMap Block.tuples
      = (bs.map groupOf).flatMap Group.tuples := by rw [List.flatMap_map]; rfl
    _ = s.emit.out.flatMap Group.tuples := by rw [h]
    _ = s.tuples := emit_out_tuples s

/-! ## Without renaming

A writer that keeps the old header at a change of the term files the new document under the old
term. So it is right only as long as the term changes at the boundaries of full groups. -/

theorem change_false_term (s : Writer) (t : Tupe) : (s.change false t).cur.term = s.cur.term := by
  rw [change]
  split
  · exact emit_term s
  · rfl

/-- The terms change only where a full group ends. -/
def TermsAligned (cap : Nat) (ts : List Tupe) : Prop :=
  ∀ i, i < ts.length → ts[i]?.map Tupe.term = ts[cap * (i / cap)]?.map Tupe.term

/-- Every group has its first document in the header. -/
structure FirstDocs (s : Writer) : Prop where
  cur : s.cur.docs ≠ [] → s.cur.docs.head? = some s.cur.doc
  out : ∀ g ∈ s.out, g.docs.head? = some g.doc

theorem FirstDocs.emit {s : Writer} (h : FirstDocs s) : FirstDocs s.emit := by
  refine ⟨fun hne => absurd (emit_docs s) hne, ?_⟩
  exact (forall_emit_out s _).mpr ⟨h.out, h.cur⟩

/-- The first document of a group does not change when the group goes on. -/
theorem firstDocs_push_iff {s : Writer} (hd : s.cur.docs ≠ []) (d : UInt32) :
    FirstDocs (s.push d) ↔ FirstDocs s := by
  have hhead : (s.push d).cur.docs.head? = s.cur.docs.head? := List.head?_append_of_ne_nil _ hd
  have hne : (s.push d).cur.docs ≠ [] := List.append_ne_nil_of_left_ne_nil hd _
  constructor
  · intro h
    refine ⟨fun _ => ?_, h.out⟩
    rw [← hhead]
    exact h.cur hne
  · intro h
    refine ⟨fun _ => ?_, h.out⟩
    rw [hhead]
    exact h.cur hd

/-- A group starts with its first document. -/
theorem FirstDocs.start_push {s : Writer} (h : FirstDocs s) (t : Tupe) :
    FirstDocs ((s.start t).push t.doc) := by
  by_cases hd : s.cur.docs = []
  · rw [start_of_nil hd]
    exact ⟨fun _ => rfl, h.out⟩
  · rw [start_of_ne hd]
    exact (firstDocs_push_iff hd _).mpr h

/-- Where a writer without renaming is after tuples it has filed correctly. -/
structure AlignedAt (cap : Nat) (ts : List Tupe) (s : Writer) : Prop where
  size : s.cur.docs.length = ts.length % cap
  term : ts.length % cap ≠ 0 → ts[cap * (ts.length / cap)]?.map Tupe.term = some s.cur.term
  firstDocs : FirstDocs s

/-- The header is right for a tuple exactly if the tuple has the term of its group. -/
theorem AlignedAt.term_iff {cap : Nat} {ts : List Tupe} {s : Writer} (h : AlignedAt cap ts s)
    (hcap : 0 < cap) (t : Tupe) :
    (s.start t).cur.term = t.term
      ↔ some t.term = (ts ++ [t])[cap * (ts.length / cap)]?.map Tupe.term := by
  have hdiv := Nat.div_add_mod ts.length cap
  have hmod := Nat.mod_lt ts.length hcap
  by_cases h0 : ts.length % cap = 0
  · have hd : s.cur.docs = [] := List.length_eq_zero_iff.mp (by rw [h.size, h0])
    rw [show cap * (ts.length / cap) = ts.length by omega, List.getElem?_concat_length,
      start_of_nil hd]
    exact iff_of_true rfl rfl
  · have hd : s.cur.docs ≠ [] := fun h' => h0 (by rw [← h.size, h', List.length_nil])
    rw [List.getElem?_append_left (by omega), h.term h0, start_of_ne hd, Option.some.injEq,
      eq_comm]

/-- A tuple that is filed correctly: the group goes on, or starts anew. -/
theorem AlignedAt.step {cap : Nat} {ts : List Tupe} {s : Writer} {t : Tupe} (hcap : 0 < cap)
    (h : AlignedAt cap ts s) (ht : (s.start t).cur.term = t.term) :
    AlignedAt cap (ts ++ [t]) (step cap false s t) := by
  have hmod := Nat.mod_lt ts.length hcap
  have hdiv := Nat.div_add_mod ts.length cap
  have hterm := (h.term_iff hcap t).mp ht
  have hfirst := h.firstDocs.start_push t
  set w := (s.start t).push t.doc with hw
  have hstep : Writer.step cap false s t = w.close cap := by
    rw [Writer.step, change_of_eq false ht.symm]
  have hlen : w.cur.docs.length = ts.length % cap + 1 := by
    rw [← h.size, hw]
    simp [push]
  rw [hstep, close]
  -- the position in the group is the number of tuples modulo `cap`
  by_cases hfull : w.cur.docs.length = cap
  · have hsum : (ts ++ [t]).length = cap * (ts.length / cap) + cap := by
      rw [List.length_append, List.length_singleton]
      omega
    have hzero : (ts ++ [t]).length % cap = 0 := by
      rw [hsum, Nat.add_mod_right, Nat.mul_mod_right]
    rw [if_pos hfull]
    exact ⟨by rw [emit_docs, hzero]; rfl, fun h' => absurd hzero h', hfirst.emit⟩
  · have hlt : ts.length % cap + 1 < cap := by omega
    have hsum : (ts ++ [t]).length = cap * (ts.length / cap) + (ts.length % cap + 1) := by
      rw [List.length_append, List.length_singleton]
      omega
    have hmod' : (ts ++ [t]).length % cap = ts.length % cap + 1 := by
      rw [hsum, Nat.mul_add_mod, Nat.mod_eq_of_lt hlt]
    have hdiv' : (ts ++ [t]).length / cap = ts.length / cap := by
      rw [hsum, Nat.mul_add_div hcap, Nat.div_eq_of_lt hlt, Nat.add_zero]
    rw [if_neg hfull]
    refine ⟨by rw [hlen, hmod'], fun _ => ?_, hfirst⟩
    rw [hdiv', ← hterm, ← ht]
    rfl

/-- One more tuple is aligned if its term is that of its group. -/
theorem termsAligned_concat (cap : Nat) (ts : List Tupe) (t : Tupe) :
    TermsAligned cap (ts ++ [t]) ↔ TermsAligned cap ts
      ∧ some t.term = (ts ++ [t])[cap * (ts.length / cap)]?.map Tupe.term := by
  have hle : ∀ i, cap * (i / cap) ≤ i := fun i => Nat.mul_div_le i cap
  constructor
  · intro h
    refine ⟨fun i hi => ?_, ?_⟩
    · have hi' := h i (by rw [List.length_append]; omega)
      have := hle i
      rwa [List.getElem?_append_left hi, List.getElem?_append_left (by omega)] at hi'
    · have := h ts.length (by simp)
      rwa [List.getElem?_concat_length, Option.map_some] at this
  · rintro ⟨h, hlast⟩ i hi
    rw [List.length_append, List.length_singleton] at hi
    rcases Nat.lt_or_ge i ts.length with hlt | hge
    · have := hle i
      rw [List.getElem?_append_left hlt, List.getElem?_append_left (by omega)]
      exact h i hlt
    · have heq : i = ts.length := by omega
      rw [heq, List.getElem?_concat_length, Option.map_some]
      exact hlast

/-- **A writer without renaming** has filed everything correctly exactly if the terms are aligned;
then every header has the first document. -/
theorem run_false_iff (cap : Nat) (hcap : 0 < cap) (ts : List Tupe) :
    ((run cap false new ts).tuples = ts ↔ TermsAligned cap ts)
      ∧ (TermsAligned cap ts → AlignedAt cap ts (run cap false new ts)) := by
  induction ts using List.reverseRecOn with
  | nil =>
      refine ⟨iff_of_true rfl (fun i hi => absurd hi (Nat.not_lt_zero i)), fun _ => ⟨?_, ?_, ?_⟩⟩
      · simp [new]
      · simp
      · exact ⟨fun h => absurd rfl h, fun g hg => absurd hg List.not_mem_nil⟩
  | append_singleton ts t ih =>
      obtain ⟨hiff, hat⟩ := ih
      set s := run cap false new ts with hs
      have hsplit : s.tuples ++ [⟨(s.start t).cur.term, t.doc⟩] = ts ++ [t]
          ↔ s.tuples = ts ∧ (s.start t).cur.term = t.term := by
        constructor
        · intro h
          obtain ⟨h1, h2⟩ := List.append_inj' h rfl
          exact ⟨h1, congrArg Tupe.term (List.singleton_inj.mp h2)⟩
        · rintro ⟨h1, h2⟩
          rw [h1, h2]
      rw [run_concat, ← hs, step_tuples, change_false_term, hsplit, hiff, termsAligned_concat]
      refine ⟨and_congr_right (fun ha => (hat ha).term_iff hcap t), ?_⟩
      rintro ⟨ha, hlast⟩
      exact (hat ha).step hcap (((hat ha).term_iff hcap t).mpr hlast)

/-! ## The document in a renamed header

A writer that renames gives the group the new term, but keeps the document. So the header names the
first document of every group only if each group that was renamed starts with the document of the
group before it. -/

/-- The tuple leaves the document in the header right: it opens a group, or goes on with one, or
has the document that is there. -/
def Keeps (s : Writer) (t : Tupe) : Prop :=
  s.cur.docs = [] ∨ t.term = s.cur.term ∨ t.doc = s.cur.doc

@[simp] theorem emit_doc (s : Writer) : s.emit.cur.doc = s.cur.doc := by
  rw [emit]
  split <;> rfl

/-- All is right exactly if it is in the groups that have been handed over in the end. -/
theorem firstDocs_iff_emit (s : Writer) :
    FirstDocs s ↔ ∀ g ∈ s.emit.out, g.docs.head? = some g.doc := by
  rw [forall_emit_out]
  exact ⟨fun h => ⟨h.out, h.cur⟩, fun h => ⟨h.2, h.1⟩⟩

theorem firstDocs_close_iff (cap : Nat) (s : Writer) : FirstDocs (s.close cap) ↔ FirstDocs s := by
  rw [close]
  split
  · have hemit : s.emit.emit = s.emit := emit_of_nil (emit_docs s)
    rw [firstDocs_iff_emit, hemit, ← firstDocs_iff_emit]
  · rfl

/-- A group that is renamed keeps the document of the one before it, which must be its first. -/
theorem firstDocs_change_push_iff {s : Writer} {t : Tupe} (ht : t.term ≠ s.cur.term) :
    FirstDocs ((s.change true t).push t.doc) ↔ FirstDocs s ∧ t.doc = s.cur.doc := by
  rw [change_true_of_ne ht, firstDocs_iff_emit s]
  set w : Writer := { s.emit with cur := { s.emit.cur with term := t.term } } with hw
  have hdocs : (w.push t.doc).cur.docs = [t.doc] := by
    show s.emit.cur.docs ++ [t.doc] = [t.doc]
    rw [emit_docs, List.nil_append]
  have hdoc : (w.push t.doc).cur.doc = s.cur.doc := emit_doc s
  constructor
  · intro h
    have hcur := h.cur (by rw [hdocs]; exact List.cons_ne_nil _ _)
    rw [hdocs, hdoc, List.head?_cons, Option.some.injEq] at hcur
    exact ⟨h.out, hcur⟩
  · rintro ⟨hout, heq⟩
    refine ⟨fun _ => ?_, hout⟩
    rw [hdocs, hdoc, List.head?_cons, heq]

/-- One tuple keeps the headers right exactly if it keeps this one right. -/
theorem firstDocs_step_iff (cap : Nat) (s : Writer) (t : Tupe) :
    FirstDocs (step cap true s t) ↔ FirstDocs s ∧ Keeps s t := by
  rw [step, firstDocs_close_iff]
  by_cases hd : s.cur.docs = []
  · -- a new group takes everything from the tuple
    rw [start_of_nil hd, change_of_eq true rfl, and_iff_left (show Keeps s t from Or.inl hd)]
    exact ⟨fun h => ⟨fun hne => absurd hd hne, h.out⟩, fun h => ⟨fun _ => rfl, h.out⟩⟩
  · rw [start_of_ne hd]
    by_cases ht : t.term = s.cur.term
    · rw [change_of_eq true ht, firstDocs_push_iff hd,
        and_iff_left (show Keeps s t from Or.inr (Or.inl ht))]
    · have hkeeps : Keeps s t ↔ t.doc = s.cur.doc :=
        ⟨fun h => (h.resolve_left hd).resolve_left ht, fun h => Or.inr (Or.inr h)⟩
      rw [hkeeps]
      exact firstDocs_change_push_iff ht

/-- The group under construction after a sequence of tuples: what the last run of equal terms has
left over from full groups. -/
structure OpenGroup (cap : Nat) (ts : List Tupe) (s : Writer) : Prop where
  docs : s.cur.docs
    = (ts.drop (ts.length - lastRun Tupe.term ts % cap)).map Tupe.doc
  term : s.cur.docs ≠ [] → ts.getLast?.map Tupe.term = some s.cur.term

theorem OpenGroup.length {cap : Nat} {ts : List Tupe} {s : Writer} (h : OpenGroup cap ts s) :
    s.cur.docs.length = lastRun Tupe.term ts % cap := by
  have h1 := lastRun_le_length Tupe.term ts
  have h2 := Nat.mod_le (lastRun Tupe.term ts) cap
  rw [h.docs, List.length_map, List.length_drop]
  omega

/-- A group that has just been closed, or is one tuple longer. -/
theorem OpenGroup.close_push {cap : Nat} {ts : List Tupe} {w : Writer} {t : Tupe} {k : Nat}
    (hk : k < cap) (hkl : k ≤ ts.length)
    (hdocs : w.cur.docs = (ts.drop (ts.length - k)).map Tupe.doc) (hterm : w.cur.term = t.term)
    (hrun : lastRun Tupe.term (ts ++ [t]) % cap = (k + 1) % cap) :
    OpenGroup cap (ts ++ [t]) ((w.push t.doc).close cap) := by
  have hlen : (w.push t.doc).cur.docs.length = k + 1 := by
    simp [push, hdocs]
    omega
  rw [close]
  by_cases hfull : k + 1 = cap
  · -- full: nothing is left over
    rw [if_pos (hlen.trans hfull)]
    rw [hfull, Nat.mod_self] at hrun
    refine ⟨?_, fun hne => absurd (emit_docs _) hne⟩
    rw [hrun, Nat.sub_zero, List.drop_length, emit_docs, List.map_nil]
  · rw [if_neg (by omega)]
    rw [Nat.mod_eq_of_lt (show k + 1 < cap by omega)] at hrun
    refine ⟨?_, fun _ => ?_⟩
    · have hpos : (ts ++ [t]).length - (k + 1) = ts.length - k := by
        rw [List.length_append, List.length_singleton]
        omega
      rw [hrun, hpos, List.drop_append_of_le_length (by omega), List.map_append]
      show w.cur.docs ++ [t.doc] = _
      rw [hdocs]
      rfl
    · show _ = some w.cur.term
      rw [hterm, List.getLast?_append]
      rfl

/-- One tuple more. -/
theorem OpenGroup.step {cap : Nat} {ts : List Tupe} {s : Writer} (hcap : 0 < cap)
    (h : OpenGroup cap ts s) (t : Tupe) :
    OpenGroup cap (ts ++ [t]) (Writer.step cap true s t) := by
  have hmod := Nat.mod_lt (lastRun Tupe.term ts) hcap
  have hle := lastRun_le_length Tupe.term ts
  have hmodle := Nat.mod_le (lastRun Tupe.term ts) cap
  have hlen := h.length
  rw [Writer.step]
  by_cases hd : s.cur.docs = []
  · -- the run so far consists of full groups
    rw [hd, List.length_nil] at hlen
    rw [start_of_nil hd, change_of_eq true rfl]
    apply OpenGroup.close_push hcap (Nat.zero_le _) (by simp) rfl
    by_cases ht : ts.getLast?.map Tupe.term = some t.term
    · rw [lastRun_concat_of_eq ht, Nat.add_mod, ← hlen, Nat.zero_add, Nat.mod_mod]
    · rw [lastRun_concat_of_ne ht]
  · have hpos : 0 < s.cur.docs.length := List.length_pos_iff.mpr hd
    have hlast := h.term hd
    rw [start_of_ne hd]
    by_cases ht : t.term = s.cur.term
    · rw [change_of_eq true ht]
      apply OpenGroup.close_push hmod (by omega) h.docs ht.symm
      rw [lastRun_concat_of_eq (by rw [hlast, ht]), Nat.mod_add_mod]
    · rw [change_true_of_ne ht]
      apply OpenGroup.close_push hcap (Nat.zero_le _) _ rfl
      · rw [lastRun_concat_of_ne]
        intro h'
        rw [hlast, Option.some.injEq] at h'
        exact ht h'.symm
      · simp

theorem openGroup_run {cap : Nat} (hcap : 0 < cap) (ts : List Tupe) :
    OpenGroup cap ts (run cap true new ts) := by
  induction ts using List.reverseRecOn with
  | nil => exact ⟨rfl, fun h => absurd rfl h⟩
  | append_singleton ts t ih =>
      rw [run_concat]
      exact ih.step hcap t

/-- At this place the document in the header stays right: the tuples before it end with full
groups, or with the same term, or with an open group whose first document is this one. -/
def HeaderKept (cap : Nat) (pre : List Tupe) (t : Tupe) : Prop :=
  lastRun Tupe.term pre % cap = 0 ∨ pre.getLast?.map Tupe.term = some t.term
    ∨ pre[pre.length - lastRun Tupe.term pre % cap]?.map Tupe.doc = some t.doc

theorem keeps_iff_headerKept {cap : Nat} {ts : List Tupe} {s : Writer} (h : OpenGroup cap ts s)
    (hf : FirstDocs s) (t : Tupe) : Keeps s t ↔ HeaderKept cap ts t := by
  have hlen := h.length
  by_cases hd : s.cur.docs = []
  · rw [hd, List.length_nil] at hlen
    exact iff_of_true (Or.inl hd) (Or.inl hlen.symm)
  · have hne : lastRun Tupe.term ts % cap ≠ 0 := by
      rw [← hlen]
      exact fun h' => hd (List.length_eq_zero_iff.mp h')
    have hdoc : ts[ts.length - lastRun Tupe.term ts % cap]?.map Tupe.doc = some s.cur.doc := by
      rw [← hf.cur hd, h.docs, List.head?_map, List.head?_drop]
    unfold Keeps HeaderKept
    rw [h.term hd, hdoc, Option.some.injEq, Option.some.injEq, eq_comm (a := s.cur.term),
      eq_comm (a := s.cur.doc)]
    simp only [hd, hne, false_or]

/-- **When every header names the first document of its group.** -/
theorem run_true_firstDocs_iff {cap : Nat} (hcap : 0 < cap) (ts : List Tupe) :
    FirstDocs (run cap true new ts) ↔ AtEach (HeaderKept cap) ts := by
  induction ts using List.reverseRecOn with
  | nil =>
      refine iff_of_true ⟨fun h => absurd rfl h, fun g hg => absurd hg List.not_mem_nil⟩ ?_
      exact atEach_nil _
  | append_singleton ts t ih =>
      rw [run_concat, firstDocs_step_iff, atEach_concat, ← ih]
      apply and_congr_right
      intro hf
      exact keeps_iff_headerKept (openGroup_run hcap ts) hf t

end Writer

end CSearch.Index
