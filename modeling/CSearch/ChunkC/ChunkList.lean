import CSearch.Basic.Runs
import CSearch.ChunkC.Chunk

set_option autoImplicit false

/-! # The chunk list of `chunk.c`

`chunk_list_push` pushes to the last chunk of a list. When that one is full, it is compressed and a
new one is put behind it, at the push after the one that has filled it. Of `list.h` only the list
that it stands for is kept.

`Conserved` is what should hold of the list after every push. A push keeps it, and neither fails an
assertion nor returns `-1`, as long as the chunk that it has to compress fits in the memory
allocated for that (`Between.push`, `Between.push_eq_none`). `pushDocs_conserved_iff` says for which
documents this is so.
-/

namespace CSearch.ChunkC

open StreamVByte

/-! ## The functions of the source -/

/-- The first half of `chunk_list_push`: afterwards there is a last chunk with room in it. The
address of `bcount` handed to `chunk_compress` is that of the member. -/
def makeRoom (l : List ChunkT) (heap : Heap) : Option (List ChunkT) :=
  match l.getLast? with
  | none => some [ChunkT.fresh (heap 0)]
  | some c =>
      if c.full then
        (c.compress (heap 1) heap.slack).map fun r =>
          l.dropLast ++ [{ r.2 with bcount := r.1 }, ChunkT.fresh (heap 0)]
      else some l

/-- `chunk_list_push`. -/
def chunkListPush (l : List ChunkT) (doc : UInt32) (heap : Heap) :
    Option (Int32 × List ChunkT) :=
  (makeRoom l heap).bind fun l =>
    l.getLast?.bind fun c =>
      (c.push doc (heap 2)).map fun r => (r.1, l.dropLast ++ [r.2])

/-- A sequence of calls: what they return, and the list. -/
def pushDocs (l : List ChunkT) (heap : Heap) : List UInt32 → Option (List Int32 × List ChunkT)
  | [] => some ([], l)
  | doc :: docs =>
      (chunkListPush l doc heap).bind fun r =>
        (pushDocs r.2 (heap.drop 3) docs).map fun p => (r.1 :: p.1, p.2)

/-! ## What a list stands for -/

/-- The documents of a chunk. -/
def ChunkT.docs (c : ChunkT) : List UInt32 :=
  if c.isCompressed then (streamvbyteDeltaDecode c.buff c.size 0).1 else c.contents

/-- A list that has these documents: all chunks but the last are compressed and full, the last one
is not compressed and has at least one document. -/
structure Conserved (ds : List UInt32) (l : List ChunkT) : Prop where
  max : ∀ c ∈ l, c.maxSize = 2 ^ 23
  compressed : ∀ c ∈ l.dropLast, c.isCompressed = true ∧ c.size.toNat = c.maxSize
  last : ∀ c ∈ l.getLast?, c.isCompressed = false ∧ 1 ≤ c.size.toNat
    ∧ c.size.toNat ≤ c.capacity ∧ c.capacity ≤ c.maxSize
  docs : l.flatMap ChunkT.docs = ds
  length : l.length = (ds.length + 2 ^ 23 - 1) / 2 ^ 23

/-! ## One push -/

/-- A full chunk in the list. -/
structure Sealed (c : ChunkT) : Prop where
  compressed : c.isCompressed = true
  max : c.maxSize = 2 ^ 23
  size : c.size.toNat = 2 ^ 23
  length : c.docs.length = 2 ^ 23

theorem ChunkT.Open.docs_eq {c : ChunkT} (h : c.Open) : c.docs = c.contents := by
  rw [ChunkT.docs, if_neg (by rw [h.not_compressed]; exact Bool.false_ne_true)]

/-- A full chunk whose compressed form fits is compressed without a failed assertion. -/
theorem ChunkT.Open.seal {c : ChunkT} (h : c.Open) (hfull : c.size.toNat = 2 ^ 23) {slack : Nat}
    (hfits : Tool.FitsWithin slack c.contents) (heap : Mem) :
    ∃ bcount c', c.compress heap slack = some (bcount, c') ∧ ∀ b, Sealed { c' with bcount := b }
      ∧ ({ c' with bcount := b } : ChunkT).docs = c.contents := by
  have hlen := ChunkT.contents_length c
  obtain ⟨bcount, c', hcomp, hflag, hsize, -, hmax, hdec⟩ :=
    h.compress (ChunkT.contents_ne_of_full hfull) hfits heap
  refine ⟨bcount, c', hcomp, fun b => ?_⟩
  have hdocs : ({ c' with bcount := b } : ChunkT).docs = c.contents := by
    show (if c'.isCompressed = true then _ else _) = c.contents
    rw [if_pos hflag]
    exact hdec
  refine ⟨⟨hflag, hmax.trans h.max, ?_, ?_⟩, hdocs⟩
  · show c'.size.toNat = 2 ^ 23
    rw [hsize, hfull]
  · rw [hdocs, hlen, hfull]

/-- The list between two pushes: full chunks, and one that is open and not empty. -/
inductive Between : List UInt32 → List ChunkT → Prop where
  | empty : Between [] []
  | concat {init : List ChunkT} {c : ChunkT} (hinit : ∀ d ∈ init, Sealed d) (hopen : c.Open)
      (hpos : 1 ≤ c.size.toNat) : Between (init.flatMap ChunkT.docs ++ c.contents) (init ++ [c])

theorem flatMap_docs_length {init : List ChunkT} (h : ∀ d ∈ init, Sealed d) :
    (init.flatMap ChunkT.docs).length = 2 ^ 23 * init.length := by
  induction init with
  | nil => rfl
  | cons d init ih =>
      rw [List.forall_mem_cons] at h
      rw [List.flatMap_cons, List.length_append, h.1.length, ih h.2, List.length_cons]
      omega

/-- What the next push needs: if the documents pushed so far have filled the last chunk, its
compressed form fits in the memory allocated for it. -/
def SealFits (slack : Nat) (docs : List UInt32) : Prop :=
  ∀ k, docs.length = 2 ^ 23 * (k + 1) → Tool.FitsWithin slack (docs.drop (2 ^ 23 * k))

/-- The last chunk has the documents behind those of the full chunks. -/
theorem drop_flatMap_docs {init : List ChunkT} (h : ∀ d ∈ init, Sealed d) (rest : List UInt32) :
    (init.flatMap ChunkT.docs ++ rest).drop (2 ^ 23 * init.length) = rest := by
  rw [← flatMap_docs_length h, List.drop_left]

/-- The list in the middle of a push: full chunks, and one that is open and not full. -/
theorem Between.makeRoom {docs : List UInt32} {l : List ChunkT} (h : Between docs l)
    {heap : Heap} (hfits : SealFits heap.slack docs) :
    ∃ init c, ChunkC.makeRoom l heap = some (init ++ [c]) ∧ (∀ d ∈ init, Sealed d) ∧ c.Open
      ∧ c.size.toNat < 2 ^ 23 ∧ init.flatMap ChunkT.docs ++ c.contents = docs := by
  have hfresh : (ChunkT.fresh (heap 0)).size.toNat < 2 ^ 23 := Nat.two_pow_pos 23
  cases h with
  | empty =>
    exact ⟨[], ChunkT.fresh (heap 0), rfl, fun d hd => absurd hd List.not_mem_nil,
      ChunkT.open_fresh _, hfresh, rfl⟩
  | @concat init c hinit hopen hpos =>
    have hle := hopen.le.trans hopen.capacity_le
    rw [ChunkC.makeRoom, List.getLast?_concat]
    by_cases hfull : c.size.toNat = 2 ^ 23
    · have hlast : Tool.FitsWithin heap.slack c.contents := by
        rw [← drop_flatMap_docs hinit c.contents]
        refine hfits init.length ?_
        rw [List.length_append, flatMap_docs_length hinit, ChunkT.contents_length, hfull]
        omega
      obtain ⟨bcount, c', hcomp, hseal⟩ := hopen.seal hfull hlast (heap 1)
      obtain ⟨hsealed, hcont⟩ := hseal bcount
      refine ⟨init ++ [{ c' with bcount := bcount }], ChunkT.fresh (heap 0), ?_, ?_,
        ChunkT.open_fresh _, hfresh, ?_⟩
      · simp only [if_pos (hopen.full_iff.mpr hfull), hcomp, Option.map_some, List.dropLast_concat,
          List.append_assoc]
        rfl
      · exact forall_mem_concat.mpr ⟨hinit, hsealed⟩
      · rw [List.flatMap_append, List.flatMap_singleton, hcont, ChunkT.fresh_contents,
          List.append_nil]
    · refine ⟨init, c, ?_, hinit, hopen, lt_of_le_of_ne hle hfull, rfl⟩
      simp only [if_neg (fun h' => hfull (hopen.full_iff.mp h'))]

/-- **One push.** -/
theorem Between.push {docs : List UInt32} {l : List ChunkT} (h : Between docs l) (doc : UInt32)
    {heap : Heap} (hfits : SealFits heap.slack docs) :
    ∃ rc l', chunkListPush l doc heap = some (rc, l') ∧ rc ≠ -1 ∧ Between (docs ++ [doc]) l' := by
  obtain ⟨init, c, hroom, hinit, hopen, hlt, hdocs⟩ := h.makeRoom hfits
  obtain ⟨rc, c', hpush, hrc, hopen', hcont⟩ := hopen.push hlt doc (heap 2)
  have hsize : c'.size.toNat = c.size.toNat + 1 := by
    rw [← ChunkT.contents_length, hcont, List.length_append, ChunkT.contents_length,
      List.length_singleton]
  have hall : init.flatMap ChunkT.docs ++ c'.contents = docs ++ [doc] := by
    rw [hcont, ← List.append_assoc, hdocs]
  refine ⟨rc, init ++ [c'], ?_, hrc, hall ▸ Between.concat hinit hopen' (by omega)⟩
  rw [chunkListPush, hroom, Option.bind_some, List.getLast?_concat, Option.bind_some, hpush,
    Option.map_some, List.dropLast_concat]

/-- A push that has to compress a chunk that does not fit writes behind its buffer. -/
theorem Between.push_eq_none {docs : List UInt32} {l : List ChunkT} (h : Between docs l)
    (doc : UInt32) {heap : Heap} (hfits : ¬ SealFits heap.slack docs) :
    chunkListPush l doc heap = none := by
  obtain ⟨k, hk⟩ := not_forall.mp hfits
  obtain ⟨hlen, hnot⟩ := Classical.not_imp.mp hk
  cases h with
  | empty =>
    rw [List.length_nil] at hlen
    omega
  | @concat init c hinit hopen hpos =>
    have hle := hopen.le.trans hopen.capacity_le
    rw [List.length_append, flatMap_docs_length hinit, ChunkT.contents_length] at hlen
    -- the last chunk is full, and it is the one in question
    have hfull : c.size.toNat = 2 ^ 23 := by omega
    have hinit_len : k = init.length := by omega
    rw [hinit_len, drop_flatMap_docs hinit] at hnot
    rw [chunkListPush, ChunkC.makeRoom, List.getLast?_concat]
    simp only [if_pos (hopen.full_iff.mpr hfull),
      hopen.compress_eq_none (ChunkT.contents_ne_of_full hfull) hnot (heap 1), Option.map_none,
      Option.bind_none]

/-! ## All pushes -/

theorem Between.pushDocs {docs : List UInt32} {l : List ChunkT} (h : Between docs l)
    (heap : Heap) {more : List UInt32}
    (hfits : AtEach (fun pre _ => SealFits heap.slack (docs ++ pre)) more) :
    ∃ rcs l', ChunkC.pushDocs l heap more = some (rcs, l') ∧ (∀ rc ∈ rcs, rc ≠ -1)
      ∧ Between (docs ++ more) l' := by
  induction more generalizing docs l heap with
  | nil =>
      refine ⟨[], l, rfl, fun rc hrc => absurd hrc List.not_mem_nil, ?_⟩
      rwa [List.append_nil]
  | cons doc more ih =>
      rw [atEach_cons, List.append_nil] at hfits
      obtain ⟨rc, l₁, hpush, hrc, h₁⟩ := h.push doc hfits.1
      have hmore : AtEach (fun pre _ => SealFits (heap.drop 3).slack (docs ++ [doc] ++ pre)) more := by
        simp only [List.append_assoc, List.singleton_append]
        exact hfits.2
      obtain ⟨rcs, l', hall, hrcs, h'⟩ := ih h₁ (heap.drop 3) hmore
      refine ⟨rc :: rcs, l', ?_, List.forall_mem_cons.mpr ⟨hrc, hrcs⟩, ?_⟩
      · rw [ChunkC.pushDocs, hpush, Option.bind_some, hall, Option.map_some]
      · rwa [List.append_assoc, List.singleton_append] at h'

theorem Between.pushDocs_eq_none {docs : List UInt32} {l : List ChunkT} (h : Between docs l)
    {heap : Heap} {more : List UInt32}
    (hfits : ¬ AtEach (fun pre _ => SealFits heap.slack (docs ++ pre)) more) :
    ChunkC.pushDocs l heap more = none := by
  induction more generalizing docs l heap with
  | nil => exact absurd (atEach_nil _) hfits
  | cons doc more ih =>
      rw [atEach_cons, List.append_nil, not_and_or] at hfits
      rw [ChunkC.pushDocs]
      by_cases hnow : SealFits heap.slack docs
      · obtain ⟨rc, l₁, hpush, -, h₁⟩ := h.push doc hnow
        have hmore : ¬ AtEach (fun pre _ => SealFits (heap.drop 3).slack (docs ++ [doc] ++ pre))
            more := by
          simp only [List.append_assoc, List.singleton_append]
          exact hfits.resolve_left (not_not.mpr hnow)
        rw [hpush, Option.bind_some, ih h₁ hmore, Option.map_none]
      · rw [h.push_eq_none doc hnow, Option.bind_none]

theorem Between.conserved {docs : List UInt32} {l : List ChunkT} (h : Between docs l) :
    Conserved docs l := by
  cases h with
  | empty =>
    refine ⟨fun c hc => absurd hc List.not_mem_nil, fun c hc => absurd hc List.not_mem_nil,
      fun c hc => absurd hc (by simp), rfl, ?_⟩
    rw [List.length_nil, List.length_nil]
    omega
  | @concat init c hinit hopen hpos =>
    have hle := hopen.le.trans hopen.capacity_le
    refine ⟨?_, fun d hd => ?_, fun d hd => ?_, ?_, ?_⟩
    · exact forall_mem_concat.mpr ⟨fun d hd => (hinit d hd).max, hopen.max⟩
    · rw [List.dropLast_concat] at hd
      have hd := hinit d hd
      exact ⟨hd.compressed, hd.size.trans hd.max.symm⟩
    · rw [List.getLast?_concat, Option.mem_some_iff] at hd
      subst hd
      rw [hopen.max]
      exact ⟨hopen.not_compressed, hpos, hopen.le, hopen.capacity_le⟩
    · rw [List.flatMap_append, List.flatMap_singleton, hopen.docs_eq]
    · rw [List.length_append, List.length_append, flatMap_docs_length hinit,
        ChunkT.contents_length, List.length_singleton]
      omega

/-- **The chunk list loses nothing**: no push fails an assertion, returns `-1` or writes behind its
buffer, and afterwards the list has exactly these documents, in full compressed chunks and an open
last one, in as few chunks as there can be. -/
def ListConserves (docs : List UInt32) : Prop :=
  ∀ heap : Nat → Mem, ∃ rcs l, pushDocs [] ⟨heap, 0⟩ docs = some (rcs, l) ∧ (∀ rc ∈ rcs, rc ≠ -1)
    ∧ Conserved docs l

/-- The documents of the chunk number `k`. -/
def chunkDocs (docs : List UInt32) (k : Nat) : List UInt32 := (docs.drop (2 ^ 23 * k)).take (2 ^ 23)

theorem listConserves_iff_atEach (docs : List UInt32) :
    ListConserves docs ↔ AtEach (fun pre _ => SealFits 0 pre) docs := by
  constructor
  · intro h
    by_contra hnot
    obtain ⟨rcs, l, hrun, -⟩ := h (fun _ _ => 0)
    rw [Between.empty.pushDocs_eq_none hnot] at hrun
    exact absurd hrun (by simp)
  · intro h heap
    obtain ⟨rcs, l, hrun, hrcs, hl⟩ := Between.empty.pushDocs ⟨heap, 0⟩ h
    exact ⟨rcs, l, hrun, hrcs, hl.conserved⟩

/-- **For which documents the chunk list loses nothing**: the differences of every chunk that is
followed by another document save at least the `2^21` bytes that its keys take. -/
theorem pushDocs_conserved_iff (docs : List UInt32) :
    ListConserves docs ↔ ∀ k, 2 ^ 23 * (k + 1) < docs.length →
      2 ^ 21 ≤ savedBytes (deltas 0 (chunkDocs docs k)) := by
  rw [listConserves_iff_atEach]
  have hchunk : ∀ {pre post : List UInt32} {doc : UInt32} {k : Nat},
      docs = pre ++ doc :: post → pre.length = 2 ^ 23 * (k + 1) →
        pre.drop (2 ^ 23 * k) = chunkDocs docs k ∧ (chunkDocs docs k).length = 2 ^ 23 := by
    intro pre post doc k hdocs hlen
    have hdrop : (pre.drop (2 ^ 23 * k)).length = 2 ^ 23 := by
      rw [List.length_drop]
      omega
    have heq : chunkDocs docs k = pre.drop (2 ^ 23 * k) := by
      rw [chunkDocs, hdocs, List.drop_append_of_le_length (by omega), List.take_left' hdrop]
    exact ⟨heq.symm, heq ▸ hdrop⟩
  have hfits : ∀ {vs : List UInt32}, vs.length = 2 ^ 23 →
      (Tool.FitsWithin 0 vs ↔ 2 ^ 21 ≤ savedBytes (deltas 0 vs)) := by
    intro vs hlen
    rw [ChunkT.compress_fits_iff hlen.le, hlen, show (2 ^ 23 + 3) / 4 = 2 ^ 21 from rfl]
  constructor
  · intro h k hk
    have hdocs : docs = docs.take (2 ^ 23 * (k + 1))
        ++ docs[2 ^ 23 * (k + 1)] :: docs.drop (2 ^ 23 * (k + 1) + 1) := by
      rw [← List.drop_eq_getElem_cons hk, List.take_append_drop]
    have hlen : (docs.take (2 ^ 23 * (k + 1))).length = 2 ^ 23 * (k + 1) :=
      List.length_take_of_le hk.le
    obtain ⟨heq, hclen⟩ := hchunk hdocs hlen
    rw [← hfits hclen, ← heq]
    exact h _ _ _ hdocs k hlen
  · intro h pre doc post hdocs k hlen
    obtain ⟨heq, hclen⟩ := hchunk hdocs hlen
    rw [heq, hfits hclen]
    refine h k ?_
    rw [hdocs, List.length_append, List.length_cons]
    omega

/-- A chunk full of differences of four bytes, and one document more: its compressed form takes
`2^21 + 2^25` bytes, of which `2^25` are allocated. -/
theorem not_listConserves_alternating :
    ¬ ListConserves (Tool.alternating (2 ^ 22) ++ [0]) := by
  have hlen : (Tool.alternating (2 ^ 22)).length = 2 ^ 23 := Tool.alternating_length (2 ^ 22)
  rw [listConserves_iff_atEach]
  intro h
  have hfits := h _ _ [] rfl 0 hlen
  rw [Nat.mul_zero, List.drop_zero, ChunkT.compress_fits_iff hlen.le, hlen,
    Tool.savedBytes_alternating] at hfits
  exact absurd hfits (by decide)

end CSearch.ChunkC
