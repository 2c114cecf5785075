import CSearch.Tool.Document
import CSearch.Tool.Ifile
import CSearch.Tool.KWay

set_option autoImplicit false

/-! # `tool::dsort`

`dsort` turns documents into postings (`dsort.cc`): it merges document files by id, and for every
term of every document appends the id of the document to the list of the term. Sort and search
both go by the id, so the documents are handled in order and every list is in order.

`postAll_foldl` says what a sequence of documents does to the map, and `dsort_inverts` is the
result: the list of a term has the id of every document as often as the document has the term.
-/

namespace CSearch.Tool

open KMerge (Queue)

/-! ## The function -/

/-- `std::unordered_map<uint32_t, std::vector<uint32_t>>`. -/
abbrev PostingMap : Type := UInt32 → Option (List UInt32)

/-- `map[ term ].push_back( id )`; the id is narrowed to the type of the vector. -/
def PostingMap.pushBack (m : PostingMap) (term : UInt32) (id : UInt64) : PostingMap :=
  Function.update m term (some ((m term).getD [] ++ [id.toUInt32]))

/-- `for( auto term : f->doc.c ) map[ term ].push_back( f->doc.id )`. -/
def PostingMap.postAll (m : PostingMap) (d : Document) : PostingMap :=
  d.c.foldl (fun m term => m.pushBack term d.id) m

namespace Dsort

/-- What `dsort` does its own way. -/
def kind : Kind Idocument Document PostingMap where
  read := Idocument.read
  item := Idocument.doc
  sortLt a b := decide (a.id < b.id)
  searchLe a b := decide (a.id ≤ b.id)
  handle := PostingMap.postAll

end Dsort

/-- `tool::dsort`: the state at the end of the loop, with the map in `out`, and what the flush makes
of `outs`. The argument `limit` is not used. -/
def dsort {n : Nat} (S : StdSort) (fuel : Nat) (inputs : Fin n → Idocument) (_limit : Int)
    (outs : Ifile) : Option (Sources n Idocument Document PostingMap × Option Ifile) :=
  ((Dsort.kind.start S inputs (fun _ => none)).bind (Dsort.kind.loop fuel)).map
    fun s => (s, outs.flush)

/-! ## The map -/

/-- The postings of a term: the id of every document, once for every occurrence. -/
def postings (t : UInt32) (ds : List Document) : List UInt32 :=
  ds.flatMap (fun d => List.replicate (d.c.count t) d.id.toUInt32)

theorem postings_cons (t : UInt32) (d : Document) (ds : List Document) :
    postings t (d :: ds) = List.replicate (d.c.count t) d.id.toUInt32 ++ postings t ds := by
  simp [postings]

/-- The terms of one document. -/
theorem pushBack_foldl (c : List UInt32) (id : UInt64) (m : PostingMap) (t : UInt32) :
    c.foldl (fun m term => m.pushBack term id) m t
      = if t ∈ c then some ((m t).getD [] ++ List.replicate (c.count t) id.toUInt32)
        else m t := by
  induction c generalizing m with
  | nil => simp
  | cons u c ih =>
      rw [List.foldl_cons, ih]
      by_cases hu : u = t
      · subst hu
        have hself : (m.pushBack u id) u = some ((m u).getD [] ++ [id.toUInt32]) :=
          Function.update_self _ _ _
        rw [hself, if_pos List.mem_cons_self, List.count_cons_self, List.replicate_succ]
        by_cases hc : u ∈ c
        · rw [if_pos hc, Option.getD_some, List.append_assoc, List.singleton_append]
        · rw [if_neg hc, List.count_eq_zero_of_not_mem hc, List.replicate_zero]
      · have hother : (m.pushBack u id) t = m t := Function.update_of_ne (Ne.symm hu) _ _
        rw [hother, List.count_cons_of_ne hu]
        simp only [List.mem_cons, Ne.symm hu, false_or]

theorem postings_eq_nil_iff (t : UInt32) (ds : List Document) :
    postings t ds = [] ↔ ∀ d ∈ ds, t ∉ d.c := by
  rw [postings, List.flatMap_eq_nil_iff]
  simp only [List.replicate_eq_nil_iff, List.count_eq_zero]

/-- A sequence of documents: a term that occurs gets its postings, another one stays as it was. -/
theorem postAll_foldl (ds : List Document) (m : PostingMap) (t : UInt32) :
    ds.foldl PostingMap.postAll m t
      = if ∃ d ∈ ds, t ∈ d.c then some ((m t).getD [] ++ postings t ds) else m t := by
  induction ds generalizing m with
  | nil => simp
  | cons d ds ih =>
      rw [List.foldl_cons, ih]
      have hd : m.postAll d t = _ := pushBack_foldl d.c d.id m t
      rw [hd, postings_cons]
      simp only [List.exists_mem_cons_iff]
      by_cases ht : t ∈ d.c
      · by_cases hds : ∃ d ∈ ds, t ∈ d.c
        · simp [ht, hds]
        · have hnil : postings t ds = [] :=
            (postings_eq_nil_iff t ds).mpr (fun d' hd' h => hds ⟨d', hd', h⟩)
          simp [ht, hds, hnil]
      · simp [ht, List.count_eq_zero_of_not_mem ht]

/-- What the documents make of an empty map. -/
theorem postAll_foldl_empty (ds : List Document) (t : UInt32) :
    ds.foldl PostingMap.postAll (fun _ => none) t
      = if ∃ d ∈ ds, t ∈ d.c then some (postings t ds) else none := by
  rw [postAll_foldl]
  rfl

theorem posted_eq_none_iff (t : UInt32) (ds : List Document) :
    ds.foldl PostingMap.postAll (fun _ => none) t = none ↔ ∀ d ∈ ds, t ∉ d.c := by
  rw [postAll_foldl_empty, ite_eq_right_iff]
  simp

theorem posted_getD (t : UInt32) (ds : List Document) :
    (ds.foldl PostingMap.postAll (fun _ => none) t).getD [] = postings t ds := by
  rw [postAll_foldl_empty]
  split
  · rfl
  · next hno => exact ((postings_eq_nil_iff t ds).mpr (fun d hd h => hno ⟨d, hd, h⟩)).symm

/-- Postings of documents in order are in order. -/
theorem postings_sorted (t : UInt32) {ds : List Document}
    (hs : ds.Pairwise (fun a b => a.id ≤ b.id)) (h32 : ∀ d ∈ ds, d.id.toNat < 2 ^ 32) :
    (postings t ds).Pairwise (· ≤ ·) := by
  rw [postings, List.pairwise_flatMap]
  refine ⟨fun d _ => List.pairwise_replicate.mpr (Or.inr (UInt32.le_refl _)), ?_⟩
  refine hs.imp_of_mem (fun ha hb hab x hx y hy => ?_)
  rw [(List.mem_replicate.mp hx).2, (List.mem_replicate.mp hy).2, UInt32.le_iff_toNat_le,
    UInt64.toNat_toUInt32, UInt64.toNat_toUInt32, Nat.mod_eq_of_lt (h32 _ ha),
    Nat.mod_eq_of_lt (h32 _ hb), ← UInt64.le_iff_toNat_le]
  exact hab

/-- The number of postings of a document. -/
theorem postings_count (t : UInt32) {ds : List Document} (h32 : ∀ d ∈ ds, d.id.toNat < 2 ^ 32)
    (id : UInt64) :
    ((postings t ds).map UInt32.toUInt64).count id
      = (ds.map (fun d => if d.id = id then d.c.count t else 0)).sum := by
  induction ds with
  | nil => rfl
  | cons d ds ih =>
      obtain ⟨hd, hds⟩ := List.forall_mem_cons.mp h32
      rw [postings_cons, List.map_append, List.count_append, ih hds, List.map_cons, List.sum_cons,
        List.map_replicate, toUInt64_toUInt32 hd, List.count_replicate]
      simp only [beq_iff_eq]

/-! ## The result -/

namespace Dsort

theorem kind_strictWeak : StrictWeak kind.sortLt :=
  strictWeak_key (fun d : Document => d.id.toNat)

theorem kind_orderFor : OrderFor kind (fun a b => a.id ≤ b.id) where
  trans _ _ _ := UInt64.le_trans
  total _ _ := UInt64.le_total _ _
  le _ _ h _ := decide_eq_true h

/-- Sort and search go by the same key, so the documents come in order. -/
theorem calls_sorted {n : Nat} {ls : Fin n → List Document} {hne : ∀ i, ls i ≠ []} {files : List (Fin n)}
    {s t : Sources n Idocument Document PostingMap} {fuel : Nat}
    (habs : Abs kind (fun _ => none) s (queuesOf ls hne files) [])
    (hsort : (queuesOf ls hne files).InOrder (fun a b => kind.sortLt b a = false))
    (hsorted : ∀ i, (ls i).Pairwise (fun a b => a.id ≤ b.id)) (ht : kind.loop fuel s = some t) :
    t.calls.Pairwise (fun a b => a.id ≤ b.id) := by
  refine (loop_sorted_iff_of_start kind_orderFor habs hsorted ht).mpr ⟨?_, fun u _ p _ => ?_⟩
  · rw [habs.liveInOrder_iff]
    refine hsort.imp (fun {a b} hab => ?_)
    have hlt : ¬ b.id < a.id := by simpa [kind] using hab
    exact UInt64.not_lt.mp hlt
  · exact decide_eq_true_iff

/-- An id that was read from a header has 32 bits, so that the map's `uint32_t` keeps it. -/
theorem calls_lt {n : Nat} {inputs : Fin n → Idocument} {ls : Fin n → List Document}
    {calls : List Document} (hint : Interleaves ls calls)
    (hy : ∀ i, Yields Idocument.read Idocument.doc (inputs i) (ls i)) :
    ∀ d ∈ calls, d.id.toNat < 2 ^ 32 := by
  intro d hd
  obtain ⟨i, hi⟩ := hint.mem_iff.mp hd
  exact (hy i).forall_mem (P := fun d => d.id.toNat < 2 ^ 32)
    (fun _ _ h => (Idocument.read_lt h).1) d hi

/-- **What `dsort` computes.** If every file delivers some documents, by ascending id, the loop
ends after one iteration for each; the documents are handled by ascending id, each one once; a
term that occurs nowhere has no entry; and the entry of any other term is an ascending list with
the id of every document as often as the term occurs in documents of that id. -/
theorem dsort_inverts {n : Nat} (S : StdSort) (inputs : Fin n → Idocument) (limit : Int)
    (outs : Ifile) (ls : Fin n → List Document) (hne : ∀ i, ls i ≠ [])
    (hy : ∀ i, Yields Idocument.read Idocument.doc (inputs i) (ls i))
    (hsorted : ∀ i, (ls i).Pairwise (fun a b => a.id ≤ b.id)) (fuel : Nat)
    (hfuel : itemCount ls < fuel) :
    ∃ s, dsort S fuel inputs limit outs = some (s, outs.flush)
      ∧ s.calls.Pairwise (fun a b => a.id ≤ b.id)
      ∧ Interleaves ls s.calls
      ∧ ∀ t : UInt32,
        ((∀ i, ∀ d ∈ ls i, t ∉ d.c) → s.out t = none)
          ∧ ((∃ i, ∃ d ∈ ls i, t ∈ d.c) →
            ∃ l, s.out t = some l ∧ l.Pairwise (· ≤ ·)
              ∧ ∀ id : UInt64, (l.map UInt32.toUInt64).count id
                = ∑ i, ((ls i).map (fun d => if d.id = id then d.c.count t else 0)).sum) := by
  obtain ⟨s, files, hs, habs, hperm, hsort⟩ :=
    start_abs S inputs (fun _ => none) ls hne hy kind_strictWeak
  obtain ⟨t, ht, hint, -, -, hout⟩ := loop_conserves habs hperm hfuel
  have hcalls := calls_sorted habs hsort hsorted ht
  have h32 := calls_lt hint hy
  refine ⟨t, by rw [dsort, hs, Option.bind_some, ht, Option.map_some], hcalls, hint,
    fun term => ?_⟩
  have hentry : t.out term = if ∃ d ∈ t.calls, term ∈ d.c then some (postings term t.calls)
      else none := by
    rw [hout]
    exact postAll_foldl_empty t.calls term
  constructor
  · intro hnone
    rw [hentry, if_neg]
    rintro ⟨d, hd, hterm⟩
    obtain ⟨i, hi⟩ := hint.mem_iff.mp hd
    exact hnone i d hi hterm
  · rintro ⟨i, d, hd, hterm⟩
    refine ⟨_, by rw [hentry, if_pos ⟨d, hint.mem_iff.mpr ⟨i, hd⟩, hterm⟩],
      postings_sorted term hcalls h32, fun id => ?_⟩
    rw [postings_count term h32, hint.sum_eq]

/-- A list of postings is determined by the number of times each id is in it. -/
theorem map_eq_of_counts {l : List UInt32} {ids : List UInt64} (hl : l.Pairwise (· ≤ ·))
    (hids : ids.Pairwise (· ≤ ·)) (h : ∀ id, (l.map UInt32.toUInt64).count id = ids.count id) :
    l.map UInt32.toUInt64 = ids := by
  have hmap : (l.map UInt32.toUInt64).Pairwise (· ≤ ·) := by
    rw [List.pairwise_map]
    refine hl.imp (fun {a b} hab => ?_)
    rw [UInt64.le_iff_toNat_le, UInt32.toNat_toUInt64, UInt32.toNat_toUInt64]
    exact UInt32.le_iff_toNat_le.mp hab
  exact (List.perm_iff_count.mpr h).eq_of_pairwise (fun _ _ _ _ => UInt64.le_antisymm) hmap hids

/-- Two document files: the documents 3 and 9, and the document 7 in between. -/
def twoRecords (i : Fin 2) : List (Record DocHead.codec) :=
  if i.val = 0 then
    [Idocument.recordOf ⟨3, [70000], ⟨0, 0, 0⟩⟩ (by decide) (by decide),
      Idocument.recordOf ⟨9, [1, 2, 2], ⟨0, 0, 0⟩⟩ (by decide) (by decide)]
  else [Idocument.recordOf ⟨7, [2, 70000], ⟨0, 0, 0⟩⟩ (by decide) (by decide)]

def twoFiles (i : Fin 2) : Idocument :=
  Idocument.new (FStream.openIn (fileBytes (twoRecords i))) (Heap.zeros 4)

def twoLists (i : Fin 2) : List Document :=
  (twoRecords i).map (fun r => Idocument.docOf r.head r.chunk)

theorem twoLists_ne (i : Fin 2) : twoLists i ≠ [] := by
  fin_cases i <;> simp [twoLists, twoRecords]

theorem twoFiles_yields (i : Fin 2) :
    Yields Idocument.read Idocument.doc (twoFiles i) (twoLists i) := by
  have h0 : Aligned 4 [[70000], [1, 2, 2]] :=
    ⟨by decide, by decide, by decide, by decide, by decide, by decide, Or.inl (by decide)⟩
  have h1 : Aligned 4 [[2, 70000]] := ⟨by decide, by decide, by decide, Or.inl (by decide)⟩
  fin_cases i
  · exact Idocument.yields_read_new (twoRecords 0) (Heap.zeros 4) h0
  · exact Idocument.yields_read_new (twoRecords 1) (Heap.zeros 4) h1

theorem twoLists_sorted (i : Fin 2) : (twoLists i).Pairwise (fun a b => a.id ≤ b.id) := by
  fin_cases i <;> decide

/-- The first file goes behind the second one after its first document, and the term 2 is in both. -/
theorem dsort_inverts_two :
    (∀ i, twoLists i ≠ [])
      ∧ (∀ i, Yields Idocument.read Idocument.doc (twoFiles i) (twoLists i))
      ∧ (∀ i, (twoLists i).Pairwise (fun a b => a.id ≤ b.id))
      ∧ ∃ s, dsort StdSort.mergeSort 4 twoFiles 0 (Ifile.new FStream.create ⟨0, 0⟩ (Heap.zeros 0))
          = some (s, (Ifile.new FStream.create ⟨0, 0⟩ (Heap.zeros 0)).flush)
        ∧ s.calls.Pairwise (fun a b => a.id ≤ b.id)
        ∧ s.out 5 = none
        ∧ ∃ l, s.out 2 = some l ∧ l.map UInt32.toUInt64 = [7, 9, 9] := by
  obtain ⟨s, hs, hcalls, -, hmap⟩ := dsort_inverts StdSort.mergeSort twoFiles 0
    (Ifile.new FStream.create ⟨0, 0⟩ (Heap.zeros 0)) twoLists twoLists_ne twoFiles_yields
    twoLists_sorted 4 (by decide)
  obtain ⟨l, hl, hsorted, hcount⟩ := (hmap 2).2 ⟨1, by decide⟩
  refine ⟨twoLists_ne, twoFiles_yields, twoLists_sorted, s, hs, hcalls, (hmap 5).1 (by decide), l,
    hl, map_eq_of_counts hsorted (by decide) (fun id => ?_)⟩
  rw [hcount, Fin.sum_univ_two]
  rcases eq_or_ne (9 : UInt64) id with rfl | h9
  · decide
  · simp [twoLists, twoRecords, Idocument.docOf, Idocument.recordOf, List.count_cons, h9]

end Dsort

end CSearch.Tool
