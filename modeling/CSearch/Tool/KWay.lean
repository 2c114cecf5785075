import CSearch.Basic.KMerge
import CSearch.Basic.Stream
import Mathlib.Algebra.BigOperators.Fin
import Mathlib.Data.List.FinRange

set_option autoImplicit false

/-! # The loop of `merge` and `dsort`

`merge` and `dsort` have the same shape: read one item from every file, sort the array of files,
then serve the first file of the array again and again, closing it at its end and putting it back
at the place found by a binary search otherwise. They differ in what they read, in the two
comparisons and in what they do with an item (`Kind`).

There are `n` files; a pointer is an element of `Fin n`, the array `files` a list of `n` pointers,
and `mem` has the objects they point to. An access outside the array, a `memmove` that leaves it or
tears a pointer apart, and a read that has no result of its own have no result (`none`).

`Abs` relates a state of the loop to a state of the abstract merge. An iteration is an abstract
step (`step_last`, `step_next`), so the loop ends after as many iterations as there are items
(`loop_spec`), and `sorted_iff` says when it serves them in order: the array must be in order at
the start, and every comparison the search makes must agree with the order.
-/

namespace CSearch.Tool

open KMerge (Queue)

/-! ## `std::sort` -/

/-- A comparison as `std::sort` demands it. -/
structure StrictWeak {α : Type} (lt : α → α → Bool) : Prop where
  irrefl : ∀ a, lt a a = false
  trans : ∀ a b c, lt a b = true → lt b c = true → lt a c = true
  incomp : ∀ a b c, lt a b = false → lt b c = false → lt a c = false

/-- What is known of `std::sort`: the result is some permutation in which no element is less than
an earlier one. -/
structure StdSort where
  sort : {α : Type} → (α → α → Bool) → List α → List α
  perm : ∀ {α : Type} (lt : α → α → Bool) (l : List α), (sort lt l).Perm l
  sorted : ∀ {α : Type} (lt : α → α → Bool), StrictWeak lt → ∀ l : List α,
    (sort lt l).Pairwise (fun a b => lt b a = false)

/-- Merge sort is one such function. -/
def StdSort.mergeSort : StdSort where
  sort lt l := l.mergeSort (fun a b => !lt b a)
  perm lt l := List.mergeSort_perm l _
  sorted lt h l := by
    have htrans : ∀ a b c, (!lt b a) = true → (!lt c b) = true → (!lt c a) = true := by
      intro a b c h1 h2
      rw [Bool.not_eq_true'] at h1 h2 ⊢
      exact h.incomp c b a h2 h1
    have htotal : ∀ a b, ((!lt b a) || (!lt a b)) = true := by
      intro a b
      by_contra hc
      simp only [Bool.or_eq_true, Bool.not_eq_true', not_or, Bool.not_eq_false] at hc
      have := h.trans a b a hc.2 hc.1
      rw [h.irrefl] at this
      exact absurd this (by simp)
    exact (List.pairwise_mergeSort htrans htotal l).imp (fun h => by simpa using h)

theorem strictWeak_key {α : Type} (key : α → Nat) :
    StrictWeak (fun a b => decide (key a < key b)) :=
  ⟨by simp, by simp only [decide_eq_true_eq]; omega, by simp only [decide_eq_false_iff_not]; omega⟩

/-! ## The loop -/

/-- What `merge` and `dsort` do each in their own way: how a file is read and what it shows, the
comparison of the sort and that of the search, and what is done with an item. -/
structure Kind (σ τ ω : Type) where
  read : σ → Option (Bool × σ)
  item : σ → τ
  sortLt : τ → τ → Bool
  searchLe : τ → τ → Bool
  handle : ω → τ → ω

/-- The variables: the files, the array and its live length, which files have been closed, and
what has been handled, with the result. -/
structure Sources (n : Nat) (σ τ ω : Type) where
  mem : Fin n → σ
  files : List (Fin n)
  nfiles : Nat
  closed : List (Fin n)
  calls : List τ
  out : ω

section

variable {n : Nat} {σ τ ω : Type}

/-- The object that `f` points to is changed. -/
def Sources.setMem (s : Sources n σ τ ω) (f : Fin n) (m : σ) : Sources n σ τ ω :=
  { s with mem := Function.update s.mem f m }

/-- The state at the call. -/
def Sources.init (inputs : Fin n → σ) (out : ω) : Sources n σ τ ω :=
  ⟨inputs, List.finRange n, n, [], [], out⟩

/-- `memmove` with a size in bytes; a pointer has eight. -/
def memmoveBytes {α : Type} (a : List α) (dst src bytes : Nat) : Option (List α) :=
  if bytes % 8 = 0 then memmove a dst src (bytes / 8) else none

namespace Kind

variable (K : Kind σ τ ω)

/-- `f->read(..)`. -/
def readAt (s : Sources n σ τ ω) (f : Fin n) : Option (Bool × Sources n σ τ ω) :=
  (K.read (s.mem f)).map fun r => (r.1, s.setMem f r.2)

/-- The first loop: one item is read from every file. The size of the `memmove` is
`nfiles-k-1*sizeof(ifile*)` in `size_t`. The index is a number here; for an array that the type of
the index can count, `size_t` in `merge` and `int` in `dsort`, it is the one of the source (see
`primeLoop_of_prime`). -/
def prime : Nat → Nat → Sources n σ τ ω → Option (Sources n σ τ ω)
  | 0, _, _ => none
  | fuel + 1, k, s =>
      if k < s.nfiles then
        s.files[k]?.bind fun f =>
          (K.readAt s f).bind fun r =>
            if r.1 then prime fuel (k + 1) r.2
            else
              (memmoveBytes s.files k (k + 1) ((s.nfiles + 2 ^ 64 - k - 8) % 2 ^ 64)).bind
                fun files => prime fuel (k + 1)
                  { r.2 with files := files, nfiles := s.nfiles - 1, closed := s.closed ++ [f] }
      else some s

/-- `std::sort` of the live part of the array. -/
def sortFiles (S : StdSort) (s : Sources n σ τ ω) : Sources n σ τ ω :=
  { s with
    files := S.sort (fun a b => K.sortLt (K.item (s.mem a)) (K.item (s.mem b)))
        (s.files.take s.nfiles) ++ s.files.drop s.nfiles }

/-- The comparison of the first file with the one at `probe`. -/
def compareAt (s : Sources n σ τ ω) (probe : Nat) : Option Bool :=
  s.files[0]?.bind fun f =>
    s.files[probe]?.map fun g => K.searchLe (K.item (s.mem f)) (K.item (s.mem g))

/-- The binary search. -/
def search (s : Sources n σ τ ω) : Option (Nat × List Nat) :=
  binarySearch (K.compareAt s) s.nfiles 1 s.nfiles 1

/-- The last branch of an iteration: the binary search, and the move of the first file to the place
found. The result has the positions compared and the array. -/
def reinsert (s : Sources n σ τ ω) : Option (List Nat × List (Fin n)) :=
  s.files[0]?.bind fun f =>
    (K.search s).bind fun r =>
      (moveFront s.files f (r.1 - 1)).map fun files => (r.2, files)

/-- One iteration of the main loop. -/
def step (s : Sources n σ τ ω) : Option (Sources n σ τ ω) :=
  s.files[0]?.bind fun f =>
    let x := K.item (s.mem f)
    (K.readAt { s with calls := s.calls ++ [x], out := K.handle s.out x } f).bind fun r =>
      let s := r.2
      if !r.1 then
        (moveFront s.files f (s.nfiles - 1)).map fun files =>
          { s with files := files, nfiles := s.nfiles - 1, closed := s.closed ++ [f] }
      else if s.nfiles = 1 then some s
      else
        (K.search s).bind fun r =>
          (moveFront s.files f (r.1 - 1)).map fun files => { s with files := files }

/-- `while( nfiles )`. -/
def loop : Nat → Sources n σ τ ω → Option (Sources n σ τ ω)
  | 0, _ => none
  | fuel + 1, s => if s.nfiles = 0 then some s else (K.step s).bind (loop fuel)

/-- Everything up to the main loop. -/
def start (S : StdSort) (inputs : Fin n → σ) (out : ω) : Option (Sources n σ τ ω) :=
  (K.prime (n + 1) 0 (Sources.init inputs out)).map (K.sortFiles S)

/-- Two states of the main loop, some iterations apart. -/
def Reaches : Sources n σ τ ω → Sources n σ τ ω → Prop :=
  Relation.ReflTransGen (fun s s' => s.nfiles ≠ 0 ∧ K.step s = some s')

/-- The live files are in the order `r` of the items they show. -/
def LiveInOrder (r : τ → τ → Prop) (s : Sources n σ τ ω) : Prop :=
  ((s.files.take s.nfiles).map (fun f => K.item (s.mem f))).Pairwise r

/-- The pairs of items compared by the search in the next iteration. -/
def comparisons (s : Sources n σ τ ω) : List (τ × τ) :=
  if s.nfiles < 2 then []
  else
    (s.files[0]?.bind fun f =>
      (K.readAt s f).bind fun r =>
        if r.1 then
          (K.search r.2).map fun p =>
            p.2.filterMap fun i =>
              s.files[i]?.map fun g => (K.item (r.2.mem f), K.item (r.2.mem g))
        else none).getD []

/-- In the next iteration the search compares as the order `r` does. -/
def Agrees (r : τ → τ → Prop) (s : Sources n σ τ ω) : Prop :=
  ∀ p ∈ K.comparisons s, K.searchLe p.1 p.2 = true ↔ r p.1 p.2

end Kind

theorem readAt_of_read {K : Kind σ τ ω} {s : Sources n σ τ ω} {f : Fin n} {b : Bool} {m : σ}
    (h : K.read (s.mem f) = some (b, m)) : K.readAt s f = some (b, s.setMem f m) := by
  rw [Kind.readAt, h, Option.map_some]

/-- The item that a file shows is handled, and the file has been read into `m`. -/
def Kind.served (K : Kind σ τ ω) (s : Sources n σ τ ω) (f : Fin n) (m : σ) : Sources n σ τ ω :=
  { s.setMem f m with
    calls := s.calls ++ [K.item (s.mem f)], out := K.handle s.out (K.item (s.mem f)) }

/-- An iteration when the read has a result. -/
theorem step_of_read {K : Kind σ τ ω} {s : Sources n σ τ ω} {f : Fin n} {b : Bool} {m : σ}
    (h0 : s.files[0]? = some f) (h : K.read (s.mem f) = some (b, m)) :
    K.step s = if b = false then
        (moveFront s.files f (s.nfiles - 1)).map fun files =>
          { K.served s f m with files := files, nfiles := s.nfiles - 1, closed := s.closed ++ [f] }
      else if s.nfiles = 1 then some (K.served s f m)
      else
        (K.search (s.setMem f m)).bind fun r =>
          (moveFront s.files f (r.1 - 1)).map fun files => { K.served s f m with files := files } := by
  have hread := readAt_of_read (K := K) (s := { s with
    calls := s.calls ++ [K.item (s.mem f)], out := K.handle s.out (K.item (s.mem f)) }) h
  rw [Kind.step, h0, Option.bind_some]
  dsimp only
  rw [hread, Option.bind_some]
  cases b <;> rfl

/-! ## An iteration is an abstract step -/

/-- The loop has come as far as the abstract merge: the live part of the array has the owners of
the live queues, each file shows what its queue shows and will yield the rest, and behind the live
part stand the files that were closed. -/
structure Abs (K : Kind σ τ ω) (out₀ : ω) (s : Sources n σ τ ω) (A : KMerge.State (Fin n) τ)
    (dead : List (Fin n)) : Prop where
  files : s.files = A.owners ++ dead
  nfiles : s.nfiles = A.live.length
  cur : ∀ q ∈ A.live, K.item (s.mem q.owner) = q.cur
  rest : ∀ q ∈ A.live, Yields K.read K.item (s.mem q.owner) q.rest
  calls : s.calls = A.log.map Prod.snd
  out : s.out = s.calls.foldl K.handle out₀
  perm : s.files.Perm (List.finRange n)
  closed : s.closed.Perm dead

variable {K : Kind σ τ ω} {out₀ : ω} {s : Sources n σ τ ω} {A : KMerge.State (Fin n) τ}
  {dead : List (Fin n)}

theorem Abs.nodup (h : Abs K out₀ s A dead) : (A.owners ++ dead).Nodup := by
  rw [← h.files]
  exact h.perm.nodup_iff.mpr (List.nodup_finRange n)

theorem Abs.owners_nodup (h : Abs K out₀ s A dead) : A.owners.Nodup :=
  (List.nodup_append.mp h.nodup).1

/-- The other queues do not belong to the first owner. -/
theorem Abs.owner_ne {q : Queue (Fin n) τ} {qs : List (Queue (Fin n) τ)}
    {log : List (Fin n × τ)} (h : Abs K out₀ s ⟨q :: qs, log⟩ dead) {p : Queue (Fin n) τ}
    (hp : p ∈ qs) : p.owner ≠ q.owner := by
  have hn := (List.nodup_cons.mp h.owners_nodup).1
  exact fun he => hn (he ▸ List.mem_map_of_mem hp)

theorem Abs.files_zero {q : Queue (Fin n) τ} {qs : List (Queue (Fin n) τ)}
    {log : List (Fin n × τ)} (h : Abs K out₀ s ⟨q :: qs, log⟩ dead) :
    s.files[0]? = some q.owner := by
  rw [h.files]
  rfl

/-- The order of the live files is that of the live queues. -/
theorem Abs.liveInOrder_iff (h : Abs K out₀ s A dead) (r : τ → τ → Prop) :
    K.LiveInOrder r s ↔ A.InOrder r := by
  have htake : s.files.take s.nfiles = A.owners := by
    rw [h.files, h.nfiles, ← List.length_map Queue.owner]
    exact List.take_left
  rw [Kind.LiveInOrder, htake, KMerge.State.InOrder, KMerge.State.owners, List.map_map]
  have hmap : A.live.map ((fun f => K.item (s.mem f)) ∘ Queue.owner) = A.live.map Queue.cur :=
    List.map_congr_left h.cur
  rw [hmap]

/-- The first file has come to its end: it is closed and parked behind the live part. -/
theorem step_last {i : Fin n} {x : τ} {qs : List (Queue (Fin n) τ)} {log : List (Fin n × τ)}
    (h : Abs K out₀ s ⟨⟨i, x, []⟩ :: qs, log⟩ dead) :
    ∃ s', K.step s = some s' ∧ Abs K out₀ s' ⟨qs, log ++ [(i, x)]⟩ (i :: dead) := by
  have hx : K.item (s.mem i) = x := h.cur _ List.mem_cons_self
  obtain ⟨m, hread⟩ := h.rest _ List.mem_cons_self
  have hnf : s.nfiles - 1 = (qs.map Queue.owner).length := by
    rw [h.nfiles, List.length_map]
    rfl
  have hmove : moveFront s.files i (s.nfiles - 1) = some (qs.map Queue.owner ++ i :: dead) := by
    rw [h.files, hnf]
    show moveFront (i :: (qs.map Queue.owner ++ dead)) i _ = _
    rw [moveFront_cons _ _ _ (by simp), insertIdx_append_length]
  refine ⟨{ s with
    mem := Function.update s.mem i m
    files := qs.map Queue.owner ++ i :: dead
    nfiles := s.nfiles - 1
    closed := s.closed ++ [i]
    calls := s.calls ++ [x]
    out := K.handle s.out x }, ?_, rfl, ?_, fun q hq => ?_, fun q hq => ?_, ?_, ?_, ?_, ?_⟩
  · rw [step_of_read h.files_zero hread, if_pos rfl, hmove, Option.map_some]
    simp only [Kind.served, Sources.setMem, hx]
  · rw [List.length_map] at hnf
    exact hnf
  · simp only [Function.update_of_ne (h.owner_ne hq)]
    exact h.cur q (List.mem_cons_of_mem _ hq)
  · simp only [Function.update_of_ne (h.owner_ne hq)]
    exact h.rest q (List.mem_cons_of_mem _ hq)
  · simp [h.calls]
  · simp [h.out]
  · refine List.Perm.trans ?_ h.perm
    rw [h.files]
    exact List.perm_middle
  · exact (List.perm_append_singleton i s.closed).trans (h.closed.cons i)

/-- A first file that has more, among others, is put back by `reinsert`. -/
theorem step_eq_reinsert {f : Fin n} {m : σ} (h0 : s.files[0]? = some f)
    (hread : K.read (s.mem f) = some (true, m)) (hn : s.nfiles ≠ 1) :
    K.step s = (K.reinsert (s.setMem f m)).map fun r =>
      { s.setMem f m with
        files := r.2
        calls := s.calls ++ [K.item (s.mem f)]
        out := K.handle s.out (K.item (s.mem f)) } := by
  have h0' : (s.setMem f m).files[0]? = some f := h0
  rw [step_of_read h0 hread, if_neg Bool.false_ne_true.symm, if_neg hn, Kind.reinsert, h0',
    Option.bind_some]
  cases K.search (s.setMem f m) with
  | none => rfl
  | some r =>
      rw [Option.bind_some, Option.bind_some, Option.map_map]
      rfl

/-- What the search finds and compares, for the first file and the live ones behind it. -/
theorem search_of_files {f : Fin n} {others dead : List (Fin n)}
    (hfiles : s.files = f :: (others ++ dead)) (hn : s.nfiles = others.length + 1) :
    ∃ c ps, K.search s = some (c + 1, ps)
      ∧ Found (compareWith K.searchLe (K.item (s.mem f)) (others.map (fun g => K.item (s.mem g))))
        1 (others.length + 1) (c + 1) ps := by
  have hcmp : ∀ p, 1 ≤ p → p < others.length + 1 → K.compareAt s p
      = some (compareWith K.searchLe (K.item (s.mem f))
        (others.map (fun g => K.item (s.mem g))) p) := by
    intro p h1 h2
    obtain ⟨k, rfl⟩ : ∃ k, p = k + 1 := ⟨p - 1, by omega⟩
    have hk : k < others.length := by omega
    have hget : others[k]? = some others[k] := List.getElem?_eq_getElem hk
    have hmap : (others.map (fun g => K.item (s.mem g)))[k + 1 - 1]?
        = some (K.item (s.mem others[k])) := by
      rw [Nat.add_sub_cancel, List.getElem?_map, hget, Option.map_some]
    rw [Kind.compareAt, hfiles, List.getElem?_cons_zero, Option.bind_some,
      List.getElem?_cons_succ, List.getElem?_append_left hk, hget, Option.map_some,
      compareWith_of_some hmap]
  obtain ⟨r, ps, hsearch, hf⟩ := binarySearch_spec (others.length + 1) 1 (others.length + 1) 1
    (by omega) (by omega) (by omega) hcmp
  have hr := hf.lo_le
  refine ⟨r - 1, ps, ?_, by rw [Nat.sub_add_cancel hr]; exact hf⟩
  rw [Kind.search, hn, hsearch, Nat.sub_add_cancel hr]

/-- Behind the first file stand the owners of the other queues. -/
theorem Abs.file_at {q₀ : Queue (Fin n) τ} {qs : List (Queue (Fin n) τ)}
    {log : List (Fin n × τ)} (h : Abs K out₀ s ⟨q₀ :: qs, log⟩ dead) (p : Nat) (h1 : 1 ≤ p)
    (h2 : p < qs.length + 1) :
    ∃ q ∈ qs, s.files[p]? = some q.owner ∧ (qs.map Queue.cur)[p - 1]? = some q.cur := by
  have hfiles : s.files = q₀.owner :: (qs.map Queue.owner ++ dead) := h.files
  obtain ⟨k, rfl⟩ : ∃ k, p = k + 1 := ⟨p - 1, by omega⟩
  have hlt : k < qs.length := by omega
  have hget : qs[k]? = some (qs.get ⟨k, hlt⟩) := List.getElem?_eq_getElem hlt
  refine ⟨qs.get ⟨k, hlt⟩, List.get_mem _ _, ?_, ?_⟩
  · rw [hfiles, List.getElem?_cons_succ, List.getElem?_append_left (by simpa using hlt),
      List.getElem?_map, hget, Option.map_some]
  · rw [Nat.add_sub_cancel, List.getElem?_map, hget, Option.map_some]

/-- What the search in the next iteration finds and compares. -/
theorem search_spec {i : Fin n} {x y : τ} {ys : List τ} {qs : List (Queue (Fin n) τ)}
    {log : List (Fin n × τ)} (h : Abs K out₀ s ⟨⟨i, x, y :: ys⟩ :: qs, log⟩ dead) :
    ∃ m c ps, K.read (s.mem i) = some (true, m) ∧ K.item m = y ∧ Yields K.read K.item m ys
      ∧ K.search (s.setMem i m) = some (c + 1, ps)
      ∧ Found (compareWith K.searchLe y (qs.map Queue.cur)) 1 (qs.length + 1) (c + 1) ps
      ∧ K.comparisons s
        = ps.filterMap (fun p => (qs.map Queue.cur)[p - 1]?.map (fun w => (y, w))) := by
  obtain ⟨m, hread, hy, hys⟩ := h.rest _ List.mem_cons_self
  have hnf : s.nfiles = qs.length + 1 := h.nfiles
  -- after the read the first file shows `y`, and the others what they showed before
  have hitem : ∀ q ∈ qs, K.item ((s.setMem i m).mem q.owner) = q.cur := by
    intro q hq
    simp only [Sources.setMem, Function.update_of_ne (h.owner_ne hq)]
    exact h.cur q (List.mem_cons_of_mem _ hq)
  have hfirst : K.item ((s.setMem i m).mem i) = y := by
    simp only [Sources.setMem, Function.update_self]
    exact hy
  have hcur : (qs.map Queue.owner).map (fun g => K.item ((s.setMem i m).mem g))
      = qs.map Queue.cur := by
    rw [List.map_map]
    exact List.map_congr_left hitem
  -- so the search compares `y` with the items of the other queues
  obtain ⟨c, ps, hs, hf⟩ := search_of_files (K := K) (s := s.setMem i m)
    (show (s.setMem i m).files = i :: (qs.map Queue.owner ++ dead) from h.files)
    (by rw [List.length_map]; exact hnf)
  rw [hfirst, hcur, List.length_map] at hf
  refine ⟨m, c, ps, hread, hy, hys, hs, hf, ?_⟩
  unfold Kind.comparisons
  by_cases h2 : s.nfiles < 2
  · -- a single file: nothing is compared
    have hps : ps = [] := by
      rw [List.eq_nil_iff_forall_not_mem]
      intro p hp
      have := hf.mem p hp
      omega
    rw [if_pos h2, hps, List.filterMap_nil]
  · rw [if_neg h2, h.files_zero, Option.bind_some, readAt_of_read hread, Option.bind_some]
    simp only [if_true, hs, Option.map_some, Option.getD_some, hfirst]
    refine List.filterMap_congr (fun p hp => ?_)
    obtain ⟨h1, hlt⟩ := hf.mem p hp
    obtain ⟨q, hq, hfile, hcur⟩ := h.file_at p h1 hlt
    rw [hfile, hcur, Option.map_some, Option.map_some, hitem q hq]

/-- The first file has more: it is put back where the search says. -/
theorem step_next {i : Fin n} {x y : τ} {ys : List τ} {qs : List (Queue (Fin n) τ)}
    {log : List (Fin n × τ)} (h : Abs K out₀ s ⟨⟨i, x, y :: ys⟩ :: qs, log⟩ dead) {m : σ}
    (hread : K.read (s.mem i) = some (true, m)) (hy : K.item m = y)
    (hys : Yields K.read K.item m ys) {c : Nat} {ps : List Nat} (hc : c ≤ qs.length)
    (hsearch : K.search (s.setMem i m) = some (c + 1, ps)) :
    ∃ s', K.step s = some s'
      ∧ Abs K out₀ s' ⟨qs.insertIdx c ⟨i, y, ys⟩, log ++ [(i, x)]⟩ dead := by
  have hx : K.item (s.mem i) = x := h.cur _ List.mem_cons_self
  have hnf : s.nfiles = qs.length + 1 := h.nfiles
  have hown : (qs.insertIdx c ⟨i, y, ys⟩).map Queue.owner = (qs.map Queue.owner).insertIdx c i :=
    List.map_insertIdx _ _ _ _
  have hperm := List.perm_insertIdx (⟨i, y, ys⟩ : Queue (Fin n) τ) qs hc
  have hmove : moveFront s.files i c
      = some ((qs.insertIdx c ⟨i, y, ys⟩).map Queue.owner ++ dead) := by
    rw [h.files, hown]
    show moveFront (i :: (qs.map Queue.owner ++ dead)) i c = _
    rw [moveFront_cons _ _ _ (by rw [List.length_append, List.length_map]; omega),
      insertIdx_append_left _ _ _ _ (by rw [List.length_map]; exact hc)]
  refine ⟨{ s with
    mem := Function.update s.mem i m
    files := (qs.insertIdx c ⟨i, y, ys⟩).map Queue.owner ++ dead
    calls := s.calls ++ [x]
    out := K.handle s.out x }, ?_, rfl, ?_, fun q hq => ?_, fun q hq => ?_, ?_, ?_, ?_, h.closed⟩
  · rw [step_of_read h.files_zero hread, if_neg Bool.false_ne_true.symm]
    split
    · -- a single file stays where it is
      have hqs : qs = [] := List.length_eq_zero_iff.mp (by omega)
      subst hqs
      rw [List.length_nil, Nat.le_zero] at hc
      subst hc
      simp only [Kind.served, Sources.setMem, hx, h.files]
      rfl
    · rw [hsearch, Option.bind_some, Nat.add_sub_cancel, hmove, Option.map_some]
      simp only [Kind.served, Sources.setMem, hx]
  · rw [List.length_insertIdx_of_le_length hc]
    exact hnf
  · rcases (List.mem_insertIdx hc).mp hq with rfl | hold
    · simp only [Function.update_self]
      exact hy
    · simp only [Function.update_of_ne (h.owner_ne hold)]
      exact h.cur q (List.mem_cons_of_mem _ hold)
  · rcases (List.mem_insertIdx hc).mp hq with rfl | hold
    · simp only [Function.update_self]
      exact hys
    · simp only [Function.update_of_ne (h.owner_ne hold)]
      exact h.rest q (List.mem_cons_of_mem _ hold)
  · simp [h.calls]
  · simp [h.out]
  · refine List.Perm.trans ?_ h.perm
    rw [h.files]
    exact (hperm.map Queue.owner).append_right dead

/-- A file at its end is not compared. -/
theorem comparisons_of_last {i : Fin n} {x : τ} {qs : List (Queue (Fin n) τ)}
    {log : List (Fin n × τ)} (h : Abs K out₀ s ⟨⟨i, x, []⟩ :: qs, log⟩ dead) :
    K.comparisons s = [] := by
  obtain ⟨m, hread⟩ := h.rest _ List.mem_cons_self
  unfold Kind.comparisons
  split
  · rfl
  · simp only [h.files_zero, Option.bind_some, readAt_of_read hread, Bool.false_eq_true, if_false,
      Option.getD_none]

/-- An order that the search may be meant to follow: it is total, and equal items compare as the
search expects. -/
structure OrderFor (K : Kind σ τ ω) (r : τ → τ → Prop) : Prop where
  trans : ∀ a b c, r a b → r b c → r a c
  total : ∀ a b, r a b ∨ r b a
  le : ∀ a b, r a b → r b a → K.searchLe a b = true

/-- **One iteration** of a loop with live files: an abstract step, which keeps an order exactly if
the comparisons agree with it. -/
theorem step_abs (h : Abs K out₀ s A dead) (hlive : A.live ≠ []) :
    ∃ s' A' dead', K.step s = some s' ∧ KMerge.Step A A' ∧ Abs K out₀ s' A' dead'
      ∧ ∀ r, OrderFor K r → A.InOrder r → (A'.InOrder r ↔ K.Agrees r s) := by
  obtain ⟨live, log⟩ := A
  obtain ⟨⟨i, x, rest⟩, qs, rfl⟩ := List.exists_cons_of_ne_nil hlive
  cases rest with
  | nil =>
      obtain ⟨s', hstep, habs⟩ := step_last h
      refine ⟨s', _, _, hstep, KMerge.Step.last i x qs log, habs, fun r _ hA => ?_⟩
      refine ⟨fun _ p hp => ?_, fun _ => (List.pairwise_cons.mp hA).2⟩
      rw [comparisons_of_last h] at hp
      exact absurd hp (List.not_mem_nil)
  | cons y ys =>
      obtain ⟨m, c, ps, hread, hy, hys, hsearch, hf, hcmp⟩ := search_spec h
      have hc : c ≤ qs.length := by have := hf.le_hi; omega
      obtain ⟨s', hstep, habs⟩ := step_next h hread hy hys hc hsearch
      refine ⟨s', _, _, hstep, KMerge.Step.next i x y ys qs log c hc, habs, fun r hr hA => ?_⟩
      have : IsTrans τ r := ⟨hr.trans⟩
      -- an insertion keeps the order exactly if the comparisons that led to it do
      rw [← List.length_map Queue.cur] at hf
      have hiff := hf.insertIdx_pairwise_iff hr.total hr.le (List.pairwise_cons.mp hA).2
      have hmap : (qs.insertIdx c ⟨i, y, ys⟩).map Queue.cur
          = (qs.map Queue.cur).insertIdx c y := List.map_insertIdx _ _ _ _
      rw [KMerge.State.InOrder, hmap, hiff, Kind.Agrees, hcmp]
      constructor
      · intro hall p hp
        obtain ⟨k, hk, hkp⟩ := List.mem_filterMap.mp hp
        obtain ⟨w, hw, rfl⟩ := Option.map_eq_some_iff.mp hkp
        exact hall k hk w hw
      · intro hall k hk w hw
        refine hall (y, w) (List.mem_filterMap.mpr ⟨k, hk, ?_⟩)
        rw [hw, Option.map_some]

/-! ## The whole loop -/

theorem Abs.nfiles_eq_zero (h : Abs K out₀ s A dead) : s.nfiles = 0 ↔ A.live = [] := by
  rw [h.nfiles, List.length_eq_zero_iff]

/-- An iteration of the loop is a step of the abstract merge. -/
theorem loop_succ (fuel : Nat) (h : Abs K out₀ s A dead) (h0 : s.nfiles ≠ 0) :
    ∃ s' A' dead', K.loop (fuel + 1) s = K.loop fuel s' ∧ KMerge.Step A A'
      ∧ Abs K out₀ s' A' dead' := by
  obtain ⟨s', A', dead', hstep, habs, h', -⟩ :=
    step_abs h (fun hl => h0 (h.nfiles_eq_zero.mpr hl))
  refine ⟨s', A', dead', ?_, habs, h'⟩
  rw [Kind.loop, if_neg h0, hstep, Option.bind_some]

/-- The loop ends if it may make one iteration more than there are items. -/
theorem loop_terminates (fuel : Nat) (h : Abs K out₀ s A dead) (hw : A.weight < fuel) :
    ∃ t, K.loop fuel s = some t := by
  induction fuel generalizing s A dead with
  | zero => omega
  | succ fuel ih =>
      by_cases h0 : s.nfiles = 0
      · exact ⟨s, if_pos h0⟩
      · obtain ⟨s', A', dead', hloop, habs, h'⟩ := loop_succ fuel h h0
        rw [hloop]
        have := habs.weight
        exact ih h' (by omega)

/-- When the loop ends, the abstract merge has ended. -/
theorem loop_abs (fuel : Nat) (h : Abs K out₀ s A dead) {t : Sources n σ τ ω}
    (ht : K.loop fuel s = some t) :
    ∃ T dead', Abs K out₀ t T dead' ∧ T.live = [] ∧ KMerge.Steps A T := by
  induction fuel generalizing s A dead with
  | zero => simp [Kind.loop] at ht
  | succ fuel ih =>
      by_cases h0 : s.nfiles = 0
      · rw [Kind.loop, if_pos h0, Option.some.injEq] at ht
        subst ht
        exact ⟨A, dead, h, h.nfiles_eq_zero.mp h0, Relation.ReflTransGen.refl⟩
      · obtain ⟨s', A', dead', hloop, habs, h'⟩ := loop_succ fuel h h0
        rw [hloop] at ht
        obtain ⟨T, dead'', hT, hdone, hsteps⟩ := ih h' ht
        exact ⟨T, dead'', hT, hdone, Relation.ReflTransGen.head habs hsteps⟩

/-- What can be reached from a state: itself, and what can be reached from the next one. -/
theorem reaches_iff {s' : Sources n σ τ ω} (h0 : s.nfiles ≠ 0) (hstep : K.step s = some s')
    (u : Sources n σ τ ω) : K.Reaches s u ↔ u = s ∨ K.Reaches s' u := by
  constructor
  · intro h
    rcases Relation.ReflTransGen.cases_head h with rfl | ⟨v, ⟨-, hv⟩, hvu⟩
    · exact Or.inl rfl
    · rw [hstep, Option.some.injEq] at hv
      exact Or.inr (hv ▸ hvu)
  · rintro (rfl | h)
    · exact Relation.ReflTransGen.refl
    · exact Relation.ReflTransGen.head ⟨h0, hstep⟩ h

theorem reaches_of_done {u : Sources n σ τ ω} (h0 : s.nfiles = 0) (h : K.Reaches s u) : u = s := by
  rcases Relation.ReflTransGen.cases_head h with rfl | ⟨v, ⟨hne, -⟩, -⟩
  · rfl
  · exact absurd h0 hne

/-- **When the loop serves in order**: exactly if the live files are in order at its start and
every comparison made by a search agrees with the order. -/
theorem loop_sorted_iff {r : τ → τ → Prop} (hr : OrderFor K r) (fuel : Nat)
    (h : Abs K out₀ s A dead) (hq : A.QueuesInOrder r) (hlog : A.LogInOrder r)
    {t : Sources n σ τ ω} (ht : K.loop fuel s = some t) :
    t.calls.Pairwise r ↔ A.InOrder r ∧ ∀ u, K.Reaches s u → K.Agrees r u := by
  have : IsTrans τ r := ⟨hr.trans⟩
  induction fuel generalizing s A dead with
  | zero => simp [Kind.loop] at ht
  | succ fuel ih =>
      by_cases hA : A.InOrder r
      · rw [Kind.loop] at ht
        by_cases h0 : s.nfiles = 0
        · -- the loop is over, and nothing is compared any more
          rw [if_pos h0, Option.some.injEq] at ht
          subst ht
          refine iff_of_true (by rw [h.calls]; exact hlog.log) ⟨hA, fun u hu p hp => ?_⟩
          rw [reaches_of_done h0 hu, Kind.comparisons, if_pos (by omega)] at hp
          exact absurd hp (List.not_mem_nil)
        · obtain ⟨s', A', dead', hstep, habs, h', hord⟩ :=
            step_abs h (fun hl => h0 (h.nfiles_eq_zero.mpr hl))
          rw [if_neg h0, hstep, Option.bind_some] at ht
          have hih := ih h' (habs.queuesInOrder hq) (habs.logInOrder hq hA hlog) ht
          rw [hord r hr hA] at hih
          simp only [hih, reaches_iff h0 hstep, forall_eq_or_imp, hA, true_and]
      · -- files out of order are served out of order
        refine iff_of_false (fun hp => hA ?_) (fun hall => hA hall.1)
        obtain ⟨T, dead', hT, hdone, hsteps⟩ := loop_abs (fuel + 1) h ht
        obtain ⟨out, hout, hsub⟩ := hsteps.cur_sublist hdone
        rw [hT.calls, hout, List.map_append, List.pairwise_append] at hp
        exact hp.2.1.sublist hsub

/-! ## Up to the loop -/

/-- The state of the first loop before file `k`, if every read so far has succeeded and left the
objects `ms`. -/
def primed (inputs ms : Fin n → σ) (out₀ : ω) (k : Nat) : Sources n σ τ ω :=
  { Sources.init inputs out₀ with mem := fun i => if i.val < k then ms i else inputs i }

theorem finRange_getElem? {k : Nat} (hk : k < n) : (List.finRange n)[k]? = some ⟨k, hk⟩ := by
  rw [List.getElem?_eq_getElem (by simpa using hk), List.getElem_finRange]
  rfl

/-- Reading file `k` gives the state before file `k + 1`. -/
theorem readAt_primed {inputs ms : Fin n → σ} (hread : ∀ i, K.read (inputs i) = some (true, ms i))
    (out₀ : ω) {k : Nat} (hk : k < n) :
    K.readAt (primed inputs ms out₀ k) ⟨k, hk⟩ = some (true, primed inputs ms out₀ (k + 1)) := by
  have hmem : (primed inputs ms out₀ k : Sources n σ τ ω).mem ⟨k, hk⟩ = inputs ⟨k, hk⟩ :=
    if_neg (lt_irrefl k)
  rw [readAt_of_read (by rw [hmem]; exact hread _)]
  simp only [primed, Sources.init, Sources.setMem, Option.some.injEq, Prod.mk.injEq,
    Sources.mk.injEq, and_true, true_and]
  funext i
  by_cases hi : i = ⟨k, hk⟩
  · subst hi
    simp
  · have hne : i.val ≠ k := fun h => hi (Fin.ext h)
    have hiff : i.val < k + 1 ↔ i.val < k := by omega
    simp [Function.update_of_ne hi, hiff]

theorem prime_of_reads {inputs ms : Fin n → σ}
    (hread : ∀ i, K.read (inputs i) = some (true, ms i)) (d k : Nat) (hk : k + d = n) :
    K.prime (d + 1) k (primed inputs ms out₀ k) = some (primed inputs ms out₀ n) := by
  -- on the number of files left to read
  induction d generalizing k with
  | zero =>
      rw [Nat.add_zero] at hk
      subst hk
      rw [Kind.prime, if_neg (show ¬ k < (primed inputs ms out₀ k : Sources k σ τ ω).nfiles from
        lt_irrefl k)]
  | succ d ih =>
      have hlt : k < n := by omega
      have hfile : (primed inputs ms out₀ k : Sources n σ τ ω).files[k]? = some ⟨k, hlt⟩ :=
        finRange_getElem? hlt
      rw [Kind.prime, if_pos (show k < (primed inputs ms out₀ k : Sources n σ τ ω).nfiles from hlt),
        hfile, Option.bind_some, readAt_primed hread, Option.bind_some, if_pos rfl]
      exact ih (k + 1) (by omega)

/-- The first loop, when every file has something to read. -/
theorem prime_init {inputs ms : Fin n → σ} (hread : ∀ i, K.read (inputs i) = some (true, ms i))
    (out₀ : ω) :
    K.prime (n + 1) 0 (Sources.init inputs out₀) = some (primed inputs ms out₀ n) := by
  rw [← prime_of_reads hread n 0 (Nat.zero_add n)]
  simp [primed, Sources.init]

/-- No file was closed, so that the sort is one of the whole array. -/
theorem sortFiles_primed (S : StdSort) (inputs ms : Fin n → σ) (out₀ : ω) :
    (K.sortFiles S (primed inputs ms out₀ n)).files
      = S.sort (fun a b => K.sortLt (K.item (ms a)) (K.item (ms b))) (List.finRange n) := by
  have hmem : ∀ i, (primed inputs ms out₀ n : Sources n σ τ ω).mem i = ms i := fun i => if_pos i.isLt
  have hlen : (List.finRange n).length = n := List.length_finRange
  have htake : (primed inputs ms out₀ n : Sources n σ τ ω).files.take
      (primed inputs ms out₀ n : Sources n σ τ ω).nfiles = List.finRange n :=
    List.take_of_length_le hlen.le
  have hdrop : (primed inputs ms out₀ n : Sources n σ τ ω).files.drop
      (primed inputs ms out₀ n : Sources n σ τ ω).nfiles = [] :=
    List.drop_eq_nil_of_le hlen.le
  simp only [Kind.sortFiles, htake, hdrop, hmem, List.append_nil]

/-- The queues that the loop starts with, in the order of an array. -/
def queuesOf (ls : Fin n → List τ) (hne : ∀ i, ls i ≠ []) (files : List (Fin n)) :
    KMerge.State (Fin n) τ :=
  ⟨files.map (fun i => ⟨i, (ls i).head (hne i), (ls i).tail⟩), []⟩

theorem queuesOf_owners (ls : Fin n → List τ) (hne : ∀ i, ls i ≠ []) (files : List (Fin n)) :
    (queuesOf ls hne files).owners = files := by
  simp [queuesOf, KMerge.State.owners, Function.comp_def]

/-- **The start of the main loop**, when no file is empty: all files are live, each shows its first
item, and the array is sorted by the comparison of the sort. -/
theorem start_abs (S : StdSort) (inputs : Fin n → σ) (out₀ : ω) (ls : Fin n → List τ)
    (hne : ∀ i, ls i ≠ []) (hy : ∀ i, Yields K.read K.item (inputs i) (ls i))
    (hweak : StrictWeak K.sortLt) :
    ∃ s files, K.start S inputs out₀ = some s
      ∧ Abs K out₀ s (queuesOf ls hne files) []
      ∧ files.Perm (List.finRange n)
      ∧ (queuesOf ls hne files).InOrder (fun a b => K.sortLt b a = false) := by
  -- what the first read of every file does
  have hy' : ∀ i, ∃ m, K.read (inputs i) = some (true, m) ∧ K.item m = (ls i).head (hne i)
      ∧ Yields K.read K.item m (ls i).tail := by
    intro i
    have := hy i
    rw [← List.cons_head_tail (hne i)] at this
    exact this
  choose ms hread hitem hrest using hy'
  have hmem : ∀ i, (primed inputs ms out₀ n : Sources n σ τ ω).mem i = ms i := fun i => if_pos i.isLt
  set lt : Fin n → Fin n → Bool := fun a b =>
    K.sortLt ((ls a).head (hne a)) ((ls b).head (hne b)) with hlt
  have hsort : (K.sortFiles S (primed inputs ms out₀ n)).files = S.sort lt (List.finRange n) := by
    rw [sortFiles_primed]
    simp only [hitem, hlt]
  have hperm : (S.sort lt (List.finRange n)).Perm (List.finRange n) := S.perm _ _
  refine ⟨K.sortFiles S (primed inputs ms out₀ n), S.sort lt (List.finRange n), ?_, ?_, hperm, ?_⟩
  · rw [Kind.start, prime_init hread, Option.map_some]
  · refine ⟨by rw [hsort, queuesOf_owners, List.append_nil], ?_, ?_, ?_, rfl, rfl,
      by rw [hsort]; exact hperm, List.Perm.refl _⟩
    · simp only [queuesOf, List.length_map, hperm.length_eq, List.length_finRange]
      rfl
    · intro q hq
      obtain ⟨i, -, rfl⟩ := List.mem_map.mp hq
      show K.item ((primed inputs ms out₀ n : Sources n σ τ ω).mem i) = _
      rw [hmem]
      exact hitem i
    · intro q hq
      obtain ⟨i, -, rfl⟩ := List.mem_map.mp hq
      show Yields K.read K.item ((primed inputs ms out₀ n : Sources n σ τ ω).mem i) _
      rw [hmem]
      exact hrest i
  · have hpw := S.sorted lt ⟨fun a => hweak.irrefl _, fun a b c => hweak.trans _ _ _,
      fun a b c => hweak.incomp _ _ _⟩ (List.finRange n)
    rw [KMerge.State.InOrder, queuesOf, List.map_map, List.pairwise_map]
    exact hpw

/-! ## The results for both functions -/

/-- `out` is an interleaving of the lists: its entries can be assigned to the lists so that each
list gets exactly its entries, in their order. -/
def Interleaves (ls : Fin n → List τ) (out : List τ) : Prop :=
  ∃ log : List (Fin n × τ), log.map Prod.snd = out
    ∧ ∀ i, (log.filter (fun e => e.1 = i)).map Prod.snd = ls i

/-- An interleaving has the entries of the lists. -/
theorem Interleaves.mem_iff {ls : Fin n → List τ} {out : List τ} (h : Interleaves ls out) {x : τ} :
    x ∈ out ↔ ∃ i, x ∈ ls i := by
  obtain ⟨log, rfl, hlog⟩ := h
  constructor
  · intro hx
    obtain ⟨e, he, rfl⟩ := List.mem_map.mp hx
    refine ⟨e.1, ?_⟩
    rw [← hlog]
    exact List.mem_map_of_mem (List.mem_filter.mpr ⟨he, by simp⟩)
  · rintro ⟨i, hi⟩
    rw [← hlog] at hi
    obtain ⟨e, he, rfl⟩ := List.mem_map.mp hi
    exact List.mem_map_of_mem (List.mem_filter.mp he).1

/-- Sums over an interleaving are sums over the lists. -/
theorem Interleaves.sum_eq {ls : Fin n → List τ} {out : List τ} (h : Interleaves ls out)
    (f : τ → Nat) : (out.map f).sum = ∑ i, ((ls i).map f).sum := by
  obtain ⟨log, rfl, hlog⟩ := h
  simp only [← hlog, List.map_map]
  clear hlog
  induction log with
  | nil => simp
  | cons e log ih =>
      have hone : ∀ i, (((e :: log).filter (fun e => e.1 = i)).map (f ∘ Prod.snd)).sum
          = (if e.1 = i then f e.2 else 0)
            + ((log.filter (fun e => e.1 = i)).map (f ∘ Prod.snd)).sum := by
        intro i
        by_cases he : e.1 = i
        · simp [he]
        · simp [he]
      rw [List.map_cons, List.sum_cons, ih]
      simp only [hone, Finset.sum_add_distrib, Finset.sum_ite_eq, Finset.mem_univ, if_true]
      rfl

/-- The number of items of all files. -/
def itemCount (ls : Fin n → List τ) : Nat := ((List.finRange n).map (fun i => (ls i).length)).sum

variable {ls : Fin n → List τ} {hne : ∀ i, ls i ≠ []} {files : List (Fin n)}

theorem queuesOf_items {q : Queue (Fin n) τ} (hq : q ∈ (queuesOf ls hne files).live) :
    q.items = ls q.owner := by
  obtain ⟨i, -, rfl⟩ := List.mem_map.mp hq
  exact List.cons_head_tail (hne i)

theorem queuesOf_weight (hperm : files.Perm (List.finRange n)) :
    (queuesOf ls hne files).weight = itemCount ls := by
  have hlen : (queuesOf ls hne files).live.map (fun q => q.items.length)
      = files.map (fun i => (ls i).length) := by
    rw [queuesOf, List.map_map]
    refine List.map_congr_left (fun i _ => ?_)
    show (((ls i).head (hne i)) :: (ls i).tail).length = _
    rw [List.cons_head_tail]
  rw [KMerge.State.weight, hlen, itemCount]
  exact (hperm.map _).sum_eq

/-- At the start every owner has the items of its file. -/
theorem itemsOf_queuesOf (hperm : files.Perm (List.finRange n)) (i : Fin n) :
    KMerge.itemsOf i (queuesOf ls hne files).live = ls i := by
  have hnodup : ((queuesOf ls hne files).live.map Queue.owner).Nodup := by
    have := queuesOf_owners ls hne files
    rw [KMerge.State.owners] at this
    rw [this]
    exact hperm.nodup_iff.mpr (List.nodup_finRange n)
  have hmem : (⟨i, (ls i).head (hne i), (ls i).tail⟩ : Queue (Fin n) τ)
      ∈ (queuesOf ls hne files).live :=
    List.mem_map.mpr ⟨i, hperm.mem_iff.mpr (List.mem_finRange i), rfl⟩
  have hitems := KMerge.itemsOf_of_mem hnodup hmem
  rwa [queuesOf_items hmem] at hitems

/-- **Conservation and termination**: with more iterations allowed than there are items the loop
ends, it has served an interleaving of the files, all pointers are still in the array, and every
file has been closed once. -/
theorem loop_conserves (h : Abs K out₀ s (queuesOf ls hne files) [])
    (hperm : files.Perm (List.finRange n)) {fuel : Nat} (hfuel : itemCount ls < fuel) :
    ∃ t, K.loop fuel s = some t ∧ Interleaves ls t.calls
      ∧ t.files.Perm (List.finRange n) ∧ t.closed.Perm (List.finRange n)
      ∧ t.out = t.calls.foldl K.handle out₀ := by
  obtain ⟨t, ht⟩ := loop_terminates fuel h (by rw [queuesOf_weight hperm]; exact hfuel)
  obtain ⟨T, dead, hT, hdone, hsteps⟩ := loop_abs fuel h ht
  have hfiles : t.files = dead := by rw [hT.files, KMerge.State.owners, hdone]; rfl
  refine ⟨t, ht, ⟨T.log, hT.calls.symm, fun i => ?_⟩, hT.perm, ?_, hT.out⟩
  · have hserved := hsteps.servedOf_eq h.owners_nodup rfl hdone i
    exact hserved.trans (itemsOf_queuesOf hperm i)
  · rw [← hfiles] at hT
    exact hT.closed.trans hT.perm

/-- The same for the order: files that are sorted themselves are served in order exactly if the
array is in order at the start and the searches agree with the order. -/
theorem loop_sorted_iff_of_start {r : τ → τ → Prop} (hr : OrderFor K r)
    (h : Abs K out₀ s (queuesOf ls hne files) []) (hsorted : ∀ i, (ls i).Pairwise r)
    {fuel : Nat} {t : Sources n σ τ ω} (ht : K.loop fuel s = some t) :
    t.calls.Pairwise r ↔ K.LiveInOrder r s ∧ ∀ u, K.Reaches s u → K.Agrees r u := by
  rw [h.liveInOrder_iff]
  refine loop_sorted_iff hr fuel h (fun q hq => ?_) ⟨?_, ?_⟩ ht
  · rw [queuesOf_items hq]
    exact hsorted _
  · exact List.Pairwise.nil
  · intro x hx
    exact absurd hx (List.not_mem_nil)

/-! ## When the searches agree -/

/-- Every state the loop reaches has its abstract state. -/
theorem reaches_abs (h : Abs K out₀ s A dead) {u : Sources n σ τ ω} (hu : K.Reaches s u) :
    ∃ B dead', Abs K out₀ u B dead' ∧ KMerge.Steps A B := by
  induction hu with
  | refl => exact ⟨A, dead, h, Relation.ReflTransGen.refl⟩
  | tail _ hstep ih =>
      obtain ⟨B, dead', hB, hsteps⟩ := ih
      obtain ⟨h0, hsome⟩ := hstep
      obtain ⟨v, C, dead'', hv, hBC, hC, -⟩ :=
        step_abs hB (fun hl => h0 (hB.nfiles_eq_zero.mpr hl))
      rw [hsome, Option.some.injEq] at hv
      subst hv
      exact ⟨C, dead'', hC, hsteps.tail hBC⟩

/-- Only items of live queues are compared. -/
theorem comparisons_mem (h : Abs K out₀ s A dead) {p : τ × τ} (hp : p ∈ K.comparisons s) :
    (∃ q ∈ A.live, p.1 ∈ q.items) ∧ ∃ q ∈ A.live, p.2 ∈ q.items := by
  obtain ⟨live, log⟩ := A
  cases live with
  | nil =>
      have h0 : s.nfiles = 0 := h.nfiles
      rw [Kind.comparisons, if_pos (by omega)] at hp
      exact absurd hp (List.not_mem_nil)
  | cons q qs =>
      obtain ⟨i, x, rest⟩ := q
      cases rest with
      | nil => exact absurd hp (by rw [comparisons_of_last h]; exact List.not_mem_nil)
      | cons y ys =>
          obtain ⟨m, c, ps, -, -, -, -, -, hcmp⟩ := search_spec h
          rw [hcmp] at hp
          obtain ⟨k, -, hk⟩ := List.mem_filterMap.mp hp
          obtain ⟨w, hw, rfl⟩ := Option.map_eq_some_iff.mp hk
          obtain ⟨q, hq, rfl⟩ := List.mem_map.mp (List.mem_of_getElem? hw)
          exact ⟨⟨_, List.mem_cons_self, by simp [Queue.items]⟩,
            ⟨q, List.mem_cons_of_mem _ hq, by simp [Queue.items]⟩⟩

/-- The searches agree with an order if the comparison does on all items of the files. -/
theorem agrees_of_items {r : τ → τ → Prop} (h : Abs K out₀ s (queuesOf ls hne files) [])
    (hperm : files.Perm (List.finRange n))
    (hr : ∀ i j, ∀ a ∈ ls i, ∀ b ∈ ls j, K.searchLe a b = true ↔ r a b)
    {u : Sources n σ τ ω} (hu : K.Reaches s u) : K.Agrees r u := by
  obtain ⟨B, dead, hB, hsteps⟩ := reaches_abs h hu
  have hmem : ∀ q ∈ B.live, ∀ a ∈ q.items, a ∈ ls q.owner := by
    intro q hq a ha
    have hheld := hsteps.held h.owners_nodup q.owner
    rw [KMerge.State.held, KMerge.State.held, KMerge.itemsOf_of_mem hB.owners_nodup hq,
      itemsOf_queuesOf hperm] at hheld
    have : a ∈ KMerge.servedOf q.owner (queuesOf ls hne files).log ++ ls q.owner := by
      rw [← hheld]
      exact List.mem_append_right _ ha
    exact this
  intro p hp
  obtain ⟨⟨q, hq, h1⟩, q', hq', h2⟩ := comparisons_mem hB hp
  exact hr q.owner q'.owner p.1 (hmem q hq p.1 h1) p.2 (hmem q' hq' p.2 h2)

end

end CSearch.Tool
