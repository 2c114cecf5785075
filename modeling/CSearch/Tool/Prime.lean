import CSearch.Tool.KWay

set_option autoImplicit false

/-! # The first loop of `merge` and `dsort`

Before they sort the array, `merge` and `dsort` read once from every file and take the files that
are at their end out of the array. The size of the `memmove` that does this is
`nfiles-k-1*sizeof(ifile*)`: not a number of slots, but a number of bytes eight less than the number
of slots, in `size_t`. So here the array is a list of bytes, and an address that a move has torn
apart may or may not be the address of a file.

`Kind.prime` is this loop with the array as a list of pointers; where it has a result, the loop here
has the same one (`primeLoop_of_prime`).

After a removal the loop goes on with the next index, so that the file that has moved down is not
read: as many files are read as there are iterations, and a removal costs one
(`Counted.step`). `primesRight_iff` is what follows: the loop does what it is for only if there is
nothing to remove.
-/

namespace CSearch.Tool

/-- The addresses of the files: eight bytes each. -/
structure Pointers (n : Nat) where
  bytes : Fin n → List UInt8
  length_bytes : ∀ i, (bytes i).length = 8
  injective : Function.Injective bytes

/-- The type of the index `k`: `size_t` in `merge`, `int` in `dsort`. -/
inductive IndexType where
  | sizeT
  | int

/-- The numbers below this one are values of the type. -/
def IndexType.limit : IndexType → Nat
  | .sizeT => 2 ^ 64
  | .int => 2 ^ 31

theorem IndexType.limit_pos (T : IndexType) : 0 < T.limit := by
  cases T <;> decide

/-- The variables: the files, the array, its live length, and which files have been read and
closed. -/
structure PrimeState (n : Nat) (σ : Type) where
  mem : Fin n → σ
  array : List UInt8
  nfiles : Nat
  reads : List (Fin n)
  closed : List (Fin n)

section

variable {n : Nat} {σ : Type} (read : σ → Bool × σ) (P : Pointers n)

/-- `files[k]`: the file with the address in that slot, if there is one. -/
def Pointers.deref (array : List UInt8) (k : Nat) : Option (Fin n) :=
  (List.finRange n).find? (fun i => P.bytes i == (array.drop (8 * k)).take 8)

/-- The array at the call. -/
def PrimeState.init (inputs : Fin n → σ) : PrimeState n σ :=
  ⟨inputs, (List.finRange n).flatMap P.bytes, n, [], []⟩

/-- The body of the loop. -/
def primeStep (k : Nat) (s : PrimeState n σ) : Option (PrimeState n σ) :=
  (P.deref s.array k).bind fun i =>
    let r := read (s.mem i)
    let s := { s with mem := Function.update s.mem i r.2, reads := s.reads ++ [i] }
    if r.1 then some s
    else
      (memmove s.array (8 * k) (8 * (k + 1)) ((s.nfiles + 2 ^ 64 - k - 8) % 2 ^ 64)).map
        fun array =>
          { s with array := array, nfiles := s.nfiles - 1, closed := s.closed ++ [i] }

/-- The loop. An index that leaves its type has no result. -/
def primeLoop (T : IndexType) : Nat → Nat → PrimeState n σ → Option (PrimeState n σ)
  | 0, _, _ => none
  | fuel + 1, k, s =>
      if k < s.nfiles then
        (primeStep read P k s).bind fun s =>
          if k + 1 < T.limit then primeLoop T fuel (k + 1) s else none
      else some s

/-- What the loop is for: the array has the files with something to read, in their order, each of
which has been read once, and the other ones have been closed. -/
structure Primed (inputs : Fin n → σ) (s : PrimeState n σ) : Prop where
  nfiles : s.nfiles = ((List.finRange n).filter (fun i => (read (inputs i)).1)).length
  array : s.array.take (8 * s.nfiles)
    = ((List.finRange n).filter (fun i => (read (inputs i)).1)).flatMap P.bytes
  reads : ∀ i, (read (inputs i)).1 = true → s.reads.count i = 1
  closed : ∀ i, (read (inputs i)).1 = false → i ∈ s.closed

/-- The loop ends and has done what it is for. -/
def PrimesRight (T : IndexType) (inputs : Fin n → σ) : Prop :=
  ∃ fuel s, primeLoop read P T fuel 0 (PrimeState.init P inputs) = some s
    ∧ Primed read P inputs s

/-! ## Counting -/

variable {read P}

/-- At index `k`: one read for every iteration so far, one slot less for every file closed, and
after a removal fewer than `n` iterations. -/
structure Counted (k : Nat) (s : PrimeState n σ) : Prop where
  reads : s.reads.length = k
  closed_sub : s.closed ⊆ s.reads
  nfiles : s.nfiles + s.closed.length = n
  size : s.array.length = 8 * n
  lt : s.closed ≠ [] → k < n

theorem counted_init (inputs : Fin n → σ) : Counted 0 (PrimeState.init P inputs) := by
  refine ⟨rfl, fun _ h => h, rfl, ?_, fun h => absurd rfl h⟩
  show ((List.finRange n).flatMap P.bytes).length = 8 * n
  rw [length_flatMap_width P.length_bytes, List.length_finRange]

/-- The first removal stays in the array only if there are eight slots from this one on. -/
theorem eight_le_of_memmove {array b : List UInt8} {k : Nat} (hsize : array.length = 8 * n)
    (hk : k < n)
    (h : memmove array (8 * k) (8 * (k + 1)) ((n + 2 ^ 64 - k - 8) % 2 ^ 64) = some b) :
    k + 8 ≤ n := by
  by_contra hlt
  have hmod : (n + 2 ^ 64 - k - 8) % 2 ^ 64 = n + 2 ^ 64 - k - 8 :=
    Nat.mod_eq_of_lt (by omega)
  rw [memmove, hmod, if_neg (by omega)] at h
  exact absurd h (by simp)

/-- **One iteration.** -/
theorem Counted.step {k : Nat} {s s' : PrimeState n σ} (h : Counted k s) (hk : k < s.nfiles)
    (hs : primeStep read P k s = some s') : Counted (k + 1) s' := by
  have hle := h.nfiles
  rw [primeStep, Option.bind_eq_some_iff] at hs
  obtain ⟨i, -, hs⟩ := hs
  have hreads : (s.reads ++ [i]).length = k + 1 := by
    rw [List.length_append, h.reads, List.length_singleton]
  have hsub : s.closed ⊆ s.reads ++ [i] :=
    List.Subset.trans h.closed_sub (List.subset_append_left _ _)
  dsimp only at hs
  split at hs
  · rw [Option.some.injEq] at hs
    subst hs
    refine ⟨hreads, hsub, h.nfiles, h.size, fun hne => ?_⟩
    have hpos := List.length_pos_iff.mpr hne
    dsimp only at hpos
    omega
  · rw [Option.map_eq_some_iff] at hs
    obtain ⟨b, hb, hs⟩ := hs
    subst hs
    refine ⟨hreads, ?_, ?_, (memmove_length hb).trans h.size, fun _ => ?_⟩
    · refine List.append_subset.mpr ⟨hsub, List.subset_append_right _ _⟩
    · show s.nfiles - 1 + (s.closed ++ [i]).length = n
      rw [List.length_append, List.length_singleton]
      omega
    · by_cases hc : s.closed = []
      · rw [hc, List.length_nil, Nat.add_zero] at hle
        rw [hle] at hb hk
        have := eight_le_of_memmove h.size hk hb
        omega
      · have hpos := List.length_pos_iff.mpr hc
        omega

/-- **The whole loop.** -/
theorem Counted.loop {T : IndexType} {fuel k : Nat} {s s' : PrimeState n σ} (h : Counted k s)
    (hk : k < T.limit) (hs : primeLoop read P T fuel k s = some s') :
    ∃ k', k' < T.limit ∧ Counted k' s' := by
  induction fuel generalizing k s with
  | zero => exact absurd hs (by simp [primeLoop])
  | succ fuel ih =>
      rw [primeLoop] at hs
      split at hs
      · rename_i hlt
        rw [Option.bind_eq_some_iff] at hs
        obtain ⟨s₁, hstep, hs⟩ := hs
        split at hs
        · rename_i hlimit
          exact ih (h.step hlt hstep) hlimit hs
        · exact absurd hs (by simp)
      · rw [Option.some.injEq] at hs
        exact ⟨k, hk, hs ▸ h⟩

/-- A loop that does what it is for has read every file, and so has removed none. -/
theorem PrimesRight.all_read {T : IndexType} {inputs : Fin n → σ}
    (h : PrimesRight read P T inputs) :
    (∀ i, (read (inputs i)).1 = true) ∧ n < T.limit := by
  obtain ⟨fuel, s, hs, hp⟩ := h
  obtain ⟨k, hk, hc⟩ := (counted_init inputs).loop T.limit_pos hs
  have hall : List.finRange n ⊆ s.reads := by
    intro i _
    cases hi : (read (inputs i)).1 with
    | true =>
        apply List.count_pos_iff.mp
        rw [hp.reads i hi]
        exact Nat.one_pos
    | false => exact hc.closed_sub (hp.closed i hi)
  have hn : n ≤ k := by
    have := ((List.nodup_finRange n).subperm hall).length_le
    rwa [List.length_finRange, hc.reads] at this
  have hnone : s.closed = [] := by
    by_contra hne
    have := hc.lt hne
    omega
  refine ⟨fun i => ?_, lt_of_le_of_lt hn hk⟩
  by_contra hi
  have hmem := hp.closed i (by simpa using hi)
  rw [hnone] at hmem
  exact absurd hmem List.not_mem_nil

/-! ## Nothing to remove -/

theorem Pointers.deref_eq {array : List UInt8} {k : Nat} {i : Fin n}
    (h : (array.drop (8 * k)).take 8 = P.bytes i) : P.deref array k = some i := by
  rw [Pointers.deref, h]
  cases hf : (List.finRange n).find? (fun j => P.bytes j == P.bytes i) with
  | none => exact absurd (List.find?_eq_none.mp hf i (List.mem_finRange i)) (by simp)
  | some j =>
      have hj := List.find?_some hf
      rw [beq_iff_eq] at hj
      rw [P.injective hj]

/-- The slots of an array of pointers. -/
theorem Pointers.deref_flatMap {files : List (Fin n)} {k : Nat} {i : Fin n}
    (h : files[k]? = some i) : P.deref (files.flatMap P.bytes) k = some i := by
  obtain ⟨hk, hi⟩ := List.getElem?_eq_some_iff.mp h
  apply Pointers.deref_eq
  rw [drop_flatMap_width P.length_bytes, List.drop_eq_getElem_cons hk, hi, List.flatMap_cons,
    List.take_append_of_le_length (P.length_bytes i).ge,
    List.take_of_length_le (P.length_bytes i).le]

/-- The variables at index `k` when every file had something to read. -/
structure AllRead (P : Pointers n) (inputs : Fin n → σ) (k : Nat) (s : PrimeState n σ) : Prop where
  mem : ∀ i : Fin n, k ≤ i.val → s.mem i = inputs i
  array : s.array = (List.finRange n).flatMap P.bytes
  nfiles : s.nfiles = n
  reads : s.reads = (List.finRange n).take k

theorem AllRead.step {inputs : Fin n → σ} (hread : ∀ i, (read (inputs i)).1 = true) {k : Nat}
    {s : PrimeState n σ} (h : AllRead P inputs k s) (hk : k < n) :
    ∃ s', primeStep read P k s = some s' ∧ AllRead P inputs (k + 1) s' := by
  have hderef : P.deref s.array k = some ⟨k, hk⟩ := by
    rw [h.array]
    exact Pointers.deref_flatMap (finRange_getElem? hk)
  have hok : (read (s.mem ⟨k, hk⟩)).1 = true := by
    rw [h.mem ⟨k, hk⟩ le_rfl]
    exact hread _
  rw [primeStep, hderef, Option.bind_some]
  dsimp only
  rw [if_pos hok]
  refine ⟨_, rfl, ?_, h.array, h.nfiles, ?_⟩
  · intro i hi
    have hne : i ≠ ⟨k, hk⟩ := by
      rintro rfl
      exact absurd hi (by simp)
    show Function.update s.mem ⟨k, hk⟩ _ i = inputs i
    rw [Function.update_of_ne hne]
    exact h.mem i (by omega)
  · rw [List.take_add_one, finRange_getElem? hk, ← h.reads]
    rfl

theorem AllRead.loop {inputs : Fin n → σ} (hread : ∀ i, (read (inputs i)).1 = true)
    {T : IndexType} (hlimit : n < T.limit) (d : Nat) {k : Nat} {s : PrimeState n σ}
    (h : AllRead P inputs k s) (hk : k + d = n) :
    ∃ s', primeLoop read P T (d + 1) k s = some s' ∧ AllRead P inputs n s' := by
  -- on the number of files left to read
  induction d generalizing k s with
  | zero =>
      rw [Nat.add_zero] at hk
      rw [primeLoop, if_neg (by rw [h.nfiles, hk]; exact lt_irrefl n)]
      exact ⟨s, rfl, hk ▸ h⟩
  | succ d ih =>
      obtain ⟨s', hstep, h'⟩ := h.step hread (by omega)
      rw [primeLoop, if_pos (by rw [h.nfiles]; omega), hstep, Option.bind_some,
        if_pos (by omega)]
      exact ih h' (by omega)

theorem AllRead.primed {inputs : Fin n → σ} (hread : ∀ i, (read (inputs i)).1 = true)
    {s : PrimeState n σ} (h : AllRead P inputs n s) : Primed read P inputs s := by
  have hfilter : (List.finRange n).filter (fun i => (read (inputs i)).1) = List.finRange n :=
    List.filter_eq_self.mpr (fun i _ => hread i)
  have hreads : s.reads = List.finRange n := by
    rw [h.reads, List.take_of_length_le (by rw [List.length_finRange])]
  refine ⟨?_, ?_, fun i _ => ?_, fun i hi => ?_⟩
  · rw [hfilter, h.nfiles, List.length_finRange]
  · rw [hfilter, h.array, h.nfiles, take_flatMap_width P.length_bytes,
      List.take_of_length_le (by rw [List.length_finRange])]
  · rw [hreads]
    exact List.count_eq_one_of_mem (List.nodup_finRange n) (List.mem_finRange i)
  · exact absurd (hread i) (by rw [hi]; exact Bool.false_ne_true)

/-- **When the first loop does what it is for**: if there is something to read in every file, so
that nothing has to be removed, and the index can count the files. -/
theorem primesRight_iff (read : σ → Bool × σ) (P : Pointers n) (T : IndexType)
    (inputs : Fin n → σ) :
    PrimesRight read P T inputs ↔ (∀ i, (read (inputs i)).1 = true) ∧ n < T.limit := by
  constructor
  · exact fun h => h.all_read
  · rintro ⟨hread, hlimit⟩
    have hinit : AllRead P inputs 0 (PrimeState.init P inputs) :=
      ⟨fun _ _ => rfl, rfl, rfl, rfl⟩
    obtain ⟨s, hs, h⟩ := hinit.loop hread hlimit n (Nat.zero_add n)
    exact ⟨n + 1, s, hs, h.primed hread⟩

/-- Two files, at the addresses `0` and `1`. -/
def Pointers.two : Pointers 2 where
  bytes i := UInt8.ofNat i.val :: List.replicate 7 0
  length_bytes _ := rfl
  injective := by
    unfold Function.Injective
    decide

/-- Two files, the first of which is at its end: the move has `2 - 8` bytes in `size_t`, and leaves
the array. -/
theorem not_primesRight_two :
    (primeStep (fun b : Bool => (b, b)) Pointers.two 0
        (PrimeState.init Pointers.two (fun i => decide (i.val = 1)))).isNone = true
      ∧ ¬ PrimesRight (fun b : Bool => (b, b)) Pointers.two .sizeT (fun i => decide (i.val = 1))
      ∧ ¬ PrimesRight (fun b : Bool => (b, b)) Pointers.two .int (fun i => decide (i.val = 1)) := by
  refine ⟨by decide, fun h => ?_, fun h => ?_⟩
  · exact absurd (h.all_read.1 ⟨0, Nat.two_pos⟩) (by decide)
  · exact absurd (h.all_read.1 ⟨0, Nat.two_pos⟩) (by decide)

/-! ## The loop over pointers -/

/-- Moving pointers by a number of bytes is moving their bytes. -/
theorem memmove_of_memmoveBytes {files files' : List (Fin n)} {dst src bytes : Nat}
    (h : memmoveBytes files dst src bytes = some files') :
    memmove (files.flatMap P.bytes) (8 * dst) (8 * src) bytes = some (files'.flatMap P.bytes) := by
  rw [memmoveBytes] at h
  split at h
  · rename_i hmod
    have hmul : 8 * (bytes / 8) = bytes := by omega
    have := memmove_flatMap P.length_bytes h
    rwa [hmul] at this
  · exact absurd h (by simp)

/-- **Where the loop over pointers has a result, the loop over bytes has the same one.** All reads
made by then have a result, so that it does not matter what is put in the place of another one. -/
theorem primeLoop_of_prime {τ ω : Type} {K : Kind σ τ ω} {T : IndexType} {fuel k : Nat}
    {s s' : Sources n σ τ ω} (h : K.prime fuel k s = some s') (hlimit : s.nfiles < T.limit)
    (reads : List (Fin n)) :
    ∃ reads', primeLoop (fun m => (K.read m).getD (false, m)) P T fuel k
        ⟨s.mem, s.files.flatMap P.bytes, s.nfiles, reads, s.closed⟩
      = some ⟨s'.mem, s'.files.flatMap P.bytes, s'.nfiles, reads', s'.closed⟩ := by
  induction fuel generalizing k s reads with
  | zero => exact absurd h (by simp [Kind.prime])
  | succ fuel ih =>
      rw [Kind.prime] at h
      rw [primeLoop]
      dsimp only
      split at h
      · rename_i hlt
        rw [if_pos hlt]
        have hk : k + 1 < T.limit := by omega
        obtain ⟨i, hi, h⟩ := Option.bind_eq_some_iff.mp h
        obtain ⟨r, hr, h⟩ := Option.bind_eq_some_iff.mp h
        obtain ⟨⟨ok, m⟩, hread, rfl⟩ := Option.map_eq_some_iff.mp hr
        rw [primeStep, Pointers.deref_flatMap hi, Option.bind_some]
        dsimp only at h ⊢
        rw [hread, Option.getD_some]
        split at h
        · rename_i hok
          rw [if_pos hok, Option.bind_some, if_pos hk]
          exact ih h hlimit _
        · rename_i hok
          obtain ⟨files, hmove, h⟩ := Option.bind_eq_some_iff.mp h
          rw [if_neg hok, memmove_of_memmoveBytes hmove, Option.map_some, Option.bind_some,
            if_pos hk]
          exact ih h (show s.nfiles - 1 < T.limit by omega) _
      · rename_i hge
        rw [Option.some.injEq] at h
        subst h
        rw [if_neg hge]
        exact ⟨reads, rfl⟩

end

end CSearch.Tool
