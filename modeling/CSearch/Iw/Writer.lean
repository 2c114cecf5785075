import CSearch.Basic.Memory
import CSearch.Basic.Runs
import Mathlib.Data.UInt

set_option autoImplicit false

/-! # `index_writer_t`

The index writer of `iw.c`. It takes pairs of a term and a document in ascending order, buffers
the documents of a term in `data`, and hands a block to a callback when the term changes or the
buffer is full.

`held` is everything a writer holds: what the blocks stand for, and the documents in the buffer
under the term of the last pair. It should be the list of the pairs accepted. `write_safe` and
`write_unsafe` say for which calls it stays so: the pair must have the term of the last pair (or be
the first one of its term with an empty buffer and no term before it), and a flush of a full buffer
must succeed unless there is nothing to lose. A pair that starts a new term is lost.
-/

namespace CSearch.Iw

/-! ## The functions of the source -/

/-- `dt`. -/
structure Dt where
  term : UInt64
  doc : UInt64
  deriving DecidableEq, Repr

/-- What is used of `libvbyte`, and what is assumed of it: on ascending input
`vbyte_uncompress_sorted64` undoes `vbyte_compress_sorted64`. -/
structure Vbyte where
  compress : List UInt64 → UInt64 → List UInt8
  uncompress : List UInt8 → UInt64 → Nat → List UInt64
  uncompress_compress : ∀ (prev : UInt64) (l : List UInt64), (prev :: l).Pairwise (· ≤ ·) →
    uncompress (compress l prev) prev l.length = l

namespace Vbyte

/-- The first `n` numbers of eight bytes each. -/
def plainWords : Nat → List UInt8 → List UInt64
  | 0, _ => []
  | n + 1, bs => UInt64.ofNat (leVal (bs.take 8)) :: plainWords n (bs.drop 8)

theorem plainWords_leBytes (l : List UInt64) :
    plainWords l.length (l.flatMap (fun d => leBytes 8 d.toNat)) = l := by
  induction l with
  | nil => rfl
  | cons d l ih =>
      have hlen : (leBytes 8 d.toNat).length = 8 := leBytes_length 8 _
      have hd : d.toNat < 256 ^ 8 := d.toNat_lt
      rw [List.flatMap_cons, List.length_cons, plainWords, List.take_left' hlen,
        List.drop_left' hlen, ih, leVal_leBytes, Nat.mod_eq_of_lt hd, UInt64.ofNat_toNat]

/-- Numbers that are not compressed at all: what is assumed of the library can be had. -/
def plain : Vbyte where
  compress l _ := l.flatMap (fun d => leBytes 8 d.toNat)
  uncompress bs _ n := plainWords n bs
  uncompress_compress _ l _ := plainWords_leBytes l

end Vbyte

/-- An invocation of the callback. The callback is not told the number of documents compressed;
it is recorded here to say what the block stands for. -/
structure Call where
  startPair : Dt
  buff : List UInt8
  len : UInt64
  count : Nat

/-- `index_writer_t`, and the invocations of its callback so far. -/
structure IndexWriter where
  lastPair : Dt
  maxy : Nat
  data : List UInt64
  log : List Call

/-- `index_writer_init`. -/
def IndexWriter.init (maxy : Nat) : IndexWriter := ⟨⟨0, 0⟩, maxy, [], []⟩

/-- What the environment does in a call: whether `malloc` succeeds, and what the callback
returns. -/
structure Env where
  malloc : Bool
  callback : Int32

section

variable (V : Vbyte)

/-- `index_writer_flush`. On an empty buffer it would read `data[0]` and compress `0 - 1`
documents, which has no defined result. -/
def IndexWriter.flush (w : IndexWriter) (e : Env) : Option (Int32 × IndexWriter) :=
  if e.malloc = false then some (-1, w)
  else
    match w.data with
    | [] => none
    | d :: ds =>
        let buff := V.compress ds d
        let rc := Int32.ofNat buff.length
        some (e.callback,
          { w with log := w.log ++ [⟨⟨w.lastPair.term, d⟩, buff, rc.toInt64.toUInt64, ds.length⟩] })

/-- `index_writer_write`. -/
def IndexWriter.write (w : IndexWriter) (pair : Dt) (e : Env) : Option (Int32 × IndexWriter) :=
  if pair.term < w.lastPair.term
      ∨ pair.term = w.lastPair.term ∧ pair.doc ≤ w.lastPair.doc then some (-1, w)
  else if w.lastPair.term ≠ pair.term ∧ w.lastPair.term ≠ 0 then
    -- new term: the pair itself is not stored, and the result of the flush is ignored
    (w.flush V e).map fun r => (0, { r.2 with data := [], lastPair := pair })
  else
    let w := { w with data := w.data ++ [pair.doc], lastPair := pair }
    if w.maxy ≤ w.data.length then
      (w.flush V e).map fun r => (r.1, { r.2 with data := [] })
    else some (0, w)

/-! ## What a writer holds -/

/-- The pairs a block stands for. -/
def Call.pairs (c : Call) : List Dt :=
  (c.startPair.doc :: V.uncompress c.buff c.startPair.doc c.count).map (Dt.mk c.startPair.term)

/-- Everything a writer holds: the pairs of the blocks and those in the buffer. -/
def IndexWriter.held (w : IndexWriter) : List Dt :=
  w.log.flatMap (Call.pairs V) ++ w.data.map (Dt.mk w.lastPair.term)

/-- A call that returned `-1` has not accepted its pair. -/
def accept (acc : List Dt) (pair : Dt) (rc : Int32) : List Dt :=
  if rc = -1 then acc else acc ++ [pair]

/-- After every call the writer holds exactly the pairs accepted so far. The callback returns `0`;
whether `malloc` succeeds is given for every call. -/
def LosesNothing : IndexWriter → List Dt → List (Dt × Bool) → Prop
  | w, acc, [] => w.held V = acc
  | w, acc, (pair, malloc) :: calls =>
      w.held V = acc ∧ ∃ rc w', w.write V pair ⟨malloc, 0⟩ = some (rc, w')
        ∧ LosesNothing w' (accept acc pair rc) calls

/-- The check at the start of `index_writer_write`. -/
def IndexWriter.Rejects (w : IndexWriter) (pair : Dt) : Prop :=
  pair.term < w.lastPair.term ∨ pair.term = w.lastPair.term ∧ pair.doc ≤ w.lastPair.doc

/-- The calls that lose nothing: the pair is rejected; or it has the term of the last pair, or
nothing is buffered under the term `0`, and a full buffer can be flushed or had nothing in it. -/
def IndexWriter.Safe (w : IndexWriter) (pair : Dt) (malloc : Bool) : Prop :=
  w.Rejects pair
    ∨ (pair.term = w.lastPair.term ∨ w.lastPair.term = 0 ∧ w.data = [])
      ∧ (w.maxy ≤ w.data.length + 1 → malloc = true ∨ w.data = [])

/-- Every call is a safe one, in the state it is made in. -/
def AllSafe : IndexWriter → List (Dt × Bool) → Prop
  | _, [] => True
  | w, (pair, malloc) :: calls =>
      w.Safe pair malloc ∧ ∀ rc w', w.write V pair ⟨malloc, 0⟩ = some (rc, w') → AllSafe w' calls

end

/-! ## One call -/

section

variable {V : Vbyte} {w : IndexWriter} {pair : Dt} {malloc : Bool}

/-- The buffer is ascending up to the last pair. -/
structure IndexWriter.Ascending (w : IndexWriter) : Prop where
  data : w.data.Pairwise (· < ·)
  last : ∀ d ∈ w.data, d ≤ w.lastPair.doc

/-- A block made of an ascending buffer stands for the pairs of the buffer. -/
theorem pairs_of_ascending {term d : UInt64} {ds : List UInt64} {len : UInt64}
    (h : (d :: ds).Pairwise (· < ·)) :
    Call.pairs V ⟨⟨term, d⟩, V.compress ds d, len, ds.length⟩ = (d :: ds).map (Dt.mk term) := by
  rw [Call.pairs, V.uncompress_compress d ds (h.imp UInt64.le_of_lt)]

/-- A successful flush of an ascending buffer moves its pairs to the log. -/
theorem flush_held (hne : w.data ≠ []) (hasc : w.data.Pairwise (· < ·)) (rc : Int32) :
    ∃ w', w.flush V ⟨true, rc⟩ = some (rc, w')
      ∧ w'.log.flatMap (Call.pairs V) = w.held V := by
  obtain ⟨d, ds, hd⟩ := List.exists_cons_of_ne_nil hne
  rw [hd] at hasc
  refine ⟨_, by rw [IndexWriter.flush, if_neg (by simp), hd], ?_⟩
  rw [IndexWriter.held, hd, List.flatMap_append, List.flatMap_singleton, pairs_of_ascending hasc]

theorem write_of_rejects (h : w.Rejects pair) (e : Env) : w.write V pair e = some (-1, w) := by
  rw [IndexWriter.Rejects] at h
  rw [IndexWriter.write, if_pos h]

/-- The state after the document has been pushed. -/
def IndexWriter.pushed (w : IndexWriter) (pair : Dt) : IndexWriter :=
  { w with data := w.data ++ [pair.doc], lastPair := pair }

theorem write_of_old_term (h : ¬ w.Rejects pair)
    (ht : pair.term = w.lastPair.term ∨ w.lastPair.term = 0) (e : Env) :
    w.write V pair e
      = if w.maxy ≤ w.data.length + 1 then
          ((w.pushed pair).flush V e).map fun r => (r.1, { r.2 with data := [] })
        else some (0, w.pushed pair) := by
  have hterm : ¬ (w.lastPair.term ≠ pair.term ∧ w.lastPair.term ≠ 0) := by
    rintro ⟨h1, h2⟩
    rcases ht with ht | ht
    · exact h1 ht.symm
    · exact h2 ht
  rw [IndexWriter.Rejects] at h
  rw [IndexWriter.write, if_neg h, if_neg hterm]
  simp only [List.length_append, List.length_singleton]
  rfl

theorem write_of_new_term (h : ¬ w.Rejects pair) (h1 : pair.term ≠ w.lastPair.term)
    (h2 : w.lastPair.term ≠ 0) (e : Env) :
    w.write V pair e
      = (w.flush V e).map fun r => (0, { r.2 with data := [], lastPair := pair }) := by
  rw [IndexWriter.Rejects] at h
  rw [IndexWriter.write, if_neg h, if_pos ⟨Ne.symm h1, h2⟩]

theorem pushed_held (h : pair.term = w.lastPair.term ∨ w.data = []) :
    (w.pushed pair).held V = w.held V ++ [pair] := by
  have hmap : w.data.map (Dt.mk pair.term) = w.data.map (Dt.mk w.lastPair.term) := by
    rcases h with h | h
    · rw [h]
    · rw [h, List.map_nil, List.map_nil]
  simp only [IndexWriter.held, IndexWriter.pushed, List.map_append, hmap, List.map_singleton,
    List.append_assoc]

theorem pushed_ascending (hasc : w.Ascending) (hr : ¬ w.Rejects pair)
    (h : pair.term = w.lastPair.term ∨ w.data = []) : (w.pushed pair).Ascending := by
  have hdoc : ∀ d ∈ w.data, d < pair.doc := by
    intro d hd
    rcases h with h | h
    · have hlt : w.lastPair.doc < pair.doc := UInt64.not_le.mp (fun hle => hr (Or.inr ⟨h, hle⟩))
      exact UInt64.lt_of_le_of_lt (hasc.last d hd) hlt
    · rw [h] at hd
      exact absurd hd List.not_mem_nil
  refine ⟨?_, forall_mem_concat.mpr ⟨fun d hd => UInt64.le_of_lt (hdoc d hd), UInt64.le_refl _⟩⟩
  refine List.pairwise_append.mpr ⟨hasc.data, List.pairwise_singleton _ _, fun d hd x hx => ?_⟩
  rw [List.mem_singleton.mp hx]
  exact hdoc d hd

/-- **A safe call** keeps the pairs held and adds the one it accepts. -/
theorem write_safe (hasc : w.Ascending) (hs : w.Safe pair malloc) :
    ∃ rc w', w.write V pair ⟨malloc, 0⟩ = some (rc, w') ∧ w'.Ascending
      ∧ w'.held V = accept (w.held V) pair rc := by
  by_cases hr : w.Rejects pair
  · exact ⟨-1, w, write_of_rejects hr _, hasc, rfl⟩
  · obtain ⟨hterm, hfull⟩ := hs.resolve_left hr
    have ht : pair.term = w.lastPair.term ∨ w.data = [] := hterm.imp_right And.right
    have hheld := pushed_held (V := V) ht
    have hpush := pushed_ascending hasc hr ht
    rw [write_of_old_term hr (hterm.imp_right And.left)]
    by_cases hm : w.maxy ≤ w.data.length + 1
    · rw [if_pos hm]
      have hempty : ∀ w' : IndexWriter, ({ w' with data := [] } : IndexWriter).Ascending :=
        fun w' => ⟨List.Pairwise.nil, fun d hd => absurd hd List.not_mem_nil⟩
      rcases Bool.eq_false_or_eq_true malloc with rfl | rfl
      · obtain ⟨w', hflush, hlog⟩ := flush_held (V := V) (w := w.pushed pair)
          (by simp [IndexWriter.pushed]) hpush.data 0
        refine ⟨0, { w' with data := [] }, by rw [hflush, Option.map_some], hempty w', ?_⟩
        rw [accept, if_neg (by decide), ← hheld, ← hlog]
        exact List.append_nil _
      · -- nothing was buffered, and the pair is not accepted
        have hnil : w.data = [] := (hfull hm).resolve_left (by simp)
        refine ⟨-1, { w.pushed pair with data := [] }, rfl, hempty _, ?_⟩
        rw [accept, if_pos rfl, IndexWriter.held, IndexWriter.held, hnil]
        rfl
    · rw [if_neg hm]
      exact ⟨0, w.pushed pair, rfl, hpush, by rw [accept, if_neg (by decide), hheld]⟩

/-- Documents that were buffered under another term are not held under the new one. -/
theorem held_ne_of_relabel {d : UInt64} {ds : List UInt64} (hd : w.data = d :: ds)
    (ht : pair.term ≠ w.lastPair.term) (rest : List Dt) :
    w.log.flatMap (Call.pairs V) ++ Dt.mk pair.term d :: rest ≠ w.held V ++ [pair] := by
  rw [IndexWriter.held, hd, List.append_assoc]
  intro h
  have hcons := List.append_cancel_left h
  rw [List.map_cons, List.cons_append, List.cons.injEq, Dt.mk.injEq] at hcons
  exact ht hcons.1.1

/-- The first pair of a new term is never stored: the call returns `0` and holds no more than
before. -/
theorem new_term_length_le (hasc : w.Ascending) (hr : ¬ w.Rejects pair)
    (h1 : pair.term ≠ w.lastPair.term) (h2 : w.lastPair.term ≠ 0) {rc : Int32} {w' : IndexWriter}
    (hw : w.write V pair ⟨malloc, 0⟩ = some (rc, w')) :
    rc = 0 ∧ (w'.held V).length ≤ (w.held V).length := by
  rw [write_of_new_term hr h1 h2] at hw
  rcases Bool.eq_false_or_eq_true malloc with rfl | rfl
  · by_cases hd : w.data = []
    · rw [IndexWriter.flush, if_neg (by simp), hd] at hw
      simp at hw
    · obtain ⟨v, hflush, hlog⟩ := flush_held (V := V) hd hasc.data 0
      rw [hflush, Option.map_some, Option.some.injEq, Prod.mk.injEq] at hw
      obtain ⟨rfl, rfl⟩ := hw
      refine ⟨rfl, Nat.le_of_eq ?_⟩
      rw [IndexWriter.held, hlog, List.map_nil, List.append_nil]
  · obtain ⟨rfl, rfl⟩ : 0 = rc ∧ { w with data := [], lastPair := pair } = w' := by
      simpa [IndexWriter.flush] using hw
    refine ⟨rfl, ?_⟩
    rw [IndexWriter.held, IndexWriter.held, List.map_nil, List.append_nil, List.length_append]
    exact Nat.le_add_right _ _

/-- A pair of an old term that goes with documents of another one. -/
theorem mixed_ne (hr : ¬ w.Rejects pair) (h0 : w.lastPair.term = 0)
    (ht : pair.term ≠ w.lastPair.term) (hd : w.data ≠ []) {rc : Int32} {w' : IndexWriter}
    (hm : w.maxy ≤ w.data.length + 1 → malloc = true)
    (hw : w.write V pair ⟨malloc, 0⟩ = some (rc, w')) :
    rc = 0 ∧ w'.held V ≠ w.held V ++ [pair] := by
  obtain ⟨d, ds, hd⟩ := List.exists_cons_of_ne_nil hd
  rw [write_of_old_term hr (Or.inr h0)] at hw
  by_cases hfull : w.maxy ≤ w.data.length + 1
  · rw [if_pos hfull, hm hfull, IndexWriter.flush, if_neg (by simp), IndexWriter.pushed, hd] at hw
    simp only [List.cons_append, Option.map_some, Option.some.injEq, Prod.mk.injEq] at hw
    obtain ⟨rfl, rfl⟩ := hw
    rw [IndexWriter.held, List.map_nil, List.append_nil, List.flatMap_append,
      List.flatMap_singleton]
    exact ⟨rfl, held_ne_of_relabel hd ht _⟩
  · rw [if_neg hfull, Option.some.injEq, Prod.mk.injEq] at hw
    obtain ⟨rfl, rfl⟩ := hw
    rw [IndexWriter.held, IndexWriter.pushed, hd]
    exact ⟨rfl, held_ne_of_relabel hd ht _⟩

/-- A full buffer that could not be flushed is lost. -/
theorem full_ne (hr : ¬ w.Rejects pair)
    (hterm : pair.term = w.lastPair.term ∨ w.lastPair.term = 0)
    (hfull : w.maxy ≤ w.data.length + 1) (hd : w.data ≠ []) {rc : Int32} {w' : IndexWriter}
    (hw : w.write V pair ⟨false, 0⟩ = some (rc, w')) : rc = -1 ∧ w'.held V ≠ w.held V := by
  rw [write_of_old_term hr hterm, if_pos hfull] at hw
  obtain ⟨rfl, rfl⟩ : -1 = rc ∧ { w.pushed pair with data := [] } = w' := by
    simpa [IndexWriter.flush] using hw
  refine ⟨rfl, fun heq => hd ?_⟩
  have hnil : w.data.map (Dt.mk w.lastPair.term) = [] := (List.append_cancel_left heq).symm
  exact List.map_eq_nil_iff.mp hnil

/-- **Any other call** changes the pairs held in some other way. -/
theorem write_unsafe (hasc : w.Ascending) (hs : ¬ w.Safe pair malloc) {rc : Int32}
    {w' : IndexWriter} (hw : w.write V pair ⟨malloc, 0⟩ = some (rc, w')) :
    w'.held V ≠ accept (w.held V) pair rc := by
  rw [IndexWriter.Safe, not_or] at hs
  obtain ⟨hr, hs⟩ := hs
  have hacc : accept (w.held V) pair 0 = w.held V ++ [pair] := if_neg (by decide)
  by_cases hterm : pair.term = w.lastPair.term ∨ w.lastPair.term = 0
  · by_cases hm : w.maxy ≤ w.data.length + 1 → malloc = true
    · -- the pair is stored, so that it must have gone with documents of another term
      have hne : ¬ (pair.term = w.lastPair.term ∨ w.lastPair.term = 0 ∧ w.data = []) :=
        fun h => hs ⟨h, fun hfull => Or.inl (hm hfull)⟩
      rw [not_or, not_and] at hne
      have h0 := hterm.resolve_left hne.1
      obtain ⟨rfl, hheld⟩ := mixed_ne hr h0 hne.1 (hne.2 h0) hm hw
      rw [hacc]
      exact hheld
    · rw [Classical.not_imp, Bool.not_eq_true] at hm
      obtain ⟨hfull, rfl⟩ := hm
      have hd : w.data ≠ [] :=
        fun hd => hs ⟨hterm.imp_right (fun h => ⟨h, hd⟩), fun _ => Or.inr hd⟩
      obtain ⟨rfl, hheld⟩ := full_ne hr hterm hfull hd hw
      rw [accept, if_pos rfl]
      exact hheld
  · rw [not_or] at hterm
    obtain ⟨rfl, hle⟩ := new_term_length_le hasc hr hterm.1 hterm.2 hw
    intro heq
    rw [heq, hacc, List.length_append, List.length_singleton] at hle
    omega

/-! ## Whole runs -/

theorem LosesNothing.held_eq {acc : List Dt} {calls : List (Dt × Bool)}
    (h : LosesNothing V w acc calls) : w.held V = acc := by
  cases calls with
  | nil => exact h
  | cons c calls => exact h.1

/-- From an ascending buffer on, nothing is lost exactly if every call is safe. -/
theorem losesNothing_iff (hasc : w.Ascending) (calls : List (Dt × Bool)) :
    LosesNothing V w (w.held V) calls ↔ AllSafe V w calls := by
  induction calls generalizing w with
  | nil => exact ⟨fun _ => trivial, fun _ => rfl⟩
  | cons c calls ih =>
      obtain ⟨pair, malloc⟩ := c
      -- a safe call goes on as before, and after any other one the pairs held are wrong already
      by_cases hs : w.Safe pair malloc
      · obtain ⟨rc, w', hw, hasc', hheld⟩ := write_safe (V := V) hasc hs
        have hih := ih hasc'
        rw [hheld] at hih
        constructor
        · rintro ⟨-, rc', v, hv, hrest⟩
          rw [hw, Option.some.injEq, Prod.mk.injEq] at hv
          obtain ⟨rfl, rfl⟩ := hv
          refine ⟨hs, fun rc' v hv => ?_⟩
          rw [hw, Option.some.injEq, Prod.mk.injEq] at hv
          rw [← hv.2]
          exact hih.mp hrest
        · rintro ⟨-, hrest⟩
          exact ⟨rfl, rc, w', hw, hih.mpr (hrest rc w' hw)⟩
      · refine iff_of_false ?_ (fun h => hs h.1)
        rintro ⟨-, rc, w', hw, hrest⟩
        exact write_unsafe hasc hs hw hrest.held_eq

theorem init_ascending (maxy : Nat) : (IndexWriter.init maxy).Ascending :=
  ⟨List.Pairwise.nil, fun _ hd => absurd hd List.not_mem_nil⟩

/-- **When the index writer loses nothing**: exactly if every call is safe in the state it is made
in, that is, if no accepted pair comes with another term than the last one, except after the term
`0` with an empty buffer, and no flush of a full buffer fails that had more than the new pair. -/
theorem write_losesNothing_iff (V : Vbyte) (maxy : Nat) (calls : List (Dt × Bool)) :
    LosesNothing V (IndexWriter.init maxy) [] calls ↔ AllSafe V (IndexWriter.init maxy) calls :=
  losesNothing_iff (init_ascending maxy) calls

/-- The second pair starts a new term: the block of the first one is handed over, and the pair is
gone. -/
theorem write_loses_second :
    ¬ LosesNothing Vbyte.plain (IndexWriter.init 9) [] [(⟨1, 1⟩, true), (⟨2, 5⟩, true)] := by
  intro h
  obtain ⟨-, hrest⟩ := (losesNothing_iff (init_ascending 9) _).mp h
  obtain ⟨hsafe, -⟩ := hrest 0 ⟨⟨1, 1⟩, 9, [1], []⟩ rfl
  revert hsafe
  simp [IndexWriter.Safe, IndexWriter.Rejects]

end

end CSearch.Iw
