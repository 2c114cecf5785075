import Mathlib.Tactic
import Mathlib.Data.List.InsertIdx

set_option autoImplicit false

/-! # Arrays: moving and searching

An array of pointers is a list. `memmove` moves a part of it, and has no result when it would
leave the array; `moveFront` is the idiom that takes the first element out, moves the next ones
down and puts it in behind them, which is an insertion into the tail (`moveFront_cons`).

`binarySearch` is the search for the first position at which a comparison comes out true, written
with the bounds `lo`, `hi` and the `probe` as variables of a loop. The comparison may be undefined
outside the array, and the search returns the positions it has compared. `binarySearch_spec` says
what the result has to do with the comparisons made, whatever they were; if they came from a
monotone predicate, the result separates it (`Found.of_monotone`).

A table with a perfect hash is read at one place, and replaces a search through all items
(`getElem?_hash_filter`).
-/

namespace CSearch

section

variable {α : Type}

/-! ## Moving -/

/-- `memmove(&a[dst], &a[src], cnt * sizeof(*a))`. -/
def memmove (a : List α) (dst src cnt : Nat) : Option (List α) :=
  if src + cnt ≤ a.length ∧ dst + cnt ≤ a.length then
    some (a.take dst ++ (a.drop src).take cnt ++ a.drop (dst + cnt))
  else none

/-- `memmove(&a[0], &a[1], cnt * sizeof(*a)); a[cnt] = temp`. -/
def moveFront (a : List α) (temp : α) (cnt : Nat) : Option (List α) :=
  (memmove a 0 1 cnt).map (fun b => b.set cnt temp)

theorem set_take_append_drop (l : List α) (x y : α) (c : Nat) (h : c ≤ l.length) :
    (l.take c ++ (y :: l).drop c).set c x = l.insertIdx c x := by
  induction c generalizing l y with
  | zero => rfl
  | succ c ih =>
      cases l with
      | nil => simp at h
      | cons z l =>
          rw [List.length_cons] at h
          rw [List.insertIdx_succ_cons, ← ih l z (by omega)]
          rfl

/-- The first element is inserted into the rest. -/
theorem moveFront_cons (x : α) (l : List α) (c : Nat) (h : c ≤ l.length) :
    moveFront (x :: l) x c = some (l.insertIdx c x) := by
  have hmem : memmove (x :: l) 0 1 c = some (l.take c ++ (x :: l).drop c) := by
    rw [memmove, if_pos (by rw [List.length_cons]; omega)]
    simp
  rw [moveFront, hmem, Option.map_some, set_take_append_drop l x x c h]

theorem memmove_length {a b : List α} {dst src cnt : Nat} (h : memmove a dst src cnt = some b) :
    b.length = a.length := by
  rw [memmove] at h
  split at h
  · rw [Option.some.injEq] at h
    subst h
    simp only [List.length_append, List.length_take, List.length_drop]
    omega
  · exact absurd h (by simp)

/-- Making room: a part is moved up by one, over the element behind it. -/
theorem memmove_up (l r s : List α) (x y : α) :
    (memmove (l ++ r ++ y :: s) (l.length + 1) l.length r.length).map (fun a => a.set l.length x)
      = some (l ++ x :: r ++ s) := by
  have hdrop : (l ++ (r ++ y :: s)).drop l.length = r ++ y :: s := List.drop_left
  have hmem : memmove (l ++ r ++ y :: s) (l.length + 1) l.length r.length
      = some (l ++ (r ++ y :: s).take 1 ++ r ++ s) := by
    rw [memmove, if_pos (by simp; omega), List.append_assoc l r, hdrop, List.take_left,
      List.take_append, List.take_of_length_le (Nat.le_succ _), Nat.add_sub_cancel_left,
      Nat.add_right_comm, ← List.drop_drop, ← List.drop_drop, hdrop, List.drop_left]
    rfl
  obtain ⟨z, hz⟩ : ∃ z, (r ++ y :: s).take 1 = [z] := by
    cases r with
    | nil => exact ⟨y, rfl⟩
    | cons z r => exact ⟨z, rfl⟩
  rw [hmem, hz, Option.map_some, List.append_assoc, List.append_assoc,
    List.set_append_right _ _ (Nat.le_refl _), Nat.sub_self]
  simp

/-- Closing a gap: a part is moved down by one, over the element in front of it. -/
theorem memmove_down (l r s : List α) (x : α) :
    ∃ y, memmove (l ++ x :: r ++ s) l.length (l.length + 1) r.length = some (l ++ r ++ y :: s) := by
  have hdrop : (l ++ x :: r ++ s).drop (l.length + 1) = r ++ s := by
    rw [List.append_assoc, ← List.drop_drop, List.drop_left]
    rfl
  have hlast : ∃ y, (l ++ x :: r ++ s).drop (l.length + r.length) = y :: s := by
    rw [List.append_assoc, ← List.drop_drop, List.drop_left]
    have hne : (x :: r).drop r.length ≠ [] := by simp
    obtain ⟨y, t, hy⟩ := List.exists_cons_of_ne_nil hne
    have hlen := congrArg List.length hy
    rw [List.length_drop, List.length_cons, List.length_cons] at hlen
    have ht : t = [] := List.length_eq_zero_iff.mp (by omega)
    refine ⟨y, ?_⟩
    rw [List.drop_append_of_le_length (by simp), hy, ht]
    rfl
  obtain ⟨y, hy⟩ := hlast
  refine ⟨y, ?_⟩
  rw [memmove, if_pos (by simp; omega), hdrop, List.take_left, hy, List.append_assoc l (x :: r),
    List.take_left]

/-- Inserting in the middle of two parts. -/
theorem insertIdx_append_length (l r : List α) (x : α) :
    (l ++ r).insertIdx l.length x = l ++ x :: r := by
  induction l with
  | nil => rfl
  | cons a l ih => rw [List.cons_append, List.length_cons, List.insertIdx_succ_cons, ih]; rfl

theorem insertIdx_append_left (l r : List α) (x : α) (c : Nat) (h : c ≤ l.length) :
    (l ++ r).insertIdx c x = l.insertIdx c x ++ r := by
  induction l generalizing c with
  | nil =>
      rw [List.length_nil, Nat.le_zero] at h
      subst h
      rfl
  | cons a l ih =>
      cases c with
      | zero => rfl
      | succ c =>
          rw [List.length_cons] at h
          rw [List.cons_append, List.insertIdx_succ_cons, List.insertIdx_succ_cons,
            ih c (by omega), List.cons_append]

/-- An insertion keeps an order exactly if it is at a place that fits. -/
theorem pairwise_insertIdx {r : α → α → Prop} (l : List α) (x : α) (c : Nat) (h : c ≤ l.length) :
    (l.insertIdx c x).Pairwise r
      ↔ l.Pairwise r ∧ ∀ p y, l[p]? = some y → (p < c → r y x) ∧ (c ≤ p → r x y) := by
  induction l generalizing c with
  | nil =>
      rw [List.length_nil, Nat.le_zero] at h
      subst h
      simp
  | cons a l ih =>
      cases c with
      | zero =>
          -- in front of the list: `x` is related to everything
          rw [List.insertIdx_zero, List.pairwise_cons, and_comm]
          refine and_congr_right (fun _ => ?_)
          constructor
          · intro hx p y hp
            exact ⟨fun hlt => absurd hlt (Nat.not_lt_zero p),
              fun _ => hx y (List.mem_of_getElem? hp)⟩
          · intro hall y hy
            obtain ⟨p, hp⟩ := List.mem_iff_getElem?.mp hy
            exact (hall p y hp).2 (Nat.zero_le p)
      | succ c =>
          rw [List.length_cons] at h
          have hc : c ≤ l.length := by omega
          -- behind the head `a`, which is then related to `x` as position `0`
          rw [List.insertIdx_succ_cons, List.pairwise_cons, List.pairwise_cons, ih c hc]
          constructor
          · rintro ⟨ha, hl, hx⟩
            refine ⟨⟨fun y hy => ha y ((List.mem_insertIdx hc).mpr (Or.inr hy)), hl⟩, ?_⟩
            intro p y hp
            cases p with
            | zero =>
                rw [List.getElem?_cons_zero, Option.some.injEq] at hp
                subst hp
                exact ⟨fun _ => ha x ((List.mem_insertIdx hc).mpr (Or.inl rfl)),
                  fun hle => absurd hle (by omega)⟩
            | succ p =>
                have := hx p y hp
                exact ⟨fun hlt => this.1 (by omega), fun hle => this.2 (by omega)⟩
          · rintro ⟨⟨ha, hl⟩, hx⟩
            refine ⟨fun y hy => ?_, hl, fun p y hp => ?_⟩
            · rcases (List.mem_insertIdx hc).mp hy with rfl | hy
              · exact (hx 0 a rfl).1 (by omega)
              · exact ha y hy
            · have := hx (p + 1) y hp
              exact ⟨fun hlt => this.1 (by omega), fun hle => this.2 (by omega)⟩

end

/-! ## Elements of several bytes

The memory of an array is the concatenation of the representations of its elements, which have all
the same width. -/

section

variable {α β : Type} {enc : α → List β} {w : Nat}

theorem length_flatMap_width (hw : ∀ a, (enc a).length = w) (l : List α) :
    (l.flatMap enc).length = w * l.length := by
  induction l with
  | nil => rfl
  | cons a l ih =>
      rw [List.flatMap_cons, List.length_append, hw, ih, List.length_cons, Nat.mul_succ,
        Nat.add_comm]

theorem take_flatMap_width (hw : ∀ a, (enc a).length = w) (l : List α) (k : Nat) :
    (l.flatMap enc).take (w * k) = (l.take k).flatMap enc := by
  induction l generalizing k with
  | nil => simp
  | cons a l ih =>
      cases k with
      | zero => simp
      | succ k =>
          rw [List.flatMap_cons, List.take_succ_cons, List.flatMap_cons, ← ih k, Nat.mul_succ,
            Nat.add_comm, List.take_append, hw, Nat.add_sub_cancel_left,
            List.take_of_length_le (by rw [hw]; exact Nat.le_add_right w _)]

theorem drop_flatMap_width (hw : ∀ a, (enc a).length = w) (l : List α) (k : Nat) :
    (l.flatMap enc).drop (w * k) = (l.drop k).flatMap enc := by
  induction l generalizing k with
  | nil => simp
  | cons a l ih =>
      cases k with
      | zero => simp
      | succ k =>
          rw [List.flatMap_cons, List.drop_succ_cons, ← ih k, Nat.mul_succ, Nat.add_comm,
            List.drop_append, hw, Nat.add_sub_cancel_left,
            List.drop_of_length_le (by rw [hw]; exact Nat.le_add_right w _), List.nil_append]

/-- Moving elements is moving their bytes. -/
theorem memmove_flatMap (hw : ∀ a, (enc a).length = w) {a b : List α} {dst src cnt : Nat}
    (h : memmove a dst src cnt = some b) :
    memmove (a.flatMap enc) (w * dst) (w * src) (w * cnt) = some (b.flatMap enc) := by
  rw [memmove] at h
  split at h
  · rename_i hle
    rw [Option.some.injEq] at h
    subst h
    rw [memmove, length_flatMap_width hw, ← Nat.mul_add, ← Nat.mul_add,
      if_pos ⟨Nat.mul_le_mul_left w hle.1, Nat.mul_le_mul_left w hle.2⟩,
      take_flatMap_width hw, drop_flatMap_width hw, drop_flatMap_width hw, take_flatMap_width hw,
      List.flatMap_append, List.flatMap_append]
  · exact absurd h (by simp)

end

/-! ## Searching -/

/-- The loop `while (lo < hi) { if (le(probe)) hi = probe; else lo = probe + 1;
probe = (lo + hi) / 2; }`: the final `lo` and the positions compared. -/
def binarySearch (le : Nat → Option Bool) : Nat → Nat → Nat → Nat → Option (Nat × List Nat)
  | 0, _, _, _ => none
  | fuel + 1, lo, hi, probe =>
      if lo < hi then
        (le probe).bind fun b =>
          (if b then binarySearch le fuel lo probe ((lo + probe) / 2)
            else binarySearch le fuel (probe + 1) hi ((probe + 1 + hi) / 2)).map
            fun r => (r.1, probe :: r.2)
      else some (lo, [])

/-- What a search between `lo` and `hi` has found, in terms of the comparisons `b` it has made at
the positions `ps`. -/
structure Found (b : Nat → Bool) (lo hi r : Nat) (ps : List Nat) : Prop where
  lo_le : lo ≤ r
  le_hi : r ≤ hi
  mem : ∀ p ∈ ps, lo ≤ p ∧ p < hi
  of_true : ∀ p ∈ ps, b p = true → r ≤ p
  of_false : ∀ p ∈ ps, b p = false → p < r
  above : r < hi → r ∈ ps ∧ b r = true
  below : lo < r → r - 1 ∈ ps ∧ b (r - 1) = false

/-- An empty range is searched without a comparison. -/
theorem Found.empty (b : Nat → Bool) {lo hi : Nat} (hle : lo ≤ hi) (h : ¬ lo < hi) :
    Found b lo hi lo [] := by
  refine ⟨le_rfl, hle, ?_, ?_, ?_, fun h' => absurd h' h, fun h' => absurd h' (lt_irrefl lo)⟩
  all_goals simp

/-- A true comparison: the search goes on below it, and the probe may be the result. -/
theorem Found.probe_true {b : Nat → Bool} {lo hi probe r : Nat} {ps : List Nat}
    (hf : Found b lo probe r ps) (h1 : lo ≤ probe) (h2 : probe < hi) (hb : b probe = true) :
    Found b lo hi r (probe :: ps) := by
  refine ⟨hf.lo_le, hf.le_hi.trans h2.le, ?_, ?_, ?_, fun _ => ?_, fun hr => ?_⟩
  · rw [List.forall_mem_cons]
    exact ⟨⟨h1, h2⟩, fun p hp => ⟨(hf.mem p hp).1, (hf.mem p hp).2.trans h2⟩⟩
  · rw [List.forall_mem_cons]
    exact ⟨fun _ => hf.le_hi, hf.of_true⟩
  · rw [List.forall_mem_cons, hb]
    exact ⟨fun h => absurd h (by simp), hf.of_false⟩
  · -- either the search below has found a true comparison, or it ended at the probe
    rcases Nat.lt_or_ge r probe with hr | hr
    · exact ⟨List.mem_cons_of_mem _ (hf.above hr).1, (hf.above hr).2⟩
    · have hr' : r = probe := Nat.le_antisymm hf.le_hi hr
      rw [hr']
      exact ⟨List.mem_cons_self, hb⟩
  · exact ⟨List.mem_cons_of_mem _ (hf.below hr).1, (hf.below hr).2⟩

/-- A false comparison: the search goes on behind it, and the result may be the next position. -/
theorem Found.probe_false {b : Nat → Bool} {lo hi probe r : Nat} {ps : List Nat}
    (hf : Found b (probe + 1) hi r ps) (h1 : lo ≤ probe) (h2 : probe < hi)
    (hb : b probe = false) : Found b lo hi r (probe :: ps) := by
  have hlo := hf.lo_le
  refine ⟨by omega, hf.le_hi, ?_, ?_, ?_, fun hr => ?_, fun _ => ?_⟩
  · rw [List.forall_mem_cons]
    refine ⟨⟨h1, h2⟩, fun p hp => ⟨?_, (hf.mem p hp).2⟩⟩
    have := (hf.mem p hp).1
    omega
  · rw [List.forall_mem_cons, hb]
    exact ⟨fun h => absurd h (by simp), hf.of_true⟩
  · rw [List.forall_mem_cons]
    exact ⟨fun _ => by omega, hf.of_false⟩
  · exact ⟨List.mem_cons_of_mem _ (hf.above hr).1, (hf.above hr).2⟩
  · -- either the search behind has found a false comparison, or the probe is the last one
    rcases Nat.lt_or_ge (probe + 1) r with hr | hr
    · exact ⟨List.mem_cons_of_mem _ (hf.below hr).1, (hf.below hr).2⟩
    · have hr' : r - 1 = probe := by omega
      rw [hr']
      exact ⟨List.mem_cons_self, hb⟩

/-- The search returns, compares only positions between its bounds, and its result is just behind
a comparison that was false and at one that was true. -/
theorem binarySearch_spec {le : Nat → Option Bool} {b : Nat → Bool} (fuel lo hi probe : Nat)
    (hle : lo ≤ hi) (hprobe : lo < hi → lo ≤ probe ∧ probe < hi) (hfuel : hi - lo < fuel)
    (hb : ∀ p, lo ≤ p → p < hi → le p = some (b p)) :
    ∃ r ps, binarySearch le fuel lo hi probe = some (r, ps) ∧ Found b lo hi r ps := by
  -- on the fuel, which bounds the length of the range
  induction fuel generalizing lo hi probe with
  | zero => omega
  | succ fuel ih =>
      rw [binarySearch]
      by_cases hlt : lo < hi
      · obtain ⟨h1, h2⟩ := hprobe hlt
        rw [if_pos hlt, hb probe h1 h2, Option.bind_some]
        cases hbp : b probe with
        | true =>
            obtain ⟨r, ps, heq, hf⟩ := ih lo probe ((lo + probe) / 2) h1 (by omega) (by omega)
              (fun p hp hp' => hb p hp (by omega))
            exact ⟨r, probe :: ps, by rw [if_pos rfl, heq]; rfl, hf.probe_true h1 h2 hbp⟩
        | false =>
            obtain ⟨r, ps, heq, hf⟩ := ih (probe + 1) hi ((probe + 1 + hi) / 2) h2 (by omega)
              (by omega) (fun p hp hp' => hb p (by omega) hp')
            exact ⟨r, probe :: ps, by rw [if_neg (by simp), heq]; rfl, hf.probe_false h1 h2 hbp⟩
      · rw [if_neg hlt]
        exact ⟨lo, [], rfl, Found.empty b hle hlt⟩

/-- If the comparisons agree with a predicate that stays true once it is, the result separates that
predicate. -/
theorem Found.of_monotone {b c : Nat → Bool} {lo hi r : Nat} {ps : List Nat}
    (hf : Found b lo hi r ps) (hagree : ∀ p ∈ ps, b p = c p)
    (hmono : ∀ p q, lo ≤ p → p ≤ q → q < hi → c p = true → c q = true) :
    ∀ p, lo ≤ p → p < hi → (p < r → c p = false) ∧ (r ≤ p → c p = true) := by
  intro p hlo hhi
  constructor
  · intro hp
    obtain ⟨hmem, hfalse⟩ := hf.below (by omega)
    rw [hagree _ hmem] at hfalse
    by_contra hc
    have hle := hf.le_hi
    have := hmono p (r - 1) hlo (by omega) (by omega) (by simpa using hc)
    rw [hfalse] at this
    exact absurd this (by simp)
  · intro hp
    obtain ⟨hmem, htrue⟩ := hf.above (by omega)
    rw [hagree _ hmem] at htrue
    exact hmono r p hf.lo_le hp hhi htrue

/-! ## Insertion at the place found -/

section

variable {α : Type} {r : α → α → Prop}

/-- The comparison of `y` with the entry before position `p` of a list. -/
def compareWith (le : α → α → Bool) (y : α) (ws : List α) (p : Nat) : Bool :=
  (ws[p - 1]?.map (le y)).getD false

theorem compareWith_of_some {le : α → α → Bool} {y w : α} {ws : List α} {p : Nat}
    (h : ws[p - 1]? = some w) : compareWith le y ws p = le y w := by
  rw [compareWith, h]
  rfl

/-- Entries of an ordered list, with the relation extended to equal positions. -/
theorem pairwise_of_le {ws : List α} (h : ws.Pairwise r) {p q : Nat} {v w : α} (hpq : p < q)
    (hv : ws[p]? = some v) (hw : ws[q]? = some w) : r v w := by
  obtain ⟨hp, rfl⟩ := List.getElem?_eq_some_iff.mp hv
  obtain ⟨hq, rfl⟩ := List.getElem?_eq_some_iff.mp hw
  exact List.pairwise_iff_getElem.mp h p q hp hq hpq

/-- In an ordered list a comparison that is kept by the order stays true once it is. -/
theorem compareWith_mono {le : α → α → Bool} {y : α} {ws : List α} (hws : ws.Pairwise r)
    (h : ∀ v w, r v w → le y v = true → le y w = true) {p q : Nat} (h1 : 1 ≤ p) (hpq : p ≤ q)
    (hq : q < ws.length + 1) (hp : compareWith le y ws p = true) :
    compareWith le y ws q = true := by
  rcases Nat.lt_or_ge p q with hlt | hge
  · obtain ⟨v, hv⟩ : ∃ v, ws[p - 1]? = some v := ⟨_, List.getElem?_eq_getElem (by omega)⟩
    obtain ⟨w, hw⟩ : ∃ w, ws[q - 1]? = some w := ⟨_, List.getElem?_eq_getElem (by omega)⟩
    rw [compareWith_of_some hv] at hp
    rw [compareWith_of_some hw]
    exact h v w (pairwise_of_le hws (by omega) hv hw) hp
  · rwa [← Nat.le_antisymm hpq hge]

/-- **Insertion by binary search.** An element is put into an ordered list at the place that a
search with the comparison `le` has found. The list is in order afterwards exactly if every
comparison the search has made agrees with the order. -/
theorem Found.insertIdx_pairwise_iff [IsTrans α r] {le : α → α → Bool}
    (htotal : ∀ a b, r a b ∨ r b a) (hle : ∀ a b, r a b → r b a → le a b = true)
    {ws : List α} {y : α} {c : Nat} {ps : List Nat}
    (hf : Found (compareWith le y ws) 1 (ws.length + 1) (c + 1) ps) (hws : ws.Pairwise r) :
    (ws.insertIdx c y).Pairwise r
      ↔ ∀ p ∈ ps, ∀ w, ws[p - 1]? = some w → (le y w = true ↔ r y w) := by
  have hc : c ≤ ws.length := by have := hf.le_hi; omega
  rw [pairwise_insertIdx ws y c hc]
  constructor
  · rintro ⟨-, hall⟩ p hp w hw
    have hp1 := (hf.mem p hp).1
    constructor
    · intro h
      have := hf.of_true p hp (by rw [compareWith_of_some hw]; exact h)
      exact (hall (p - 1) w hw).2 (by omega)
    · intro h
      by_contra hfalse
      have := hf.of_false p hp (by rw [compareWith_of_some hw]; simpa using hfalse)
      exact hfalse (hle y w h ((hall (p - 1) w hw).1 (by omega)))
  · intro hagree
    classical
    refine ⟨hws, ?_⟩
    -- the search has compared as the order does, so its result separates the order
    have hsep := hf.of_monotone (c := compareWith (fun a b => decide (r a b)) y ws) ?_ ?_
    · intro p w hw
      have hlt : p < ws.length := (List.getElem?_eq_some_iff.mp hw).1
      have h := hsep (p + 1) (by omega) (by omega)
      rw [compareWith_of_some (show ws[p + 1 - 1]? = some w from hw)] at h
      simp only [decide_eq_false_iff_not, decide_eq_true_eq] at h
      exact ⟨fun hpc => (htotal w y).resolve_right (h.1 (by omega)), fun hpc => h.2 (by omega)⟩
    · intro p hp
      obtain ⟨h1, h2⟩ := hf.mem p hp
      obtain ⟨w, hw⟩ : ∃ w, ws[p - 1]? = some w := ⟨_, List.getElem?_eq_getElem (by omega)⟩
      rw [compareWith_of_some hw, compareWith_of_some hw, Bool.eq_iff_iff, decide_eq_true_eq]
      exact hagree p hp w hw
    · intro p q h1 hpq hq
      refine compareWith_mono hws (fun v w hvw hy => ?_) h1 hpq hq
      rw [decide_eq_true_eq] at hy ⊢
      exact IsTrans.trans _ _ _ hy hvw

/-- An insertion behind the entries with a property, in a list that has them in front. -/
theorem insertIdx_eq_takeWhile {q : α → Bool} {l : List α} {c : Nat} (x : α) (hc : c ≤ l.length)
    (h : ∀ p y, l[p]? = some y → (q y = true ↔ p < c)) :
    l.insertIdx c x = l.takeWhile q ++ x :: l.dropWhile q := by
  induction l generalizing c with
  | nil =>
      rw [List.length_nil, Nat.le_zero] at hc
      subst hc
      rfl
  | cons a l ih =>
      cases c with
      | zero =>
          have ha : ¬ q a = true := fun h' => absurd ((h 0 a rfl).mp h') (Nat.lt_irrefl 0)
          rw [List.insertIdx_zero, List.takeWhile_cons_of_neg ha, List.dropWhile_cons_of_neg ha]
          rfl
      | succ c =>
          have ha : q a = true := (h 0 a rfl).mpr (Nat.succ_pos c)
          have htail : ∀ p y, l[p]? = some y → (q y = true ↔ p < c) := by
            intro p y hp
            rw [h (p + 1) y hp, Nat.succ_lt_succ_iff]
          rw [List.insertIdx_succ_cons, List.takeWhile_cons_of_pos ha,
            List.dropWhile_cons_of_pos ha, ih (Nat.le_of_succ_le_succ hc) htail]
          rfl

/-- The search with the comparison of keys finds the place behind the smaller ones. -/
theorem Found.lt_iff {key : α → Nat} {le : α → α → Bool}
    (hle : ∀ a b, le a b = decide (key a ≤ key b)) {ws : List α} {y : α} {c : Nat} {ps : List Nat}
    (hf : Found (compareWith le y ws) 1 (ws.length + 1) (c + 1) ps)
    (hws : ws.Pairwise (fun a b => key a ≤ key b)) {p : Nat} {w : α} (hw : ws[p]? = some w) :
    key w < key y ↔ p < c := by
  have hlt : p < ws.length := (List.getElem?_eq_some_iff.mp hw).1
  have hsep := hf.of_monotone (fun _ _ => rfl) ?_ (p + 1) (by omega) (by omega)
  · rw [compareWith_of_some (show ws[p + 1 - 1]? = some w from hw), hle] at hsep
    simp only [decide_eq_false_iff_not, decide_eq_true_eq] at hsep
    constructor
    · intro hkey
      by_contra hp
      have := hsep.2 (by omega)
      omega
    · intro hp
      have := hsep.1 (by omega)
      omega
  · intro p q h1 hpq hq
    refine compareWith_mono hws (fun v w hvw hy => ?_) h1 hpq hq
    rw [hle, decide_eq_true_eq] at hy ⊢
    exact hy.trans hvw

end

/-! ## Searching from the front -/

/-- The elements in front of the first that fails a test, and the list from there on. -/
theorem exists_takeWhile_append {α : Type} (p : α → Bool) (l : List α) :
    ∃ rest, l = l.takeWhile p ++ rest ∧ ∀ x, rest.head? = some x → p x = false := by
  refine ⟨l.dropWhile p, List.takeWhile_append_dropWhile.symm, ?_⟩
  intro x hx
  have hhead := List.head?_dropWhile_not p l
  rw [hx] at hhead
  simpa using hhead

/-! ## Perfect hashing -/

/-- A table that has each item where its key is hashed to. What stands at the place of a key, if it has
this key, is what a search through the items finds. -/
theorem getElem?_hash_filter {κ τ : Type} [DecidableEq κ] {hash : κ → Nat} {key : τ → κ}
    {table items : List τ} (hitems : ∀ t ∈ items, table[hash (key t)]? = some t) {k : κ}
    (htable : ∀ t ∈ table, key t = k → t ∈ items) :
    (table[hash k]?).filter (fun t => key t = k) = items.find? (fun t => key t = k) := by
  cases hfind : items.find? (fun t => key t = k) with
  | some t =>
      have hdec := List.find?_some hfind
      have hkey : key t = k := of_decide_eq_true hdec
      have hat := hitems t (List.mem_of_find?_eq_some hfind)
      rw [hkey] at hat
      rw [hat]
      exact Option.filter_some_pos (decide_eq_true hkey)
  | none =>
      rw [Option.filter_eq_none_iff]
      intro t hat hkey
      have hmem := htable t (List.mem_of_getElem? hat) (of_decide_eq_true hkey)
      exact List.find?_eq_none.mp hfind t hmem hkey

end CSearch
