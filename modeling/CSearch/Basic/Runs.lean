import Mathlib.Tactic

set_option autoImplicit false

/-! # Places in a sequence of inputs

What a component does with an input often depends on the inputs before it. `AtEach P l` says that
`P` holds at every place of the list `l`, of the inputs before the place and the input there. It can
be unfolded from either end (`atEach_cons`, `atEach_concat`), as a run of the component is.

`lastRun key l` is the number of inputs at the end of `l` with the same key, `trailing p l` the
number of those with the property `p`. `forall_mem_concat` is for what is kept by one input more.

A component may come back to a state from which it starts anew. If the inputs that bring it back are
known (`FirstWith P`: the first prefix with the property `P` is all of them), then it is back after
a sequence of inputs exactly if the sequence consists of such pieces (`foldl_restart_iff`).

A component may also fail. `Meets R bad` relates what a computation has come to, a state or a
failure, to a state of an abstract component that goes on in any case; such computations are put
together with `Meets.bind`.
-/

namespace CSearch

section

variable {α κ : Type}

/-- `P` holds at every place of the list. -/
def AtEach (P : List α → α → Prop) (l : List α) : Prop :=
  ∀ pre x post, l = pre ++ x :: post → P pre x

theorem atEach_nil (P : List α → α → Prop) : AtEach P [] := by
  intro pre x post h
  exact absurd h.symm (by simp)

theorem atEach_cons (P : List α → α → Prop) (x : α) (l : List α) :
    AtEach P (x :: l) ↔ P [] x ∧ AtEach (fun pre => P (x :: pre)) l := by
  constructor
  · intro h
    refine ⟨h [] x l rfl, fun pre y post hl => ?_⟩
    apply h (x :: pre) y post
    rw [hl, List.cons_append]
  · rintro ⟨h0, h⟩ pre y post hl
    cases pre with
    | nil =>
        rw [List.nil_append, List.cons.injEq] at hl
        rw [← hl.1]
        exact h0
    | cons z pre =>
        rw [List.cons_append, List.cons.injEq] at hl
        rw [← hl.1]
        exact h pre y post hl.2

theorem atEach_concat (P : List α → α → Prop) (l : List α) (x : α) :
    AtEach P (l ++ [x]) ↔ AtEach P l ∧ P l x := by
  induction l generalizing P with
  | nil =>
      rw [List.nil_append, atEach_cons]
      exact ⟨fun h => ⟨atEach_nil P, h.1⟩, fun h => ⟨h.2, atEach_nil _⟩⟩
  | cons y l ih => rw [List.cons_append, atEach_cons, atEach_cons, ih, and_assoc]

theorem forall_mem_concat {P : α → Prop} {l : List α} {x : α} :
    (∀ y ∈ l ++ [x], P y) ↔ (∀ y ∈ l, P y) ∧ P x := by
  rw [List.forall_mem_append, List.forall_mem_singleton]

/-! ## Failing -/

section

variable {σ τ : Type} {R : σ → τ → Prop} {bad : τ → Prop}

/-- A state that is related to the abstract one by `R`, or a failure where the abstract one is
`bad`. -/
def Meets (R : σ → τ → Prop) (bad : τ → Prop) : Option σ → τ → Prop
  | some a, t => R a t
  | none, t => bad t

/-- One computation after the other, with another relation behind it. What was bad stays bad. -/
theorem Meets.bind {σ' : Type} {R' : σ' → τ → Prop} {bad' : τ → Prop} {o : Option σ}
    {k : σ → Option σ'} {t t' : τ} (h : Meets R bad o t)
    (hk : ∀ a, R a t → Meets R' bad' (k a) t') (hbad : bad t → bad' t') :
    Meets R' bad' (o.bind k) t' := by
  cases o with
  | none => exact hbad h
  | some a => exact hk a h

theorem Meets.map {o : Option σ} {k : σ → σ} {t t' : τ} (h : Meets R bad o t)
    (hk : ∀ a, R a t → R (k a) t') (hbad : bad t → bad t') : Meets R bad (o.map k) t' := by
  cases o with
  | none => exact hbad h
  | some a => exact hk a h

/-- Where the abstract state is not bad, the computation has a result. -/
theorem Meets.exists_of_not {o : Option σ} {t : τ} (h : Meets R bad o t) (hnot : ¬ bad t) :
    ∃ a, o = some a ∧ R a t := by
  cases o with
  | none => exact absurd h hnot
  | some a => exact ⟨a, rfl, h⟩

end

/-! ## Starting anew -/

/-- The list has the property `P`, and no proper prefix of it has. -/
def FirstWith (P : List α → Prop) (l : List α) : Prop := P l ∧ ∀ p, p <+: l → P p → p = l

/-- If some prefix has the property, there is a first one. -/
theorem exists_firstWith {P : List α → Prop} {l : List α} (h : P l) :
    ∃ p rest, l = p ++ rest ∧ FirstWith P p := by
  classical
  have hex : ∃ n, P (l.take n) := ⟨l.length, by rwa [List.take_length]⟩
  refine ⟨l.take (Nat.find hex), l.drop (Nat.find hex), (List.take_append_drop _ _).symm,
    Nat.find_spec hex, fun p hp hP => ?_⟩
  -- a prefix of the shortest one is a shorter one, if it is proper
  have hle : p.length ≤ (l.take (Nat.find hex)).length := hp.length_le
  have heq : p = l.take p.length := List.prefix_iff_eq_take.mp (hp.trans (List.take_prefix _ _))
  have hmin := Nat.find_min' hex (heq ▸ hP)
  rw [List.length_take] at hle
  exact hp.eq_of_length_le (by rw [List.length_take]; omega)

/-- **Starting anew.** From every state in `E`, as long as no proper prefix of the inputs has the
property `P`, the component is in `E` again exactly if the inputs have it. Then it is in `E` after a
sequence of inputs exactly if that consists of pieces that have `P` for the first time. -/
theorem foldl_restart_iff {σ : Type} {step : σ → α → σ} {E : σ → Prop} {P : List α → Prop}
    (hnil : ¬ P [])
    (h : ∀ s, E s → ∀ l, l ≠ [] → (∀ p, p <+: l → P p → p = l) → (E (l.foldl step s) ↔ P l))
    {s : σ} (hs : E s) (l : List α) :
    E (l.foldl step s) ↔ ∃ ps : List (List α), (∀ p ∈ ps, FirstWith P p) ∧ ps.flatten = l := by
  have hback : ∀ s, E s → ∀ p, FirstWith P p → E (p.foldl step s) := by
    intro s hs p hp
    have hne : p ≠ [] := fun h' => hnil (h' ▸ hp.1)
    exact (h s hs p hne hp.2).mpr hp.1
  constructor
  · intro hE
    -- on the number of inputs: the first piece is taken off
    generalize hn : l.length = n
    induction n using Nat.strong_induction_on generalizing l s with
    | _ n ih =>
        by_cases hl : l = []
        · exact ⟨[], by simp, hl.symm⟩
        · have hpre : ∃ q, q <+: l ∧ P q := by
            by_contra hnone
            have hno : ∀ q, q <+: l → ¬ P q := fun q hq hP => hnone ⟨q, hq, hP⟩
            exact hno l (List.prefix_refl l)
              ((h s hs l hl (fun p hp hP => absurd hP (hno p hp))).mp hE)
          obtain ⟨q, ⟨post, rfl⟩, hq⟩ := hpre
          obtain ⟨p, rest, rfl, hp⟩ := exists_firstWith hq
          have hne : 0 < p.length :=
            List.length_pos_iff.mpr (fun h' => hnil (h' ▸ hp.1))
          rw [List.append_assoc, List.foldl_append] at hE
          rw [List.append_assoc, List.length_append] at hn
          obtain ⟨ps, hps, hflat⟩ := ih _ (by omega) (hback s hs p hp) (rest ++ post) hE rfl
          refine ⟨p :: ps, List.forall_mem_cons.mpr ⟨hp, hps⟩, ?_⟩
          rw [List.flatten_cons, hflat, List.append_assoc]
  · rintro ⟨ps, hps, rfl⟩
    induction ps generalizing s with
    | nil => exact hs
    | cons p ps ih =>
        obtain ⟨hp, hps⟩ := List.forall_mem_cons.mp hps
        rw [List.flatten_cons, List.foldl_append]
        exact ih (hback s hs p hp) hps

/-! ## Runs at the end -/

/-- The number of elements at the end of the list with the property `p`. -/
def trailing (p : α → Bool) (l : List α) : Nat := (l.reverse.takeWhile p).length

theorem trailing_concat_of_pos {p : α → Bool} {x : α} (h : p x = true) (l : List α) :
    trailing p (l ++ [x]) = trailing p l + 1 := by
  simp [trailing, h]

theorem trailing_concat_of_neg {p : α → Bool} {x : α} (h : p x = false) (l : List α) :
    trailing p (l ++ [x]) = 0 := by
  simp [trailing, h]

/-- The last piece of a list, if it is not empty, ends with the last element. -/
theorem concat_eq_append {l pre post : List α} {x : α} (h : l ++ [x] = pre ++ post)
    (hpost : post ≠ []) : ∃ mid, post = mid ++ [x] ∧ l = pre ++ mid := by
  obtain ⟨mid, y, rfl⟩ := (List.eq_nil_or_concat' post).resolve_left hpost
  rw [← List.append_assoc] at h
  obtain ⟨hl, hx⟩ := List.append_inj' h rfl
  exact ⟨mid, by rw [List.singleton_inj.mp hx], hl⟩

/-- That many elements at the end have the property. -/
theorem le_trailing_iff (p : α → Bool) (l : List α) (n : Nat) :
    n ≤ trailing p l ↔ ∃ pre post, l = pre ++ post ∧ post.length = n ∧ ∀ x ∈ post, p x = true := by
  induction l using List.reverseRecOn generalizing n with
  | nil =>
      constructor
      · intro h
        exact ⟨[], [], rfl, (Nat.le_zero.mp h).symm, by simp⟩
      · rintro ⟨pre, post, hl, rfl, -⟩
        rw [(List.append_eq_nil_iff.mp hl.symm).2]
        exact Nat.zero_le _
  | append_singleton l x ih =>
      cases n with
      | zero => exact iff_of_true (Nat.zero_le _) ⟨l ++ [x], [], by simp, rfl, by simp⟩
      | succ n =>
          cases hx : p x with
          | true =>
              rw [trailing_concat_of_pos hx, Nat.succ_le_succ_iff, ih]
              constructor
              · rintro ⟨pre, post, rfl, hlen, hall⟩
                refine ⟨pre, post ++ [x], by simp, by simp [hlen], ?_⟩
                exact forall_mem_concat.mpr ⟨hall, hx⟩
              · rintro ⟨pre, post, hl, hlen, hall⟩
                obtain ⟨mid, rfl, hmid⟩ := concat_eq_append hl (List.ne_nil_of_length_eq_add_one hlen)
                exact ⟨pre, mid, hmid, by simpa using hlen, (forall_mem_concat.mp hall).1⟩
          | false =>
              rw [trailing_concat_of_neg hx]
              refine iff_of_false (Nat.not_succ_le_zero n) ?_
              rintro ⟨pre, post, hl, hlen, hall⟩
              obtain ⟨mid, rfl, -⟩ := concat_eq_append hl (List.ne_nil_of_length_eq_add_one hlen)
              rw [(forall_mem_concat.mp hall).2] at hx
              exact absurd hx (by simp)

variable [DecidableEq κ]

/-- The number of elements at the end of the list that have the key of the last one. -/
def lastRun (key : α → κ) (l : List α) : Nat :=
  (l.reverse.takeWhile (fun x => decide (l.getLast?.map key = some (key x)))).length

theorem lastRun_le_length (key : α → κ) (l : List α) : lastRun key l ≤ l.length := by
  have h := (List.takeWhile_prefix
    (fun x => decide (l.getLast?.map key = some (key x))) (l := l.reverse)).length_le
  rwa [List.length_reverse] at h

theorem lastRun_pos (key : α → κ) {l : List α} (h : l ≠ []) : 0 < lastRun key l := by
  obtain ⟨l, x, rfl⟩ := (List.eq_nil_or_concat' l).resolve_left h
  simp [lastRun]

theorem lastRun_concat_of_eq {key : α → κ} {l : List α} {x : α}
    (h : l.getLast?.map key = some (key x)) : lastRun key (l ++ [x]) = lastRun key l + 1 := by
  simp [lastRun, h]

theorem lastRun_concat_of_ne {key : α → κ} {l : List α} {x : α}
    (h : l.getLast?.map key ≠ some (key x)) : lastRun key (l ++ [x]) = 1 := by
  -- in the reversed list the run of `x` ends at the last element of `l`
  have hrest : l.reverse.takeWhile (fun y => decide (key x = key y)) = [] := by
    cases hr : l.reverse with
    | nil => rfl
    | cons y ys =>
        have hy : l.getLast? = some y := by rw [List.getLast?_eq_head?_reverse, hr, List.head?_cons]
        rw [hy, Option.map_some] at h
        apply List.takeWhile_cons_of_neg
        simpa using fun h' : key x = key y => h (by rw [h'])
  simp [lastRun, hrest]

end

end CSearch
