import Mathlib.Data.List.Basic
import Mathlib.Data.Nat.ModEq

set_option autoImplicit false

/-! # Tickets handed back in order

Threads take the tickets `0, 1, 2, …` of a turnstile, each for an item, and hand them back in the
same order. `claims` is the list of all tickets taken so far, `done` the number of those handed back.
A ticket that has been taken and not handed back is *held* (`Held`), by one thread only.

If at most `n` tickets are of interest at a time, a ticket is known from its remainder modulo `n`
(`eq_of_mod_eq`). This is what a ring of `n` slots relies on.
-/

namespace CSearch

/-- Among `n` consecutive numbers each is known from its remainder. -/
theorem eq_of_mod_eq {n l a b : Nat} (hla : l ≤ a) (ha : a < l + n) (hlb : l ≤ b)
    (hb : b < l + n) (h : a % n = b % n) : a = b := by
  rcases Nat.le_total a b with hab | hab
  · have hdvd : n ∣ b - a := (Nat.modEq_iff_dvd' hab).mp h
    have := Nat.eq_zero_of_dvd_of_lt hdvd (by omega)
    omega
  · have hdvd : n ∣ a - b := (Nat.modEq_iff_dvd' hab).mp h.symm
    have := Nat.eq_zero_of_dvd_of_lt hdvd (by omega)
    omega

/-- The tickets taken so far, with the thread and the item, and how many were handed back. -/
structure Turnstile (ι β : Type) where
  claims : List (ι × β)
  done : Nat

namespace Turnstile

variable {ι β : Type}

/-- The next ticket. -/
def head (t : Turnstile ι β) : Nat := t.claims.length

/-- No ticket has been taken. -/
def new : Turnstile ι β := ⟨[], 0⟩

/-- Thread `i` takes the next ticket for `x`. -/
def claim (t : Turnstile ι β) (i : ι) (x : β) : Turnstile ι β :=
  { t with claims := t.claims ++ [(i, x)] }

/-- The oldest ticket that is held is handed back. -/
def publish (t : Turnstile ι β) : Turnstile ι β := { t with done := t.done + 1 }

/-- The items in the order of their tickets. -/
def items (t : Turnstile ι β) : List β := t.claims.map Prod.snd

/-- Thread `i` holds the ticket `n`, taken for `x`. -/
def Held (t : Turnstile ι β) (i : ι) (n : Nat) (x : β) : Prop :=
  t.done ≤ n ∧ t.claims[n]? = some (i, x)

variable {t : Turnstile ι β} {i j : ι} {n : Nat} {x y : β}

@[simp] theorem head_claim : (t.claim i x).head = t.head + 1 := by
  simp [head, claim]

@[simp] theorem done_publish : t.publish.done = t.done + 1 := rfl

@[simp] theorem items_claim : (t.claim i x).items = t.items ++ [x] := by
  simp [items, claim]

@[simp] theorem items_length : t.items.length = t.head := by
  simp [items, head]

theorem Held.lt (h : t.Held i n x) : n < t.head := (List.getElem?_eq_some_iff.mp h.2).1

/-- The item of a ticket that is held. -/
theorem Held.item (h : t.Held i n x) : t.items[n]? = some x := by
  rw [items, List.getElem?_map, h.2, Option.map_some]

/-- A ticket is held by one thread. -/
theorem Held.unique (h : t.Held i n x) (h' : t.Held j n y) : i = j ∧ x = y := by
  have heq := h.2.symm.trans h'.2
  rw [Option.some.injEq, Prod.mk.injEq] at heq
  exact heq

/-- The oldest ticket that was not handed back is held by someone. -/
theorem exists_held (h : t.done < t.head) : ∃ i x, t.Held i t.done x :=
  ⟨(t.claims.get ⟨t.done, h⟩).1, (t.claims.get ⟨t.done, h⟩).2, Nat.le_refl _,
    List.getElem?_eq_getElem h⟩

theorem Held.claim (h : t.Held i n x) : (t.claim j y).Held i n x := by
  refine ⟨h.1, ?_⟩
  show (t.claims ++ [(j, y)])[n]? = _
  rw [List.getElem?_append_left h.lt]
  exact h.2

theorem held_claim_self (h : t.done ≤ t.head) : (t.claim i x).Held i t.head x :=
  ⟨h, List.getElem?_concat_length⟩

/-- After one more ticket has been taken, the tickets held are the old ones and the new one. -/
theorem held_claim_iff (h : t.done ≤ t.head) :
    (t.claim j y).Held i n x ↔ t.Held i n x ∨ n = t.head ∧ i = j ∧ x = y := by
  constructor
  · rintro ⟨hle, hget⟩
    by_cases hn : n = t.head
    · subst hn
      exact Or.inr ⟨rfl, (held_claim_self h).unique ⟨hle, hget⟩ |>.imp Eq.symm Eq.symm⟩
    · have hlt : n < t.head + 1 := by
        rw [← head_claim (t := t) (i := j) (x := y)]
        exact (List.getElem?_eq_some_iff.mp hget).1
      refine Or.inl ⟨hle, ?_⟩
      rw [← hget]
      exact (List.getElem?_append_left (show n < t.claims.length by unfold head at *; omega)).symm
  · rintro (hheld | ⟨rfl, rfl, rfl⟩)
    · exact hheld.claim
    · exact held_claim_self h

/-- After a ticket has been handed back, the others are still held. -/
theorem held_publish_iff : t.publish.Held i n x ↔ t.Held i n x ∧ n ≠ t.done := by
  constructor
  · rintro ⟨hle, hget⟩
    have hle' : t.done + 1 ≤ n := hle
    exact ⟨⟨by omega, hget⟩, by omega⟩
  · rintro ⟨⟨hle, hget⟩, hne⟩
    exact ⟨show t.done + 1 ≤ n by omega, hget⟩

section

variable [DecidableEq ι]

/-- The items of thread `i`, in the order of their tickets. -/
def itemsOf (t : Turnstile ι β) (i : ι) : List β := (t.claims.filter (fun c => c.1 = i)).map Prod.snd

theorem itemsOf_claim_self : (t.claim i x).itemsOf i = t.itemsOf i ++ [x] := by
  simp [itemsOf, claim]

theorem itemsOf_claim_ne (h : j ≠ i) : (t.claim j x).itemsOf i = t.itemsOf i := by
  simp [itemsOf, claim, h]

end

end Turnstile

end CSearch
