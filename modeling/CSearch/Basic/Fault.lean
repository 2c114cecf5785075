import CSearch.Basic.Memory
import CSearch.Basic.Search

set_option autoImplicit false

/-! # Programs that break off

A program may use a `NULL` pointer, leave an object, fail an assertion or stay in a loop for ever. A
`Fault` says which, and a function that may break off returns `Except Fault`.

A pointer to an object is an `Option`, and `none` is `NULL`. Objects are regions of bytes (`Region`) or
arrays (`Cells`); what is read or written is checked against their size. An `Allocator` is what the
requests for memory to come are answered with, `NULL` included.

`Follows blame R x y` compares a program `x` with a specification `y`: it returns what is specified,
up to `R`, or breaks off as specified, or there is somebody to blame for the fault, an allocator for
instance. Programs are put together with `Follows.bind` and `Follows.foldlM`.
-/

namespace CSearch

/-- Why a program breaks off. -/
inductive Fault where
  | null
  | outside
  | assertion
  | endless
  deriving DecidableEq, Repr

/-- The contents of the memory that the next requests return, or `none` for `NULL`. -/
abbrev Allocator (μ : Type) : Type := Nat → Option μ

/-- The allocator after one request. -/
def Allocator.next {μ : Type} (heap : Allocator μ) : Allocator μ := fun k => heap (k + 1)

/-! ## Blocks of bytes -/

/-- An object of `size` bytes. -/
structure Region where
  mem : Mem
  size : Nat

namespace Region

/-- `malloc(n)`. -/
def allocate (heap : Allocator Mem) (n : Nat) : Option Region := (heap 0).map (fun mem => ⟨mem, n⟩)

/-- The `n` bytes at place `i`. -/
def load (p : Option Region) (i n : Nat) : Except Fault (List UInt8) :=
  match p with
  | none => .error .null
  | some region => if i + n ≤ region.size then .ok (region.mem.load i n) else .error .outside

/-- The bytes `bs` are written at place `i`. -/
def store (p : Option Region) (i : Nat) (bs : List UInt8) : Except Fault (Option Region) :=
  match p with
  | none => .error .null
  | some region =>
      if i + bs.length ≤ region.size then .ok (some { region with mem := region.mem.store i bs })
      else .error .outside

/-- The pointer is one to `size` bytes, the first of which are `bs`. -/
def Holds (p : Option Region) (size : Nat) (bs : List UInt8) : Prop :=
  bs.length ≤ size ∧ ∃ mem, p = some ⟨mem, size⟩ ∧ mem.Holds 0 bs

theorem holds_allocate {heap : Allocator Mem} {mem : Mem} (h : heap 0 = some mem) (n : Nat) :
    Holds (allocate heap n) n [] := by
  refine ⟨Nat.zero_le n, mem, ?_, Mem.Holds.nil mem 0⟩
  rw [allocate, h]
  rfl

theorem Holds.load_eq {p : Option Region} {size : Nat} {bs : List UInt8} (h : Holds p size bs) :
    load p 0 bs.length = .ok bs := by
  obtain ⟨hle, mem, rfl, hholds⟩ := h
  have hin : 0 + bs.length ≤ size := by omega
  simp only [load, if_pos hin, hholds.load_eq]

theorem Holds.clear {p : Option Region} {size : Nat} {bs : List UInt8} (h : Holds p size bs) :
    Holds p size [] := by
  obtain ⟨-, mem, hp, -⟩ := h
  exact ⟨Nat.zero_le size, mem, hp, Mem.Holds.nil mem 0⟩

/-- Bytes are written behind those that are there. -/
theorem Holds.store {p : Option Region} {size : Nat} {bs : List UInt8} (h : Holds p size bs)
    (str : List UInt8) (hroom : bs.length + str.length ≤ size) :
    ∃ p', Region.store p bs.length str = .ok p' ∧ Holds p' size (bs ++ str) := by
  obtain ⟨-, mem, rfl, hholds⟩ := h
  refine ⟨some ⟨mem.store bs.length str, size⟩, if_pos hroom, ?_, _, rfl, ?_⟩
  · rw [List.length_append]
    exact hroom
  · rw [Mem.holds_append, Nat.zero_add]
    refine ⟨hholds.congr (fun a _ ha => ?_), Mem.holds_store _ _ _⟩
    exact (Mem.store_lt _ _ _ a (by omega)).symm

end Region

/-! ## Arrays -/

namespace Cells

variable {α : Type}

/-- An array of `n` cells. -/
def allocate (heap : Allocator (Nat → α)) (n : Nat) : Option (List α) :=
  (heap 0).map (fun fresh => (List.range n).map fresh)

/-- `a[i]`. -/
def get (p : Option (List α)) (i : Nat) : Except Fault α :=
  match p with
  | none => .error .null
  | some a =>
      match a[i]? with
      | none => .error .outside
      | some x => .ok x

/-- `a[i] = x`. -/
def set (p : Option (List α)) (i : Nat) (x : α) : Except Fault (Option (List α)) :=
  match p with
  | none => .error .null
  | some a => if i < a.length then .ok (some (a.set i x)) else .error .outside

/-- `memmove(&a[dst], &a[src], cnt * sizeof(*a))`. -/
def move (p : Option (List α)) (dst src cnt : Nat) : Except Fault (Option (List α)) :=
  match p with
  | none => .error .null
  | some a =>
      match memmove a dst src cnt with
      | none => .error .outside
      | some b => .ok (some b)

/-- `memcpy(q, p, cnt * sizeof(*p))`. -/
def copy (q p : Option (List α)) (cnt : Nat) : Except Fault (Option (List α)) :=
  match p, q with
  | some a, some b =>
      if cnt ≤ a.length ∧ cnt ≤ b.length then .ok (some (a.take cnt ++ b.drop cnt))
      else .error .outside
  | _, _ => .error .null

theorem exists_of_allocate {heap : Allocator (Nat → α)} {fresh : Nat → α} (h : heap 0 = some fresh)
    (n : Nat) : ∃ a, allocate heap n = some a ∧ a.length = n := by
  refine ⟨(List.range n).map fresh, ?_, ?_⟩
  · rw [allocate, h]
    rfl
  · rw [List.length_map, List.length_range]

theorem get_some {a : List α} {i : Nat} {x : α} (h : a[i]? = some x) : get (some a) i = .ok x := by
  simp only [get, h]

theorem set_some {a : List α} {i : Nat} (h : i < a.length) (x : α) :
    set (some a) i x = .ok (some (a.set i x)) := if_pos h

theorem move_some {a b : List α} {dst src cnt : Nat} (h : memmove a dst src cnt = some b) :
    move (some a) dst src cnt = .ok (some b) := by
  simp only [move, h]

theorem copy_some {a b : List α} {cnt : Nat} (ha : cnt ≤ a.length) (hb : cnt ≤ b.length) :
    copy (some b) (some a) cnt = .ok (some (a.take cnt ++ b.drop cnt)) := if_pos ⟨ha, hb⟩

/-- The cells from `i` on are moved up by one, and the one that is free is set. -/
theorem move_up {xs : List α} {i : Nat} (hi : i ≤ xs.length) (x y : α) (spare : List α) :
    ∃ a, move (some (xs ++ y :: spare)) (i + 1) i (xs.length - i) = .ok (some a)
      ∧ set (some a) i x = .ok (some (xs.insertIdx i x ++ spare)) := by
  obtain ⟨l, r, rfl, rfl⟩ : ∃ l r, xs = l ++ r ∧ i = l.length :=
    ⟨xs.take i, xs.drop i, (List.take_append_drop _ _).symm, (List.length_take_of_le hi).symm⟩
  obtain ⟨a, hmove, hset⟩ := Option.map_eq_some_iff.mp (memmove_up l r spare x y)
  have hlen : l.length < a.length := by
    rw [memmove_length hmove, List.length_append, List.length_append, List.length_cons]
    omega
  rw [List.length_append, Nat.add_sub_cancel_left, insertIdx_append_length]
  exact ⟨a, move_some hmove, by rw [set_some hlen, hset]⟩

/-- The cells behind `i` are moved down by one. -/
theorem move_down {xs : List α} {i : Nat} (hi : i < xs.length) (spare : List α) :
    ∃ y, move (some (xs ++ spare)) i (i + 1) (xs.length - i - 1)
      = .ok (some (xs.eraseIdx i ++ y :: spare)) := by
  obtain ⟨l, x, r, rfl, rfl⟩ : ∃ l x r, xs = l ++ x :: r ∧ i = l.length := by
    refine ⟨xs.take i, xs[i], xs.drop (i + 1), ?_, (List.length_take_of_le hi.le).symm⟩
    rw [← List.drop_eq_getElem_cons, List.take_append_drop]
  obtain ⟨y, hmove⟩ := memmove_down l r spare x
  have hcount : (l ++ x :: r).length - l.length - 1 = r.length := by
    rw [List.length_append, List.length_cons]
    omega
  have herase : (l ++ x :: r).eraseIdx l.length = l ++ r := by
    rw [List.eraseIdx_append_of_length_le (Nat.le_refl _), Nat.sub_self]
    rfl
  rw [hcount, herase]
  exact ⟨y, move_some hmove⟩

end Cells

/-! ## Programs and what they should do -/

section

variable {σ τ σ' τ' : Type} {blame : Fault → Prop} {R : σ → τ → Prop} {R' : σ' → τ' → Prop}
  {x : Except Fault σ} {y : Except Fault τ}

/-- The program `x` does what `y` says, or has somebody to blame. -/
def Follows (blame : Fault → Prop) (R : σ → τ → Prop) (x : Except Fault σ) (y : Except Fault τ) :
    Prop :=
  match x with
  | .ok a => ∃ b, y = .ok b ∧ R a b
  | .error e => y = .error e ∨ blame e

theorem Follows.ok {a : σ} {b : τ} (h : R a b) : Follows blame R (.ok a) (.ok b) := ⟨b, rfl, h⟩

theorem Follows.error (e : Fault) : Follows blame R (.error e : Except Fault σ) (.error e) :=
  Or.inl rfl

theorem Follows.blamed {e : Fault} (h : blame e) (y : Except Fault τ) :
    Follows blame R (.error e : Except Fault σ) y := Or.inr h

theorem Follows.bind {f : σ → Except Fault σ'} {g : τ → Except Fault τ'} (h : Follows blame R x y)
    (hfg : ∀ a b, R a b → Follows blame R' (f a) (g b)) : Follows blame R' (x >>= f) (y >>= g) := by
  cases x with
  | ok a =>
      obtain ⟨b, rfl, hab⟩ := h
      exact hfg a b hab
  | error e =>
      rcases h with rfl | hblame
      · exact .error e
      · exact .blamed hblame _

/-- The specification has got to `b`; what it goes on to is `z`. -/
theorem Follows.bind_ok {f : σ → Except Fault σ'} {b : τ} {z : Except Fault τ'}
    (h : Follows blame R x (.ok b)) (hf : ∀ a, R a b → Follows blame R' (f a) z) :
    Follows blame R' (x >>= f) z := by
  cases x with
  | ok a =>
      obtain ⟨b', hb, hab⟩ := h
      cases hb
      exact hf a hab
  | error e => exact .blamed (h.resolve_left nofun) _

theorem Follows.mono {R' : σ → τ → Prop} (h : Follows blame R x y) (hR : ∀ a b, R a b → R' a b) :
    Follows blame R' x y := by
  cases x with
  | ok a => exact h.imp (fun b hb => ⟨hb.1, hR a b hb.2⟩)
  | error e => exact h

/-- What is specified is known as well. -/
theorem Follows.and_eq (h : Follows blame R x y) :
    Follows blame (fun a b => R a b ∧ y = .ok b) x y := by
  cases x with
  | ok a => exact h.imp (fun b hb => ⟨hb.1, hb.2, hb.1⟩)
  | error e => exact h

/-- One step after the other. -/
theorem Follows.foldlM {ω : Type} {f : σ → ω → Except Fault σ} {g : τ → ω → Except Fault τ}
    (hstep : ∀ a b op, R a b → Follows blame R (f a op) (g b op)) (ops : List ω) {a : σ} {b : τ}
    (h : R a b) : Follows blame R (ops.foldlM f a) (ops.foldlM g b) := by
  induction ops generalizing a b with
  | nil => exact .ok h
  | cons op ops ih =>
      rw [List.foldlM_cons, List.foldlM_cons]
      exact (hstep a b op h).bind (fun a' b' hab => ih hab)

/-- With nobody to blame a program returns what it should. -/
theorem Follows.exists_ok {b : τ} (h : Follows blame R x (.ok b)) (hblame : ∀ e, ¬ blame e) :
    ∃ a, x = .ok a ∧ R a b := by
  cases x with
  | ok a =>
      obtain ⟨b', hb, hab⟩ := h
      cases hb
      exact ⟨a, rfl, hab⟩
  | error e => exact absurd (h.resolve_left nofun) (hblame e)

theorem Follows.eq_or {x y : Except Fault σ} (h : Follows blame Eq x y) :
    x = y ∨ ∃ e, x = .error e ∧ blame e := by
  cases x with
  | ok a =>
      obtain ⟨b, rfl, rfl⟩ := h
      exact Or.inl rfl
  | error e => exact h.imp Eq.symm (fun hblame => ⟨e, rfl, hblame⟩)

end

end CSearch
