import Mathlib.Data.UInt
import Mathlib.Data.List.Basic
import CSearch.Basic.Turnstile

set_option autoImplicit false

/-! # The ring of `buf_ring.h`, one call at a time

A ring has `count` slots, a power of two, and two pairs of indices: producers move `prod_head` and
`prod_tail`, consumers `cons_head` and `cons_tail`. All of them are kept below `count` by a mask. One
slot stays free, so that equal indices mean an empty ring.

Here every call runs by itself. `BufRing.exec` is then a queue with room for `count - 1` pointers, for
any sequence of calls (`exec_refines`). `BufRing.Threads` is about calls that overlap.

A pointer is an `Option α`; `none` is `NULL`.
-/

namespace CSearch

/-- `struct buf_ring`. The ring has a slot for every number; that only those below `count` are used
is part of the results. -/
structure BufRing (α : Type) where
  prodHead : UInt32
  prodTail : UInt32
  prodSize : Int32
  prodMask : Int32
  drops : UInt64
  consHead : UInt32
  consTail : UInt32
  consSize : Int32
  consMask : Int32
  ring : Nat → Option α

namespace BufRing

variable {α : Type}

/-! ## The functions -/

/-- `powerof2`. It holds of `0` as well. -/
def powerof2 (x : Int32) : Bool := ((x - 1) &&& x) == 0

/-- `buf_ring_alloc`; `malloc` says whether the memory was obtained. -/
def alloc (count : Int32) (malloc : Bool) : Option (BufRing α) :=
  if ¬ powerof2 count then none
  else if ¬ malloc then none
  else some
    { prodHead := 0, prodTail := 0, prodSize := count, prodMask := count - 1, drops := 0
      consHead := 0, consTail := 0, consSize := count, consMask := count - 1, ring := fun _ => none }

/-- The index behind `head`. -/
def next (mask : Int32) (head : UInt32) : UInt32 := (head + 1) &&& mask.toUInt32

/-- A store to `br_ring`. -/
def put (br : BufRing α) (slot : UInt32) (buf : Option α) : BufRing α :=
  { br with ring := Function.update br.ring slot.toNat buf }

/-- `buf_ring_enqueue` without other calls in progress: the second look at the indices finds them
unchanged and the exchange succeeds. `none` if it waits for ever for an earlier enqueue. -/
def enqueue (br : BufRing α) (buf : Option α) : Option (BufRing α × Int32) :=
  let prodHead := br.prodHead
  let prodNext := next br.prodMask prodHead
  if prodNext = br.consTail then
    some ({ br with drops := br.drops + 1 }, -1)
  else if br.prodTail ≠ prodHead then none
  else some ({ (br.put prodHead buf) with prodHead := prodNext, prodTail := prodNext }, 0)

/-- `buf_ring_dequeue_mc` without other calls in progress. `none` if it waits for ever. -/
def dequeueMc (br : BufRing α) : Option (BufRing α × Option α) :=
  let consHead := br.consHead
  let consNext := next br.consMask consHead
  if consHead = br.prodTail then some (br, none)
  else if br.consTail ≠ consHead then none
  else some ({ br with consHead := consNext, consTail := consNext }, br.ring consHead.toNat)

/-- `buf_ring_dequeue_sc`. -/
def dequeueSc (br : BufRing α) : BufRing α × Option α :=
  let consHead := br.consHead
  let consNext := next br.consMask consHead
  if consHead = br.prodTail then (br, none)
  else ({ br with consHead := consNext, consTail := consNext }, br.ring consHead.toNat)

/-- `buf_ring_advance_sc`. -/
def advanceSc (br : BufRing α) : BufRing α :=
  let consHead := br.consHead
  let consNext := next br.consMask consHead
  if consHead = br.prodTail then br
  else { br with consHead := consNext, consTail := consNext }

/-- `buf_ring_putback_sc`. -/
def putbackSc (br : BufRing α) (new : Option α) : BufRing α := br.put br.consHead new

/-- `buf_ring_peek`. -/
def peek (br : BufRing α) : Option α :=
  if br.consHead = br.prodTail then none else br.ring br.consHead.toNat

/-- `buf_ring_full`. -/
def full (br : BufRing α) : Bool := next br.prodMask br.prodHead == br.consTail

/-- `buf_ring_empty`. -/
def empty (br : BufRing α) : Bool := br.consHead == br.prodTail

/-- `buf_ring_count`. -/
def count (br : BufRing α) : Int32 :=
  ((br.prodSize.toUInt32 + br.prodTail - br.consTail) &&& br.prodMask.toUInt32).toInt32

/-! ## Calls -/

/-- A call of one of the functions above. -/
inductive Op (α : Type)
  | enqueue (buf : Option α)
  | dequeueMc
  | dequeueSc
  | advanceSc
  | putbackSc (new : Option α)
  | peek
  | full
  | empty
  | count

/-- What a call returns. -/
inductive Ret (α : Type)
  | void
  | int (n : Int32)
  | ptr (p : Option α)

/-- A call, with what it returns. -/
def exec (br : BufRing α) : Op α → Option (BufRing α × Ret α)
  | .enqueue buf => (br.enqueue buf).map (Prod.map id .int)
  | .dequeueMc => br.dequeueMc.map (Prod.map id .ptr)
  | .dequeueSc => some (Prod.map id .ptr br.dequeueSc)
  | .advanceSc => some (br.advanceSc, .void)
  | .putbackSc new => some (br.putbackSc new, .void)
  | .peek => some (br, .ptr br.peek)
  | .full => some (br, .int (if br.full then 1 else 0))
  | .empty => some (br, .int (if br.empty then 1 else 0))
  | .count => some (br, .int br.count)

/-- A sequence of calls. -/
def execAll (br : BufRing α) : List (Op α) → Option (BufRing α × List (Ret α))
  | [] => some (br, [])
  | op :: ops => do
      let (br', r) ← br.exec op
      let (br'', rs) ← br'.execAll ops
      return (br'', r :: rs)

/-! ## The queue -/

/-- A queue of pointers, and how many were turned away. -/
structure Queue (α : Type) where
  items : List (Option α)
  dropped : Nat

namespace Queue

/-- What a call does to a queue with room for `cap` pointers. `putback` replaces the first pointer; a
queue without one stays as it is. -/
def exec (cap : Nat) (q : Queue α) : Op α → Queue α × Ret α
  | .enqueue buf =>
      if q.items.length < cap then ({ q with items := q.items ++ [buf] }, .int 0)
      else ({ q with dropped := q.dropped + 1 }, .int (-1))
  | .dequeueMc | .dequeueSc => ({ q with items := q.items.tail }, .ptr q.items.head?.join)
  | .advanceSc => ({ q with items := q.items.tail }, .void)
  | .putbackSc new => ({ q with items := q.items.set 0 new }, .void)
  | .peek => (q, .ptr q.items.head?.join)
  | .full => (q, .int (if q.items.length = cap then 1 else 0))
  | .empty => (q, .int (if q.items.length = 0 then 1 else 0))
  | .count => (q, .int (Int32.ofNat q.items.length))

/-- A sequence of calls. -/
def execAll (cap : Nat) (q : Queue α) : List (Op α) → Queue α × List (Ret α)
  | [] => (q, [])
  | op :: ops =>
      let r := exec cap q op
      let rs := execAll cap r.1 ops
      (rs.1, r.2 :: rs.2)

end Queue

/-! ## Indices -/

/-- A ring of `2 ^ k` slots. -/
structure Sized (k : Nat) (br : BufRing α) : Prop where
  le : k ≤ 30
  prodSize : br.prodSize = Int32.ofNat (2 ^ k)
  prodMask : br.prodMask = Int32.ofNat (2 ^ k) - 1
  consMask : br.consMask = Int32.ofNat (2 ^ k) - 1

theorem two_pow_le {k : Nat} (hk : k ≤ 30) : 2 ^ k ≤ 2 ^ 30 :=
  Nat.pow_le_pow_right (by decide) hk

theorem toUInt32_size_toNat {k : Nat} (hk : k ≤ 30) :
    (Int32.ofNat (2 ^ k)).toUInt32.toNat = 2 ^ k := by
  have := two_pow_le hk
  show (UInt32.ofNat (2 ^ k)).toNat = 2 ^ k
  rw [UInt32.toNat_ofNat', Nat.mod_eq_of_lt (by omega)]

theorem toUInt32_mask_toNat {k : Nat} (hk : k ≤ 30) :
    (Int32.ofNat (2 ^ k) - 1).toUInt32.toNat = 2 ^ k - 1 := by
  have hle := two_pow_le hk
  have hpos : 0 < 2 ^ k := Nat.two_pow_pos k
  rw [Int32.toUInt32_sub, UInt32.toNat_sub_of_le, toUInt32_size_toNat hk]
  · rfl
  · rw [UInt32.le_iff_toNat_le, toUInt32_size_toNat hk]
    exact hpos

/-- The mask takes the remainder. -/
theorem toNat_and_mask {k : Nat} (hk : k ≤ 30) (x : UInt32) :
    (x &&& (Int32.ofNat (2 ^ k) - 1).toUInt32).toNat = x.toNat % 2 ^ k := by
  rw [UInt32.toNat_and, toUInt32_mask_toNat hk, Nat.and_two_pow_sub_one_eq_mod]

theorem two_pow_dvd {k : Nat} (hk : k ≤ 30) : 2 ^ k ∣ 2 ^ 32 := Nat.pow_dvd_pow 2 (by omega)

/-- The index of ticket `n` is followed by that of ticket `n + 1`. -/
theorem next_toNat {k n : Nat} (hk : k ≤ 30) {head : UInt32} (h : head.toNat = n % 2 ^ k) :
    (next (Int32.ofNat (2 ^ k) - 1) head).toNat = (n + 1) % 2 ^ k := by
  rw [next, toNat_and_mask hk, UInt32.toNat_add, Nat.mod_mod_of_dvd _ (two_pow_dvd hk), h,
    UInt32.toNat_one, Nat.mod_add_mod]

/-! ## The ring is a queue -/

/-- The ring holds the pointers of `q`, the first of them being the one with ticket `c`. -/
structure Rep (k c : Nat) (q : Queue α) (br : BufRing α) : Prop where
  sized : Sized k br
  consHead : br.consHead.toNat = c % 2 ^ k
  consTail : br.consTail.toNat = c % 2 ^ k
  prodHead : br.prodHead.toNat = (c + q.items.length) % 2 ^ k
  prodTail : br.prodTail.toNat = (c + q.items.length) % 2 ^ k
  room : q.items.length < 2 ^ k
  ring : ∀ j p, q.items[j]? = some p → br.ring ((c + j) % 2 ^ k) = p
  drops : br.drops = UInt64.ofNat q.dropped

section

variable {k c : Nat} {q : Queue α} {br : BufRing α}

theorem Rep.full_iff (h : Rep k c q br) :
    next br.prodMask br.prodHead = br.consTail ↔ q.items.length = 2 ^ k - 1 := by
  have hroom := h.room
  have hpos : 0 < 2 ^ k := Nat.two_pow_pos k
  rw [← UInt32.toNat_inj, h.sized.prodMask, next_toNat h.sized.le h.prodHead, h.consTail]
  constructor
  · intro heq
    -- both tickets lie within one revolution of each other
    rw [← Nat.add_mod_right c] at heq
    have := eq_of_mod_eq (l := c + 1) (by omega) (by omega) (by omega) (by omega) heq
    omega
  · intro hlen
    rw [show c + q.items.length + 1 = c + 2 ^ k by omega, Nat.add_mod_right]

theorem Rep.empty_iff (h : Rep k c q br) : br.consHead = br.prodTail ↔ q.items.length = 0 := by
  have hroom := h.room
  rw [← UInt32.toNat_inj, h.consHead, h.prodTail]
  constructor
  · intro heq
    have := eq_of_mod_eq (l := c) (by omega) (by omega) (by omega) (by omega) heq
    omega
  · intro hlen
    rw [hlen, Nat.add_zero]

/-- What is at the head of the ring. -/
theorem Rep.ring_consHead (h : Rep k c q br) (hne : q.items.length ≠ 0) :
    br.ring br.consHead.toNat = q.items.head?.join := by
  obtain ⟨p, ps, hq⟩ := List.exists_cons_of_length_pos (Nat.pos_of_ne_zero hne)
  have hp := h.ring 0 p (by rw [hq]; rfl)
  rw [Nat.add_zero, ← h.consHead] at hp
  rw [hp, hq]
  rfl

/-- A pointer stored behind the last one. -/
theorem Rep.push (h : Rep k c q br) (buf : Option α) (hlen : q.items.length < 2 ^ k - 1) :
    Rep k c { q with items := q.items ++ [buf] }
      { (br.put br.prodHead buf) with
        prodHead := next br.prodMask br.prodHead, prodTail := next br.prodMask br.prodHead } := by
  have hnext : (next br.prodMask br.prodHead).toNat = (c + (q.items ++ [buf]).length) % 2 ^ k := by
    rw [h.sized.prodMask, next_toNat h.sized.le h.prodHead, List.length_append]
    rfl
  refine ⟨⟨h.sized.le, h.sized.prodSize, h.sized.prodMask, h.sized.consMask⟩, h.consHead,
    h.consTail, hnext, hnext, ?_, ?_, h.drops⟩
  · show (q.items ++ [buf]).length < 2 ^ k
    rw [List.length_append, List.length_singleton]
    omega
  · intro j p hp
    show Function.update br.ring br.prodHead.toNat buf ((c + j) % 2 ^ k) = p
    rw [h.prodHead]
    have hj : j < q.items.length + 1 := by
      simpa using (List.getElem?_eq_some_iff.mp hp).1
    by_cases hlast : j = q.items.length
    · subst hlast
      rw [Function.update_self]
      simpa using hp
    · have hslot : (c + j) % 2 ^ k ≠ (c + q.items.length) % 2 ^ k := by
        intro heq
        have := eq_of_mod_eq (l := c) (by omega) (by omega) (by omega) (by omega) heq
        omega
      rw [Function.update_of_ne hslot]
      refine h.ring j p ?_
      rw [← hp]
      exact (List.getElem?_append_left (show j < q.items.length by omega)).symm

/-- The first pointer taken out. -/
theorem Rep.pop (h : Rep k c q br) (hne : q.items.length ≠ 0) :
    Rep k (c + 1) { q with items := q.items.tail }
      { br with consHead := next br.consMask br.consHead,
                consTail := next br.consMask br.consHead } := by
  have hnext : (next br.consMask br.consHead).toNat = (c + 1) % 2 ^ k := by
    rw [h.sized.consMask, next_toNat h.sized.le h.consHead]
  have hroom := h.room
  have hlen : c + 1 + q.items.tail.length = c + q.items.length := by
    rw [List.length_tail]
    omega
  refine ⟨⟨h.sized.le, h.sized.prodSize, h.sized.prodMask, h.sized.consMask⟩, hnext, hnext,
    ?_, ?_, ?_, ?_, h.drops⟩
  · show br.prodHead.toNat = (c + 1 + q.items.tail.length) % 2 ^ k
    rw [hlen]
    exact h.prodHead
  · show br.prodTail.toNat = (c + 1 + q.items.tail.length) % 2 ^ k
    rw [hlen]
    exact h.prodTail
  · show q.items.tail.length < 2 ^ k
    rw [List.length_tail]
    omega
  · intro j p hp
    rw [Nat.add_assoc, Nat.add_comm 1 j]
    refine h.ring (j + 1) p ?_
    rw [← hp]
    exact List.getElem?_tail.symm

/-- The first pointer replaced; nothing else is in its slot. -/
theorem Rep.putback (h : Rep k c q br) (new : Option α) :
    Rep k c { q with items := q.items.set 0 new } (br.putbackSc new) := by
  have hroom := h.room
  refine ⟨⟨h.sized.le, h.sized.prodSize, h.sized.prodMask, h.sized.consMask⟩, h.consHead,
    h.consTail, ?_, ?_, ?_, ?_, h.drops⟩
  · rw [List.length_set]
    exact h.prodHead
  · rw [List.length_set]
    exact h.prodTail
  · rw [List.length_set]
    exact hroom
  · intro j p hp
    show Function.update br.ring br.consHead.toNat new ((c + j) % 2 ^ k) = p
    rw [h.consHead]
    have hj : j < q.items.length := by
      simpa using (List.getElem?_eq_some_iff.mp hp).1
    by_cases hzero : j = 0
    · subst hzero
      rw [Nat.add_zero, Function.update_self]
      rw [List.getElem?_set_self hj, Option.some.injEq] at hp
      exact hp
    · have hslot : (c + j) % 2 ^ k ≠ c % 2 ^ k := by
        intro heq
        have := eq_of_mod_eq (l := c) (by omega) (by omega) (by omega) (by omega) heq
        omega
      rw [Function.update_of_ne hslot]
      rw [List.getElem?_set_ne (fun h0 => hzero h0.symm)] at hp
      exact h.ring j p hp

/-- `buf_ring_count` is the number of pointers. -/
theorem Rep.count_eq (h : Rep k c q br) : br.count = Int32.ofNat q.items.length := by
  have hroom := h.room
  have hle := two_pow_le h.sized.le
  have hpos : 0 < 2 ^ k := Nat.two_pow_pos k
  have hcons : c % 2 ^ k < 2 ^ k := Nat.mod_lt _ hpos
  have hprod : (c + q.items.length) % 2 ^ k < 2 ^ k := Nat.mod_lt _ hpos
  have hsum : (br.prodSize.toUInt32 + br.prodTail).toNat
      = 2 ^ k + (c + q.items.length) % 2 ^ k := by
    rw [UInt32.toNat_add, h.sized.prodSize, toUInt32_size_toNat h.sized.le, h.prodTail,
      Nat.mod_eq_of_lt (by omega)]
  have hdiff : (br.prodSize.toUInt32 + br.prodTail - br.consTail).toNat
      = 2 ^ k + (c + q.items.length) % 2 ^ k - c % 2 ^ k := by
    rw [UInt32.toNat_sub_of_le, hsum, h.consTail]
    rw [UInt32.le_iff_toNat_le, hsum, h.consTail]
    omega
  have hmod : (2 ^ k + (c + q.items.length) % 2 ^ k - c % 2 ^ k) % 2 ^ k = q.items.length := by
    have hc : (c + q.items.length) % 2 ^ k = (c % 2 ^ k + q.items.length) % 2 ^ k := by
      rw [Nat.mod_add_mod]
    rw [hc]
    rcases Nat.lt_or_ge (c % 2 ^ k + q.items.length) (2 ^ k) with hlt | hge
    · rw [Nat.mod_eq_of_lt hlt, show 2 ^ k + (c % 2 ^ k + q.items.length) - c % 2 ^ k
        = q.items.length + 2 ^ k by omega, Nat.add_mod_right, Nat.mod_eq_of_lt hroom]
    · have hwrap : (c % 2 ^ k + q.items.length) % 2 ^ k = c % 2 ^ k + q.items.length - 2 ^ k := by
        rw [Nat.mod_eq_sub_mod hge, Nat.mod_eq_of_lt (by omega)]
      rw [hwrap, show 2 ^ k + (c % 2 ^ k + q.items.length - 2 ^ k) - c % 2 ^ k = q.items.length
        by omega, Nat.mod_eq_of_lt hroom]
  have hbits : ((br.prodSize.toUInt32 + br.prodTail - br.consTail) &&& br.prodMask.toUInt32)
      = UInt32.ofNat q.items.length := by
    rw [← UInt32.toNat_inj, h.sized.prodMask, toNat_and_mask h.sized.le, hdiff, hmod,
      UInt32.toNat_ofNat', Nat.mod_eq_of_lt (by omega)]
  rw [count, hbits]
  rfl

/-- A pointer added, or turned away. -/
theorem Rep.enqueue (h : Rep k c q br) (buf : Option α) :
    ∃ br', br.exec (.enqueue buf) = some (br', (q.exec (2 ^ k - 1) (.enqueue buf)).2)
      ∧ Rep k c (q.exec (2 ^ k - 1) (.enqueue buf)).1 br' := by
  have hroom := h.room
  have htail : br.prodTail = br.prodHead := UInt32.toNat_inj.mp (h.prodTail.trans h.prodHead.symm)
  rw [Queue.exec, BufRing.exec, BufRing.enqueue]
  by_cases hfull : q.items.length = 2 ^ k - 1
  · rw [if_pos (h.full_iff.mpr hfull), if_neg (by omega)]
    refine ⟨_, rfl, ⟨h.sized.le, h.sized.prodSize, h.sized.prodMask, h.sized.consMask⟩,
      h.consHead, h.consTail, h.prodHead, h.prodTail, hroom, h.ring, ?_⟩
    show br.drops + 1 = UInt64.ofNat (q.dropped + 1)
    rw [h.drops, UInt64.ofNat_add]
    rfl
  · have hlt : q.items.length < 2 ^ k - 1 := by omega
    rw [if_neg (fun he => hfull (h.full_iff.mp he)), if_neg (not_not_intro htail), if_pos hlt]
    exact ⟨_, rfl, h.push buf hlt⟩

/-- The first pointer taken out, by any of the three functions; nothing happens if there is none. -/
theorem Rep.take (h : Rep k c q br) :
    br.dequeueMc = some br.dequeueSc ∧ br.advanceSc = br.dequeueSc.1
      ∧ br.dequeueSc.2 = q.items.head?.join
      ∧ ∃ c', Rep k c' { q with items := q.items.tail } br.dequeueSc.1 := by
  have hcons : br.consTail = br.consHead := UInt32.toNat_inj.mp (h.consTail.trans h.consHead.symm)
  rw [dequeueMc, advanceSc, dequeueSc]
  by_cases hempty : q.items.length = 0
  · have hnil : q.items = [] := List.length_eq_zero_iff.mp hempty
    rw [if_pos (h.empty_iff.mpr hempty), if_pos (h.empty_iff.mpr hempty),
      if_pos (h.empty_iff.mpr hempty), hnil]
    refine ⟨rfl, rfl, rfl, c, ?_⟩
    show Rep k c { q with items := [] } br
    rw [← hnil]
    exact h
  · have hne := fun he => hempty (h.empty_iff.mp he)
    rw [if_neg hne, if_neg hne, if_neg hne, if_neg (not_not_intro hcons)]
    exact ⟨rfl, rfl, h.ring_consHead hempty, c + 1, h.pop hempty⟩

theorem Rep.peek_eq (h : Rep k c q br) : br.peek = q.items.head?.join := by
  rw [peek]
  by_cases hempty : q.items.length = 0
  · rw [if_pos (h.empty_iff.mpr hempty), List.length_eq_zero_iff.mp hempty]
    rfl
  · rw [if_neg (fun he => hempty (h.empty_iff.mp he))]
    exact h.ring_consHead hempty

/-- **One call** does what it does to the queue, and never waits. -/
theorem Rep.exec (h : Rep k c q br) (op : Op α) :
    ∃ br' c', br.exec op = some (br', (q.exec (2 ^ k - 1) op).2)
      ∧ Rep k c' (q.exec (2 ^ k - 1) op).1 br' := by
  obtain ⟨hmc, hadvance, hptr, c', htake⟩ := h.take
  cases op with
  | enqueue buf =>
      obtain ⟨br', hexec, hrep⟩ := h.enqueue buf
      exact ⟨br', c, hexec, hrep⟩
  | dequeueMc =>
      refine ⟨_, c', ?_, htake⟩
      rw [BufRing.exec, hmc, Queue.exec, ← hptr]
      rfl
  | dequeueSc =>
      refine ⟨_, c', ?_, htake⟩
      rw [BufRing.exec, Queue.exec, ← hptr]
      rfl
  | advanceSc =>
      refine ⟨_, c', ?_, htake⟩
      rw [BufRing.exec, Queue.exec, hadvance]
  | putbackSc new => exact ⟨_, c, rfl, h.putback new⟩
  | peek =>
      refine ⟨br, c, ?_, h⟩
      rw [BufRing.exec, Queue.exec, h.peek_eq]
  | full =>
      refine ⟨br, c, ?_, h⟩
      simp only [BufRing.exec, Queue.exec, full, beq_iff_eq, h.full_iff]
  | empty =>
      refine ⟨br, c, ?_, h⟩
      simp only [BufRing.exec, Queue.exec, empty, beq_iff_eq, h.empty_iff]
  | count =>
      refine ⟨br, c, ?_, h⟩
      rw [BufRing.exec, Queue.exec, h.count_eq]

/-- Any calls. -/
theorem Rep.execAll (h : Rep k c q br) (ops : List (Op α)) :
    ∃ br' c', br.execAll ops = some (br', (q.execAll (2 ^ k - 1) ops).2)
      ∧ Rep k c' (q.execAll (2 ^ k - 1) ops).1 br' := by
  induction ops generalizing c q br with
  | nil => exact ⟨br, c, rfl, h⟩
  | cons op ops ih =>
      obtain ⟨br₁, c₁, hexec, hrep⟩ := h.exec op
      obtain ⟨br₂, c₂, hrest, hrep'⟩ := ih hrep
      refine ⟨br₂, c₂, ?_, hrep'⟩
      simp only [BufRing.execAll, hexec, hrest, Option.bind_eq_bind, Option.bind_some]
      rfl

end

/-! ## A new ring -/

theorem powerof2_two_pow {k : Nat} (hk : k ≤ 30) : powerof2 (Int32.ofNat (2 ^ k)) = true := by
  have hbits : ((Int32.ofNat (2 ^ k) - 1) &&& Int32.ofNat (2 ^ k)).toUInt32 = 0 := by
    rw [← UInt32.toNat_inj, Int32.toUInt32_and, UInt32.and_comm, toNat_and_mask hk,
      toUInt32_size_toNat hk, Nat.mod_self]
    rfl
  rw [powerof2, beq_iff_eq]
  exact congrArg Int32.ofUInt32 hbits

theorem alloc_two_pow {k : Nat} (hk : k ≤ 30) :
    ∃ br : BufRing α, alloc (Int32.ofNat (2 ^ k)) true = some br ∧ Rep k 0 ⟨[], 0⟩ br := by
  refine ⟨_, by rw [alloc, if_neg (not_not_intro (powerof2_two_pow hk)), if_neg (by decide)], ?_⟩
  refine ⟨⟨hk, rfl, rfl, rfl⟩, ?_, ?_, ?_, ?_, Nat.two_pow_pos k, ?_, rfl⟩
  · exact (Nat.zero_mod _).symm
  · exact (Nat.zero_mod _).symm
  · exact (Nat.zero_mod _).symm
  · exact (Nat.zero_mod _).symm
  · intro j p hp
    exact absurd hp (by simp)

theorem rep_of_alloc {k : Nat} (hk : k ≤ 30) {br : BufRing α}
    (h : alloc (Int32.ofNat (2 ^ k)) true = some br) : Rep k 0 ⟨[], 0⟩ br := by
  obtain ⟨br', h', hrep⟩ := alloc_two_pow (α := α) hk
  rw [h, Option.some.injEq] at h'
  rw [h']
  exact hrep

/-- **A ring of `2 ^ k` slots is a queue of `2 ^ k - 1` pointers.** Whatever functions are called,
one after the other: none of them waits, and each returns what it returns for the queue. -/
theorem exec_refines (k : Nat) (hk : k ≤ 30) (ops : List (Op α)) :
    ∃ br br' : BufRing α, alloc (Int32.ofNat (2 ^ k)) true = some br
      ∧ br.execAll ops = some (br', ((Queue.mk [] 0).execAll (2 ^ k - 1) ops).2)
      ∧ br'.drops = UInt64.ofNat ((Queue.mk [] 0).execAll (2 ^ k - 1) ops).1.dropped := by
  obtain ⟨br, halloc, hrep⟩ := alloc_two_pow (α := α) hk
  obtain ⟨br', c', hexec, hrep'⟩ := hrep.execAll ops
  exact ⟨br, br', halloc, hexec, hrep'.drops⟩

theorem exec_refines_two_slots :
    ∃ br br' : BufRing Nat, alloc (Int32.ofNat (2 ^ 1)) true = some br
      ∧ br.execAll [.enqueue (some 7), .enqueue (some 8), .dequeueMc, .dequeueSc]
          = some (br', [.int 0, .int (-1), .ptr (some 7), .ptr none])
      ∧ br'.drops = 1 :=
  exec_refines 1 (by decide) [.enqueue (some 7), .enqueue (some 8), .dequeueMc, .dequeueSc]

end BufRing

end CSearch
