import CSearch.Basic.Fault
import CSearch.Gumbo.Cursor

set_option autoImplicit false

/-! # `GumboStringBuffer` of `string_buffer.c`

A buffer of bytes that grows. It is twice as large again and again until there is room, from five
bytes on, so it has `5 * 2^k` bytes. What is computed with 64 bits is right as long as no more than
`5 * 2^61` bytes are asked for; beyond that the loop would not end (`growCapacity_eq_none`). Nowhere is
it checked that the allocator has not returned `NULL`.

The buffer stands for the bytes in it (`Rep`), and operations on the buffer are operations on these,
until `NULL` is used (`buffer_refines`). A code point that is a character is appended in UTF-8
(`codepointBytes_char`). So whatever is in a page, its text is UTF-8 (`copied_page`).
-/

namespace CSearch.Gumbo

open String (utf8EncodeChar)
open Utf8

/-! ## The functions of the source -/

/-- `kDefaultStringBufferSize`. -/
def kDefaultStringBufferSize : UInt64 := 5

/-- `GumboStringBuffer`. `heap` is what the next allocations return. -/
structure StringBuffer where
  data : Option Region
  length : UInt64
  capacity : UInt64
  heap : Allocator Mem

/-- The loop of `maybe_resize_string_buffer`. A capacity is zero after 64 rounds and stays so. -/
def growCapacity (newLength : UInt64) : Nat → UInt64 → Option UInt64
  | 0, _ => none
  | fuel + 1, capacity =>
      if capacity < newLength then growCapacity newLength fuel (capacity * 2) else some capacity

namespace StringBuffer

/-- `maybe_resize_string_buffer`. -/
def maybeResize (b : StringBuffer) (additional : UInt64) : Except Fault StringBuffer :=
  match growCapacity (b.length + additional) 65 b.capacity with
  | none => .error .endless
  | some capacity =>
      if capacity ≠ b.capacity then do
        let newData := Region.allocate b.heap capacity.toNat
        let bytes ← Region.load b.data 0 b.length.toNat
        let newData ← Region.store newData 0 bytes
        .ok { b with data := newData, capacity := capacity, heap := b.heap.next }
      else .ok b

/-- `gumbo_string_buffer_init`. -/
def init (heap : Allocator Mem) : StringBuffer :=
  ⟨Region.allocate heap kDefaultStringBufferSize.toNat, 0, kDefaultStringBufferSize, heap.next⟩

/-- `gumbo_string_buffer_reserve`. -/
def reserve (b : StringBuffer) (minCapacity : UInt64) : Except Fault StringBuffer :=
  b.maybeResize (minCapacity - b.length)

/-- `memcpy(data + length, str, n); length += n`. -/
def write (b : StringBuffer) (str : List UInt8) : Except Fault StringBuffer := do
  let data ← Region.store b.data b.length.toNat str
  .ok { b with data := data, length := b.length + UInt64.ofNat str.length }

/-- `data[length++] = x`. -/
def push (b : StringBuffer) (x : UInt8) : Except Fault StringBuffer := b.write [x]

/-- `num_bytes`, the number of bytes behind the first one, and the marker of the first one. -/
def leadOf (c : Int) : Nat × UInt8 :=
  if c ≤ 0x7f then (0, 0)
  else if c ≤ 0x7ff then (1, 0xc0)
  else if c ≤ 0xffff then (2, 0xe0)
  else (3, 0xf0)

/-- The first byte. Of an `int` a byte keeps the low bits. -/
def leadByte (c : Int) : UInt8 := (leadOf c).2 ||| UInt8.ofInt (c >>> ((leadOf c).1 * 6))

/-- The byte with `i` others behind it. -/
def tailByte (c : Int) (i : Nat) : UInt8 := 0x80 ||| (0x3f &&& UInt8.ofInt (c >>> (i * 6)))

/-- The loop of `gumbo_string_buffer_append_codepoint`, from `i = n - 1` down. -/
def pushTail (c : Int) : Nat → StringBuffer → Except Fault StringBuffer
  | 0, b => .ok b
  | i + 1, b => b.push (tailByte c i) >>= pushTail c i

/-- `gumbo_string_buffer_append_codepoint`. -/
def appendCodepoint (b : StringBuffer) (c : Int) : Except Fault StringBuffer := do
  let b ← b.maybeResize (UInt64.ofNat ((leadOf c).1 + 1))
  let b ← b.push (leadByte c)
  pushTail c (leadOf c).1 b

/-- `gumbo_string_buffer_append_string`. -/
def appendString (b : StringBuffer) (str : List UInt8) : Except Fault StringBuffer := do
  let b ← b.maybeResize (UInt64.ofNat str.length)
  b.write str

/-- `gumbo_string_buffer_to_string`. -/
def toString (b : StringBuffer) : Except Fault (Option Region) := do
  let buffer := Region.allocate b.heap (b.length + 1).toNat
  let bytes ← Region.load b.data 0 b.length.toNat
  let buffer ← Region.store buffer 0 bytes
  Region.store buffer b.length.toNat [0]

/-- `gumbo_string_buffer_clear`. -/
def clear (b : StringBuffer) : StringBuffer := { b with length := 0 }

end StringBuffer

/-- The operations on a buffer. A string in memory is much shorter than `2^62`. -/
inductive BufferOp where
  | codepoint (c : Int)
  | string (str : List UInt8) (small : str.length < 2 ^ 62)
  | reserve (minCapacity : UInt64)
  | clear

def BufferOp.run (b : StringBuffer) : BufferOp → Except Fault StringBuffer
  | codepoint c => b.appendCodepoint c
  | string str _ => b.appendString str
  | reserve minCapacity => b.reserve minCapacity
  | clear => .ok b.clear

/-- The operations on a new buffer, and then the string made of it, with its terminator. -/
def BufferOp.text (heap : Allocator Mem) (ops : List BufferOp) : Except Fault (List UInt8) := do
  let b ← ops.foldlM BufferOp.run (.init heap)
  let buffer ← b.toString
  Region.load buffer 0 (b.length.toNat + 1)

/-! ## The bytes of a buffer -/

/-- The bytes of a code point. -/
def codepointBytes (c : Int) : List UInt8 :=
  StringBuffer.leadByte c
    :: (List.range (StringBuffer.leadOf c).1).reverse.map (StringBuffer.tailByte c)

/-- What an operation makes of some bytes. -/
def BufferOp.result (bs : List UInt8) : BufferOp → List UInt8
  | codepoint c => bs ++ codepointBytes c
  | string str _ => bs ++ str
  | reserve _ => bs
  | clear => []

/-- How many bytes an operation asks for. -/
def BufferOp.need (bs : List UInt8) : BufferOp → Nat
  | codepoint c => bs.length + (codepointBytes c).length
  | string str _ => bs.length + str.length
  | reserve minCapacity => minCapacity.toNat
  | clear => 0

/-- The most that doubling five can give with 64 bits. -/
def maxCapacity : Nat := 5 * 2 ^ 61

/-- Beyond that the loop does not end. -/
def granted (need : Nat) : Except Fault Unit :=
  if need ≤ maxCapacity then .ok () else .error .endless

/-- **The operations on lists of bytes**, below the limit. -/
def BufferOp.apply (bs : List UInt8) (op : BufferOp) : Except Fault (List UInt8) := do
  granted (op.need bs)
  .ok (op.result bs)

/-- **A buffer with the bytes `bs`.** `bad` is that the allocator has returned `NULL`. -/
structure StringBuffer.Rep (bad : Prop) (b : StringBuffer) (bs : List UInt8) : Prop where
  data : Region.Holds b.data b.capacity.toNat bs ∨ b.data = none ∧ bad
  length : b.length.toNat = bs.length
  capacity : ∃ k, k ≤ 61 ∧ b.capacity.toNat = 5 * 2 ^ k
  room : bs.length ≤ b.capacity.toNat
  heap : ∀ k, b.heap k = none → bad

/-- The fault that a bad allocator is to blame for. -/
def StringBuffer.Blamed (bad : Prop) (e : Fault) : Prop := e = .null ∧ bad

theorem StringBuffer.not_blamed {bad : Prop} (h : ¬ bad) (e : Fault) : ¬ Blamed bad e :=
  fun he => h he.2

/-! ## Growing -/

theorem growCapacity_eq {newLength : UInt64} (hnew : newLength.toNat ≤ maxCapacity) (fuel : Nat)
    {k : Nat} {capacity : UInt64} (hk : k ≤ 61) (hfuel : 61 - k < fuel)
    (hcap : capacity.toNat = 5 * 2 ^ k) :
    ∃ k' capacity', k' ≤ 61 ∧ growCapacity newLength fuel capacity = some capacity'
      ∧ capacity'.toNat = 5 * 2 ^ k' ∧ newLength.toNat ≤ capacity'.toNat
      ∧ capacity.toNat ≤ capacity'.toNat := by
  induction fuel generalizing k capacity with
  | zero => omega
  | succ fuel ih =>
      rw [growCapacity]
      by_cases hlt : capacity < newLength
      · rw [if_pos hlt]
        rw [UInt64.lt_iff_toNat_lt, hcap] at hlt
        have hk' : k < 61 := by
          rcases Nat.lt_or_ge k 61 with h | h
          · exact h
          · have : k = 61 := by omega
            subst this
            exact absurd hlt (by unfold maxCapacity at hnew; omega)
        have hpow : 5 * 2 ^ (k + 1) ≤ 5 * 2 ^ 61 :=
          Nat.mul_le_mul_left 5 (Nat.pow_le_pow_right (by decide) hk')
        have hdouble : (capacity * 2).toNat = 5 * 2 ^ (k + 1) := by
          rw [UInt64.toNat_mul, hcap]
          show 5 * 2 ^ k * 2 % 2 ^ 64 = _
          rw [Nat.mul_assoc, ← Nat.pow_succ]
          exact Nat.mod_eq_of_lt (Nat.lt_of_le_of_lt hpow (by decide))
        obtain ⟨k'', capacity', h1, h2, h3, h4, h5⟩ := ih hk' (by omega) hdouble
        refine ⟨k'', capacity', h1, h2, h3, h4, Nat.le_trans ?_ h5⟩
        rw [hdouble, hcap, Nat.pow_succ]
        omega
      · rw [if_neg hlt]
        rw [UInt64.lt_iff_toNat_lt, Nat.not_lt] at hlt
        exact ⟨k, capacity, hk, rfl, hcap, hlt, Nat.le_refl _⟩

/-- Whatever is doubled, it stays too small: the loop does not end. -/
theorem growCapacity_eq_none {newLength : UInt64} (hnew : maxCapacity < newLength.toNat) (fuel : Nat)
    {capacity : UInt64}
    (hcap : (∃ k, k ≤ 61 ∧ capacity.toNat = 5 * 2 ^ k) ∨ capacity.toNat = 2 ^ 62
      ∨ capacity.toNat = 2 ^ 63 ∨ capacity.toNat = 0) :
    growCapacity newLength fuel capacity = none := by
  induction fuel generalizing capacity with
  | zero => rfl
  | succ fuel ih =>
      have hpow : ∀ k, k ≤ 61 → 5 * 2 ^ k ≤ maxCapacity := fun k hk =>
        Nat.mul_le_mul_left 5 (Nat.pow_le_pow_right (by decide) hk)
      have hlt : capacity < newLength := by
        rw [UInt64.lt_iff_toNat_lt]
        have hmax : (2 : Nat) ^ 63 ≤ maxCapacity := by decide
        rcases hcap with ⟨k, hk, hcap⟩ | hcap | hcap | hcap
        · have := hpow k hk
          omega
        · omega
        · omega
        · omega
      rw [growCapacity, if_pos hlt]
      apply ih
      have hdouble : (capacity * 2).toNat = capacity.toNat * 2 % 2 ^ 64 := UInt64.toNat_mul _ _
      rw [hdouble]
      rcases hcap with ⟨k, hk, hcap⟩ | hcap | hcap | hcap
      · rw [hcap, Nat.mul_assoc, ← Nat.pow_succ]
        rcases Nat.lt_or_ge k 61 with hlt | hge
        · left
          refine ⟨k + 1, hlt, Nat.mod_eq_of_lt ?_⟩
          exact Nat.lt_of_le_of_lt (hpow (k + 1) hlt) (by decide)
        · have hk61 : k = 61 := by omega
          right; left
          rw [hk61]
          rfl
      · right; right; left
        rw [hcap]
        rfl
      · right; right; right
        rw [hcap]
        rfl
      · right; right; right
        rw [hcap]
        rfl

namespace StringBuffer

section

variable {bad : Prop} {b : StringBuffer} {bs : List UInt8}

theorem load_follows (h : Rep bad b bs) :
    Follows (Blamed bad) Eq (Region.load b.data 0 b.length.toNat) (.ok bs) := by
  rcases h.data with hholds | ⟨hnull, hbad⟩
  · rw [h.length, hholds.load_eq]
    exact .ok rfl
  · rw [hnull]
    exact .blamed ⟨rfl, hbad⟩ _

/-- A copy of the bytes to new memory. -/
theorem copy_follows (h : Rep bad b bs) {size : Nat} (hsize : bs.length ≤ size) :
    Follows (Blamed bad) (fun p bs => Region.Holds p size bs)
      (Region.store (Region.allocate b.heap size) 0 bs) (.ok bs) := by
  cases hmem : b.heap 0 with
  | none =>
      rw [Region.allocate, hmem]
      exact .blamed ⟨rfl, h.heap 0 hmem⟩ _
  | some mem =>
      obtain ⟨p, hstore, hholds⟩ := (Region.holds_allocate hmem size).store bs
        (by rw [List.length_nil, Nat.zero_add]; exact hsize)
      rw [List.length_nil] at hstore
      rw [hstore]
      exact .ok hholds

theorem maybeResize_follows (h : Rep bad b bs) (additional : UInt64) :
    Follows (Blamed bad)
      (fun b' _ => Rep bad b' bs ∧ (b.length + additional).toNat ≤ b'.capacity.toNat)
      (b.maybeResize additional) (granted (b.length + additional).toNat) := by
  rw [maybeResize, granted]
  by_cases hfit : (b.length + additional).toNat ≤ maxCapacity
  · obtain ⟨k, hk, hcap⟩ := h.capacity
    obtain ⟨k', capacity, hk', hgrow, hcap', hle, hmono⟩ :=
      growCapacity_eq hfit 65 hk (by omega) hcap
    rw [if_pos hfit, hgrow]
    by_cases hne : capacity ≠ b.capacity
    · have hsize := Nat.le_trans h.room hmono
      simp only [if_pos hne]
      refine (load_follows h).bind_ok ?_
      rintro bytes rfl
      refine (copy_follows h hsize).bind_ok (fun p hp => ?_)
      exact .ok ⟨⟨Or.inl hp, h.length, ⟨k', hk', hcap'⟩, hsize, fun k => h.heap (k + 1)⟩, hle⟩
    · simp only [if_neg hne]
      rw [ne_eq, not_not] at hne
      exact .ok ⟨h, hne ▸ hle⟩
  · rw [if_neg hfit, growCapacity_eq_none (Nat.lt_of_not_le hfit) 65 (.inl h.capacity)]
    exact .error _

/-- The sum is right for what can be appended. -/
theorem length_add (h : Rep bad b bs) {n : Nat} (hn : n < 2 ^ 62) :
    (b.length + UInt64.ofNat n).toNat = bs.length + n := by
  obtain ⟨k, hk, hcap⟩ := h.capacity
  have hmax : 5 * 2 ^ k ≤ 5 * 2 ^ 61 := Nat.mul_le_mul_left 5 (Nat.pow_le_pow_right (by decide) hk)
  have hroom := h.room
  rw [UInt64.toNat_add, UInt64.toNat_ofNat_of_lt' (show n < 2 ^ 64 by omega), h.length]
  exact Nat.mod_eq_of_lt (by omega)

/-- What is written stays inside of the buffer. -/
theorem write_follows (h : Rep bad b bs) (str : List UInt8) (hsmall : str.length < 2 ^ 62)
    (hroom : bs.length + str.length ≤ b.capacity.toNat) :
    Follows (Blamed bad) (fun b' bs' => Rep bad b' bs' ∧ b'.capacity = b.capacity) (b.write str)
      (.ok (bs ++ str)) := by
  rw [write]
  rcases h.data with hholds | ⟨hnull, hbad⟩
  · obtain ⟨p, hstore, hp⟩ := hholds.store str hroom
    rw [h.length, hstore]
    refine .ok ⟨⟨Or.inl hp, ?_, h.capacity, ?_, h.heap⟩, rfl⟩
    · rw [List.length_append]
      exact length_add h hsmall
    · rw [List.length_append]
      exact hroom
  · rw [hnull]
    exact .blamed ⟨rfl, hbad⟩ _

theorem push_follows (h : Rep bad b bs) (x : UInt8) (hroom : bs.length < b.capacity.toNat) :
    Follows (Blamed bad) (fun b' bs' => Rep bad b' bs' ∧ b'.capacity = b.capacity) (b.push x)
      (.ok (bs ++ [x])) :=
  write_follows h [x] (show 1 < 2 ^ 62 by decide) hroom

/-- The induction is on the bytes that are still to come. -/
theorem pushTail_follows (c : Int) (n : Nat) (h : Rep bad b bs)
    (hroom : bs.length + n ≤ b.capacity.toNat) :
    Follows (Blamed bad) (Rep bad) (pushTail c n b)
      (.ok (bs ++ (List.range n).reverse.map (tailByte c))) := by
  induction n generalizing b bs with
  | zero =>
      rw [List.range_zero, List.reverse_nil, List.map_nil, List.append_nil]
      exact .ok h
  | succ n ih =>
      have hbytes : bs ++ (List.range (n + 1)).reverse.map (tailByte c)
          = (bs ++ [tailByte c n]) ++ (List.range n).reverse.map (tailByte c) := by
        rw [List.range_succ, List.reverse_append, List.map_append, List.append_assoc]
        rfl
      rw [pushTail, hbytes]
      refine (push_follows h (tailByte c n) (by omega)).bind_ok ?_
      rintro b' ⟨hrep, hcap⟩
      refine ih hrep ?_
      rw [hcap, List.length_append, List.length_singleton]
      omega

theorem codepointBytes_length (c : Int) : (codepointBytes c).length = (leadOf c).1 + 1 := by
  rw [codepointBytes, List.length_cons, List.length_map, List.length_reverse, List.length_range]

theorem leadOf_le (c : Int) : (leadOf c).1 ≤ 3 := by
  unfold leadOf
  split_ifs <;> decide

theorem appendCodepoint_follows (h : Rep bad b bs) (c : Int) :
    Follows (Blamed bad) (Rep bad) (b.appendCodepoint c) (BufferOp.apply bs (.codepoint c)) := by
  have hsmall := leadOf_le c
  have hadd := length_add h (n := (leadOf c).1 + 1) (by omega)
  have hneed : BufferOp.need bs (.codepoint c)
      = (b.length + UInt64.ofNat ((leadOf c).1 + 1)).toNat := by
    rw [BufferOp.need, codepointBytes_length, hadd]
  rw [appendCodepoint, BufferOp.apply, hneed]
  refine (maybeResize_follows h _).bind ?_
  rintro b' - ⟨hrep, hroom⟩
  rw [hadd] at hroom
  have hbytes : BufferOp.result bs (.codepoint c)
      = (bs ++ [leadByte c]) ++ (List.range (leadOf c).1).reverse.map (tailByte c) := by
    rw [List.append_assoc]
    rfl
  rw [hbytes]
  refine (push_follows hrep (leadByte c) (by omega)).bind_ok ?_
  rintro b'' ⟨hrep', hcap⟩
  refine pushTail_follows c _ hrep' ?_
  rw [hcap, List.length_append, List.length_singleton]
  omega

theorem appendString_follows (h : Rep bad b bs) {str : List UInt8} (hsmall : str.length < 2 ^ 62) :
    Follows (Blamed bad) (Rep bad) (b.appendString str) (BufferOp.apply bs (.string str hsmall)) := by
  have hadd := length_add h hsmall
  have hneed : BufferOp.need bs (.string str hsmall)
      = (b.length + UInt64.ofNat str.length).toNat := hadd.symm
  rw [appendString, BufferOp.apply, hneed]
  refine (maybeResize_follows h _).bind ?_
  rintro b' - ⟨hrep, hroom⟩
  rw [hadd] at hroom
  exact (write_follows hrep str hsmall hroom).mono (fun _ _ h' => h'.1)

theorem reserve_follows (h : Rep bad b bs) (minCapacity : UInt64) :
    Follows (Blamed bad) (Rep bad) (b.reserve minCapacity)
      (BufferOp.apply bs (.reserve minCapacity)) := by
  -- `min_capacity` is asked for in all, also when there are more bytes already
  have hneed : BufferOp.need bs (.reserve minCapacity)
      = (b.length + (minCapacity - b.length)).toNat := by
    rw [BufferOp.need, UInt64.add_comm, UInt64.sub_add_cancel]
  rw [BufferOp.apply, hneed, ← bind_pure (b.reserve minCapacity)]
  exact (maybeResize_follows h _).bind (fun b' _ h' => .ok h'.1)

theorem toString_follows (h : Rep bad b bs) :
    Follows (Blamed bad) (fun p bs => Region.Holds p bs.length bs) b.toString (.ok (bs ++ [0])) := by
  have hsize : (b.length + 1).toNat = bs.length + 1 := length_add h (n := 1) (by decide)
  rw [toString, hsize]
  refine (load_follows h).bind_ok ?_
  rintro bytes rfl
  refine (copy_follows h (Nat.le_succ _)).bind_ok (fun p hp => ?_)
  obtain ⟨p', hstore, hp'⟩ := hp.store [0] (Nat.le_refl _)
  rw [h.length, hstore]
  refine .ok ?_
  rw [List.length_append]
  exact hp'

/-- The bytes are there, if no allocation fails. -/
theorem Rep.load_eq (h : Rep False b bs) : Region.load b.data 0 b.length.toNat = .ok bs := by
  obtain ⟨bytes, hload, rfl⟩ := (load_follows h).exists_ok (not_blamed id)
  exact hload

/-- A code point is appended, if no allocation fails. -/
theorem appendCodepoint_rep (h : Rep False b bs) (c : Int)
    (hfit : bs.length + (codepointBytes c).length ≤ maxCapacity) :
    ∃ b', b.appendCodepoint c = .ok b' ∧ Rep False b' (bs ++ codepointBytes c) := by
  have happly : BufferOp.apply bs (.codepoint c) = .ok (bs ++ codepointBytes c) := by
    rw [BufferOp.apply, granted, BufferOp.need, if_pos hfit]
    rfl
  have hfollows := appendCodepoint_follows h c
  rw [happly] at hfollows
  exact hfollows.exists_ok (not_blamed id)

theorem init_rep {heap : Allocator Mem} (hheap : ∀ k, heap k = none → bad) :
    Rep bad (init heap) [] := by
  refine ⟨?_, rfl, ⟨0, by decide, rfl⟩, Nat.zero_le _, fun k => hheap (k + 1)⟩
  cases hmem : heap 0 with
  | none =>
      refine Or.inr ⟨?_, hheap 0 hmem⟩
      show Region.allocate heap _ = none
      rw [Region.allocate, hmem]
      rfl
  | some mem => exact Or.inl (Region.holds_allocate hmem _)

end

end StringBuffer

/-! ## Runs -/

namespace BufferOp

open StringBuffer

variable {bad : Prop} {b : StringBuffer} {bs : List UInt8}

theorem run_follows (h : Rep bad b bs) (op : BufferOp) :
    Follows (Blamed bad) (Rep bad) (op.run b) (op.apply bs) := by
  cases op with
  | codepoint c => exact appendCodepoint_follows h c
  | string str small => exact appendString_follows h small
  | reserve minCapacity => exact reserve_follows h minCapacity
  | clear =>
      refine .ok ⟨?_, rfl, h.capacity, Nat.zero_le _, h.heap⟩
      exact h.data.imp_left (fun hholds => hholds.clear)

/-- **A buffer is a list of bytes.** Any operations on a new buffer, and then the string made of it,
return what they return for lists, and stay in a loop for ever where those say so. No access leaves the
memory that was allocated. Only if the allocator has returned `NULL`, this may be used. -/
theorem buffer_refines (heap : Allocator Mem) (ops : List BufferOp) :
    text heap ops = (ops.foldlM apply [] >>= fun bs => .ok (bs ++ [0]))
      ∨ text heap ops = .error .null ∧ ∃ k, heap k = none := by
  have hrep : Rep (∃ k, heap k = none) (init heap) [] := init_rep (fun k hk => ⟨k, hk⟩)
  have hruns := Follows.foldlM (fun b bs op h => run_follows h op) ops hrep
  have hfollows : Follows (Blamed (∃ k, heap k = none)) Eq (text heap ops)
      (ops.foldlM apply [] >>= fun bs => .ok (bs ++ [0])) := by
    rw [text]
    refine hruns.bind (fun b bs h => ?_)
    refine (toString_follows h).bind_ok (fun p hp => ?_)
    have hload := hp.load_eq
    rw [List.length_append, List.length_singleton, ← h.length] at hload
    rw [hload]
    exact .ok rfl
  rcases hfollows.eq_or with heq | ⟨e, herror, rfl, hnull⟩
  · exact Or.inl heq
  · exact Or.inr ⟨herror, hnull⟩

end BufferOp

/-! ## Text -/

open StringBuffer

theorem or_add : (∀ x < 0x80, (0 : UInt8) ||| UInt8.ofNat x = UInt8.ofNat (x + 0))
    ∧ (∀ x < 0x20, (0xc0 : UInt8) ||| UInt8.ofNat x = UInt8.ofNat (x + 0xc0))
    ∧ (∀ x < 0x10, (0xe0 : UInt8) ||| UInt8.ofNat x = UInt8.ofNat (x + 0xe0))
    ∧ ∀ x < 0x10, (0xf0 : UInt8) ||| UInt8.ofNat x = UInt8.ofNat (x + 0xf0) := by
  decide +kernel

theorem or_and : ∀ x < 0x100,
    (0x80 : UInt8) ||| (0x3f &&& UInt8.ofNat x) = UInt8.ofNat (x % 64 + 0x80) := by
  decide +kernel

theorem ofInt_shiftRight (u k : Nat) : UInt8.ofInt ((u : Int) >>> (k * 6)) = UInt8.ofNat (u / 64 ^ k) := by
  have hpow : (2 : Nat) ^ (k * 6) = 64 ^ k := by rw [Nat.mul_comm, Nat.pow_mul]
  have hshift : (u : Int) >>> (k * 6) = ((u / 64 ^ k : Nat) : Int) := by
    rw [Int.shiftRight_eq_div_pow, hpow]
    exact Int.ofNat_ediv_ofNat ..
  have hmod : (((u / 64 ^ k : Nat) : Int) % 2 ^ 8).toNat = u / 64 ^ k % UInt8.size := rfl
  rw [hshift, UInt8.ofInt, hmod, UInt8.ofNat_mod_size]

theorem tailByte_eq (u k : Nat) : tailByte u k = tail u k := by
  have hbyte : UInt8.ofNat (u / 64 ^ k) = UInt8.ofNat (u / 64 ^ k % 256) := by
    rw [UInt8.ofNat_mod_size]
  have hmod : u / 64 ^ k % 256 % 64 = u / 64 ^ k % 64 := Nat.mod_mod_of_dvd _ (by decide)
  rw [tailByte, ofInt_shiftRight, hbyte, or_and _ (Nat.mod_lt _ (by decide)), hmod]
  rfl

/-- **A character is appended in UTF-8.** -/
theorem codepointBytes_char (c : Char) : codepointBytes c.toNat = utf8EncodeChar c := by
  obtain ⟨hzero, hone, htwo, hthree⟩ := or_add
  have hlead : (leadOf c.toNat).1 = c.utf8Size - 1
      ∧ leadByte c.toNat = UInt8.ofNat (c.toNat / 64 ^ (c.utf8Size - 1) + lead c.utf8Size) := by
    unfold leadByte leadOf
    rcases size_cases c with ⟨hs, hc⟩ | ⟨hs, hc⟩ | ⟨hs, hc⟩ | ⟨hs, hc⟩
    · rw [if_pos (by omega), hs, ofInt_shiftRight]
      exact ⟨rfl, hzero _ (show c.toNat / 1 < _ by omega)⟩
    · rw [if_neg (by omega), if_pos (by omega), hs, ofInt_shiftRight]
      exact ⟨rfl, hone _ (show c.toNat / 64 < _ by omega)⟩
    · rw [if_neg (by omega), if_neg (by omega), if_pos (by omega), hs, ofInt_shiftRight]
      exact ⟨rfl, htwo _ (show c.toNat / 4096 < _ by omega)⟩
    · rw [if_neg (by omega), if_neg (by omega), if_neg (by omega), hs, ofInt_shiftRight]
      exact ⟨rfl, hthree _ (show c.toNat / 262144 < _ by omega)⟩
  rw [codepointBytes, hlead.1, hlead.2, encode_eq]
  congr 1
  apply List.ext_getElem
  · simp
  · intro i hi _
    simp only [List.length_map, List.length_reverse, List.length_range] at hi
    simp only [List.getElem_map, List.getElem_reverse, List.getElem_range, List.length_range,
      tailByte_eq]
    congr 1

/-- U+FFFD for a character that HTML forbids. -/
def scrubChar (c : Char) : Char := if isInvalidCodePoint c.toNat then Char.ofNat 0xFFFD else c

/-- **The text of a page.** -/
def textOf (items : List Item) : List Char := (newlines false (items.map Item.toChar)).map scrubChar

theorem scrub_eq (c : Char) : scrub c = (scrubChar c).toNat := by
  unfold scrub scrubChar
  split <;> rfl

theorem codePoints_eq (items : List Item) :
    codePoints items = (textOf items).map (fun c => (c.toNat : Int)) := by
  rw [codePoints, textOf, List.map_map]
  exact List.map_congr_left fun c _ => scrub_eq c

/-- A character that is read as itself. -/
def Clean (c : Char) : Prop := c ≠ '\r' ∧ isInvalidCodePoint c.toNat = false

theorem scrubChar_of_clean {c : Char} (h : Clean c) : scrubChar c = c := by
  rw [scrubChar, h.2]
  rfl

theorem clean_scrubChar {c : Char} (h : c ≠ '\r') : Clean (scrubChar c) := by
  rw [scrubChar]
  split
  · exact ⟨by decide, by decide⟩
  · rename_i hvalid
    exact ⟨h, Bool.eq_false_iff.mpr hvalid⟩

theorem cr_not_mem_newlines (cr : Bool) (text : List Char) : '\r' ∉ newlines cr text := by
  induction text generalizing cr with
  | nil => exact List.not_mem_nil
  | cons c text ih =>
      rw [newlines]
      split
      · exact List.not_mem_cons_of_ne_of_not_mem (by decide) (ih true)
      · rename_i hc
        split
        · exact ih false
        · exact List.not_mem_cons_of_ne_of_not_mem (Ne.symm hc) (ih false)

theorem clean_of_mem_textOf {items : List Item} {c : Char} (h : c ∈ textOf items) : Clean c := by
  obtain ⟨d, hd, rfl⟩ := List.mem_map.mp h
  apply clean_scrubChar
  rintro rfl
  exact cr_not_mem_newlines _ _ hd

theorem newlines_of_clean {text : List Char} (h : ∀ c ∈ text, Clean c) : newlines false text = text := by
  induction text with
  | nil => rfl
  | cons c text ih =>
      have hc := h c List.mem_cons_self
      rw [newlines, if_neg hc.1, if_neg (by simp), ih (fun d hd => h d (List.mem_cons_of_mem c hd))]

/-- A text that is clean already is its own text. -/
theorem textOf_of_clean {text : List Char} (h : ∀ c ∈ text, Clean c) :
    textOf (text.map .char) = text := by
  have hchars : (text.map Item.char).map Item.toChar = text := by
    rw [List.map_map]
    exact List.map_id text
  rw [textOf, hchars, newlines_of_clean h]
  exact (List.map_congr_left fun c hc => scrubChar_of_clean (h c hc)).trans (List.map_id text)

theorem reports_of_clean {text : List Char} (h : ∀ c ∈ text, Clean c) (n : Nat) :
    reports n (text.map .char) = [] := by
  rw [reports_eq_nil_iff, List.forall_mem_map]
  intro c hc
  simp [Item.error?, (h c hc).2]

/-! How long the text is. A bad byte becomes the three bytes of U+FFFD. -/

theorem length_newlines_le (cr : Bool) (text : List Char) :
    (((newlines cr text).map scrubChar).flatMap utf8EncodeChar).length
      ≤ (text.map (fun c => (scrubChar c).utf8Size)).sum := by
  induction text generalizing cr with
  | nil => exact Nat.le_refl 0
  | cons c text ih =>
      rw [newlines, List.map_cons, List.sum_cons]
      split
      · rename_i hc
        have hone : (scrubChar '\r').utf8Size = 1 := by decide
        rw [hc, hone, List.map_cons, List.flatMap_cons, List.length_append]
        exact Nat.add_le_add (by decide) (ih true)
      · split
        · exact Nat.le_trans (ih false) (Nat.le_add_left _ _)
        · rw [List.map_cons, List.flatMap_cons, List.length_append, length_encode]
          exact Nat.add_le_add_left (ih false) _

theorem size_scrubChar_le {bs rest : List UInt8} {i : Item} (h : Front bs i rest) :
    (scrubChar i.toChar).utf8Size ≤ 3 * i.bytes.length := by
  have hpos := List.length_pos_iff.mpr h.bytes_ne
  have hthree : (Char.ofNat 0xFFFD).utf8Size = 3 := by decide
  rw [scrubChar]
  split
  · omega
  · cases i with
    | char c =>
        show c.utf8Size ≤ 3 * (utf8EncodeChar c).length
        rw [length_encode]
        omega
    | bad type m =>
        show (Char.ofNat 0xFFFD).utf8Size ≤ _
        omega

theorem length_textOf_le {source : List UInt8} {items : List Item} (h : Segments source items) :
    ((textOf items).flatMap utf8EncodeChar).length ≤ 3 * source.length := by
  refine Nat.le_trans (length_newlines_le false _) ?_
  rw [List.map_map]
  induction h with
  | nil => exact Nat.le_refl 0
  | cons hfront hs ih =>
      have hsize := size_scrubChar_le hfront
      rw [hfront.append, List.length_append, List.map_cons, List.sum_cons, Nat.mul_add]
      exact Nat.add_le_add hsize ih

theorem appendText_rep (text : List Char) {b : StringBuffer} {bs : List UInt8} (h : Rep False b bs)
    (hfit : bs.length + (text.flatMap utf8EncodeChar).length ≤ maxCapacity) :
    ∃ b', (text.map (fun c => (c.toNat : Int))).foldlM appendCodepoint b = .ok b'
      ∧ Rep False b' (bs ++ text.flatMap utf8EncodeChar) := by
  induction text generalizing b bs with
  | nil => exact ⟨b, rfl, by rw [List.flatMap_nil, List.append_nil]; exact h⟩
  | cons c text ih =>
      rw [List.flatMap_cons, List.length_append] at hfit
      obtain ⟨b₁, happend, hrep⟩ := appendCodepoint_rep h c.toNat (by
        rw [codepointBytes_char]
        omega)
      rw [codepointBytes_char] at hrep
      obtain ⟨b', hrun, hrep'⟩ := ih hrep (by rw [List.length_append]; omega)
      refine ⟨b', ?_, ?_⟩
      · rw [List.map_cons, List.foldlM_cons, happend]
        exact hrun
      · rw [List.flatMap_cons, ← List.append_assoc]
        exact hrep'

/-- **Whatever is in a page, its text is UTF-8.** The code points of the page, appended to a buffer one
by one, are bytes that are read as the same code points, without errors. The allocator does not return
`NULL`. -/
theorem copied_page (it it₂ : Utf8Iterator) (parser : Parser) (heap : Nat → Mem)
    (source : List UInt8) (hsize : 3 * source.length ≤ maxCapacity) :
    ∃ codes it' b text,
      Utf8Iterator.collect (source.length + 1) (it.init parser source) = some (codes, it')
      ∧ codes.foldlM appendCodepoint (StringBuffer.init (fun k => some (heap k))) = .ok b
      ∧ Region.load b.data 0 b.length.toNat = .ok text
      ∧ ∃ it'', Utf8Iterator.collect (text.length + 1) (it₂.init Parser.defaults text)
          = some (codes, it'')
        ∧ it''.parser.errors = [] := by
  obtain ⟨items, hseg⟩ := Utf8Iterator.segments_exists source
  obtain ⟨es, it', hread, -, -⟩ := Utf8Iterator.iterate_of_segments it parser hseg
  have hclean : ∀ c ∈ textOf items, Clean c := fun c hc => clean_of_mem_textOf hc
  have hfit : ([] : List UInt8).length + ((textOf items).flatMap utf8EncodeChar).length ≤ maxCapacity := by
    rw [List.length_nil, Nat.zero_add]
    exact Nat.le_trans (length_textOf_le hseg) hsize
  have hinit : Rep False (StringBuffer.init (fun k => some (heap k))) [] := init_rep nofun
  obtain ⟨b, happend, hrep⟩ := appendText_rep (textOf items) hinit hfit
  rw [List.nil_append] at hrep
  obtain ⟨es', it'', hread', hparser, hes'⟩ :=
    Utf8Iterator.iterate_of_segments it₂ Parser.defaults (segments_text (textOf items))
  refine ⟨codePoints items, it', b, _, hread, ?_, hrep.load_eq, it'', ?_, ?_⟩
  · rw [codePoints_eq]
    exact happend
  · rw [hread', codePoints_eq ((textOf items).map .char), textOf_of_clean hclean, ← codePoints_eq]
  · rw [reports_of_clean hclean, List.map_eq_nil_iff] at hes'
    rw [hparser, hes']
    rfl

theorem copied_page_stray :
    ∃ codes it' b text,
      Utf8Iterator.collect 4 (Utf8Iterator.blank.init Parser.defaults [0xFF, 0x0D, 0x01])
        = some (codes, it')
      ∧ codes.foldlM appendCodepoint (StringBuffer.init (fun _ => some (fun _ => 0))) = .ok b
      ∧ Region.load b.data 0 b.length.toNat = .ok text
      ∧ ∃ it'', Utf8Iterator.collect (text.length + 1)
          (Utf8Iterator.blank.init Parser.defaults text) = some (codes, it'')
        ∧ it''.parser.errors = [] :=
  copied_page Utf8Iterator.blank Utf8Iterator.blank Parser.defaults (fun _ _ => 0) [0xFF, 0x0D, 0x01]
    (by decide)

end CSearch.Gumbo
