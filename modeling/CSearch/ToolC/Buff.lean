import CSearch.Basic.Growth
import CSearch.Basic.Memory

set_option autoImplicit false

/-! # `buff_t` of `tool.c`

A buffer of bytes that grows. `buff_grow` rounds the space it needs up to a power of two with
`nearest_power`, which computes with 64 bits and returns an `int`. The result is right up to `2^31`;
beyond that the conversions leave `0` (`nearestPower_toNat`).

So a buffer is an `Extent` as long as there is room below `2^31` (`Rep`), and `keepsAppends_iff`
says that nothing else can go wrong. A buffer of less than `2^30` bytes always has room
(`appendAll_rep`).
-/

namespace CSearch.ToolC

/-! ## The functions of the source -/

/-- `nearest_power`. The conversion of the result to `int` keeps the low 32 bits. -/
def nearestPower (num : UInt64) : Int32 :=
  let num := num - 1
  let num := num ||| num >>> 1
  let num := num ||| num >>> 2
  let num := num ||| num >>> 4
  let num := num ||| num >>> 8
  let num := num ||| num >>> 16
  let num := num ||| num >>> 32
  (num + 1).toUInt32.toInt32

/-- `buff_t`. `heap` is the memory the next allocations return. -/
structure BuffT where
  size : UInt32
  cap : UInt32
  buff : Mem
  heap : Nat → Mem

namespace BuffT

/-- A buffer as `memset` leaves it. -/
def zero (heap : Nat → Mem) : BuffT := ⟨0, 0, fun _ => 0, heap⟩

/-- `buff_grow`. -/
def grow (b : BuffT) (size : UInt64) : BuffT :=
  if b.cap.toUInt64 ≤ b.size.toUInt64 + size then
    let cap := (nearestPower (b.cap.toUInt64 + size + 1)).toUInt32
    { b with
      cap := cap
      buff := b.buff.realloc b.cap.toNat cap.toNat (b.heap 0)
      heap := fun k => b.heap (k + 1) }
  else b

/-- What `buff_cat` and `buff_catn` have in common: `buff_grow`, `memcpy`, and `size += len`. -/
def append (b : BuffT) (p : List UInt8) (len : UInt64) : BuffT :=
  let b := b.grow len
  { b with
    buff := b.buff.store b.size.toNat p
    size := (b.size.toUInt64 + len).toUInt32 }

/-- `buff_cat`. The first byte of a string is `0` if the string is empty. -/
def cat (b : BuffT) : Option CString → BuffT
  | none => b
  | some p =>
      if p.chars = [] then b else b.append p.chars (UInt64.ofNat p.chars.length)

/-- `buff_catn`. -/
def catn (b : BuffT) : Option Mem → UInt64 → BuffT
  | none, _ => b
  | some p, rsize =>
      if p 0 = 0 then b
      else
        let b := b.append (p.load 0 rsize.toNat) rsize
        { b with buff := b.buff.store b.size.toNat [0] }

/-- `buff[0..size)`. -/
def contents (b : BuffT) : List UInt8 := b.buff.load 0 b.size.toNat

end BuffT

/-! ## Powers of two -/

theorem smeared_shift {x w : Nat} {y : UInt64} (h : Smeared x w y.toNat) (k : UInt64)
    (hk : k.toNat % 64 = w) : Smeared x (w + w) (y ||| y >>> k).toNat := by
  rw [UInt64.toNat_or, UInt64.toNat_shiftRight, hk]
  exact h.step

/-- **What `nearest_power` returns**, as the capacity it is stored in: the least power of two that
is large enough, if that is at most `2^31`, and `0` otherwise. -/
theorem nearestPower_toNat {num : UInt64} (h : num ≠ 0) :
    (nearestPower num).toUInt32.toNat
      = if num.toNat ≤ 2 ^ 31 then 2 ^ Nat.clog 2 num.toNat else 0 := by
  have hpos : 0 < num.toNat := by
    rw [Nat.pos_iff_ne_zero]
    exact fun h' => h (UInt64.toNat_inj.mp h')
  have hpred : (num - 1).toNat = num.toNat - 1 :=
    UInt64.toNat_sub_of_le num 1 (UInt64.le_iff_toNat_le.mpr hpos)
  -- six steps look at 64 bits
  have h1 := smeared_shift (smeared_one (num - 1).toNat) 1 rfl
  have h2 := smeared_shift h1 2 rfl
  have h3 := smeared_shift h2 4 rfl
  have h4 := smeared_shift h3 8 rfl
  have h5 := smeared_shift h4 16 rfl
  have h6 := (smeared_shift h5 32 rfl).eq_pow (num - 1).toNat_lt
  rw [hpred, Nat.sub_add_cancel hpos] at h6
  have hone : 0 < 2 ^ Nat.clog 2 num.toNat := Nat.pow_pos (by decide)
  have hconv : (nearestPower num).toUInt32.toNat = 2 ^ Nat.clog 2 num.toNat % 2 ^ 32 := by
    simp only [nearestPower, UInt32.toUInt32_toInt32, UInt64.toNat_toUInt32, UInt64.toNat_add]
    rw [h6, show (1 : UInt64).toNat = 1 from rfl, Nat.sub_add_cancel hone, Nat.mod_mod_of_dvd]
    exact pow_dvd_pow 2 (by decide)
  rw [hconv]
  split
  · next hle =>
    rw [← Nat.clog_le_iff_le_pow (by decide)] at hle
    exact Nat.mod_eq_of_lt (Nat.pow_lt_pow_right (by decide) (by omega))
  · next hgt =>
    rw [← Nat.clog_le_iff_le_pow (by decide)] at hgt
    exact Nat.mod_eq_zero_of_dvd (pow_dvd_pow 2 (by omega))

/-! ## One append -/

namespace BuffT

/-- The buffer has the sizes `s` and the bytes `bytes`; `heap` is the memory of all allocations. -/
structure Rep (heap : Nat → Mem) (s : Extent) (bytes : List UInt8) (b : BuffT) : Prop where
  size : b.size.toNat = s.size
  cap : b.cap.toNat = s.cap
  le : s.size ≤ s.cap
  cap_le : s.cap ≤ 2 ^ 31
  length : bytes.length = s.size
  holds : b.buff.Holds 0 bytes
  heap : b.heap = fun k => heap (k + s.moves)

theorem rep_zero (heap : Nat → Mem) : Rep heap Extent.zero [] (zero heap) :=
  ⟨rfl, rfl, Nat.le_refl 0, Nat.zero_le _, rfl, Mem.Holds.nil _ 0, rfl⟩

theorem Rep.contents {heap : Nat → Mem} {s : Extent} {bytes : List UInt8} {b : BuffT}
    (h : Rep heap s bytes b) : b.contents = bytes := by
  rw [BuffT.contents, h.size, ← h.length]
  exact h.holds.load_eq

section

variable {heap : Nat → Mem} {s : Extent} {bytes : List UInt8} {b : BuffT} {n : UInt64}

/-- The sum that `buff_grow` compares does not wrap around. -/
theorem Rep.grows_iff (h : Rep heap s bytes b) (hn : n.toNat < 2 ^ 32) :
    b.cap.toUInt64 ≤ b.size.toUInt64 + n ↔ s.Grows n.toNat := by
  have hsize := b.size.toNat_lt
  rw [UInt64.le_iff_toNat_le, UInt64.toNat_add, UInt32.toNat_toUInt64, UInt32.toNat_toUInt64,
    Nat.mod_eq_of_lt (by omega), h.size, h.cap]
  rfl

/-- The space that is asked of `nearest_power`. -/
theorem Rep.request_toNat (h : Rep heap s bytes b) (hn : n.toNat < 2 ^ 32) :
    (b.cap.toUInt64 + n + 1).toNat = s.cap + n.toNat + 1 := by
  have hcap := b.cap.toNat_lt
  rw [UInt64.toNat_add, UInt64.toNat_add, UInt32.toNat_toUInt64, h.cap,
    show (1 : UInt64).toNat = 1 from rfl]
  rw [h.cap] at hcap
  omega

theorem Rep.grow_cap (h : Rep heap s bytes b) (hn : n.toNat < 2 ^ 32) (hg : s.Grows n.toNat) :
    (b.grow n).cap.toNat
      = if s.cap + n.toNat + 1 ≤ 2 ^ 31 then 2 ^ Nat.clog 2 (s.cap + n.toNat + 1) else 0 := by
  have hreq := h.request_toNat hn
  have hne : b.cap.toUInt64 + n + 1 ≠ 0 := fun h' => by
    rw [h'] at hreq
    exact absurd hreq (by simp)
  rw [grow, if_pos ((h.grows_iff hn).mpr hg)]
  show (nearestPower (b.cap.toUInt64 + n + 1)).toUInt32.toNat = _
  rw [nearestPower_toNat hne, hreq]

/-- With room, `buff_grow` makes space for the bytes and keeps what is there. -/
theorem Rep.grow (h : Rep heap s bytes b) (hn : n.toNat < 2 ^ 32) (hroom : s.Room (2 ^ 31) n.toNat) :
    (b.grow n).size = b.size ∧ (b.grow n).cap.toNat = (s.add n.toNat).cap
      ∧ (b.grow n).buff.Holds 0 bytes
      ∧ (b.grow n).heap = fun k => heap (k + (s.add n.toNat).moves) := by
  by_cases hg : s.Grows n.toNat
  · have hcap := h.grow_cap hn hg
    have hlt := Extent.add_lt h.le n.toNat
    rw [Extent.add_of_grows hg] at hlt
    rw [if_pos (hroom hg)] at hcap
    have hlen : bytes.length ≤ (b.grow n).cap.toNat := by
      rw [h.length, hcap]
      exact (Nat.le_add_right _ _).trans hlt.le
    rw [Extent.add_of_grows hg]
    rw [BuffT.grow, if_pos ((h.grows_iff hn).mpr hg)] at hcap hlen ⊢
    refine ⟨rfl, hcap, ?_, ?_⟩
    · refine h.holds.realloc ?_ hlen _
      rw [h.length, h.cap]
      exact h.le
    · rw [h.heap]
      funext k
      show heap (k + 1 + s.moves) = heap (k + (s.moves + 1))
      rw [Nat.add_assoc, Nat.add_comm 1]
  · rw [BuffT.grow, if_neg (fun h' => hg ((h.grows_iff hn).mp h')), Extent.add_of_fits hg]
    exact ⟨rfl, h.cap, h.holds, h.heap⟩

/-- **An append with room.** -/
theorem Rep.append (h : Rep heap s bytes b) {p : List UInt8} (hp : p.length = n.toNat)
    (hn : n.toNat < 2 ^ 32) (hroom : s.Room (2 ^ 31) n.toNat) :
    Rep heap (s.add n.toNat) (bytes ++ p) (b.append p n) := by
  obtain ⟨hsize, hc, hholds, hheap⟩ := h.grow hn hroom
  have hcap := Extent.add_cap_le h.cap_le hroom
  have hlt := Extent.add_lt h.le n.toNat
  have hstart : (b.grow n).size.toNat = bytes.length := by rw [hsize, h.size, h.length]
  have hsum : ((b.grow n).size.toUInt64 + n).toUInt32.toNat = s.size + n.toNat := by
    rw [Extent.add_size] at hlt
    rw [UInt64.toNat_toUInt32, UInt64.toNat_add, UInt32.toNat_toUInt64, hsize, h.size]
    omega
  refine ⟨?_, hc, hlt.le, hcap, ?_, ?_, hheap⟩
  · rw [Extent.add_size]
    exact hsum
  · rw [List.length_append, h.length, hp, Extent.add_size]
  · show ((b.grow n).buff.store (b.grow n).size.toNat p).Holds 0 (bytes ++ p)
    rw [Mem.holds_append, hstart, Nat.zero_add]
    refine ⟨hholds.congr (fun a _ ha => ?_), Mem.holds_store _ _ _⟩
    rw [Mem.store_lt _ _ _ _ (by omega)]

/-- Behind the bytes lies what the last allocation has returned. -/
def Fresh (heap : Nat → Mem) (s : Extent) (b : BuffT) : Prop :=
  0 < s.moves → ∀ a, s.size ≤ a → b.buff a = heap (s.moves - 1) a

/-- Only the bytes appended are written. What was behind the old ones has been overwritten, or left
behind by `realloc`. -/
theorem Rep.append_fresh (h : Rep heap s bytes b) (hf : Fresh heap s b) {p : List UInt8}
    (hp : p.length = n.toNat) (hn : n.toNat < 2 ^ 32) :
    Fresh heap (s.add n.toNat) (b.append p n) := by
  intro hm a ha
  rw [Extent.add_size] at ha
  have hsize : (b.grow n).size.toNat = s.size := by
    rw [BuffT.grow]
    split <;> exact h.size
  have hstore : (b.append p n).buff a = (b.grow n).buff a :=
    Mem.store_ge _ _ _ _ (by rw [hsize, hp]; exact ha)
  rw [hstore]
  by_cases hg : s.Grows n.toNat
  · have hold : ¬ a < b.cap.toNat := by
      rw [h.cap]
      exact Nat.not_lt.mpr (Nat.le_trans hg ha)
    rw [Extent.add_of_grows hg, BuffT.grow, if_pos ((h.grows_iff hn).mpr hg)]
    show b.buff.realloc b.cap.toNat _ (b.heap 0) a = heap s.moves a
    rw [Mem.realloc, if_neg (fun h' => hold h'.1), h.heap]
    show heap (0 + s.moves) a = heap s.moves a
    rw [Nat.zero_add]
  · rw [Extent.add_of_fits hg] at hm ⊢
    rw [BuffT.grow, if_neg (fun h' => hg ((h.grows_iff hn).mp h'))]
    exact hf hm a ((Nat.le_add_right _ _).trans ha)

/-- `strlen` fits a `size_t`. -/
theorem toNat_ofNat_length {l : List UInt8} (h : l.length < 2 ^ 32) :
    (UInt64.ofNat l.length).toNat = l.length := by
  rw [UInt64.toNat_ofNat', Nat.mod_eq_of_lt (by omega)]

/-- `buff_cat` of a string that is not empty. -/
theorem Rep.cat (h : Rep heap s bytes b) {p : CString} (hne : p.chars ≠ [])
    (hlen : p.chars.length < 2 ^ 32) (hroom : s.Room (2 ^ 31) p.chars.length) :
    Rep heap (s.add p.chars.length) (bytes ++ p.chars) (b.cat (some p)) := by
  have hn := toNat_ofNat_length hlen
  have happ := h.append hn.symm (by rwa [hn]) (by rwa [hn])
  rw [hn] at happ
  rwa [BuffT.cat, if_neg hne]

/-- `buff_catn` of bytes that do not start with a zero. The terminator goes behind them. -/
theorem Rep.catn (h : Rep heap s bytes b) {p : Mem} (hne : p 0 ≠ 0) (hn : n.toNat < 2 ^ 32)
    (hroom : s.Room (2 ^ 31) n.toNat) :
    Rep heap (s.add n.toNat) (bytes ++ p.load 0 n.toNat) (b.catn (some p) n) := by
  have happ := h.append (Mem.load_length p 0 n.toNat) hn hroom
  rw [BuffT.catn, if_neg hne]
  refine ⟨happ.size, happ.cap, happ.le, happ.cap_le, happ.length, ?_, happ.heap⟩
  refine happ.holds.congr (fun a _ ha => ?_)
  rw [Nat.zero_add, happ.length, ← happ.size] at ha
  exact (Mem.store_lt _ _ _ _ ha).symm

end

end BuffT

/-! ## Any appends -/

/-- A call of `buff_cat` or `buff_catn` with an argument whose first byte is not zero. -/
inductive Append where
  | cat (p : CString) (h : p.chars ≠ [])
  | catn (p : Mem) (rsize : UInt64) (h : p 0 ≠ 0)

namespace Append

/-- The call. -/
def run (b : BuffT) : Append → BuffT
  | cat p _ => b.cat (some p)
  | catn p rsize _ => b.catn (some p) rsize

/-- The bytes to be appended. -/
def bytes : Append → List UInt8
  | cat p _ => p.chars
  | catn p rsize _ => p.load 0 rsize.toNat

/-- The space asked of `buff_grow`. -/
def request : Append → UInt64
  | cat p _ => UInt64.ofNat p.chars.length
  | catn _ rsize _ => rsize

theorem request_toNat {a : Append} (h : a.bytes.length < 2 ^ 32) :
    a.request.toNat = a.bytes.length := by
  cases a with
  | cat p hne => exact BuffT.toNat_ofNat_length h
  | catn p rsize hne => exact (Mem.load_length p 0 rsize.toNat).symm

end Append

namespace BuffT

/-- A sequence of calls. -/
def appendAll (b : BuffT) (as : List Append) : BuffT := as.foldl Append.run b

theorem appendAll_concat (b : BuffT) (as : List Append) (a : Append) :
    b.appendAll (as ++ [a]) = a.run (b.appendAll as) := by
  rw [appendAll, List.foldl_append]
  rfl

/-- One call with room. -/
theorem Rep.run {heap : Nat → Mem} {s : Extent} {bytes : List UInt8} {b : BuffT} {a : Append}
    (h : Rep heap s bytes b) (hlen : a.bytes.length < 2 ^ 32)
    (hroom : s.Room (2 ^ 31) a.bytes.length) :
    Rep heap (s.add a.bytes.length) (bytes ++ a.bytes) (a.run b) := by
  cases a with
  | cat p hne => exact h.cat hne hlen hroom
  | catn p rsize hne =>
      have hload : (p.load 0 rsize.toNat).length = rsize.toNat := Mem.load_length p 0 _
      simp only [Append.bytes, hload] at hlen hroom ⊢
      exact h.catn hne hlen hroom

/-- The sizes after a sequence of calls. -/
def extentOf (as : List Append) : Extent := Extent.run (as.map (fun a => a.bytes.length))

theorem extentOf_concat (as : List Append) (a : Append) :
    extentOf (as ++ [a]) = (extentOf as).add a.bytes.length := by
  rw [extentOf, List.map_append, List.map_singleton, Extent.run_concat]
  rfl

/-- At every call there is room below `2^31`. -/
def HasRoom (as : List Append) : Prop :=
  AtEach (fun pre n => (Extent.run pre).Room (2 ^ 31) n) (as.map (fun a => a.bytes.length))

theorem sum_lengths (as : List Append) :
    (as.map (fun a => a.bytes.length)).sum = (as.flatMap Append.bytes).length :=
  List.length_flatMap.symm

theorem hasRoom_concat (as : List Append) (a : Append) :
    HasRoom (as ++ [a]) ↔ HasRoom as ∧ (extentOf as).Room (2 ^ 31) a.bytes.length := by
  rw [HasRoom, List.map_append, List.map_singleton, atEach_concat]
  rfl

/-- Less than `2^30` bytes always have room. -/
theorem hasRoom_of_lt {as : List Append} (h : (as.flatMap Append.bytes).length < 2 ^ 30) :
    HasRoom as := by
  apply Extent.atEach_room_of_sum
  rw [sum_lengths]
  omega

/-- **A sequence of calls with room** appends all the bytes. -/
theorem appendAll_rep (heap : Nat → Mem) {as : List Append} (hroom : HasRoom as)
    (hlen : (as.flatMap Append.bytes).length < 2 ^ 32) :
    Rep heap (extentOf as) (as.flatMap Append.bytes) ((zero heap).appendAll as) := by
  induction as using List.reverseRecOn with
  | nil => exact rep_zero heap
  | append_singleton as a ih =>
      obtain ⟨has, ha⟩ := (hasRoom_concat as a).mp hroom
      rw [List.flatMap_append, List.flatMap_singleton, List.length_append] at hlen
      have hstep := (ih has (by omega)).run (show a.bytes.length < 2 ^ 32 by omega) ha
      rw [appendAll_concat, List.flatMap_append, List.flatMap_singleton, extentOf_concat]
      exact hstep

/-- The call `a` after the calls `pre`: the bytes of the buffer are those appended so far, with a
byte to spare in the allocation, and `buff_grow` has made more space than was asked for. -/
def KeptAt (heap : Nat → Mem) (pre : List Append) (a : Append) : Prop :=
  let b := (zero heap).appendAll pre
  let b' := a.run b
  b'.size < b'.cap ∧ b'.contents = (pre ++ [a]).flatMap Append.bytes
    ∧ b.size.toNat + a.request.toNat < (b.grow a.request).cap.toNat

/-- **The buffer is kept** by every call, whatever the allocator returns. -/
def KeepsAppends (as : List Append) : Prop := ∀ heap : Nat → Mem, AtEach (KeptAt heap) as

/-- One call is right exactly if there is room for it. -/
theorem Rep.kept_iff {heap : Nat → Mem} {s : Extent} {bytes : List UInt8} {b : BuffT} {a : Append}
    (h : Rep heap s bytes b) (hlen : a.bytes.length < 2 ^ 32) :
    ((a.run b).size < (a.run b).cap ∧ (a.run b).contents = bytes ++ a.bytes
        ∧ b.size.toNat + a.request.toNat < (b.grow a.request).cap.toNat)
      ↔ s.Room (2 ^ 31) a.bytes.length := by
  have hreq := Append.request_toNat hlen
  constructor
  · rintro ⟨-, -, hgrow⟩ hg
    by_contra hbound
    rw [← hreq] at hg hlen hbound
    rw [h.grow_cap hlen hg, if_neg hbound] at hgrow
    exact absurd hgrow (Nat.not_lt_zero _)
  · intro hroom
    have hrep := h.run hlen hroom
    have hlt := Extent.add_lt h.le a.bytes.length
    refine ⟨?_, hrep.contents, ?_⟩
    · rw [UInt32.lt_iff_toNat_lt, hrep.size, hrep.cap]
      exact hlt
    · rw [Extent.add_size] at hlt
      rw [← hreq] at hlen hroom hlt
      rw [(h.grow hlen hroom).2.1, h.size]
      exact hlt

theorem keepsAppends_iff_hasRoom {as : List Append}
    (h : (as.flatMap Append.bytes).length < 2 ^ 32) : KeepsAppends as ↔ HasRoom as := by
  have hiff : ∀ heap : Nat → Mem, AtEach (KeptAt heap) as ↔ HasRoom as := by
    intro heap
    induction as using List.reverseRecOn with
    | nil => exact iff_of_true (atEach_nil _) (atEach_nil _)
    | append_singleton as a ih =>
        rw [List.flatMap_append, List.flatMap_singleton, List.length_append] at h
        rw [atEach_concat, ih (by omega), hasRoom_concat]
        apply and_congr_right
        intro hroom
        have hrep := appendAll_rep heap hroom (by omega)
        rw [KeptAt, List.flatMap_append, List.flatMap_singleton]
        exact hrep.kept_iff (by omega)
  exact ⟨fun hk => (hiff (fun _ _ => 0)).mp (hk _), fun hr heap => (hiff heap).mpr hr⟩

/-- **When the buffer is kept**: whenever it has to grow, the capacity so far, the bytes asked for
and one more are at most `2^31`. -/
theorem keepsAppends_iff (as : List Append)
    (h : (as.flatMap Append.bytes).length < 2 ^ 32 - 1) :
    KeepsAppends as ↔ AtEach (fun pre n => (Extent.run pre).Room (2 ^ 31) n)
      (as.map (fun a => a.bytes.length)) :=
  keepsAppends_iff_hasRoom (by omega)

theorem dude_nonzero : (0 : UInt8) ∉ [68, 85, 68, 69] := by decide

/-- `buff_cat(&b, "DUDE")`. -/
def dude : Append := .cat ⟨[68, 85, 68, 69], dude_nonzero⟩ (List.cons_ne_nil _ _)

/-- The first two appends of `btest`. -/
theorem keepsAppends_dude :
    ([dude, dude].flatMap Append.bytes).length < 2 ^ 32 - 1 ∧ KeepsAppends [dude, dude] :=
  ⟨by decide, (keepsAppends_iff _ (by decide)).mpr (Extent.atEach_room_of_sum (by decide))⟩

theorem letterA_ne_zero : (65 : UInt8) ≠ 0 := by decide

/-- `buff_catn` of `2^31` letters. -/
def manyLetters : Append := .catn (fun _ => 65) 2147483648 letterA_ne_zero

/-- For `2^31` bytes at once `nearest_power` returns `0`. -/
theorem not_keepsAppends_manyLetters : ¬ KeepsAppends [manyLetters] := by
  have hlen : manyLetters.bytes.length = 2 ^ 31 := by
    rw [manyLetters, Append.bytes, Mem.load_length]
    decide
  rw [keepsAppends_iff_hasRoom (by rw [List.flatMap_singleton, hlen]; decide)]
  intro hroom
  have hfirst := ((hasRoom_concat [] manyLetters).mp hroom).2
  rw [hlen] at hfirst
  exact absurd (hfirst (Nat.zero_le _)) (by decide)

end BuffT

end CSearch.ToolC
