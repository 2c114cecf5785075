import CSearch.Basic.Memory
import CSearch.Basic.Delta
import Mathlib.Data.UInt

set_option autoImplicit false

/-! # The StreamVByte format

A sequence of `n` 32-bit values is stored as `⌈n/4⌉` key bytes and, elsewhere, the data bytes.
Value `i` has a two-bit *code* `c` in key byte `i / 4`, and its `c + 1` data bytes follow those
of value `i - 1`, least significant byte first.

`rawsAt` and `dataEnd` say which values a piece of memory stands for and where their data bytes
end, for any memory whatsoever. They are what both decoders of `Decode.lean` are proved against;
`encodedSize` and `dataBytes` are what the encoder of `Encode.lean` is proved against.
-/

namespace CSearch.StreamVByte

/-! ## Codes and widths -/

/-- The code of a value: one less than the number of bytes it needs. -/
def codeOf (v : UInt32) : Nat :=
  if v.toNat < 2 ^ 8 then 0 else if v.toNat < 2 ^ 16 then 1
  else if v.toNat < 2 ^ 24 then 2 else 3

/-- The number of data bytes of a value. -/
def width (v : UInt32) : Nat := codeOf v + 1

theorem codeOf_lt (v : UInt32) : codeOf v < 4 := by
  unfold codeOf; split_ifs <;> omega

/-- A value fits in the bytes its code announces. -/
theorem toNat_lt_width (v : UInt32) : v.toNat < 256 ^ width v := by
  have hv : v.toNat < 2 ^ 32 := UInt32.toNat_lt v
  unfold width codeOf
  split_ifs <;> omega

/-- ... and in no fewer: a value read from `c + 1` bytes has a code of at most `c`. -/
theorem codeOf_le {v : UInt32} {c : Nat} (hv : v.toNat < 256 ^ (c + 1)) : codeOf v ≤ c := by
  unfold codeOf
  have hc : c = 0 ∨ c = 1 ∨ c = 2 ∨ 3 ≤ c := by omega
  rcases hc with rfl | rfl | rfl | hc <;> split_ifs <;> omega

/-- The data bytes of a list of values. -/
def dataBytes (ds : List UInt32) : List UInt8 := ds.flatMap (fun d => leBytes (width d) d.toNat)

/-- The number of data bytes of a list of values. -/
def dataSize (ds : List UInt32) : Nat := (ds.map width).sum

@[simp] theorem dataBytes_length (ds : List UInt32) : (dataBytes ds).length = dataSize ds := by
  simp [dataBytes, dataSize, List.length_flatMap]

theorem dataBytes_cons (d : UInt32) (ds : List UInt32) :
    dataBytes (d :: ds) = leBytes (width d) d.toNat ++ dataBytes ds := by
  simp [dataBytes]

theorem dataBytes_append (as bs : List UInt32) :
    dataBytes (as ++ bs) = dataBytes as ++ dataBytes bs := by
  simp [dataBytes]

@[simp] theorem dataSize_nil : dataSize [] = 0 := rfl

theorem dataSize_cons (d : UInt32) (ds : List UInt32) :
    dataSize (d :: ds) = width d + dataSize ds := by
  simp [dataSize]

theorem dataSize_append (as bs : List UInt32) :
    dataSize (as ++ bs) = dataSize as + dataSize bs := by
  simp [dataSize]

theorem dataSize_le (ds : List UInt32) : dataSize ds ≤ 4 * ds.length := by
  induction ds with
  | nil => simp
  | cons d ds ih =>
      have := codeOf_lt d
      rw [dataSize_cons, List.length_cons, width]
      omega

theorem length_le_dataSize (ds : List UInt32) : ds.length ≤ dataSize ds := by
  induction ds with
  | nil => simp
  | cons d ds ih =>
      rw [dataSize_cons, List.length_cons, width]
      omega

/-- The bytes that a list of values saves against four bytes for each: one for every value below
`2^24`, another one below `2^16`, and another one below `2^8`. -/
def savedBytes (ds : List UInt32) : Nat :=
  ds.countP (fun d => d.toNat < 2 ^ 8) + ds.countP (fun d => d.toNat < 2 ^ 16)
    + ds.countP (fun d => d.toNat < 2 ^ 24)

theorem dataSize_add_savedBytes (ds : List UInt32) :
    dataSize ds + savedBytes ds = 4 * ds.length := by
  induction ds with
  | nil => rfl
  | cons d ds ih =>
      have hd : width d + (if d.toNat < 2 ^ 8 then 1 else 0) + (if d.toNat < 2 ^ 16 then 1 else 0)
          + (if d.toNat < 2 ^ 24 then 1 else 0) = 4 := by
        unfold width codeOf
        split_ifs <;> omega
      unfold savedBytes at ih ⊢
      simp only [List.countP_cons, dataSize_cons, List.length_cons, decide_eq_true_eq]
      omega

/-- Values of four bytes save nothing. -/
theorem savedBytes_eq_zero {ds : List UInt32} (h : ∀ d ∈ ds, 2 ^ 24 ≤ d.toNat) :
    savedBytes ds = 0 := by
  have hcount : ∀ n ≤ 2 ^ 24, ds.countP (fun d => d.toNat < n) = 0 := by
    intro n hn
    refine List.countP_eq_zero.mpr (fun d hd => ?_)
    have := h d hd
    simp only [decide_eq_true_eq]
    omega
  rw [savedBytes, hcount (2 ^ 8) (by decide), hcount (2 ^ 16) (by decide),
    hcount (2 ^ 24) (by decide)]

/-- Values of at most three bytes save one each. -/
theorem length_le_savedBytes {ds : List UInt32} (h : ∀ d ∈ ds, d.toNat < 2 ^ 24) :
    ds.length ≤ savedBytes ds := by
  have hcount : ds.countP (fun d => d.toNat < 2 ^ 24) = ds.length :=
    List.countP_eq_length.mpr (fun d hd => decide_eq_true (h d hd))
  rw [savedBytes, hcount]
  omega

/-! ## Key bytes -/

/-- Key byte `j` of a list of codes; codes past the end of the list count as `0`. -/
def keyByte (cs : List Nat) (j : Nat) : Nat :=
  cs.getD (4 * j) 0 + 4 * cs.getD (4 * j + 1) 0 + 16 * cs.getD (4 * j + 2) 0
    + 64 * cs.getD (4 * j + 3) 0

/-- The codes of the values of a list. -/
def codes (ds : List UInt32) : List Nat := ds.map codeOf

/-- The key bytes of a list of values. -/
def keyBytes (ds : List UInt32) : List UInt8 :=
  (List.range ((ds.length + 3) / 4)).map (fun j => UInt8.ofNat (keyByte (codes ds) j))

@[simp] theorem codes_length (ds : List UInt32) : (codes ds).length = ds.length := by
  simp [codes]

@[simp] theorem keyBytes_length (ds : List UInt32) :
    (keyBytes ds).length = (ds.length + 3) / 4 := by
  simp [keyBytes]

theorem codes_getD_lt (ds : List UInt32) (i : Nat) : (codes ds).getD i 0 < 4 := by
  rw [List.getD]
  cases h : (codes ds)[i]? with
  | none => simp
  | some c =>
      simp only [codes, List.getElem?_map, Option.map_eq_some_iff] at h
      obtain ⟨d, -, rfl⟩ := h
      exact codeOf_lt d

theorem keyByte_lt (ds : List UInt32) (j : Nat) : keyByte (codes ds) j < 256 := by
  have h0 := codes_getD_lt ds (4 * j)
  have h1 := codes_getD_lt ds (4 * j + 1)
  have h2 := codes_getD_lt ds (4 * j + 2)
  have h3 := codes_getD_lt ds (4 * j + 3)
  unfold keyByte
  omega

/-- The code of value `i`, read from its key byte. -/
theorem keyByte_code (ds : List UInt32) (i : Nat) :
    keyByte (codes ds) (i / 4) / 4 ^ (i % 4) % 4 = (codes ds).getD i 0 := by
  have h0 := codes_getD_lt ds (4 * (i / 4))
  have h1 := codes_getD_lt ds (4 * (i / 4) + 1)
  have h2 := codes_getD_lt ds (4 * (i / 4) + 2)
  have h3 := codes_getD_lt ds (4 * (i / 4) + 3)
  have hi : i % 4 = 0 ∨ i % 4 = 1 ∨ i % 4 = 2 ∨ i % 4 = 3 := by omega
  unfold keyByte
  rcases hi with hi | hi | hi | hi
  · rw [hi, show (codes ds).getD i 0 = (codes ds).getD (4 * (i / 4)) 0 by congr 1; omega]
    omega
  · rw [hi, show (codes ds).getD i 0 = (codes ds).getD (4 * (i / 4) + 1) 0 by congr 1; omega]
    omega
  · rw [hi, show (codes ds).getD i 0 = (codes ds).getD (4 * (i / 4) + 2) 0 by congr 1; omega]
    omega
  · rw [hi, show (codes ds).getD i 0 = (codes ds).getD (4 * (i / 4) + 3) 0 by congr 1; omega]
    omega

/-! ## What a piece of memory stands for -/

/-- The code of value `i` in the key bytes at address `kp`. -/
def codeAt (m : Mem) (kp i : Nat) : Nat := (m (kp + i / 4)).toNat / 4 ^ (i % 4) % 4

/-- The `n` values that start with value `i`, the data bytes of value `i` being at `dp`. -/
def rawsAt (m : Mem) (kp i dp : Nat) : Nat → List UInt32
  | 0 => []
  | n + 1 => UInt32.ofNat (m.le dp (codeAt m kp i + 1))
      :: rawsAt m kp (i + 1) (dp + codeAt m kp i + 1) n

/-- The address behind the data bytes of the `n` values that start with value `i`. -/
def dataEnd (m : Mem) (kp i dp : Nat) : Nat → Nat
  | 0 => dp
  | n + 1 => dataEnd m kp (i + 1) (dp + codeAt m kp i + 1) n

theorem codeAt_lt (m : Mem) (kp i : Nat) : codeAt m kp i < 4 := Nat.mod_lt _ (by omega)

@[simp] theorem rawsAt_length (m : Mem) (kp i dp n : Nat) :
    (rawsAt m kp i dp n).length = n := by
  induction n generalizing i dp with
  | zero => rfl
  | succ n ih => rw [rawsAt, List.length_cons, ih]

theorem rawsAt_add (m : Mem) (kp i dp n k : Nat) :
    rawsAt m kp i dp (n + k)
      = rawsAt m kp i dp n ++ rawsAt m kp (i + n) (dataEnd m kp i dp n) k := by
  induction n generalizing i dp with
  | zero => simp [rawsAt, dataEnd]
  | succ n ih =>
      rw [show n + 1 + k = (n + k) + 1 by omega, rawsAt, rawsAt, ih, dataEnd, List.cons_append,
        show i + 1 + n = i + (n + 1) by omega]

theorem dataEnd_add (m : Mem) (kp i dp n k : Nat) :
    dataEnd m kp i dp (n + k) = dataEnd m kp (i + n) (dataEnd m kp i dp n) k := by
  induction n generalizing i dp with
  | zero => simp [dataEnd]
  | succ n ih =>
      rw [show n + 1 + k = (n + k) + 1 by omega, dataEnd, dataEnd, ih,
        show i + 1 + n = i + (n + 1) by omega]

/-- Four values share a key byte, so value `i + 4 * q` can be counted from key byte `q`. -/
theorem codeAt_shift (m : Mem) (kp i q : Nat) :
    codeAt m kp (i + 4 * q) = codeAt m (kp + q) i := by
  unfold codeAt
  rw [show kp + (i + 4 * q) / 4 = kp + q + i / 4 by omega, show (i + 4 * q) % 4 = i % 4 by omega]

theorem rawsAt_shift (m : Mem) (kp i dp q n : Nat) :
    rawsAt m kp (i + 4 * q) dp n = rawsAt m (kp + q) i dp n := by
  induction n generalizing i dp with
  | zero => rfl
  | succ n ih =>
      rw [rawsAt, rawsAt, codeAt_shift, show i + 4 * q + 1 = (i + 1) + 4 * q by omega, ih]

theorem dataEnd_shift (m : Mem) (kp i dp q n : Nat) :
    dataEnd m kp (i + 4 * q) dp n = dataEnd m (kp + q) i dp n := by
  induction n generalizing i dp with
  | zero => rfl
  | succ n ih =>
      rw [dataEnd, dataEnd, codeAt_shift, show i + 4 * q + 1 = (i + 1) + 4 * q by omega, ih]

theorem le_dataEnd (m : Mem) (kp i dp n : Nat) : dp + n ≤ dataEnd m kp i dp n := by
  induction n generalizing i dp with
  | zero => simp [dataEnd]
  | succ n ih =>
      have := ih (i + 1) (dp + codeAt m kp i + 1)
      rw [dataEnd]
      omega

/-- Memory with the right codes and data bytes stands for the values. -/
theorem rawsAt_of_holds {m : Mem} {kp dp : Nat} (ds : List UInt32) (i : Nat)
    (hc : ∀ j d, ds[j]? = some d → codeAt m kp (i + j) = codeOf d)
    (hd : m.Holds dp (dataBytes ds)) :
    rawsAt m kp i dp ds.length = ds ∧ dataEnd m kp i dp ds.length = dp + dataSize ds := by
  induction ds generalizing i dp with
  | nil => exact ⟨rfl, rfl⟩
  | cons d ds ih =>
      rw [dataBytes_cons, Mem.holds_append, leBytes_length] at hd
      have hcode : codeAt m kp i = codeOf d := hc 0 d rfl
      have hval : m.le dp (width d) = d.toNat := by
        have h := Mem.le_of_holds hd.1
        rw [leBytes_length, leVal_leBytes, Nat.mod_eq_of_lt (toNat_lt_width d)] at h
        exact h
      have hih := ih (i + 1)
        (fun j e hj => by rw [show i + 1 + j = i + (j + 1) by omega]; exact hc (j + 1) e hj) hd.2
      rw [List.length_cons, rawsAt, dataEnd, hcode, ← width, hval, UInt32.ofNat_toNat,
        show dp + codeOf d + 1 = dp + width d from rfl, hih.1, hih.2, dataSize_cons]
      exact ⟨rfl, by omega⟩

/-- What a code can announce fits in 32 bits. -/
theorem pow_code_le {c : Nat} (h : c < 4) : (256 : Nat) ^ (c + 1) ≤ 2 ^ 32 :=
  calc (256 : Nat) ^ (c + 1) ≤ 256 ^ 4 := Nat.pow_le_pow_right (by omega) (by omega)
    _ = 2 ^ 32 := by norm_num

/-- Conversely, memory with the right codes that stands for the values holds their data bytes. -/
theorem holds_of_rawsAt {m : Mem} {kp dp : Nat} (ds : List UInt32) (i : Nat)
    (hc : ∀ j d, ds[j]? = some d → codeAt m kp (i + j) = codeOf d)
    (hr : rawsAt m kp i dp ds.length = ds) : m.Holds dp (dataBytes ds) := by
  induction ds generalizing i dp with
  | nil => exact Mem.Holds.nil m dp
  | cons d ds ih =>
      have hcode : codeAt m kp i = codeOf d := hc 0 d rfl
      rw [List.length_cons, rawsAt, hcode] at hr
      obtain ⟨hd, hds⟩ := List.cons.inj hr
      have hpow := pow_code_le (codeOf_lt d)
      have hval : m.le dp (width d) = d.toNat := by
        have hlt := m.le_lt dp (codeOf d + 1)
        have h := congrArg UInt32.toNat hd
        rw [UInt32.toNat_ofNat', Nat.mod_eq_of_lt (by omega)] at h
        exact h
      rw [dataBytes_cons, Mem.holds_append, leBytes_length]
      refine ⟨Mem.holds_of_le hval, ih (i + 1) (fun j e hj => ?_) hds⟩
      rw [show i + 1 + j = i + (j + 1) by omega]
      exact hc (j + 1) e hj

/-- No memory can hold values in fewer data bytes than their codes take. -/
theorem dataSize_rawsAt_le (m : Mem) (kp i dp n : Nat) :
    dp + dataSize (rawsAt m kp i dp n) ≤ dataEnd m kp i dp n := by
  induction n generalizing i dp with
  | zero => simp [rawsAt, dataEnd]
  | succ n ih =>
      have hlt := m.le_lt dp (codeAt m kp i + 1)
      have hle : codeOf (UInt32.ofNat (m.le dp (codeAt m kp i + 1))) ≤ codeAt m kp i := by
        refine codeOf_le (Nat.lt_of_le_of_lt ?_ hlt)
        rw [UInt32.toNat_ofNat']
        exact Nat.mod_le _ _
      have := ih (i + 1) (dp + codeAt m kp i + 1)
      rw [rawsAt, dataEnd, dataSize_cons, width]
      omega

/-- **Every data byte counts.** Changing the last data byte, if it is not a key byte as well,
changes the values. -/
theorem rawsAt_ne_of_last {m m' : Mem} (kp i dp n : Nat)
    (hk : ∀ j, i ≤ j → j < i + (n + 1) → kp + j / 4 + 1 ≠ dataEnd m kp i dp (n + 1))
    (heq : ∀ a, a + 1 ≠ dataEnd m kp i dp (n + 1) → m a = m' a)
    (hne : ∀ a, a + 1 = dataEnd m kp i dp (n + 1) → m a ≠ m' a) :
    rawsAt m kp i dp (n + 1) ≠ rawsAt m' kp i dp (n + 1) := by
  induction n generalizing i dp with
  | zero =>
      -- the last value: the two memories agree on its code and differ in its top byte
      set c := codeAt m kp i with hcdef
      have hend : dataEnd m kp i dp (0 + 1) = dp + c + 1 := rfl
      rw [hend] at hk heq hne
      have hc : codeAt m' kp i = c := by
        rw [hcdef, codeAt, codeAt, heq _ (hk i (Nat.le_refl i) (by omega))]
      have hlow : m.le dp c = m'.le dp c :=
        Mem.le_congr _ _ (fun a _ h2 => heq a (by omega))
      have htop : (m (dp + c)).toNat ≠ (m' (dp + c)).toNat :=
        fun h => hne (dp + c) rfl (UInt8.toNat_inj.mp h)
      have hc4 : c < 4 := codeAt_lt m kp i
      intro h
      have hval : UInt32.ofNat (m.le dp (c + 1)) = UInt32.ofNat (m'.le dp (c + 1)) := by
        simpa [rawsAt, hc, ← hcdef] using h
      have hpow := pow_code_le hc4
      have h1 := m.le_lt dp (c + 1)
      have h2 := m'.le_lt dp (c + 1)
      have hnat := congrArg UInt32.toNat hval
      rw [UInt32.toNat_ofNat', UInt32.toNat_ofNat', Nat.mod_eq_of_lt (by omega),
        Nat.mod_eq_of_lt (by omega), Mem.le_succ, Mem.le_succ, hlow] at hnat
      exact htop (Nat.eq_of_mul_eq_mul_left (Nat.pow_pos (n := c) (by omega : 0 < 256)) (by omega))
  | succ n ih =>
      -- the first value ends before the changed byte, so the difference is in the tail
      rw [dataEnd] at hk heq hne
      have hc : codeAt m' kp i = codeAt m kp i := by
        rw [codeAt, codeAt, heq _ (hk i (Nat.le_refl i) (by omega))]
      intro h
      have htail := congrArg List.tail h
      simp only [rawsAt.eq_2 m kp i, rawsAt.eq_2 m' kp i, hc, List.tail_cons] at htail
      exact ih (i + 1) (dp + codeAt m kp i + 1) (fun j h1 h2 => hk j (by omega) (by omega))
        heq hne htail

end CSearch.StreamVByte
