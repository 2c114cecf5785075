import CSearch.StreamVByte.Format

set_option autoImplicit false

/-! # The encoder of `streamvbytedelta.c`

The encoder is scalar: it walks over the values once, writes the data bytes of each difference
at `dataPtr` and collects the codes in `key`, which it writes at `keyPtr` when it is full.

Pointers are offsets into the output buffer. The key area has `keyLen = (count + 3) / 4` bytes,
computed in `uint32_t`. For `count ≥ 2^32 - 3` the sum wraps around, `keyLen` is `0`, and the key
bytes are written over data bytes written before; `streamvbyteDeltaEncode_eq` describes the
buffer in this case too.
-/

namespace CSearch.StreamVByte

/-! ## The functions of the source -/

/-- `_encode_data`: writes the data bytes of `val` and returns its code. -/
def encodeData (val : UInt32) (out : Mem) (dataPtr : Nat) : Mem × Nat × UInt8 :=
  if val.toNat < 2 ^ 8 then -- 1 byte
    (out.store dataPtr [val.toUInt8], dataPtr + 1, 0)
  else if val.toNat < 2 ^ 16 then -- 2 bytes
    (out.store dataPtr (leBytes 2 val.toNat), dataPtr + 2, 1)
  else if val.toNat < 2 ^ 24 then -- 3 bytes
    ((out.store dataPtr (leBytes 2 val.toNat)).store (dataPtr + 2) [(val >>> 16).toUInt8],
      dataPtr + 3, 2)
  else -- 4 bytes
    (out.store dataPtr (leBytes 4 val.toNat), dataPtr + 4, 3)

/-- The variables of the loop of `svb_encode_scalar_d1_init`, and the output buffer. -/
structure EncState where
  out : Mem
  keyPtr : Nat
  dataPtr : Nat
  shift : UInt8
  key : UInt8
  prev : UInt32

/-- The head of the loop body: a full key is written out. -/
def EncState.emitKey (s : EncState) : EncState :=
  if s.shift = 8 then
    { s with shift := 0, out := s.out.store s.keyPtr [s.key], keyPtr := s.keyPtr + 1, key := 0 }
  else s

/-- The rest of the loop body, for the value `x`. -/
def EncState.push (s : EncState) (x : UInt32) : EncState :=
  let r := encodeData (x - s.prev) s.out s.dataPtr
  { s with
    out := r.1
    dataPtr := r.2.1
    prev := x
    key := s.key ||| (r.2.2 <<< s.shift)
    shift := s.shift + 2 }

/-- One round of the loop of `svb_encode_scalar_d1_init`. -/
def encodeStep (s : EncState) (x : UInt32) : EncState := s.emitKey.push x

/-- `svb_encode_scalar_d1_init`: the buffer after the run and the pointer behind the data. -/
def svbEncodeScalarD1Init (inp : List UInt32) (out : Mem) (keyPtr dataPtr count : Nat)
    (prev : UInt32) : Mem × Nat :=
  if count = 0 then (out, dataPtr) -- exit immediately if no data
  else
    let s := (inp.take count).foldl encodeStep ⟨out, keyPtr, dataPtr, 0, 0, prev⟩
    (s.out.store s.keyPtr [s.key], s.dataPtr) -- write last key

/-- The length of the key area, `(count + 3) / 4` in 32-bit arithmetic. -/
def keyLen (count : UInt32) : Nat := ((count + 3) / 4).toNat

/-- `streamvbyte_delta_encode`: the buffer after the run and the number of bytes. -/
def streamvbyteDeltaEncode (inp : List UInt32) (count : UInt32) (out : Mem) (prev : UInt32) :
    Mem × Nat :=
  svbEncodeScalarD1Init inp out 0 (keyLen count) count.toNat prev

/-! ## One value -/

theorem store_singleton_leBytes (m : Mem) (p : Nat) (v : UInt32) :
    m.store p [v.toUInt8] = m.store p (leBytes 1 v.toNat) := by
  have : v.toUInt8 = UInt8.ofNat v.toNat := by
    apply UInt8.toNat_inj.mp
    rw [UInt32.toNat_toUInt8, UInt8.toNat_ofNat']
  rw [this]; rfl

/-- `_encode_data` writes `width val` little-endian bytes and returns the code of `val`. -/
theorem encodeData_eq (val : UInt32) (out : Mem) (dp : Nat) :
    encodeData val out dp
      = (out.store dp (leBytes (width val) val.toNat), dp + width val, UInt8.ofNat (codeOf val)) := by
  unfold encodeData width codeOf
  split_ifs with h1 h2 h3
  · rw [store_singleton_leBytes]
    rfl
  · rfl
  · rw [store_singleton_leBytes]
    have happ : leBytes 3 val.toNat = leBytes 2 val.toNat ++ leBytes 1 (val >>> 16).toNat := by
      have hs : (val >>> 16).toNat = val.toNat / 256 / 256 := by
        rw [UInt32.toNat_shiftRight, Nat.shiftRight_eq_div_pow, Nat.div_div_eq_div_mul]
        rfl
      rw [hs]; rfl
    have := Mem.store_append out dp (leBytes 2 val.toNat) (leBytes 1 (val >>> 16).toNat)
    rw [leBytes_length] at this
    rw [this, ← happ]
    rfl
  · rfl

/-! ## The key byte under construction -/

/-- Adding a code to a key in which its two bits are still free. -/
theorem key_or_code {key code shift : UInt8} {t : Nat} (ht : t < 4) (hs : shift.toNat = 2 * t)
    (hk : key.toNat < 4 ^ t) (hc : code.toNat < 4) :
    (key ||| (code <<< shift)).toNat = key.toNat + 4 ^ t * code.toNat := by
  have hpow : (4 : Nat) ^ t = 2 ^ (2 * t) := by rw [pow_mul]; norm_num
  have hle : (4 : Nat) ^ t ≤ 4 ^ 3 := Nat.pow_le_pow_right (by omega) (by omega)
  have hsmall : 4 ^ t * code.toNat < 256 := by nlinarith
  rw [UInt8.toNat_or, UInt8.toNat_shiftLeft, hs, Nat.mod_eq_of_lt (by omega : 2 * t < 8),
    Nat.shiftLeft_eq, ← hpow, Nat.mul_comm, Nat.mod_eq_of_lt hsmall, Nat.or_comm]
  rw [hpow] at hk ⊢
  rw [← Nat.two_pow_add_eq_or_of_lt hk]
  omega

/-- A new code goes into the next free place of the key byte under construction ... -/
theorem keyByte_snoc {cs : List Nat} {kp t : Nat} (c : Nat) (ht : t < 4)
    (hlen : cs.length = 4 * kp + t) :
    keyByte (cs ++ [c]) kp = keyByte cs kp + 4 ^ t * c := by
  have hin : ∀ i, i < cs.length → (cs ++ [c]).getD i 0 = cs.getD i 0 := by
    intro i hi
    rw [List.getD, List.getD, List.getElem?_append_left hi]
  have hat : (cs ++ [c]).getD cs.length 0 = c := by simp [List.getD]
  have hout : ∀ i, cs.length < i → (cs ++ [c]).getD i 0 = 0 := by
    intro i hi
    simp [List.getD, List.getElem?_eq_none (show (cs ++ [c]).length ≤ i by simpa using hi)]
  have hnil : ∀ i, cs.length ≤ i → cs.getD i 0 = 0 := by
    intro i hi
    simp [List.getD, List.getElem?_eq_none hi]
  have h4 : t = 0 ∨ t = 1 ∨ t = 2 ∨ t = 3 := by omega
  unfold keyByte
  -- the four places of the key byte are full, the new one, or free
  rcases h4 with rfl | rfl | rfl | rfl
  · rw [show cs.length = 4 * kp by omega] at hat
    rw [hat, hout (4 * kp + 1) (by omega), hout (4 * kp + 2) (by omega),
      hout (4 * kp + 3) (by omega), hnil (4 * kp) (by omega), hnil (4 * kp + 1) (by omega),
      hnil (4 * kp + 2) (by omega), hnil (4 * kp + 3) (by omega)]
    omega
  · rw [hlen] at hat
    rw [hin (4 * kp) (by omega), hat, hout (4 * kp + 2) (by omega), hout (4 * kp + 3) (by omega),
      hnil (4 * kp + 1) (by omega), hnil (4 * kp + 2) (by omega), hnil (4 * kp + 3) (by omega)]
    omega
  · rw [hlen] at hat
    rw [hin (4 * kp) (by omega), hin (4 * kp + 1) (by omega), hat, hout (4 * kp + 3) (by omega),
      hnil (4 * kp + 2) (by omega), hnil (4 * kp + 3) (by omega)]
    omega
  · rw [hlen] at hat
    rw [hin (4 * kp) (by omega), hin (4 * kp + 1) (by omega), hin (4 * kp + 2) (by omega), hat,
      hnil (4 * kp + 3) (by omega)]
    omega

/-- ... and leaves the full ones as they are. -/
theorem keyByte_append_of_lt {cs cs' : List Nat} {j : Nat} (h : 4 * j + 3 < cs.length) :
    keyByte (cs ++ cs') j = keyByte cs j := by
  have hin : ∀ i, i < cs.length → (cs ++ cs').getD i 0 = cs.getD i 0 := by
    intro i hi
    rw [List.getD, List.getD, List.getElem?_append_left hi]
  unfold keyByte
  rw [hin _ (by omega), hin _ (by omega), hin _ (by omega), hin _ h]

/-- A key byte with `t` codes in it. -/
theorem keyByte_lt_pow {ds : List UInt32} {kp t : Nat} (ht : t ≤ 4)
    (hlen : ds.length = 4 * kp + t) : keyByte (codes ds) kp < 4 ^ t := by
  have h0 := codes_getD_lt ds (4 * kp)
  have h1 := codes_getD_lt ds (4 * kp + 1)
  have h2 := codes_getD_lt ds (4 * kp + 2)
  have h3 := codes_getD_lt ds (4 * kp + 3)
  have hnil : ∀ i, ds.length ≤ i → (codes ds).getD i 0 = 0 := by
    intro i hi
    simp [List.getD, List.getElem?_eq_none (show (codes ds).length ≤ i by simpa using hi)]
  unfold keyByte
  have h5 : t = 0 ∨ t = 1 ∨ t = 2 ∨ t = 3 ∨ t = 4 := by omega
  rcases h5 with rfl | rfl | rfl | rfl | rfl
  · rw [hnil (4 * kp) (by omega), hnil (4 * kp + 1) (by omega), hnil (4 * kp + 2) (by omega),
      hnil (4 * kp + 3) (by omega)]
    omega
  · rw [hnil (4 * kp + 1) (by omega), hnil (4 * kp + 2) (by omega), hnil (4 * kp + 3) (by omega)]
    omega
  · rw [hnil (4 * kp + 2) (by omega), hnil (4 * kp + 3) (by omega)]
    omega
  · rw [hnil (4 * kp + 3) (by omega)]
    omega
  · omega

/-! ## The loop -/

/-- The first `n` key bytes of a list of values. -/
def keysUpTo (ds : List UInt32) (n : Nat) : List UInt8 :=
  (List.range n).map (fun j => UInt8.ofNat (keyByte (codes ds) j))

@[simp] theorem keysUpTo_length (ds : List UInt32) (n : Nat) : (keysUpTo ds n).length = n := by
  simp [keysUpTo]

theorem keysUpTo_succ (ds : List UInt32) (n : Nat) :
    keysUpTo ds (n + 1) = keysUpTo ds n ++ [UInt8.ofNat (keyByte (codes ds) n)] := by
  simp [keysUpTo, List.range_succ]

theorem keysUpTo_append (ds es : List UInt32) (n : Nat) (h : 4 * n ≤ ds.length) :
    keysUpTo (ds ++ es) n = keysUpTo ds n := by
  apply List.map_congr_left
  intro j hj
  rw [List.mem_range] at hj
  rw [codes, List.map_append, ← codes, keyByte_append_of_lt (by rw [codes_length]; omega)]

/-- The loop invariant. `ds` are the differences encoded so far; all their data bytes are
written, then the full key bytes over them, and `t` codes are waiting in `key`. -/
structure EncInv (out0 : Mem) (dp0 : Nat) (ds : List UInt32) (t : Nat) (s : EncState) : Prop where
  out : s.out = (out0.store dp0 (dataBytes ds)).store 0 (keysUpTo ds s.keyPtr)
  dataPtr : s.dataPtr = dp0 + dataSize ds
  waiting : ds.length = 4 * s.keyPtr + t
  shift : s.shift.toNat = 2 * t
  key : s.key.toNat = keyByte (codes ds) s.keyPtr

/-- Writing out a full key leaves room for the next code. -/
theorem EncInv.emitKey {out0 : Mem} {dp0 t : Nat} {ds : List UInt32} {s : EncState}
    (h : EncInv out0 dp0 ds t s) (ht : t ≤ 4) :
    ∃ t', t' < 4 ∧ EncInv out0 dp0 ds t' s.emitKey ∧ s.emitKey.prev = s.prev := by
  unfold EncState.emitKey
  by_cases hs : s.shift = 8
  · rw [if_pos hs]
    have ht4 : t = 4 := by
      have h8 := h.shift
      rw [hs] at h8
      have : (8 : UInt8).toNat = 8 := rfl
      omega
    -- four codes are waiting: the key is complete, and the next one starts empty
    subst ht4
    have hkey : UInt8.ofNat (keyByte (codes ds) s.keyPtr) = s.key := by
      rw [← h.key, UInt8.ofNat_toNat]
    refine ⟨0, by omega, ⟨?_, h.dataPtr, ?_, rfl, ?_⟩, rfl⟩
    · show s.out.store s.keyPtr [s.key] = _
      rw [h.out, keysUpTo_succ, hkey, ← Mem.store_append, keysUpTo_length, Nat.zero_add]
    · show ds.length = 4 * (s.keyPtr + 1) + 0
      have := h.waiting
      omega
    · show (0 : UInt8).toNat = keyByte (codes ds) (s.keyPtr + 1)
      have hlt : keyByte (codes ds) (s.keyPtr + 1) < 4 ^ 0 :=
        keyByte_lt_pow (by omega) (by have := h.waiting; omega)
      have : (0 : UInt8).toNat = 0 := rfl
      omega
  · rw [if_neg hs]
    refine ⟨t, ?_, h, rfl⟩
    rcases Nat.lt_or_ge t 4 with hlt | hge
    · exact hlt
    · refine absurd (UInt8.toNat_inj.mp ?_) hs
      rw [h.shift]
      show 2 * t = 8
      omega

/-- Encoding one more value. -/
theorem EncInv.push {out0 : Mem} {dp0 t : Nat} {ds : List UInt32} {s : EncState}
    (h : EncInv out0 dp0 ds t s) (ht : t < 4) (x : UInt32) :
    EncInv out0 dp0 (ds ++ [x - s.prev]) (t + 1) (s.push x) := by
  set d := x - s.prev with hd
  have hcodes : codes (ds ++ [d]) = codes ds ++ [codeOf d] := by simp [codes]
  have hcode : (UInt8.ofNat (codeOf d)).toNat = codeOf d := by
    rw [UInt8.toNat_ofNat', Nat.mod_eq_of_lt (by have := codeOf_lt d; omega)]
  -- the data goes behind everything written so far, key bytes included
  have hroom : 0 + (keysUpTo ds s.keyPtr).length ≤ dp0 + dataSize ds := by
    have h1 := length_le_dataSize ds
    have h2 := h.waiting
    rw [keysUpTo_length]
    omega
  unfold EncState.push
  simp only [← hd, encodeData_eq]
  refine ⟨?_, ?_, ?_, ?_, ?_⟩
  · show s.out.store s.dataPtr (leBytes (width d) d.toNat)
        = (out0.store dp0 (dataBytes (ds ++ [d]))).store 0 (keysUpTo (ds ++ [d]) s.keyPtr)
    rw [h.out, h.dataPtr, Mem.store_comm _ _ _ _ _ hroom, ← dataBytes_length, Mem.store_append,
      keysUpTo_append _ _ _ (by have := h.waiting; omega), dataBytes_append, dataBytes_cons]
    simp [dataBytes]
  · show s.dataPtr + width d = dp0 + dataSize (ds ++ [d])
    rw [h.dataPtr, dataSize_append, dataSize_cons, dataSize_nil]
    omega
  · show (ds ++ [d]).length = 4 * s.keyPtr + (t + 1)
    have := h.waiting
    simp
    omega
  · show (s.shift + 2).toNat = 2 * (t + 1)
    have h2 : (2 : UInt8).toNat = 2 := rfl
    rw [UInt8.toNat_add, h.shift, h2]
    omega
  · show (s.key ||| (UInt8.ofNat (codeOf d) <<< s.shift)).toNat = keyByte (codes (ds ++ [d])) s.keyPtr
    have hk : s.key.toNat < 4 ^ t := by
      rw [h.key]
      exact keyByte_lt_pow (by omega) h.waiting
    rw [key_or_code ht h.shift hk (by rw [hcode]; exact codeOf_lt d), hcode, hcodes,
      keyByte_snoc _ ht (by rw [codes_length]; exact h.waiting), h.key]

/-- A whole run of the loop. -/
theorem EncInv.foldl {out0 : Mem} {dp0 : Nat} (xs : List UInt32) {ds : List UInt32} {t : Nat}
    {s : EncState} (h : EncInv out0 dp0 ds t s) (ht : t ≤ 4) :
    ∃ t', t' ≤ 4 ∧ (xs ≠ [] → 0 < t')
      ∧ EncInv out0 dp0 (ds ++ deltas s.prev xs) t' (xs.foldl encodeStep s) := by
  induction xs generalizing ds t s with
  | nil => exact ⟨t, ht, fun hc => absurd rfl hc, by simpa [deltas] using h⟩
  | cons x xs ih =>
      obtain ⟨t1, ht1, h1, hprev⟩ := h.emitKey ht
      have h2 := h1.push ht1 x
      rw [hprev] at h2
      obtain ⟨t2, ht2, hpos, h3⟩ := ih h2 (by omega)
      refine ⟨t2, ht2, fun _ => ?_, ?_⟩
      · by_cases hx : xs = []
        · -- the run ends with this value, so its code is waiting
          subst hx
          have hw := h3.waiting
          have hw2 := h2.waiting
          simp only [deltas, List.append_nil, List.foldl_nil] at hw
          omega
        · exact hpos hx
      · rw [List.foldl_cons, deltas]
        rw [List.append_assoc] at h3
        exact h3

/-! ## The whole encoder -/

/-- **What `streamvbyte_delta_encode` writes.** All data bytes are written from `keyLen count`
on, all key bytes over them from address `0` on. -/
theorem streamvbyteDeltaEncode_eq (inp : List UInt32) (count : UInt32) (out : Mem) (prev : UInt32)
    (hcount : count.toNat ≤ inp.length) :
    streamvbyteDeltaEncode inp count out prev
      = ((out.store (keyLen count) (dataBytes (deltas prev (inp.take count.toNat)))).store 0
          (keyBytes (deltas prev (inp.take count.toNat))),
        keyLen count + dataSize (deltas prev (inp.take count.toNat))) := by
  unfold streamvbyteDeltaEncode svbEncodeScalarD1Init
  set xs := inp.take count.toNat with hxs
  have hlen : xs.length = count.toNat := by rw [hxs, List.length_take]; omega
  by_cases h0 : count.toNat = 0
  · have hnil : xs = [] := List.eq_nil_of_length_eq_zero (by omega)
    rw [if_pos h0, hnil]
    simp [deltas, dataBytes, keyBytes]
  · rw [if_neg h0]
    have hne : xs ≠ [] := by
      intro hc
      rw [hc] at hlen
      exact h0 hlen.symm
    -- after the loop the key of the last one to four codes is still waiting
    have hinit : EncInv out (keyLen count) [] 0 ⟨out, 0, keyLen count, 0, 0, prev⟩ :=
      ⟨by simp [dataBytes, keysUpTo], rfl, rfl, rfl, rfl⟩
    obtain ⟨t, ht, hpos, h⟩ := hinit.foldl xs (by omega)
    have htpos := hpos hne
    rw [List.nil_append] at h
    set s := xs.foldl encodeStep ⟨out, 0, keyLen count, 0, 0, prev⟩ with hs
    have hkp : (deltas prev xs).length = 4 * s.keyPtr + t := h.waiting
    have hkey : UInt8.ofNat (keyByte (codes (deltas prev xs)) s.keyPtr) = s.key := by
      rw [← h.key, UInt8.ofNat_toNat]
    have hkeys : keyBytes (deltas prev xs) = keysUpTo (deltas prev xs) s.keyPtr ++ [s.key] := by
      rw [keyBytes, ← keysUpTo, show ((deltas prev xs).length + 3) / 4 = s.keyPtr + 1 by omega,
        keysUpTo_succ, hkey]
    show (s.out.store s.keyPtr [s.key], s.dataPtr) = _
    rw [h.out, hkeys, ← Mem.store_append, keysUpTo_length, Nat.zero_add, h.dataPtr]

end CSearch.StreamVByte
