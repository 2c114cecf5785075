import CSearch.ToolC.Buff

set_option autoImplicit false

/-! # `crawl_fetch_t` of `tool.c`

A page is fetched in pieces: the library that does the transfer calls `crawl_fetch_data` for every
piece that arrives, and this appends it to a buffer with `buff_catn`. How the page is cut into
pieces is not under anybody's control.

`buff_catn` takes a piece that starts with a zero byte for an empty string and drops it
(`deliver_contents`), so the result depends on the cuts (`delivers_iff`).
-/

namespace CSearch.ToolC

/-! ## The functions of the source -/

/-- `crawl_fetch_t`, without the handle of the library. -/
structure CrawlFetchT where
  url : CString
  buff : BuffT

namespace CrawlFetchT

/-- `crawl_fetch_init`. -/
def init (url : CString) (heap : Nat → Mem) : CrawlFetchT := ⟨url, BuffT.zero heap⟩

/-- `crawl_fetch_data`: the number of bytes reported as consumed, and the object. -/
def data (f : CrawlFetchT) (content : Mem) (size nmemb : UInt64) : UInt64 × CrawlFetchT :=
  let rsize := size * nmemb
  (rsize, { f with buff := f.buff.catn (some content) rsize })

end CrawlFetchT

/-! ## Pieces -/

/-- The arguments of a call of `crawl_fetch_data`: a piece that is not empty. -/
structure Piece where
  content : Mem
  size : UInt64
  nmemb : UInt64
  pos : 0 < size.toNat * nmemb.toNat

namespace Piece

/-- The bytes of a piece. -/
def bytes (p : Piece) : List UInt8 := p.content.load 0 (p.size.toNat * p.nmemb.toNat)

theorem bytes_length (p : Piece) : p.bytes.length = p.size.toNat * p.nmemb.toNat :=
  Mem.load_length _ _ _

theorem bytes_length_pos (p : Piece) : 0 < p.bytes.length := by
  rw [bytes_length]
  exact p.pos

/-- The product of the arguments is the length of the piece. -/
theorem rsize_toNat {p : Piece} (h : p.bytes.length < 2 ^ 64) :
    (p.size * p.nmemb).toNat = p.bytes.length := by
  rw [bytes_length] at h ⊢
  rw [UInt64.toNat_mul, Nat.mod_eq_of_lt h]

/-- What arrives in all. -/
def body (ps : List Piece) : List UInt8 := ps.flatMap bytes

theorem body_cons (p : Piece) (ps : List Piece) : body (p :: ps) = p.bytes ++ body ps :=
  List.flatMap_cons

/-- The pieces that do not start with a zero byte. -/
def kept (ps : List Piece) : List Piece := ps.filter (fun p => decide (p.content 0 ≠ 0))

theorem kept_cons_of_ne {p : Piece} (h : p.content 0 ≠ 0) (ps : List Piece) :
    kept (p :: ps) = p :: kept ps :=
  List.filter_cons_of_pos (decide_eq_true h)

theorem kept_cons_of_eq {p : Piece} (h : p.content 0 = 0) (ps : List Piece) :
    kept (p :: ps) = kept ps :=
  List.filter_cons_of_neg (by simpa using h)

theorem body_kept_length_le (ps : List Piece) : (body (kept ps)).length ≤ (body ps).length := by
  induction ps with
  | nil => exact Nat.le_refl _
  | cons p ps ih =>
      rw [body_cons, List.length_append]
      by_cases hp : p.content 0 = 0
      · rw [kept_cons_of_eq hp]
        omega
      · rw [kept_cons_of_ne hp, body_cons, List.length_append]
        omega

/-- Nothing is lost exactly if no piece starts with a zero byte. -/
theorem body_kept_iff (ps : List Piece) :
    body (kept ps) = body ps ↔ ∀ p ∈ ps, p.content 0 ≠ 0 := by
  induction ps with
  | nil => exact iff_of_true rfl (fun p hp => absurd hp List.not_mem_nil)
  | cons p ps ih =>
      rw [List.forall_mem_cons]
      by_cases hp : p.content 0 = 0
      · refine iff_of_false (fun h => ?_) (fun h => h.1 hp)
        -- the bytes of the piece are missing
        have hlen := congrArg List.length h
        have hpos := p.bytes_length_pos
        have hle := body_kept_length_le ps
        rw [kept_cons_of_eq hp, body_cons, List.length_append] at hlen
        omega
      · rw [kept_cons_of_ne hp, body_cons, body_cons, List.append_cancel_left_eq, ih]
        exact ⟨fun h => ⟨hp, h⟩, fun h => h.2⟩

end Piece

/-! ## Delivery -/

namespace CrawlFetchT

open Piece

/-- The pieces arrive one by one: what is reported for each of them, and the object. -/
def deliver (f : CrawlFetchT) : List Piece → List UInt64 × CrawlFetchT
  | [] => ([], f)
  | p :: ps =>
      let r := f.data p.content p.size p.nmemb
      let rs := r.2.deliver ps
      (r.1 :: rs.1, rs.2)

/-- **The body is delivered**: every call reports its whole piece as consumed, and in the end the
buffer has exactly the body. -/
def Delivers (ps : List Piece) : Prop :=
  ∀ (url : CString) (heap : Nat → Mem),
    ((init url heap).deliver ps).1.map UInt64.toNat = ps.map (fun p => p.bytes.length)
      ∧ ((init url heap).deliver ps).2.buff.size.toNat = (body ps).length
      ∧ ((init url heap).deliver ps).2.buff.contents = body ps

/-- Every call reports its whole piece. -/
theorem deliver_reports (f : CrawlFetchT) {ps : List Piece} (h : (body ps).length < 2 ^ 64) :
    (f.deliver ps).1.map UInt64.toNat = ps.map (fun p => p.bytes.length) := by
  induction ps generalizing f with
  | nil => rfl
  | cons p ps ih =>
      rw [body_cons, List.length_append] at h
      rw [deliver, List.map_cons, List.map_cons, ih _ (by omega)]
      show (p.size * p.nmemb).toNat :: _ = _
      rw [rsize_toNat (by omega)]

/-- A piece that starts with a zero byte changes nothing. -/
theorem data_of_zero (f : CrawlFetchT) {p : Piece} (h : p.content 0 = 0) :
    (f.data p.content p.size p.nmemb).2 = f := by
  show { f with buff := f.buff.catn (some p.content) (p.size * p.nmemb) } = f
  rw [BuffT.catn, if_pos h]

/-- The pieces that are kept, as calls of `buff_catn`. -/
theorem exists_appends {ps : List Piece} (h : (body ps).length < 2 ^ 64) :
    ∃ as : List Append, as.flatMap Append.bytes = body (kept ps)
      ∧ ∀ f : CrawlFetchT, (f.deliver ps).2.buff = f.buff.appendAll as := by
  induction ps with
  | nil => exact ⟨[], rfl, fun f => rfl⟩
  | cons p ps ih =>
      rw [body_cons, List.length_append] at h
      obtain ⟨as, hbytes, hall⟩ := ih (by omega)
      by_cases hp : p.content 0 = 0
      · refine ⟨as, by rw [kept_cons_of_eq hp, hbytes], fun f => ?_⟩
        show ((f.data p.content p.size p.nmemb).2.deliver ps).2.buff = _
        rw [data_of_zero f hp, hall]
      · refine ⟨.catn p.content (p.size * p.nmemb) hp :: as, ?_, fun f => ?_⟩
        · rw [List.flatMap_cons, kept_cons_of_ne hp, body_cons, hbytes, Append.bytes,
            rsize_toNat (by omega), bytes_length]
          rfl
        · show ((f.data p.content p.size p.nmemb).2.deliver ps).2.buff = _
          rw [hall]
          rfl

/-- **What a delivery leaves in the buffer**: the pieces that do not start with a zero byte. -/
theorem deliver_contents (url : CString) (heap : Nat → Mem) {ps : List Piece}
    (h : (body ps).length < 2 ^ 30) :
    ((init url heap).deliver ps).2.buff.size.toNat = (body (kept ps)).length
      ∧ ((init url heap).deliver ps).2.buff.contents = body (kept ps) := by
  obtain ⟨as, hbytes, hall⟩ := exists_appends (show (body ps).length < 2 ^ 64 by omega)
  have hlt : (as.flatMap Append.bytes).length < 2 ^ 30 := by
    rw [hbytes]
    exact Nat.lt_of_le_of_lt (body_kept_length_le ps) h
  have hrep := BuffT.appendAll_rep heap (BuffT.hasRoom_of_lt hlt) (by omega)
  rw [hbytes] at hrep
  rw [hall]
  exact ⟨hrep.size.trans hrep.length.symm, hrep.contents⟩

/-- **When the body is delivered**: no piece starts with a zero byte. -/
theorem delivers_iff (ps : List Piece) (h : (body ps).length < 2 ^ 30) :
    Delivers ps ↔ ∀ p ∈ ps, p.content 0 ≠ 0 := by
  rw [← body_kept_iff]
  constructor
  · intro hd
    obtain ⟨-, -, hc⟩ := hd ⟨[], List.not_mem_nil⟩ (fun _ _ => 0)
    rw [(deliver_contents _ _ h).2] at hc
    exact hc
  · intro hk url heap
    obtain ⟨hsize, hcont⟩ := deliver_contents url heap h
    rw [hk] at hsize hcont
    exact ⟨deliver_reports _ (by omega), hsize, hcont⟩

/-- The letters `A`, `B` and so on. -/
def letters : Mem := fun a => UInt8.ofNat (65 + a)

/-- The piece `AB`. -/
def pieceAB : Piece := ⟨letters, 1, 2, Nat.le_of_ble_eq_true rfl⟩

theorem delivers_letters : (body [pieceAB, pieceAB]).length < 2 ^ 30 ∧ Delivers [pieceAB, pieceAB] :=
  ⟨by decide, (delivers_iff _ (by decide)).mpr (by decide)⟩

/-- A zero byte and the letter `B`. -/
def pieceZeroB : Piece := ⟨fun a => UInt8.ofNat (66 * a), 1, 2, Nat.le_of_ble_eq_true rfl⟩

/-- The body `A B 0 B`, cut in the middle: the second half is lost. -/
theorem not_delivers_zero : ¬ Delivers [pieceAB, pieceZeroB] := by
  intro hd
  obtain ⟨-, hsize, -⟩ := hd ⟨[], List.not_mem_nil⟩ (fun _ _ => 0)
  rw [(deliver_contents _ _ (by decide)).1] at hsize
  exact absurd hsize (by decide)

end CrawlFetchT

end CSearch.ToolC
