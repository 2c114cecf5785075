import CSearch.ToolC.Buff

set_option autoImplicit false

/-! # `crawl_parse_t` of `tool.c`

The text of a page. `crawl_parse_real` walks over the tree of the page and appends the texts it
finds to a buffer, with spaces between them: before every child but the first one, if there is
anything in the buffer already.

Which strings are appended is a matter of the tree alone (`appended`), as long as the buffer has
room (`parseReal_eq`). So `crawl_parse_real` is compared with the texts of a page (`texts`) without
the buffer: they are there, in order, each but the last one followed by a space or more
(`spaced_extracted`).

`buff_cat` does not write a terminator. What follows the text in the buffer is what the last
`realloc` has left there, and `terminated_iff` says that this is all that can end the string.
-/

namespace CSearch.ToolC

/-! ## The tree -/

/-- A tag, as far as `crawl_parse_real` tells tags apart. -/
inductive Tag where
  | script
  | style
  | other (tag : Nat)
  deriving DecidableEq, Repr

/-- The kinds of nodes that are neither elements nor texts. -/
inductive OtherKind where
  | document
  | cdata
  | comment
  | whitespace
  | template
  deriving DecidableEq, Repr

/-- `GumboNode`. -/
inductive Node where
  | text (text : CString)
  | element (tag : Tag) (children : List Node)
  | other (kind : OtherKind) (children : List Node)

/-- Induction over a tree, together with its lists of children. -/
theorem Node.induct {P : Node → Prop} {Q : List Node → Prop} (text : ∀ t, P (.text t))
    (element : ∀ tag ns, Q ns → P (.element tag ns)) (other : ∀ kind ns, Q ns → P (.other kind ns))
    (nil : Q []) (cons : ∀ n ns, P n → Q ns → Q (n :: ns)) : (∀ n, P n) ∧ ∀ ns, Q ns := by
  have hnode : ∀ n, P n := fun n => @Node.rec P Q text element other nil cons n
  refine ⟨hnode, fun ns => ?_⟩
  induction ns with
  | nil => exact nil
  | cons n ns ih => exact cons n ns (hnode n) ih

/-! ## The functions of the source -/

theorem space_nonzero : (0 : UInt8) ∉ [32] := by decide

/-- The string of one space. -/
def space : CString := ⟨[32], space_nonzero⟩

/-- `crawl_parse_t`, without the output of the parser. -/
structure CrawlParseT where
  buff : BuffT

namespace CrawlParseT

/-- `crawl_parse_init`. -/
def init (heap : Nat → Mem) : CrawlParseT := ⟨BuffT.zero heap⟩

mutual

/-- `crawl_parse_real`. -/
def parseReal (c : CrawlParseT) : Node → CrawlParseT
  | .text t => { c with buff := c.buff.cat (some t) }
  | .element tag children =>
      if tag ≠ .script ∧ tag ≠ .style then parseChildren c 0 children else c
  | .other _ _ => c

/-- The loop over the children, from the one with index `k` on. -/
def parseChildren (c : CrawlParseT) (k : Nat) : List Node → CrawlParseT
  | [] => c
  | n :: ns =>
      parseChildren
        (parseReal
          (if 0 < k ∧ c.buff.size ≠ 0 then { c with buff := c.buff.cat (some space) } else c) n)
        (k + 1) ns

end

end CrawlParseT

/-! ## What is appended -/

/-- A string that is not empty. -/
structure Text where
  str : CString
  ne : str.chars ≠ []

namespace Text

/-- The call of `buff_cat` for it. -/
def append (t : Text) : Append := .cat t.str t.ne

/-- The bytes of some strings, one after the other. -/
def bytesOf (ts : List Text) : List UInt8 := ts.flatMap (fun t => t.str.chars)

/-- A space. -/
def space : Text := ⟨ToolC.space, List.cons_ne_nil _ _⟩

theorem bytesOf_append (as bs : List Text) : bytesOf (as ++ bs) = bytesOf as ++ bytesOf bs :=
  List.flatMap_append

theorem bytesOf_singleton (t : Text) : bytesOf [t] = t.str.chars := List.flatMap_singleton _ _

theorem bytesOf_eq_nil_iff (ts : List Text) : bytesOf ts = [] ↔ ts = [] := by
  cases ts with
  | nil => exact iff_of_true rfl rfl
  | cons t ts =>
      refine iff_of_false (fun h => t.ne ?_) (List.cons_ne_nil _ _)
      exact (List.append_eq_nil_iff.mp h).1

theorem flatMap_append_bytes (ts : List Text) :
    (ts.map append).flatMap Append.bytes = bytesOf ts := by
  rw [List.flatMap_map]
  rfl

end Text

open Text (bytesOf)

mutual

/-- The strings appended by `crawl_parse_real`, behind those appended before. -/
def appended (acc : List Text) : Node → List Text
  | .text t => if h : t.chars = [] then acc else acc ++ [⟨t, h⟩]
  | .element tag children =>
      if tag ≠ .script ∧ tag ≠ .style then appendedChildren acc 0 children else acc
  | .other _ _ => acc

/-- The same for the loop over the children. -/
def appendedChildren (acc : List Text) (k : Nat) : List Node → List Text
  | [] => acc
  | n :: ns =>
      appendedChildren (appended (if 0 < k ∧ acc.length ≠ 0 then acc ++ [.space] else acc) n)
        (k + 1) ns

end

/-- The text extracted from a page. -/
def extracted (root : Node) : List UInt8 := bytesOf (appended [] root)

/-- Strings are only added at the end. -/
theorem prefix_appended : (∀ n acc, acc <+: appended acc n)
    ∧ ∀ ns acc k, acc <+: appendedChildren acc k ns := by
  refine Node.induct ?_ ?_ ?_ ?_ ?_
  · intro t acc
    rw [appended]
    split
    · exact List.prefix_refl acc
    · exact List.prefix_append acc _
  · intro tag ns ih acc
    rw [appended]
    split
    · exact ih acc 0
    · exact List.prefix_refl acc
  · intro kind ns _ acc
    rw [appended]
  · intro acc k
    rw [appendedChildren]
  · intro n ns ihn ihns acc k
    rw [appendedChildren]
    refine List.IsPrefix.trans ?_ ((ihn _).trans (ihns _ _))
    split
    · exact List.prefix_append acc _
    · exact List.prefix_refl acc

theorem bytesOf_length_le {as bs : List Text} (h : as <+: bs) :
    (bytesOf as).length ≤ (bytesOf bs).length := by
  obtain ⟨cs, rfl⟩ := h
  rw [Text.bytesOf_append, List.length_append]
  exact Nat.le_add_right _ _

namespace CrawlParseT

/-- The buffer after some appends. -/
def after (heap : Nat → Mem) (acc : List Text) : CrawlParseT :=
  ⟨(BuffT.zero heap).appendAll (acc.map Text.append)⟩

theorem after_rep (heap : Nat → Mem) {acc : List Text} (h : (bytesOf acc).length < 2 ^ 30) :
    BuffT.Rep heap (BuffT.extentOf (acc.map Text.append)) (bytesOf acc) (after heap acc).buff := by
  rw [← Text.flatMap_append_bytes] at h ⊢
  exact BuffT.appendAll_rep heap (BuffT.hasRoom_of_lt h) (by omega)

/-- `c->buff.size` tells whether anything has been appended. -/
theorem after_size_ne_zero_iff (heap : Nat → Mem) {acc : List Text}
    (h : (bytesOf acc).length < 2 ^ 30) : (after heap acc).buff.size ≠ 0 ↔ acc.length ≠ 0 := by
  have hrep := after_rep heap h
  have hsize : (after heap acc).buff.size.toNat = (bytesOf acc).length :=
    hrep.size.trans hrep.length.symm
  rw [ne_eq, ← UInt32.toNat_inj, hsize, show (0 : UInt32).toNat = 0 from rfl,
    List.length_eq_zero_iff, Text.bytesOf_eq_nil_iff, ← List.length_eq_zero_iff]

theorem after_cat (heap : Nat → Mem) (acc : List Text) (t : Text) :
    (⟨(after heap acc).buff.cat (some t.str)⟩ : CrawlParseT) = after heap (acc ++ [t]) := by
  rw [after, after, List.map_append, List.map_singleton, BuffT.appendAll_concat]
  rfl

/-- **`crawl_parse_real` appends `appended`**, if that is not too much. -/
theorem parseReal_eq (heap : Nat → Mem) :
    (∀ n acc, (bytesOf (appended acc n)).length < 2 ^ 30 →
      parseReal (after heap acc) n = after heap (appended acc n))
    ∧ ∀ ns acc k, (bytesOf (appendedChildren acc k ns)).length < 2 ^ 30 →
      parseChildren (after heap acc) k ns = after heap (appendedChildren acc k ns) := by
  refine Node.induct ?_ ?_ ?_ ?_ ?_
  · intro t acc h
    rw [parseReal, appended]
    split
    · next hnil => rw [BuffT.cat, if_pos hnil]
    · next hne => exact after_cat heap acc ⟨t, hne⟩
  · intro tag ns ih acc h
    rw [appended] at h
    rw [parseReal, appended]
    split
    · next htag =>
      rw [if_pos htag] at h
      exact ih acc 0 h
    · rfl
  · intro kind ns _ acc _
    rw [parseReal, appended]
  · intro acc k _
    rw [parseChildren, appendedChildren]
  · intro n ns ihn ihns acc k h
    rw [appendedChildren] at h
    have hn := Nat.lt_of_le_of_lt (bytesOf_length_le (prefix_appended.2 ns _ (k + 1))) h
    have hsep := Nat.lt_of_le_of_lt (bytesOf_length_le (prefix_appended.1 n _)) hn
    rw [parseChildren, appendedChildren, ← ihns _ _ h, ← ihn _ hn]
    -- the separator depends on the size of the buffer in one, on the list in the other
    have hacc : (bytesOf acc).length < 2 ^ 30 := by
      refine Nat.lt_of_le_of_lt (bytesOf_length_le ?_) hsep
      split
      · exact List.prefix_append acc _
      · exact List.prefix_refl acc
    simp only [after_size_ne_zero_iff heap hacc]
    split
    · rw [← after_cat heap acc .space]
      rfl
    · rfl

end CrawlParseT

/-! ## The texts of a page -/

/-- What is to be known of an ancestor of a text. -/
inductive Label where
  | element (tag : Tag)
  | other (kind : OtherKind)
  deriving DecidableEq, Repr

/-- An element that is neither a script nor a style. -/
def Label.Visible (l : Label) : Prop := ∃ tag, l = .element tag ∧ tag ≠ .script ∧ tag ≠ .style

instance (l : Label) : Decidable l.Visible :=
  match l with
  | .element tag =>
      decidable_of_iff (tag ≠ .script ∧ tag ≠ .style)
        ⟨fun h => ⟨tag, rfl, h⟩, fun ⟨_, heq, h⟩ => by cases heq; exact h⟩
  | .other _ => isFalse (fun ⟨_, heq, _⟩ => nomatch heq)

mutual

/-- All texts of a tree in document order, each with its ancestors. -/
def textNodes (ancestors : List Label) : Node → List (List Label × CString)
  | .text t => [(ancestors, t)]
  | .element tag children => textNodesOf (.element tag :: ancestors) children
  | .other kind children => textNodesOf (.other kind :: ancestors) children

/-- The same for a list of nodes. -/
def textNodesOf (ancestors : List Label) : List Node → List (List Label × CString)
  | [] => []
  | n :: ns => textNodes ancestors n ++ textNodesOf ancestors ns

end

/-- A text that is not empty, with visible ancestors only. -/
def Shown (p : List Label × CString) : Prop := (∀ l ∈ p.1, l.Visible) ∧ p.2.chars ≠ []

instance (p : List Label × CString) : Decidable (Shown p) := inferInstanceAs (Decidable (_ ∧ _))

/-- The texts of those that are shown. -/
def shownTexts (l : List (List Label × CString)) : List (List UInt8) :=
  (l.filter (fun p => decide (Shown p))).map (fun p => p.2.chars)

/-- **The texts of a page**, in document order. -/
def texts (root : Node) : List (List UInt8) := shownTexts (textNodes [] root)

theorem shownTexts_append (l l' : List (List Label × CString)) :
    shownTexts (l ++ l') = shownTexts l ++ shownTexts l' := by
  rw [shownTexts, List.filter_append, List.map_append]
  rfl

theorem shownTexts_ne_nil (l : List (List Label × CString)) : ∀ t ∈ shownTexts l, t ≠ [] := by
  intro t ht
  obtain ⟨p, hp, rfl⟩ := List.mem_map.mp ht
  exact (of_decide_eq_true (List.mem_filter.mp hp).2).2

/-- The ancestors of a node are ancestors of everything in it. -/
theorem suffix_textNodes : (∀ n anc, ∀ p ∈ textNodes anc n, anc <:+ p.1)
    ∧ ∀ ns anc, ∀ p ∈ textNodesOf anc ns, anc <:+ p.1 := by
  refine Node.induct ?_ ?_ ?_ ?_ ?_
  · intro t anc p hp
    rw [textNodes, List.mem_singleton] at hp
    rw [hp]
  · intro tag ns ih anc p hp
    rw [textNodes] at hp
    exact (List.suffix_cons _ anc).trans (ih _ p hp)
  · intro kind ns ih anc p hp
    rw [textNodes] at hp
    exact (List.suffix_cons _ anc).trans (ih _ p hp)
  · intro anc p hp
    rw [textNodesOf] at hp
    exact absurd hp List.not_mem_nil
  · intro n ns ihn ihns anc p hp
    rw [textNodesOf, List.mem_append] at hp
    rcases hp with hp | hp
    · exact ihn anc p hp
    · exact ihns anc p hp

/-- Nothing is shown below an ancestor that is not visible. -/
theorem shownTexts_of_not_visible {l : Label} (h : ¬ l.Visible) (anc : List Label)
    (ns : List Node) : shownTexts (textNodesOf (l :: anc) ns) = [] := by
  rw [shownTexts, List.map_eq_nil_iff, List.filter_eq_nil_iff]
  intro p hp hshown
  have hmem : l ∈ p.1 := (suffix_textNodes.2 ns _ p hp).subset List.mem_cons_self
  exact h ((of_decide_eq_true hshown).1 l hmem)

/-! ## Texts and spaces -/

/-- A text, and the number of spaces behind it. -/
def laidOut (ps : List (List UInt8 × Nat)) : List UInt8 :=
  ps.flatMap (fun p => p.1 ++ List.replicate p.2 32)

/-- **Texts with spaces**: the texts in order, each but the last one followed by one space or more,
the last one by any number of spaces. Without texts there is nothing. -/
def Spaced (ts : List (List UInt8)) (s : List UInt8) : Prop :=
  ∃ ps : List (List UInt8 × Nat), ps.map Prod.fst = ts ∧ (∀ p ∈ ps.dropLast, 0 < p.2)
    ∧ s = laidOut ps

/-- The same, with a space behind the last text too: another text can follow. -/
def Ready (ts : List (List UInt8)) (s : List UInt8) : Prop :=
  ∃ ps : List (List UInt8 × Nat), ps.map Prod.fst = ts ∧ (∀ p ∈ ps, 0 < p.2) ∧ s = laidOut ps

theorem ready_nil : Ready [] [] := ⟨[], rfl, fun _ hp => absurd hp List.not_mem_nil, rfl⟩

theorem Ready.spaced {ts : List (List UInt8)} {s : List UInt8} (h : Ready ts s) : Spaced ts s := by
  obtain ⟨ps, hts, hpos, hs⟩ := h
  exact ⟨ps, hts, fun p hp => hpos p (List.mem_of_mem_dropLast hp), hs⟩

/-- A text follows. -/
theorem Ready.text {ts : List (List UInt8)} {s : List UInt8} (h : Ready ts s) (t : List UInt8) :
    Spaced (ts ++ [t]) (s ++ t) := by
  obtain ⟨ps, rfl, hpos, rfl⟩ := h
  refine ⟨ps ++ [(t, 0)], by simp, ?_, by simp [laidOut]⟩
  rw [List.dropLast_concat]
  exact hpos

/-- A space follows. -/
theorem Spaced.space {ts : List (List UInt8)} {s : List UInt8} (h : Spaced ts s) (hts : ts ≠ []) :
    Ready ts (s ++ [32]) := by
  obtain ⟨ps, rfl, hpos, rfl⟩ := h
  obtain ⟨ps, ⟨t, g⟩, rfl⟩ := (List.eq_nil_or_concat' ps).resolve_left
    (fun h' => hts (by rw [h', List.map_nil]))
  rw [List.dropLast_concat] at hpos
  refine ⟨ps ++ [(t, g + 1)], by simp, ?_, ?_⟩
  · exact forall_mem_concat.mpr ⟨hpos, Nat.succ_pos g⟩
  · simp [laidOut, List.replicate_succ']

/-- Texts that are not empty leave something. -/
theorem Spaced.eq_nil_iff {ts : List (List UInt8)} {s : List UInt8} (h : Spaced ts s)
    (hne : ∀ t ∈ ts, t ≠ []) : s = [] ↔ ts = [] := by
  obtain ⟨ps, rfl, -, rfl⟩ := h
  cases ps with
  | nil => exact iff_of_true rfl rfl
  | cons p ps =>
      refine iff_of_false (fun h' => hne p.1 List.mem_cons_self ?_) (by simp)
      exact (List.append_eq_nil_iff.mp (List.append_eq_nil_iff.mp h').1).1

/-- A text below visible ancestors. -/
theorem shownTexts_text {anc : List Label} (hvis : ∀ l ∈ anc, l.Visible) (t : CString) :
    shownTexts (textNodes anc (.text t)) = if t.chars = [] then [] else [t.chars] := by
  rw [textNodes, shownTexts]
  split
  · next h =>
    rw [List.filter_cons_of_neg (by simp [Shown, h])]
    rfl
  · next h =>
    have hshown : Shown (anc, t) := ⟨hvis, h⟩
    rw [List.filter_cons_of_pos (by simpa using hshown)]
    rfl

/-- Before a child is entered another text can follow: it is the first child, or a space has been
appended, or there is nothing yet. -/
theorem ready_separator {ts : List (List UInt8)} {acc : List Text} {k : Nat}
    (hne : ∀ t ∈ ts, t ≠ []) (hspaced : Spaced ts (bytesOf acc))
    (hfirst : k = 0 → Ready ts (bytesOf acc)) :
    Ready ts (bytesOf (if 0 < k ∧ acc.length ≠ 0 then acc ++ [.space] else acc)) := by
  have hnil : acc = [] ↔ ts = [] := by
    rw [← Text.bytesOf_eq_nil_iff]
    exact hspaced.eq_nil_iff hne
  by_cases hk : k = 0
  · rw [if_neg (fun h => absurd h.1 (by omega))]
    exact hfirst hk
  · by_cases hacc : acc = []
    · rw [if_neg (fun h => h.2 (by rw [hacc, List.length_nil])), hnil.mp hacc, hacc]
      exact ready_nil
    · rw [if_pos ⟨Nat.pos_of_ne_zero hk, fun h => hacc (List.length_eq_zero_iff.mp h)⟩,
        Text.bytesOf_append]
      exact hspaced.space (fun h => hacc (hnil.mpr h))

/-- **The walk over the tree**, with the texts that are in the buffer before it. A node is entered
when another text can follow. -/
theorem spaced_appended :
    (∀ n anc acc ts, (∀ l ∈ anc, Label.Visible l) → (∀ t ∈ ts, t ≠ []) → Ready ts (bytesOf acc) →
      Spaced (ts ++ shownTexts (textNodes anc n)) (bytesOf (appended acc n)))
    ∧ ∀ ns anc acc ts k, (∀ l ∈ anc, Label.Visible l) → (∀ t ∈ ts, t ≠ []) →
      Spaced ts (bytesOf acc) → (k = 0 → Ready ts (bytesOf acc)) →
      Spaced (ts ++ shownTexts (textNodesOf anc ns)) (bytesOf (appendedChildren acc k ns)) := by
  refine Node.induct ?_ ?_ ?_ ?_ ?_
  · intro t anc acc ts hvis _ hready
    rw [shownTexts_text hvis, appended]
    by_cases ht : t.chars = []
    · rw [if_pos ht, dif_pos ht, List.append_nil]
      exact hready.spaced
    · rw [if_neg ht, dif_neg ht, Text.bytesOf_append, Text.bytesOf_singleton]
      exact hready.text t.chars
  · intro tag ns ih anc acc ts hvis hne hready
    rw [textNodes, appended]
    by_cases htag : tag ≠ .script ∧ tag ≠ .style
    · have hvis' : ∀ l ∈ .element tag :: anc, Label.Visible l :=
        List.forall_mem_cons.mpr ⟨⟨tag, rfl, htag⟩, hvis⟩
      rw [if_pos htag]
      exact ih _ acc ts 0 hvis' hne hready.spaced (fun _ => hready)
    · rw [if_neg htag, shownTexts_of_not_visible, List.append_nil]
      · exact hready.spaced
      · rintro ⟨tag', heq, hvisible⟩
        cases heq
        exact htag hvisible
  · intro kind ns _ anc acc ts hvis _ hready
    rw [textNodes, appended, shownTexts_of_not_visible, List.append_nil]
    · exact hready.spaced
    · rintro ⟨tag, heq, -⟩
      cases heq
  · intro anc acc ts k _ _ hspaced _
    rw [textNodesOf, appendedChildren]
    show Spaced (ts ++ []) _
    rw [List.append_nil]
    exact hspaced
  · intro n ns ihn ihns anc acc ts k hvis hne hspaced hfirst
    rw [textNodesOf, appendedChildren, shownTexts_append, ← List.append_assoc]
    have hstep := ihn anc _ ts hvis hne (ready_separator hne hspaced hfirst)
    refine ihns anc _ _ (k + 1) hvis ?_ hstep (fun h => absurd h (Nat.succ_ne_zero k))
    rw [List.forall_mem_append]
    exact ⟨hne, shownTexts_ne_nil _⟩

/-- What is extracted from a page are its texts, with spaces. -/
theorem spaced_extracted (root : Node) : Spaced (texts root) (extracted root) :=
  spaced_appended.1 root [] [] [] (fun _ hl => absurd hl List.not_mem_nil)
    (fun _ ht => absurd ht List.not_mem_nil) ready_nil

namespace CrawlParseT

theorem init_eq_after (heap : Nat → Mem) : init heap = after heap [] := rfl

/-- The buffer after `crawl_parse_real` on the root. -/
theorem parseReal_rep (heap : Nat → Mem) {root : Node} (h : (extracted root).length < 2 ^ 30) :
    BuffT.Rep heap (BuffT.extentOf ((appended [] root).map Text.append)) (extracted root)
      (parseReal (init heap) root).buff := by
  rw [init_eq_after, (parseReal_eq heap).1 root [] h]
  exact after_rep heap h

/-- **Text extraction**: `crawl_parse_real` leaves the texts of the page in the buffer, with
spaces. -/
theorem parseReal_spaced (root : Node) (heap : Nat → Mem)
    (h : (extracted root).length < 2 ^ 30) :
    Spaced (texts root) (parseReal (init heap) root).buff.contents := by
  rw [(parseReal_rep heap h).contents]
  exact spaced_extracted root

theorem letterA_nonzero : (0 : UInt8) ∉ [65] := by decide

theorem letterB_nonzero : (0 : UInt8) ∉ [66] := by decide

/-- A page with two texts, a script between them and an empty element at the end. -/
def pageAB : Node :=
  .element (.other 0) [.text ⟨[65], letterA_nonzero⟩,
    .element .script [.text ⟨[66], letterB_nonzero⟩],
    .element (.other 1) [.text ⟨[66], letterB_nonzero⟩], .element (.other 2) []]

/-- The script leaves a second space between the texts, the last element one behind them. -/
theorem parseReal_pageAB :
    (extracted pageAB).length < 2 ^ 30 ∧ texts pageAB = [[65], [66]]
      ∧ extracted pageAB = [65, 32, 32, 66, 32]
      ∧ Spaced (texts pageAB) (parseReal (init (fun _ _ => 0)) pageAB).buff.contents :=
  ⟨by decide, by decide, by decide, parseReal_spaced pageAB _ (by decide)⟩

/-! ## The terminator -/

/-- **The text is a C string**: the string that starts at the beginning of the buffer has exactly
the bytes appended. -/
def Terminated (root : Node) (heap : Nat → Mem) : Prop :=
  let b := (parseReal (init heap) root).buff
  b.size.toNat = (extracted root).length ∧ b.buff.HoldsString 0 (extracted root)

/-- How often `realloc` is called. -/
def reallocs (root : Node) : Nat :=
  (BuffT.extentOf ((appended [] root).map Text.append)).moves

/-- `buff_cat` leaves what is behind the text as `realloc` has left it. -/
theorem after_fresh (heap : Nat → Mem) {acc : List Text} (h : (bytesOf acc).length < 2 ^ 30) :
    BuffT.Fresh heap (BuffT.extentOf (acc.map Text.append)) (after heap acc).buff := by
  induction acc using List.reverseRecOn with
  | nil => exact fun hm => absurd hm (Nat.lt_irrefl 0)
  | append_singleton acc t ih =>
      rw [Text.bytesOf_append, List.length_append, Text.bytesOf_singleton] at h
      have hn := BuffT.toNat_ofNat_length (show t.str.chars.length < 2 ^ 32 by omega)
      have hstep := (after_rep heap (show (bytesOf acc).length < 2 ^ 30 by omega)).append_fresh
        (ih (by omega)) hn.symm (by omega)
      rw [hn] at hstep
      rw [List.map_append, List.map_singleton, BuffT.extentOf_concat, ← after_cat]
      show BuffT.Fresh heap _ ((after heap acc).buff.cat (some t.str))
      rwa [BuffT.cat, if_neg t.ne]

/-- Strings have no zeros. -/
theorem zero_not_mem_bytesOf (ts : List Text) : 0 ∉ bytesOf ts := by
  intro h
  obtain ⟨t, -, ht⟩ := List.mem_flatMap.mp h
  exact t.str.nonzero ht

/-- The text is a C string exactly if a zero happens to follow it. -/
theorem terminated_iff_byte {root : Node} {heap : Nat → Mem}
    (h : (extracted root).length < 2 ^ 30) :
    Terminated root heap
      ↔ (parseReal (init heap) root).buff.buff (extracted root).length = 0 := by
  have hrep := parseReal_rep heap h
  constructor
  · rintro ⟨-, hholds, -⟩
    have hzero := (Mem.holds_cons.mp (Mem.holds_append.mp hholds).2).1
    rwa [Nat.zero_add] at hzero
  · intro hzero
    refine ⟨hrep.size.trans hrep.length.symm, ?_, zero_not_mem_bytesOf _⟩
    rw [Mem.holds_append, Mem.holds_cons, Nat.zero_add]
    exact ⟨hrep.holds, hzero, Mem.Holds.nil _ _⟩

/-- The byte behind the text is one that the last `realloc` has left there. -/
theorem byte_behind (root : Node) (heap : Nat → Mem) (hne : extracted root ≠ [])
    (h : (extracted root).length < 2 ^ 30) :
    (parseReal (init heap) root).buff.buff (extracted root).length
      = heap (reallocs root - 1) (extracted root).length := by
  have happ : appended [] root ≠ [] := fun h' => hne ((Text.bytesOf_eq_nil_iff _).mpr h')
  rw [init_eq_after, (parseReal_eq heap).1 root [] h]
  apply after_fresh heap h
  · apply Extent.run_moves_pos
    simpa using happ
  · exact (after_rep heap h).length.ge

/-- **When the text is a C string**: the byte that the last `realloc` has left at the index `size`
is zero. -/
theorem terminated_iff (root : Node) (heap : Nat → Mem) (hne : extracted root ≠ [])
    (h : (extracted root).length < 2 ^ 30) :
    Terminated root heap ↔ heap (reallocs root - 1) (extracted root).length = 0 := by
  rw [terminated_iff_byte h, byte_behind root heap hne h]

/-- A page with the letter `A` and nothing else. -/
def pageA : Node := .text ⟨[65], letterA_nonzero⟩

/-- In fresh memory that is zero the letter is a string. -/
theorem terminated_pageA :
    extracted pageA ≠ [] ∧ (extracted pageA).length < 2 ^ 30
      ∧ Terminated pageA (fun _ _ => 0) :=
  ⟨by decide, by decide, (terminated_iff pageA _ (by decide) (by decide)).mpr rfl⟩

/-- In other memory it is not. -/
theorem not_terminated_pageA : ¬ Terminated pageA (fun _ _ => 255) := by
  rw [terminated_iff_byte (by decide), byte_behind _ _ (by decide) (by decide)]
  decide

end CrawlParseT

end CSearch.ToolC
