import CSearch.Gumbo.Iterator
import CSearch.Basic.Memory
import CSearch.Basic.Search

set_option autoImplicit false

/-! # Tag names: `tag.c` and `tag_gperf.h`

`gumbo_tagn_enum` finds the tag with a name through a perfect hash: the length and three bytes of the
name give an index into `kGumboTagMap`, and the name found there is compared with the one that was
asked for. Neither the hash nor the comparison tells upper from lower case. The result is the one of a
search through the names of all tags in order (`tagnEnum_eq_search`), for any bytes.

All that is computed with the tables stands in four lemmas (`assoValue_tolower`, `map_at_hash`,
`map_entries`, `searchTag_nil`).
-/

namespace CSearch.Gumbo

open Utf8Iterator (tolower)

/-! ## The tables of the source -/

/-- `GumboTag`, with the tags of `tag_enum.h`. -/
inductive GumboTag where
  | HTML | HEAD | TITLE | BASE | LINK | META | STYLE | SCRIPT | NOSCRIPT | TEMPLATE | BODY
  | ARTICLE | SECTION | NAV | ASIDE | H1 | H2 | H3 | H4 | H5 | H6 | HGROUP | HEADER | FOOTER
  | ADDRESS | P | HR | PRE | BLOCKQUOTE | OL | UL | LI | DL | DT | DD | FIGURE | FIGCAPTION | MAIN
  | DIV | A | EM | STRONG | SMALL | S | CITE | Q | DFN | ABBR | DATA | TIME | CODE | VAR | SAMP
  | KBD | SUB | SUP | I | B | U | MARK | RUBY | RT | RP | BDI | BDO | SPAN | BR | WBR | INS | DEL
  | IMAGE | IMG | IFRAME | EMBED | OBJECT | PARAM | VIDEO | AUDIO | SOURCE | TRACK | CANVAS | MAP
  | AREA | MATH | MI | MO | MN | MS | MTEXT | MGLYPH | MALIGNMARK | ANNOTATION_XML | SVG
  | FOREIGNOBJECT | DESC | TABLE | CAPTION | COLGROUP | COL | TBODY | THEAD | TFOOT | TR | TD | TH
  | FORM | FIELDSET | LEGEND | LABEL | INPUT | BUTTON | SELECT | DATALIST | OPTGROUP | OPTION
  | TEXTAREA | KEYGEN | OUTPUT | PROGRESS | METER | DETAILS | SUMMARY | MENU | MENUITEM | APPLET
  | ACRONYM | BGSOUND | DIR | FRAME | FRAMESET | NOFRAMES | ISINDEX | LISTING | XMP | NEXTID
  | NOEMBED | PLAINTEXT | RB | STRIKE | BASEFONT | BIG | BLINK | CENTER | FONT | MARQUEE | MULTICOL
  | NOBR | SPACER | TT | RTC | UNKNOWN | LAST
  deriving DecidableEq

/-- `kGumboTagNames`, with the strings of `tag_strings.h`. -/
def kGumboTagNames : List (List Char) :=
  [['h', 't', 'm', 'l'], ['h', 'e', 'a', 'd'], ['t', 'i', 't', 'l', 'e'], ['b', 'a', 's', 'e'],
   ['l', 'i', 'n', 'k'], ['m', 'e', 't', 'a'], ['s', 't', 'y', 'l', 'e'],
   ['s', 'c', 'r', 'i', 'p', 't'], ['n', 'o', 's', 'c', 'r', 'i', 'p', 't'],
   ['t', 'e', 'm', 'p', 'l', 'a', 't', 'e'], ['b', 'o', 'd', 'y'],
   ['a', 'r', 't', 'i', 'c', 'l', 'e'], ['s', 'e', 'c', 't', 'i', 'o', 'n'], ['n', 'a', 'v'],
   ['a', 's', 'i', 'd', 'e'], ['h', '1'], ['h', '2'], ['h', '3'], ['h', '4'], ['h', '5'],
   ['h', '6'], ['h', 'g', 'r', 'o', 'u', 'p'], ['h', 'e', 'a', 'd', 'e', 'r'],
   ['f', 'o', 'o', 't', 'e', 'r'], ['a', 'd', 'd', 'r', 'e', 's', 's'], ['p'], ['h', 'r'],
   ['p', 'r', 'e'], ['b', 'l', 'o', 'c', 'k', 'q', 'u', 'o', 't', 'e'], ['o', 'l'], ['u', 'l'],
   ['l', 'i'], ['d', 'l'], ['d', 't'], ['d', 'd'], ['f', 'i', 'g', 'u', 'r', 'e'],
   ['f', 'i', 'g', 'c', 'a', 'p', 't', 'i', 'o', 'n'], ['m', 'a', 'i', 'n'], ['d', 'i', 'v'],
   ['a'], ['e', 'm'], ['s', 't', 'r', 'o', 'n', 'g'], ['s', 'm', 'a', 'l', 'l'], ['s'],
   ['c', 'i', 't', 'e'], ['q'], ['d', 'f', 'n'], ['a', 'b', 'b', 'r'], ['d', 'a', 't', 'a'],
   ['t', 'i', 'm', 'e'], ['c', 'o', 'd', 'e'], ['v', 'a', 'r'], ['s', 'a', 'm', 'p'],
   ['k', 'b', 'd'], ['s', 'u', 'b'], ['s', 'u', 'p'], ['i'], ['b'], ['u'], ['m', 'a', 'r', 'k'],
   ['r', 'u', 'b', 'y'], ['r', 't'], ['r', 'p'], ['b', 'd', 'i'], ['b', 'd', 'o'],
   ['s', 'p', 'a', 'n'], ['b', 'r'], ['w', 'b', 'r'], ['i', 'n', 's'], ['d', 'e', 'l'],
   ['i', 'm', 'a', 'g', 'e'], ['i', 'm', 'g'], ['i', 'f', 'r', 'a', 'm', 'e'],
   ['e', 'm', 'b', 'e', 'd'], ['o', 'b', 'j', 'e', 'c', 't'], ['p', 'a', 'r', 'a', 'm'],
   ['v', 'i', 'd', 'e', 'o'], ['a', 'u', 'd', 'i', 'o'], ['s', 'o', 'u', 'r', 'c', 'e'],
   ['t', 'r', 'a', 'c', 'k'], ['c', 'a', 'n', 'v', 'a', 's'], ['m', 'a', 'p'],
   ['a', 'r', 'e', 'a'], ['m', 'a', 't', 'h'], ['m', 'i'], ['m', 'o'], ['m', 'n'], ['m', 's'],
   ['m', 't', 'e', 'x', 't'], ['m', 'g', 'l', 'y', 'p', 'h'],
   ['m', 'a', 'l', 'i', 'g', 'n', 'm', 'a', 'r', 'k'],
   ['a', 'n', 'n', 'o', 't', 'a', 't', 'i', 'o', 'n', '-', 'x', 'm', 'l'], ['s', 'v', 'g'],
   ['f', 'o', 'r', 'e', 'i', 'g', 'n', 'o', 'b', 'j', 'e', 'c', 't'], ['d', 'e', 's', 'c'],
   ['t', 'a', 'b', 'l', 'e'], ['c', 'a', 'p', 't', 'i', 'o', 'n'],
   ['c', 'o', 'l', 'g', 'r', 'o', 'u', 'p'], ['c', 'o', 'l'], ['t', 'b', 'o', 'd', 'y'],
   ['t', 'h', 'e', 'a', 'd'], ['t', 'f', 'o', 'o', 't'], ['t', 'r'], ['t', 'd'], ['t', 'h'],
   ['f', 'o', 'r', 'm'], ['f', 'i', 'e', 'l', 'd', 's', 'e', 't'], ['l', 'e', 'g', 'e', 'n', 'd'],
   ['l', 'a', 'b', 'e', 'l'], ['i', 'n', 'p', 'u', 't'], ['b', 'u', 't', 't', 'o', 'n'],
   ['s', 'e', 'l', 'e', 'c', 't'], ['d', 'a', 't', 'a', 'l', 'i', 's', 't'],
   ['o', 'p', 't', 'g', 'r', 'o', 'u', 'p'], ['o', 'p', 't', 'i', 'o', 'n'],
   ['t', 'e', 'x', 't', 'a', 'r', 'e', 'a'], ['k', 'e', 'y', 'g', 'e', 'n'],
   ['o', 'u', 't', 'p', 'u', 't'], ['p', 'r', 'o', 'g', 'r', 'e', 's', 's'],
   ['m', 'e', 't', 'e', 'r'], ['d', 'e', 't', 'a', 'i', 'l', 's'],
   ['s', 'u', 'm', 'm', 'a', 'r', 'y'], ['m', 'e', 'n', 'u'],
   ['m', 'e', 'n', 'u', 'i', 't', 'e', 'm'], ['a', 'p', 'p', 'l', 'e', 't'],
   ['a', 'c', 'r', 'o', 'n', 'y', 'm'], ['b', 'g', 's', 'o', 'u', 'n', 'd'], ['d', 'i', 'r'],
   ['f', 'r', 'a', 'm', 'e'], ['f', 'r', 'a', 'm', 'e', 's', 'e', 't'],
   ['n', 'o', 'f', 'r', 'a', 'm', 'e', 's'], ['i', 's', 'i', 'n', 'd', 'e', 'x'],
   ['l', 'i', 's', 't', 'i', 'n', 'g'], ['x', 'm', 'p'], ['n', 'e', 'x', 't', 'i', 'd'],
   ['n', 'o', 'e', 'm', 'b', 'e', 'd'], ['p', 'l', 'a', 'i', 'n', 't', 'e', 'x', 't'], ['r', 'b'],
   ['s', 't', 'r', 'i', 'k', 'e'], ['b', 'a', 's', 'e', 'f', 'o', 'n', 't'], ['b', 'i', 'g'],
   ['b', 'l', 'i', 'n', 'k'], ['c', 'e', 'n', 't', 'e', 'r'], ['f', 'o', 'n', 't'],
   ['m', 'a', 'r', 'q', 'u', 'e', 'e'], ['m', 'u', 'l', 't', 'i', 'c', 'o', 'l'],
   ['n', 'o', 'b', 'r'], ['s', 'p', 'a', 'c', 'e', 'r'], ['t', 't'], ['r', 't', 'c'], [], []]

/-- `kGumboTagSizes`, with the numbers of `tag_sizes.h`. -/
def kGumboTagSizes : List Nat :=
  [4, 4, 5, 4, 4, 4, 5, 6, 8, 8, 4, 7, 7, 3, 5, 2, 2, 2, 2, 2, 2, 6, 6, 6, 7, 1, 2, 3, 10, 2, 2, 2,
   2, 2, 2, 6, 10, 4, 3, 1, 2, 6, 5, 1, 4, 1, 3, 4, 4, 4, 4, 3, 4, 3, 3, 3, 1, 1, 1, 4, 4, 2, 2, 3,
   3, 4, 2, 3, 3, 3, 5, 3, 6, 5, 6, 5, 5, 5, 6, 5, 6, 3, 4, 4, 2, 2, 2, 2, 5, 6, 10, 14, 3, 13, 4,
   5, 7, 8, 3, 5, 5, 5, 2, 2, 2, 4, 8, 6, 5, 5, 6, 6, 8, 8, 6, 8, 6, 6, 8, 5, 7, 7, 4, 8, 6, 7, 7,
   3, 5, 8, 8, 7, 7, 3, 6, 7, 9, 2, 6, 8, 3, 5, 6, 4, 7, 8, 4, 6, 2, 3, 0, 0]

/-- `asso_values`. -/
def assoValues : List Nat :=
  [296, 296, 296, 296, 296, 296, 296, 296, 296, 296, 296, 296, 296, 296, 296, 296, 296, 296, 296,
   296, 296, 296, 296, 296, 296, 296, 296, 296, 296, 296, 296, 296, 296, 296, 296, 296, 296, 296,
   296, 296, 296, 296, 296, 296, 296, 296, 296, 296, 296, 6, 4, 3, 1, 1, 0, 1, 0, 0, 296, 296, 296,
   296, 296, 296, 296, 22, 73, 151, 4, 13, 59, 65, 2, 69, 0, 134, 9, 16, 52, 55, 28, 101, 0, 1, 6,
   63, 126, 104, 93, 124, 296, 296, 296, 296, 296, 296, 296, 22, 73, 151, 4, 13, 59, 65, 2, 69, 0,
   134, 9, 16, 52, 55, 28, 101, 0, 1, 6, 63, 126, 104, 93, 124, 296, 296, 296, 296, 296, 296, 296,
   296, 296, 296, 296, 296, 296, 296, 296, 296, 296, 296, 296, 296, 296, 296, 296, 296, 296, 296,
   296, 296, 296, 296, 296, 296, 296, 296, 296, 296, 296, 296, 296, 296, 296, 296, 296, 296, 296,
   296, 296, 296, 296, 296, 296, 296, 296, 296, 296, 296, 296, 296, 296, 296, 296, 296, 296, 296,
   296, 296, 296, 296, 296, 296, 296, 296, 296, 296, 296, 296, 296, 296, 296, 296, 296, 296, 296,
   296, 296, 296, 296, 296, 296, 296, 296, 296, 296, 296, 296, 296, 296, 296, 296, 296, 296, 296,
   296, 296, 296, 296, 296, 296, 296, 296, 296, 296, 296, 296, 296, 296, 296, 296, 296, 296, 296,
   296, 296, 296, 296, 296, 296, 296, 296, 296, 296, 296, 296, 296, 296, 296, 296]

open GumboTag in
/-- `kGumboTagMap`. -/
def kGumboTagMap : List GumboTag :=
  [LAST, LAST, LAST, S, H6, H5, H4, H3, SPACER, H2, HEADER, H1, HEAD, LAST, DETAILS, SELECT, DIR,
   LAST, DEL, LAST, SOURCE, LEGEND, DATALIST, METER, MGLYPH, LAST, MATH, LABEL, TABLE, TEMPLATE,
   LAST, RP, TIME, TITLE, DATA, APPLET, HGROUP, SAMP, TEXTAREA, ABBR, MARQUEE, LAST, MENUITEM,
   SMALL, META, A, LAST, LAST, LAST, LAST, EMBED, MAP, LAST, PARAM, LAST, LAST, NOBR, P, SPAN, EM,
   LAST, NOFRAMES, SECTION, NOEMBED, NEXTID, FOOTER, NOSCRIPT, HR, LAST, FONT, DL, TR, SCRIPT, MO,
   LAST, DD, MAIN, TD, FOREIGNOBJECT, FORM, OBJECT, LAST, FIELDSET, LAST, BGSOUND, MENU, TFOOT,
   FIGURE, RB, LI, LISTING, BASEFONT, OPTGROUP, LAST, BASE, ADDRESS, MI, LAST, PLAINTEXT, LAST,
   PROGRESS, LAST, LAST, LAST, ACRONYM, ARTICLE, LAST, PRE, LAST, LAST, LAST, AREA, RT, LAST,
   OPTION, IMAGE, DT, LAST, TT, HTML, WBR, OL, LAST, STYLE, STRIKE, SUP, MULTICOL, U, DFN, UL,
   FIGCAPTION, MTEXT, LAST, VAR, LAST, LAST, FRAMESET, LAST, BR, I, FRAME, LAST, DIV, LAST, TH, MS,
   ANNOTATION_XML, B, TBODY, THEAD, BIG, BLOCKQUOTE, XMP, LAST, KBD, LAST, LINK, IFRAME, MARK,
   CENTER, OUTPUT, DESC, CANVAS, COL, MALIGNMARK, IMG, ASIDE, LAST, CODE, LAST, SUB, MN, LAST,
   LAST, INS, AUDIO, STRONG, CITE, LAST, LAST, LAST, INPUT, LAST, LAST, LAST, NAV, LAST, COLGROUP,
   LAST, LAST, LAST, LAST, LAST, SVG, KEYGEN, VIDEO, BDO, LAST, LAST, LAST, LAST, BODY, LAST, Q,
   LAST, LAST, LAST, LAST, TRACK, LAST, BDI, LAST, LAST, LAST, CAPTION, LAST, LAST, LAST, LAST,
   LAST, LAST, RUBY, LAST, LAST, BUTTON, SUMMARY, LAST, LAST, LAST, LAST, LAST, LAST, LAST, LAST,
   LAST, LAST, LAST, LAST, LAST, LAST, LAST, LAST, LAST, LAST, LAST, LAST, LAST, LAST, LAST, LAST,
   LAST, LAST, LAST, LAST, LAST, LAST, LAST, LAST, RTC, LAST, LAST, LAST, LAST, LAST, LAST, LAST,
   LAST, BLINK, LAST, LAST, LAST, LAST, LAST, LAST, LAST, LAST, LAST, LAST, LAST, LAST, LAST, LAST,
   LAST, LAST, LAST, LAST, LAST, LAST, LAST, LAST, LAST, LAST, LAST, LAST, LAST, ISINDEX]

/-! ## The functions of the source -/

/-- `gumbo_normalized_tagname`: the bytes of the string. -/
def normalizedTagname (tag : GumboTag) : List UInt8 :=
  (kGumboTagNames.getD tag.ctorIdx []).map (fun c => UInt8.ofNat c.toNat)

def tagSize (tag : GumboTag) : Nat := kGumboTagSizes.getD tag.ctorIdx 0

/-- A string in memory, with zeros behind it. -/
def stringMem (bytes : List UInt8) : Mem := fun i => bytes.getD i 0

/-- `case_memcmp`. -/
def caseMemcmp (s1 s2 : Mem) : Nat → Int
  | 0 => 0
  | n + 1 =>
      let c1 := tolower (s1 0)
      let c2 := tolower (s2 0)
      if c1 ≠ c2 then (c1.toNat : Int) - c2.toNat
      else caseMemcmp (fun i => s1 (i + 1)) (fun i => s2 (i + 1)) n

def assoValue (i : Nat) : UInt32 := UInt32.ofNat (assoValues.getD i 0)

/-- `tag_hash`. -/
def tagHash (str : Mem) (len : UInt32) : UInt32 :=
  let hval := len
  -- the `default` of the switch goes on with case 1
  let hval := if hval ≠ 1 then hval + assoValue ((str 1).toNat + 3) else hval
  let hval := hval + assoValue (str 0).toNat
  hval + assoValue (str (len - 1).toNat).toNat

/-- `gumbo_tagn_enum`. -/
def tagnEnum (tagname : Mem) (length : UInt32) : GumboTag :=
  if length ≠ 0 then
    let key := tagHash tagname length
    -- nothing is found from `TAG_MAP_SIZE` on
    match kGumboTagMap[key.toNat]? with
    | some tag =>
        if length.toNat = tagSize tag
            ∧ caseMemcmp tagname (stringMem (normalizedTagname tag)) length.toNat = 0 then tag
        else .UNKNOWN
    | none => .UNKNOWN
  else .UNKNOWN

/-! ## The search it stands for -/

open GumboTag in
/-- The tags of `tag_enum.h`, in order. -/
def GumboTag.all : List GumboTag :=
  [HTML, HEAD, TITLE, BASE, LINK, META, STYLE, SCRIPT, NOSCRIPT, TEMPLATE, BODY, ARTICLE, SECTION,
   NAV, ASIDE, H1, H2, H3, H4, H5, H6, HGROUP, HEADER, FOOTER, ADDRESS, P, HR, PRE, BLOCKQUOTE, OL,
   UL, LI, DL, DT, DD, FIGURE, FIGCAPTION, MAIN, DIV, A, EM, STRONG, SMALL, S, CITE, Q, DFN, ABBR,
   DATA, TIME, CODE, VAR, SAMP, KBD, SUB, SUP, I, B, U, MARK, RUBY, RT, RP, BDI, BDO, SPAN, BR,
   WBR, INS, DEL, IMAGE, IMG, IFRAME, EMBED, OBJECT, PARAM, VIDEO, AUDIO, SOURCE, TRACK, CANVAS,
   MAP, AREA, MATH, MI, MO, MN, MS, MTEXT, MGLYPH, MALIGNMARK, ANNOTATION_XML, SVG, FOREIGNOBJECT,
   DESC, TABLE, CAPTION, COLGROUP, COL, TBODY, THEAD, TFOOT, TR, TD, TH, FORM, FIELDSET, LEGEND,
   LABEL, INPUT, BUTTON, SELECT, DATALIST, OPTGROUP, OPTION, TEXTAREA, KEYGEN, OUTPUT, PROGRESS,
   METER, DETAILS, SUMMARY, MENU, MENUITEM, APPLET, ACRONYM, BGSOUND, DIR, FRAME, FRAMESET,
   NOFRAMES, ISINDEX, LISTING, XMP, NEXTID, NOEMBED, PLAINTEXT, RB, STRIKE, BASEFONT, BIG, BLINK,
   CENTER, FONT, MARQUEE, MULTICOL, NOBR, SPACER, TT, RTC]

/-- The first tag that has the name, in any case of its letters. -/
def searchTag (name : List UInt8) : GumboTag :=
  (GumboTag.all.find? (fun tag => normalizedTagname tag = name.map tolower)).getD .UNKNOWN

/-! ## The tables -/

/-- The hash of a string that is not in memory. -/
def hashOf (name : List UInt8) : Nat :=
  (tagHash (stringMem name) (UInt32.ofNat name.length)).toNat

theorem assoValue_tolower_all : ∀ n < 256,
    assoValue (tolower (UInt8.ofNat n)).toNat = assoValue (UInt8.ofNat n).toNat
    ∧ assoValue ((tolower (UInt8.ofNat n)).toNat + 3) = assoValue ((UInt8.ofNat n).toNat + 3) := by
  decide +kernel

theorem assoValue_tolower (b : UInt8) :
    assoValue (tolower b).toNat = assoValue b.toNat
    ∧ assoValue ((tolower b).toNat + 3) = assoValue (b.toNat + 3) := by
  have h := assoValue_tolower_all b.toNat b.toNat_lt
  rwa [UInt8.ofNat_toNat] at h

/-- Each tag stands where its name is hashed to. -/
theorem map_at_hash : ∀ tag ∈ GumboTag.all,
    kGumboTagMap[hashOf (normalizedTagname tag)]? = some tag := by
  decide +kernel

/-- What stands in the map is a tag or has no name, and the sizes are those of the names, which are in
lower case. -/
theorem map_entries : ∀ tag ∈ kGumboTagMap, (normalizedTagname tag ≠ [] → tag ∈ GumboTag.all)
    ∧ tagSize tag = (normalizedTagname tag).length
    ∧ (normalizedTagname tag).map tolower = normalizedTagname tag := by
  decide +kernel

/-- No tag has the empty name. -/
theorem searchTag_nil : searchTag [] = .UNKNOWN := by
  decide +kernel

/-! ## The search by the hash -/

theorem load_succ (m : Mem) (n : Nat) :
    m.load 0 (n + 1) = m 0 :: Mem.load (fun i => m (i + 1)) 0 n := by
  simp [Mem.load, List.range_succ_eq_map, Function.comp_def]

theorem load_stringMem (bytes : List UInt8) : (stringMem bytes).load 0 bytes.length = bytes := by
  apply List.ext_getElem?
  intro i
  by_cases hi : i < bytes.length
  · rw [Mem.load_getElem? _ _ _ _ hi, Nat.zero_add, stringMem, List.getD_eq_getElem _ _ hi,
      List.getElem?_eq_getElem hi]
  · rw [List.getElem?_eq_none (by rw [Mem.load_length]; omega), List.getElem?_eq_none (by omega)]

/-- `case_memcmp` finds no difference when there is none but in case. -/
theorem caseMemcmp_eq_zero_iff (s1 s2 : Mem) (n : Nat) :
    caseMemcmp s1 s2 n = 0 ↔ (s1.load 0 n).map tolower = (s2.load 0 n).map tolower := by
  induction n generalizing s1 s2 with
  | zero => simp [caseMemcmp, Mem.load]
  | succ n ih =>
      rw [load_succ, load_succ, List.map_cons, List.map_cons, List.cons.injEq, caseMemcmp]
      by_cases hne : tolower (s1 0) ≠ tolower (s2 0)
      · have hdiff : ((tolower (s1 0)).toNat : Int) - (tolower (s2 0)).toNat ≠ 0 := by
          intro h0
          exact hne (UInt8.toNat_inj.mp (by omega))
        rw [if_pos hne]
        exact iff_of_false hdiff (fun h => hne h.1)
      · rw [if_neg hne, ih]
        rw [ne_eq, not_not] at hne
        exact ⟨fun h => ⟨hne, h⟩, fun h => h.2⟩

/-- The hash only looks at bytes of the name, and not at their case. -/
theorem tagHash_eq (m : Mem) {len : UInt32} (hlen : len ≠ 0) :
    (tagHash m len).toNat = hashOf ((m.load 0 len.toNat).map tolower) := by
  have hpos : 0 < len.toNat := Nat.pos_of_ne_zero fun h => hlen (UInt32.toNat_inj.mp h)
  have hbyte : ∀ i, i < len.toNat →
      stringMem ((m.load 0 len.toNat).map tolower) i = tolower (m i) := by
    intro i hi
    rw [stringMem, List.getD_eq_getElem?_getD, List.getElem?_map, Mem.load_getElem? _ _ _ _ hi,
      Nat.zero_add]
    rfl
  have hlast : (len - 1).toNat < len.toNat := by
    have hone : (1 : UInt32) ≤ len := UInt32.le_iff_toNat_le.mpr hpos
    rw [UInt32.toNat_sub_of_le _ _ hone]
    exact Nat.sub_lt hpos Nat.zero_lt_one
  rw [hashOf, List.length_map, Mem.load_length, UInt32.ofNat_toNat, tagHash, tagHash, hbyte 0 hpos,
    hbyte _ hlast, (assoValue_tolower (m 0)).1, (assoValue_tolower (m (len - 1).toNat)).1]
  by_cases hone : len = 1
  · rw [if_neg (not_not.mpr hone), if_neg (not_not.mpr hone)]
  · have h1 : 1 < len.toNat := by
      have : len.toNat ≠ 1 := fun h => hone (UInt32.toNat_inj.mp h)
      omega
    rw [hbyte 1 h1, (assoValue_tolower (m 1)).2]

/-- The check of an entry of the map: it is the tag with the name. -/
theorem entry_iff (m : Mem) (length : UInt32) {tag : GumboTag} (htag : tag ∈ kGumboTagMap) :
    (length.toNat = tagSize tag ∧ caseMemcmp m (stringMem (normalizedTagname tag)) length.toNat = 0)
      ↔ normalizedTagname tag = (m.load 0 length.toNat).map tolower := by
  obtain ⟨-, hsize, hlower⟩ := map_entries tag htag
  rw [caseMemcmp_eq_zero_iff, hsize]
  constructor
  · rintro ⟨hlen, heq⟩
    rw [heq, hlen, load_stringMem, hlower]
  · intro hname
    have hlen : length.toNat = (normalizedTagname tag).length := by
      rw [hname, List.length_map, Mem.load_length]
    refine ⟨hlen, ?_⟩
    rw [← hname, hlen, load_stringMem, hlower]

theorem holds_load (m : Mem) (n : Nat) : m.Holds 0 (m.load 0 n) := by
  intro i hi
  rw [Mem.load_length] at hi
  exact Mem.load_getElem? m 0 n i hi

theorem tagnEnum_of_holds {m : Mem} {length : UInt32} {name : List UInt8} (h : m.Holds 0 name)
    (hlength : length.toNat = name.length) : tagnEnum m length = searchTag name := by
  have hload : m.load 0 length.toNat = name := by
    rw [hlength]
    exact h.load_eq
  rw [tagnEnum]
  by_cases hlen : length = 0
  · have hnil : name = [] := List.length_eq_zero_iff.mp (by rw [← hlength, hlen]; rfl)
    rw [if_neg (not_not.mpr hlen), hnil]
    exact searchTag_nil.symm
  · rw [if_pos hlen]
    dsimp only
    have hne : name.map tolower ≠ [] := by
      intro hnil
      have h0 := congrArg List.length hnil
      rw [List.length_map, ← hlength] at h0
      exact hlen (UInt32.toNat_inj.mp h0)
    rw [searchTag, ← getElem?_hash_filter map_at_hash
      (fun tag htag hname => (map_entries tag htag).1 (by rw [hname]; exact hne)), ← hload,
      ← tagHash_eq _ hlen]
    cases hkey : kGumboTagMap[(tagHash m length).toNat]? with
    | none => rfl
    | some tag =>
        have hiff := entry_iff m length (List.mem_of_getElem? hkey)
        by_cases hname : normalizedTagname tag = (m.load 0 length.toNat).map tolower
        · rw [Option.filter_some, if_pos (decide_eq_true hname)]
          exact if_pos (hiff.mpr hname)
        · rw [Option.filter_some, if_neg (fun h => hname (of_decide_eq_true h))]
          exact if_neg (fun h => hname (hiff.mp h))

/-- **The hash finds what a search finds**: the first tag with the name, upper and lower case not told
apart, and `GUMBO_TAG_UNKNOWN` when there is none. -/
theorem tagnEnum_eq_search (tagname : Mem) (length : UInt32) :
    tagnEnum tagname length = searchTag (tagname.load 0 length.toNat) :=
  tagnEnum_of_holds (holds_load tagname length.toNat) (Mem.load_length ..).symm

end CSearch.Gumbo
