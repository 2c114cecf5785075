import CSearch.Gumbo.StringBuffer
import CSearch.Gumbo.Tag

set_option autoImplicit false

/-! # Tag names in `tokenizer.c`

Behind `<` or `</` a letter begins a tag. `start_new_tag` puts it into a buffer, and the state for tag
names appends the code points that follow, in lower case, until one ends the name. Then the tag with
this name is looked up.

Here the iterator over the page, the buffer and the hash come together: the tag is the one that a
search finds for the name as it stands in the page (`lexTag_refines`). At the end of the page the tag
is abandoned.
-/

namespace CSearch.Gumbo

open String (utf8EncodeChar)
open Utf8Iterator (tolower Stands)

/-! ## The functions of the source -/

/-- `is_alpha`. -/
def isAlpha (c : Int) : Bool := (0x41 ≤ c ∧ c ≤ 0x5A) ∨ (0x61 ≤ c ∧ c ≤ 0x7A)

/-- `ensure_lowercase`. -/
def ensureLowercase (c : Int) : Int := if 0x41 ≤ c ∧ c ≤ 0x5A then c + 0x20 else c

/-- `GumboTokenizerEnum`, as far as the state for tag names leads. -/
inductive LexState where
  | data
  | tagName
  | beforeAttrName
  | selfClosingStartTag
  deriving DecidableEq, Repr

/-- `StateResult`. -/
inductive StateResult where
  | returnError
  | returnSuccess
  | nextChar
  deriving DecidableEq, Repr

/-- `GumboToken`, for a tag. -/
inductive Token where
  | startTag (tag : GumboTag)
  | endTag (tag : GumboTag)
  deriving DecidableEq

/-- What is used of `GumboTagState`. -/
structure TagState where
  buffer : StringBuffer
  originalText : Nat
  startPos : SourcePosition
  tag : GumboTag
  lastStartTag : GumboTag
  isStartTag : Bool

/-- What is used of `GumboTokenizerState`. -/
structure TokenizerState where
  state : LexState
  input : Utf8Iterator
  tagState : TagState

namespace TokenizerState

/-- `reset_tag_buffer_start_point`. -/
def resetTagBufferStartPoint (t : TokenizerState) : TokenizerState :=
  { t with tagState := { t.tagState with startPos := t.input.pos, originalText := t.input.start } }

/-- `tokenizer_add_parse_error`, but for the state, which is the one for tags. -/
def addParseError (t : TokenizerState) (type : ErrorType) : TokenizerState :=
  let e : Error := ⟨type, t.input.pos, t.input.start, some (UInt64.ofInt t.input.current)⟩
  { t with input := { t.input with parser := t.input.parser.addError e } }

/-- `append_char_to_tag_buffer`. -/
def appendCharToTagBuffer (t : TokenizerState) (codepoint : Int) (reinitializePositionOnFirst : Bool) :
    Option TokenizerState :=
  let t := if t.tagState.buffer.length = 0 ∧ reinitializePositionOnFirst = true then
      t.resetTagBufferStartPoint
    else t
  (t.tagState.buffer.appendCodepoint codepoint).toOption.map (fun buffer =>
    { t with tagState := { t.tagState with buffer := buffer } })

/-- `initialize_tag_buffer`. -/
def initializeTagBuffer (t : TokenizerState) : TokenizerState :=
  { t with tagState := { t.tagState with buffer := .init t.tagState.buffer.heap } }
    |>.resetTagBufferStartPoint

/-- `start_new_tag`. -/
def startNewTag (t : TokenizerState) (isStartTag : Bool) : Option TokenizerState :=
  let c := t.input.current
  if isAlpha c = true then
    let c := ensureLowercase c
    if isAlpha c = true then
      let t := t.initializeTagBuffer
      (t.tagState.buffer.appendCodepoint c).toOption.map (fun buffer =>
        { t with tagState := { t.tagState with buffer := buffer, isStartTag := isStartTag } })
    else none
  else none

/-- `finish_tag_name`. -/
def finishTagName (t : TokenizerState) : Option TokenizerState :=
  t.tagState.buffer.data.map (fun block =>
    let tag := tagnEnum block.mem t.tagState.buffer.length.toUInt32
    { t with tagState := { t.tagState with tag := tag } }.initializeTagBuffer)

/-- `emit_current_tag`. `finish_token` goes on to the next code point. -/
def emitCurrentTag (t : TokenizerState) : Token × TokenizerState :=
  let t' := { t with input := t.input.next }
  if t.tagState.isStartTag = true then
    (.startTag t.tagState.tag,
      { t' with tagState := { t.tagState with lastStartTag := t.tagState.tag } })
  else (.endTag t.tagState.tag, t')

/-- `handle_tag_name_state`, with the token in `output`. -/
def handleTagNameState (t : TokenizerState) (c : Int) :
    Option (StateResult × Option Token × TokenizerState) :=
  if c = 0x09 ∨ c = 0x0A ∨ c = 0x0C ∨ c = 0x20 then
    t.finishTagName.map (fun t => (.nextChar, none, { t with state := .beforeAttrName }))
  else if c = 0x2F then
    t.finishTagName.map (fun t => (.nextChar, none, { t with state := .selfClosingStartTag }))
  else if c = 0x3E then
    t.finishTagName.map (fun t =>
      let r := { t with state := .data }.emitCurrentTag
      (.returnSuccess, some r.1, r.2))
  else if c = 0 then
    ((t.addParseError .utf8Null).appendCharToTagBuffer kUtf8ReplacementChar true).map
      (fun t => (.nextChar, none, t))
  else if c = -1 then
    -- `abandon_current_tag`
    some (.nextChar, none, { t.addParseError .tagEof with state := .data })
  else (t.appendCharToTagBuffer (ensureLowercase c) true).map (fun t => (.nextChar, none, t))

/-- The loop of `gumbo_lex`, as long as it is in the state for tag names. -/
def lexTagName : Nat → TokenizerState → Option (Option Token × TokenizerState)
  | 0, _ => none
  | fuel + 1, t =>
      (t.handleTagNameState t.input.current).bind (fun r =>
        match r.1 with
        | .nextChar =>
            let t := { r.2.2 with input := r.2.2.input.next }
            if t.state = .tagName then lexTagName fuel t else some (r.2.1, t)
        | _ => some r.2)

/-- A tag from its first letter on, as the states behind `<` and `</` begin it. -/
def lexTag (t : TokenizerState) (isStartTag : Bool) : Option (Option Token × TokenizerState) :=
  ({ t with state := .tagName }.startNewTag isStartTag).bind (fun t =>
    lexTagName (t.input.source.length + 1) { t with input := t.input.next })

end TokenizerState

/-! ## Names among code points -/

/-- What ends a name. -/
def endsName (c : Int) : Bool := c ∈ [0x09, 0x0A, 0x0C, 0x20, 0x2F, 0x3E]

/-- The name that begins with number `n`. -/
def nameAt (codes : List Int) (n : Nat) : List Int := (codes.drop n).takeWhile (fun c => !endsName c)

/-- A zero is replaced. -/
def replaceNull (c : Int) : Int := if c = 0 then kUtf8ReplacementChar else c

/-- A name in UTF-8. -/
def nameBytes (name : List Int) : List UInt8 := (name.map replaceNull).flatMap codepointBytes

/-- The state behind a name. -/
def stateBehind (c : Option Int) : LexState :=
  if c = none ∨ c = some 0x3E then .data
  else if c = some 0x2F then .selfClosingStartTag
  else .beforeAttrName

def Token.of (isStartTag : Bool) (tag : GumboTag) : Token :=
  if isStartTag = true then .startTag tag else .endTag tag

/-- The tokenizer behind a name: the iterator is behind the code point number `p`, which ended it. -/
structure Lexed (src : List UInt8) (codes : List Int) (p : Nat) (isStartTag : Bool) (tag : GumboTag)
    (r : Option Token × TokenizerState) : Prop where
  place : Stands src codes (p + 1) r.2.input
  state : r.2.state = stateBehind codes[p]?
  found : p < codes.length → r.2.tagState.tag = tag
  token : r.1 = if codes[p]? = some 0x3E then some (.of isStartTag tag) else none

theorem endsName_iff (c : Int) :
    endsName c = true ↔ (c = 0x09 ∨ c = 0x0A ∨ c = 0x0C ∨ c = 0x20) ∨ c = 0x2F ∨ c = 0x3E := by
  simp [endsName, or_assoc]

/-- A letter does not end the name it begins. -/
theorem endsName_of_isAlpha {c : Int} (h : isAlpha c = true) : endsName c = false := by
  rw [isAlpha, decide_eq_true_eq] at h
  rw [Bool.eq_false_iff, ne_eq, endsName_iff]
  omega

/-! ## Upper and lower case -/

theorem isAlpha_ensureLowercase {c : Int} (h : isAlpha c = true) :
    isAlpha (ensureLowercase c) = true := by
  rw [isAlpha, decide_eq_true_eq] at h ⊢
  rw [ensureLowercase]
  by_cases hupper : 0x41 ≤ c ∧ c ≤ 0x5A
  · rw [if_pos hupper]
    omega
  · rw [if_neg hupper]
    exact h

theorem codepointBytes_letter : ∀ n < 26,
    (codepointBytes (0x41 + (n : Nat) + 0x20)).map tolower
      = (codepointBytes (0x41 + (n : Nat))).map tolower := by
  decide +kernel

theorem codepointBytes_lowercase (c : Int) :
    (codepointBytes (ensureLowercase c)).map tolower = (codepointBytes c).map tolower := by
  rw [ensureLowercase]
  split
  · rename_i hc
    obtain ⟨n, rfl⟩ : ∃ n : Nat, c = 0x41 + n := ⟨(c - 0x41).toNat, by omega⟩
    exact codepointBytes_letter n (by omega)
  · rfl

/-- What the tokenizer appends for a code point. -/
def appendedFor (c : Int) : Int := if c = 0 then kUtf8ReplacementChar else ensureLowercase c

theorem appendedFor_of_isAlpha {c : Int} (h : isAlpha c = true) :
    appendedFor c = ensureLowercase c := by
  rw [isAlpha, decide_eq_true_eq] at h
  exact if_neg (by omega)

theorem appendedFor_bytes (c : Int) :
    (codepointBytes (appendedFor c)).map tolower = (codepointBytes (replaceNull c)).map tolower := by
  rw [appendedFor, replaceNull]
  split
  · rfl
  · exact codepointBytes_lowercase c

/-- The bytes in the buffer behind a name. -/
def appendedBytes (name : List Int) : List UInt8 := (name.map appendedFor).flatMap codepointBytes

theorem appendedBytes_cons (c : Int) (name : List Int) :
    appendedBytes (c :: name) = codepointBytes (appendedFor c) ++ appendedBytes name := by
  rw [appendedBytes, List.map_cons, List.flatMap_cons]
  rfl

/-- They are those of the name, but for upper case. -/
theorem appendedBytes_tolower (name : List Int) :
    (appendedBytes name).map tolower = (nameBytes name).map tolower := by
  induction name with
  | nil => rfl
  | cons c name ih =>
      rw [appendedBytes_cons, nameBytes, List.map_cons, List.flatMap_cons, List.map_append,
        List.map_append, appendedFor_bytes, ih]
      rfl

theorem length_appendedBytes (name : List Int) :
    (appendedBytes name).length = (nameBytes name).length := by
  have h := congrArg List.length (appendedBytes_tolower name)
  rwa [List.length_map, List.length_map] at h

theorem searchTag_congr {name name' : List UInt8} (h : name.map tolower = name'.map tolower) :
    searchTag name = searchTag name' := by
  rw [searchTag, searchTag, h]

/-! ## The name in the buffer -/

namespace TokenizerState

open StringBuffer (Rep)

variable {src : List UInt8} {codes : List Int} {n : Nat} {t : TokenizerState} {bs : List UInt8}

theorem appendCharToTagBuffer_rep (hrep : Rep False t.tagState.buffer bs) (c : Int)
    (hfit : bs.length + (codepointBytes c).length ≤ maxCapacity) :
    ∃ t', t.appendCharToTagBuffer c true = some t'
      ∧ Rep False t'.tagState.buffer (bs ++ codepointBytes c)
      ∧ t'.input = t.input ∧ t'.state = t.state ∧ t'.tagState.isStartTag = t.tagState.isStartTag := by
  obtain ⟨buffer, hbuffer, hrep'⟩ := StringBuffer.appendCodepoint_rep hrep c hfit
  have hoption : (t.tagState.buffer.appendCodepoint c).toOption = some buffer := by
    rw [hbuffer]
    rfl
  rw [appendCharToTagBuffer]
  split
  · exact ⟨_, congrArg (Option.map _) hoption, hrep', rfl, rfl, rfl⟩
  · exact ⟨_, congrArg (Option.map _) hoption, hrep', rfl, rfl, rfl⟩

/-- A code point of a name. -/
theorem handle_of_name {c : Int} (h : Stands src codes n t.input)
    (hrep : Rep False t.tagState.buffer bs)
    (hname : endsName c = false) (hend : c ≠ -1)
    (hfit : bs.length + (codepointBytes (appendedFor c)).length ≤ maxCapacity) :
    ∃ t', t.handleTagNameState c = some (.nextChar, none, t')
      ∧ Rep False t'.tagState.buffer (bs ++ codepointBytes (appendedFor c))
      ∧ Stands src codes n t'.input ∧ t'.state = t.state
      ∧ t'.tagState.isStartTag = t.tagState.isStartTag := by
  rw [Bool.eq_false_iff, ne_eq, endsName_iff] at hname
  obtain ⟨hspace, hname⟩ := not_or.mp hname
  obtain ⟨hslash, hgt⟩ := not_or.mp hname
  rw [handleTagNameState, if_neg hspace, if_neg hslash, if_neg hgt]
  by_cases hnull : c = 0
  · have happended : appendedFor c = kUtf8ReplacementChar := if_pos hnull
    rw [happended] at hfit ⊢
    obtain ⟨t', happend, hrep', hinput, hstate, hstart⟩ :=
      appendCharToTagBuffer_rep (t := t.addParseError .utf8Null) hrep _ hfit
    refine ⟨t', by rw [if_pos hnull, happend]; rfl, hrep', ?_, hstate, hstart⟩
    rw [hinput]
    exact h.addError _
  · have happended : appendedFor c = ensureLowercase c := if_neg hnull
    rw [happended] at hfit ⊢
    obtain ⟨t', happend, hrep', hinput, hstate, hstart⟩ := appendCharToTagBuffer_rep hrep _ hfit
    refine ⟨t', by rw [if_neg hnull, if_neg hend, happend]; rfl, hrep', ?_, hstate, hstart⟩
    rw [hinput]
    exact h

/-- The tag that is found. -/
theorem finishTagName_tag (hrep : Rep False t.tagState.buffer bs) (hsize : bs.length < 2 ^ 32) :
    ∃ t', t.finishTagName = some t' ∧ t'.tagState.tag = searchTag bs ∧ t'.input = t.input
      ∧ t'.tagState.isStartTag = t.tagState.isStartTag := by
  obtain ⟨-, mem, hdata, hholds⟩ := hrep.data.resolve_right (fun hnull => hnull.2)
  rw [finishTagName, hdata]
  refine ⟨_, rfl, tagnEnum_of_holds hholds ?_, rfl, rfl⟩
  rw [UInt64.toNat_toUInt32, hrep.length]
  exact Nat.mod_eq_of_lt hsize

theorem emitCurrentTag_eq (t : TokenizerState) :
    t.emitCurrentTag.1 = .of t.tagState.isStartTag t.tagState.tag
      ∧ t.emitCurrentTag.2.input = t.input.next ∧ t.emitCurrentTag.2.state = t.state
      ∧ t.emitCurrentTag.2.tagState.tag = t.tagState.tag := by
  rw [emitCurrentTag, Token.of]
  split <;> exact ⟨rfl, rfl, rfl, rfl⟩

/-- A round of the loop that ends it: what follows the name. -/
theorem lexTagName_of_end {fuel : Nat} (h : Stands src codes n t.input)
    (hrep : Rep False t.tagState.buffer bs) (hsize : bs.length < 2 ^ 32)
    (hend : ∀ c, codes[n]? = some c → endsName c = true) :
    ∃ r, lexTagName (fuel + 1) t = some r
      ∧ Lexed src codes n t.tagState.isStartTag (searchTag bs) r := by
  obtain ⟨t', hfinish, htag, hinput', hkind⟩ := finishTagName_tag hrep hsize
  have hplace : Stands src codes (n + 1) t'.input.next := by
    rw [hinput']
    exact h.next
  have hcurrent := h.current
  rw [lexTagName, hcurrent]
  cases hc : codes[n]? with
  | none =>
      have hlen : codes.length ≤ n := List.getElem?_eq_none_iff.mp hc
      refine ⟨_, rfl, (h.addError _).next, ?_, fun hlt => absurd hlt (Nat.not_lt.mpr hlen), ?_⟩
      · rw [hc]
        rfl
      · rw [hc]
        rfl
  | some c =>
      have hends := (endsName_iff c).mp (hend c hc)
      by_cases hspace : c = 0x09 ∨ c = 0x0A ∨ c = 0x0C ∨ c = 0x20
      · have hhandle : t.handleTagNameState c
            = some (.nextChar, none, { t' with state := .beforeAttrName }) := by
          rw [handleTagNameState, if_pos hspace, hfinish]
          rfl
        refine ⟨_, by rw [Option.getD_some, hhandle]; rfl, hplace, ?_, fun _ => htag, ?_⟩
        · rw [hc]
          rcases hspace with rfl | rfl | rfl | rfl <;> rfl
        · rw [hc]
          rcases hspace with rfl | rfl | rfl | rfl <;> rfl
      · by_cases hslash : c = 0x2F
        · have hhandle : t.handleTagNameState c
              = some (.nextChar, none, { t' with state := .selfClosingStartTag }) := by
            rw [handleTagNameState, if_neg hspace, if_pos hslash, hfinish]
            rfl
          subst hslash
          refine ⟨_, by rw [Option.getD_some, hhandle]; rfl, hplace, by rw [hc]; rfl, fun _ => htag,
            by rw [hc]; rfl⟩
        · have hgt : c = 0x3E := (hends.resolve_left hspace).resolve_left hslash
          obtain ⟨htoken, hinput, hstate, hsame⟩ := emitCurrentTag_eq { t' with state := .data }
          have hhandle : t.handleTagNameState c
              = some (.returnSuccess, some (emitCurrentTag { t' with state := .data }).1,
                (emitCurrentTag { t' with state := .data }).2) := by
            rw [handleTagNameState, if_neg hspace, if_neg hslash, if_pos hgt, hfinish]
            rfl
          subst hgt
          refine ⟨_, by rw [Option.getD_some, hhandle]; rfl, ?_, ?_, fun _ => hsame.trans htag, ?_⟩
          · rw [hinput]
            exact hplace
          · rw [hstate, hc]
            rfl
          · rw [htoken, hc, if_pos rfl, ← htag, ← hkind]

/-- The loop. The induction is on what is left of the name. -/
theorem lexTagName_eq {name rest : List Int} {fuel : Nat} (h : Stands src codes n t.input)
    (hrep : Rep False t.tagState.buffer bs) (hstate : t.state = .tagName)
    (hcodes : codes.drop n = name ++ rest) (hname : ∀ c ∈ name, endsName c = false)
    (hrest : ∀ c, rest.head? = some c → endsName c = true) (hfuel : name.length < fuel)
    (hsize : (bs ++ appendedBytes name).length < 2 ^ 32) :
    ∃ r, lexTagName fuel t = some r
      ∧ Lexed src codes (n + name.length) t.tagState.isStartTag
        (searchTag (bs ++ appendedBytes name)) r := by
  induction name generalizing n t bs fuel with
  | nil =>
      obtain ⟨fuel, rfl⟩ : ∃ k, fuel = k + 1 := ⟨fuel - 1, by rw [List.length_nil] at hfuel; omega⟩
      rw [show appendedBytes [] = [] from rfl, List.append_nil] at hsize ⊢
      apply lexTagName_of_end h hrep hsize
      intro c hc
      apply hrest c
      rw [← hc, ← List.head?_drop, hcodes, List.nil_append]
  | cons c name ih =>
      rw [List.length_cons] at hfuel
      obtain ⟨fuel, rfl⟩ : ∃ k, fuel = k + 1 := ⟨fuel - 1, by omega⟩
      rw [appendedBytes_cons, ← List.append_assoc] at hsize ⊢
      have hfit : bs.length + (codepointBytes (appendedFor c)).length ≤ maxCapacity := by
        rw [List.length_append, List.length_append] at hsize
        rw [maxCapacity]
        omega
      have hcurrent : t.input.current = c := by
        rw [h.current, ← List.head?_drop, hcodes]
        rfl
      have hne : c ≠ -1 := by
        rcases h.cases with ⟨hlen, -, -⟩ | ⟨hne, -⟩
        · rw [List.drop_eq_nil_of_le hlen] at hcodes
          cases hcodes
        · exact hcurrent ▸ hne
      obtain ⟨t', hhandle, hrep', hplace, hstate', hstart⟩ :=
        handle_of_name h hrep (hname c List.mem_cons_self) hne hfit
      have hdrop : codes.drop (n + 1) = name ++ rest := by
        rw [← List.drop_drop, hcodes]
        rfl
      have hloop := ih (t := { t' with input := t'.input.next }) hplace.next hrep'
        (hstate'.trans hstate) hdrop (fun d hd => hname d (List.mem_cons_of_mem c hd))
        (Nat.lt_of_succ_lt_succ hfuel) hsize
      have hround : lexTagName (fuel + 1) t
          = lexTagName fuel { t' with input := t'.input.next } := by
        rw [lexTagName, hcurrent, hhandle]
        exact if_pos (hstate'.trans hstate)
      have hplace' : n + (c :: name).length = n + 1 + name.length := by
        rw [List.length_cons]
        omega
      rw [hround, hplace', ← hstart]
      exact hloop

theorem startNewTag_rep (t : TokenizerState) (isStartTag : Bool)
    (hletter : isAlpha t.input.current = true) (halloc : ∀ k, t.tagState.buffer.heap k ≠ none) :
    ∃ t', t.startNewTag isStartTag = some t'
      ∧ Rep False t'.tagState.buffer (codepointBytes (appendedFor t.input.current))
      ∧ t'.input = t.input ∧ t'.state = t.state ∧ t'.tagState.isStartTag = isStartTag := by
  have hlower := isAlpha_ensureLowercase hletter
  have hfit : ([] : List UInt8).length + (codepointBytes (ensureLowercase t.input.current)).length
      ≤ maxCapacity := by
    have hle := StringBuffer.leadOf_le (ensureLowercase t.input.current)
    rw [StringBuffer.codepointBytes_length, List.length_nil, maxCapacity]
    omega
  obtain ⟨buffer, hbuffer, hrep⟩ :=
    StringBuffer.appendCodepoint_rep (StringBuffer.init_rep halloc) _ hfit
  rw [appendedFor_of_isAlpha hletter]
  have hrun : t.startNewTag isStartTag = (Except.ok buffer : Except Fault _).toOption.map
      (fun buffer => { t.initializeTagBuffer with
        tagState := { t.initializeTagBuffer.tagState with
          buffer := buffer, isStartTag := isStartTag } }) := by
    rw [startNewTag, if_pos hletter]
    dsimp only
    rw [if_pos hlower, ← hbuffer]
    rfl
  exact ⟨_, hrun, hrep, rfl, rfl, rfl⟩

/-- The first letter, the rest of the name, and what ends it. -/
theorem nameAt_split (h : Stands src codes n t.input) (hletter : isAlpha t.input.current = true) :
    ∃ name rest, nameAt codes n = t.input.current :: name
      ∧ codes.drop n = t.input.current :: (name ++ rest)
      ∧ (∀ c ∈ name, endsName c = false) ∧ ∀ c, rest.head? = some c → endsName c = true := by
  obtain ⟨items, hfirst⟩ : ∃ items, codes.drop n = t.input.current :: codePoints items := by
    rcases h.cases with ⟨-, -, hend⟩ | ⟨-, -, items, -, hcodes⟩
    · rw [hend] at hletter
      exact absurd hletter (by decide)
    · exact ⟨items, hcodes⟩
  obtain ⟨rest, hsplit, hrest⟩ := exists_takeWhile_append (fun c => !endsName c) (codePoints items)
  have hstays : (!endsName t.input.current) = true := by
    rw [endsName_of_isAlpha hletter]
    rfl
  refine ⟨(codePoints items).takeWhile (fun c => !endsName c), rest, ?_, ?_, ?_, ?_⟩
  · rw [nameAt, hfirst]
    exact List.takeWhile_cons_of_pos hstays
  · rw [hfirst, ← hsplit]
  · intro c hc
    simpa using List.all_eq_true.mp List.all_takeWhile c hc
  · intro c hc
    simpa using hrest c hc

/-- **The tag is the one with the name in the page**, for a name of less than `2^32` bytes: what a
search finds for the code points up to the first that ends a name. The allocator does not return
`NULL`. -/
theorem lexTag_refines (h : Stands src codes n t.input) (hletter : isAlpha t.input.current = true)
    (halloc : ∀ k, t.tagState.buffer.heap k ≠ none) (isStartTag : Bool)
    (hsize : (nameBytes (nameAt codes n)).length < 2 ^ 32) :
    ∃ r, t.lexTag isStartTag = some r
      ∧ Lexed src codes (n + (nameAt codes n).length) isStartTag
        (searchTag (nameBytes (nameAt codes n))) r := by
  obtain ⟨name, rest, hnameAt, hcodes, hname, hrest⟩ := nameAt_split h hletter
  obtain ⟨t', hstart, hrep, hinput, hstate, hkind⟩ :=
    startNewTag_rep { t with state := .tagName } isStartTag hletter halloc
  -- the loop begins behind the letter, which is in the buffer
  have hplace : Stands src codes (n + 1) t'.input.next := by
    rw [hinput]
    exact h.next
  have hdrop : codes.drop (n + 1) = name ++ rest := by
    rw [← List.drop_drop, hcodes]
    rfl
  have hfuel : name.length < t'.input.source.length + 1 := by
    have hle := h.length_drop_le
    rw [hcodes, List.length_cons, List.length_append] at hle
    rw [hinput]
    show name.length < t.input.source.length + 1
    omega
  have hlen : (codepointBytes (appendedFor t.input.current) ++ appendedBytes name).length < 2 ^ 32 := by
    rw [← appendedBytes_cons, length_appendedBytes, ← hnameAt]
    exact hsize
  obtain ⟨r, hrun, hlexed⟩ := lexTagName_eq (t := { t' with input := t'.input.next }) hplace hrep hstate
    hdrop hname hrest hfuel hlen
  refine ⟨r, by rw [lexTag, hstart]; exact hrun, ?_⟩
  have hend : n + (t.input.current :: name).length = n + 1 + name.length := by
    rw [List.length_cons]
    omega
  have htag := searchTag_congr (appendedBytes_tolower (t.input.current :: name))
  rw [hnameAt, hend, ← htag, appendedBytes_cons, ← hkind]
  exact hlexed

/-- A tokenizer at the beginning of a text. -/
def atStart (text : List Char) : TokenizerState where
  state := .data
  input := Utf8Iterator.blank.init Parser.defaults (text.flatMap utf8EncodeChar)
  tagState := ⟨.init (fun _ => some (fun _ => 0)), 0, ⟨0, 0, 0⟩, .LAST, .LAST, false⟩

theorem lexTag_refines_div :
    ∃ t', (atStart ['D', 'i', 'V', '>']).lexTag true = some (some (.startTag .DIV), t') := by
  have hplace : Stands _ _ 0 (atStart ['D', 'i', 'V', '>']).input :=
    Utf8Iterator.init_stands Utf8Iterator.blank Parser.defaults (segments_text ['D', 'i', 'V', '>'])
  obtain ⟨⟨out, t'⟩, hrun, hlexed⟩ := lexTag_refines hplace (by decide) nofun true (by decide)
  have hout : out = some (.startTag .DIV) := hlexed.token.trans (by decide +kernel)
  exact ⟨t', hout ▸ hrun⟩

end TokenizerState

end CSearch.Gumbo
