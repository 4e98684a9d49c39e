import SyntaxLint.Template.Item
import SyntaxLint.Text.Blank
import SyntaxLint.Text.Bytes

/-!
# Templates — scanning

What an item is depends on how the text begins: `<!--` begins a comment, `</` and a letter an end
tag, `<` and a letter a start tag, and anything else a text up to where one of these begins.  After
the start tag of a `script`, `style`, `textarea` or `title` comes raw text up to its end tag.  An
item that does not end before the text does is a fault, told with the text from where it begins.

* `scan`: the items of a template, or the first fault.
-/

namespace SyntaxLint.Template

open Text

/-- What has no end. -/
inductive Unterminated where
  | comment
  | startTag
  | attributeValue
  | endTag
  deriving DecidableEq, Repr, Inhabited

/-- A construct without an end, and the text from its beginning. -/
structure Fault where
  what : Unterminated
  rest : List Char
  deriving DecidableEq, Repr, Inhabited

/-- Elements without content or end tag. -/
def voidElements : List String :=
  ["area", "base", "br", "col", "embed", "hr", "img", "input", "link", "meta", "source", "track",
    "wbr"]

/-- Elements whose content is text up to their end tag. -/
def rawTextElements : List String := ["script", "style", "textarea", "title"]

/-- Whether a tag name is one of the given names, up to case. -/
def isNamed (names : List String) (name : List Char) : Bool :=
  names.any fun n => n.toList == lower name

/-- Whether a start tag leaves no element open. -/
def StartTag.isClosed (t : StartTag) : Bool := t.selfClosing || isNamed voidElements t.name

/-- Whether raw text follows a start tag. -/
def StartTag.hasRawText (t : StartTag) : Bool := !t.isClosed && isNamed rawTextElements t.name

/-- Whether the text begins with a letter A to Z in either case. -/
def startsName : List Char → Bool
  | c :: _ => c.isAlpha
  | [] => false

/-- Whether the text begins with `<!--`. -/
def startsComment : List Char → Bool
  | '<' :: '!' :: '-' :: '-' :: _ => true
  | _ => false

/-- Whether the text begins with an end tag. -/
def startsEndTag : List Char → Bool
  | '<' :: '/' :: cs => startsName cs
  | _ => false

/-- Whether the text begins with a start tag. -/
def startsStartTag : List Char → Bool
  | '<' :: cs => startsName cs
  | _ => false

/-- Whether the text begins with an item other than text. -/
def startsMarkup (cs : List Char) : Bool := startsComment cs || startsEndTag cs || startsStartTag cs

/-- Whether the text begins with `-->`. -/
def startsCommentEnd : List Char → Bool
  | '-' :: '-' :: '>' :: _ => true
  | _ => false

/-- Whether the text begins with `/>`. -/
def startsSelfClose : List Char → Bool
  | '/' :: '>' :: _ => true
  | _ => false

theorem startsComment_iff {cs : List Char} :
    startsComment cs = true ↔ ∃ rest, cs = '<' :: '!' :: '-' :: '-' :: rest := by
  unfold startsComment
  split <;> simp_all

theorem startsEndTag_head {cs : List Char} (h : startsEndTag cs = true) :
    ∃ rest, cs = '<' :: '/' :: rest := by
  unfold startsEndTag at h
  split at h <;> simp_all

theorem startsStartTag_head {cs : List Char} (h : startsStartTag cs = true) :
    ∃ rest, cs = '<' :: rest := by
  unfold startsStartTag at h
  split at h <;> simp_all

theorem startsSelfClose_iff {cs : List Char} :
    startsSelfClose cs = true ↔ ∃ rest, cs = '/' :: '>' :: rest := by
  unfold startsSelfClose
  split <;> simp_all

/-- Whether the text begins with a character that ends a tag name. -/
def endsTagName : List Char → Bool
  | c :: _ => isBlank c || ['/', '>', '<', '=', '"', '\''].contains c
  | [] => true

/-- Whether the text begins with something that ends an attribute name. -/
def endsAttributeName : List Char → Bool
  | c :: cs =>
    isBlank c || ['=', '>', '"', '\'', '<'].contains c || startsSelfClose (c :: cs)
  | [] => true

/-- Whether the text begins with something that ends a value without quotes. -/
def endsBareValue : List Char → Bool
  | c :: cs => isBlank c || c == '>' || startsSelfClose (c :: cs)
  | [] => true

/-- Whether the text begins with a character other than a blank. -/
def startsInk : List Char → Bool
  | c :: _ => !isBlank c
  | [] => true

/-- The blanks that a text begins with, and the rest. -/
def blanks (cs : List Char) : List Char × List Char := spanUntil startsInk cs

/-- Whether the text begins with the character `q`. -/
def startsWith (q : Char) : List Char → Bool
  | c :: _ => c == q
  | [] => false

/-- Reads a value: up to the quote that it begins with, or without quotes up to a blank or the end
of the tag. -/
def scanValue : List Char → Except Fault (Value × List Char)
  | [] => .ok (.bare [], [])
  | q :: inner =>
    if q = '"' || q = '\'' then
      match spanUntil (startsWith q) inner with
      | (s, _ :: rest) => .ok (.quoted q s, rest)
      | (_, []) => .error ⟨.attributeValue, q :: inner⟩
    else
      let s := spanUntil endsBareValue (q :: inner)
      .ok (.bare s.1, s.2)

/-- Whether a value begins where a text does: not at the end of a tag. -/
def startsValue : List Char → Bool
  | c :: cs => c != '>' && !startsSelfClose (c :: cs)
  | [] => false

/-- Reads what follows the name of an attribute.  Blanks belong to the attribute only before `=`
and before a value. -/
def scanAssignment (cs : List Char) : Except Fault (Assignment × List Char) :=
  match blanks cs with
  | (gap, '=' :: rest) =>
    let inner := blanks rest
    if startsValue inner.2 then
      match scanValue inner.2 with
      | .ok (v, rest) => .ok (.value gap inner.1 v, rest)
      | .error e => .error e
    else .ok (.equals gap, rest)
  | _ => .ok (.none, cs)

/-- Reads an attribute. -/
def scanAttribute (cs : List Char) : Except Fault (Attribute × List Char) :=
  let name := spanUntil endsAttributeName cs
  match scanAssignment name.2 with
  | .ok (a, rest) => .ok (⟨name.1, a⟩, rest)
  | .error e => .error e

/-! ### An attribute is read without loss -/

theorem startsWith_cons {q c : Char} {cs : List Char} (h : startsWith q (c :: cs) = true) :
    c = q := by
  simpa [startsWith] using h

theorem scanValue_print {cs rest : List Char} {v : Value} (h : scanValue cs = .ok (v, rest)) :
    v.print ++ rest = cs := by
  cases cs with
  | nil =>
    obtain ⟨rfl, rfl⟩ : Value.bare [] = v ∧ [] = rest := by simpa [scanValue] using h
    rfl
  | cons q inner =>
    by_cases hq : q = '"' || q = '\''
    · simp only [scanValue, if_pos hq] at h
      have split := spanUntil_append (startsWith q) inner
      have stops := spanUntil_rest (startsWith q) inner
      rcases hs : spanUntil (startsWith q) inner with ⟨s, _ | ⟨c, tail⟩⟩
      · simp [hs] at h
      · rw [hs] at h split stops
        obtain ⟨rfl, rfl⟩ : Value.quoted q s = v ∧ tail = rest := by simpa using h
        obtain rfl : c = q := startsWith_cons (by simpa using stops)
        simpa [Value.print] using split
    · simp only [scanValue, if_neg hq] at h
      obtain ⟨rfl, rfl⟩ : Value.bare (spanUntil endsBareValue (q :: inner)).1 = v ∧
          (spanUntil endsBareValue (q :: inner)).2 = rest := by simpa using h
      exact spanUntil_append _ _

theorem scanAssignment_print {cs rest : List Char} {a : Assignment}
    (h : scanAssignment cs = .ok (a, rest)) : a.print ++ rest = cs := by
  have split : (blanks cs).1 ++ (blanks cs).2 = cs := spanUntil_append startsInk cs
  unfold scanAssignment at h
  split at h
  · rename_i gap tail hb
    rw [hb] at split
    have inner : (blanks tail).1 ++ (blanks tail).2 = tail := spanUntil_append startsInk tail
    by_cases hv : startsValue (blanks tail).2
    · simp only [if_pos hv] at h
      cases hs : scanValue (blanks tail).2 with
      | error e => simp [hs] at h
      | ok r =>
        obtain ⟨v, r⟩ := r
        rw [hs] at h
        obtain ⟨rfl, rfl⟩ : Assignment.value gap (blanks tail).1 v = a ∧ r = rest := by
          simpa using h
        have value := scanValue_print hs
        have whole : gap ++ '=' :: ((blanks tail).1 ++ (v.print ++ r)) = cs := by
          rw [value, inner]; exact split
        simpa [Assignment.print] using whole
    · simp only [if_neg hv] at h
      obtain ⟨rfl, rfl⟩ : Assignment.equals gap = a ∧ tail = rest := by simpa using h
      rw [← split]
      simp [Assignment.print]
  · obtain ⟨rfl, rfl⟩ : Assignment.none = a ∧ cs = rest := by simpa using h
    rfl

theorem scanAttribute_print {cs rest : List Char} {a : Attribute}
    (h : scanAttribute cs = .ok (a, rest)) : a.print ++ rest = cs := by
  have split := spanUntil_append endsAttributeName cs
  unfold scanAttribute at h
  cases hs : scanAssignment (spanUntil endsAttributeName cs).2 with
  | error e => simp [hs] at h
  | ok r =>
    obtain ⟨b, r⟩ := r
    obtain ⟨rfl, rfl⟩ : ⟨(spanUntil endsAttributeName cs).1, b⟩ = a ∧ r = rest := by
      simpa [hs] using h
    rw [← scanAssignment_print hs] at split
    simpa [Attribute.print] using split

/-- An attribute takes at least one character where its name does not end at once. -/
theorem length_scanAttribute_lt {cs rest : List Char} {a : Attribute}
    (h : scanAttribute cs = .ok (a, rest)) (hc : endsAttributeName cs = false) :
    rest.length < cs.length := by
  have printed := congrArg List.length (scanAttribute_print h)
  have named : a.name = (spanUntil endsAttributeName cs).1 := by
    unfold scanAttribute at h
    cases hs : scanAssignment (spanUntil endsAttributeName cs).2 with
    | error e => simp [hs] at h
    | ok r =>
      simp only [hs, Except.ok.injEq, Prod.mk.injEq] at h
      rw [← h.1]
  cases cs with
  | nil => simp [endsAttributeName] at hc
  | cons c cs =>
    simp only [spanUntil, hc] at named
    simp [Attribute.print, named] at printed
    simp only [List.length_cons]
    omega

/-! ### Tags -/

/-- Reads what stands in a start tag after its name.  The answer has the parts, whether the tag
closes itself, and the text after it; `tag` is the text from the beginning of the tag. -/
def scanParts (tag : List Char) :
    List Char → Except Fault (List TagPart × Bool × List Char)
  | [] => .error ⟨.startTag, tag⟩
  | c :: cs =>
    if startsSelfClose (c :: cs) then .ok ([], true, cs.tail)
    else if c = '>' then .ok ([], false, cs)
    else if _hb : isBlank c then
      let gap := blanks (c :: cs)
      match scanParts tag gap.2 with
      | .ok (parts, closed, rest) => .ok (.blank gap.1 :: parts, closed, rest)
      | .error e => .error e
    else if ['"', '\'', '<', '='].contains c then
      match scanParts tag cs with
      | .ok (parts, closed, rest) => .ok (.stray c :: parts, closed, rest)
      | .error e => .error e
    else
      match _h : scanAttribute (c :: cs) with
      | .ok (a, rest) =>
        match scanParts tag rest with
        | .ok (parts, closed, rest) => .ok (.attr a :: parts, closed, rest)
        | .error e => .error e
      | .error e => .error e
  termination_by cs => cs.length
  decreasing_by
    · have := length_spanUntil_rest_le startsInk cs
      simp [blanks, spanUntil, startsInk, _hb]
      omega
    · simp
    · refine length_scanAttribute_lt _h ?_
      simp_all [endsAttributeName]

/-- Reads a start tag. -/
def scanStartTag (cs : List Char) : Except Fault (StartTag × List Char) :=
  let name := spanUntil endsTagName (cs.drop 1)
  match scanParts cs name.2 with
  | .ok (parts, closed, rest) => .ok (⟨name.1, parts, closed⟩, rest)
  | .error e => .error e

/-- Reads an end tag. -/
def scanEndTag (cs : List Char) : Except Fault (EndTag × List Char) :=
  let name := spanUntil endsTagName (cs.drop 2)
  match blanks name.2 with
  | (gap, '>' :: rest) => .ok (⟨name.1, gap⟩, rest)
  | _ => .error ⟨.endTag, cs⟩

/-- Reads a comment. -/
def scanComment (cs : List Char) : Except Fault (List Char × List Char) :=
  match spanUntil startsCommentEnd (cs.drop 4) with
  | (inner, '-' :: '-' :: '>' :: rest) => .ok (inner, rest)
  | _ => .error ⟨.comment, cs⟩

/-- What stands in a start tag is read without loss. -/
theorem scanParts_print {tag cs rest : List Char} {parts : List TagPart} {closed : Bool}
    (h : scanParts tag cs = .ok (parts, closed, rest)) :
    parts.flatMap TagPart.print ++ (if closed then ['/', '>'] else ['>']) ++ rest = cs := by
  fun_induction scanParts tag cs generalizing parts closed rest with
  | case1 => simp at h
  | case2 c cs hc =>
    obtain ⟨rfl, rfl, rfl⟩ : [] = parts ∧ true = closed ∧ cs.tail = rest := by simpa using h
    obtain ⟨r, hr⟩ := startsSelfClose_iff.1 hc
    obtain ⟨rfl, rfl⟩ := List.cons.inj hr
    rfl
  | case3 cs hc =>
    obtain ⟨rfl, rfl, rfl⟩ : [] = parts ∧ false = closed ∧ cs = rest := by simpa using h
    rfl
  | case4 c cs _ _ _ gap ps b r hr =>
    rename_i ih
    obtain ⟨rfl, rfl, rfl⟩ : .blank gap.1 :: ps = parts ∧ b = closed ∧ r = rest := by simpa using h
    have split : gap.1 ++ gap.2 = c :: cs := spanUntil_append startsInk (c :: cs)
    rw [← split, ← ih hr]
    simp [TagPart.print]
  | case5 => simp at h
  | case6 c cs _ _ _ _ ps b r hr ih =>
    obtain ⟨rfl, rfl, rfl⟩ : .stray c :: ps = parts ∧ b = closed ∧ r = rest := by simpa using h
    rw [← ih hr]
    simp [TagPart.print]
  | case7 => simp at h
  | case8 c cs _ _ _ _ a tail ha ps b r hr ih =>
    obtain ⟨rfl, rfl, rfl⟩ : .attr a :: ps = parts ∧ b = closed ∧ r = rest := by simpa using h
    rw [← scanAttribute_print ha, ← ih hr]
    simp [TagPart.print]
  | case9 => simp at h
  | case10 => simp at h

/-! ### Items -/

/-- Reads the item that the text `c :: cs` begins with. -/
def scanItem (c : Char) (cs : List Char) : Except Fault (Item × List Char) :=
  if startsComment (c :: cs) then
    match scanComment (c :: cs) with
    | .ok (inner, rest) => .ok (.comment inner, rest)
    | .error e => .error e
  else if startsEndTag (c :: cs) then
    match scanEndTag (c :: cs) with
    | .ok (tag, rest) => .ok (.close tag, rest)
    | .error e => .error e
  else if startsStartTag (c :: cs) then
    match scanStartTag (c :: cs) with
    | .ok (tag, rest) => .ok (.start tag, rest)
    | .error e => .error e
  else
    let more := spanUntil startsMarkup cs
    .ok (.text (c :: more.1), more.2)

/-- The raw text that follows an item, and the text after it. -/
def Item.rawText (item : Item) (cs : List Char) : List Char × List Char :=
  match item with
  | .start tag =>
    if tag.hasRawText then spanUntil (startsFolded ('<' :: '/' :: tag.name)) cs else ([], cs)
  | _ => ([], cs)

/-- A text of the given characters, unless there are none. -/
def text? (cs : List Char) : List Item := if cs.isEmpty then [] else [.text cs]

theorem Item.rawText_append (item : Item) (cs : List Char) :
    (item.rawText cs).1 ++ (item.rawText cs).2 = cs := by
  unfold Item.rawText
  split
  · split
    · exact spanUntil_append _ _
    · rfl
  · rfl

/-- An item is read without loss. -/
theorem scanItem_print {c : Char} {cs rest : List Char} {item : Item}
    (h : scanItem c cs = .ok (item, rest)) : item.print ++ rest = c :: cs := by
  unfold scanItem at h
  split at h
  · rename_i hc
    cases hs : scanComment (c :: cs) with
    | error e => simp [hs] at h
    | ok r =>
      obtain ⟨inner, r⟩ := r
      obtain ⟨rfl, rfl⟩ : .comment inner = item ∧ r = rest := by simpa [hs] using h
      obtain ⟨more, hm⟩ := startsComment_iff.1 hc
      rw [hm] at hs ⊢
      have split := spanUntil_append startsCommentEnd more
      unfold scanComment at hs
      split at hs
      · rename_i i tail hi
        obtain ⟨rfl, rfl⟩ : i = inner ∧ tail = r := by simpa using hs
        rw [show List.drop 4 ('<' :: '!' :: '-' :: '-' :: more) = more from rfl] at hi
        rw [hi] at split
        simp [Item.print, ← split]
      · simp at hs
  · split at h
    · rename_i hc
      cases hs : scanEndTag (c :: cs) with
      | error e => simp [hs] at h
      | ok r =>
        obtain ⟨tag, r⟩ := r
        obtain ⟨rfl, rfl⟩ : .close tag = item ∧ r = rest := by simpa [hs] using h
        obtain ⟨more, hm⟩ := startsEndTag_head hc
        rw [hm] at hs ⊢
        have split := spanUntil_append endsTagName more
        have gaps : (blanks (spanUntil endsTagName more).2).1 ++
            (blanks (spanUntil endsTagName more).2).2 = (spanUntil endsTagName more).2 :=
          spanUntil_append startsInk _
        simp only [scanEndTag, show List.drop 2 ('<' :: '/' :: more) = more from rfl] at hs
        split at hs
        · rename_i gap tail hi
          obtain ⟨rfl, rfl⟩ : ⟨(spanUntil endsTagName more).1, gap⟩ = tag ∧ tail = r := by
            simpa using hs
          have whole : (spanUntil endsTagName more).1 ++ (gap ++ '>' :: tail) = more := by
            rw [hi] at gaps
            rw [show gap ++ '>' :: tail = (spanUntil endsTagName more).2 from gaps]
            exact split
          simpa [Item.print, EndTag.print] using whole
        · simp at hs
    · split at h
      · rename_i hc
        cases hs : scanStartTag (c :: cs) with
        | error e => simp [hs] at h
        | ok r =>
          obtain ⟨tag, r⟩ := r
          obtain ⟨rfl, rfl⟩ : .start tag = item ∧ r = rest := by simpa [hs] using h
          obtain ⟨more, hm⟩ := startsStartTag_head hc
          rw [hm] at hs ⊢
          have split := spanUntil_append endsTagName more
          unfold scanStartTag at hs
          rw [show List.drop 1 ('<' :: more) = more from rfl] at hs
          cases hp : scanParts ('<' :: more) (spanUntil endsTagName more).2 with
          | error e => simp [hp] at hs
          | ok q =>
            obtain ⟨parts, closed, q⟩ := q
            obtain ⟨rfl, rfl⟩ : ⟨(spanUntil endsTagName more).1, parts, closed⟩ = tag ∧ q = r := by
              simpa [hp] using hs
            have whole : (spanUntil endsTagName more).1 ++ (parts.flatMap TagPart.print ++
                (if closed then ['/', '>'] else ['>']) ++ q) = more := by
              rw [scanParts_print hp]; exact split
            simpa [Item.print, StartTag.print, StartTag.closing] using whole
      · obtain ⟨rfl, rfl⟩ : Item.text (c :: (spanUntil startsMarkup cs).1) = item ∧
            (spanUntil startsMarkup cs).2 = rest := by simpa using h
        simp [Item.print, spanUntil_append]

theorem Item.print_ne_nil {c : Char} {cs rest : List Char} {item : Item}
    (h : scanItem c cs = .ok (item, rest)) : item.print ≠ [] := by
  cases item with
  | comment inner => simp [Item.print]
  | text s =>
    unfold scanItem at h
    split at h
    · split at h <;> simp at h
    · split at h
      · split at h <;> simp at h
      · split at h
        · split at h <;> simp at h
        · obtain ⟨rfl, -⟩ : c :: (spanUntil startsMarkup cs).1 = s ∧
            (spanUntil startsMarkup cs).2 = rest := by simpa using h
          simp [Item.print]
  | start t => simp [Item.print, StartTag.print]
  | close t => simp [Item.print, EndTag.print]

/-- An item takes at least one character, and raw text gives none back. -/
theorem length_rawText_scanItem_lt {c : Char} {cs rest : List Char} {item : Item}
    (h : scanItem c cs = .ok (item, rest)) : (item.rawText rest).2.length < (c :: cs).length := by
  have printed := congrArg List.length (scanItem_print h)
  have raw := congrArg List.length (item.rawText_append rest)
  have nonempty := List.length_pos_iff.2 (Item.print_ne_nil h)
  simp only [List.length_append] at printed raw
  omega

/-- The items of a text, or the first fault. -/
def scan : List Char → Except Fault (List Item)
  | [] => .ok []
  | c :: cs =>
    match _h : scanItem c cs with
    | .ok (item, rest) =>
      match scan (item.rawText rest).2 with
      | .ok items => .ok (item :: text? (item.rawText rest).1 ++ items)
      | .error e => .error e
    | .error e => .error e
  termination_by cs => cs.length
  decreasing_by exact length_rawText_scanItem_lt _h

/-- The items of a template, written out, are the template. -/
theorem scan_print {cs : List Char} {items : List Item} (h : scan cs = .ok items) :
    items.flatMap Item.print = cs := by
  fun_induction scan cs generalizing items with
  | case1 =>
    obtain rfl : [] = items := by simpa using h
    rfl
  | case2 c cs item rest hi more hm ih =>
    obtain rfl : item :: text? (item.rawText rest).1 ++ more = items := by simpa using h
    have raw : (text? (item.rawText rest).1).flatMap Item.print = (item.rawText rest).1 := by
      unfold text?
      split
      · rename_i he; simp [List.isEmpty_iff.1 he]
      · simp [Item.print]
    simp only [List.cons_append, List.flatMap_cons, List.flatMap_append, raw, ih hm]
    rw [item.rawText_append, scanItem_print hi]
  | case3 => simp at h
  | case4 => simp at h

end SyntaxLint.Template
