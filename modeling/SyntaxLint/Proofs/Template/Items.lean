import SyntaxLint.Proofs.Template.Rescan

/-!
# Proofs — Templates — items as they are read

Every piece of a template is read up to the first character that ends it, and a piece is begun only
where it has a character.  So names, blanks and texts are not empty, a quote does not occur in the
value that it encloses, no text follows a text, and after raw text comes an end tag whose name
begins with that of the element, or nothing; no such end tag begins in the raw text.

* `TagPart.Proper`, `StartTag.Proper`, `EndTag.Proper`: the pieces of tags.
* `AsRead`: a sequence of items, in the order in which they are read.
* `asRead_of_scan`: the items of a template.
-/

namespace SyntaxLint.Template

open Text

variable {cs rest : List Char}

/-! ### Pieces of tags -/

/-- A quoted value does not hold its quote, and one without quotes is not empty. -/
def Value.Proper : Value → Prop
  | .quoted q s => (q = '"' ∨ q = '\'') ∧ q ∉ s
  | .bare s => s ≠ []

def Assignment.Proper : Assignment → Prop
  | .value _ _ v => v.Proper
  | _ => True

/-- An attribute has a name. -/
structure Attribute.Proper (a : Attribute) : Prop where
  name : a.name ≠ []
  assignment : a.assignment.Proper

def TagPart.Proper : TagPart → Prop
  | .blank s => s ≠ []
  | .attr a => a.Proper
  | .stray _ => True

structure StartTag.Proper (t : StartTag) : Prop where
  name : t.name ≠ []
  parts : ∀ p ∈ t.parts, p.Proper

def EndTag.Proper (t : EndTag) : Prop := t.name ≠ []

/-- A piece is not empty where nothing ends it at once. -/
theorem fst_spanUntil_ne_nil {stop : List Char → Bool} (ne : cs ≠ []) (goes : stop cs = false) :
    (spanUntil stop cs).1 ≠ [] := by
  cases cs with
  | nil => exact absurd rfl ne
  | cons c cs => simp [spanUntil, goes]

theorem proper_of_scanValue {v : Value} (h : scanValue cs = .ok (v, rest))
    (starts : endsBareValue cs = false) : v.Proper := by
  cases cs with
  | nil => simp [endsBareValue] at starts
  | cons q inner =>
    by_cases hq : q = '"' || q = '\''
    · simp only [scanValue, if_pos hq] at h
      split at h
      · rename_i s c tail hs
        obtain ⟨rfl, -⟩ : Value.quoted q s = v ∧ tail = rest := by simpa using h
        refine ⟨by simpa using hq, fun mem => ?_⟩
        obtain ⟨more, goes⟩ := exists_not_stop_of_mem hs mem
        simp [startsWith] at goes
      · simp at h
    · simp only [scanValue, if_neg hq] at h
      obtain ⟨rfl, -⟩ : Value.bare (spanUntil endsBareValue (q :: inner)).1 = v ∧
          (spanUntil endsBareValue (q :: inner)).2 = rest := by simpa using h
      exact fst_spanUntil_ne_nil (List.cons_ne_nil q inner) starts

theorem proper_of_scanAttribute {a : Attribute} (h : scanAttribute cs = .ok (a, rest))
    (starts : endsAttributeName cs = false) : a.Proper := by
  unfold scanAttribute at h
  cases hs : scanAssignment (spanUntil endsAttributeName cs).2 with
  | error e => simp [hs] at h
  | ok r =>
    obtain ⟨b, r⟩ := r
    obtain ⟨rfl, -⟩ : ⟨(spanUntil endsAttributeName cs).1, b⟩ = a ∧ r = rest := by
      simpa [hs] using h
    constructor
    case name =>
      refine fst_spanUntil_ne_nil ?_ starts
      rintro rfl
      simp [endsAttributeName] at starts
    case assignment =>
      cases b with
      | none => trivial
      | equals gap => trivial
      | value gap inner v =>
        obtain ⟨tail, -, -, value, read⟩ := exists_of_scanAssignment hs
        exact proper_of_scanValue read
          (endsBareValue_of_startsValue value (startsInk_blanks tail))

theorem proper_of_scanParts {tag : List Char} {parts : List TagPart} {closed : Bool}
    (h : scanParts tag cs = .ok (parts, closed, rest)) : ∀ p ∈ parts, p.Proper := by
  fun_induction scanParts tag cs generalizing parts closed rest with
  | case1 => simp at h
  | case2 c cs hc =>
    obtain ⟨rfl, -⟩ : [] = parts ∧ true = closed ∧ cs.tail = rest := by simpa using h
    simp
  | case3 cs hc =>
    obtain ⟨rfl, -⟩ : [] = parts ∧ false = closed ∧ cs = rest := by simpa using h
    simp
  | case4 c cs _ _ blank gap ps b r hr =>
    rename_i ih
    obtain ⟨rfl, -⟩ : .blank gap.1 :: ps = parts ∧ b = closed ∧ r = rest := by simpa using h
    refine List.forall_mem_cons.2 ⟨?_, ih hr⟩
    exact fst_spanUntil_ne_nil (List.cons_ne_nil c cs) (by simp [startsInk, blank])
  | case5 => simp at h
  | case6 c cs _ _ _ _ ps b r hr ih =>
    obtain ⟨rfl, -⟩ : .stray c :: ps = parts ∧ b = closed ∧ r = rest := by simpa using h
    exact List.forall_mem_cons.2 ⟨trivial, ih hr⟩
  | case7 => simp at h
  | case8 c cs _ _ _ _ a tail ha ps b r hr ih =>
    obtain ⟨rfl, -⟩ : .attr a :: ps = parts ∧ b = closed ∧ r = rest := by simpa using h
    refine List.forall_mem_cons.2 ⟨proper_of_scanAttribute ha ?_, ih hr⟩
    simp_all [endsAttributeName]
  | case9 => simp at h
  | case10 => simp at h

theorem proper_of_scanStartTag {c : Char} {tag : StartTag}
    (starts : startsStartTag (c :: cs) = true) (h : scanStartTag (c :: cs) = .ok (tag, rest)) :
    tag.Proper := by
  obtain ⟨x, name, named, -⟩ := name_of_scanStartTag starts h
  obtain ⟨tail, -, parts⟩ := exists_of_scanStartTag h
  exact ⟨by simp [named], proper_of_scanParts parts⟩

theorem proper_of_scanEndTag {tag : EndTag} (starts : startsEndTag cs = true)
    (h : scanEndTag cs = .ok (tag, rest)) : tag.Proper := by
  obtain ⟨tail, named, -⟩ := exists_of_scanEndTag h
  rw [startsEndTag_eq, Bool.and_eq_true] at starts
  have letter := starts.2
  rw [EndTag.Proper, ← show _ = tag.name from congrArg Prod.fst named]
  cases hd : cs.drop 2 with
  | nil => simp [hd, startsName] at letter
  | cons x more =>
    rw [hd] at letter
    exact fst_spanUntil_ne_nil (List.cons_ne_nil x more) (endsTagName_of_isAlpha letter more)

/-! ### Sequences of items -/

/-- Whether a text comes first. -/
def startsText : List Item → Bool
  | .text _ :: _ => true
  | _ => false

/-- Nothing comes, or an end tag whose name begins with `name`, up to case. -/
def EndsRaw (name : List Char) : List Item → Prop
  | [] => True
  | .close tag :: _ => lower name <+: lower tag.name
  | _ => False

/-- A text in which no end tag begins whose name begins with `name`, up to case. -/
def StaysRaw (name cs : List Char) : Prop :=
  ∀ pre post, cs = pre ++ post → startsFolded ('<' :: '/' :: name) post = false

/-- At most one text comes before that, in which no such end tag begins. -/
def StartsRaw (name : List Char) (items : List Item) : Prop :=
  EndsRaw name items ∨
    ∃ cs more, items = .text cs :: more ∧ StaysRaw name cs ∧ EndsRaw name more

/-- Items in an order in which they are read. -/
def AsRead : List Item → Prop
  | [] => True
  | .comment _ :: items => AsRead items
  | .text cs :: items => cs ≠ [] ∧ startsText items = false ∧ AsRead items
  | .start tag :: items =>
    tag.Proper ∧ (tag.hasRawText = true → StartsRaw tag.name items) ∧ AsRead items
  | .close tag :: items => tag.Proper ∧ AsRead items

variable {items : List Item}

theorem startsText_of_endsRaw {name : List Char} (h : EndsRaw name items) :
    startsText items = false := by
  unfold EndsRaw at h
  split at h
  · rfl
  · rfl
  · exact h.elim

/-- No text is read where another item begins. -/
theorem startsText_of_scan (h : scan cs = .ok items) (stops : cs = [] ∨ startsMarkup cs = true) :
    startsText items = false := by
  cases cs with
  | nil =>
    obtain rfl : [] = items := by simpa [scan_nil] using h
    rfl
  | cons c cs =>
    have markup : startsMarkup (c :: cs) = true := stops.resolve_left (List.cons_ne_nil c cs)
    obtain ⟨item, rest, more, hi, rfl⟩ := exists_of_scan_cons h
    rcases scanItem_cases hi with ⟨_, rfl, -⟩ | ⟨_, rfl, -⟩ | ⟨_, rfl, -⟩ | ⟨_, -, goes, -⟩
    · rfl
    · rfl
    · rfl
    · simp [markup] at goes

/-- What is read where raw text ends. -/
theorem endsRaw_of_scan {name : List Char} (raw : isNamed rawTextElements name = true)
    (h : scan cs = .ok items) (stops : cs = [] ∨ startsFolded ('<' :: '/' :: name) cs = true) :
    EndsRaw name items := by
  cases cs with
  | nil =>
    obtain rfl : [] = items := by simpa [scan_nil] using h
    trivial
  | cons c cs =>
    have folded := stops.resolve_left (List.cons_ne_nil c cs)
    obtain ⟨item, rest, more, hi, rfl⟩ := exists_of_scan_cons h
    obtain ⟨tag, rfl, begins⟩ := close_of_startsFolded raw folded hi
    exact begins

/-- What a text begins with it begins with in any longer text. -/
theorem startsFolded_append {head : List Char} (h : startsFolded head cs = true)
    (tail : List Char) : startsFolded head (cs ++ tail) = true := by
  rw [startsFolded, List.isPrefixOf_iff_prefix] at h ⊢
  have longer : cs.take head.length <+: (cs ++ tail).take head.length := by
    rw [List.take_append]
    exact List.prefix_append _ _
  exact h.trans (longer.map Char.toLower)

/-- No end tag of the name begins in raw text. -/
theorem staysRaw_of_spanUntil {name raw tail : List Char}
    (h : spanUntil (startsFolded ('<' :: '/' :: name)) cs = (raw, tail)) : StaysRaw name raw := by
  rintro pre post rfl
  cases post with
  | nil => rfl
  | cons c post =>
    have goes := not_stop_of_spanUntil h
    cases begins : startsFolded ('<' :: '/' :: name) (c :: post) with
    | false => rfl
    | true => exact (startsFolded_append begins tail).symm.trans goes

/-- Raw text and what is read after it. -/
theorem asRead_text? {raw : List Char} (no : startsText items = false) (h : AsRead items) :
    AsRead (text? raw ++ items) := by
  unfold text?
  split
  · exact h
  · rename_i full
    exact ⟨by simpa using full, no, h⟩

/-- **The items of a template are as read.** -/
theorem asRead_of_scan (h : scan cs = .ok items) : AsRead items := by
  fun_induction scan cs generalizing items with
  | case1 =>
    obtain rfl : [] = items := by simpa using h
    trivial
  | case2 c cs item rest hi more hm ih =>
    obtain rfl : item :: text? (item.rawText rest).1 ++ more = items := by simpa using h
    have after := ih hm
    rcases scanItem_cases hi with ⟨inner, rfl, -⟩ | ⟨tag, rfl, starts, hs⟩ |
      ⟨tag, rfl, starts, hs⟩ | ⟨s, rfl, -, hs⟩
    · exact after
    · exact ⟨proper_of_scanEndTag starts hs, after⟩
    · by_cases raw : tag.hasRawText = true
      · have span : (Item.start tag).rawText rest =
            spanUntil (startsFolded ('<' :: '/' :: tag.name)) rest := if_pos raw
        rw [span] at hm ⊢
        have ends := endsRaw_of_scan (Bool.and_eq_true_iff.1 raw).2 hm (spanUntil_rest _ rest)
        refine ⟨proper_of_scanStartTag starts hs, fun _ => ?_,
          asRead_text? (startsText_of_endsRaw ends) after⟩
        unfold text?
        split
        · exact .inl ends
        · exact .inr ⟨_, more, rfl, staysRaw_of_spanUntil rfl, ends⟩
      · have none : (Item.start tag).rawText rest = ([], rest) := if_neg raw
        rw [none] at hm ⊢
        exact ⟨proper_of_scanStartTag starts hs, fun h => absurd h raw, after⟩
    · have stops : rest = [] ∨ startsMarkup rest = true := by
        simpa [hs] using spanUntil_rest startsMarkup cs
      exact ⟨List.cons_ne_nil c s, startsText_of_scan hm stops, after⟩
  | case3 => simp at h
  | case4 => simp at h

end SyntaxLint.Template
