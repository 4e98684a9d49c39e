import SyntaxLint.Proofs.Template.Forest
import SyntaxLint.Template.Sketch

/-!
# Proofs — Templates — sketches are read back

A sketch is written as items of its own: for each element a start tag, whose attributes are set off
by one space, and an end tag.  Where the names and values in it can be written so, its text is read
as these items, and they are nested to the nodes of the sketch.

* `Elem.Legible`: elements whose names and values can be written.
* `Sketch.items`, `scan_items`: the items of a sketch, and that they are read.
* `documentEvents_items`: the nodes they make.
* `exists_parse_tree`: the tree of a sketch is the tree its text is parsed to.
-/

namespace SyntaxLint.Template.Sketch

open Text

/-! ### What can be written -/

/-- An attribute whose name is one, and whose value has no double quote. -/
structure Attr.Legible (a : Attr) : Prop where
  name : ∃ s, a.name = some s ∧ s.toList ≠ [] ∧ IsPlain s.toList
  value : ∀ v, a.value = some v → '"' ∉ v.toList

/-- An element that is not void, whose name is one and whose attributes can be written.  The last
of these, if it has no value, makes no `/>` with the end of the tag. -/
structure Elem.Legible (e : Elem) : Prop where
  letter : startsName e.tag.toList = true
  tag : IsTagName e.tag.toList
  notVoid : isNamed voidElements e.tag.toList = false
  attributes : ∀ a ∈ e.attributes, a.Legible
  last : ∀ a s, e.attributes.getLast? = some a → a.value = none → a.name = some s →
    s.toList.getLast? ≠ some '/'

/-! ### Items -/

/-- An attribute as it is written. -/
def Attr.written (a : Attr) : Attribute where
  name := (a.name.getD "").toList
  assignment :=
    match a.value with
    | none => .none
    | some v => .value [] [] (.quoted '"' v.toList)

/-- Attributes as they are written, each behind a space. -/
def parts (attributes : List Attr) : List TagPart :=
  attributes.flatMap fun a => [.blank [' '], .attr a.written]

def Elem.startTag (e : Elem) : StartTag := ⟨e.tag.toList, parts e.attributes, false⟩

def Elem.endTag (e : Elem) : EndTag := ⟨e.tag.toList, []⟩

def Elem.items (e : Elem) : List Item := [.start e.startTag, .close e.endTag]

/-- A sketch as it is written, an element a line. -/
def items (elements : List Elem) : List Item :=
  List.intercalate [.text ['\n']] (elements.map Elem.items)

variable {a : Attr} {e : Elem} {elements : List Elem} {attributes : List Attr}
  {tag cs rest tail : List Char}

/-! ### The nodes of a sketch -/

theorem Attr.Legible.events_written (h : a.Legible) : a.written.events = a.events := by
  obtain ⟨s, named, -⟩ := h.name
  obtain ⟨name, value⟩ := a
  obtain rfl : name = some s := named
  cases value with
  | none =>
    simp [Attribute.events, Attr.events, written, Assignment.events, token, AttributeName.kind]
  | some v =>
    have empty : v.toList.isEmpty = v.isEmpty := by
      rw [Bool.eq_iff_iff]
      simp
    simp [Attribute.events, Attr.events, written, Assignment.events, Value.events, valueEvents,
      token, token?, AttributeName.kind, empty]

theorem Elem.Legible.events_startTag (h : e.Legible) : e.startTag.events =
    [.start .startTag, .token .tagOpen "<", .token .tagName e.tag] ++
      e.attributes.flatMap (fun a => .token .whitespace " " :: a.events) ++
      [.token .tagClose ">", .finish] := by
  have inside : (parts e.attributes).flatMap TagPart.events =
      e.attributes.flatMap fun a => .token .whitespace " " :: a.events := by
    rw [parts, List.flatMap_assoc]
    refine List.flatMap_congr fun a ha => ?_
    simp [TagPart.events, (h.attributes a ha).events_written, token]
  simp [StartTag.events, startTag, StartTag.closing, inside, token]

theorem Elem.Legible.isClosed_startTag (h : e.Legible) : e.startTag.isClosed = false := by
  simp [StartTag.isClosed, startTag, h.notVoid]

/-- An element is nested alone. -/
theorem nest_element (h : e.Legible) (more : List Item) :
    nest [] (e.items ++ more) = e.events ++ nest [] more := by
  have own : sameFolded e.tag.toList e.tag.toList = true := by simp [sameFolded]
  have found : [e.tag.toList].findIdx? (sameFolded e.tag.toList) = some 0 := by
    simp [List.findIdx?_cons, own]
  simp only [Elem.items, List.cons_append, List.nil_append, nest, h.isClosed_startTag,
    Bool.false_eq_true, if_false, Elem.endTag, show e.startTag.name = e.tag.toList from rfl, found,
    h.events_startTag]
  simp [Elem.events, EndTag.events, token, token?]

theorem items_cons_cons (e f : Elem) (elements : List Elem) :
    items (e :: f :: elements) = e.items ++ .text ['\n'] :: items (f :: elements) := by
  simp [items, List.intercalate]

theorem exists_items_cons (e : Elem) (elements : List Elem) :
    ∃ more, items (e :: elements) = .start e.startTag :: more := by
  cases elements with
  | nil => exact ⟨[.close e.endTag], by simp [items, Elem.items]⟩
  | cons f elements => exact ⟨_, by rw [items_cons_cons]; rfl⟩

/-- **The items of a sketch make its nodes.** -/
theorem documentEvents_items (h : ∀ e ∈ elements, e.Legible) :
    documentEvents (items elements) = events elements := by
  have inside : nest [] (items elements) =
      List.intercalate [.token .text "\n"] (elements.map Elem.events) := by
    induction elements with
    | nil => rfl
    | cons e elements ih =>
      rw [List.forall_mem_cons] at h
      cases elements with
      | nil => simpa [items, nest] using nest_element h.1 []
      | cons f elements =>
        rw [items_cons_cons, nest_element h.1, nest, ih h.2]
        simp [List.intercalate, token]
  rw [documentEvents, inside, events]

/-! ### The attributes of a sketch -/

theorem scanAssignment_of_none (h : ∀ r, (blanks cs).2 ≠ '=' :: r) :
    scanAssignment cs = .ok (.none, cs) := by
  unfold scanAssignment
  split
  · rename_i gap r hb
    exact absurd (congrArg Prod.snd hb) (h r)
  · rfl

/-- A value ends at the first double quote. -/
theorem scanAssignment_quoted {v : List Char} (h : '"' ∉ v) (rest : List Char) :
    scanAssignment ((Assignment.value [] [] (.quoted '"' v)).print ++ rest) =
      .ok (.value [] [] (.quoted '"' v), rest) := by
  have span : spanUntil (startsWith '"') (v ++ '"' :: rest) = (v, '"' :: rest) := by
    induction v with
    | nil => simp [spanUntil, startsWith]
    | cons c v ih =>
      obtain ⟨ne, h⟩ : '"' ≠ c ∧ '"' ∉ v := by simpa using h
      simp [spanUntil, startsWith, ne.symm, ih h]
  have sign : blanks ('=' :: '"' :: (v ++ '"' :: rest)) =
      ([], '=' :: '"' :: (v ++ '"' :: rest)) :=
    blanks_cons_of_ink (by decide) _
  have quote : blanks ('"' :: (v ++ '"' :: rest)) = ([], '"' :: (v ++ '"' :: rest)) :=
    blanks_cons_of_ink (by decide) _
  have value : startsValue ('"' :: (v ++ '"' :: rest)) = true := by
    simp [startsValue, startsSelfClose_cons]
  simp [Assignment.print, Value.print, scanAssignment, sign, quote, value, scanValue, span]

theorem Attr.Legible.name_written (h : a.Legible) :
    a.written.name ≠ [] ∧ IsPlain a.written.name := by
  obtain ⟨s, named, plain⟩ := h.name
  simpa [written, named] using plain

/-- A name begins with no blank and no `=`. -/
theorem Attr.Legible.exists_written (h : a.Legible) (tail : List Char) :
    ∃ c cs, a.written.print ++ tail = c :: cs ∧ isBlank c = false ∧ c ≠ '=' := by
  obtain ⟨ne, plain⟩ := h.name_written
  obtain ⟨c, cs, named⟩ := List.exists_cons_of_ne_nil ne
  obtain ⟨ink, apart⟩ := plain c (by simp [named])
  exact ⟨c, cs ++ a.written.assignment.print ++ tail, by simp [Attribute.print, named], ink,
    fun e => apart (by simp [e])⟩

/-- The attribute is read up to what ends a name, where that is no `=` and makes no `/>` with
it. -/
theorem Attr.Legible.scanAttribute_written (h : a.Legible) (stops : endsAttributeName tail = true)
    (unassigned : ∀ r, (blanks tail).2 ≠ '=' :: r)
    (apart : tail.head? = some '>' → a.value = none → a.written.name.getLast? ≠ some '/') :
    scanAttribute (a.written.print ++ tail) = .ok (a.written, tail) := by
  obtain ⟨-, plain⟩ := h.name_written
  rw [Attribute.print, List.append_assoc]
  cases hv : a.value with
  | none =>
    have assigned : a.written.assignment = .none := by simp [written, hv]
    rw [assigned]
    have span := spanUntil_of_isPlain plain stops fun e => apart e hv
    exact (scanAttribute_of span (scanAssignment_of_none unassigned)).trans (by rw [← assigned])
  | some v =>
    have assigned : a.written.assignment = .value [] [] (.quoted '"' v.toList) := by
      simp [written, hv]
    have gapless : ([] : List Char).all isBlank = true := rfl
    obtain ⟨stops', first⟩ := ends_before_value gapless [] (.quoted '"' v.toList) tail
    rw [assigned]
    have span := spanUntil_of_isPlain plain stops' fun e => absurd e first
    exact (scanAttribute_of span (scanAssignment_quoted (h.value v hv) tail)).trans
      (by rw [← assigned])

theorem printParts_parts_cons (a : Attr) (attributes : List Attr) (rest : List Char) :
    printParts (parts (a :: attributes)) false rest =
      [' '] ++ (a.written.print ++ printParts (parts attributes) false rest) := by
  rw [show parts (a :: attributes) = .blank [' '] :: .attr a.written :: parts attributes from rfl,
    printParts_cons, printParts_cons]
  rfl

theorem blanks_parts_cons (h : a.Legible) (rest : List Char) :
    blanks (printParts (parts (a :: attributes)) false rest) =
      ([' '], a.written.print ++ printParts (parts attributes) false rest) := by
  obtain ⟨c, cs, starts, ink, -⟩ :=
    h.exists_written (printParts (parts attributes) false rest)
  rw [printParts_parts_cons]
  exact blanks_append rfl (by simp [starts, startsInk, ink])

/-- What comes after an attribute ends its name and gives it no value. -/
theorem ends_before_parts (h : ∀ a ∈ attributes, a.Legible) (rest : List Char) :
    endsAttributeName (printParts (parts attributes) false rest) = true ∧
    (∀ r, (blanks (printParts (parts attributes) false rest)).2 ≠ '=' :: r) ∧
    ((printParts (parts attributes) false rest).head? = some '>' → attributes = []) := by
  cases attributes with
  | nil =>
    have plain : printParts (parts []) false rest = '>' :: rest := rfl
    rw [plain, blanks_cons_of_ink (by decide)]
    exact ⟨by simp [endsAttributeName], by simp, fun _ => rfl⟩
  | cons a attributes =>
    rw [List.forall_mem_cons] at h
    refine ⟨?_, fun r e => ?_, fun e => ?_⟩
    · rw [printParts_parts_cons]
      simp [endsAttributeName, show isBlank ' ' = true by decide]
    · rw [blanks_parts_cons h.1] at e
      obtain ⟨c, cs, starts, -, ne⟩ :=
        h.1.exists_written (printParts (parts attributes) false rest)
      exact ne (List.cons.inj (starts.symm.trans e)).1
    · simp [printParts_parts_cons] at e

/-- The attributes are read, each behind its space. -/
theorem scanParts_parts (h : ∀ a ∈ attributes, a.Legible)
    (last : ∀ a s, attributes.getLast? = some a → a.value = none → a.name = some s →
      s.toList.getLast? ≠ some '/') :
    scanParts tag (printParts (parts attributes) false rest) =
      .ok (parts attributes, false, rest) := by
  induction attributes with
  | nil => simp [parts, printParts, scanParts, startsSelfClose]
  | cons a attributes ih =>
    rw [List.forall_mem_cons] at h
    have later := ih h.2 fun b s e => last b s (by simp [List.getLast?_cons, e])
    obtain ⟨stops, none, ends⟩ := ends_before_parts h.2 rest
    have read := h.1.scanAttribute_written stops none fun e valueless => by
      obtain ⟨s, named, -⟩ := h.1.name
      obtain rfl := ends e
      simpa [Attr.written, named] using last a s rfl valueless named
    refine scanParts_of_blanks (blanks_parts_cons h.1 rest) (by simp)
      (scanParts_of_attribute ?_ read later)
    -- its name does not end at once
    obtain ⟨ne, -⟩ := h.1.name_written
    obtain ⟨inner, span, -⟩ := exists_of_scanAttribute read
    cases e : endsAttributeName (a.written.print ++ printParts (parts attributes) false rest) with
    | false => rfl
    | true =>
      obtain ⟨c, cs, starts, -⟩ :=
        h.1.exists_written (printParts (parts attributes) false rest)
      rw [starts] at e span
      simp only [spanUntil, e, if_true] at span
      exact absurd (congrArg Prod.fst span).symm ne

/-! ### The elements of a sketch -/

theorem Elem.Legible.stable_startTag (h : e.Legible) : e.startTag.Stable := by
  intro rest
  obtain ⟨stops, -⟩ := ends_before_parts h.attributes rest
  have printed : e.startTag.print ++ rest =
      '<' :: (e.tag.toList ++ printParts (parts e.attributes) false rest) := by
    simp [StartTag.print, StartTag.closing, startTag, printParts]
  have span : spanUntil endsTagName
      (e.tag.toList ++ printParts (parts e.attributes) false rest) =
        (e.tag.toList, printParts (parts e.attributes) false rest) := by
    refine spanUntil_of_isTagName h.tag ?_
    cases attrs : e.attributes with
    | nil => simp [parts, printParts, endsTagName]
    | cons a attributes =>
      simp [printParts_parts_cons, endsTagName, show isBlank ' ' = true by decide]
  rw [printed]
  simp [scanStartTag, span, scanParts_parts h.attributes h.last, startTag]

theorem Elem.Legible.scanEndTag_endTag (h : e.Legible) (rest : List Char) :
    scanEndTag (e.endTag.print ++ rest) = .ok (e.endTag, rest) := by
  have span := spanUntil_of_isTagName (b := '>' :: rest) h.tag (by simp [endsTagName])
  have close : blanks ('>' :: rest) = ([], '>' :: rest) := blanks_cons_of_ink (by decide) rest
  simp [EndTag.print, endTag, scanEndTag, span, close]

theorem Elem.Legible.startsMarkup (h : e.Legible) (rest : List Char) :
    startsStartTag (e.startTag.print ++ rest) = true ∧
      startsEndTag (e.endTag.print ++ rest) = true := by
  have letter := h.letter
  cases named : e.tag.toList with
  | nil => simp [named, startsName] at letter
  | cons c name =>
    rw [named] at letter
    have letter : c.isAlpha = true := letter
    simp [StartTag.print, EndTag.print, startTag, endTag, named, startsStartTag, startsEndTag,
      startsName, letter]

/-- No raw text stands between the tags of an element. -/
theorem Elem.rawText_startTag (e : Elem) (rest : List Char) :
    (Item.start e.startTag).rawText (e.endTag.print ++ rest) = ([], e.endTag.print ++ rest) := by
  have ends : startsFolded ('<' :: '/' :: e.tag.toList) (e.endTag.print ++ rest) = true := by
    simp [startsFolded, EndTag.print, endTag, lower]
  by_cases raw : e.startTag.hasRawText = true
  · have close : e.endTag.print ++ rest = '<' :: ('/' :: e.tag.toList ++ ['>'] ++ rest) := by
      simp [EndTag.print, endTag]
    rw [close] at ends ⊢
    rw [Item.rawText, if_pos raw, startTag, spanUntil, if_pos ends]
  · simp [Item.rawText, raw]

/-- An element is read in front of what comes after it. -/
theorem Elem.Legible.scan_items (h : e.Legible) {more : List Item} (hm : scan rest = .ok more) :
    scan (e.items.flatMap Item.print ++ rest) = .ok (e.items ++ more) := by
  have closes : scan (e.endTag.print ++ rest) = .ok (.close e.endTag :: more) := by
    exact scan_cons (scanItem_of_endTag (h.startsMarkup rest).2 (h.scanEndTag_endTag rest)) hm
  have read := scan_cons (scanItem_of_startTag (h.startsMarkup _).1 (h.stable_startTag _))
    (by rw [e.rawText_startTag rest]; exact closes)
  rw [e.rawText_startTag rest] at read
  simpa [Elem.items, Item.print, text?, StartTag.print] using read

/-- A line break between elements is a text, for the next of them begins at once. -/
theorem scan_line {more : List Item} (begins : startsMarkup rest = true)
    (h : scan rest = .ok more) : scan ('\n' :: rest) = .ok (.text ['\n'] :: more) := by
  have span : spanUntil startsMarkup rest = ([], rest) := by
    obtain ⟨r, rfl⟩ := startsMarkup_head begins
    simp [spanUntil, begins]
  exact scan_cons (scanItem_of_text rfl span) h

/-- **A sketch is read as its items.** -/
theorem scan_items (h : ∀ e ∈ elements, e.Legible) :
    scan ((items elements).flatMap Item.print) = .ok (items elements) := by
  induction elements with
  | nil => exact scan_nil
  | cons e elements ih =>
    rw [List.forall_mem_cons] at h
    cases elements with
    | nil => simpa [items] using h.1.scan_items scan_nil
    | cons f elements =>
      have begins : startsMarkup ((items (f :: elements)).flatMap Item.print) = true := by
        obtain ⟨more, hm⟩ := exists_items_cons f elements
        rw [hm, List.flatMap_cons]
        exact startsMarkup_of_startTag ((List.forall_mem_cons.1 h.2).1.startsMarkup _).1
      have read := h.1.scan_items (scan_line begins (ih h.2))
      rw [items_cons_cons]
      simpa [Item.print] using read

/-! ### The tree of a sketch -/

/-- **The text of a sketch is parsed to the tree of the sketch**, where offsets reach. -/
theorem exists_parse_tree (i j : TreeId) (h : ∀ e ∈ elements, e.Legible)
    (short : Event.width (events elements) < 2 ^ 32) :
    ∃ t, tree i elements = .ok t ∧ ∃ u, parse j t.source = .ok u ∧
      u.document = t.document ∧ u.nodes = t.nodes := by
  have made := documentEvents_items h
  rw [← made] at short
  have built : tree i elements = .ok ((plant (items elements)).tree i) := by
    rw [tree, ← made, ofEvents_documentEvents i short]
  refine ⟨_, built, (plant (items elements)).tree j, ?_, rfl, rfl⟩
  rw [tree, ← made] at built
  have text := Tree.source_ofEvents built
  refine (parse_eq_ok_iff_grow ?_).2 ⟨items elements, ?_, rfl⟩
  · rwa [Event.width, ← text, Text.bytes_toList] at short
  · rw [text, chars_documentEvents]
    exact scan_items h

/-- An element of raw text, and one with a value that looks like markup and a name that ends in
`/`. -/
theorem exists_parse_tree_of_markup :
    ∃ t, tree 0 [⟨"Script", [⟨some "src", some ""⟩]⟩,
        ⟨"p", [⟨some "a/", some "'</p>\n=/>"⟩, ⟨some "[b]", none⟩]⟩] = .ok t ∧
      ∃ u, parse 1 t.source = .ok u ∧ u.document = t.document ∧ u.nodes = t.nodes := by
  have src : Attr.Legible ⟨some "src", some ""⟩ :=
    ⟨⟨_, rfl, by decide, by decide⟩, by rintro _ ⟨⟩; decide⟩
  have a : Attr.Legible ⟨some "a/", some "'</p>\n=/>"⟩ :=
    ⟨⟨_, rfl, by decide, by decide⟩, by rintro _ ⟨⟩; decide⟩
  have b : Attr.Legible ⟨some "[b]", none⟩ :=
    ⟨⟨_, rfl, by decide, by decide⟩, by rintro _ ⟨⟩⟩
  refine exists_parse_tree 0 1 (List.forall_mem_cons.2 ⟨?script, List.forall_mem_singleton.2 ?p⟩)
    (by decide +kernel)
  case script =>
    exact ⟨by decide, by decide, by decide, by simpa using src,
      by rintro _ _ ⟨⟩ ⟨⟩⟩
  case p =>
    exact ⟨by decide, by decide, by decide, by simpa using ⟨a, b⟩,
      by rintro _ _ ⟨⟩ - ⟨⟩; decide⟩

end SyntaxLint.Template.Sketch
