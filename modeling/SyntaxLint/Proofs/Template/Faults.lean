import SyntaxLint.Proofs.Template.Forest
import SyntaxLint.Proofs.Template.Items

/-!
# Proofs — Templates — what has no end

A template whose end offsets reach is refused only where something that begins there has no end: a
comment without `-->`, a quote that does not occur again, an end tag without `>`, or a start tag in
which every `>` stands in quotes.  Nothing else goes wrong: whatever the items are, they are nested
to a tree.

* `IsOpen`: what it is for something to have no end.
* `isOpen_of_scan`: the faults of scanning.
* `open_of_parse`: the errors of parsing.
-/

namespace SyntaxLint.Template

open Text

/-! ### Constructs without an end -/

/-- A comment begins and no `-->` comes after. -/
def OpenComment (cs : List Char) : Prop :=
  ∃ inner, cs = '<' :: '!' :: '-' :: '-' :: inner ∧ ¬ ['-', '-', '>'] <:+: inner

/-- A quote comes first and does not occur again. -/
def OpenValue (cs : List Char) : Prop :=
  ∃ q inner, cs = q :: inner ∧ (q = '"' ∨ q = '\'') ∧ q ∉ inner

/-- An end tag begins and no `>` comes after its name and the blanks behind that. -/
def OpenEndTag (cs : List Char) : Prop :=
  ∃ inner, cs = '<' :: '/' :: inner ∧ startsName inner = true ∧
    ∀ name gap after : List Char,
      IsTagName name → gap.all isBlank = true → inner ≠ name ++ (gap ++ '>' :: after)

/-- What stands between two texts stands in quotes: behind `=`, blanks and a quote, and before the
next such quote. -/
def InQuotes (before after : List Char) : Prop :=
  ∃ head gap q s s' tail, before = head ++ ('=' :: gap ++ q :: s) ∧ after = s' ++ q :: tail ∧
    gap.all isBlank = true ∧ (q = '"' ∨ q = '\'') ∧ q ∉ s ∧ q ∉ s'

/-- Every `>` stands in quotes. -/
def Hidden (cs : List Char) : Prop :=
  ∀ before after, cs = before ++ '>' :: after → InQuotes before after

/-- The part of a tag without the text between its quotes. -/
def TagPart.hollow : TagPart → TagPart
  | .attr ⟨name, .value gap inner (.quoted q _)⟩ => .attr ⟨name, .value gap inner (.quoted q [])⟩
  | p => p

/-- A text is made of parts of a tag that have no `>` but between their quotes. -/
structure Unclosed (cs : List Char) : Prop where
  parts : ∃ parts : List TagPart, cs = parts.flatMap TagPart.print ∧
    ∀ p ∈ parts, p.Proper ∧ '>' ∉ p.hollow.print
  hidden : Hidden cs

/-- A start tag begins in which every `>` is in a quoted value. -/
structure OpenStartTag (cs : List Char) : Prop where
  begins : startsStartTag cs = true
  unclosed : ∃ name parts, cs = '<' :: (name ++ parts) ∧ '>' ∉ name ∧ Unclosed parts
  hidden : Hidden cs

/-- The text begins with something that has no end. -/
def IsOpen : Unterminated → List Char → Prop
  | .comment => OpenComment
  | .startTag => OpenStartTag
  | .attributeValue => OpenValue
  | .endTag => OpenEndTag

variable {cs rest tag : List Char} {e : Fault}

/-! ### Texts that are not ended -/

/-- A span that runs to the end stops nowhere. -/
theorem not_stop_of_spanUntil_nil {stop : List Char → Bool} (h : (spanUntil stop cs).2 = [])
    {init : List Char} {c : Char} {after : List Char} (split : cs = init ++ c :: after) :
    stop (c :: after) = false := by
  have all := spanUntil_append stop cs
  rw [h, List.append_nil] at all
  simpa using not_stop_of_spanUntil (Prod.ext (all.trans split) h)

/-- What is hidden in two texts is hidden in both together. -/
theorem Hidden.append {a b : List Char} (ha : Hidden a) (hb : Hidden b) : Hidden (a ++ b) := by
  intro before after split
  rcases List.append_eq_append_iff.1 split with ⟨inner, rfl, rest⟩ | ⟨inner, rfl, rest⟩
  · obtain ⟨head, gap, q, s, s', tail, rfl, rfl, more⟩ := hb inner after rest
    exact ⟨a ++ head, gap, q, s, s', tail, by simp, rfl, more⟩
  · cases inner with
    | nil =>
      obtain ⟨head, gap, q, s, s', tail, none, rfl, more⟩ := hb [] after (by simpa using rest.symm)
      simp at none
    | cons c inner =>
      obtain ⟨rfl, rfl⟩ := List.cons.inj rest
      obtain ⟨head, gap, q, s, s', tail, rfl, rfl, more⟩ := ha before inner rfl
      exact ⟨head, gap, q, s, s', tail ++ b, rfl, by simp, more⟩

theorem hidden_of_not_mem (h : '>' ∉ cs) : Hidden cs := by
  rintro before after rfl
  simp at h

/-- A character that is not in the first of two texts is in the second. -/
theorem exists_of_append_of_not_mem {a b before after : List Char} {c : Char}
    (split : a ++ b = before ++ c :: after) (h : c ∉ a) :
    ∃ inner, before = a ++ inner ∧ b = inner ++ c :: after := by
  rcases List.append_eq_append_iff.1 split with more | ⟨inner, rfl, rest⟩
  · exact more
  · cases inner with
    | nil => exact ⟨[], by simp, by simpa using rest.symm⟩
    | cons d inner =>
      obtain ⟨rfl, -⟩ := List.cons.inj rest
      simp at h

/-- A quoted value hides what is in it. -/
theorem hidden_quoted {gap : List Char} {q : Char} {s : List Char} (blank : gap.all isBlank = true)
    (quote : q = '"' ∨ q = '\'') (apart : q ∉ s) : Hidden ('=' :: gap ++ [q] ++ (s ++ [q])) := by
  intro before after split
  have outside : '>' ∉ '=' :: gap ++ [q] := by
    have inGap : '>' ∉ gap := fun mem => absurd (List.all_eq_true.1 blank '>' mem) (by decide)
    rcases quote with rfl | rfl <;> simp [inGap]
  obtain ⟨inner, rfl, rest⟩ := exists_of_append_of_not_mem split outside
  -- the last quote is no `>`, so that stands before it
  rcases List.eq_nil_or_concat after with rfl | ⟨s', d, rfl⟩
  · obtain ⟨-, rfl⟩ := List.append_inj' rest rfl |>.imp_right (List.cons.inj · |>.1)
    simp at quote
  · have last : s ++ [q] = (inner ++ '>' :: s') ++ [d] := by simpa using rest
    obtain ⟨rfl, same⟩ := List.append_inj' last rfl
    obtain ⟨rfl, -⟩ := List.cons.inj same
    simp only [List.mem_append, List.mem_cons, not_or] at apart
    exact ⟨[], gap, q, inner, s', [], by simp, by simp, blank, quote, apart.1, apart.2.2⟩

/-! ### Parts of a start tag -/

theorem not_mem_of_all_isBlank {gap : List Char} (h : gap.all isBlank = true) : '>' ∉ gap :=
  fun mem => absurd (List.all_eq_true.1 h '>' mem) (by decide)

theorem Unclosed.nil : Unclosed [] := ⟨⟨[], rfl, by simp⟩, hidden_of_not_mem (by simp)⟩

/-- One more part in front. -/
theorem Unclosed.cons {p : TagPart} (h : Unclosed cs) (proper : p.Proper)
    (hollow : '>' ∉ p.hollow.print) (hidden : Hidden p.print) : Unclosed (p.print ++ cs) := by
  obtain ⟨⟨parts, rfl, all⟩, rest⟩ := h
  exact ⟨⟨p :: parts, rfl, List.forall_mem_cons.2 ⟨⟨proper, hollow⟩, all⟩⟩, hidden.append rest⟩

/-- One more part without `>`. -/
theorem Unclosed.cons_of_not_mem {p : TagPart} (h : Unclosed cs) (proper : p.Proper)
    (same : p.hollow = p) (no : '>' ∉ p.print) : Unclosed (p.print ++ cs) :=
  h.cons proper (by rwa [same]) (hidden_of_not_mem no)

theorem isBlank_of_equals {gap : List Char} (h : scanAssignment cs = .ok (.equals gap, rest)) :
    gap.all isBlank = true := by
  have blank := all_isBlank_blanks cs
  unfold scanAssignment at h
  split at h
  · rename_i g tail hb
    rw [hb] at blank
    by_cases hv : startsValue (blanks tail).2
    · simp only [if_pos hv] at h
      cases read : scanValue (blanks tail).2 <;> simp [read] at h
    · obtain ⟨rfl, -⟩ : g = gap ∧ tail = rest := by simpa [hv] using h
      exact blank
  · simp at h

/-- A value without quotes ends before `>`. -/
theorem not_mem_of_bare {s : List Char} (h : scanValue cs = .ok (.bare s, rest)) : '>' ∉ s := by
  cases cs with
  | nil =>
    obtain ⟨rfl, -⟩ : [] = s ∧ [] = rest := by simpa [scanValue] using h
    simp
  | cons q inner =>
    by_cases hq : q = '"' || q = '\''
    · simp only [scanValue, if_pos hq] at h
      split at h <;> simp at h
    · simp only [scanValue, if_neg hq] at h
      obtain ⟨rfl, -⟩ : (spanUntil endsBareValue (q :: inner)).1 = s ∧
          (spanUntil endsBareValue (q :: inner)).2 = rest := by simpa using h
      intro mem
      obtain ⟨more, goes⟩ := exists_not_stop_of_mem rfl mem
      simp [endsBareValue] at goes

/-- One more attribute, as it is read. -/
theorem Unclosed.cons_attribute {a : Attribute} (h : Unclosed rest)
    (read : scanAttribute cs = .ok (a, rest)) (starts : endsAttributeName cs = false) :
    Unclosed (a.print ++ rest) := by
  have proper := proper_of_scanAttribute read starts
  obtain ⟨tail, named, -, assigned⟩ := exists_of_scanAttribute read
  have plain : '>' ∉ a.name := fun mem => absurd (isPlain_of_spanUntil named '>' mem).2 (by simp)
  obtain ⟨name, assignment⟩ := a
  cases assignment with
  | none =>
    exact h.cons_of_not_mem (p := .attr ⟨name, .none⟩) proper rfl
      (by simpa [TagPart.print, Attribute.print, Assignment.print] using plain)
  | equals gap =>
    have blank := not_mem_of_all_isBlank (isBlank_of_equals assigned)
    exact h.cons_of_not_mem (p := .attr ⟨name, .equals gap⟩) proper rfl
      (by simpa [TagPart.print, Attribute.print, Assignment.print] using ⟨plain, blank⟩)
  | value gap inner v =>
    have outer := not_mem_of_all_isBlank (isBlank_of_scanAssignment assigned)
    obtain ⟨more, -, rfl, -, value⟩ := exists_of_scanAssignment assigned
    have blank := all_isBlank_blanks more
    have inner := not_mem_of_all_isBlank blank
    cases v with
    | bare s =>
      have text := not_mem_of_bare value
      exact h.cons_of_not_mem (p := .attr ⟨name, .value gap _ (.bare s)⟩) proper rfl
        (by simpa [TagPart.print, Attribute.print, Assignment.print, Value.print] using
          ⟨plain, outer, inner, text⟩)
    | quoted q s =>
      obtain ⟨quote, apart⟩ := proper.assignment
      have front : Hidden (name ++ gap) := hidden_of_not_mem (by simpa using ⟨plain, outer⟩)
      refine h.cons (p := .attr ⟨name, .value gap _ (.quoted q s)⟩) proper ?_ ?_
      · have ne : '>' ≠ q := by rcases quote with rfl | rfl <;> decide
        simpa [TagPart.hollow, TagPart.print, Attribute.print, Assignment.print, Value.print] using
          ⟨plain, outer, inner, ne⟩
      · have whole := front.append (hidden_quoted blank quote apart)
        simpa [TagPart.print, Attribute.print, Assignment.print, Value.print] using whole

/-! ### Faults -/

/-- A fault in a text, told with the text from where it begins. -/
structure FaultIn (e : Fault) (cs : List Char) : Prop where
  rest : e.rest <:+ cs
  isOpen : IsOpen e.what e.rest

theorem FaultIn.mono {ds : List Char} (h : FaultIn e cs) (suffix : cs <:+ ds) : FaultIn e ds :=
  ⟨h.rest.trans suffix, h.isOpen⟩

theorem faultIn_of_scanValue (h : scanValue cs = .error e) :
    FaultIn e cs ∧ e.what = .attributeValue := by
  cases cs with
  | nil => simp [scanValue] at h
  | cons q inner =>
    by_cases hq : q = '"' || q = '\''
    · simp only [scanValue, if_pos hq] at h
      split at h
      · simp at h
      · rename_i s hs
        obtain rfl := Except.error.inj h
        refine ⟨⟨List.suffix_refl _, q, inner, rfl, by simpa using hq, fun mem => ?_⟩, rfl⟩
        obtain ⟨init, after, rfl⟩ := List.append_of_mem mem
        have goes := not_stop_of_spanUntil_nil (by rw [hs]) rfl
        simp [startsWith] at goes
    · simp only [scanValue, if_neg hq] at h
      simp at h

theorem blanks_suffix (cs : List Char) : (blanks cs).2 <:+ cs := ⟨_, spanUntil_append startsInk cs⟩

theorem faultIn_of_scanAssignment (h : scanAssignment cs = .error e) :
    FaultIn e cs ∧ e.what = .attributeValue := by
  have split := blanks_suffix cs
  unfold scanAssignment at h
  split at h
  · rename_i gap tail hb
    rw [hb] at split
    by_cases hv : startsValue (blanks tail).2
    · simp only [if_pos hv] at h
      cases read : scanValue (blanks tail).2 with
      | ok r => simp [read] at h
      | error f =>
        obtain rfl : f = e := by simpa [read] using h
        obtain ⟨fault, what⟩ := faultIn_of_scanValue read
        exact ⟨fault.mono ((blanks_suffix tail).trans ((List.suffix_cons _ _).trans split)), what⟩
    · simp [hv] at h
  · simp at h

theorem faultIn_of_scanAttribute (h : scanAttribute cs = .error e) :
    FaultIn e cs ∧ e.what = .attributeValue := by
  unfold scanAttribute at h
  cases read : scanAssignment (spanUntil endsAttributeName cs).2 with
  | ok r => simp [read] at h
  | error f =>
    obtain rfl : f = e := by simpa [read] using h
    obtain ⟨fault, what⟩ := faultIn_of_scanAssignment read
    exact ⟨fault.mono ⟨_, spanUntil_append endsAttributeName cs⟩, what⟩

/-- The parts of a start tag run to the end of the text, or a value in it has no end. -/
theorem unclosed_or_faultIn (h : scanParts tag cs = .error e) :
    (e = ⟨.startTag, tag⟩ ∧ Unclosed cs) ∨ (FaultIn e cs ∧ e.what = .attributeValue) := by
  fun_induction scanParts tag cs with
  | case1 => exact .inl ⟨(Except.error.inj h).symm, .nil⟩
  | case2 => simp at h
  | case3 => simp at h
  | case4 => simp at h
  | case5 c cs _ _ blank gap f hf ih =>
    obtain rfl := Except.error.inj h
    have split : gap.1 ++ gap.2 = c :: cs := spanUntil_append startsInk (c :: cs)
    rcases ih hf with ⟨rfl, unclosed⟩ | ⟨fault, what⟩
    · refine .inl ⟨rfl, ?_⟩
      rw [← split]
      refine unclosed.cons_of_not_mem (p := .blank gap.1) ?_ rfl
        (not_mem_of_all_isBlank (all_isBlank_blanks (c :: cs)))
      exact fst_spanUntil_ne_nil (List.cons_ne_nil c cs) (by simp [startsInk, blank])
    · exact .inr ⟨fault.mono (blanks_suffix _), what⟩
  | case6 => simp at h
  | case7 c cs _ _ _ stray f hf ih =>
    obtain rfl := Except.error.inj h
    rcases ih hf with ⟨rfl, unclosed⟩ | ⟨fault, what⟩
    · refine .inl ⟨rfl, unclosed.cons_of_not_mem (p := .stray c) trivial rfl ?_⟩
      rintro mem
      obtain rfl := List.mem_singleton.1 mem
      simp at stray
    · exact .inr ⟨fault.mono (List.suffix_cons c cs), what⟩
  | case8 => simp at h
  | case9 c cs _ _ _ _ a tail ha f hf ih =>
    obtain rfl := Except.error.inj h
    have printed := scanAttribute_print ha
    rcases ih hf with ⟨rfl, unclosed⟩ | ⟨fault, what⟩
    · refine .inl ⟨rfl, ?_⟩
      rw [← printed]
      refine unclosed.cons_attribute ha ?_
      simp_all [endsAttributeName]
    · exact .inr ⟨fault.mono ⟨_, printed⟩, what⟩
  | case10 c cs _ _ _ _ f hf =>
    obtain rfl := Except.error.inj h
    exact .inr (faultIn_of_scanAttribute hf)

theorem faultIn_of_scanStartTag (begins : startsStartTag cs = true)
    (h : scanStartTag cs = .error e) : FaultIn e cs := by
  obtain ⟨inner, rfl⟩ := startsStartTag_head begins
  obtain ⟨name, tail, hn⟩ : ∃ name tail, spanUntil endsTagName inner = (name, tail) := ⟨_, _, rfl⟩
  have split : name ++ tail = inner := by simpa [hn] using spanUntil_append endsTagName inner
  have plain : '>' ∉ '<' :: name := by
    rw [List.mem_cons, not_or]
    refine ⟨by decide, fun mem => ?_⟩
    obtain ⟨rest, goes⟩ := exists_not_stop_of_mem hn mem
    simp [endsTagName] at goes
  unfold scanStartTag at h
  rw [show List.drop 1 ('<' :: inner) = inner from rfl, hn] at h
  cases read : scanParts ('<' :: inner) tail with
  | ok r => simp [read] at h
  | error f =>
    obtain rfl : f = e := by simpa [read] using h
    rcases unclosed_or_faultIn read with ⟨rfl, unclosed⟩ | ⟨fault, -⟩
    · refine ⟨List.suffix_refl _, begins, ⟨name, tail, by rw [split], ?_, unclosed⟩, ?_⟩
      · exact fun mem => plain (List.mem_cons_of_mem _ mem)
      · rw [← split]
        exact (hidden_of_not_mem plain).append unclosed.hidden
    · exact fault.mono (List.IsSuffix.trans ⟨name, split⟩ (List.suffix_cons _ _))

theorem faultIn_of_scanEndTag (begins : startsEndTag cs = true) (h : scanEndTag cs = .error e) :
    FaultIn e cs := by
  obtain ⟨inner, rfl⟩ := startsEndTag_head begins
  unfold scanEndTag at h
  rw [show List.drop 2 ('<' :: '/' :: inner) = inner from rfl] at h
  dsimp only at h
  split at h
  · simp at h
  · rename_i no
    obtain rfl := Except.error.inj h
    refine ⟨List.suffix_refl _, inner, rfl, begins, ?_⟩
    rintro name gap after named blank rfl
    have stops : endsTagName (gap ++ '>' :: after) = true := by
      cases gap with
      | nil => simp [endsTagName]
      | cons c gap => simp [endsTagName, (List.all_eq_true.1 blank) c List.mem_cons_self]
    refine no gap after ?_
    rw [spanUntil_of_isTagName named stops]
    exact blanks_append blank rfl

theorem faultIn_of_scanComment (begins : startsComment cs = true)
    (h : scanComment cs = .error e) : FaultIn e cs := by
  obtain ⟨inner, rfl⟩ := startsComment_iff.1 begins
  unfold scanComment at h
  rw [show List.drop 4 ('<' :: '!' :: '-' :: '-' :: inner) = inner from rfl] at h
  split at h
  · simp at h
  · rename_i no
    obtain rfl := Except.error.inj h
    refine ⟨List.suffix_refl _, inner, rfl, ?_⟩
    rintro ⟨init, after, split⟩
    rcases spanUntil_rest startsCommentEnd inner with none | stops
    · have goes := not_stop_of_spanUntil_nil none (by simpa using split.symm)
      simp [startsCommentEnd] at goes
    · unfold startsCommentEnd at stops
      split at stops
      · rename_i rest more
        exact no _ rest (Prod.ext rfl more)
      · simp at stops

/-- The fault of an item is in the text that the item begins. -/
theorem faultIn_of_scanItem {c : Char} (h : scanItem c cs = .error e) : FaultIn e (c :: cs) := by
  unfold scanItem at h
  split at h
  · rename_i begins
    cases read : scanComment (c :: cs) with
    | ok r => simp [read] at h
    | error f =>
      obtain rfl : f = e := by simpa [read] using h
      exact faultIn_of_scanComment begins read
  · split at h
    · rename_i begins
      cases read : scanEndTag (c :: cs) with
      | ok r => simp [read] at h
      | error f =>
        obtain rfl : f = e := by simpa [read] using h
        exact faultIn_of_scanEndTag begins read
    · split at h
      · rename_i begins
        cases read : scanStartTag (c :: cs) with
        | ok r => simp [read] at h
        | error f =>
          obtain rfl : f = e := by simpa [read] using h
          exact faultIn_of_scanStartTag begins read
      · simp at h

/-- **The fault of a template** is in its text. -/
theorem faultIn_of_scan (h : scan cs = .error e) : FaultIn e cs := by
  fun_induction scan cs with
  | case1 => simp at h
  | case2 => simp at h
  | case3 c cs item rest hi f hf ih =>
    obtain rfl := Except.error.inj h
    have raw : (item.rawText rest).2 <:+ rest := ⟨_, item.rawText_append rest⟩
    exact (ih hf).mono (raw.trans ⟨_, scanItem_print hi⟩)
  | case4 c cs f hf =>
    obtain rfl := Except.error.inj h
    exact faultIn_of_scanItem hf

/-! ### Parsing -/

/-- What an error says of the text from its offset on. -/
structure Justified (message : String) (rest : List Char) : Prop where
  comment : message = "unterminated comment" → OpenComment rest
  startTag : message = "unterminated start tag" → OpenStartTag rest
  attributeValue : message = "unterminated attribute value" → OpenValue rest
  endTag : message = "unterminated end tag" → OpenEndTag rest

theorem IsOpen.justified {what : Unterminated} (h : IsOpen what cs) :
    Justified what.message cs := by
  cases what
  case comment => exact ⟨fun _ => h, by simp [Unterminated.message],
    by simp [Unterminated.message], by simp [Unterminated.message]⟩
  case startTag => exact ⟨by simp [Unterminated.message], fun _ => h,
    by simp [Unterminated.message], by simp [Unterminated.message]⟩
  case attributeValue => exact ⟨by simp [Unterminated.message], by simp [Unterminated.message],
    fun _ => h, by simp [Unterminated.message]⟩
  case endTag => exact ⟨by simp [Unterminated.message], by simp [Unterminated.message],
    by simp [Unterminated.message], fun _ => h⟩

theorem IsOpen.ne_nil {what : Unterminated} (h : IsOpen what cs) : cs ≠ [] := by
  rintro rfl
  cases what with
  | comment => obtain ⟨inner, split, -⟩ := h; simp at split
  | startTag => exact absurd h.begins (by simp [startsStartTag])
  | attributeValue => obtain ⟨q, inner, split, -⟩ := h; simp at split
  | endTag => obtain ⟨inner, split, -⟩ := h; simp at split

/-- The items of a template that is not parsed are not read, where offsets reach. -/
theorem parse_eq_error_iff {identity : TreeId} {source : String} {e : ParseError}
    (short : source.utf8ByteSize < 2 ^ 32) :
    parse identity source = .error e ↔ ∃ f, scan source.toList = .error f ∧
      e = .invalidSource f.what (source.utf8ByteSize - bytes f.rest) := by
  unfold parse
  cases read : scan source.toList with
  | error f => simp [eq_comm]
  | ok items =>
    rw [← width_documentEvents read] at short
    simp [ofEvents_documentEvents identity short]

/-- **A template that offsets reach is refused only for something that has no end**, and the error
tells what that is and where it begins. -/
theorem open_of_parse {identity : TreeId} {source : String} {e : ParseError}
    (short : source.utf8ByteSize < 2 ^ 32) (h : parse identity source = .error e) :
    ∃ what offset before rest, e = .invalidSource what offset ∧
      source.toList = before ++ rest ∧ offset = bytes before ∧
      offset < source.utf8ByteSize ∧ endsCharacter source offset = true ∧
      Justified what.message rest := by
  obtain ⟨f, read, rfl⟩ := (parse_eq_error_iff short).1 h
  obtain ⟨⟨before, split⟩, isOpen⟩ := faultIn_of_scan read
  have size : source.utf8ByteSize = bytes before + bytes f.rest := by
    rw [← bytes_append, split, ← utf8ByteSize_ofList, String.ofList_toList]
  have offset : source.utf8ByteSize - bytes f.rest = bytes before := by omega
  have full : 0 < bytes f.rest := by
    obtain ⟨c, cs, hf⟩ := List.exists_cons_of_ne_nil isOpen.ne_nil
    have := c.utf8Size_pos
    rw [hf, bytes_cons]
    omega
  refine ⟨f.what, _, before, f.rest, rfl, split.symm, offset, by omega, ?_, isOpen.justified⟩
  rw [offset, endsCharacter_eq, isBoundary_iff, ← split]
  exact ⟨before.length, by simp⟩

/-- A start tag whose only `>` is in quotes. -/
theorem open_of_parse_of_quoted :
    parse 0 "é<p a='>' b" = .error (.invalidSource .startTag 2) ∧
      ∃ before rest, "é<p a='>' b".toList = before ++ rest ∧ 2 = bytes before ∧
        OpenStartTag rest := by
  have short : "é<p a='>' b".utf8ByteSize < 2 ^ 32 := by decide
  have h : parse 0 "é<p a='>' b" = .error (.invalidSource .startTag 2) :=
    (parse_eq_error_iff short).2
      ⟨⟨.startTag, "<p a='>' b".toList⟩, by decide +kernel, by decide +kernel⟩
  obtain ⟨what, offset, before, rest, same, split, place, -, -, justified⟩ := open_of_parse short h
  obtain ⟨rfl, rfl⟩ : .startTag = what ∧ 2 = offset := by simpa using same
  exact ⟨h, before, rest, split, place, justified.startTag rfl⟩

end SyntaxLint.Template
