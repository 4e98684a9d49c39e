import SyntaxLint.Proofs.Template.Lookahead

/-!
# Proofs — Templates — rebound attributes

A trigger `@name` that is given an expression may be bound as `[@name]`, and the blanks around its
`=` may be written otherwise.  A template in which this is done to every such attribute is read as
the same items, each attribute rebound: no piece ends elsewhere.

* `Attribute.rebind`, `Item.rebind`: what becomes of an attribute and of an item.
* `Attribute.StandsFor`: an attribute that may stand for another where that is read.
* `scanParts_revised`: the parts of a start tag with other attributes.
-/

namespace SyntaxLint.Template

open Text

/-! ### Rebinding -/

/-- What is between the quotes of a value, or the value without quotes. -/
def Value.content : Value → List Char
  | .quoted _ s => s
  | .bare s => s

/-- Whether an attribute has an expression for a value. -/
def Assignment.hasExpression : Assignment → Bool
  | .value _ _ v => !v.content.isEmpty
  | _ => false

/-- Whether an attribute is a trigger that is given an expression. -/
def Attribute.isAssignedTrigger (a : Attribute) : Bool :=
  AttributeName.isTrigger a.name && a.assignment.hasExpression

theorem isAssignedTrigger_iff {a : Attribute} : a.isAssignedTrigger = true ↔
    ∃ t ts gap inner v, a = ⟨'@' :: t :: ts, .value gap inner v⟩ ∧ v.content ≠ [] := by
  constructor
  · intro h
    obtain ⟨name, b⟩ := a
    obtain ⟨named, expression⟩ := Bool.and_eq_true_iff.1 h
    cases b with
    | none => simp [Assignment.hasExpression] at expression
    | equals gap => simp [Assignment.hasExpression] at expression
    | value gap inner v =>
      dsimp only at named
      unfold AttributeName.isTrigger at named
      split at named
      · exact ⟨_, _, gap, inner, v, rfl, by simpa [Assignment.hasExpression] using expression⟩
      · simp at named
  · rintro ⟨t, ts, gap, inner, v, rfl, expression⟩
    simpa [Attribute.isAssignedTrigger, AttributeName.isTrigger, Assignment.hasExpression]
      using expression

variable (squeeze : List Char → List Char)

/-- The blanks around `=` and before a value are squeezed. -/
def Assignment.squeezed : Assignment → Assignment
  | .value gap inner v => .value (squeeze gap) (squeeze inner) v
  | a => a

/-- A trigger that is given an expression is bound, and its blanks are squeezed. -/
def Attribute.rebind (a : Attribute) : Attribute :=
  if a.isAssignedTrigger then ⟨'[' :: a.name ++ [']'], a.assignment.squeezed squeeze⟩ else a

def TagPart.rebind : TagPart → TagPart
  | .attr a => .attr (a.rebind squeeze)
  | p => p

def StartTag.rebind (t : StartTag) : StartTag :=
  { t with parts := t.parts.map (TagPart.rebind squeeze) }

/-- An item in which every trigger that is given an expression is bound. -/
def Item.rebind : Item → Item
  | .start t => .start (t.rebind squeeze)
  | i => i

variable {squeeze}

/-- Blanks stay blanks when they are squeezed. -/
structure Squeezes (squeeze : List Char → List Char) : Prop where
  blank : ∀ s, s.all isBlank = true → (squeeze s).all isBlank = true
  nil : ∀ s, squeeze s = [] ↔ s = []

/-! ### Attributes -/

variable {cs rest rest' : List Char}

theorem scanValue_append {v : Value} (h : scanValue cs = .ok (v, rest))
    (starts : endsBareValue cs = false) (same : peek rest = peek rest') :
    scanValue (v.print ++ rest') = .ok (v, rest') := by
  cases cs with
  | nil => simp [endsBareValue] at starts
  | cons q inner =>
    by_cases hq : q = '"' || q = '\''
    · -- a quoted value ends at its quote, whatever comes after
      simp only [scanValue, if_pos hq] at h
      split at h
      · rename_i s c tail hs
        obtain ⟨rfl, rfl⟩ : Value.quoted q s = v ∧ tail = rest := by simpa using h
        have stops : startsWith q (c :: tail) = true := by
          simpa [hs] using spanUntil_rest (startsWith q) inner
        obtain rfl := startsWith_cons stops
        have span : spanUntil (startsWith c) (s ++ c :: rest') = (s, c :: rest') := by
          refine spanUntil_of_append hs (fun s hs => ?_) (.inr (by simp [startsWith]))
          obtain ⟨d, s, rfl⟩ := List.exists_cons_of_ne_nil hs
          rfl
        simp [Value.print, scanValue, hq, span]
      · simp at h
    · -- a bare one ends where what comes after begins, so that has to begin alike
      simp only [scanValue, if_neg hq] at h
      obtain ⟨rfl, rfl⟩ : Value.bare (spanUntil endsBareValue (q :: inner)).1 = v ∧
          (spanUntil endsBareValue (q :: inner)).2 = rest := by simpa using h
      have first : (spanUntil endsBareValue (q :: inner)).1 =
          q :: (spanUntil endsBareValue inner).1 := by simp [spanUntil, starts]
      have span := spanUntil_of_peek (fun _ _ => endsBareValue_of_peek) rfl same
      rw [first] at span
      rw [Value.print, first, List.cons_append, scanValue, if_neg hq]
      rw [List.cons_append] at span
      rw [span]

/-- What follows the name of an attribute is read behind it, with its blanks squeezed. -/
theorem scanAssignment_append (hg : Squeezes squeeze) {a : Assignment}
    (h : scanAssignment cs = .ok (a, rest)) (same : peek rest = peek rest') :
    scanAssignment ((a.squeezed squeeze).print ++ rest') = .ok (a.squeezed squeeze, rest') := by
  unfold scanAssignment at h
  split at h
  · rename_i gap tail hb
    have gapBlank : gap.all isBlank = true := by simpa [hb] using all_isBlank_blanks cs
    by_cases hv : startsValue (blanks tail).2
    · simp only [if_pos hv] at h
      cases hs : scanValue (blanks tail).2 with
      | error e => simp [hs] at h
      | ok r =>
        obtain ⟨v, r⟩ := r
        obtain ⟨rfl, rfl⟩ : Assignment.value gap (blanks tail).1 v = a ∧ r = rest := by
          simpa [hs] using h
        -- squeezed blanks are read up to the same character: `=`, or the first of the value
        have printed := scanValue_print hs
        have after := startsInk_blanks tail
        have ink : startsInk (v.print ++ rest') = true := by
          rw [← startsInk_of_peek (peek_append same v.print), printed, after]
        have value : startsValue (v.print ++ rest') = true := by
          have both := startsValue_of_peek (peek_append same v.print)
          rw [printed, blanks_of_startsInk after, blanks_of_startsInk ink] at both
          exact both.symm.trans hv
        have first : blanks (squeeze gap ++ '=' :: (squeeze (blanks tail).1 ++
            (v.print ++ rest'))) = (squeeze gap, '=' :: (squeeze (blanks tail).1 ++
            (v.print ++ rest'))) := blanks_append (hg.blank gap gapBlank) rfl
        have second := blanks_append (hg.blank _ (all_isBlank_blanks tail)) ink
        have read := scanValue_append hs (endsBareValue_of_startsValue hv after) same
        simp [Assignment.squeezed, Assignment.print, scanAssignment, first, second, value, read]
    · simp only [if_neg hv] at h
      obtain ⟨rfl, rfl⟩ : Assignment.equals gap = a ∧ tail = rest := by simpa using h
      have none : startsValue (blanks rest').2 = false := by
        rw [← startsValue_of_peek same]
        simpa using hv
      have split : blanks (gap ++ '=' :: rest') = (gap, '=' :: rest') :=
        blanks_append gapBlank rfl
      simp [Assignment.squeezed, Assignment.print, scanAssignment, split, none]
  · rename_i none
    obtain ⟨rfl, rfl⟩ : Assignment.none = a ∧ cs = rest := by simpa using h
    change scanAssignment rest' = _
    unfold scanAssignment
    split
    · rename_i gap r hb
      obtain ⟨r', hr'⟩ := exists_equals_of_peek same.symm ⟨r, by rw [hb]⟩
      exact (none (blanks cs).1 r' (Prod.ext rfl hr')).elim
    · rfl

/-- Characters that are no blanks and of which none ends a name, whatever comes next. -/
def IsPlain (cs : List Char) : Prop :=
  ∀ c ∈ cs, isBlank c = false ∧ c ∉ ['=', '>', '"', '\'', '<']

instance (cs : List Char) : Decidable (IsPlain cs) := List.decidableBAll _ cs

theorem isPlain_of_spanUntil {name tail : List Char}
    (h : spanUntil endsAttributeName cs = (name, tail)) : IsPlain name := by
  intro c hc
  obtain ⟨rest, goes⟩ := exists_not_stop_of_mem h hc
  simp only [endsAttributeName, Bool.or_eq_false_iff] at goes
  exact ⟨goes.1.1, by simpa using goes.1.2⟩

/-- Plain characters are a name, up to a text that ends it and that makes no `/>` with them. -/
theorem spanUntil_of_isPlain {name tail : List Char} (plain : IsPlain name)
    (stops : endsAttributeName tail = true)
    (apart : tail.head? = some '>' → name.getLast? ≠ some '/') :
    spanUntil endsAttributeName (name ++ tail) = (name, tail) := by
  induction name with
  | nil =>
    cases tail with
    | nil => rfl
    | cons c tail => simp [spanUntil, stops]
  | cons c name ih =>
    have rest := fun d hd => plain d (List.mem_cons_of_mem c hd)
    have later : tail.head? = some '>' → name.getLast? ≠ some '/' := fun e last =>
      apart e (by simp [List.getLast?_cons, last])
    have next : c = '/' → (name ++ tail).head? ≠ some '>' := by
      rintro rfl
      cases name with
      | nil => exact fun e => apart e rfl
      | cons d name =>
        intro e
        obtain rfl : d = '>' := by simpa using e
        exact (rest '>' List.mem_cons_self).2 (by decide)
    have goes : endsAttributeName (c :: (name ++ tail)) = false := by
      obtain ⟨ink, inside⟩ := plain c List.mem_cons_self
      rw [endsAttributeName, startsSelfClose_cons, ink]
      simp only [Bool.or_eq_false_iff, Bool.and_eq_false_iff, beq_eq_false_iff_ne]
      exact ⟨⟨trivial, by simpa using inside⟩, Decidable.not_or_of_imp next⟩
    simp [spanUntil, goes, ih rest later]

theorem scanAttribute_of {name tail : List Char} {b : Assignment}
    (hn : spanUntil endsAttributeName cs = (name, tail))
    (hb : scanAssignment tail = .ok (b, rest)) : scanAttribute cs = .ok (⟨name, b⟩, rest) := by
  simp [scanAttribute, hn, hb]

theorem squeezed_id (a : Assignment) : a.squeezed id = a := by cases a <;> rfl

theorem isPlain_brackets {name : List Char} (h : IsPlain name) :
    IsPlain ('[' :: name ++ [']']) := by
  intro c hc
  simp only [List.cons_append, List.mem_cons, List.mem_append, List.not_mem_nil, or_false] at hc
  rcases hc with rfl | hc | rfl
  · decide
  · exact h c hc
  · decide

/-- The name of an attribute that is given a value ends before a blank or `=`. -/
theorem ends_before_value {gap : List Char} (h : gap.all isBlank = true) (inner : List Char)
    (v : Value) (rest : List Char) :
    endsAttributeName ((Assignment.value gap inner v).print ++ rest) = true ∧
      ((Assignment.value gap inner v).print ++ rest).head? ≠ some '>' := by
  cases gap with
  | nil => simp [Assignment.print, endsAttributeName]
  | cons c gap =>
    have blank : isBlank c = true := by simpa using (Bool.and_eq_true_iff.1 h).1
    refine ⟨by simp [Assignment.print, endsAttributeName, blank], fun e => ?_⟩
    obtain rfl : c = '>' := by simpa [Assignment.print] using e
    exact absurd blank (by decide)

/-- How a value is read: after blanks, `=` and blanks, where one begins. -/
theorem exists_of_scanAssignment {gap inner : List Char} {v : Value}
    (h : scanAssignment cs = .ok (.value gap inner v, rest)) :
    ∃ tail, blanks cs = (gap, '=' :: tail) ∧ (blanks tail).1 = inner ∧
      startsValue (blanks tail).2 = true ∧ scanValue (blanks tail).2 = .ok (v, rest) := by
  unfold scanAssignment at h
  split at h
  · rename_i g tail hb
    by_cases hv : startsValue (blanks tail).2
    · simp only [if_pos hv] at h
      cases hs : scanValue (blanks tail).2 with
      | error e => simp [hs] at h
      | ok r =>
        obtain ⟨⟨rfl, same, rfl⟩, rfl⟩ : (g = gap ∧ (blanks tail).1 = inner ∧ r.1 = v) ∧
            r.2 = rest := by simpa [hs] using h
        exact ⟨tail, hb, same, hv, hs⟩
    · simp [hv] at h
  · simp at h

theorem isBlank_of_scanAssignment {gap inner : List Char} {v : Value}
    (h : scanAssignment cs = .ok (.value gap inner v, rest)) : gap.all isBlank = true := by
  obtain ⟨tail, hb, -⟩ := exists_of_scanAssignment h
  simpa [hb] using all_isBlank_blanks cs

/-- What an attribute is read from: its name and what follows it. -/
theorem exists_of_scanAttribute {a : Attribute} (h : scanAttribute cs = .ok (a, rest)) :
    ∃ tail, spanUntil endsAttributeName cs = (a.name, tail) ∧ a.name ++ tail = cs ∧
      scanAssignment tail = .ok (a.assignment, rest) := by
  obtain ⟨name, tail, hn⟩ : ∃ name tail, spanUntil endsAttributeName cs = (name, tail) :=
    ⟨_, _, rfl⟩
  have split : name ++ tail = cs := by simpa [hn] using spanUntil_append endsAttributeName cs
  unfold scanAttribute at h
  cases hs : scanAssignment tail with
  | error e => simp [hn, hs] at h
  | ok r =>
    obtain ⟨b, r⟩ := r
    obtain ⟨rfl, rfl⟩ : ⟨name, b⟩ = a ∧ r = rest := by simpa [hn, hs] using h
    exact ⟨tail, hn, split, hs⟩

/-- Where an attribute is read up to `rest`, another may stand for it: it is read up to whatever is
looked at as `rest` is, and what is looked at before it is what was. -/
def Attribute.StandsFor (a' a : Attribute) (rest : List Char) : Prop :=
  ∀ cs rest', scanAttribute cs = .ok (a, rest) → peek rest = peek rest' →
    scanAttribute (a'.print ++ rest') = .ok (a', rest') ∧ peek cs = peek (a'.print ++ rest')

theorem Attribute.standsFor_self (a : Attribute) (rest : List Char) : a.StandsFor a rest := by
  intro cs rest' h same
  obtain ⟨tail, hn, split, hs⟩ := exists_of_scanAttribute h
  have after : peek tail = peek (a.assignment.print ++ rest') :=
    scanAssignment_print hs ▸ peek_append same a.assignment.print
  have name := spanUntil_of_peek (fun _ _ => endsAttributeName_of_peek) hn after
  have idle : Squeezes id := ⟨fun _ h => h, fun _ => Iff.rfl⟩
  have read := scanAssignment_append idle hs same
  rw [squeezed_id] at read
  rw [Attribute.print, List.append_assoc]
  refine ⟨scanAttribute_of name read, ?_⟩
  rw [← split]
  exact peek_append after a.name

/-- A rebound attribute may stand for the attribute. -/
theorem Attribute.standsFor_rebind (hg : Squeezes squeeze) (a : Attribute) (rest : List Char) :
    (a.rebind squeeze).StandsFor a rest := by
  by_cases assigned : a.isAssignedTrigger = true
  · -- in brackets the name is still plain, and what ends it comes no sooner than before
    intro cs rest' h same
    obtain ⟨tail, hn, split, hs⟩ := exists_of_scanAttribute h
    rw [Attribute.rebind, if_pos assigned]
    obtain ⟨t, ts, gap, inner, v, rfl, -⟩ := isAssignedTrigger_iff.1 assigned
    have read := scanAssignment_append hg hs same
    obtain ⟨stops, apart⟩ := ends_before_value
      (hg.blank gap (isBlank_of_scanAssignment hs)) (squeeze inner) v rest'
    have name' := spanUntil_of_isPlain (isPlain_brackets (isPlain_of_spanUntil hn)) stops
      fun e => absurd e apart
    constructor
    · rw [Attribute.print, List.append_assoc]
      exact scanAttribute_of name' read
    · rw [← split]
      simp only [List.cons_append, Attribute.print]
      rw [peek_cons_of_ink (by decide), peek_cons_of_ink (by decide)]
      rfl
  · rw [Attribute.rebind, if_neg assigned]
    exact a.standsFor_self rest

/-! ### Start tags -/

/-- The parts of a start tag with what closes it and what comes after. -/
def printParts (parts : List TagPart) (closed : Bool) (rest : List Char) : List Char :=
  parts.flatMap TagPart.print ++ (if closed then ['/', '>'] else ['>']) ++ rest

theorem printParts_cons (p : TagPart) (parts : List TagPart) (closed : Bool) (rest : List Char) :
    printParts (p :: parts) closed rest = p.print ++ printParts parts closed rest := by
  simp [printParts]

section

variable {tag : List Char} {parts : List TagPart} {closed : Bool}

/-- Blanks are read where a text begins with them. -/
theorem scanParts_of_blanks {gap tail : List Char} (hb : blanks cs = (gap, tail)) (ne : gap ≠ [])
    (h : scanParts tag tail = .ok (parts, closed, rest)) :
    scanParts tag cs = .ok (.blank gap :: parts, closed, rest) := by
  cases cs with
  | nil => exact absurd (congrArg Prod.fst hb).symm ne
  | cons c cs =>
    cases blank : isBlank c with
    | false =>
      rw [blanks_cons_of_ink blank] at hb
      exact absurd (congrArg Prod.fst hb).symm ne
    | true =>
      have open' : startsSelfClose (c :: cs) = false := by
        rw [startsSelfClose_cons, Bool.and_eq_false_iff]
        exact .inl (beq_eq_false_iff_ne.2 fun e => absurd (e ▸ blank) (by decide))
      have apart : c ≠ '>' := fun e => absurd (e ▸ blank) (by decide)
      rw [scanParts, if_neg (by simp [open']), if_neg apart, dif_pos blank]
      simp [hb, h]

/-- A character that belongs nowhere is read alone. -/
theorem scanParts_of_stray {c : Char} (hc : c ∈ ['"', '\'', '<', '='])
    (h : scanParts tag cs = .ok (parts, closed, rest)) :
    scanParts tag (c :: cs) = .ok (.stray c :: parts, closed, rest) := by
  have apart : isBlank c = false ∧ c ≠ '/' ∧ c ≠ '>' := by
    simp only [List.mem_cons, List.not_mem_nil, or_false] at hc
    rcases hc with rfl | rfl | rfl | rfl <;> decide
  rw [scanParts, if_neg (by simp [startsSelfClose_cons, apart]), if_neg apart.2.2,
    dif_neg (by simp [apart]), if_pos (by simpa using hc)]
  simp [h]

/-- An attribute is read at what does not end a name. -/
theorem scanParts_of_attribute {a : Attribute} {tail : List Char}
    (starts : endsAttributeName cs = false) (ha : scanAttribute cs = .ok (a, tail))
    (h : scanParts tag tail = .ok (parts, closed, rest)) :
    scanParts tag cs = .ok (.attr a :: parts, closed, rest) := by
  cases cs with
  | nil => simp [endsAttributeName] at starts
  | cons c cs =>
    simp only [endsAttributeName, Bool.or_eq_false_iff] at starts
    obtain ⟨⟨ink, inside⟩, open'⟩ := starts
    have apart : c ≠ '>' := by rintro rfl; simp at inside
    have stray : ['"', '\'', '<', '='].contains c = false := by
      simp only [List.contains_eq_mem, List.mem_cons, decide_eq_false_iff_not] at inside ⊢
      grind
    rw [scanParts, if_neg (by simp [open']), if_neg apart, dif_neg (by simp [ink]),
      if_neg (by rw [stray]; simp)]
    split
    · rename_i b r hb
      obtain ⟨rfl, rfl⟩ : b = a ∧ r = tail := by simpa [ha] using hb.symm
      simp [h]
    · rename_i e hb
      simp [ha] at hb

end

/-- The text of the parts that are read. -/
theorem printParts_of_scanParts {tag : List Char} {parts : List TagPart} {closed : Bool}
    (h : scanParts tag cs = .ok (parts, closed, rest)) : printParts parts closed rest = cs :=
  scanParts_print h

/-- The parts of a start tag that ends before `rest`, with other attributes: each stands for the one
it replaces. -/
inductive Revised (closed : Bool) (rest : List Char) : List TagPart → List TagPart → Prop
  | nil : Revised closed rest [] []
  | blank {ps ps' : List TagPart} (cs : List Char) (h : Revised closed rest ps ps') :
      Revised closed rest (.blank cs :: ps) (.blank cs :: ps')
  | stray {ps ps' : List TagPart} (c : Char) (h : Revised closed rest ps ps') :
      Revised closed rest (.stray c :: ps) (.stray c :: ps')
  | attr {ps ps' : List TagPart} {a a' : Attribute}
      (stands : a'.StandsFor a (printParts ps closed rest)) (h : Revised closed rest ps ps') :
      Revised closed rest (.attr a :: ps) (.attr a' :: ps')

theorem revised_self (closed : Bool) (rest : List Char) :
    ∀ parts, Revised closed rest parts parts
  | [] => .nil
  | .blank cs :: parts => .blank cs (revised_self closed rest parts)
  | .stray c :: parts => .stray c (revised_self closed rest parts)
  | .attr a :: parts => .attr (a.standsFor_self _) (revised_self closed rest parts)

theorem revised_rebind (hg : Squeezes squeeze) (closed : Bool) (rest : List Char) :
    ∀ parts : List TagPart, Revised closed rest parts (parts.map (TagPart.rebind squeeze))
  | [] => .nil
  | .blank cs :: parts => .blank cs (revised_rebind hg closed rest parts)
  | .stray c :: parts => .stray c (revised_rebind hg closed rest parts)
  | .attr a :: parts => .attr (a.standsFor_rebind hg _) (revised_rebind hg closed rest parts)

/-- Another attribute at one place. -/
theorem revised_at {closed : Bool} {a a' : Attribute} {right : List TagPart}
    (stands : a'.StandsFor a (printParts right closed rest)) (left : List TagPart) :
    Revised closed rest (left ++ .attr a :: right) (left ++ .attr a' :: right) := by
  induction left with
  | nil => exact .attr stands (revised_self closed rest right)
  | cons p left ih =>
    cases p with
    | blank cs => exact .blank cs ih
    | stray c => exact .stray c ih
    | attr b => exact .attr (b.standsFor_self _) ih

/-- **The parts of a start tag are read with other attributes where these stand for them.** -/
theorem scanParts_revised {tag : List Char} {parts parts' : List TagPart} {closed : Bool}
    (h : scanParts tag cs = .ok (parts, closed, rest)) (revised : Revised closed rest parts parts')
    (tag' rest' : List Char) :
    scanParts tag' (printParts parts' closed rest') = .ok (parts', closed, rest') ∧
      peek cs = peek (printParts parts' closed rest') := by
  -- by induction on the scan: the second half of the statement is what the part before needs to
  -- know of the parts after it
  fun_induction scanParts tag cs generalizing parts parts' closed rest with
  | case1 => simp at h
  | case2 c cs hc =>
    obtain ⟨rfl, rfl, rfl⟩ : [] = parts ∧ true = closed ∧ cs.tail = rest := by simpa using h
    cases revised
    obtain ⟨r, hr⟩ := startsSelfClose_iff.1 hc
    rw [hr]
    exact ⟨by simp [printParts, scanParts, startsSelfClose], rfl⟩
  | case3 cs hc =>
    obtain ⟨rfl, rfl, rfl⟩ : [] = parts ∧ false = closed ∧ cs = rest := by simpa using h
    cases revised
    exact ⟨by simp [printParts, scanParts, startsSelfClose], rfl⟩
  | case4 c cs _ _ blank gap ps b r hr =>
    rename_i ih
    obtain ⟨rfl, rfl, rfl⟩ : .blank gap.1 :: ps = parts ∧ b = closed ∧ r = rest := by simpa using h
    obtain ⟨ps', rfl, later⟩ : ∃ ps', parts' = .blank gap.1 :: ps' ∧ Revised b r ps ps' := by
      cases revised with | blank _ h => exact ⟨_, rfl, h⟩
    obtain ⟨read, same⟩ := ih hr later
    have ne : gap.1 ≠ [] := by
      rw [congrArg Prod.fst (blanks_cons_of_isBlank blank cs : gap = _)]
      simp
    have span := spanUntil_of_peek (fun _ _ => startsInk_of_peek) (rfl : blanks (c :: cs) = gap)
      same
    rw [printParts_cons]
    constructor
    · exact scanParts_of_blanks span ne read
    · rw [← spanUntil_append startsInk (c :: cs)]
      exact peek_append same gap.1
  | case5 => simp at h
  | case6 c cs close gt blank stray ps b r hr ih =>
    obtain ⟨rfl, rfl, rfl⟩ : .stray c :: ps = parts ∧ b = closed ∧ r = rest := by simpa using h
    obtain ⟨ps', rfl, later⟩ : ∃ ps', parts' = .stray c :: ps' ∧ Revised b r ps ps' := by
      cases revised with | stray _ h => exact ⟨_, rfl, h⟩
    obtain ⟨read, same⟩ := ih hr later
    rw [printParts_cons]
    constructor
    · exact scanParts_of_stray (by simpa using stray) read
    · exact peek_append same [c]
  | case7 => simp at h
  | case8 c cs close gt blank stray a tail ha ps b r hr ih =>
    obtain ⟨rfl, rfl, rfl⟩ : .attr a :: ps = parts ∧ b = closed ∧ r = rest := by simpa using h
    obtain ⟨a', ps', rfl, stands, later⟩ : ∃ a' ps', parts' = .attr a' :: ps' ∧
        a'.StandsFor a (printParts ps b r) ∧ Revised b r ps ps' := by
      cases revised with | attr stands h => exact ⟨_, _, rfl, stands, h⟩
    rw [printParts_of_scanParts hr] at stands
    obtain ⟨read, same⟩ := ih hr later
    obtain ⟨reads, looks⟩ := stands _ _ ha same
    have starts : endsAttributeName (c :: cs) = false := by
      simp_all [endsAttributeName]
    rw [printParts_cons]
    refine ⟨?_, looks⟩
    rw [endsAttributeName_of_peek looks] at starts
    exact scanParts_of_attribute starts reads read
  | case9 => simp at h
  | case10 => simp at h

end SyntaxLint.Template
