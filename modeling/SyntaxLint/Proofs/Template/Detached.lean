import SyntaxLint.Proofs.Template.Site

/-!
# Proofs — Templates — names without values

Where an attribute loses its value, its name comes to stand before what followed the value.  It is
read there as that name and nothing more exactly if something ends it, no `=` comes next and it
makes no `/>` with what comes; and then nothing else in the template is read otherwise.

* `Detached`, `detached_iff`: what may follow a name alone.
* `Site.scanAttribute_rest`, `Site.scan_given`: an attribute of a template, and another in its
  place.
-/

namespace SyntaxLint.Template

open Text

/-- What may follow a name that stands alone: it ends the name, it does not go on with `=`, and it
makes no `/>` with the end of the name. -/
structure Detached (name after : List Char) : Prop where
  ends : endsAttributeName after = true
  unassigned : (blanks after).2.head? ≠ some '='
  open' : after.head? = some '>' → name.getLast? ≠ some '/'

instance (name after : List Char) : Decidable (Detached name after) :=
  decidable_of_iff (endsAttributeName after = true ∧ (blanks after).2.head? ≠ some '=' ∧
      (after.head? = some '>' → name.getLast? ≠ some '/'))
    ⟨fun ⟨ends, unassigned, open'⟩ => ⟨ends, unassigned, open'⟩,
      fun h => ⟨h.ends, h.unassigned, h.open'⟩⟩

variable {cs rest rest' name after : List Char} {a : Attribute}

/-! ### Names alone -/

theorem head?_eq_some_iff_exists {c : Char} : cs.head? = some c ↔ ∃ r, cs = c :: r := by
  cases cs <;> simp [eq_comm]

/-- No value is given where no `=` comes. -/
theorem scanAssignment_eq_none_iff :
    scanAssignment after = .ok (.none, after) ↔ (blanks after).2.head? ≠ some '=' := by
  rw [Ne, head?_eq_some_iff_exists]
  unfold scanAssignment
  split
  · rename_i gap r hb
    simp only [hb, List.cons.injEq, true_and, exists_eq', not_true, iff_false]
    split
    · split <;> simp
    · simp
  · rename_i none
    simp only [true_iff]
    rintro ⟨r, hr⟩
    exact none (blanks after).1 r (Prod.ext rfl hr)

/-- **A name is read alone exactly if what follows is detached.** -/
theorem detached_iff (plain : IsPlain name) :
    Detached name after ↔ scanAttribute (name ++ after) = .ok (⟨name, .none⟩, after) := by
  constructor
  · intro h
    exact scanAttribute_of (spanUntil_of_isPlain plain h.ends h.open')
      (scanAssignment_eq_none_iff.2 h.unassigned)
  · intro h
    obtain ⟨tail, span, split, assigned⟩ := exists_of_scanAttribute h
    obtain rfl : tail = after := List.append_cancel_left split
    refine ⟨?_, scanAssignment_eq_none_iff.1 assigned, fun close last => ?_⟩
    · rcases spanUntil_rest endsAttributeName (name ++ tail) with none | ends
      · rw [span] at none
        obtain rfl : tail = [] := none
        rfl
      · rwa [span] at ends
    · obtain ⟨init, rfl⟩ := List.getLast?_eq_some_iff.1 last
      obtain ⟨r, rfl⟩ := head?_eq_some_iff_exists.1 close
      have goes := not_stop_of_spanUntil (by simpa using span)
      simp [endsAttributeName, startsSelfClose] at goes

/-- What is looked at tells whether it is detached. -/
theorem Detached.of_peek (h : Detached name rest) (same : peek rest = peek rest') :
    Detached name rest' := by
  refine ⟨(endsAttributeName_of_peek same).symm.trans h.ends, fun equals => ?_, fun close => ?_⟩
  · refine h.unassigned (head?_eq_some_iff_exists.2 ?_)
    exact exists_equals_of_peek same.symm (head?_eq_some_iff_exists.1 equals)
  · refine h.open' ?_
    rw [head?_eq_iff_peek (by decide) (by decide) (by decide)] at close ⊢
    rwa [same]

/-- Where it is detached, the name of a trigger may stand for the trigger with its value. -/
theorem standsFor_given_none (trigger : AttributeName.isTrigger a.name = true)
    (h : Detached a.name rest) : (a.given .none).StandsFor a rest := by
  intro cs rest' hs same
  obtain ⟨tail, span, split, -⟩ := exists_of_scanAttribute hs
  have alone := (detached_iff (isPlain_of_spanUntil span)).1 (h.of_peek same)
  refine ⟨by simpa [Attribute.given, Attribute.print, Assignment.print] using alone, ?_⟩
  -- a trigger begins with a character that tells nothing of what comes after it
  obtain ⟨t, ts, named⟩ : ∃ t ts, a.name = '@' :: t :: ts := by
    unfold AttributeName.isTrigger at trigger
    split at trigger
    · exact ⟨_, _, ‹_›⟩
    · simp at trigger
  rw [← split, Attribute.given, Attribute.print, named]
  simp only [List.cons_append]
  rw [peek_cons_of_ink (by decide), peek_cons_of_ink (by decide)]
  rfl

/-! ### Attributes of templates -/

theorem exists_scanAttribute {tag : List Char} {left right : List TagPart} {closed : Bool}
    (h : scanParts tag cs = .ok (left ++ .attr a :: right, closed, rest)) :
    ∃ ds, scanAttribute ds = .ok (a, printParts right closed rest) := by
  generalize hs : left ++ .attr a :: right = parts at h
  fun_induction scanParts tag cs generalizing left parts closed rest with
  | case1 => simp at h
  | case2 c cs hc =>
    obtain ⟨rfl, -⟩ : [] = parts ∧ true = closed ∧ cs.tail = rest := by simpa using h
    simp at hs
  | case3 cs hc =>
    obtain ⟨rfl, -⟩ : [] = parts ∧ false = closed ∧ cs = rest := by simpa using h
    simp at hs
  | case4 c cs _ _ blank gap ps b r hr =>
    rename_i ih
    obtain ⟨rfl, rfl, rfl⟩ : .blank gap.1 :: ps = parts ∧ b = closed ∧ r = rest := by simpa using h
    cases left with
    | nil => simp at hs
    | cons p left => exact ih _ (List.cons.inj hs).2 hr
  | case5 => simp at h
  | case6 c cs close gt blank stray ps b r hr ih =>
    obtain ⟨rfl, rfl, rfl⟩ : .stray c :: ps = parts ∧ b = closed ∧ r = rest := by simpa using h
    cases left with
    | nil => simp at hs
    | cons p left => exact ih _ (List.cons.inj hs).2 hr
  | case7 => simp at h
  | case8 c cs close gt blank stray a' tail ha ps b r hr ih =>
    obtain ⟨rfl, rfl, rfl⟩ : .attr a' :: ps = parts ∧ b = closed ∧ r = rest := by simpa using h
    cases left with
    | nil =>
      obtain ⟨same, rfl⟩ := List.cons.inj hs
      obtain rfl := TagPart.attr.inj same
      exact ⟨_, printParts_of_scanParts hr ▸ ha⟩
    | cons p left => exact ih _ (List.cons.inj hs).2 hr
  | case9 => simp at h
  | case10 => simp at h

/-- An attribute of a template is read where it stands. -/
theorem Site.scanAttribute_rest {s : Site} (h : scan cs = .ok (s.items a)) :
    scanAttribute (a.print ++ s.rest) = .ok (a, s.rest) := by
  obtain ⟨ds, read⟩ := exists_scanStartTag h
  obtain ⟨tail, -, parts⟩ := exists_of_scanStartTag read
  obtain ⟨es, read⟩ := exists_scanAttribute parts
  have text := scanAttribute_print read
  rw [← text] at read
  exact read

/-- Items that are read are read again. -/
theorem revises_of_scan {items : List Item} (h : scan cs = .ok items) :
    ∀ item ∈ items, item.Revises item := by
  intro item mem
  cases item with
  | comment inner => exact .comment inner
  | text cs => exact .text cs
  | close tag => exact .close tag
  | start tag =>
    obtain ⟨before, after, rfl⟩ := List.append_of_mem mem
    obtain ⟨ds, read⟩ := exists_scanStartTag h
    exact .start (stable_of_revised read (revised_self _ _ _))

/-- **A template with another attribute in the place of one** is read as the items with that
attribute, if it stands for the one. -/
theorem Site.scan_given {s : Site} {a' : Attribute} (h : scan cs = .ok (s.items a))
    (stands : a'.StandsFor a s.rest) :
    scan ((s.items a').flatMap Item.print) = .ok (s.items a') := by
  obtain ⟨ds, read⟩ := exists_scanStartTag h
  have stable := stable_of_revised read (revised_at stands s.left)
  have same := revises_of_scan h
  refine (scan_revised h (List.rel_append ?_ (.cons (.start stable) ?_))).1
  · exact List.forall₂_same.2 fun item mem => same item (List.mem_append_left _ mem)
  · exact List.forall₂_same.2 fun item mem =>
      same item (List.mem_append_right _ (List.mem_cons_of_mem _ mem))

end SyntaxLint.Template
