import SyntaxLint.Template.Scan

/-!
# Proofs — Templates — what scanning looks at ahead

Where a piece of a start tag ends is told by the text after it.  All that is looked at there are
the blanks, the first other character and whether `/>` begins with it; and a name may as well
begin with `[` as with `@`.  So texts of one `peek` are interchangeable behind a piece.

* `peek`, `peek_append`: what is looked at.
* `spanUntil_of_peek`: a piece ends where it did when the text after it is changed.
-/

namespace SyntaxLint.Template

open Text

/-! ### Pieces -/

variable {stop : List Char → Bool} {a b b' cs ds : List Char}

/-- A span that stops before `b` stops before `b'`, if `stop` cannot tell them apart. -/
theorem spanUntil_of_append (h : spanUntil stop cs = (a, b))
    (same : ∀ s, s ≠ [] → stop (s ++ b) = stop (s ++ b')) (end' : b' = [] ∨ stop b' = true) :
    spanUntil stop (a ++ b') = (a, b') := by
  obtain rfl : a ++ b = cs := by simpa [h] using spanUntil_append stop cs
  induction a with
  | nil =>
    cases b' with
    | nil => rfl
    | cons c cs =>
      have stops : stop (c :: cs) = true := by simpa using end'
      simp [spanUntil, stops]
  | cons c a ih =>
    have goes : stop (c :: (a ++ b)) = false := by
      cases e : stop (c :: (a ++ b)) with
      | false => rfl
      | true => simp [spanUntil, e] at h
    have goes' : stop (c :: (a ++ b')) = false := by
      rw [← goes]
      exact (same (c :: a) (by simp)).symm
    have rest : spanUntil stop (a ++ b) = (a, b) := by
      simp only [List.cons_append, spanUntil, goes] at h
      simpa [Prod.ext_iff] using h
    simp [spanUntil, goes', ih rest]

/-- At no character of a span does it stop. -/
theorem not_stop_of_spanUntil {c : Char} (h : spanUntil stop cs = (a ++ c :: ds, b)) :
    stop (c :: (ds ++ b)) = false := by
  obtain rfl : a ++ c :: ds ++ b = cs := by simpa [h] using spanUntil_append stop cs
  induction a with
  | nil =>
    cases e : stop (c :: (ds ++ b)) with
    | false => rfl
    | true => simp [spanUntil, e] at h
  | cons d a ih =>
    cases e : stop (d :: (a ++ c :: (ds ++ b))) with
    | true => simp [spanUntil, e] at h
    | false =>
      simp only [List.cons_append, List.append_assoc, spanUntil, e, Bool.false_eq_true, if_false,
        Prod.mk.injEq, List.cons.injEq, true_and] at h
      exact ih (Prod.ext (by simpa using h.1) (by simpa using h.2))

theorem exists_not_stop_of_mem (h : spanUntil stop cs = (a, b)) {c : Char} (hc : c ∈ a) :
    ∃ rest, stop (c :: rest) = false := by
  obtain ⟨init, ds, rfl⟩ := List.append_of_mem hc
  exact ⟨_, not_stop_of_spanUntil h⟩

/-! ### Lookahead -/

/-- A name may begin with either of two characters. -/
def mark (c : Char) : Char := if c = '@' then '[' else c

/-- The blanks that a text begins with, the first other character, and whether `/>` begins with
it. -/
def peek (cs : List Char) : List Char × Option Char × Bool :=
  ((blanks cs).1, (blanks cs).2.head?.map mark, startsSelfClose (blanks cs).2)

theorem contains_mark {l : List Char} (h : '@' ∉ l) (h' : '[' ∉ l) (c : Char) :
    l.contains (mark c) = l.contains c := by
  unfold mark
  split
  · rename_i e
    subst e
    simp [h, h']
  · rfl

theorem mark_eq_iff {c d : Char} (h : d ≠ '@') (h' : d ≠ '[') : mark c = d ↔ c = d := by
  unfold mark
  split
  · rename_i e
    subst e
    simp [h.symm, h'.symm]
  · rfl

theorem blanks_cons_of_isBlank {c : Char} (h : isBlank c = true) (cs : List Char) :
    blanks (c :: cs) = (c :: (blanks cs).1, (blanks cs).2) := by
  simp [blanks, spanUntil, startsInk, h]

theorem blanks_cons_of_ink {c : Char} (h : isBlank c = false) (cs : List Char) :
    blanks (c :: cs) = ([], c :: cs) := by
  simp [blanks, spanUntil, startsInk, h]

theorem peek_cons_of_isBlank {c : Char} (h : isBlank c = true) (cs : List Char) :
    peek (c :: cs) = (c :: (peek cs).1, (peek cs).2) := by
  simp [peek, blanks_cons_of_isBlank h]

theorem peek_cons_of_ink {c : Char} (h : isBlank c = false) (cs : List Char) :
    peek (c :: cs) = ([], some (mark c), startsSelfClose (c :: cs)) := by
  simp [peek, blanks_cons_of_ink h]

theorem peek_eq_peek_nil_iff : peek cs = peek [] ↔ cs = [] := by
  refine ⟨fun h => ?_, fun h => h ▸ rfl⟩
  have empty : peek [] = ([], none, false) := rfl
  cases cs with
  | nil => rfl
  | cons c cs =>
    rw [empty] at h
    cases hc : isBlank c with
    | true => simp [peek_cons_of_isBlank hc] at h
    | false => simp [peek_cons_of_ink hc] at h

theorem startsSelfClose_cons (c : Char) (cs : List Char) :
    startsSelfClose (c :: cs) = (c == '/' && cs.head? == some '>') := by
  rw [Bool.eq_iff_iff, startsSelfClose_iff]
  cases cs <;> simp

/-- Whether a text begins with a character that is no blank and not that of a name. -/
theorem head?_eq_iff_peek {d : Char} (hd : isBlank d = false) (h : d ≠ '@') (h' : d ≠ '[') :
    cs.head? = some d ↔ (peek cs).1 = [] ∧ (peek cs).2.1 = some d := by
  cases cs with
  | nil => simp [peek, blanks, spanUntil]
  | cons c cs =>
    cases hc : isBlank c with
    | true =>
      have ne : c ≠ d := fun e => by rw [e, hd] at hc; exact absurd hc (by simp)
      simp [peek_cons_of_isBlank hc, ne]
    | false => simp [peek_cons_of_ink hc, mark_eq_iff h h']

/-- **What is looked at behind a text is as much as what is looked at behind it and before.** -/
theorem peek_append (h : peek cs = peek ds) (a : List Char) : peek (a ++ cs) = peek (a ++ ds) := by
  induction a with
  | nil => exact h
  | cons c a ih =>
    cases hc : isBlank c with
    | true => rw [List.cons_append, List.cons_append, peek_cons_of_isBlank hc, ih,
        peek_cons_of_isBlank hc]
    | false =>
      have next : ((a ++ cs).head? == some '>') = ((a ++ ds).head? == some '>') := by
        rw [Bool.eq_iff_iff, beq_iff_eq, beq_iff_eq,
          head?_eq_iff_peek (by decide) (by decide) (by decide), ih,
          ← head?_eq_iff_peek (by decide) (by decide) (by decide)]
      rw [List.cons_append, List.cons_append, peek_cons_of_ink hc, peek_cons_of_ink hc,
        startsSelfClose_cons, startsSelfClose_cons, next]

/-- A span ends where it did, if it is told by what is looked at. -/
theorem spanUntil_of_peek (told : ∀ cs ds, peek cs = peek ds → stop cs = stop ds)
    (h : spanUntil stop cs = (a, b)) (same : peek b = peek b') :
    spanUntil stop (a ++ b') = (a, b') := by
  refine spanUntil_of_append h (fun s _ => told _ _ (peek_append same s)) ?_
  rcases spanUntil_rest stop cs with none | stops
  · rw [h] at none
    exact .inl (peek_eq_peek_nil_iff.1 (same.symm.trans (congrArg peek none)))
  · rw [h] at stops
    exact .inr ((told _ _ same).symm.trans stops)

/-! ### What ends a piece -/

/-- What is the same before all blanks, and otherwise looks at the first character and `/>`. -/
theorem eq_of_peek {p : List Char → Bool} {k : Bool} {q : Char → Bool → Bool}
    (blank : ∀ c cs, isBlank c = true → p (c :: cs) = k)
    (ink : ∀ c cs, isBlank c = false → p (c :: cs) = q (mark c) (startsSelfClose (c :: cs)))
    (h : peek cs = peek ds) : p cs = p ds := by
  cases cs with
  | nil => rw [peek_eq_peek_nil_iff.1 h.symm]
  | cons c cs =>
    cases ds with
    | nil => rw [peek_eq_peek_nil_iff.1 h]
    | cons d ds =>
      cases hc : isBlank c with
      | true =>
        cases hd : isBlank d with
        | true => rw [blank c cs hc, blank d ds hd]
        | false => simp [peek_cons_of_isBlank hc, peek_cons_of_ink hd] at h
      | false =>
        cases hd : isBlank d with
        | true => simp [peek_cons_of_ink hc, peek_cons_of_isBlank hd] at h
        | false =>
          rw [peek_cons_of_ink hc, peek_cons_of_ink hd] at h
          simp only [Prod.mk.injEq, Option.some.injEq, true_and] at h
          rw [ink c cs hc, ink d ds hd, h.1, h.2]

theorem startsInk_of_peek (h : peek cs = peek ds) : startsInk cs = startsInk ds :=
  eq_of_peek (k := false) (q := fun _ _ => true) (fun c cs hc => by simp [startsInk, hc])
    (fun c cs hc => by simp [startsInk, hc]) h

theorem endsTagName_of_peek (h : peek cs = peek ds) : endsTagName cs = endsTagName ds :=
  eq_of_peek (k := true) (q := fun c _ => ['/', '>', '<', '=', '"', '\''].contains c)
    (fun c cs hc => by simp [endsTagName, hc])
    (fun c cs hc => by
      rw [contains_mark (by decide) (by decide), endsTagName, hc, Bool.false_or]) h

theorem endsAttributeName_of_peek (h : peek cs = peek ds) :
    endsAttributeName cs = endsAttributeName ds :=
  eq_of_peek (k := true) (q := fun c close => ['=', '>', '"', '\'', '<'].contains c || close)
    (fun c cs hc => by simp [endsAttributeName, hc])
    (fun c cs hc => by
      rw [contains_mark (by decide) (by decide), endsAttributeName, hc, Bool.false_or]) h

theorem endsBareValue_of_peek (h : peek cs = peek ds) : endsBareValue cs = endsBareValue ds :=
  eq_of_peek (k := true) (q := fun c close => ['>'].contains c || close)
    (fun c cs hc => by simp [endsBareValue, hc])
    (fun c cs hc => by
      rw [contains_mark (by decide) (by decide), endsBareValue, hc, Bool.false_or]
      simp [Bool.beq_eq_decide_eq]) h

/-- Whether a value begins after the blanks of a text. -/
theorem startsValue_of_peek (h : peek cs = peek ds) :
    startsValue (blanks cs).2 = startsValue (blanks ds).2 := by
  have value : ∀ es, startsValue (blanks es).2 =
      ((peek es).2.1.any (· != '>') && !(peek es).2.2) := by
    intro es
    unfold peek
    cases (blanks es).2 with
    | nil => rfl
    | cons c rest =>
      have same : (mark c != '>') = (c != '>') := by
        rw [bne, bne, Bool.not_inj_iff, Bool.eq_iff_iff, beq_iff_eq, beq_iff_eq,
          mark_eq_iff (by decide) (by decide)]
      simp [startsValue, same]
  rw [value, value, h]

/-- Whether `=` comes after the blanks of a text. -/
theorem exists_equals_of_peek (h : peek cs = peek ds) (he : ∃ r, (blanks cs).2 = '=' :: r) :
    ∃ r, (blanks ds).2 = '=' :: r := by
  obtain ⟨r, he⟩ := he
  have first : (peek ds).2.1 = some '=' := by
    rw [← h, peek, he]
    rfl
  unfold peek at first
  cases hd : (blanks ds).2 with
  | nil => simp [hd] at first
  | cons d rest =>
    have same : mark d = '=' := by simpa [hd] using first
    exact ⟨rest, by rw [(mark_eq_iff (by decide) (by decide)).1 same]⟩

/-- Characters of which none ends the name of a tag. -/
def IsTagName (cs : List Char) : Prop :=
  ∀ c ∈ cs, isBlank c = false ∧ c ∉ ['/', '>', '<', '=', '"', '\'']

instance (cs : List Char) : Decidable (IsTagName cs) := List.decidableBAll _ cs

/-- Such characters are a name, up to a text that ends it. -/
theorem spanUntil_of_isTagName {name : List Char} (plain : IsTagName name)
    (stops : endsTagName b = true) : spanUntil endsTagName (name ++ b) = (name, b) := by
  induction name with
  | nil =>
    cases b with
    | nil => rfl
    | cons c cs => simp [spanUntil, stops]
  | cons c name ih =>
    obtain ⟨ink, inside⟩ := plain c List.mem_cons_self
    have goes : endsTagName (c :: (name ++ b)) = false := by
      rw [endsTagName, ink, Bool.false_or]
      simpa using inside
    simp [spanUntil, goes, ih fun d hd => plain d (List.mem_cons_of_mem c hd)]

theorem endsBareValue_of_startsValue (h : startsValue cs = true) (hi : startsInk cs = true) :
    endsBareValue cs = false := by
  cases cs with
  | nil => simp [startsValue] at h
  | cons c cs =>
    simp only [startsValue, startsInk, Bool.and_eq_true, bne_iff_ne, ne_eq,
      Bool.not_eq_true'] at h hi
    simp [endsBareValue, h, hi]

/-- The blanks before a text that begins with something else. -/
theorem blanks_append (h : a.all isBlank = true) (hb : startsInk b = true) :
    blanks (a ++ b) = (a, b) := by
  induction a with
  | nil =>
    cases b with
    | nil => rfl
    | cons c cs => exact blanks_cons_of_ink (by simpa [startsInk] using hb) cs
  | cons c a ih =>
    simp only [List.all_cons, Bool.and_eq_true] at h
    rw [List.cons_append, blanks_cons_of_isBlank h.1, ih h.2]

/-- A text that begins with no blank has none before it. -/
theorem blanks_of_startsInk (h : startsInk cs = true) : blanks cs = ([], cs) :=
  blanks_append (a := []) rfl h

theorem all_isBlank_blanks (cs : List Char) : (blanks cs).1.all isBlank = true := by
  induction cs with
  | nil => rfl
  | cons c cs ih =>
    cases hc : isBlank c with
    | true => simp [blanks_cons_of_isBlank hc, hc, ih]
    | false => simp [blanks_cons_of_ink hc]

theorem startsInk_blanks (cs : List Char) : startsInk (blanks cs).2 = true := by
  rcases spanUntil_rest startsInk cs with none | ink
  · rw [show (blanks cs).2 = [] from none]; rfl
  · exact ink

end SyntaxLint.Template
