import Mathlib.Data.List.Basic
import SyntaxLint.Template.Name

/-!
# Proofs — Templates — names of attributes

A binding can be spelled in several ways.  What an attribute of a name is, what it binds, and which
event it listens to are told by three functions, each of which looks for the marks of a binding in
an order of its own.  They agree: the names of bindings are those that mark something, and what is
bound is what stands between the marks.

* `AttributeName.Marks`, `AttributeName.Listens`: how a name spells what it binds, and an event.
* `AttributeName.kindOf_eq_propertyBinding_iff`, `AttributeName.kindOf_eq_eventBinding_iff`: the
  names of bindings.
* `AttributeName.Marks.bare_eq`, `AttributeName.Listens.eventOf_eq`: what they bind.
* `AttributeName.alike_of_marks`: names that spell one thing are alike.
-/

namespace SyntaxLint.AttributeName

variable {name inner rest : List Char} {left right : Char} {head : String}

/-! ### Marks -/

theorem wrapped?_eq_some_iff :
    wrapped? left right name = some inner ↔ name = left :: (inner ++ [right]) := by
  simp only [wrapped?, Option.bind_eq_some_iff, List.isPrefixOf?_eq_some_iff_append_eq,
    List.isSuffixOf?_eq_some_iff_append_eq]
  constructor
  · rintro ⟨rest, rfl, rfl⟩
    rfl
  · rintro rfl
    exact ⟨_, rfl, rfl⟩

theorem wrapped?_wrap (left right : Char) (inner : List Char) :
    wrapped? left right (left :: (inner ++ [right])) = some inner := wrapped?_eq_some_iff.2 rfl

theorem headed?_eq_some_iff :
    headed? head name = some rest ↔ name = head.toList ++ rest ∧ rest ≠ [] := by
  simp only [headed?, Option.filter_eq_some_iff, List.isPrefixOf?_eq_some_iff_append_eq,
    decide_eq_true_eq]
  exact and_congr_left' eq_comm

theorem headed?_append (ne : rest ≠ []) : headed? head (head.toList ++ rest) = some rest :=
  headed?_eq_some_iff.2 ⟨rfl, ne⟩

theorem isTrigger_eq_true_iff : isTrigger name = true ↔ ∃ s, name = '@' :: s ∧ s ≠ [] := by
  constructor
  · intro h
    unfold isTrigger at h
    split at h
    · exact ⟨_, rfl, by simp⟩
    · simp at h
  · rintro ⟨s, rfl, ne⟩
    obtain ⟨c, s, rfl⟩ := List.exists_cons_of_ne_nil ne
    rfl

/-! ### Properties -/

/-- How a name spells what it binds, which stands between the marks; the `@` of a trigger is a part
of it. -/
inductive Marks : List Char → List Char → Prop where
  | brackets {s : List Char} (plain : wrapped? '(' ')' s = none) : Marks s ('[' :: (s ++ [']']))
  | both (s : List Char) : Marks s ('[' :: ('(' :: (s ++ [')']) ++ [']']))
  | bind {s : List Char} (ne : s ≠ []) : Marks s ("bind-".toList ++ s)
  | bindon {s : List Char} (ne : s ≠ []) : Marks s ("bindon-".toList ++ s)
  | trigger {s : List Char} (ne : s ≠ []) : Marks ('@' :: s) ('@' :: s)

/-- Brackets spell something, with parentheses inside them or without. -/
theorem exists_marks_brackets (inner : List Char) :
    ∃ bound, Marks bound ('[' :: (inner ++ [']'])) := by
  cases parens : wrapped? '(' ')' inner with
  | none => exact ⟨inner, .brackets parens⟩
  | some bound =>
    obtain rfl := wrapped?_eq_some_iff.1 parens
    exact ⟨bound, .both bound⟩

/-- **The names of property bindings** are those that spell what they bind. -/
theorem kindOf_eq_propertyBinding_iff :
    kindOf name = .propertyBinding ↔ ∃ inner, Marks inner name := by
  have marked : kindOf name = .propertyBinding ↔
      (∃ inner, name = '[' :: (inner ++ [']'])) ∨ (∃ s, name = '@' :: s ∧ s ≠ []) ∨
        (∃ s, name = "bind-".toList ++ s ∧ s ≠ []) ∨
        ∃ s, name = "bindon-".toList ++ s ∧ s ≠ [] := by
    simp only [← wrapped?_eq_some_iff, ← headed?_eq_some_iff, ← isTrigger_eq_true_iff,
      ← Option.isSome_iff_exists, kindOf, Bool.or_eq_true, or_assoc]
    split
    · exact iff_of_true rfl ‹_›
    · refine iff_of_false ?_ ‹_›
      split <;> simp
  rw [marked]
  constructor
  · rintro (⟨inner, rfl⟩ | ⟨s, rfl, ne⟩ | ⟨s, rfl, ne⟩ | ⟨s, rfl, ne⟩)
    · exact exists_marks_brackets inner
    · exact ⟨_, .trigger ne⟩
    · exact ⟨s, .bind ne⟩
    · exact ⟨s, .bindon ne⟩
  · rintro ⟨inner, plain | _ | ne | ne | ne⟩
    · exact .inl ⟨_, rfl⟩
    · exact .inl ⟨_, rfl⟩
    · exact .inr (.inr (.inl ⟨_, rfl, ne⟩))
    · exact .inr (.inr (.inr ⟨_, rfl, ne⟩))
    · exact .inr (.inl ⟨_, rfl, ne⟩)

/-- **What is bound** is the name without its marks. -/
theorem Marks.bare_eq (h : Marks inner name) : bare name = inner := by
  cases h with
  | brackets plain => simp only [bare, wrapped?_wrap, plain, Option.getD_none]
  | both inner => simp only [bare, wrapped?_wrap, Option.getD_some]
  | bind ne =>
    rw [bare, headed?_append ne]
    rfl
  | bindon ne =>
    rw [bare, headed?_append ne]
    rfl
  | trigger ne => rfl

/-- The name bound by a trigger is what follows its `@`. -/
theorem bindingOf_trigger (name : List Char) : bindingOf ('@' :: name) = (.animation, name) := by
  simp [bindingOf, bare, wrapped?, headed?, heads, split, List.isPrefixOf?]

/-- The name bound is a part of what it is split off. -/
theorem length_split_le (name : List Char) (hs : List (String × BindingType)) :
    (split name hs).2.length ≤ name.length := by
  induction hs with
  | nil => exact Nat.le_refl _
  | cons h hs ih =>
    rw [split]
    split
    · rename_i rest found
      rw [← List.isPrefixOf?_eq_some_iff_append_eq.1 found, List.length_append]
      exact Nat.le_add_left ..
    · exact ih

/-- What begins with a parenthesis is bound as it stands. -/
theorem split_parens (s : List Char) : split ('(' :: s) heads = (.property, '(' :: s) := by
  simp [split, heads, List.isPrefixOf?]

/-- `bind-` and brackets bind the same, unless there are parentheses in the brackets: these are
marks there, and a part of the name after `bind-`. -/
theorem bindingOf_bind_iff (ne : inner ≠ []) :
    bindingOf ("bind-".toList ++ inner) = bindingOf ('[' :: (inner ++ [']'])) ↔
      wrapped? '(' ')' inner = none := by
  rw [bindingOf, bindingOf, (Marks.bind ne).bare_eq]
  cases parens : wrapped? '(' ')' inner with
  | none => simp [(Marks.brackets parens).bare_eq]
  | some bound =>
    obtain rfl := wrapped?_eq_some_iff.1 parens
    rw [(Marks.both bound).bare_eq, split_parens]
    simp only [reduceCtorEq, iff_false]
    intro same
    have shorter := length_split_le bound heads
    rw [← same, List.length_cons, List.length_append] at shorter
    omega

/-! ### Events -/

/-- How a name spells the event that is listened to. -/
inductive Listens : List Char → List Char → Prop where
  | parens (s : List Char) : Listens s ('(' :: (s ++ [')']))
  | on {s : List Char} (ne : s ≠ []) : Listens s ("on-".toList ++ s)

/-- **The names of event bindings** are those that spell an event. -/
theorem kindOf_eq_eventBinding_iff :
    kindOf name = .eventBinding ↔ ∃ event, Listens event name := by
  constructor
  · intro kind
    unfold kindOf at kind
    split at kind
    · simp at kind
    · split at kind
      · rename_i marked
        simp only [Bool.or_eq_true, Option.isSome_iff_exists, wrapped?_eq_some_iff,
          headed?_eq_some_iff] at marked
        rcases marked with ⟨s, rfl⟩ | ⟨s, rfl, ne⟩
        · exact ⟨s, .parens s⟩
        · exact ⟨s, .on ne⟩
      · simp at kind
  · rintro ⟨event, _ | ne⟩
    · simp [kindOf, wrapped?, headed?, isTrigger, List.isPrefixOf?, List.isSuffixOf?]
    · simp [kindOf, wrapped?, headed?, isTrigger, List.isPrefixOf?, ne]

theorem Listens.eventOf_eq {event : List Char} (h : Listens event name) : eventOf name = event := by
  cases h with
  | parens => simp only [eventOf, wrapped?_wrap, Option.some_or, Option.getD_some]
  | on ne =>
    rw [eventOf, headed?_append ne]
    rfl

/-! ### Names as strings -/

section Strings

variable {m n s : String}

/-- Two names of property bindings that bind the same. -/
structure Alike (m n : String) : Prop where
  left : kind m = .propertyBinding
  right : kind n = .propertyBinding
  binding : binding m = binding n

theorem kind_of_marks (h : Marks inner n.toList) : kind n = .propertyBinding :=
  kindOf_eq_propertyBinding_iff.2 ⟨inner, h⟩

/-- **Names that spell one thing are alike.** -/
theorem alike_of_marks (h : Marks inner m.toList) (h' : Marks inner n.toList) : Alike m n := by
  refine ⟨kind_of_marks h, kind_of_marks h', ?_⟩
  rw [binding, binding, bindingOf, bindingOf, h.bare_eq, h'.bare_eq]

theorem binding_trigger (s : String) : binding ("@" ++ s) = (.animation, s) := by
  simp [binding, bindingOf_trigger]

theorem toList_brackets (s : String) : ("[" ++ s ++ "]").toList = '[' :: (s.toList ++ [']']) := by
  simp

theorem toList_parens (s : String) : ("(" ++ s ++ ")").toList = '(' :: (s.toList ++ [')']) := by
  simp

theorem toList_ne_nil (ne : s ≠ "") : s.toList ≠ [] := by simpa using ne

/-- A trigger in brackets. -/
theorem marks_trigger (s : String) : Marks ("@" ++ s).toList ("[@" ++ s ++ "]").toList := by
  have inner : ("[@" ++ s ++ "]").toList = '[' :: (("@" ++ s).toList ++ [']']) := by simp
  rw [inner]
  exact .brackets (by simp [wrapped?, List.isPrefixOf?])

theorem kind_trigger_iff : kind ("@" ++ s) = .propertyBinding ↔ s ≠ "" := by
  constructor
  · rintro trigger rfl
    exact absurd trigger (by decide)
  · intro ne
    rw [kind, String.toList_append]
    exact kindOf_eq_propertyBinding_iff.2 ⟨_, .trigger (toList_ne_nil ne)⟩

theorem binding_trigger_brackets (s : String) : binding ("[@" ++ s ++ "]") = (.animation, s) := by
  rw [binding, bindingOf, (marks_trigger s).bare_eq]
  simp [split, heads, List.isPrefixOf?]

theorem marks_both (s : String) : Marks s.toList ("[(" ++ s ++ ")]").toList := by
  have inner : ("[(" ++ s ++ ")]").toList = '[' :: ('(' :: (s.toList ++ [')']) ++ [']']) := by simp
  rw [inner]
  exact .both _

theorem marks_bind (ne : s ≠ "") : Marks s.toList ("bind-" ++ s).toList := by
  rw [String.toList_append]
  exact .bind (toList_ne_nil ne)

theorem marks_bindon (ne : s ≠ "") : Marks s.toList ("bindon-" ++ s).toList := by
  rw [String.toList_append]
  exact .bindon (toList_ne_nil ne)

theorem wrapped?_toList_eq_none_iff :
    wrapped? '(' ')' s.toList = none ↔ ∀ inner, s ≠ "(" ++ inner ++ ")" := by
  constructor
  · rintro none inner rfl
    rw [toList_parens, wrapped?_wrap] at none
    simp at none
  · refine fun plain => Option.eq_none_iff_forall_ne_some.2 fun inner found => ?_
    refine plain (String.ofList inner) (String.toList_inj.1 ?_)
    rw [toList_parens, String.toList_ofList]
    exact wrapped?_eq_some_iff.1 found

theorem binding_eq_iff : binding m = binding n ↔ bindingOf m.toList = bindingOf n.toList := by
  simp only [binding, Prod.ext_iff, String.ofList_inj]

theorem binding_bind_iff (ne : s ≠ "") :
    binding ("bind-" ++ s) = binding ("[" ++ s ++ "]") ↔ ∀ inner, s ≠ "(" ++ inner ++ ")" := by
  rw [binding_eq_iff, String.toList_append, toList_brackets, bindingOf_bind_iff (toList_ne_nil ne),
    wrapped?_toList_eq_none_iff]

theorem kind_brackets (s : String) : kind ("[" ++ s ++ "]") = .propertyBinding := by
  obtain ⟨inner, marks⟩ := exists_marks_brackets s.toList
  exact kind_of_marks (toList_brackets s ▸ marks)

/-- **Both spellings of an event.** -/
theorem listens_on_of_parens (ne : s ≠ "") :
    Listens s.toList ("on-" ++ s).toList ∧ Listens s.toList ("(" ++ s ++ ")").toList := by
  rw [String.toList_append, toList_parens]
  exact ⟨.on (toList_ne_nil ne), .parens _⟩

theorem event_of_listens (h : Listens s.toList n.toList) :
    kind n = .eventBinding ∧ event n = s := by
  refine ⟨kindOf_eq_eventBinding_iff.2 ⟨_, h⟩, ?_⟩
  rw [event, h.eventOf_eq, String.ofList_toList]

end Strings

end SyntaxLint.AttributeName
