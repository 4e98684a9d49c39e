import SyntaxLint.Proofs.Fixing.Outcome
import SyntaxLint.Proofs.Template.Names
import SyntaxLint.View.Template

/-!
# Proofs — Fixing — what a renamed binding binds

A trigger that is given brackets is spelled in another way, and what it binds is the same.  The
brackets are put in where offsets reach the end of the source with them.

* `Fix.apply_rename_trigger`: what becomes of a trigger that is renamed.
* `AttributeName.spellings_agree`: the spellings of bindings, and the rename from one to another.
-/

namespace SyntaxLint

variable {t : Tree} {anchor : Anchor} {b : PropertyBinding} {name : Placed} {trigger : String}
  {format : Formatter}

namespace PropertyBinding

/-- What a binding of a name binds. -/
theorem binds_of_named (named : b.nameElement = .ok name) :
    b.bindingType = .ok (AttributeName.binding name.text).1 ∧
      b.propertyName = .ok (AttributeName.binding name.text).2 := by
  simp [bindingType, propertyName, View.name, named, Except.map]

end PropertyBinding

/-- **A trigger that is renamed** is the same binding under its new name. -/
theorem Fix.apply_rename_trigger (h : t.Numbered) (room : t.source.utf8ByteSize + 2 < 2 ^ 32)
    (resolved : anchor.resolve t = .ok b.node)
    (named : b.nameElement = .ok name) (leaf : name.isLeaf = true)
    (text : name.text = "@" ++ trigger) (stock : format = .idle ∨ format = .whitespace) :
    ((rename trigger).apply format t anchor).outcome =
        .ok (.applied ⟨name.start, name.start + (bindingForm trigger).utf8ByteSize⟩) ∧
      ∃ (b' : PropertyBinding) (m : Placed),
        ((rename trigger).apply format t anchor).tree.node? b.node.id = some b'.node ∧
        b'.nameElement = .ok m ∧ m.text = bindingForm trigger := by
  have child := View.nameElement_eq_ok_iff.1 named
  have hb := Anchor.mem_of_resolve resolved
  have listed := Tree.mem_nodes_of_mem_children hb (Placed.mem_of_child? child)
  have room : t.lengthWith name (bindingForm trigger) < 2 ^ 32 := by
    rwa [h.lengthWith_bindingForm listed text]
  have made : t.edit (.replace name.id (bindingForm trigger)) =
      .ok (t.alter name.id fun _ => .tail (bindingForm trigger),
        ⟨name.start, name.start + (bindingForm trigger).utf8ByteSize⟩) :=
    Tree.replaceText_eq_ok_iff.2 ⟨name, h.node?_id listed, leaf, room, rfl, rfl⟩
  rcases replace_cases h hb trigger child with ⟨u, s, b₁, edit, makes, alive, -⟩ | ⟨_, refused, -⟩
  · rw [(apply_of_edit resolved (edit?_rename child text) format).1 u s b₁ edit alive]
    obtain ⟨b₂, m, -, there, kin, renamed, form⟩ := exists_renamed h resolved makes stock b₁.span
    obtain ⟨-, rfl⟩ : _ ∧ s = _ := by simpa [made, eq_comm] using edit
    have named' := View.nameElement_eq_ok_iff (v := ⟨b₂, kin.kind.trans b.kind_eq⟩).2 renamed
    exact ⟨rfl, _, m, there, named', form⟩
  · simp [made] at refused

namespace AttributeName

/-- **Different spellings of a binding mean the same**, and the rename of a trigger is from one to
another: what is renamed binds what it did before. -/
theorem spellings_agree :
    (∀ s, binding ("@" ++ s) = (.animation, s) ∧ binding ("[@" ++ s ++ "]") = (.animation, s) ∧
      kind ("[@" ++ s ++ "]") = .propertyBinding ∧
      (kind ("@" ++ s) = .propertyBinding ↔ s ≠ "")) ∧
    (∀ s, s ≠ "" → Alike ("bindon-" ++ s) ("[(" ++ s ++ ")]")) ∧
    (∀ s, s ≠ "" → kind ("bind-" ++ s) = .propertyBinding ∧
      kind ("[" ++ s ++ "]") = .propertyBinding ∧
      (binding ("bind-" ++ s) = binding ("[" ++ s ++ "]") ↔
        ∀ inner, s ≠ "(" ++ inner ++ ")")) ∧
    (∀ s, s ≠ "" → ∀ n ∈ ["on-" ++ s, "(" ++ s ++ ")"], kind n = .eventBinding ∧ event n = s) ∧
    ∀ (t : Tree) (anchor : Anchor) (b : PropertyBinding) (name : Placed) (trigger : String)
      (format : Formatter), t.Reachable → t.source.utf8ByteSize + 2 < 2 ^ 32 →
      anchor.resolve t = .ok b.node → b.nameElement = .ok name → name.isLeaf = true →
      name.text = "@" ++ trigger → format = .idle ∨ format = .whitespace →
      let done := (Fix.rename trigger).apply format t anchor
      done.outcome = .ok (.applied
        ⟨name.start, name.start + (Fix.bindingForm trigger).utf8ByteSize⟩) ∧
      ∃ b' : PropertyBinding, done.tree.node? b.node.id = some b'.node ∧
        b'.name = .ok (Fix.bindingForm trigger) ∧ b'.bindingType = b.bindingType ∧
        b'.propertyName = b.propertyName := by
  refine ⟨fun s => ?_, fun s ne => ?_, fun s ne => ?_, fun s ne n hn => ?_, ?_⟩
  · exact ⟨binding_trigger s, binding_trigger_brackets s, kind_of_marks (marks_trigger s),
      kind_trigger_iff⟩
  · exact alike_of_marks (marks_bindon ne) (marks_both s)
  · exact ⟨kind_of_marks (marks_bind ne), kind_brackets s, binding_bind_iff ne⟩
  · obtain ⟨dashed, wrapped⟩ := listens_on_of_parens ne
    rcases List.mem_pair.1 hn with rfl | rfl
    · exact event_of_listens dashed
    · exact event_of_listens wrapped
  · intro t anchor b name trigger format reachable room resolved named leaf text stock
    obtain ⟨outcome, b', m, found, renamed, form⟩ :=
      Fix.apply_rename_trigger reachable.numbered room resolved named leaf text stock
    obtain ⟨type, property⟩ := PropertyBinding.binds_of_named named
    obtain ⟨type', property'⟩ := PropertyBinding.binds_of_named renamed
    have same : binding m.text = binding name.text := by
      rw [form, text, Fix.bindingForm, binding_trigger, binding_trigger_brackets]
    refine ⟨outcome, b', found, ?_, ?_, ?_⟩
    · rw [View.name, renamed, ← form]
      rfl
    · rw [type, type', same]
    · rw [property, property', same]

/-- A trigger that is given brackets and then binds what it did, and names that bind what they look
like and that do not. -/
theorem spellings_agree_fade : ∃ t : Tree,
    Tree.ofEvents 0 [.start .propertyBinding, .token .attributeName "@fade", .token .equals "=",
      .token .attributeValue "x", .finish] = .ok t ∧
    (∃ b b' : PropertyBinding, t.node? 3 = some b.node ∧ b.name = .ok "@fade" ∧
      let done := (Fix.rename "fade").apply .idle t ⟨0, 3, .propertyBinding, ⟨0, 7⟩, some 3⟩
      done.outcome = .ok (.applied ⟨0, 7⟩) ∧ done.tree.source = "[@fade]=x" ∧
      done.tree.node? 3 = some b'.node ∧ b'.name = .ok "[@fade]" ∧
      b'.bindingType = b.bindingType ∧ b'.propertyName = b.propertyName) ∧
    Alike "bindon-(attr.a)" "[((attr.a))]" ∧
    ¬ binding "bind-(attr.a)" = binding "[(attr.a)]" ∧
    kind "on-on-a" = .eventBinding ∧ event "on-on-a" = "on-a" := by
  have built : Tree.ofEvents 0 [.start .propertyBinding, .token .attributeName "@fade",
      .token .equals "=", .token .attributeValue "x", .finish] =
      .ok ⟨0, "", ⟨3, .propertyBinding, .node "" 0 .attributeName (.tail "@fade")
        (.node "" 1 .equals (.tail "=") (.node "" 2 .attributeValue (.tail "x") (.tail "")))⟩,
        ""⟩ := rfl
  obtain ⟨-, both, brackets, events, renames⟩ := spellings_agree
  refine ⟨_, built, ?_, both "(attr.a)" (by decide), fun same => ?_, events "on-a" (by decide) _ ?_⟩
  · obtain ⟨outcome, b', found, name, type, property⟩ := renames _
      ⟨0, 3, .propertyBinding, ⟨0, 7⟩, some 3⟩ ⟨_, rfl⟩ _ "fade" .idle (.built built)
      (by decide +kernel) rfl rfl rfl rfl (.inl rfl)
    exact ⟨_, b', rfl, rfl, outcome, rfl, found, name, type, property⟩
  · exact (brackets "(attr.a)" (by decide)).2.2.1 same "attr.a" rfl
  · simp

end AttributeName

end SyntaxLint
