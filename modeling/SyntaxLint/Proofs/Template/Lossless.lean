import SyntaxLint.Proofs.Template.Items
import SyntaxLint.Proofs.Template.Nest
import SyntaxLint.Proofs.Tree.Building

/-!
# Proofs — Templates — parsing a rebound template

The tokens of a template are its text, and the tree of a template in which every trigger that is
given an expression is bound is the tree of the template, rebound.

* `source_parse`: the source of the tree of a template is the template.
* `parse_rebind`: what the source of a rebound tree is parsed to.
-/

namespace SyntaxLint.Template

variable {space : String → Option String}

/-! ### The text of events -/

theorem chars_token? (kind : Kind) (cs : List Char) :
    (token? kind cs).flatMap Event.chars = cs := by
  unfold token?
  split
  · rename_i h
    simp [List.isEmpty_iff.1 h]
  · simp [token, Event.chars]

theorem Value.chars_events (v : Value) : v.events.flatMap Event.chars = v.print := by
  cases v <;> simp [events, print, chars_token?, token, Event.chars]

theorem Assignment.chars_events (a : Assignment) : a.events.flatMap Event.chars = a.print := by
  cases a <;> simp [events, print, chars_token?, token, Event.chars, Value.chars_events]

theorem TagPart.chars_events (p : TagPart) : p.events.flatMap Event.chars = p.print := by
  cases p with
  | blank s => simp [events, print, token, Event.chars]
  | attr a => simp [events, print, Attribute.events, Attribute.print, token, Event.chars,
      Assignment.chars_events]
  | stray c => simp [events, print, token, Event.chars]

theorem StartTag.chars_events (t : StartTag) : t.events.flatMap Event.chars = t.print := by
  have parts : (t.parts.flatMap TagPart.events).flatMap Event.chars =
      t.parts.flatMap TagPart.print := by
    rw [List.flatMap_assoc]
    exact List.flatMap_congr fun p _ => p.chars_events
  simp [events, print, token, Event.chars, parts]

theorem EndTag.chars_events (t : EndTag) : t.events.flatMap Event.chars = t.print := by
  simp [events, print, token, Event.chars, chars_token?]

theorem chars_finish (n : Nat) : (List.replicate n Event.finish).flatMap Event.chars = [] := by
  induction n with
  | zero => rfl
  | succ n ih => simp [List.replicate_succ, Event.chars, ih]

/-- The text of the events of items is the text of the items. -/
theorem chars_nest (names : List (List Char)) (items : List Item) :
    (nest names items).flatMap Event.chars = items.flatMap Item.print := by
  induction items generalizing names with
  | nil => exact chars_finish _
  | cons i items ih =>
    cases i with
    | comment inner => simp [nest, Item.print, token, Event.chars, ih]
    | text cs => simp [nest, Item.print, token, Event.chars, ih]
    | start tag =>
      by_cases closed : tag.isClosed = true <;>
        simp [nest, Item.print, Event.chars, StartTag.chars_events, closed, ih]
    | close tag =>
      cases found : names.findIdx? (Text.sameFolded tag.name) <;>
        simp [nest, Item.print, Event.chars, EndTag.chars_events, chars_finish, found, ih]

theorem chars_documentEvents (items : List Item) :
    (documentEvents items).flatMap Event.chars = items.flatMap Item.print := by
  simp [documentEvents, Event.chars, chars_nest]

/-- The events of a template are as long as its text. -/
theorem width_documentEvents {source : String} {items : List Item}
    (read : scan source.toList = .ok items) :
    Event.width (documentEvents items) = source.utf8ByteSize := by
  rw [Event.width, chars_documentEvents, scan_print read, Text.bytes_toList]

/-- A template is parsed if its items are read and their events make a tree. -/
theorem parse_eq_ok_iff {identity : TreeId} {source : String} {t : Tree} :
    parse identity source = .ok t ↔ ∃ items, scan source.toList = .ok items ∧
      Tree.ofEvents identity (documentEvents items) = .ok t := by
  unfold parse
  cases scan source.toList with
  | error fault => simp
  | ok items =>
    cases h : Tree.ofEvents identity (documentEvents items) <;> simp [h]

/-- **The tree of a template that offsets reach** is the node of its items. -/
theorem parse_eq_ok_iff_finishes {identity : TreeId} {source : String} {t : Tree}
    (short : source.utf8ByteSize < 2 ^ 32) :
    parse identity source = .ok t ↔ ∃ items root, scan source.toList = .ok items ∧
      (Building.empty.run (documentEvents items)).Finishes root ∧
      Tree.ofRoot identity root = t := by
  rw [parse_eq_ok_iff]
  constructor
  · rintro ⟨items, read, built⟩
    rw [← width_documentEvents read] at short
    obtain ⟨root, finishes, same⟩ := (Tree.ofEvents_eq_ok_iff short).1 built
    exact ⟨items, root, read, finishes, same⟩
  · rintro ⟨items, root, read, finishes, same⟩
    rw [← width_documentEvents read] at short
    exact ⟨items, read, (Tree.ofEvents_eq_ok_iff short).2 ⟨root, finishes, same⟩⟩

/-- The tree of a template, whatever the identity of the tree. -/
theorem parse_copy {identity : TreeId} {source : String} {t : Tree}
    (h : parse identity source = .ok t) (j : TreeId) : parse j source = .ok (t.copy j) := by
  obtain ⟨items, read, built⟩ := parse_eq_ok_iff.1 h
  exact parse_eq_ok_iff.2 ⟨items, read, Tree.ofEvents_copy built j⟩

/-- What is parsed without an error is parsed to a tree. -/
theorem exists_parse_of_isOk {identity : TreeId} {source : String}
    (h : (parse identity source).isOk = true) : ∃ t, parse identity source = .ok t := by
  cases parsed : parse identity source with
  | error e => simp [parsed, Except.isOk, Except.toBool] at h
  | ok t => exact ⟨t, rfl⟩

/-- The identities in the tree of a template are distinct. -/
theorem numbered_parse {identity : TreeId} {source : String} {t : Tree}
    (h : parse identity source = .ok t) : t.Numbered := by
  obtain ⟨items, -, built⟩ := parse_eq_ok_iff.1 h
  exact Tree.numbered_ofEvents built

/-- **A tree has the text it was parsed from.** -/
theorem source_parse {identity : TreeId} {source : String} {t : Tree}
    (h : parse identity source = .ok t) : t.source = source := by
  obtain ⟨items, read, built⟩ := parse_eq_ok_iff.1 h
  apply String.toList_inj.1
  rw [Tree.source_ofEvents built, chars_documentEvents, scan_print read]

/-! ### Parsing again -/

/-- Blanks that are read are not empty. -/
theorem AsRead.valid {items : List Item} (h : AsRead items) : ∀ i ∈ items, i.Valid := by
  induction items with
  | nil => simp
  | cons i items ih =>
    cases i with
    | comment inner => exact List.forall_mem_cons.2 ⟨fun tag e => by simp at e, ih h⟩
    | text cs => exact List.forall_mem_cons.2 ⟨fun tag e => by simp at e, ih h.2.2⟩
    | close tag => exact List.forall_mem_cons.2 ⟨fun tag e => by simp at e, ih h.2⟩
    | start tag =>
      refine List.forall_mem_cons.2 ⟨?_, ih h.2.2⟩
      rintro _ ⟨rfl⟩ s hs
      exact h.1.parts _ hs

theorem valid_of_scan {cs : List Char} {items : List Item} (h : scan cs = .ok items) :
    ∀ i ∈ items, i.Valid :=
  (asRead_of_scan h).valid

/-- **The source of a rebound tree is parsed to the rebound tree.** -/
theorem parse_rebind (hs : OneSpace space) {identity : TreeId} {source : String} {t : Tree}
    (short : source.utf8ByteSize < 2 ^ 32)
    (short' : (t.rebind space).source.utf8ByteSize < 2 ^ 32)
    (h : parse identity source = .ok t) (j : TreeId) :
    parse j (t.rebind space).source = .ok ((t.rebind space).copy j) := by
  obtain ⟨items, root, read, finishes, rfl⟩ := (parse_eq_ok_iff_finishes short).1 h
  obtain ⟨rebound, -⟩ := finishes_rebind hs (valid_of_scan read) finishes
  obtain ⟨rescan, -⟩ := scan_rebind (squeezes_squeezeBy hs) read
  refine (parse_eq_ok_iff_finishes short').2 ⟨_, _, ?_, rebound, rfl⟩
  have text := rebound.chars
  rw [chars_documentEvents] at text
  rw [Tree.rebind, Tree.ofRoot, ← Tree.ofRoot, Tree.source_ofRoot, text]
  exact rescan

/-- Every node of a template is shaped as such. -/
theorem shaped_parse {identity : TreeId} {source : String} {t : Tree}
    (short : source.utf8ByteSize < 2 ^ 32) (h : parse identity source = .ok t) :
    (∀ n ∈ t.content.members, Shaped n) ∧ IsFrame t.root.kind := by
  obtain ⟨items, root, read, finishes, rfl⟩ := (parse_eq_ok_iff_finishes short).1 h
  have none : OneSpace fun _ => none := fun _ _ e => by simp at e
  obtain ⟨-, shaped, frame⟩ := finishes_rebind none (valid_of_scan read) finishes
  refine ⟨fun n hn => shaped n ?_, frame⟩
  simpa [Tree.ofRoot, Tree.content, Content.members] using hn

end SyntaxLint.Template
