import SyntaxLint.Command.Run
import SyntaxLint.Proofs.Files.Rereading
import SyntaxLint.Proofs.Template.Lossless

/-!
# Proofs — Files — printed templates read again

The tree of a template is printed as a document.  Every node below another takes two of the arrays
and objects around a value, one for itself and one for the list it is in.  The writer goes to any
depth and the reader does not, so what is printed for a template whose nodes are nested too deep is
no document when it is read: sixty-one elements, each in the one before, are enough.

Offsets are of 32 bits, and a template is shorter than what they count.

* `Tree.Rereads`, `Tree.rereads_iff`: the trees whose documents are read again.
* `Template.Printed`, `Template.printed_parse`: the trees of templates.
-/

namespace SyntaxLint

namespace Tree

variable {t : Tree}

/-- The document of a tree, as it is printed, holds a tree with the same source and the same
outline. -/
def Rereads (t : Tree) : Prop :=
  ∀ identity, ∃ u, Form.document.tree identity (Form.document.text t) = .ok u ∧
    u.source = t.source ∧ u.outline = t.outline

/-- **A document is read again just if its tree is not too deep.** -/
theorem rereads_iff (words : t.top.span.stop < 2 ^ 32) :
    t.Rereads ↔ 2 * t.depth < Json.maxNesting := by
  rw [← depth_outline]
  constructor
  case mp =>
    intro h
    obtain ⟨u, loaded, -⟩ := h 0
    obtain ⟨d, read, -⟩ := Form.tree_document_eq_ok_iff.1 loaded
    exact Document.depth_of_ofText?_toText (d := t.document) (words_outline words) read
  case mpr => exact fun depth => Form.exists_tree_text ⟨words_outline words, depth⟩

/-- What is printed and not read again is no document. -/
theorem tree_eq_notDocument (words : t.top.span.stop < 2 ^ 32) (h : ¬ t.Rereads)
    (identity : TreeId) :
    Form.document.tree identity (Form.document.text t) = .error .notDocument := by
  rw [rereads_iff words, ← depth_outline] at h
  rw [Form.tree]
  cases read : Document.ofText? (Form.document.text t) with
  | none => rfl
  | some d =>
    exact absurd (Document.depth_of_ofText?_toText (d := t.document) (words_outline words) read) h

end Tree

namespace Template

/-- What is printed for a template, and what is read when it is stored. -/
structure Printed (text : String) (t : Tree) : Prop where
  printed : ∀ (d : Disk) (settings : Option Path) (path : Path),
    Form.ofPath? path = some .template → d.read? path = some (.text text) →
    (Command.dump path).run d settings = .ok (.print (Form.document.text t))
  source : t.source = text
  rereads : t.Rereads ↔ 2 * t.depth < Json.maxNesting
  refused : ¬ t.Rereads → ∀ identity,
    Form.document.tree identity (Form.document.text t) = .error .notDocument

theorem dump_eq {identity : TreeId} {text : String} {t : Tree}
    (parsed : parse identity text = .ok t) {d : Disk} {path : Path} (settings : Option Path)
    (form : Form.ofPath? path = some .template) (stored : d.read? path = some (.text text)) :
    (Command.dump path).run d settings = .ok (.print (Form.document.text t)) := by
  have tree : Form.template.tree 0 text = .ok (t.copy 0) := by
    rw [Form.tree, parse_copy parsed]
  have loaded : Source.load d 0 path = .ok ⟨path, .template, t.copy 0⟩ := by
    rw [Source.load, form]
    simp only [stored, tree]
    rfl
  rw [Command.run, loaded]
  rfl

/-- **What is printed for a template is read again**, with the source and the outline of its tree,
just if no 64 nodes of the tree are below one another. -/
theorem printed_parse {identity : TreeId} {text : String} {t : Tree}
    (parsed : parse identity text = .ok t) (short : text.utf8ByteSize < 2 ^ 32) :
    Printed text t := by
  have source := source_parse parsed
  have words : t.top.span.stop < 2 ^ 32 :=
    Nat.lt_of_le_of_lt (Tree.stop_le Tree.top_mem_nodes) (by rwa [source])
  exact {
    printed := fun d settings path => dump_eq parsed settings
    source := source
    rereads := Tree.rereads_iff words
    refused := Tree.tree_eq_notDocument words }

/-- An element with an attribute that is left open, six nodes below one another. -/
theorem printed_parse_of_open : ∃ t : Tree, parse 0 "<p @a=\"é\">\n" = .ok t ∧
    (Command.dump ⟨"./a.html"⟩).run ⟨[(["a.html"], .text "<p @a=\"é\">\n")], [], []⟩ none =
      .ok (.print (Form.document.text t)) ∧
    t.source = "<p @a=\"é\">\n" ∧ t.depth = 6 ∧ t.Rereads := by
  have evaluated : ((parse 0 "<p @a=\"é\">\n").toOption.map (·.depth)) = some 6 := by
    decide +kernel
  cases parsed : parse 0 "<p @a=\"é\">\n" with
  | error e => rw [parsed] at evaluated; simp [Except.toOption] at evaluated
  | ok t =>
    rw [parsed] at evaluated
    have depth : t.depth = 6 := by simpa [Except.toOption] using evaluated
    have told := printed_parse parsed (by decide)
    refine ⟨t, rfl, told.printed _ none ⟨"./a.html"⟩ (by decide +kernel) (by decide +kernel),
      told.source, depth, told.rereads.2 ?_⟩
    rw [depth]
    decide

/-- Sixty-one elements, each in the one before. -/
def nested : String := String.join (List.replicate 61 "<a>")

/-- What is printed for them is no document. -/
theorem not_rereads_of_nested : ∃ t : Tree, parse 0 nested = .ok t ∧ ¬ t.Rereads ∧
    Form.document.tree 1 (Form.document.text t) = .error .notDocument := by
  have evaluated : ((parse 0 nested).toOption.map fun t =>
      decide (t.top.span.stop < 2 ^ 32 ∧ t.depth = 64)) = some true := by
    decide +kernel
  cases parsed : parse 0 nested with
  | error e => rw [parsed] at evaluated; simp [Except.toOption] at evaluated
  | ok t =>
    rw [parsed] at evaluated
    obtain ⟨words, depth⟩ : t.top.span.stop < 2 ^ 32 ∧ t.depth = 64 := by
      simpa [Except.toOption] using evaluated
    have deep : ¬ t.Rereads := by
      rw [Tree.rereads_iff words, depth]
      decide
    exact ⟨t, rfl, deep, Tree.tree_eq_notDocument words deep 1⟩

end Template

end SyntaxLint
