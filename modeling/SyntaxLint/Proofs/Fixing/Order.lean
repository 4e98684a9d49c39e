import Mathlib.Data.List.Count
import SyntaxLint.Proofs.Fixing.Fixed
import SyntaxLint.Proofs.Fixing.Removal
import SyntaxLint.Proofs.Template.Grammar

/-!
# Proofs — Fixing — fixes in any order

The fixes of the diagnostics of a template may be applied in any order and any number of times.
Each is about one binding; what becomes of the binding is told by which of its two fixes have been
applied, and no fix reaches into another binding.  So none is refused, if offsets reach the end of
the source with the brackets of all of them, and the tree after all of them depends only on which
they were.

* `Fix.applyEach`: fixes, one after the other.
* `Tree.mend`: the tree after all of them.
* `Template.Formed.apply_mend`: one more fix.
* `Template.applyEach_parse`: fixes of the diagnostics of a template.
-/

namespace SyntaxLint

open Template

/-- Fixes of diagnostics applied one after the other: what became of each, and the tree after
all. -/
def Fix.applyEach (format : Formatter) (t : Tree) :
    List (Diagnostic × Fix) → List (Except FixError FixOutcome) × Tree
  | [] => ([], t)
  | (d, f) :: more =>
    let first := f.apply format t d.anchor
    let rest := applyEach format first.tree more
    (first.outcome :: rest.1, rest.2)

/-- Whether a fix is about the name of an attribute; the other is about its value. -/
def Fix.renames : Fix → Bool
  | rename _ => true
  | removeValue => false

/-- Whether one of the given fixes is about the name of a binding, or about its value. -/
def asks (ps : List (Diagnostic × Fix)) (name : Bool) (id : NodeId) : Bool :=
  ps.any fun p => p.1.anchor.target == some id && p.2.renames == name

/-- The content of a binding whose value is removed. -/
def Node.kept (removed : Bool) (b : Node) : Content := if removed then b.body.bare else b.body

/-- The content of a binding that is renamed or whose value is removed. -/
def Node.mended (space : String → Option String) (renamed removed : Bool) (b : Node) : Content :=
  if renamed then (b.kept removed).retext (Node.change space) else b.kept removed

/-- The new content of a reported binding for which the given fixes are asked. -/
def Node.mend (space : String → Option String) (ps : List (Diagnostic × Fix)) (n : Node) :
    Option Content :=
  if n.isReported then some (n.mended space (asks ps true n.id) (asks ps false n.id)) else none

/-- The tree in which every reported binding is as the fixes that are asked for it leave it. -/
def Tree.mend (space : String → Option String) (ps : List (Diagnostic × Fix)) (t : Tree) : Tree :=
  t.refit (Node.mend space ps)

variable {t : Tree} {n b : Node} {p : Placed} {space : String → Option String}
  {format : Formatter} {ps qs : List (Diagnostic × Fix)} {q : Diagnostic × Fix} {d : Diagnostic}
  {f : Fix} {x : Content}

/-! ### What is asked -/

theorem asks_concat (ps : List (Diagnostic × Fix)) (q : Diagnostic × Fix) (name : Bool)
    (id : NodeId) : asks (ps ++ [q]) name id =
      (asks ps name id || (q.1.anchor.target == some id && q.2.renames == name)) := by
  simp [asks]

/-- Asking again changes nothing. -/
theorem asks_concat_of_asks {id : NodeId} (target : q.1.anchor.target = some id)
    (asked : asks ps q.2.renames id = true) (name : Bool) (id' : NodeId) :
    asks (ps ++ [q]) name id' = asks ps name id' := by
  rw [asks_concat, target]
  by_cases same : id = id' ∧ q.2.renames = name
  · obtain ⟨rfl, rfl⟩ := same
    rw [asked, Bool.true_or]
  · have other : (some id == some id' && q.2.renames == name) = false := by simpa using same
    rw [other, Bool.or_false]

/-- A fix asks for nothing of other bindings. -/
theorem asks_concat_of_ne {id : NodeId} (ne : q.1.anchor.target ≠ some id) (name : Bool) :
    asks (ps ++ [q]) name id = asks ps name id := by
  simp [asks_concat, ne]

theorem asks_congr (same : ∀ q, q ∈ ps ↔ q ∈ qs) (name : Bool) (id : NodeId) :
    asks ps name id = asks qs name id := by
  rw [asks, asks, Bool.eq_iff_iff, List.any_eq_true, List.any_eq_true]
  simp only [same]

theorem Tree.mend_congr_asks (same : ∀ name id, asks ps name id = asks qs name id) :
    t.mend space ps = t.mend space qs := by
  refine refit_congr fun n _ => ?_
  rw [Node.mend, Node.mend, same, same]

/-- **The tree depends only on which fixes there are.** -/
theorem Tree.mend_congr (same : ∀ q, q ∈ ps ↔ q ∈ qs) : t.mend space ps = t.mend space qs :=
  Tree.mend_congr_asks (asks_congr same)

theorem Node.mend_eq_some_iff : n.mend space ps = some x ↔
    n.isReported = true ∧ x = n.mended space (asks ps true n.id) (asks ps false n.id) := by
  unfold Node.mend
  split
  · rename_i reported
    rw [Option.some.injEq, eq_comm]
    exact ⟨fun same => ⟨reported, same⟩, And.right⟩
  · rename_i reported
    simp [reported]

theorem Tree.mend_nil : t.mend space [] = t := by
  refine refit_of_same fun n _ x new => ?_
  rw [(Node.mend_eq_some_iff.1 new).2]
  rfl

/-! ### Mended bindings -/

/-- Removing the value once the binding is as it is. -/
theorem Node.mended_removed (renamed removed : Bool) (b : Node) :
    (b.mended space renamed removed).bare = b.mended space renamed true := by
  have twice : ∀ c : Content, c.bare.bare = c.bare := fun c => by cases c <;> rfl
  cases renamed <;> cases removed <;>
    simp [Node.mended, Node.kept, Content.bare_retext, twice]

/-- Renaming the binding if it is not. -/
theorem Node.mended_renamed (removed : Bool) (b : Node) :
    (b.mended space false removed).retext (Node.change space) = b.mended space true removed := rfl

theorem Node.ids_kept_sublist (removed : Bool) (b : Node) :
    (b.kept removed).ids.Sublist b.body.ids := by
  cases removed
  · exact List.Sublist.refl _
  · exact Content.ids_bare_sublist b.body

theorem Node.members_kept_subset (removed : Bool) (b : Node) :
    (b.kept removed).members ⊆ b.body.members := by
  cases removed
  · exact List.Subset.refl _
  · exact Content.members_bare_subset b.body

theorem Node.shrinks_mend (space : String → Option String) (ps : List (Diagnostic × Fix)) :
    Content.Shrinks (Node.mend space ps) := by
  intro n x new
  rw [(Node.mend_eq_some_iff.1 new).2, Node.mended]
  split
  · exact (Content.ids_retext_sublist _ _).trans (n.ids_kept_sublist _)
  · exact n.ids_kept_sublist _

/-- What follows the name of an attribute that is given a value. -/
theorem Template.givesValue_nodes (gap inner : List Char) (v : Value) (free : NodeId) :
    GivesValue ((Assignment.value gap inner v).fragment.nodes free) := by
  refine ⟨(leaf? .whitespace gap).nodes free ++ ⟨free + (leaf? .whitespace gap).size, .equals,
      .tail "="⟩ :: (leaf? .whitespace inner).nodes (free + (leaf? .whitespace gap).size + 1),
    v.node (free + (leaf? .whitespace gap).size + 1 + (leaf? .whitespace inner).size), ?_, rfl, ?_⟩
  · simp [Assignment.fragment, Fragment.append, Fragment.leaf, Fragment.node, Fragment.root,
      Value.node]
  · intro m hm
    rcases List.mem_append.1 hm with hm | hm
    · simp [(optional_leaf? _ _ _).kind_eq m hm]
    · rcases List.mem_cons.1 hm with rfl | hm
      · simp
      · simp [(optional_leaf? _ _ _).kind_eq m hm]

/-- A reported binding gives its value behind its name. -/
theorem Template.Shaped.binds (hs : Shaped n) (reported : n.isReported = true) :
    ∃ rest, n.Binds ("@" ++ n.trigger) rest ∧ GivesValue rest := by
  have triggers := hs.triggers reported
  obtain ⟨a, free, rfl⟩ := hs.binding triggers.kind
  rw [Attribute.isReported_node] at reported
  obtain ⟨c, name, gap, inner, v, rfl, -⟩ := isAssignedTrigger_iff.1 reported
  obtain ⟨m, named, text, -⟩ := triggers.name
  rw [Attribute.node, Content.child?_ofNodes, find?_attributeName, Option.some.injEq] at named
  subst named
  rw [Content.text_tail] at text
  refine ⟨(Assignment.value gap inner v).fragment.nodes (free + 1), ⟨triggers.kind, ⟨free, ?_⟩, ?_⟩,
    givesValue_nodes gap inner v (free + 1)⟩
  · rw [← text]
    rfl
  · exact fun m hm => ((Assignment.value gap inner v).all_fragment (free + 1) m hm).name

/-- A mended binding: its name in brackets if it is renamed, and behind it the value unless that
is removed. -/
theorem Template.Shaped.binds_mended (hs : Shaped n) (reported : n.isReported = true)
    (space : String → Option String) (renamed removed : Bool) : ∃ rest,
      Node.Binds { n with body := n.mended space renamed removed }
        (if renamed then Fix.bindingForm n.trigger else "@" ++ n.trigger) rest ∧
      (if removed then rest = [] else GivesValue rest) := by
  obtain ⟨rest, binds, value⟩ := hs.binds reported
  have form := Fix.bindingForm_eq n.trigger
  cases renamed <;> cases removed
  · exact ⟨rest, binds, value⟩
  · exact ⟨[], binds.bare, rfl⟩
  · exact ⟨_, form ▸ binds.retext space, value.retext _⟩
  · exact ⟨_, form ▸ binds.bare.retext space, rfl⟩

/-- What mending makes of a leaf is longer by two brackets at most, around a name. -/
theorem Node.size_le_of_change (one : OneSpace space) {m : Node} {x : String}
    (blank : m.kind = .whitespace → m.body.text ≠ "") (new : m.change space = some x) :
    x.utf8ByteSize ≤ m.body.width + 2 * (m.kind == .attributeName).toNat := by
  unfold Node.change at new
  split at new
  · rename_i name
    obtain rfl := Option.some.inj new
    have brackets : "[".utf8ByteSize = 1 ∧ "]".utf8ByteSize = 1 := ⟨rfl, rfl⟩
    simp only [String.utf8ByteSize_append, name, Content.width_eq, beq_self_eq_true,
      Bool.toNat_true]
    omega
  · split at new
    · rename_i white
      have wide := Content.width_pos_of_text_ne (blank white)
      rw [one _ _ new, show " ".utf8ByteSize = 1 from rfl]
      omega
    · cases new

/-- Behind the name of a reported binding there is no other. -/
theorem Template.Shaped.countP_names_kept (hs : Shaped n) (reported : n.isReported = true)
    (removed : Bool) : (n.kept removed).members.countP (·.kind == .attributeName) = 1 := by
  obtain ⟨rest, binds, -⟩ := hs.binds_mended reported some false removed
  obtain ⟨id, body⟩ := binds.body
  have kept : n.kept removed = _ := body
  have none : (Content.ofNodes rest).members.countP (·.kind == .attributeName) = 0 :=
    List.countP_eq_zero.2 fun m hm => by simpa using binds.apart m hm
  rw [kept, Content.ofNodes, Content.members, Content.members, List.singleton_append,
    List.countP_cons, none]
  rfl

/-- A mended binding is longer by its brackets at most: blanks have texts. -/
theorem Template.Shaped.width_mended_le (hs : Shaped n) (one : OneSpace space)
    (reported : n.isReported = true)
    (blank : ∀ m ∈ n.body.members, m.kind = .whitespace → m.body.text ≠ "")
    (renamed removed : Bool) :
    (n.mended space renamed removed).width ≤ n.body.width + 2 * renamed.toNat := by
  have shorter : (n.kept removed).width ≤ n.body.width := by
    cases removed
    · exact Nat.le_refl _
    · exact n.body.width_bare_le
  cases renamed with
  | false => exact shorter
  | true =>
    have grown := Content.width_retext_le fun m hm x new =>
      Node.size_le_of_change one (blank m (n.members_kept_subset removed hm)) new
    rw [hs.countP_names_kept reported removed] at grown
    rw [Node.mended, if_pos rfl, Bool.toNat_true]
    omega

/-! ### Mended trees -/

/-- New texts below one node are a change of that node. -/
theorem Content.retext_changeBelow {c : Content} (hd : c.ids.Nodup) (hb : b ∈ c.members) :
    c.retext (Node.changeBelow space [b]) = c.alter b.id (·.retext (Node.change space)) := by
  induction c with
  | tail s => simp [members] at hb
  | node gap id kind body next ihb ihn =>
    obtain ⟨idb, idn, hd, hx, apart⟩ := nodup_node hd
    have none : ∀ {n : Node}, n.id ∉ b.body.ids → n.changeBelow space [b] = none := by
      refine fun out => if_neg ?_
      rintro ⟨k, hk, below⟩
      exact out (List.mem_singleton.1 hk ▸ below)
    have kept : ∀ {c : Content}, (∀ id ∈ b.body.ids, id ∉ c.ids) →
        c.retext (Node.changeBelow space [b]) = c := fun out =>
      retext_of_none fun n hn => none fun below => out _ below (id_mem_of_mem_members hn)
    simp only [members, List.cons_append, List.mem_cons, List.mem_append] at hb
    rw [retext, alter]
    rcases hb with rfl | hb | hb
    · have all : body.retext (Node.changeBelow space [⟨id, kind, body⟩]) =
          body.retext (Node.change space) :=
        retext_congr fun n hn => if_pos ⟨_, List.mem_singleton_self _, id_mem_of_mem_members hn⟩
      rw [if_pos rfl, none idb, kept fun id hid => apart id hid, all]
      rfl
    · have ids := ids_subset_of_mem_members hb
      have mem := id_mem_of_mem_members hb
      rw [if_neg fun (e : id = b.id) => idb (e ▸ mem), none fun h => idb (ids h), ihb hd hb,
        kept fun id hid => apart id (ids hid), alter_of_not_mem (apart _ mem)]
      rfl
    · have ids := ids_subset_of_mem_members hb
      have mem := id_mem_of_mem_members hb
      rw [if_neg fun (e : id = b.id) => idn (e ▸ mem), none fun h => idn (ids h), ihn hx hb,
        kept fun id hid h => apart id h (ids hid), alter_of_not_mem fun h => apart _ h mem]
      rfl

theorem Tree.Numbered.retext_changeBelow (ht : t.Numbered) (hb : b ∈ t.content.members) :
    t.retext (Node.changeBelow space [b]) = t.alter b.id (·.retext (Node.change space)) := by
  refine Tree.eq_of_content ?_ ?_
  · rw [Tree.content_retext, Tree.content_alter]
    exact Content.retext_changeBelow ht.nodup hb
  · rw [Tree.alter]
    split <;> rfl

/-- The names and the blanks of a mended binding are as they should be. -/
theorem Tree.Regular.tidy_mended (ht : t.Regular) (hs : OneSpace space) (hp : p ∈ t.nodes)
    {renamed removed : Bool} {m : Node} (hm : m ∈ (p.mended space renamed removed).members) :
    (m.kind = .attributeName → m.body.isLeaf = true) ∧
      (m.kind = .whitespace → m.body.isLeaf = true ∧ m.body.text ≠ "") := by
  have old : ∀ k ∈ (p.kept removed).members, k ∈ t.content.members := fun k hk =>
    Tree.members_subset hp (p.members_kept_subset removed hk)
  cases renamed with
  | false => exact ⟨ht.name m (old m hm), ht.blank m (old m hm)⟩
  | true =>
    have leaves : ∀ k ∈ (p.kept removed).members, (k.change space).isSome → k.body.isLeaf :=
      fun k hk => ht.isLeaf_of_change (old k hk)
    rw [Node.mended, if_pos rfl, Content.members_retext leaves] at hm
    obtain ⟨k, hk, rfl⟩ := List.mem_map.1 hm
    rw [Node.kind_retext, Node.isLeaf_retext (leaves k hk)]
    refine ⟨ht.name k (old k hk), fun blank => ?_⟩
    obtain ⟨leaf, text⟩ := ht.blank k (old k hk) blank
    refine ⟨leaf, ?_⟩
    rw [Node.text_retext_of_isLeaf leaf]
    cases e : k.change space with
    | none => exact text
    | some x => exact Node.change_ne_empty hs e

namespace Template.Formed

variable (h : Formed t)
include h

/-- No reported binding is below another. -/
theorem not_below (hn : n ∈ t.content.members) (hb : b ∈ t.content.members)
    (reported : n.isReported = true) (reported' : b.isReported = true) : n.id ∉ b.body.ids := by
  intro below
  obtain ⟨p, hp, rfl⟩ := Tree.exists_placed hb
  have mem := h.numbered.mem_members_below hp hn below
  exact (h.shaped _ hb).below (Node.kind_of_isReported reported') mem
    (Node.kind_of_isReported reported)

/-- Mending keeps a tree regular. -/
theorem regular_mend (hs : OneSpace space) (ps : List (Diagnostic × Fix)) :
    (t.mend space ps).Regular := by
  refine h.regular.refit (Node.shrinks_mend space ps) (fun n hn some => ?_)
    fun n hn x new m hm => ?_
  · obtain ⟨x, new⟩ := Option.isSome_iff_exists.1 some
    rw [Node.kind_of_isReported (Node.mend_eq_some_iff.1 new).1]
    simp
  · rw [(Node.mend_eq_some_iff.1 new).2] at hm
    obtain ⟨p, hp, rfl⟩ := Tree.exists_placed hn
    exact h.regular.tidy_mended hs hp hm

/-- A reported binding in a mended tree: it has its name or that in brackets, and behind it the
value or nothing. -/
theorem exists_binds (space : String → Option String) (hp : p ∈ t.nodes)
    (reported : p.isReported = true) (ps : List (Diagnostic × Fix)) :
    ∃ b ∈ (t.mend space ps).nodes, b.id = p.id ∧ ∃ rest,
      b.Binds (if asks ps true p.id then Fix.bindingForm p.trigger else "@" ++ p.trigger) rest ∧
      (if asks ps false p.id then rest = [] else GivesValue rest) := by
  have new : p.mend space ps = some (p.mended space (asks ps true p.id) (asks ps false p.id)) :=
    if_pos reported
  have mem : p.toNode.refit (Node.mend space ps) ∈ (t.mend space ps).content.members := by
    refine Content.mem_members_refit (Tree.toNode_mem hp) fun m hm some => ?_
    obtain ⟨x, new⟩ := Option.isSome_iff_exists.1 some
    exact h.not_below (Tree.toNode_mem hp) hm reported (Node.mend_eq_some_iff.1 new).1
  obtain ⟨b, hb, same⟩ := Tree.exists_placed mem
  have mended : b.toNode = { p.toNode with
      body := p.mended space (asks ps true p.id) (asks ps false p.id) } := by
    rw [same, Node.refit, new]
    rfl
  obtain ⟨rest, binds, value⟩ := (h.shaped _ (Tree.toNode_mem hp)).binds_mended reported space
    (asks ps true p.id) (asks ps false p.id)
  rw [← mended] at binds
  exact ⟨b, hb, by rw [mended], rest, binds, value⟩

/-- A further change of a mended binding, as one more fix asks for it. -/
theorem alter_mend (hp : p ∈ t.nodes) (reported : p.isReported = true)
    (target : d.anchor.target = some p.id) {change : Content → Content}
    (mended : change (p.mended space (asks ps true p.id) (asks ps false p.id)) =
      p.mended space (asks (ps ++ [(d, f)]) true p.id) (asks (ps ++ [(d, f)]) false p.id)) :
    (t.mend space ps).alter p.id change = t.mend space (ps ++ [(d, f)]) := by
  rw [Tree.mend, Tree.alter_refit h.numbered (Node.shrinks_mend space ps)]
  · refine Tree.refit_congr fun n hn => ?_
    by_cases same : n.id = p.id
    · obtain rfl := h.numbered.eq_of_mem_members hn (Tree.toNode_mem hp) same
      rw [if_pos rfl, Node.mend, Node.mend, if_pos reported, if_pos reported, Option.map_some,
        mended]
    · have others : d.anchor.target ≠ some n.id := by simpa [target] using Ne.symm same
      rw [if_neg same, Node.mend, Node.mend, asks_concat_of_ne others, asks_concat_of_ne others]
  · intro n hn same
    rw [h.numbered.eq_of_mem_members hn (Tree.toNode_mem hp) same, Node.mend, if_pos reported]
    rfl
  · intro n hn some
    obtain ⟨x, new⟩ := Option.isSome_iff_exists.1 some
    exact h.not_below (Tree.toNode_mem hp) hn reported (Node.mend_eq_some_iff.1 new).1

/-- A mended tree is longer by two bytes at most for each binding that is to be renamed. -/
theorem length_mend_le (hs : OneSpace space) (ps : List (Diagnostic × Fix)) :
    (t.mend space ps).source.utf8ByteSize ≤
      t.source.utf8ByteSize + 2 * t.content.reported.countP (asks ps true ·.id) := by
  rw [Content.reported, List.countP_filter, Tree.source, Tree.source, ← Content.width_eq,
    ← Content.width_eq, Tree.mend, Tree.content_refit]
  refine Content.width_refit_le fun n hn x new => ?_
  obtain ⟨reported, rfl⟩ := Node.mend_eq_some_iff.1 new
  obtain ⟨p, hp, rfl⟩ := Tree.exists_placed hn
  have longer := (h.shaped _ hn).width_mended_le hs reported
    (fun m hm white => (h.regular.blank m (Tree.members_subset hp hm) white).2)
    (asks ps true p.id) (asks ps false p.id)
  simpa [reported] using longer

theorem short_mend (hs : OneSpace space)
    (room : t.source.utf8ByteSize + 2 * t.content.reported.length < 2 ^ 32)
    (ps : List (Diagnostic × Fix)) : (t.mend space ps).source.utf8ByteSize < 2 ^ 32 := by
  have longer := h.length_mend_le hs ps
  have few := List.countP_le_length (p := (asks ps true ·.id)) (l := t.content.reported)
  omega

/-- Renaming a reported binding once more. -/
theorem apply_rename_mend (hf : format.Spaces space) (hs : OneSpace space)
    (room : t.source.utf8ByteSize + 2 * t.content.reported.length < 2 ^ 32) (hp : p ∈ t.nodes)
    (reported : p.isReported = true) (tree : d.anchor.tree = t.identity)
    (target : d.anchor.target = some p.id) (ps : List (Diagnostic × Fix)) :
    ∃ outcome ranges, (Fix.rename p.trigger).apply format (t.mend space ps) d.anchor =
      ⟨.ok outcome, t.mend space (ps ++ [(d, .rename p.trigger)]), ranges, []⟩ := by
  obtain ⟨b, hb, id, rest, binds, -⟩ := h.exists_binds space hp reported ps
  have regular := h.regular_mend hs ps
  cases asked : asks ps true p.id with
  | true =>
    rw [asked, if_pos rfl] at binds
    have same : t.mend space (ps ++ [(d, .rename p.trigger)]) = t.mend space ps :=
      Tree.mend_congr_asks (asks_concat_of_asks target asked)
    rw [same]
    exact ⟨_, _, Fix.apply_rename_renamed regular.numbered hb binds tree (id ▸ target)⟩
  | false =>
    rw [asked, if_neg (by simp)] at binds
    -- this binding is not among those that have brackets, so there is room for them
    have fewer : t.content.reported.countP (asks ps true ·.id) < t.content.reported.length := by
      refine List.countP_lt_length_iff.2 ⟨p.toNode, ?_, by simp [asked]⟩
      exact List.mem_filter.2 ⟨Tree.toNode_mem hp, reported⟩
    have longer := h.length_mend_le hs ps
    obtain ⟨span, range, applied⟩ :=
      Fix.apply_rename hf regular (by omega) hb binds.triggers tree (id ▸ target)
    rw [regular.numbered.retext_changeBelow (Tree.toNode_mem hb), id,
      h.alter_mend hp reported target ?_] at applied
    · exact ⟨_, _, applied⟩
    · simp [asks_concat, target, asked, Fix.renames, Node.mended_renamed]

/-- Removing the value of a reported binding once more. -/
theorem apply_removeValue_mend (hf : format.Spaces space) (hs : OneSpace space)
    (room : t.source.utf8ByteSize + 2 * t.content.reported.length < 2 ^ 32) (hp : p ∈ t.nodes)
    (reported : p.isReported = true) (tree : d.anchor.tree = t.identity)
    (target : d.anchor.target = some p.id) (ps : List (Diagnostic × Fix)) :
    ∃ outcome ranges, Fix.removeValue.apply format (t.mend space ps) d.anchor =
      ⟨.ok outcome, t.mend space (ps ++ [(d, .removeValue)]), ranges, []⟩ := by
  obtain ⟨b, hb, id, rest, binds, value⟩ := h.exists_binds space hp reported ps
  have regular := h.regular_mend hs ps
  cases asked : asks ps false p.id with
  | true =>
    rw [asked, if_pos rfl] at value
    rw [value] at binds
    have same : t.mend space (ps ++ [(d, .removeValue)]) = t.mend space ps :=
      Tree.mend_congr_asks (asks_concat_of_asks target asked)
    rw [same]
    exact ⟨_, _, Fix.apply_removeValue_bare regular.numbered hb binds tree (id ▸ target)⟩
  | false =>
    rw [asked, if_neg (by simp)] at value
    obtain ⟨span, range, applied⟩ :=
      Fix.apply_removeValue hf regular (h.short_mend hs room ps) hb binds value tree (id ▸ target)
    rw [id, h.alter_mend hp reported target ?_] at applied
    · exact ⟨_, _, applied⟩
    · simp [asks_concat, target, asked, Fix.renames, Node.mended_removed]

/-- **One more fix of a diagnostic** is not refused. -/
theorem apply_mend {i : Inspector} {severity : Severity} (on : i.Watches severity)
    (hf : format.Spaces space) (hs : OneSpace space)
    (room : t.source.utf8ByteSize + 2 * t.content.reported.length < 2 ^ 32)
    (hd : d ∈ i.run t) (hx : f ∈ d.fixes) (ps : List (Diagnostic × Fix)) : ∃ outcome ranges,
      f.apply format (t.mend space ps) d.anchor =
        ⟨.ok outcome, t.mend space (ps ++ [(d, f)]), ranges, []⟩ := by
  obtain ⟨p, hp, reported, rfl⟩ := (Inspector.mem_run_iff on h.shaped h.language).1 hd
  have repairs := h.repairs severity hp reported
  rcases List.mem_cons.1 hx with rfl | hx
  · exact h.apply_rename_mend hf hs room hp reported repairs.tree repairs.target ps
  · obtain rfl := List.mem_singleton.1 hx
    exact h.apply_removeValue_mend hf hs room hp reported repairs.tree repairs.target ps

/-- **Fixes of diagnostics, one after the other**: none is refused. -/
theorem applyEach_mend {i : Inspector} {severity : Severity} (on : i.Watches severity)
    (hf : format.Spaces space) (hs : OneSpace space)
    (room : t.source.utf8ByteSize + 2 * t.content.reported.length < 2 ^ 32)
    (offered : ∀ q ∈ qs, q.1 ∈ i.run t ∧ q.2 ∈ q.1.fixes) (ps : List (Diagnostic × Fix)) :
    (∀ outcome ∈ (Fix.applyEach format (t.mend space ps) qs).1, outcome.isOk = true) ∧
      (Fix.applyEach format (t.mend space ps) qs).2 = t.mend space (ps ++ qs) := by
  -- by induction on the fixes that are yet to come; `ps` are those that have been applied
  induction qs generalizing ps with
  | nil => simp [Fix.applyEach]
  | cons q qs ih =>
    obtain ⟨hd, hx⟩ := offered q List.mem_cons_self
    obtain ⟨outcome, ranges, applied⟩ := h.apply_mend on hf hs room hd hx ps
    obtain ⟨ok, last⟩ := ih (fun q hq => offered q (List.mem_cons_of_mem _ hq)) (ps ++ [q])
    simp only [Fix.applyEach, applied]
    refine ⟨fun x hx => ?_, ?_⟩
    · rcases List.mem_cons.1 hx with rfl | hx
      · rfl
      · exact ok x hx
    · rw [last, List.append_assoc]
      rfl

end Template.Formed

/-! ### Templates -/

namespace Template

/-- **Fixes of the diagnostics of a template may be applied in any order** and any number of
times: none is refused, and the tree after them depends only on which they were. -/
theorem applyEach_parse {identity : TreeId} {source : String} (h : parse identity source = .ok t)
    (room : source.utf8ByteSize + 2 * (Inspector.default.run t).length < 2 ^ 32)
    (tidy : Bool) (ps qs : List (Diagnostic × Fix))
    (offered : ∀ p ∈ ps, p.1 ∈ Inspector.default.run t ∧ p.2 ∈ p.1.fixes)
    (same : ∀ p, p ∈ ps ↔ p ∈ qs) :
    let first := Fix.applyEach (.ofTidy tidy) t ps
    let second := Fix.applyEach (.ofTidy tidy) t qs
    (∀ outcome ∈ first.1 ++ second.1, outcome.isOk = true) ∧ first.2 = second.2 ∧
      first.2.source = second.2.source ∧ first.2.document = second.2.document := by
  have on : Inspector.default.Watches .error := rfl
  have formed := formed_parse (by omega) h
  have hf := Formatter.spaces_ofTidy tidy
  have hs := Formatter.oneSpace_spaceOf tidy
  rw [Inspector.length_run on formed, ← source_parse h] at room
  obtain ⟨ok, first⟩ := formed.applyEach_mend on hf hs room offered []
  obtain ⟨ok', second⟩ :=
    formed.applyEach_mend on hf hs room (fun q hq => offered q ((same q).2 hq)) []
  rw [Tree.mend_nil] at ok first ok' second
  rw [List.nil_append] at first second
  have trees : (Fix.applyEach (.ofTidy tidy) t ps).2 = (Fix.applyEach (.ofTidy tidy) t qs).2 := by
    rw [first, second, Tree.mend_congr same]
  refine ⟨fun outcome mem => ?_, trees, congrArg Tree.source trees, congrArg Tree.document trees⟩
  exact (List.mem_append.1 mem).elim (ok outcome) (ok' outcome)

/-- The fixes of the diagnostics of a template, in the order of the bindings they are about. -/
def offers (t : Tree) : List (Diagnostic × Fix) :=
  (t.nodes.filter (·.isReported)).flatMap fun p =>
    let d := (AnimationTrigger.reporter t .error).assigned p
    d.fixes.map (d, ·)

/-- Two triggers, both fixes of each: in order, and then backwards and once more. -/
theorem applyEach_parse_of_triggers : ∃ t : Tree, parse 0 "<p @a=\"b\" @c  ='d'>" = .ok t ∧
    (Inspector.default.run t).length = 2 ∧ (offers t).length = 4 ∧
      (∀ p ∈ offers t, p.1 ∈ Inspector.default.run t ∧ p.2 ∈ p.1.fixes) ∧
      (∀ p, p ∈ offers t ↔ p ∈ (offers t).reverse ++ offers t) ∧
      (∀ outcome ∈ (Fix.applyEach (.ofTidy true) t (offers t)).1 ++
        (Fix.applyEach (.ofTidy true) t ((offers t).reverse ++ offers t)).1,
          outcome.isOk = true) ∧
      (Fix.applyEach (.ofTidy true) t (offers t)).2.source = "<p [@a] [@c]>" ∧
      (Fix.applyEach (.ofTidy true) t (offers t)).2 =
        (Fix.applyEach (.ofTidy true) t ((offers t).reverse ++ offers t)).2 := by
  have evaluated : ((parse 0 "<p @a=\"b\" @c  ='d'>").toOption.map fun t =>
      (t.content.reported.length, (offers t).length,
        (Fix.applyEach (.ofTidy true) t (offers t)).2.source)) =
          some (2, 4, "<p [@a] [@c]>") := by decide +kernel
  cases parsed : parse 0 "<p @a=\"b\" @c  ='d'>" with
  | error e => rw [parsed] at evaluated; simp [Except.toOption] at evaluated
  | ok t =>
    rw [parsed] at evaluated
    obtain ⟨reported, evaluated⟩ := Prod.mk.inj (Option.some.inj evaluated)
    obtain ⟨length, text⟩ := Prod.mk.inj evaluated
    have on : Inspector.default.Watches .error := rfl
    have formed := formed_parse (by decide +kernel) parsed
    have count := (Inspector.length_run on formed).trans reported
    have offered : ∀ p ∈ offers t, p.1 ∈ Inspector.default.run t ∧ p.2 ∈ p.1.fixes := by
      intro p hp
      obtain ⟨b, hb, hp⟩ := List.mem_flatMap.1 hp
      obtain ⟨f, hx, rfl⟩ := List.mem_map.1 hp
      obtain ⟨hb, reported⟩ := List.mem_filter.1 hb
      exact ⟨(Inspector.mem_run_iff on formed.shaped formed.language).2 ⟨b, hb, reported, rfl⟩, hx⟩
    have same : ∀ p, p ∈ offers t ↔ p ∈ (offers t).reverse ++ offers t := fun p => by simp
    obtain ⟨ok, trees, -⟩ :=
      applyEach_parse parsed (by rw [count]; decide +kernel) true _ _ offered same
    exact ⟨t, rfl, count, length, offered, same, ok, text, trees⟩

end Template

end SyntaxLint
