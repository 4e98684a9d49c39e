import SyntaxLint.Proofs.Tree.Retext
import SyntaxLint.Tree.Event

/-!
# Proofs — Trees — fragments

Events that are balanced in themselves add nodes to whatever node is open: as many identities are
given out and the same nodes are added wherever that is, but for the identity to begin with.

* `Fragment`: what is added.
* `Adds.token`, `Adds.append`, `Adds.node`: what a token, two sequences and a node add.
* `Fragment.All`: what holds of all nodes of a fragment.
-/

namespace SyntaxLint

/-- Nodes that are added to an open node: the number of identities given out, and the nodes when
the first identity is given. -/
structure Fragment where
  size : Nat
  nodes : NodeId → List Node

namespace Fragment

/-- Nothing. -/
def none : Fragment := ⟨0, fun _ => []⟩

/-- One leaf. -/
def leaf (kind : Kind) (text : String) : Fragment := ⟨1, fun free => [⟨free, kind, .tail text⟩]⟩

/-- One fragment and then another. -/
def append (a b : Fragment) : Fragment :=
  ⟨a.size + b.size, fun free => a.nodes free ++ b.nodes (free + a.size)⟩

/-- The node with a fragment below it, when the first identity is given. -/
def root (kind : Kind) (a : Fragment) (free : NodeId) : Node :=
  ⟨free + a.size, kind, Content.ofNodes (a.nodes free)⟩

/-- One node with a fragment below it. -/
def node (kind : Kind) (a : Fragment) : Fragment := ⟨a.size + 1, fun free => [a.root kind free]⟩

end Fragment

/-- Events that add a fragment to the open node, whichever that is. -/
def Adds (events : List Event) (a : Fragment) : Prop :=
  ∀ offset free m rest fault, ∃ offset',
    (Building.mk offset free (m :: rest) none fault).run events =
      ⟨offset', free + a.size, ⟨m.kind, (a.nodes free).reverse ++ m.children⟩ :: rest, none, fault⟩

namespace Adds

variable {es es' : List Event} {a a' : Fragment}

theorem nil : Adds [] .none := fun offset _ _ _ _ => ⟨offset, rfl⟩

theorem token (kind : Kind) (text : String) : Adds [.token kind text] (.leaf kind text) :=
  fun _ _ _ _ _ => ⟨_, rfl⟩

theorem append (h : Adds es a) (h' : Adds es' a') : Adds (es ++ es') (a.append a') := by
  intro offset free m rest fault
  obtain ⟨offset', first⟩ := h offset free m rest fault
  obtain ⟨offset'', second⟩ := h' offset' (free + a.size)
    ⟨m.kind, (a.nodes free).reverse ++ m.children⟩ rest fault
  refine ⟨offset'', ?_⟩
  rw [Building.run, List.foldl_append]
  change Building.run (Building.run _ es) es' = _
  rw [first, second]
  simp [Fragment.append, Nat.add_assoc]

theorem node (kind : Kind) (h : Adds es a) :
    Adds (.start kind :: es ++ [.finish]) (a.node kind) := by
  intro offset free m rest fault
  obtain ⟨offset', inside⟩ := h offset free ⟨kind, []⟩ (m :: rest) fault
  refine ⟨offset', ?_⟩
  rw [List.cons_append, Building.run, List.foldl_cons, List.foldl_append]
  change Building.run (Building.run ⟨offset, free, ⟨kind, []⟩ :: m :: rest, none, fault⟩ es)
    [.finish] = _
  rw [inside]
  simp [Building.run, Building.step, Fragment.node, Fragment.root, Nat.add_assoc]

end Adds

namespace Content

theorem retext_ofNodes (h : Node → Option String) (ns : List Node) :
    (ofNodes ns).retext h = ofNodes (ns.map (Node.retext h)) := by
  induction ns with
  | nil => rfl
  | cons n ns ih => simp [ofNodes, retext, ih, Node.retext]

theorem members_ofNodes (ns : List Node) :
    (ofNodes ns).members = ns.flatMap fun n => n :: n.body.members := by
  induction ns with
  | nil => rfl
  | cons n ns ih => simp [ofNodes, members, ih]

/-- The first node of a run of a given kind. -/
def child? (kind : Kind) : Content → Option Node
  | .tail _ => none
  | .node _ id k body next => if k = kind then some ⟨id, k, body⟩ else next.child? kind

theorem child?_ofNodes (kind : Kind) (ns : List Node) :
    (ofNodes ns).child? kind = ns.find? (·.kind == kind) := by
  induction ns with
  | nil => rfl
  | cons n ns ih =>
    rw [ofNodes, child?, List.find?_cons, ih]
    by_cases e : n.kind = kind
    · subst e
      simp
    · have ne : (n.kind == kind) = false := by simpa using e
      simp [e, ne]

end Content

/-! ### What holds of all nodes of a fragment -/

/-- A property of every node of a fragment, at any depth. -/
def Fragment.All (P : Node → Prop) (a : Fragment) : Prop :=
  ∀ free, ∀ n ∈ (Content.ofNodes (a.nodes free)).members, P n

namespace Fragment.All

variable {P Q : Node → Prop} {a b : Fragment}

theorem none : Fragment.none.All P := by simp [All, Fragment.none, Content.ofNodes, Content.members]

theorem leaf {kind : Kind} {text : String} (h : ∀ free, P ⟨free, kind, .tail text⟩) :
    (Fragment.leaf kind text).All P := by
  intro free n hn
  obtain rfl : n = ⟨free, kind, .tail text⟩ := by
    simpa [Fragment.leaf, Content.ofNodes, Content.members] using hn
  exact h free

theorem append (ha : a.All P) (hb : b.All P) : (a.append b).All P := by
  intro free n hn
  simp only [Fragment.append, Content.members_ofNodes, List.flatMap_append, List.mem_append] at hn
  rcases hn with hn | hn
  · exact ha free n (by rwa [Content.members_ofNodes])
  · exact hb (free + a.size) n (by rwa [Content.members_ofNodes])

theorem root {kind : Kind} (h : ∀ free, P (a.root kind free)) (ha : a.All P) :
    (a.node kind).All P := by
  intro free n hn
  simp only [Fragment.node, Content.members_ofNodes, List.flatMap_cons, List.flatMap_nil,
    List.append_nil, List.mem_cons] at hn
  rcases hn with rfl | hn
  · exact h free
  · exact ha free n hn

theorem node {kind : Kind} (h : ∀ n : Node, n.kind = kind → P n) (ha : a.All P) :
    (a.node kind).All P :=
  root (fun _ => h _ rfl) ha

theorem imp (h : ∀ n, P n → Q n) (ha : a.All P) : a.All Q := fun free n hn => h n (ha free n hn)

end Fragment.All

end SyntaxLint
