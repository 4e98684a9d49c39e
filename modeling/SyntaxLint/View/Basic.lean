import SyntaxLint.Tree.Basic

/-!
# Views — nodes of a known kind

The grammar says which children a production has: one, at most one, or any number.  A view is a
node known to be of a kind; its accessors read those children off the live tree.
-/

namespace SyntaxLint

/-- The first child of a kind that the grammar promises. -/
def Placed.required (n : Placed) (kind : Kind) : Except MissingChild Placed :=
  match n.child? kind with
  | some c => .ok c
  | none => .error ⟨n.kind, n.span, kind⟩

/-- A node of the kind `k`. -/
structure View (k : Kind) where
  node : Placed
  kind_eq : node.kind = k

/-- A node as a view of the kind `k`, if it is of that kind. -/
def View.of? (k : Kind) (n : Placed) : Option (View k) :=
  if h : n.kind = k then some ⟨n, h⟩ else none

/-- The children of the kind `k`, as views. -/
def Placed.views (n : Placed) (k : Kind) : List (View k) := n.children.filterMap (View.of? k)

end SyntaxLint
