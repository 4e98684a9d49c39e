import SyntaxLint.Tree.Basic

/-!
# Trees — groves

A grove holds any number of trees and gives each an identity of its own, a copy included, so that
what is anchored in one tree is not found in another.  Identities are drawn from a counter of 64
bits that starts at one; a tree that is refused has drawn one too.

* `Grove.identity`: the identity that is drawn next.
* `Grove.add`, `Grove.skip`, `Grove.set`: a tree more, a tree refused, and a tree changed.
-/

namespace SyntaxLint

/-- Trees in the order in which they were made. -/
structure Grove where
  trees : List Tree
  /-- the number of identities drawn so far -/
  drawn : Nat
  deriving Repr, Inhabited

namespace Grove

/-- No trees. -/
def empty : Grove := ⟨[], 0⟩

/-- The place of the next tree. -/
def fresh (g : Grove) : Nat := g.trees.length

/-- The identity that is drawn next.  The counter begins anew after its last value. -/
def identity (g : Grove) : TreeId := (g.drawn + 1) % UInt64.size

/-- The grove with one more tree, under an identity of its own. -/
def add (g : Grove) (t : Tree) : Grove := ⟨g.trees ++ [t.copy g.identity], g.drawn + 1⟩

/-- The grove after a tree that was refused. -/
def skip (g : Grove) : Grove := { g with drawn := g.drawn + 1 }

/-- The tree at a place. -/
def get? (g : Grove) (i : Nat) : Option Tree := g.trees[i]?

/-- The grove with one tree changed. -/
def set (g : Grove) (i : Nat) (t : Tree) : Grove := { g with trees := g.trees.set i t }

end Grove

end SyntaxLint
