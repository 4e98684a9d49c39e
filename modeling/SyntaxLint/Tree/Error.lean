import SyntaxLint.Kind
import SyntaxLint.Span

/-!
# Trees — what can be wrong with one

The causes for which a tree is refused, a child is missing or an edit is not made, each with its
wording.
-/

namespace SyntaxLint

/-- Why the range of a node does not fit. -/
inductive RangeFault where
  | reversed
  | pastEnd (length : Nat)
  | splitsCharacter
  | overlaps
  | exceedsParent (kind : Kind) (stop : Nat)
  deriving DecidableEq, Repr

/-- How a sequence of building events fails to be one node. -/
inductive BalanceFault where
  | startAfterRoot (kind : Kind)
  | tokenOutside (kind : Kind)
  | unmatchedFinish
  | leftOpen (kind : Kind) (depth : Nat)
  | noRoot
  deriving DecidableEq, Repr

/-- Why an edit of live nodes is not possible. -/
inductive EditFault where
  | notLeaf (kind : Kind) (span : Span)
  | notChild (kind : Kind) (span : Span)
  | reversed
  /-- the source would be longer than offsets reach -/
  | tooLong
  deriving DecidableEq, Repr

/-- Why a tree is not built or not edited. -/
inductive TreeError where
  | invalidRange (kind : Kind) (span : Span) (cause : RangeFault)
  | unbalanced (cause : BalanceFault)
  | unknownNode
  | invalidEdit (cause : EditFault)
  deriving DecidableEq, Repr

/-- A child that the grammar promises and a node does not have. -/
structure MissingChild where
  parent : Kind
  span : Span
  expected : Kind
  deriving DecidableEq, Repr

/-- A kind with a range, as messages write it. -/
def describe (kind : Kind) (span : Span) : String :=
  kind.name ++ " at " ++ toString span.start ++ ".." ++ toString span.stop

def RangeFault.message : RangeFault → String
  | reversed => "start after end"
  | pastEnd length => "past end of source (" ++ toString length ++ " bytes)"
  | splitsCharacter => "not on a character boundary"
  | overlaps => "overlaps previous sibling or starts before parent"
  | exceedsParent kind stop => "extends past parent " ++ kind.name ++ " end " ++ toString stop

def BalanceFault.message : BalanceFault → String
  | startAfterRoot kind => kind.name ++ " started after the root was finished"
  | tokenOutside kind => kind.name ++ " token outside of any node"
  | unmatchedFinish => "finish_node without matching start_node"
  | leftOpen kind depth =>
    kind.name ++ " node left open (" ++ toString depth ++ " open nodes)"
  | noRoot => "no root node"

def EditFault.message : EditFault → String
  | notLeaf kind span => describe kind span ++ " is not a leaf"
  | notChild kind span => "node is not a child of " ++ describe kind span
  | reversed => "first child comes after last child"
  | tooLong => "source would exceed 4 GiB"

def TreeError.message : TreeError → String
  | invalidRange kind span cause =>
    "Invalid range for " ++ describe kind span ++ ": " ++ cause.message
  | unbalanced cause => "Unbalanced tree: " ++ cause.message
  | unknownNode => "Node does not resolve to a live node"
  | invalidEdit cause => "Invalid edit: " ++ cause.message

def MissingChild.message (m : MissingChild) : String :=
  "Malformed tree: " ++ describe m.parent m.span ++ " has no " ++ m.expected.name ++ " child"

end SyntaxLint
