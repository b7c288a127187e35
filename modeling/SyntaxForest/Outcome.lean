import SyntaxForest.Node

/-!
How an operation on a forest ends without a value. A refusal is an answer to the caller. A fault is
an access outside the store, or a node too many for it. A walk along a cycle has no end at all.
-/

namespace SyntaxForest

/-- A refusal names the rule that an operation would break. -/
inductive Refusal where
  | indexOutOfRange (index count : Nat)
  | rangeOutOfRange (start stop count : Nat)
  | noParent
  | nilChild
  | selfChild
  | cycle
  | noToken
  | malformedRoot (children : Nat)
  | nodeStream
  | inconsistent (node : NodeId) (reason : String)
  deriving DecidableEq, Repr

/-- A coarse sorting of refusals. -/
inductive Refusal.Category where
  | outOfRange
  | invalidArgument
  | malformedRoot
  | misuse
  | inconsistent
  deriving DecidableEq, Repr

namespace Refusal

def category : Refusal → Category
  | .indexOutOfRange .. | .rangeOutOfRange .. | .noParent => .outOfRange
  | .nilChild | .selfChild | .cycle | .noToken => .invalidArgument
  | .malformedRoot _ => .malformedRoot
  | .nodeStream => .misuse
  | .inconsistent .. => .inconsistent

def message : Refusal → String
  | .indexOutOfRange index count =>
      s!"child index {index} out of range for a node with {count} children"
  | .rangeOutOfRange start stop count =>
      s!"child range {start}..={stop} out of range for a node with {count} children"
  | .noParent => "node has no parent to be positioned in"
  | .nilChild => "a nil list node cannot be placed as a single child"
  | .selfChild => "a node cannot be its own child"
  | .cycle => "attaching this node would make it its own ancestor"
  | .noToken => "node has no token to update"
  | .malformedRoot children =>
      s!"more than one node as root: nil root has {children} children, expected exactly 1"
  | .nodeStream =>
      "error nodes can only be created while parsing tokens, not while walking a tree"
  | .inconsistent node reason => "inconsistent tree at " ++ node.label ++ ": " ++ reason

end Refusal

/-- A fault names the access that missed, and the size of what was accessed. A full store has no
handle for another node. -/
inductive Fault where
  | missingNode (node : NodeId) (count : Nat)
  | missingChild (position count : Nat)
  | negativePosition (position shift : Nat)
  | outOfHandles
  deriving DecidableEq, Repr

def Fault.message : Fault → String
  | .missingNode node count => outOfBounds count node.index
  | .missingChild position count => outOfBounds count position
  | .negativePosition position shift => s!"position {position} cannot move down by {shift}"
  | .outOfHandles => "NodeId overflow: TryFromIntError(())"
where
  outOfBounds (count index : Nat) : String :=
    s!"index out of bounds: the len is {count} but the index is {index}"

/-- An operation stops with a refusal, with a fault, or never. -/
inductive Stop where
  | refused (refusal : Refusal)
  | fault (fault : Fault)
  | endless
  deriving DecidableEq, Repr

end SyntaxForest
