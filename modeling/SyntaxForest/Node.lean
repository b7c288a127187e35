import SyntaxForest.ErrorSpan

/-!
Nodes and what they carry. A node lists its children and also records its own parent and its
position there, so each link is stored at both of its ends.
-/

namespace SyntaxForest

/-- A handle is the place of a node in its forest, counted in order of creation. -/
structure NodeId where
  index : Nat
  deriving DecidableEq, Repr

/-- A handle as messages show it. -/
def NodeId.label (id : NodeId) : String := "NodeId(" ++ toString id.index ++ ")"

/-- A node is a plain list of children, carries a token, or records a syntax error. -/
inductive Content where
  | nil
  | token (value : Token)
  | error (span : ErrorSpan)
  deriving DecidableEq, Repr

namespace Content

def isNil : Content → Bool
  | .nil => true
  | .token _ | .error _ => false

def token? : Content → Option Token
  | .token value => some value
  | .nil | .error _ => none

def span? : Content → Option ErrorSpan
  | .error span => some span
  | .nil | .token _ => none

def kind : Content → Kind
  | .token value => value.kind
  | .nil | .error _ => Kind.invalid

def text? : Content → Option String
  | .nil => none
  | .token value => value.text
  | .error span => some span.text

/-- The label stands for a single node in a rendered tree. -/
def label : Content → String
  | .nil => "nil"
  | .token value => value.text.getD "<no text>"
  | .error span => "<error: " ++ span.text ++ ">"

/-- The stream index at which the content itself begins. -/
def startIndex : Content → Option Nat
  | .nil => none
  | .token value => value.index
  | .error span => span.start.index

/-- The stream index at which the content itself ends. -/
def stopIndex : Content → Option Nat
  | .nil => none
  | .token value => value.index
  | .error span => span.stop.index

end Content

/-- The boundaries `start` and `stop` are present only when they were set for the whole subtree. -/
structure Node where
  content : Content
  children : List NodeId := []
  parent : Option NodeId := none
  position : Option Nat := none
  start : Option Nat := none
  stop : Option Nat := none
  deriving DecidableEq, Repr

namespace Node

/-- A copy keeps content and boundaries, and has no links. -/
def unlinked (node : Node) : Node :=
  { content := node.content, start := node.start, stop := node.stop }

/-- The first stream index of the subtree, or of the node itself when no boundary was set. -/
def startIndex (node : Node) : Option Nat := node.start.or node.content.startIndex

/-- The last stream index of the subtree, or of the node itself when no boundary was set. -/
def stopIndex (node : Node) : Option Nat := node.stop.or node.content.stopIndex

/-- What a parent receives in place of a node: a nil node stands for its children. -/
def incoming (node : Node) (id : NodeId) : List NodeId :=
  if node.content.isNil then node.children else [id]

end Node

end SyntaxForest
