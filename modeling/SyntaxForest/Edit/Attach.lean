import SyntaxForest.Edit.Content
import SyntaxForest.Edit.Links
import SyntaxForest.Forest.Ancestry

/-!
Attaching nodes below other nodes. A nil node is a list in transit: whoever receives it receives its
children, and the nil node itself is left empty. All tests come before the first change.
-/

namespace SyntaxForest

namespace Forest

/-- No incoming node may be the parent itself, and with `checkCycles` none may lie above it. -/
def checkAttach (forest : Forest) (checkCycles : Bool) (parent : NodeId) :
    List NodeId → Except Stop Unit
  | [] => .ok ()
  | id :: rest =>
      if id = parent then .error (.refused .selfChild)
      else do
        let above ← (if checkCycles then forest.isAncestorOrSelf id parent else .ok false)
        if above then .error (.refused .cycle) else forest.checkAttach checkCycles parent rest

/-- A nil node stands for its only child when it is made a root. -/
def effectiveRoot (forest : Forest) (id : NodeId) : Except Stop NodeId := do
  let node ← forest.fetch id
  if node.content.isNil then
    match node.children with
    | [single] => pure single
    | children => .error (.refused (.malformedRoot children.length))
  else pure id

end Forest

namespace EditM

/-- A nil node gives its children away. -/
def release (id : NodeId) (node : Node) : EditM Unit :=
  if node.content.isNil then takeChildren id else pure ()

/-- The child, or the children of a nil child, follow the present children of the tree. -/
def addChild (checkCycles : Bool) (tree child : NodeId) : EditM Unit :=
  if child = tree then refuse .selfChild
  else do
    let node ← fetch child
    query fun forest => forest.checkAttach checkCycles tree (node.incoming child)
    release child node
    appendEach tree (node.incoming child)

/-- A node moves to the end of another parent, or becomes a root. -/
def setParent (checkCycles : Bool) (id : NodeId) : Option NodeId → EditM Unit
  | none => detach id
  | some parent => do
      let node ← fetch id
      if node.content.isNil then refuse .nilChild
      else do
        query fun forest => forest.checkAttach checkCycles parent [id]
        append parent id

/-- The old root, or the children of a nil old root, follow the present children of the new root.
Without an old root nothing is looked at. -/
def becomeRoot (checkCycles : Bool) (newRoot : NodeId) : Option NodeId → EditM NodeId
  | none => pure newRoot
  | some oldRoot => do
      let root ← query fun forest => forest.effectiveRoot newRoot
      let node ← fetch oldRoot
      query fun forest => forest.checkAttach checkCycles root (node.incoming oldRoot)
      (if root = newRoot then pure () else takeChildren newRoot)
      release oldRoot node
      appendEach root (node.incoming oldRoot)
      pure root

/-- The new root is created before anything is tested, and stays when the rest is refused. -/
def becomeRootToken (checkCycles : Bool) (token : Token) (oldRoot : Option NodeId) :
    EditM NodeId := do
  let newRoot ← create token
  becomeRoot checkCycles newRoot oldRoot

/-- A nil root with one child gives way to that child, and an empty nil root to nothing. -/
def unwrapRoot (root : NodeId) : EditM (Option NodeId) := do
  let node ← fetch root
  if node.content.isNil then
    match node.children with
    | [] => pure none
    | [single] => do
        detach single
        pure (some single)
    | _ => pure (some root)
  else pure (some root)

end EditM

end SyntaxForest
