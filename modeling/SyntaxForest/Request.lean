import SyntaxForest.Edit.Children
import SyntaxForest.Edit.Content
import SyntaxForest.Edit.Copy
import SyntaxForest.Forest.Subtree
import SyntaxForest.Forest.Verify

/-!
What a caller can ask of a forest, as data, and the answers.
-/

namespace SyntaxForest

/-- An edit may change the forest. -/
inductive Edit where
  | create (token : Token)
  | createOfKind (kind : Kind) (token : Token)
  | createWithText (kind : Kind) (token : Token) (text : String)
  | createImaginary (kind : Kind) (text : String)
  | createNil
  | createError (stream : TokenStream) (start stop : Token) (diagnostic : String)
  | copyNode (node : NodeId)
  | copyTree (tree : NodeId)
  | addChild (tree child : NodeId)
  | becomeRoot (newRoot : NodeId) (oldRoot : Option NodeId)
  | becomeRootToken (token : Token) (oldRoot : Option NodeId)
  | unwrapRoot (root : NodeId)
  | setChild (tree : NodeId) (position : Nat) (child : NodeId)
  | deleteChild (tree : NodeId) (position : Nat)
  | setParent (node : NodeId) (parent : Option NodeId)
  | setPosition (node : NodeId) (position : Nat)
  | replaceChildren (parent : NodeId) (start stop : Nat) (replacement : NodeId)
  | setKind (node : NodeId) (kind : Kind)
  | setText (node : NodeId) (text : String)
  | setBoundaries (tree : NodeId) (start stop : Option Token)

/-- A query leaves the forest as it is. -/
inductive Query where
  | size
  | isNil (node : NodeId)
  | childAt (tree : NodeId) (position : Nat)
  | childCount (tree : NodeId)
  | children (tree : NodeId)
  | parent (node : NodeId)
  | position (node : NodeId)
  | kind (node : NodeId)
  | text (node : NodeId)
  | token (node : NodeId)
  | errorSpan (node : NodeId)
  | startIndex (tree : NodeId)
  | stopIndex (tree : NodeId)
  | sameContent (first second : NodeId)
  | ancestors (node : NodeId)
  | ancestorsUpTo (limit : Nat) (node : NodeId)
  | ancestorOfKind (node : NodeId) (kind : Kind)
  | hasAncestorOfKind (node : NodeId) (kind : Kind)
  | firstChildOfKind (tree : NodeId) (kind : Kind)
  | isAncestorOrSelf (candidate node : NodeId)
  | render (tree : NodeId)
  | verify (root : NodeId)

/-- A reply carries the value that its request asks for. -/
inductive Reply where
  | done
  | node (id : NodeId)
  | optionalNode (id : Option NodeId)
  | nodes (ids : List NodeId)
  | flag (holds : Bool)
  | number (value : Nat)
  | optionalNumber (value : Option Nat)
  | kind (kind : Kind)
  | text (text : String)
  | optionalText (text : Option String)
  | optionalToken (token : Option Token)
  | optionalSpan (span : Option ErrorSpan)
  deriving DecidableEq, Repr

/-- The edits that attach nodes obey the choice on cycles. -/
def Edit.apply (checkCycles : Bool) : Edit → EditM Reply
  | .create token => Reply.node <$> EditM.create token
  | .createOfKind kind token => Reply.node <$> EditM.create (token.withKind kind)
  | .createWithText kind token text =>
      Reply.node <$> EditM.create ((token.withKind kind).withText text)
  | .createImaginary kind text => Reply.node <$> EditM.create (.imaginary kind text)
  | .createNil => Reply.node <$> EditM.createNil
  | .createError stream start stop diagnostic =>
      Reply.node <$> EditM.createError stream start stop diagnostic
  | .copyNode node => Reply.node <$> EditM.copyNode node
  | .copyTree tree => Reply.node <$> EditM.copyTree tree
  | .addChild tree child => (fun _ => Reply.done) <$> EditM.addChild checkCycles tree child
  | .becomeRoot newRoot oldRoot => Reply.node <$> EditM.becomeRoot checkCycles newRoot oldRoot
  | .becomeRootToken token oldRoot =>
      Reply.node <$> EditM.becomeRootToken checkCycles token oldRoot
  | .unwrapRoot root => Reply.optionalNode <$> EditM.unwrapRoot root
  | .setChild tree position child =>
      (fun _ => Reply.done) <$> EditM.setChild checkCycles tree position child
  | .deleteChild tree position => Reply.node <$> EditM.deleteChild tree position
  | .setParent node parent => (fun _ => Reply.done) <$> EditM.setParent checkCycles node parent
  | .setPosition node position => (fun _ => Reply.done) <$> EditM.setPosition node position
  | .replaceChildren parent start stop replacement =>
      (fun _ => Reply.done) <$> EditM.replaceChildren checkCycles parent start stop replacement
  | .setKind node kind => (fun _ => Reply.done) <$> EditM.setKind node kind
  | .setText node text => (fun _ => Reply.done) <$> EditM.setText node text
  | .setBoundaries tree start stop =>
      (fun _ => Reply.done) <$> EditM.setBoundaries tree start stop

/-- The answer is read off the forest. -/
def Query.answer (forest : Forest) : Query → Except Stop Reply
  | .size => .ok (.number forest.size)
  | .isNil node => (fun record => .flag record.content.isNil) <$> forest.fetch node
  | .childAt tree index => Reply.node <$> forest.childAt tree index
  | .childCount tree => (fun record => .number record.children.length) <$> forest.fetch tree
  | .children tree => (fun record => .nodes record.children) <$> forest.fetch tree
  | .parent node => (fun record => .optionalNode record.parent) <$> forest.fetch node
  | .position node => (fun record => .optionalNumber record.position) <$> forest.fetch node
  | .kind node => (fun record => .kind record.content.kind) <$> forest.fetch node
  | .text node => (fun record => .optionalText record.content.text?) <$> forest.fetch node
  | .token node => (fun record => .optionalToken record.content.token?) <$> forest.fetch node
  | .errorSpan node => (fun record => .optionalSpan record.content.span?) <$> forest.fetch node
  | .startIndex tree => (fun record => .optionalNumber record.startIndex) <$> forest.fetch tree
  | .stopIndex tree => (fun record => .optionalNumber record.stopIndex) <$> forest.fetch tree
  | .sameContent first second => do
      let one ← forest.fetch first
      let other ← forest.fetch second
      pure (.flag (one.content = other.content))
  | .ancestors node => Reply.nodes <$> forest.ancestors node
  | .ancestorsUpTo limit node => Reply.nodes <$> forest.ancestorsUpTo limit node
  | .ancestorOfKind node wanted => Reply.optionalNode <$> forest.ancestorOfKind? node wanted
  | .hasAncestorOfKind node wanted =>
      (fun found => .flag found.isSome) <$> forest.ancestorOfKind? node wanted
  | .firstChildOfKind tree wanted => Reply.optionalNode <$> forest.firstChildOfKind? tree wanted
  | .isAncestorOrSelf candidate node => Reply.flag <$> forest.isAncestorOrSelf candidate node
  | .render tree => Reply.text <$> forest.render tree
  | .verify root => (fun _ => Reply.done) <$> forest.verify root

end SyntaxForest
