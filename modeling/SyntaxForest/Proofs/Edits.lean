import SyntaxForest.Request
import SyntaxForest.Proofs.Copies
import SyntaxForest.Proofs.RangeReplacement

/-!
The edits as a whole. Every edit of a linked forest that ends with a reply leaves a forest that
follows soundly. A fault of an edit is due to a handle that the caller named, or to a full forest if
the edit creates nodes.
-/

namespace SyntaxForest.Edit

/-- The handles that an edit names. -/
def handles : Edit → List NodeId
  | .create _ | .createOfKind .. | .createWithText .. | .createImaginary .. | .createNil
  | .createError .. => []
  | .copyNode id | .copyTree id | .unwrapRoot id | .deleteChild id _ | .setPosition id _
  | .setKind id _ | .setText id _ | .setBoundaries id .. => [id]
  | .addChild tree child | .setChild tree _ child => [tree, child]
  | .becomeRoot newRoot oldRoot => newRoot :: oldRoot.toList
  | .becomeRootToken _ oldRoot => oldRoot.toList
  | .setParent id parent => id :: parent.toList
  | .replaceChildren parent _ _ replacement => [parent, replacement]

/-- Whether an edit may create nodes. -/
def allocates : Edit → Bool
  | .create _ | .createOfKind .. | .createWithText .. | .createImaginary .. | .createNil
  | .createError .. | .copyNode _ | .copyTree _ | .becomeRootToken .. => true
  | .addChild .. | .becomeRoot .. | .unwrapRoot _ | .setChild .. | .deleteChild .. | .setParent ..
  | .setPosition .. | .replaceChildren .. | .setKind .. | .setText .. | .setBoundaries .. => false

open EditM

variable {before : Forest}

theorem apply_ensures (linked : before.Linked) (checkCycles : Bool) {edit : Edit}
    (fixed : edit.allocates = false) :
    (edit.apply checkCycles).Ensures before edit.handles fun _ after =>
      after.Follows checkCycles before := by
  cases edit with
  | create | createOfKind | createWithText | createImaginary | createNil | createError | copyNode
  | copyTree | becomeRootToken => contradiction
  | addChild tree child => exact (addChild_follows linked tree child).map
  | becomeRoot newRoot oldRoot => exact (becomeRoot_follows linked newRoot oldRoot).map
  | unwrapRoot root => exact (unwrapRoot_follows linked root).map
  | setChild tree position child => exact (setChild_follows linked tree position child).map
  | deleteChild tree position => exact (deleteChild_follows linked tree position).map
  | setParent node parent => exact (setParent_follows linked node parent).map
  | setPosition node position => exact (setPosition_follows linked node position).map
  | replaceChildren parent start stop replacement =>
      exact (replaceChildren_follows linked parent start stop replacement).map
  | setKind node kind => exact (updateToken_follows linked node _).map
  | setText node text => exact (updateToken_follows linked node _).map
  | setBoundaries tree start stop => exact (setBoundaries_follows linked tree start stop).map

theorem apply_grows (linked : before.Linked) (checkCycles : Bool) (edit : Edit) :
    (edit.apply checkCycles).Grows before edit.handles fun _ after =>
      after.Follows checkCycles before := by
  cases edit with
  | create token => exact (allocate_grows linked rfl rfl rfl).map
  | createOfKind kind token => exact (allocate_grows linked rfl rfl rfl).map
  | createWithText kind token text => exact (allocate_grows linked rfl rfl rfl).map
  | createImaginary kind text => exact (allocate_grows linked rfl rfl rfl).map
  | createNil => exact (allocate_grows linked rfl rfl rfl).map
  | createError stream start stop diagnostic =>
      exact (createError_grows linked stream start stop diagnostic).map
  | copyNode node => exact (copyNode_grows linked node).map
  | copyTree tree => exact (copyTree_grows linked tree).map
  | becomeRootToken token oldRoot => exact (becomeRootToken_grows linked token oldRoot).map
  | addChild | becomeRoot | unwrapRoot | setChild | deleteChild | setParent | setPosition
  | replaceChildren | setKind | setText | setBoundaries =>
      exact (apply_ensures linked checkCycles rfl).grows

end SyntaxForest.Edit
