import SyntaxForest.Proofs.Edits
import SyntaxForest.Proofs.Refusals

/-!
What holds after every run. The two ends of every link agree, whatever the requests were. A builder
that checks for cycles keeps its forest free of them, so the trees of the roots hold every node.
-/

namespace SyntaxForest

/-- What a refused edit leaves behind follows soundly. -/
theorem Edit.refused_follows {forest after : Forest} (linked : forest.Linked) {checkCycles : Bool}
    {edit : Edit} {refusal : Refusal}
    (refused : edit.apply checkCycles forest = .error (.refused refusal) after) :
    after.Follows checkCycles forest ∧ forest.size ≤ after.size ∧ after.size ≤ forest.limit := by
  have left := forest_of_refused refused
  unfold residue at left
  split at left
  · obtain ⟨room, _⟩ := EditM.forest_of_becomeRootToken checkCycles (EditM.error_of_map refused)
    rw [left, Forest.size_push, Forest.limit]
    exact ⟨linked.follows_push rfl rfl rfl checkCycles, by omega, by omega⟩
  · rw [left]
    exact ⟨linked.follows checkCycles, Nat.le_refl _, Nat.le_max_left _ _⟩

namespace Builder

variable {builder after : Builder} {request : Request}

/-- The links of a sound builder agree, and they close no cycle where cycles are checked for. -/
structure Sound (builder : Builder) : Prop where
  linked : builder.forest.Linked
  acyclic : builder.options.checkCycles = true → builder.forest.Acyclic

theorem sound_ofOptions (options : Options) : (ofOptions options).Sound :=
  ⟨Forest.Linked.empty, fun _ => Forest.acyclic_empty⟩

/-- A completed request leaves a forest that follows soundly and has room for its nodes, and it
keeps the options. -/
theorem Sound.follows (sound : builder.Sound) (completed : builder.step? request = some after) :
    after.forest.Follows builder.options.checkCycles builder.forest ∧
      after.options = builder.options ∧ builder.forest.size ≤ after.forest.size ∧
      after.forest.size ≤ builder.forest.limit := by
  have unchanged := sound.linked.follows builder.options.checkCycles
  cases request with
  | edit edit =>
      rcases step?_eq_some_iff.mp completed with ⟨reply, replied⟩ | ⟨refusal, refused⟩
      · obtain ⟨ran, rest⟩ := apply_of_reply replied
        have grows := edit.apply_grows sound.linked builder.options.checkCycles
        rw [rest]
        exact ⟨grows.result ran, rfl, grows.size_le ran⟩
      · obtain ⟨ran, rest⟩ := apply_of_stop refused
        obtain ⟨follows, grown⟩ := edit.refused_follows sound.linked ran
        rw [rest]
        exact ⟨follows, rfl, grown⟩
  | query query =>
      rw [← perform_of_step? completed]
      exact ⟨unchanged, rfl, Nat.le_refl _, Nat.le_max_left _ _⟩
  | serial node =>
      rw [← perform_of_step? completed]
      exact ⟨unchanged, rfl, Nat.le_refl _, Nat.le_max_left _ _⟩

/-- Completed requests keep a builder sound. -/
theorem Sound.step (sound : builder.Sound) (completed : builder.step? request = some after) :
    after.Sound := by
  obtain ⟨follows, same, _⟩ := sound.follows completed
  refine ⟨follows.linked, fun checked => ?_⟩
  rw [same] at checked
  exact follows.acyclic checked (sound.acyclic checked)

theorem Reachable.sound (reachable : builder.Reachable) : builder.Sound :=
  reachable.invariant sound_ofOptions fun _ _ _ completed sound => sound.step completed

/-- No reachable builder has more nodes than there are handles. -/
theorem Reachable.fits (reachable : builder.Reachable) :
    builder.forest.size ≤ Forest.capacity := by
  have sized : builder.Sound ∧ builder.forest.size ≤ Forest.capacity := by
    apply reachable.invariant
    · intro options
      exact ⟨sound_ofOptions options, Nat.zero_le _⟩
    · rintro before request after completed ⟨sound, fits⟩
      have grown := (sound.follows completed).2.2.2
      rw [Forest.limit_eq_capacity fits] at grown
      exact ⟨sound.step completed, grown⟩
  exact sized.2

/-- A run keeps a builder sound, and it keeps the options. -/
theorem Sound.run (sound : builder.Sound) {requests : List Request}
    (ran : builder.run? requests = some after) :
    after.Sound ∧ after.options = builder.options ∧ builder.forest.size ≤ after.forest.size := by
  apply run?_preserves _ ran ⟨sound, rfl, Nat.le_refl _⟩
  rintro middle request next completed ⟨soundMiddle, kept, grown⟩
  obtain ⟨_, keptNext, grownNext, _⟩ := soundMiddle.follows completed
  exact ⟨soundMiddle.step completed, keptNext.trans kept, grown.trans grownNext⟩

/-- No run loses a node. -/
theorem Sound.size_le_of_run? (sound : builder.Sound) {requests : List Request}
    (ran : builder.run? requests = some after) : builder.forest.size ≤ after.forest.size :=
  (sound.run ran).2.2

/-- A builder without the check for cycles, in which two nodes are below each other. -/
def knot : Builder where
  options := { checkCycles := false }
  forest := { nodes := #[
    { content := .token (.imaginary 4 "a"), children := [⟨1⟩, ⟨2⟩], parent := some ⟨1⟩,
      position := some 0 },
    { content := .token (.imaginary 4 "b"), children := [⟨0⟩], parent := some ⟨0⟩,
      position := some 0 },
    { content := .token (.imaginary 4 "c"), parent := some ⟨0⟩, position := some 1 }] }

theorem reachable_knot : knot.Reachable :=
  ⟨{ checkCycles := false }, [.edit (.createImaginary 4 "a"), .edit (.createImaginary 4 "b"),
    .edit (.createImaginary 4 "c"), .edit (.addChild ⟨0⟩ ⟨2⟩), .edit (.addChild ⟨0⟩ ⟨1⟩),
    .edit (.addChild ⟨1⟩ ⟨0⟩), .edit (.setPosition ⟨1⟩ 0), .edit (.deleteChild ⟨0⟩ 9)], rfl⟩

/-- In every reachable builder the two ends of every link agree. So no node occurs twice in the
child lists, and nil nodes are roots. -/
theorem links_agree (reachable : builder.Reachable) :
    builder.forest.Linked ∧
      (builder.forest.nodes.toList.flatMap Node.children).Nodup ∧
      ∀ id node, builder.forest.get? id = some node → node.content.isNil = true →
        node.parent = none := by
  have linked := reachable.sound.linked
  exact ⟨linked, linked.nodup_children, fun _ _ found nil => linked.nil_parent found nil⟩

/-- The links agree in the knot as well. -/
theorem links_agree_knot : knot.Reachable ∧ knot.forest.childrenOf ⟨0⟩ = [⟨1⟩, ⟨2⟩] ∧
    knot.forest.childrenOf ⟨1⟩ = [⟨0⟩] ∧ knot.forest.Linked :=
  ⟨reachable_knot, rfl, rfl, (links_agree reachable_knot).1⟩

/-- In every reachable builder that checks for cycles, no node is above itself, and the trees of the
roots list every handle exactly once. Later requests lose no node. -/
theorem trees_partition (reachable : builder.Reachable)
    (checked : builder.options.checkCycles = true) :
    builder.forest.Acyclic ∧
      (∃ trees, builder.forest.roots.mapM builder.forest.subtree = .ok trees ∧
        (trees.flatMap OrderedTree.handles).Perm builder.forest.handles) ∧
      ∀ requests later, builder.run? requests = some later →
        builder.forest.size ≤ later.forest.size := by
  have sound := reachable.sound
  have acyclic := sound.acyclic checked
  exact ⟨acyclic, acyclic.partition sound.linked, fun _ _ ran => sound.size_le_of_run? ran⟩

/-- Two of the children of a nil list move below a node, and the refused attempt to close a cycle
changes nothing. -/
theorem trees_partition_list : ∃ builder : Builder, builder.Reachable ∧
    builder.options.checkCycles = true ∧ builder.forest.roots = [⟨1⟩, ⟨3⟩] ∧
    ∃ trees, builder.forest.roots.mapM builder.forest.subtree = .ok trees ∧
      (trees.flatMap OrderedTree.handles).Perm builder.forest.handles := by
  have reachable : Reachable { forest := { nodes := #[
      { content := .token (.imaginary 4 "a"), parent := some ⟨1⟩, position := some 1 },
      { content := .token (.imaginary 4 "b"), children := [⟨2⟩, ⟨0⟩] },
      { content := .token (.imaginary 4 "c"), parent := some ⟨1⟩, position := some 0 },
      { content := .nil }] } } :=
    ⟨{}, [.edit (.createImaginary 4 "a"), .edit (.createImaginary 4 "b"),
      .edit (.createImaginary 4 "c"), .edit .createNil, .edit (.addChild ⟨3⟩ ⟨2⟩),
      .edit (.addChild ⟨3⟩ ⟨0⟩), .edit (.becomeRoot ⟨1⟩ (some ⟨3⟩)),
      .edit (.addChild ⟨2⟩ ⟨1⟩)], rfl⟩
  exact ⟨_, reachable, rfl, rfl, (trees_partition reachable rfl).2.1⟩

end Builder

end SyntaxForest
