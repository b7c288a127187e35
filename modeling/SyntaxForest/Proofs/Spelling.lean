import SyntaxForest.Proofs.Subtrees

/-!
The spelling of trees of plain texts and how it is read. A reader takes in one character after
another and keeps the trees that are still open. It accepts the spellings of such trees and nothing
else, and it gives back the tree that is spelled.
-/

namespace SyntaxForest

namespace OrderedTree

variable {α β : Type}

/-- The label that a path of child positions leads to. -/
def labelAt? : OrderedTree α → List Nat → Option α
  | .node label _, [] => some label
  | .node _ children, position :: rest => children[position]?.bind (labelAt? · rest)

/-- Every label of the tree has the property. -/
def Every (property : α → Prop) (tree : OrderedTree α) : Prop :=
  ∀ path label, tree.labelAt? path = some label → property label

theorem every_node_iff {property : α → Prop} {label : α} {children : List (OrderedTree α)} :
    (node label children).Every property ↔
      property label ∧ ∀ child ∈ children, child.Every property := by
  constructor
  · intro every
    refine ⟨every [] label rfl, fun child member path other labelled => ?_⟩
    obtain ⟨position, listed⟩ := List.mem_iff_getElem?.mp member
    apply every (position :: path) other
    rw [labelAt?, listed]
    exact labelled
  · rintro ⟨own, below⟩ path other labelled
    cases path with
    | nil =>
        cases labelled
        exact own
    | cons position path =>
        obtain ⟨child, listed, labelled⟩ := Option.bind_eq_some_iff.mp labelled
        exact below child (List.mem_of_getElem? listed) path other labelled

theorem labelAt?_map (change : α → β) (tree : OrderedTree α) (path : List Nat) :
    (tree.map change).labelAt? path = (tree.labelAt? path).map change := by
  induction path generalizing tree with
  | nil =>
      cases tree
      rfl
  | cons position path ih =>
      obtain ⟨label, children⟩ := tree
      rw [map, mapEach_eq_map, labelAt?, labelAt?, List.getElem?_map]
      cases children[position]? with
      | none => rfl
      | some child => exact ih child

mutual

/-- The labels at all paths determine a tree. -/
theorem eq_of_labelAt? (first second : OrderedTree α)
    (same : ∀ path, first.labelAt? path = second.labelAt? path) : first = second := by
  obtain ⟨label, children⟩ := first
  obtain ⟨other, others⟩ := second
  have labels : label = other := Option.some.inj (same [])
  have forms : children = others :=
    eqEach_of_labelAt? children others fun position path => same (position :: path)
  rw [labels, forms]

theorem eqEach_of_labelAt? (first second : List (OrderedTree α))
    (same : ∀ (position : Nat) (path : List Nat), first[position]?.bind (labelAt? · path) =
      second[position]?.bind (labelAt? · path)) : first = second := by
  match first, second with
  | [], [] => rfl
  | [], ⟨_, _⟩ :: _ => exact absurd (same 0 []) (by simp [labelAt?])
  | ⟨_, _⟩ :: _, [] => exact absurd (same 0 []) (by simp [labelAt?])
  | tree :: rest, other :: others =>
      have head : tree = other := eq_of_labelAt? tree other fun path => same 0 path
      have tail : rest = others :=
        eqEach_of_labelAt? rest others fun position path => same (position + 1) path
      rw [head, tail]

end

mutual

/-- A leaf is spelled as its text. A tree with children is put in parentheses, and a space stands
before each child. -/
def spelled : OrderedTree String → List Char
  | .node text children =>
      if children.isEmpty then text.toList
      else '(' :: text.toList ++ spelledEach children ++ [')']

def spelledEach : List (OrderedTree String) → List Char
  | [] => []
  | tree :: rest => ' ' :: tree.spelled ++ spelledEach rest

end

theorem spelledEach_append (first second : List (OrderedTree String)) :
    spelledEach (first ++ second) = spelledEach first ++ spelledEach second := by
  induction first with
  | nil => rfl
  | cons tree rest ih => simp [spelledEach, ih]

end OrderedTree

/-- A plain character separates nothing. -/
def PlainChar (char : Char) : Prop := char ≠ ' ' ∧ char ≠ '(' ∧ char ≠ ')'

/-- A plain text has no space and no parenthesis. -/
def PlainText (text : String) : Prop := ∀ char ∈ text.toList, PlainChar char

theorem plainText_ofList {text : List Char} (plain : ∀ char ∈ text, PlainChar char) :
    PlainText (.ofList text) := by
  rw [PlainText, String.toList_ofList]
  exact plain

/-- A plain content is a token with a plain text. -/
def Content.Plain (content : Content) : Prop :=
  ∃ token text, content = .token token ∧ token.text = some text ∧ PlainText text

theorem Content.Plain.label {content : Content} (plain : content.Plain) :
    PlainText content.label ∧ content.text? = some content.label ∧ content.isNil = false := by
  obtain ⟨token, text, rfl, shown, plainText⟩ := plain
  rw [Content.label, Content.text?, shown]
  exact ⟨plainText, rfl, rfl⟩

namespace OrderedTree

mutual

/-- The written form of plain contents is the spelling of their labels. -/
theorem toList_render (tree : OrderedTree Content) (plain : tree.Every Content.Plain) :
    tree.render.toList = (tree.map Content.label).spelled := by
  match tree with
  | .node content [] => rfl
  | .node content (first :: rest) =>
      rw [every_node_iff, List.forall_mem_cons] at plain
      obtain ⟨own, plainFirst, plainRest⟩ := plain
      have formFirst := toList_render first plainFirst
      have formRest := toList_renderEach rest plainRest
      rw [render, if_neg (by simp [own.label.2.2])]
      simp [map, mapEach, spelled, spelledEach, formFirst, formRest]

theorem toList_renderEach (trees : List (OrderedTree Content))
    (plain : ∀ tree ∈ trees, tree.Every Content.Plain) :
    (renderEach trees).toList = spelledEach (mapEach Content.label trees) := by
  match trees with
  | [] => rfl
  | tree :: rest =>
      rw [List.forall_mem_cons] at plain
      have form := toList_render tree plain.1
      have formRest := toList_renderEach rest plain.2
      simp [renderEach, mapEach, spelledEach, form, formRest]

end

end OrderedTree

/-- An opened tree with the children that are complete. -/
structure Frame where
  text : String
  children : List (OrderedTree String) := []

def Frame.add (frame : Frame) (child : OrderedTree String) : Frame :=
  { frame with children := frame.children ++ [child] }

def Frame.tree (frame : Frame) : OrderedTree String := .node frame.text frame.children

/-- A reader is inside a text, which may be the one of a root, or behind a closed tree. -/
inductive Piece where
  | text (ofRoot : Bool) (read : List Char)
  | closed (tree : OrderedTree String)

/-- What the piece is if it ends here. A root does not end before its first child. -/
def Piece.tree? : Piece → Option (OrderedTree String)
  | .text true _ => none
  | .text false read => some (.node (.ofList read) [])
  | .closed tree => some tree

/-- A reader has trees that are still open, the innermost one first. -/
structure Reader where
  opened : List Frame := []
  piece : Piece := .text false []

namespace Reader

/-- A tree opens where a form begins. -/
def openTree (reader : Reader) : Option Reader :=
  match reader.piece with
  | .text false [] => some { reader with piece := .text true [] }
  | _ => none

/-- The text of a root ends before the first child, and a child before the next one. -/
def nextChild : Reader → Option Reader
  | ⟨opened, .text true read⟩ => some ⟨{ text := .ofList read } :: opened, .text false []⟩
  | ⟨frame :: opened, piece⟩ => do
      let child ← piece.tree?
      some ⟨frame.add child :: opened, .text false []⟩
  | ⟨[], _⟩ => none

/-- The innermost tree ends with its last child. -/
def closeTree : Reader → Option Reader
  | ⟨frame :: opened, piece⟩ => do
      let child ← piece.tree?
      some ⟨opened, .closed (frame.add child).tree⟩
  | ⟨[], _⟩ => none

def extend (reader : Reader) (char : Char) : Option Reader :=
  match reader.piece with
  | .text ofRoot read => some { reader with piece := .text ofRoot (read ++ [char]) }
  | .closed _ => none

def step (reader : Reader) (char : Char) : Option Reader :=
  if char = '(' then reader.openTree
  else if char = ' ' then reader.nextChild
  else if char = ')' then reader.closeTree
  else reader.extend char

/-- The characters are taken in one after another. -/
def feed (reader : Reader) (text : List Char) : Option Reader := text.foldlM step reader

variable {reader next : Reader} {piece : Piece} {child : OrderedTree String}

theorem feed_cons {char : Char} (stepped : reader.step char = some next) (rest : List Char) :
    reader.feed (char :: rest) = next.feed rest := by
  rw [feed, List.foldlM_cons, stepped]
  rfl

theorem feed_append {text : List Char} (ran : reader.feed text = some next) (rest : List Char) :
    reader.feed (text ++ rest) = next.feed rest := by
  rw [feed] at ran
  rw [feed, List.foldlM_append, ran]
  rfl

theorem step_plain {char : Char} (plain : PlainChar char) (reader : Reader) :
    reader.step char = reader.extend char := by
  rw [step, if_neg plain.2.1, if_neg plain.1, if_neg plain.2.2]

theorem step_space (ended : piece.tree? = some child) (frame : Frame) (opened : List Frame) :
    step ⟨frame :: opened, piece⟩ ' ' = some ⟨frame.add child :: opened, .text false []⟩ := by
  match piece with
  | .text false _ | .closed _ =>
      cases ended
      rfl

theorem step_close (ended : piece.tree? = some child) (frame : Frame) (opened : List Frame) :
    step ⟨frame :: opened, piece⟩ ')' = some ⟨opened, .closed (frame.add child).tree⟩ := by
  change piece.tree?.bind _ = _
  rw [ended]
  rfl

/-- A plain text is taken in as a whole. -/
theorem feed_text {text : List Char} (plain : ∀ char ∈ text, PlainChar char)
    (opened : List Frame) (ofRoot : Bool) (read : List Char) :
    feed ⟨opened, .text ofRoot read⟩ text = some ⟨opened, .text ofRoot (read ++ text)⟩ := by
  induction text generalizing read with
  | nil =>
      rw [List.append_nil]
      rfl
  | cons char rest ih =>
      rw [List.forall_mem_cons] at plain
      rw [feed_cons (step_plain plain.1 _), ih plain.2, List.append_assoc]
      rfl

mutual

/-- A spelled tree is taken in as a whole, whatever trees are open. -/
theorem feed_spelled (tree : OrderedTree String) (plain : tree.Every PlainText)
    (opened : List Frame) :
    ∃ piece, feed ⟨opened, .text false []⟩ tree.spelled = some ⟨opened, piece⟩ ∧
      piece.tree? = some tree := by
  match tree with
  | .node text [] =>
      rw [OrderedTree.every_node_iff] at plain
      exact ⟨_, feed_text plain.1 opened false [], by simp [Piece.tree?]⟩
  | .node text (first :: rest) =>
      rw [OrderedTree.every_node_iff, List.forall_mem_cons] at plain
      obtain ⟨own, plainFirst, plainRest⟩ := plain
      obtain ⟨piece, ran, ended⟩ := feed_spelled first plainFirst ({ text := text } :: opened)
      have form : (OrderedTree.node text (first :: rest)).spelled = '(' :: (text.toList ++
          ' ' :: (first.spelled ++ (OrderedTree.spelledEach rest ++ [')']))) := by
        simp [OrderedTree.spelled, OrderedTree.spelledEach]
      have opens : step ⟨opened, .text false []⟩ '(' = some ⟨opened, .text true []⟩ := rfl
      have named : step ⟨opened, .text true ([] ++ text.toList)⟩ ' ' =
          some ⟨{ text := text } :: opened, .text false []⟩ := by
        change some _ = _
        rw [List.nil_append, String.ofList_toList]
      refine ⟨.closed (.node text (first :: rest)), ?_, rfl⟩
      rw [form, feed_cons opens, feed_append (feed_text own opened true []), feed_cons named,
        feed_append ran]
      exact feed_spelledEach rest plainRest { text := text } opened piece ended

/-- The further children are taken in one after another, until the tree closes. -/
theorem feed_spelledEach (trees : List (OrderedTree String))
    (plain : ∀ tree ∈ trees, tree.Every PlainText) (frame : Frame) (opened : List Frame)
    (piece : Piece) {last : OrderedTree String} (ended : piece.tree? = some last) :
    feed ⟨frame :: opened, piece⟩ (OrderedTree.spelledEach trees ++ [')']) =
      some ⟨opened, .closed (.node frame.text (frame.children ++ last :: trees))⟩ := by
  match trees with
  | [] => exact feed_cons (step_close ended frame opened) []
  | tree :: rest =>
      rw [List.forall_mem_cons] at plain
      obtain ⟨pieceNext, ran, endedNext⟩ := feed_spelled tree plain.1 (frame.add last :: opened)
      have ranRest := feed_spelledEach rest plain.2 (frame.add last) opened pieceNext endedNext
      rw [OrderedTree.spelledEach, List.append_assoc, List.cons_append,
        feed_cons (step_space ended frame opened), feed_append ran, ranRest]
      simp [Frame.add]

end

/-- Everything that a character can do. -/
theorem step_cases {char : Char} (stepped : reader.step char = some next) :
    (char = '(' ∧ reader.piece = .text false [] ∧
      next = { reader with piece := .text true [] }) ∨
    (char = ' ' ∧ ∃ read, reader.piece = .text true read ∧
      next = ⟨{ text := .ofList read } :: reader.opened, .text false []⟩) ∨
    (char = ' ' ∧ ∃ frame opened child, reader.opened = frame :: opened ∧
      reader.piece.tree? = some child ∧ next = ⟨frame.add child :: opened, .text false []⟩) ∨
    (char = ')' ∧ ∃ frame opened child, reader.opened = frame :: opened ∧
      reader.piece.tree? = some child ∧ next = ⟨opened, .closed (frame.add child).tree⟩) ∨
    (PlainChar char ∧ ∃ ofRoot read, reader.piece = .text ofRoot read ∧
      next = { reader with piece := .text ofRoot (read ++ [char]) }) := by
  rw [step] at stepped
  obtain ⟨opened, piece⟩ := reader
  split_ifs at stepped with opens separates closes
  · match piece with
    | .text false [] =>
        cases stepped
        exact .inl ⟨opens, rfl, rfl⟩
  · match opened, piece with
    | _, .text true read =>
        cases stepped
        exact .inr (.inl ⟨separates, read, rfl, rfl⟩)
    | frame :: opened, .text false _ | frame :: opened, .closed _ =>
        cases stepped
        exact .inr (.inr (.inl ⟨separates, frame, opened, _, rfl, rfl, rfl⟩))
  · match opened with
    | frame :: opened =>
        obtain ⟨child, ended, same⟩ := Option.bind_eq_some_iff.mp stepped
        cases same
        exact .inr (.inr (.inr (.inl ⟨closes, frame, opened, child, rfl, ended, rfl⟩)))
  · match piece with
    | .text ofRoot read =>
        cases stepped
        exact .inr (.inr (.inr (.inr ⟨⟨separates, opens, closes⟩, ofRoot, read, rfl, rfl⟩)))

end Reader

def Frame.spelled (frame : Frame) : List Char :=
  '(' :: frame.text.toList ++ OrderedTree.spelledEach frame.children ++ [' ']

def Piece.spelled : Piece → List Char
  | .text ofRoot read => if ofRoot then '(' :: read else read
  | .closed tree => tree.spelled

def Piece.Plain : Piece → Prop
  | .text _ read => ∀ char ∈ read, PlainChar char
  | .closed tree => tree.Every PlainText

theorem Piece.Plain.of_tree? {piece : Piece} {tree : OrderedTree String} (plain : piece.Plain)
    (ended : piece.tree? = some tree) : tree.Every PlainText ∧ tree.spelled = piece.spelled := by
  match piece with
  | .text false read =>
      cases ended
      exact ⟨OrderedTree.every_node_iff.mpr ⟨plainText_ofList plain, by simp⟩, String.toList_ofList⟩
  | .closed _ =>
      cases ended
      exact ⟨plain, rfl⟩

theorem Frame.every_add {frame : Frame} {child : OrderedTree String}
    (plain : frame.tree.Every PlainText) (plainChild : child.Every PlainText) :
    (frame.add child).tree.Every PlainText := by
  rw [Frame.tree, OrderedTree.every_node_iff] at plain ⊢
  refine ⟨plain.1, fun other member => ?_⟩
  rcases List.mem_append.mp member with inside | last
  · exact plain.2 other inside
  · rw [List.mem_singleton.mp last]
    exact plainChild

namespace Reader

variable {reader next : Reader}

/-- The reader has taken in the text, and it holds nothing but plain texts. -/
structure Reads (reader : Reader) (text : List Char) : Prop where
  spelling : reader.opened.reverse.flatMap Frame.spelled ++ reader.piece.spelled = text
  frames : ∀ frame ∈ reader.opened, frame.tree.Every PlainText
  piece : reader.piece.Plain

/-- Each character is added to what the reader has taken in. -/
theorem Reads.step {text : List Char} {char : Char} (reads : reader.Reads text)
    (stepped : reader.step char = some next) : next.Reads (text ++ [char]) := by
  obtain ⟨rfl, frames, plain⟩ := reads
  obtain ⟨opened, piece⟩ := reader
  rcases step_cases stepped with ⟨rfl, same, rfl⟩ | ⟨rfl, read, same, rfl⟩ |
    ⟨rfl, frame, outer, child, same, ended, rfl⟩ | ⟨rfl, frame, outer, child, same, ended, rfl⟩ |
    ⟨plainChar, ofRoot, read, same, rfl⟩
  · cases same
    exact ⟨by simp [Piece.spelled], frames, plain⟩
  · cases same
    refine ⟨?_, ?_, by simp [Piece.Plain]⟩
    · simp [Frame.spelled, Piece.spelled, OrderedTree.spelledEach]
    · rw [List.forall_mem_cons]
      exact ⟨OrderedTree.every_node_iff.mpr ⟨plainText_ofList plain, by simp⟩, frames⟩
  · cases same
    rw [List.forall_mem_cons] at frames
    obtain ⟨plainChild, spelled⟩ := plain.of_tree? ended
    refine ⟨?_, ?_, by simp [Piece.Plain]⟩
    · simp [Frame.spelled, Frame.add, Piece.spelled, OrderedTree.spelledEach_append,
        OrderedTree.spelledEach, spelled]
    · rw [List.forall_mem_cons]
      exact ⟨Frame.every_add frames.1 plainChild, frames.2⟩
  · cases same
    rw [List.forall_mem_cons] at frames
    obtain ⟨plainChild, spelled⟩ := plain.of_tree? ended
    refine ⟨?_, frames.2, Frame.every_add frames.1 plainChild⟩
    simp [Frame.spelled, Frame.tree, Frame.add, Piece.spelled, OrderedTree.spelled,
      OrderedTree.spelledEach_append, OrderedTree.spelledEach, spelled]
  · cases same
    refine ⟨by cases ofRoot <;> simp [Piece.spelled], frames, ?_⟩
    intro char member
    rcases List.mem_append.mp member with inside | last
    · exact plain char inside
    · rw [List.mem_singleton.mp last]
      exact plainChar

theorem Reads.feed {before text : List Char} (reads : reader.Reads before)
    (ran : reader.feed text = some next) : next.Reads (before ++ text) := by
  induction text generalizing reader before with
  | nil =>
      cases ran
      rwa [List.append_nil]
  | cons char rest ih =>
      obtain ⟨middle, stepped, ran⟩ := Option.bind_eq_some_iff.mp ran
      have readsRest := ih (reads.step stepped) ran
      rwa [List.append_assoc] at readsRest

end Reader

/-- A text is read from its first character to its last one, and no tree may be left open. -/
def readTree (text : String) : Option (OrderedTree String) := do
  let reader ← Reader.feed {} text.toList
  if reader.opened.isEmpty then reader.piece.tree? else none

/-- The reader accepts the spellings of trees of plain texts and nothing else, and it gives back the
tree that is spelled. -/
theorem readTree_eq_some_iff {text : String} {tree : OrderedTree String} :
    readTree text = some tree ↔ tree.Every PlainText ∧ tree.spelled = text.toList := by
  constructor
  · intro read
    obtain ⟨reader, ran, ended⟩ := Option.bind_eq_some_iff.mp read
    have initial : Reader.Reads {} [] := ⟨rfl, by simp, by simp [Piece.Plain]⟩
    obtain ⟨spelling, _, plain⟩ := initial.feed ran
    split_ifs at ended with closed
    obtain ⟨every, spelled⟩ := plain.of_tree? ended
    rw [List.isEmpty_iff.mp closed] at spelling
    exact ⟨every, spelled.trans spelling⟩
  · rintro ⟨plain, spelling⟩
    obtain ⟨piece, ran, ended⟩ := Reader.feed_spelled tree plain []
    rw [readTree, ← spelling, ran]
    exact ended

example : readTree "(r a (b c))" =
    some (.node "r" [.node "a" [], .node "b" [.node "c" []]]) := rfl

example : readTree "(r a" = none := rfl

end SyntaxForest
