import SyntaxForest.Edit.Basic

/-!
New nodes, and changes to what a node carries.
-/

namespace SyntaxForest.EditM

def create (token : Token) : EditM NodeId := allocate { content := .token token }

/-- An empty list of children. -/
def createNil : EditM NodeId := allocate { content := .nil }

/-- The skipped tokens are recorded. A stream of tree nodes has no tokens to skip. -/
def createError (stream : TokenStream) (start stop : Token) (diagnostic : String) :
    EditM NodeId :=
  match stream.kind with
  | .nodes => refuse .nodeStream
  | .tokens => allocate { content := .error (.capture stream start stop diagnostic) }

/-- Only a node that carries a token can change it. -/
def updateToken (id : NodeId) (change : Token → Token) : EditM Unit := do
  let node ← fetch id
  match node.content with
  | .token token => update id fun node => { node with content := .token (change token) }
  | .nil | .error _ => refuse .noToken

def setKind (id : NodeId) (kind : Kind) : EditM Unit :=
  updateToken id fun token => token.withKind kind

def setText (id : NodeId) (text : String) : EditM Unit :=
  updateToken id fun token => token.withText text

/-- The boundaries are the stream indices of the tokens. An absent token, or a token without an
index, clears its boundary. -/
def setBoundaries (id : NodeId) (start stop : Option Token) : EditM Unit :=
  update id fun node => { node with start := start.bind Token.index, stop := stop.bind Token.index }

end SyntaxForest.EditM
