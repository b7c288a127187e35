import SyntaxForest.Token

/-!
Token streams give access to tokens by position. The text of a range is the concatenation of the
texts found at its positions, and the range ends where the stream ends.
-/

namespace SyntaxForest

/-- A stream holds the tokens of an input or the nodes of a tree that is already built. -/
inductive StreamKind where
  | tokens
  | nodes
  deriving DecidableEq, Repr

instance : Inhabited StreamKind := ⟨.tokens⟩

/-- A stream may announce a size and still hold no token at some position below it. -/
structure TokenStream where
  size : Nat
  get? : Nat → Option Token
  kind : StreamKind := default

namespace TokenStream

/-- A position without a token, or with a textless token, has the empty text. -/
def textAt (stream : TokenStream) (position : Nat) : String :=
  ((stream.get? position).bind Token.text).getD ""

/-- Both ends of the range belong to it, as far as they lie in the stream. -/
def text (stream : TokenStream) (start stop : Nat) : String :=
  String.join ((List.range' start (min (stop + 1) stream.size - start)).map stream.textAt)

end TokenStream

/-- A buffer is a stream whose tokens are all present. -/
structure TokenBuffer where
  tokens : List Token
  kind : StreamKind := default
  deriving DecidableEq, Repr

namespace TokenBuffer

/-- Each token of a new buffer carries its position as its index. -/
def ofTokens (tokens : List Token) : TokenBuffer where
  tokens := tokens.mapIdx fun position token => token.withIndex position

/-- The same tokens, read as the nodes of a tree. -/
def overTree (buffer : TokenBuffer) : TokenBuffer := { buffer with kind := .nodes }

def toStream (buffer : TokenBuffer) : TokenStream where
  size := buffer.tokens.length
  get? position := buffer.tokens[position]?
  kind := buffer.kind

end TokenBuffer

end SyntaxForest
