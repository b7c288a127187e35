import SyntaxForest.Token.Stream

/-!
The tokens that a parser skips while it recovers from a syntax error. The skipped text is captured
from the stream once, so that a later report needs no stream.
-/

namespace SyntaxForest

/-- A span runs from the token at which the error was found to the last token that was skipped. -/
structure ErrorSpan where
  start : Token
  stop : Token
  text : String
  diagnostic : String
  deriving DecidableEq, Repr

namespace ErrorSpan

/-- A stop token that lies before the start token gives way to it, unless it ends the input. -/
def lastToken (start stop : Token) : Token :=
  match start.index, stop.index with
  | some first, some last => if last < first ∧ stop.kind ≠ Kind.eof then start else stop
  | _, _ => stop

/-- A span that ends with the end of input covers the rest of the stream. -/
def coveredText (stream : TokenStream) (start stop : Token) : String :=
  match start.index with
  | none => "<unknown>"
  | some first =>
      stream.text first (if stop.kind = Kind.eof then stream.size else stop.index.getD first)

/-- The text is read after the stop token is settled. -/
def capture (stream : TokenStream) (start stop : Token) (diagnostic : String) : ErrorSpan where
  start := start
  stop := lastToken start stop
  text := coveredText stream start (lastToken start stop)
  diagnostic := diagnostic

end ErrorSpan

end SyntaxForest
