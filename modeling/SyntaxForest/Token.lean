/-!
Tokens as a syntax forest sees them. A token has a kind, an optional text, an optional index in the
stream it came from, and a place in the source text.
-/

namespace SyntaxForest

/-- A kind is the signed type code that a lexer gives a token. -/
abbrev Kind := Int32

/-- A node without a token of its own has the invalid kind. -/
def Kind.invalid : Kind := 0

/-- The end of input has its own kind. -/
def Kind.eof : Kind := -1

/-- A grammar numbers its own kinds from here. -/
def Kind.firstOfGrammar : Kind := 4

/-- A token without a text differs from a token with the empty text. -/
structure Token where
  kind : Kind
  text : Option String := none
  index : Option Nat := none
  line : UInt32 := 0
  column : UInt32 := 0
  deriving DecidableEq, Repr

namespace Token

/-- An imaginary token has a kind and a text, and no place in any stream. -/
def imaginary (kind : Kind) (text : String) : Token := { kind, text := some text }

/-- A textless token has a kind only. -/
def textless (kind : Kind) : Token := { kind }

/-- The end of input is a token without text. -/
def eof : Token := textless Kind.eof

def withKind (token : Token) (kind : Kind) : Token := { token with kind }

def withText (token : Token) (text : String) : Token := { token with text := some text }

def withIndex (token : Token) (index : Nat) : Token := { token with index := some index }

def withPlace (token : Token) (line column : UInt32) : Token := { token with line, column }

end Token

end SyntaxForest
