import SyntaxForest.Proofs.StreamText
import SyntaxForest.Proofs.Transfers

/-!
What a node for a syntax error records. The span runs over the tokens that were skipped, and its text
joins the texts that the stream holds between its ends.
-/

namespace SyntaxForest

namespace ErrorSpan

variable {span : ErrorSpan} {stream : TokenStream} {start stop : Token} {diagnostic : String}

end ErrorSpan

namespace Builder

end Builder

end SyntaxForest
