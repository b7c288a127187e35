import SyntaxForest.Request
import SyntaxForest.Serials

/-!
A builder owns a forest, the options it was made with, and the serial numbers that it has handed
out. Every request to it gets a reply or a stop, and the builder goes on from there.
-/

namespace SyntaxForest

/-- The capacity is only a hint. Without the check for cycles, keeping trees free of them is left to
the caller. -/
structure Options where
  initialCapacity : Nat := 1024
  checkCycles : Bool := true
  deriving DecidableEq, Repr

/-- A request is an edit, a query, or the wish for the serial number of a handle. -/
inductive Request where
  | edit (edit : Edit)
  | query (query : Query)
  | serial (node : NodeId)

/-- The forest may be edited at any time, but a serial number is handed out once and for all. -/
structure Builder where
  forest : Forest := .empty
  options : Options := {}
  serials : Serials := .empty
  deriving DecidableEq, Repr

namespace Builder

def ofOptions (options : Options) : Builder := { options }

/-- A stop is reported together with the builder as it then stands. -/
def perform : Builder → Request → Except Stop Reply × Builder
  | ⟨forest, options, serials⟩, .edit edit =>
      match edit.apply options.checkCycles forest with
      | .ok reply forest => (.ok reply, ⟨forest, options, serials⟩)
      | .error stop forest => (.error stop, ⟨forest, options, serials⟩)
  | builder, .query query => (query.answer builder.forest, builder)
  | ⟨forest, options, serials⟩, .serial node =>
      let (number, serials) := serials.assign node
      (.ok (.number number), ⟨forest, options, serials⟩)

end Builder

end SyntaxForest
