/-! # Places in a script

A span is where a node of a script stands: a line, a column and a length. Code generated without
any source has the default span, all zeros.
-/

namespace SmalltalkJvm

structure Span where
  line : Nat := 0
  column : Nat := 0
  length : Nat := 0
  deriving DecidableEq, Repr, Inhabited

/-- The first column of a line, with no length. -/
def Span.ofLine (line : Nat) : Span := ⟨line, 1, 0⟩

/-- The place as it opens every diagnostic: line, colon, column. -/
def Span.place (s : Span) : String := s!"{s.line}:{s.column}"

end SmalltalkJvm
