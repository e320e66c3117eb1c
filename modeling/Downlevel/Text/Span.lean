import Downlevel.Text.Utf8

/-! # Spans

A span is a stretch of a text between two byte offsets. Offsets are 32 bits wide: a larger one is
taken for the largest. -/

namespace Downlevel

/-- A stretch of text, from `start` up to but not including `stop`. -/
structure Span where
  start : Nat
  stop : Nat
deriving DecidableEq, Repr, Inhabited

namespace Span

def maxOffset : Nat := 4294967295

def ofOffsets (start stop : Nat) : Span := ⟨min start maxOffset, min stop maxOffset⟩

def isEmpty (s : Span) : Bool := s.start == s.stop

/-- The number of bytes of the span, when its ends are in order. -/
def length? (s : Span) : Option Nat :=
  if s.start ≤ s.stop then some (s.stop - s.start) else none

/-- The text of the span, empty when it does not fit the text. -/
def text (s : Span) (source : List Char) : List Char :=
  (Text.slice? s.start s.stop source).getD []

end Span

end Downlevel
