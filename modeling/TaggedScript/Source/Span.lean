namespace TaggedScript

/-- A stretch of source text, from the byte at `start` up to the byte before `stop`. -/
structure Span where
  start : Nat
  stop : Nat
deriving DecidableEq, Repr, Inhabited

namespace Span

/-- The span of a node that was not read from a text. -/
def none : Span := ⟨0, 0⟩

/-- The smallest span that covers both. -/
def merge (a b : Span) : Span := ⟨min a.start b.start, max a.stop b.stop⟩

/-- The empty span at the end of another. -/
def after (a : Span) : Span := ⟨a.stop, a.stop⟩

def length (a : Span) : Nat := a.stop - a.start

end Span
end TaggedScript
