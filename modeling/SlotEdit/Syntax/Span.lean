/-!
# Syntax/Span — offsets of a piece of text

A `Span` is the half-open interval of offsets a token or a node stands on.
-/

namespace SlotEdit

/-- The characters from offset `start` up to `stop`. -/
structure Span where
  start : Nat
  stop : Nat
deriving DecidableEq, Repr, Inhabited

namespace Span

/-- The part of a list that a span stands on. -/
def of {α : Type} (span : Span) (s : List α) : List α :=
  (s.drop span.start).take (span.stop - span.start)

/-- The smallest span that holds two. -/
def join (a b : Span) : Span := ⟨min a.start b.start, max a.stop b.stop⟩

end Span

/-- The place that ends the message of a refused text. -/
def atOffset (offset : Nat) : String := " (at offset " ++ toString offset ++ ")"

end SlotEdit
