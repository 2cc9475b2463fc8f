import EvalOrder.Level

/-! The regions of a source that levels cover. A level asks by its stop whether another one is inside, and
stops are counted in two ways; the region is counted in one way, from the first byte of the raw text to
the byte behind it. -/
namespace EvalOrder

namespace Span

def Within (inner outer : Span) : Prop :=
  outer.start ≤ inner.start ∧ inner.stop ≤ outer.stop

def Apart (a b : Span) : Prop :=
  a.stop ≤ b.start ∨ b.stop ≤ a.start

end Span

/-- What levels say of each other is what their regions show. A deeper region has a byte, so it is not
both within another one and apart from it. -/
structure Regions (source : Text) (levels : List Level) : Prop where
  contains : ∀ a ∈ levels, ∀ b ∈ levels, a.height < b.height → (a.contains b = true ↔ b.span.Within a.span)
  outside : ∀ a ∈ levels, ∀ b ∈ levels, a.height < b.height → a.contains b = false → a.span.Apart b.span
  beside : levels.Pairwise fun a b => a.height = b.height → a.span.Apart b.span
  raw : ∀ level ∈ levels, Text.slice? source level.span.start level.span.stop = some level.raw
  some_byte : ∀ level ∈ levels, 0 < level.height → level.span.start < level.span.stop

end EvalOrder
