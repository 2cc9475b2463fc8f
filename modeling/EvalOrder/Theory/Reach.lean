import EvalOrder.Precedence

/-! How far the operands of an operator reach, read off the tiers alone: to the left up to the nearest
operator of a later tier, to the right up to the nearest one of the same or a later tier. Nothing that
was made before is asked. -/
namespace EvalOrder

/-- The operation of `m` between the bytes `lo` and `hi`. An operator at `lo` is part of an operand, and
one right before `hi` ends any operand. -/
def reach (marks : List Mark) (lo hi : Nat) (m : Mark) : Span :=
  let rank := m.operator.tier.rank
  let walls := marks.filter fun q => lo < q.offset && q.offset < m.offset && rank < q.operator.tier.rank
  let wall := marks.find? fun q =>
    m.offset < q.offset && q.offset < hi && (rank ≤ q.operator.tier.rank || q.offset + 1 == hi)
  ⟨(walls.getLast?.map (·.offset + 1)).getD lo, (wall.map Mark.offset).getD hi⟩

/-- The operators with room for operands on both sides, in the order of evaluation. -/
def inOrder (marks : List Mark) (lo hi : Nat) : List Mark :=
  Tier.all.flatMap fun tier =>
    marks.filter fun m => lo < m.offset && m.offset + 1 < hi && m.operator.tier == tier

def bindings (t : Text) : List Operation :=
  let marks := marksOf t
  (inOrder marks 0 (Text.size t)).zipIdx.map fun (m, k) =>
    let span := reach marks 0 (Text.size t) m
    ⟨span.start, span.stop - 1, m.operator, Text.slice t span.start span.stop, k⟩

end EvalOrder
