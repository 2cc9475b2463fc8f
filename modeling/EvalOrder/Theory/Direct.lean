import EvalOrder.Plan
import EvalOrder.Theory.Reach
import EvalOrder.Theory.Structure

/-! The steps of a source read off the source directly, without masking, aliases or expansion. -/
namespace EvalOrder

def Level.ownMarks (source : Text) (levels : List Level) (level : Level) : List Mark :=
  (marksOf source).filter fun m =>
    level.interior.start ≤ m.offset && m.offset < level.interior.stop &&
      levels.all fun other =>
        !(level.height < other.height && other.start < m.offset && m.offset < other.stop)

def Level.directSteps (source : Text) (levels : List Level) (level : Level) : List Text :=
  let own := level.ownMarks source levels
  let inside := level.interior
  (inOrder own inside.start inside.stop).map fun m =>
    let span := reach own inside.start inside.stop m
    Text.slice source span.start span.stop

def directSteps (source : Text) (levels : List Level) : List Text :=
  levels.flatMap (Level.directSteps source levels)

end EvalOrder
