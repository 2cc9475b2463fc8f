import EvalOrder.Checked.Fault
import EvalOrder.Report

/-! The report of a failure whose spans come from elsewhere. Nothing is drawn for a span that ends before
it starts, and an empty source has no line on which a span could start. -/
namespace EvalOrder.Checked

def report (failure : Failure) (source : Text) : Checked (List Line) :=
  match failure.spans with
  | [] => .ok (EvalOrder.report failure source)
  | span :: _ =>
    if span.stop < span.start then .error .reversedSpan
    else if source.isEmpty && span.start == 0 then .error .missingItem
    else .ok (EvalOrder.report failure source)

end EvalOrder.Checked
