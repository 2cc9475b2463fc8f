import EvalOrder.Proofs.Descent
import EvalOrder.Proofs.Steps

/-! The characters of a plan. Nothing is written into a step but what stands in the source: an alias adds
a marker and digits, and what is put back for it is a piece of the source. -/
namespace EvalOrder

open EvalOrder.Part Site

end EvalOrder
