import EvalOrder.Proofs.Characters
import EvalOrder.Proofs.Pointing
import EvalOrder.Theory.Command
import Mathlib

/-! The command on the bytes of a file. Reading, planning and printing come together here: the lines of
the output are the steps because no stage brings a line end into one. -/
namespace EvalOrder

namespace Command

section Runs

variable (render : Renderer) (stdin : StandardInput)

end Runs

example (editor : Text → Text) :
    (run Report.oneLine (.terminal editor) (.contents (Text.bytes "(a".toList))).output =
      editor "press enter to exit".toList := by cbv

end Command

end EvalOrder
