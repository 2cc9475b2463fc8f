import EvalOrder.Report
import Mathlib.Data.List.DropRight

/-! What it is for a report to point at a part of the source. Places and columns count characters. -/
namespace EvalOrder

def lineBreaks : List Char :=
  ['\n', '\x0b', '\x0c', '\r', '\u0085', '\u2028', '\u2029']

/-- A source that is drawn as one line, with one column for each character. -/
def OneLine (source : Text) : Prop :=
  ∀ c ∈ source, c ∉ lineBreaks ∧ c ≠ '\t'

/-- The report names the place of character `first`, shows the source, and what stands under the source
marks the characters from `first` on, `count` of them, and no others. Blanks at the end of the source are
not shown. -/
structure PointsAt (source : Text) (first count : Nat) (lines : List Line) : Prop where
  place : lines[1]?.map Line.plain =
    some ("   ╭─[input:1:".toList ++ Nat.toDigits 10 (first + 1) ++ [']'])
  shown : lines[3]?.map Line.plain =
    some (" 1 │ ".toList ++ (source.rdropWhile isBlank).map fun c => if isBlank c then ' ' else c)
  marked : ∃ marks, lines[4]?.map Line.plain = some ("   │ ".toList ++ marks) ∧
    ∀ k, (∃ c ∈ marks[k]?, c ≠ ' ') ↔ first ≤ k ∧ k < first + count

end EvalOrder
