import EvalOrder.Brackets
import EvalOrder.Theory.Structure

/-! Why a source is rejected, read off its characters. A byte that offends does so whatever is written
behind it; what is only left open can be closed. -/
namespace EvalOrder

/-- Byte `p` is a marker, or a closing parenthesis with which more are closed than were opened up to there. -/
def Offends (source : Text) (cause : Cause) (p : Nat) : Prop :=
  ∃ before c after, source = before ++ c :: after ∧ Text.size before = p ∧
    (cause = .reserved ∧ c = marker ∨
      cause = .stray ∧ c = ')' ∧ (before ++ [c]).count '(' < (before ++ [c]).count ')')

def Unmatched (source : Text) (start : Nat) : Prop :=
  (∃ before after, source = before ++ '(' :: after ∧ Text.size before = start) ∧
    ∀ stop, ¬ Pair source start stop

structure LeftOpen (source : Text) (starts : List Nat) : Prop where
  mem : ∀ start, start ∈ starts ↔ Unmatched source start
  order : starts.Pairwise (· > ·)

structure Imbalance (source : Text) (failure : Failure) : Prop where
  offended : (∃ cause p, Offends source cause p) →
    ∃ cause p, Offends source cause p ∧ (∀ other q, Offends source other q → p ≤ q) ∧
      failure = .ofByte cause p ∧ ∀ more, levelsOf (source ++ more) = .error failure
  unclosed : (¬ ∃ cause p, Offends source cause p) →
    ∃ starts, LeftOpen source starts ∧ starts.head?.map (.ofByte .unclosed) = some failure ∧
      (∀ (j start : Nat), starts[j]? = some start →
        levelsOf (source ++ List.replicate j ')') = .error (.ofByte .unclosed start)) ∧
      ∃ levels, levelsOf (source ++ List.replicate starts.length ')') = .ok levels

end EvalOrder
