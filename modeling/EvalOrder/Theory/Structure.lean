import EvalOrder.Level
import EvalOrder.Token

/-! The structure of a source, said of its characters alone and without any scan: balance, matching
pairs of parentheses, and the one seam at which an alias cannot be told from what follows it. -/
namespace EvalOrder

def Balanced (t : Text) : Prop :=
  t.count ')' = t.count '(' ∧ ∀ n ≤ t.length, (t.take n).count ')' ≤ (t.take n).count '('

instance (t : Text) : Decidable (Balanced t) :=
  inferInstanceAs (Decidable (_ ∧ _))

def Pair (source : Text) (start stop : Nat) : Prop :=
  ∃ before inside after, source = before ++ '(' :: inside ++ ')' :: after ∧ Balanced inside ∧
    Text.size before = start ∧ start + 1 + Text.size inside = stop

def DigitAfterClose (source : Text) : Prop :=
  ∃ before digit after, source = before ++ ')' :: digit :: after ∧ digit.isDigit = true

def Level.interior (level : Level) : Span :=
  ⟨if level.height = 0 then level.start else level.start + 1, level.stop⟩

end EvalOrder
