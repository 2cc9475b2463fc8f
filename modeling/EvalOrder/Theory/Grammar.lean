import EvalOrder.Token

/-! Well-formed expressions: operands, expressions in parentheses, and two expressions joined by an
operator. Every such text has a plan; not every text with a plan is one. -/
namespace EvalOrder

inductive Expression : Text → Prop where
  | operand {t : Text} : t ≠ [] → (∀ c ∈ t, Kind.ofChar c = .text) → Expression t
  | parenthesized {t : Text} : Expression t → Expression ('(' :: t ++ [')'])
  | joined {t u : Text} (o : Operator) : Expression t → Expression u →
      Expression (t ++ o.symbol :: u)

end EvalOrder
