import EvalOrder.Plan
import EvalOrder.Theory.Binding
import EvalOrder.Theory.Placement
import Mathlib

/-! Which operators a level has to evaluate, counted in the source: the bytes of which it is the innermost
level. Those at the two ends of its interior have room for one operand only, and are left out. No masked
text is asked. -/
namespace EvalOrder

namespace Level

def Encloses (level : Level) (q : Nat) : Prop :=
  level.interior.start ≤ q ∧ q < level.interior.stop

def InnermostAt (levels : List Level) (level : Level) (q : Nat) : Prop :=
  level.Encloses q ∧ ∀ other ∈ levels, other.Encloses q → other = level ∨ other.Surrounds level

structure Owns (source : Text) (levels : List Level) (level : Level) (places : List Nat) : Prop where
  mem : ∀ q, q ∈ places ↔ (∃ o, OperatorAt source q o) ∧ level.InnermostAt levels q ∧
    level.interior.start < q ∧ q + 1 < level.interior.stop
  order : places.Pairwise (BindsEarlier source)

/-- The level has one operation for each own operator. Operation `k` is the one that the order of
evaluation puts in that place, in the masked text as in the source. -/
structure SplitsOwn (source : Text) (levels : List Level) (level : Level) (places : List Nat) : Prop where
  owns : level.Owns source levels places
  length : level.operations.length = places.length
  order : ∃ inMasked, Bound level.masked inMasked level.operations
  operator : ∀ (k q : Nat) (o : Operation), places[k]? = some q → level.operations[k]? = some o →
    OperatorAt source q o.operator

end Level

/-- Every operator has one level to be planned in, and there is planned once. -/
structure Plan.Complete (source : Text) (p : Plan) : Prop where
  owner : ∀ q o, OperatorAt source q o →
    ∃! place : Nat, ∃ level : Level, p.levels[place]? = some level ∧ level.InnermostAt p.levels q
  split : ∀ level ∈ p.levels, ∃ places, level.SplitsOwn source p.levels places
  count : p.steps.length = (p.levels.map fun level => level.operations.length).sum

end EvalOrder
