import EvalOrder.Checked.Stages
import EvalOrder.Proofs.Faultless.Discovery
import EvalOrder.Proofs.Steps

/-! Masking as a machine runs it. Only levels one step deeper are asked whether they lie inside, so the
question is never put to a level that cannot. -/
namespace EvalOrder.Checked

open EvalOrder.Part Site

theorem holds_eq {level other : Level} (fits : level.height + 1 < wordLimit) :
    holds level other = .ok (level.holds other) := by
  simp only [holds, add_eq fits, bind, Except.bind, Level.holds]
  by_cases deeper : other.height = level.height + 1
  · simp [deeper, contains]
  · simp only [if_neg deeper, beq_false_of_ne deeper, Bool.false_and]
    rfl

theorem foldlM_hide {level : Level} (fits : level.height + 1 < wordLimit) (others : List (Level × Nat))
    (state : Text × List Nat) :
    (others.foldlM (fun state other => do
      let inside ← holds level other.1
      return if inside then Level.hide state other else state) state : Checked _) =
      .ok ((others.filter fun other => level.holds other.1).foldl Level.hide state) := by
  induction others generalizing state with
  | nil => rfl
  | cons other others ih =>
    simp only [List.foldlM_cons, holds_eq fits, bind, Except.bind, pure, Except.pure] at ih ⊢
    rw [ih]
    cases inside : level.holds other.1 <;> simp [inside]

theorem mask_eq (levels : List Level) (place : Nat) {level : Level} (fits : level.height + 1 < wordLimit) :
    mask levels place level = .ok (Level.mask levels place level) := by
  have others : ((if level.height < (levels.head?.map Level.height).getD 0 then (levels.take place).zipIdx
      else []).filter fun other => level.holds other.1) = Level.hidden levels place level := by
    by_cases low : level.height < (levels.head?.map Level.height).getD 0
    · simp [Level.hidden, low]
    · simp [Level.hidden, low]
  have hidden := foldlM_hide fits (if level.height < (levels.head?.map Level.height).getD 0 then
    (levels.take place).zipIdx else []) (level.raw, level.nested)
  rw [others] at hidden
  simp only [mask, hidden]
  rfl

theorem maskAll_eq {levels : List Level} (fits : ∀ level ∈ levels, level.height + 1 < wordLimit) :
    maskAll levels = .ok (EvalOrder.maskAll levels) := by
  refine mapM_eq_ok_iff.mpr (List.ext_getElem (by simp [EvalOrder.maskAll]) ?_)
  intro place inside _
  have short : place < levels.length := by simpa using inside
  have found := item_eq (List.getElem?_eq_getElem short)
  have masked := mask_eq levels place (fits levels[place] (List.getElem_mem short))
  simp [EvalOrder.maskAll, found, bind, Except.bind, masked]

end EvalOrder.Checked
