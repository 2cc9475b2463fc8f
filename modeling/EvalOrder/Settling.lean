import EvalOrder.Brackets
import EvalOrder.Expansion

/-! Searching comes to an end. A source with levels holds no marker, so what is put in for an alias has
none either, and each search takes at least one away. -/
namespace EvalOrder

theorem parts_of_firstAlias? {t before name after : Text}
    (found : firstAlias? t = some (before, name, after)) :
    t = before ++ name ++ after ∧ marker ∈ name := by
  induction t generalizing before name after with
  | nil => cases found
  | cons c t ih =>
    rw [firstAlias?] at found
    split at found
    · rename_i opens
      rw [Bool.and_eq_true, beq_iff_eq] at opens
      cases found
      refine ⟨?_, by simp [opens.1]⟩
      rw [List.nil_append, List.cons_append, List.takeWhile_append_dropWhile]
    · obtain ⟨⟨b, n, a⟩, later, same⟩ := Option.map_eq_some_iff.mp found
      cases same
      obtain ⟨rfl, opened⟩ := ih later
      exact ⟨rfl, opened⟩

theorem search_cases (levels : List Level) (level : Level) (t : Text) :
    search levels level t = .done (.ok t) ∨
      (∃ name, search levels level t = .done (.error (level.unresolved name))) ∨
      ∃ before name after, ∃ other ∈ levels, t = before ++ name ++ after ∧ marker ∈ name ∧
        search levels level t = .again (before ++ other.raw ++ after) := by
  cases found : firstAlias? t with
  | none => exact .inl (by rw [search, found])
  | some parts =>
    obtain ⟨before, name, after⟩ := parts
    cases named : level.named? levels name with
    | none => exact .inr (.inl ⟨name, by simp only [search, found, named]⟩)
    | some raw =>
      have lookup := named
      simp only [Level.named?, Option.bind_eq_bind, Option.pure_def, Option.bind_eq_some_iff,
        Option.some.injEq] at lookup
      obtain ⟨_, _, place, _, other, there, rfl⟩ := lookup
      obtain ⟨split, opened⟩ := parts_of_firstAlias? found
      refine .inr (.inr ⟨before, name, after, other, List.mem_of_getElem? there, split, opened, ?_⟩)
      simp only [search, found, named]

section Searches

variable {levels : List Level}

theorem expandWithin_isSome (unmarked : ∀ other ∈ levels, marker ∉ other.raw) (level : Level)
    {searches : Nat} {t : Text} (enough : t.count marker < searches) :
    (expandWithin levels level searches t).isSome := by
  induction searches generalizing t with
  | zero => exact absurd enough (Nat.not_lt_zero _)
  | succ searches ih =>
    rw [expandWithin]
    rcases search_cases levels level t
      with done | ⟨_, stuck⟩ | ⟨before, name, after, other, listed, rfl, opened, again⟩
    · rw [done]
      rfl
    · rw [stuck]
      rfl
    · have taken := List.count_pos_iff.mpr opened
      have free := List.count_eq_zero_of_not_mem (unmarked other listed)
      rw [again]
      refine ih ?_
      simp only [List.count_append] at enough ⊢
      omega

theorem bind_isSome {α β : Type} {x : Searched α} {f : α → Searched β} (here : x.run.isSome)
    (later : ∀ a, x.run = some (.ok a) → (f a).run.isSome) : (x >>= f).run.isSome := by
  obtain ⟨r, settled⟩ := Option.isSome_iff_exists.mp here
  rw [ExceptT.run_bind, settled]
  cases r with
  | error failure => rfl
  | ok a => exact later a settled

theorem mapM_isSome {α β : Type} {f : α → Searched β} {xs : List α} (each : ∀ x ∈ xs, (f x).run.isSome) :
    (xs.mapM f).run.isSome := by
  induction xs with
  | nil => rfl
  | cons x xs ih =>
    obtain ⟨here, later⟩ := List.forall_mem_cons.mp each
    rw [List.mapM_cons]
    exact bind_isSome here fun y _ => bind_isSome (ih later) fun ys _ => rfl

theorem count_lt_searchBound (t : Text) : t.count marker < searchBound t :=
  Nat.lt_add_of_pos_right (by decide)

theorem stepsOf_isSome (unmarked : ∀ other ∈ levels, marker ∉ other.raw) (level : Level) :
    (stepsOf levels level).run.isSome := by
  refine mapM_isSome fun o _ => ?_
  rw [expand, ExceptT.run_mk]
  exact expandWithin_isSome unmarked level (count_lt_searchBound o.text)

end Searches

section Sources

variable {source : Text}

theorem mem_of_mem_slice {t : Text} {start stop : Nat} {c : Char} (member : c ∈ Text.slice t start stop) :
    c ∈ t := by
  rw [Text.slice] at member
  cases cut : Text.slice? t start stop with
  | none =>
    rw [cut] at member
    cases member
  | some middle =>
    obtain ⟨u, v, rfl, _⟩ := Text.slice?_eq_some_iff.mp cut
    rw [cut] at member
    exact List.mem_append_left _ (List.mem_append_right _ member)

theorem unmarked_of_read {offset : Nat} {c : Char} {b next : Brackets}
    (step : Brackets.read source offset c b = .ok next)
    (covered : ∀ level ∈ b.closed, ∀ d ∈ level.raw, d ∈ source) :
    c ≠ marker ∧ ∀ level ∈ next.closed, ∀ d ∈ level.raw, d ∈ source := by
  have kind : Kind.ofChar c ≠ .marker := by
    intro marked
    rw [Brackets.read, marked] at step
    cases step
  refine ⟨fun marked => kind (by rw [marked]; decide), ?_⟩
  unfold Brackets.read at step
  split at step
  · cases step
    exact covered
  · split at step
    · cases step
    · cases step
      exact List.forall_mem_cons.mpr ⟨fun d member => mem_of_mem_slice member, covered⟩
  · contradiction
  · cases step
    exact covered

theorem unmarked_of_scan {offset : Nat} {rest : Text} {b final : Brackets}
    (scanned : Brackets.scan source offset rest b = .ok final)
    (covered : ∀ level ∈ b.closed, ∀ d ∈ level.raw, d ∈ source) :
    marker ∉ rest ∧ ∀ level ∈ final.closed, ∀ d ∈ level.raw, d ∈ source := by
  induction rest generalizing offset b with
  | nil =>
    cases scanned
    exact ⟨List.not_mem_nil, covered⟩
  | cons c rest ih =>
    rw [Brackets.scan] at scanned
    cases step : Brackets.read source offset c b with
    | error failure =>
      rw [step] at scanned
      cases scanned
    | ok next =>
      rw [step] at scanned
      obtain ⟨other, covered⟩ := unmarked_of_read step covered
      obtain ⟨unmarked, covered⟩ := ih scanned covered
      refine ⟨fun member => ?_, covered⟩
      rcases List.mem_cons.mp member with same | later
      · exact other same.symm
      · exact unmarked later

theorem unmarked_of_levelsOf {levels : List Level} (found : levelsOf source = .ok levels) :
    ∀ level ∈ levels, marker ∉ level.raw := by
  rw [levelsOf] at found
  cases scanned : Brackets.scan source 0 source ⟨[], []⟩ with
  | error failure =>
    rw [scanned] at found
    cases found
  | ok final =>
    obtain ⟨unmarked, covered⟩ := unmarked_of_scan scanned fun _ none => absurd none List.not_mem_nil
    obtain ⟨opened, closed⟩ := final
    rw [scanned] at found
    cases opened with
    | cons start opened => cases found
    | nil =>
      cases found
      intro level listed
      rcases List.mem_cons.mp (List.mem_mergeSort.mp listed) with rfl | inner
      · exact unmarked
      · exact fun member => unmarked (covered level inner marker member)

end Sources

end EvalOrder
