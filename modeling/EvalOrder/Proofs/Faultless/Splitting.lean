import EvalOrder.Checked.Stages
import EvalOrder.Proofs.Faultless.Discovery
import EvalOrder.Proofs.Splitting
import Mathlib.Data.List.Find
import Mathlib.Data.List.Sort

/-! Splitting as a machine runs it, byte by byte. An operand ends at an end of the text or at an operator,
which is a byte of its own, so every operation is cut out between two characters. That no operand ends
before it starts is where the order of the tiers is needed: it makes the operation found at a side the one
that ends there. -/
namespace EvalOrder.Checked

section Marks

variable {t : Text}

theorem exists_byte {i : Nat} (inside : i < Text.size t) :
    ∃ b, (Text.bytes t)[i]? = some b ∧ item (Text.bytes t) i = .ok b := by
  rw [← Text.length_bytes] at inside
  exact ⟨_, List.getElem?_eq_getElem inside, item_eq (List.getElem?_eq_getElem inside)⟩

theorem offset_ne_of_plain {i : Nat} {b : UInt8} (byte : (Text.bytes t)[i]? = some b)
    (plain : Operator.ofByte? b = none) {m : Mark} (member : m ∈ marksOf t) : m.offset ≠ i := by
  rintro rfl
  obtain ⟨b', byte', found⟩ := mem_marksOf.mp member
  obtain rfl : b = b' := Option.some.inj (byte.symm.trans byte')
  rw [plain] at found
  cases found

theorem leftEdge_eq {i : Nat} (inside : i ≤ Text.size t) (fits : Text.size t < wordLimit) :
    leftEdge (Text.bytes t) i = .ok (Precedence.leftEdge (marksOf t) i) := by
  have free : ∀ i ≤ 1, Precedence.leftEdge (marksOf t) i = 0 := by
    intro i low
    have none_before : (marksOf t).filter (Precedence.isBefore i) = [] := by
      refine List.filter_eq_nil_iff.mpr fun m _ hit => ?_
      have := Precedence.isBefore_iff.mp hit
      omega
    rw [Precedence.leftEdge_eq, none_before]
    rfl
  fun_induction leftEdge (Text.bytes t) i with
  | case1 => rw [free 0 (by omega)]
  | case2 => rw [free 1 (by omega)]
  | case3 i ih =>
    obtain ⟨b, byte, read⟩ := exists_byte (t := t) (i := i + 1) (by omega)
    simp only [read, bind, Except.bind]
    cases found : Operator.ofByte? b with
    | none =>
      have same : (marksOf t).filter (Precedence.isBefore (i + 2)) =
          (marksOf t).filter (Precedence.isBefore (i + 1)) := by
        refine List.filter_congr fun m member => Bool.eq_iff_iff.mpr ?_
        have := offset_ne_of_plain byte found member
        rw [Precedence.isBefore_iff, Precedence.isBefore_iff]
        omega
      rw [if_neg (by simp), ih (by omega), Precedence.leftEdge_eq, Precedence.leftEdge_eq, same]
    | some o =>
      have member : ⟨i + 1, o⟩ ∈ (marksOf t).filter (Precedence.isBefore (i + 2)) :=
        List.mem_filter.mpr ⟨mem_marksOf.mpr ⟨b, byte, found⟩, Precedence.isBefore_iff.mpr (by simp)⟩
      rw [if_pos (by simp), add_eq (by omega), Precedence.leftEdge_eq]
      cases last : ((marksOf t).filter (Precedence.isBefore (i + 2))).getLast? with
      | none =>
        rw [List.getLast?_eq_none_iff.mp last] at member
        cases member
      | some w =>
        have after := ((ordered_marksOf t).filter _).le_getLast last member
        have before := Precedence.isBefore_iff.mp (List.mem_filter.mp (List.mem_of_getLast? last)).2
        have here : w.offset = i + 1 := by
          simp only at after
          omega
        simp [here]

theorem rightEdge_eq {left i : Nat} (whole : left + i = Text.size t) (positive : 0 < i) :
    rightEdge (Text.bytes t) left i =
      .ok ((((marksOf t).find? (i ≤ ·.offset)).map (·.offset - 1)).getD (Text.size t - 1)) := by
  fun_induction rightEdge (Text.bytes t) left i with
  | case1 i =>
    have none_after : (marksOf t).find? (fun m => decide (i ≤ m.offset)) = none := by
      refine List.find?_eq_none.mpr fun m member hit => ?_
      have := lt_size_of_mem member
      have := of_decide_eq_true hit
      omega
    rw [none_after, Text.length_bytes, subtract_eq (by omega)]
    rfl
  | case2 left i ih =>
    obtain ⟨b, byte, read⟩ := exists_byte (t := t) (i := i) (by omega)
    simp only [read, bind, Except.bind]
    cases found : Operator.ofByte? b with
    | none =>
      have same : (marksOf t).find? (fun m => decide (i ≤ m.offset)) =
          (marksOf t).find? (fun m => decide (i + 1 ≤ m.offset)) := by
        refine List.find?_congr fun m member => ?_
        have := offset_ne_of_plain byte found member
        exact decide_eq_decide.mpr (by omega)
      rw [if_neg (by simp), ih (by omega) (by omega), same]
    | some o =>
      have member : ⟨i, o⟩ ∈ marksOf t := mem_marksOf.mpr ⟨b, byte, found⟩
      rw [if_pos (by simp), subtract_eq positive]
      cases first : (marksOf t).find? (fun m => decide (i ≤ m.offset)) with
      | none => exact absurd (decide_eq_true (Nat.le_refl i)) (List.find?_eq_none.mp first _ member)
      | some w =>
        have before := (ordered_marksOf t).le_of_find? first member (decide_eq_true (Nat.le_refl i))
        have after : i ≤ w.offset :=
          of_decide_eq_true (List.find?_some (p := fun m : Mark => decide (i ≤ m.offset)) first)
        have here : w.offset = i := Nat.le_antisymm before after
        simp [here]

end Marks

section Operations

variable {made : List Operation} {offset : Nat}

theorem endingBefore?_eq (fits : ∀ o ∈ made, o.stop + 1 < wordLimit) :
    endingBefore? made offset = .ok (EvalOrder.endingBefore? made offset) := by
  have looking : ∀ xs : List Operation, (∀ o ∈ xs, o.stop + 1 < wordLimit) →
      endingBefore?.look offset xs = .ok (xs.find? fun o => o.stop + 1 == offset) := by
    intro xs short
    induction xs with
    | nil => rfl
    | cons o xs ih =>
      simp only [endingBefore?.look, add_eq (short o List.mem_cons_self), bind, Except.bind]
      by_cases here : o.stop + 1 = offset
      · rw [if_pos here, List.find?_cons_of_pos (by simpa using here)]
      · rw [if_neg here, List.find?_cons_of_neg (by simpa using here),
          ih fun o member => short o (List.mem_cons_of_mem _ member)]
  rw [endingBefore?, looking _ fun o member => fits o (List.mem_reverse.mp member),
    EvalOrder.endingBefore?, List.getLast?_filter]

theorem startingAfter?_eq (fits : offset + 1 < wordLimit) :
    startingAfter? made offset = .ok (EvalOrder.startingAfter? made offset) := by
  have looking : ∀ xs : List Operation,
      startingAfter?.look offset xs = .ok (xs.find? fun o => o.start == offset + 1) := by
    intro xs
    induction xs with
    | nil => rfl
    | cons o xs ih =>
      simp only [startingAfter?.look, add_eq fits, bind, Except.bind]
      by_cases here : o.start = offset + 1
      · rw [if_pos here, List.find?_cons_of_pos (by simpa using here)]
      · rw [if_neg here, List.find?_cons_of_neg (by simpa using here), ih]
  rw [startingAfter?, looking, EvalOrder.startingAfter?, List.getLast?_filter]

theorem make_of_edges {t middle : Text} {m : Mark} {start stop : Nat} (fits : Text.size t < wordLimit)
    (short : ∀ o ∈ made, o.stop + 1 < wordLimit) (inner : m.offset + 1 < Text.size t)
    (left : ((EvalOrder.endingBefore? made m.offset).map Operation.start).getD
      (Precedence.leftEdge (marksOf t) m.offset) = start)
    (right : ((EvalOrder.startingAfter? made m.offset).map Operation.stop).getD
      (Precedence.rightEdge (marksOf t) (Text.size t) m.offset) = stop)
    (taken : slice t start stop = .ok middle) :
    make t made m.offset m.operator = .ok ⟨start, stop, m.operator, middle, made.length⟩ := by
  subst left right
  have next : m.offset + 1 < wordLimit := by omega
  have first : leftEdge (Text.bytes t) m.offset = .ok (Precedence.leftEdge (marksOf t) m.offset) :=
    leftEdge_eq (by omega) fits
  have last : rightEdge (Text.bytes t) (Text.size t - (m.offset + 1)) (m.offset + 1) =
      .ok (Precedence.rightEdge (marksOf t) (Text.size t) m.offset) :=
    rightEdge_eq (by omega) (by omega)
  simp only [make, adjoining, endingBefore?_eq short, startingAfter?_eq next, bind, Except.bind, pure,
    Except.pure, first, add_eq next, last]
  generalize EvalOrder.endingBefore? made m.offset = before at taken ⊢
  generalize EvalOrder.startingAfter? made m.offset = after at taken ⊢
  cases before <;> cases after <;> simp_all

end Operations

section Steps

open Precedence (bound)

variable {t : Text} {done rest : List Mark} {m : Mark}

theorem make_eq (fits : Text.size t < wordLimit)
    (split : inOrder (marksOf t) 0 (Text.size t) = done ++ m :: rest) :
    make t (done.zipIdx.map (bound t (marksOf t))) m.offset m.operator =
      .ok (bound t (marksOf t) (m, done.length)) := by
  have ordered := ordered_marksOf t
  have member : m ∈ inOrder (marksOf t) 0 (Text.size t) := by
    rw [split]
    exact List.mem_append_right _ List.mem_cons_self
  obtain ⟨hm, above, below⟩ := mem_inOrder.mp member
  have before := Precedence.before_of_inOrder ordered split
  have short : ∀ o ∈ done.zipIdx.map (bound t (marksOf t)), o.stop + 1 < wordLimit := by
    intro o ho
    obtain ⟨p, _, rfl⟩ := List.mem_map.mp ho
    have := (reach_reaches ordered 0 (Text.size t) p.1).stop_le_hi
    simp only [bound]
    omega
  have left := Precedence.start_of_made ordered before member
  have right := Precedence.stop_of_made ordered (fun _ => lt_size_of_mem) before member
  have reaches := reach_reaches ordered 0 (Text.size t) m
  have ends := reaches.lt_stop (by omega)
  have bounded := reaches.stop_le_hi
  obtain ⟨middle, cut⟩ := slice_of_reach member
  have last : (reach (marksOf t) 0 (Text.size t) m).stop - 1 + 1 =
      (reach (marksOf t) 0 (Text.size t) m).stop := by
    omega
  have taken := slice_eq (by omega) (last.symm ▸ cut)
  rw [make_of_edges fits short below left right taken, bound, Text.slice, cut]
  simp

def remaining (t : Text) (tier : Tier) (i : Nat) : List Mark :=
  (marksOf t).filter fun m => i ≤ m.offset && m.offset + 1 < Text.size t && m.operator.tier == tier

theorem mem_remaining {tier : Tier} {i : Nat} :
    m ∈ remaining t tier i ↔
      m ∈ marksOf t ∧ i ≤ m.offset ∧ m.offset + 1 < Text.size t ∧ m.operator.tier = tier := by
  simp only [remaining, List.mem_filter, Bool.and_eq_true, decide_eq_true_eq, beq_iff_eq, and_assoc]

theorem inOrder_eq_remaining (t : Text) :
    inOrder (marksOf t) 0 (Text.size t) = Tier.all.flatMap fun tier => remaining t tier 1 := rfl

theorem remaining_of_ne {tier : Tier} {i : Nat}
    (other : ∀ m ∈ marksOf t, m.operator.tier = tier → m.offset ≠ i) :
    remaining t tier i = remaining t tier (i + 1) := by
  refine List.filter_congr fun m member => Bool.eq_iff_iff.mpr ?_
  have apart := other m member
  simp only [Bool.and_eq_true, decide_eq_true_eq, beq_iff_eq]
  constructor
  · rintro ⟨⟨above, below⟩, same⟩
    have := apart same
    exact ⟨⟨by omega, below⟩, same⟩
  · rintro ⟨⟨above, below⟩, same⟩
    exact ⟨⟨by omega, below⟩, same⟩

theorem remaining_of_mem (member : m ∈ marksOf t) (below : m.offset + 1 < Text.size t) :
    remaining t m.operator.tier m.offset = m :: remaining t m.operator.tier (m.offset + 1) := by
  have ordered : Ordered (remaining t m.operator.tier m.offset) := (ordered_marksOf t).filter _
  have later : Ordered (m :: remaining t m.operator.tier (m.offset + 1)) :=
    List.pairwise_cons.mpr ⟨fun q hq => (mem_remaining.mp hq).2.1, (ordered_marksOf t).filter _⟩
  have irreflexive : Std.Irrefl fun a b : Mark => a.offset < b.offset := ⟨fun _ => Nat.lt_irrefl _⟩
  have antisymmetric : Std.Antisymm fun a b : Mark => a.offset < b.offset :=
    ⟨fun _ _ before after => absurd after (Nat.lt_asymm before)⟩
  refine List.Pairwise.eq_of_mem_iff ordered later fun q => ?_
  rw [List.mem_cons, mem_remaining, mem_remaining]
  constructor
  · rintro ⟨hq, above, inner, same⟩
    by_cases here : q.offset = m.offset
    · exact .inl ((ordered_marksOf t).eq_of_offset hq member here)
    · exact .inr ⟨hq, by omega, inner, same⟩
  · rintro (rfl | ⟨hq, above, inner, same⟩)
    · exact ⟨member, Nat.le_refl _, below, rfl⟩
    · exact ⟨hq, Nat.le_of_succ_le above, inner, same⟩

theorem take_from (fits : Text.size t < wordLimit) (tier : Tier) (n i : Nat)
    (reading : n = Text.size t - 1 - i)
    (split : inOrder (marksOf t) 0 (Text.size t) = done ++ (remaining t tier i ++ rest)) :
    (List.range' i n).foldlM (fun made i => do
      let b ← item (Text.bytes t) i
      match (Operator.ofByte? b).filter (·.tier == tier) with
      | some o => return made ++ [← make t made i o]
      | none => return made) (done.zipIdx.map (bound t (marksOf t))) =
      (.ok ((done ++ remaining t tier i).zipIdx.map (bound t (marksOf t))) : Checked _) := by
  induction n generalizing i done with
  | zero =>
    have none_left : remaining t tier i = [] := by
      refine List.filter_eq_nil_iff.mpr fun m _ hit => ?_
      simp only [Bool.and_eq_true, decide_eq_true_eq, beq_iff_eq] at hit
      omega
    rw [none_left, List.append_nil]
    rfl
  | succ n ih =>
    obtain ⟨b, byte, read⟩ := exists_byte (t := t) (i := i) (by omega)
    simp only [List.range'_succ, List.foldlM_cons, read, bind, Except.bind] at ih ⊢
    cases found : (Operator.ofByte? b).filter (·.tier == tier) with
    | none =>
      have same : remaining t tier i = remaining t tier (i + 1) := by
        refine remaining_of_ne fun m member tiered here => ?_
        obtain ⟨b', byte', symbol⟩ := mem_marksOf.mp member
        subst here
        obtain rfl : b = b' := Option.some.inj (byte.symm.trans byte')
        simp [symbol, tiered] at found
      rw [same] at split ⊢
      exact ih (i + 1) (by omega) split
    | some o =>
      obtain ⟨symbol, tiered⟩ := Option.filter_eq_some_iff.mp found
      obtain rfl : o.tier = tier := by simpa using tiered
      have first := remaining_of_mem (m := ⟨i, o⟩) (mem_marksOf.mpr ⟨b, byte, symbol⟩) (by simp only; omega)
      rw [first] at split ⊢
      have grown : done.zipIdx.map (bound t (marksOf t)) ++ [bound t (marksOf t) (Mark.mk i o, done.length)] =
          (done ++ [Mark.mk i o]).zipIdx.map (bound t (marksOf t)) := by
        simp [List.zipIdx_append]
      have later : inOrder (marksOf t) 0 (Text.size t) =
          (done ++ [Mark.mk i o]) ++ (remaining t o.tier (i + 1) ++ rest) := by simpa using split
      have rest_taken := ih (i + 1) (by omega) later
      simp only [make_eq fits split, pure, Except.pure, grown] at rest_taken ⊢
      simpa using rest_taken

end Steps

theorem operationsOf_eq {t : Text} (fits : Text.size t < wordLimit) :
    operationsOf t = .ok (EvalOrder.operationsOf t) := by
  have taken : ∀ (tiers : List Tier) (done : List Mark),
      inOrder (marksOf t) 0 (Text.size t) = done ++ tiers.flatMap (remaining t · 1) →
      tiers.foldlM (takeTier t) (done.zipIdx.map (Precedence.bound t (marksOf t))) =
        .ok ((done ++ tiers.flatMap (remaining t · 1)).zipIdx.map (Precedence.bound t (marksOf t))) := by
    intro tiers
    induction tiers with
    | nil => simp [pure, Except.pure]
    | cons tier tiers ih =>
      intro done split
      rw [List.flatMap_cons] at split ⊢
      have tier_taken : takeTier t (done.zipIdx.map (Precedence.bound t (marksOf t))) tier =
          .ok ((done ++ remaining t tier 1).zipIdx.map (Precedence.bound t (marksOf t))) :=
        take_from fits tier (Text.size t - 2) 1 (by omega) split
      rw [← List.append_assoc] at split ⊢
      rw [List.foldlM_cons, tier_taken]
      exact ih _ split
  rw [operationsOf_eq_bindings, Precedence.bindings_eq]
  exact taken Tier.all [] (inOrder_eq_remaining t)

theorem split_eq {level : Level} (fits : Text.size level.masked < wordLimit) :
    split level = .ok level.split := by
  simp only [split, operationsOf_eq fits]
  rfl

end EvalOrder.Checked
