import EvalOrder.Proofs.Pieces
import EvalOrder.Proofs.Restoration
import EvalOrder.Theory.Grammar
import Mathlib.Data.List.Chain

/-! Well-formed expressions, by what may stand next to what. With an operator set before and behind them, the
parts of each level follow each other by one rule for pairs. Unlike the grammar, the rule can be cut: what
stands between two operators keeps it. Main statement: the rule, in all groups, is the grammar. -/
namespace EvalOrder

open EvalOrder.Part

inductive Shape where
  | sign
  | letter
  | group

def Shape.Follows : Shape → Shape → Prop
  | .sign, .sign => False
  | .letter, .group => False
  | .group, .letter => False
  | .group, .group => False
  | _, _ => True

namespace Shape

theorem eq_sign_of_group {x : Shape} (h : Follows .group x) : x = .sign := by
  cases x with
  | sign => rfl
  | letter => exact h.elim
  | group => exact h.elim

theorem eq_letter_of_letter {x : Shape} (h : Follows .letter x) (not_sign : x ≠ .sign) : x = .letter := by
  cases x with
  | sign => exact absurd rfl not_sign
  | letter => rfl
  | group => exact h.elim

end Shape

namespace Part

def shape : Part → Shape
  | char c _ => if (Operator.ofChar? c).isSome then .sign else .letter
  | group _ => .group

def edged (ps : List Part) : List Shape :=
  .sign :: ps.map shape ++ [.sign]

def Proper (ps : List Part) : Prop :=
  List.IsChain Shape.Follows (edged ps)

/-- Parts that are proper, and so in all groups. -/
inductive Formed : List Part → Prop where
  | intro {ps : List Part} : Proper ps → (∀ inside ∈ groups ps, Formed inside) → Formed ps

theorem Formed.proper {ps : List Part} (formed : Formed ps) : Proper ps := by
  cases formed with
  | intro proper _ => exact proper

theorem Formed.inner {ps : List Part} (formed : Formed ps) : ∀ inside ∈ groups ps, Formed inside := by
  cases formed with
  | intro _ inner => exact inner

theorem shape_symbol (o : Operator) (plain : isParenthesis o.symbol = false) :
    (char o.symbol plain).shape = .sign := by
  rw [shape, Operator.ofChar?_symbol]
  rfl

theorem exists_symbol {p : Part} (sign : p.shape = .sign) :
    ∃ o plain, p = char (Operator.symbol o) plain := by
  cases p with
  | char c plain =>
    cases found : Operator.ofChar? c with
    | none => simp [shape, found] at sign
    | some o =>
      have := Operator.ofChar?_eq_some_iff.mp found
      subst this
      exact ⟨o, plain, rfl⟩
  | group inside => cases sign

theorem edged_append (ps qs : List Part) (sign : Part) (is_sign : sign.shape = .sign) :
    edged (ps ++ sign :: qs) = (.sign :: ps.map shape) ++ .sign :: (qs.map shape ++ [.sign]) := by
  simp [edged, is_sign]

theorem proper_append {ps qs : List Part} {sign : Part} (is_sign : sign.shape = .sign) :
    Proper (ps ++ sign :: qs) ↔ Proper ps ∧ Proper qs := by
  rw [Proper, edged_append ps qs sign is_sign, List.isChain_split]
  exact Iff.rfl

theorem not_proper_nil : ¬ Proper [] := by
  intro h
  exact (List.isChain_cons_cons.mp h).1

section Ends

variable {ps : List Part} {q w : Mark}

theorem left_edge {start : Nat} (h : start = 0 ∨ ∃ w ∈ signs 0 ps, w.offset + 1 = start) :
    ∃ u, .sign :: (ps.take start).map shape = u ++ [.sign] := by
  rcases h with rfl | ⟨w, hw, rfl⟩
  · exact ⟨[], rfl⟩
  · obtain ⟨front, back, plain, rfl, place⟩ := sign_at hw
    rw [Nat.zero_add] at place
    refine ⟨.sign :: front.map shape, ?_⟩
    rw [← place, List.take_append, List.take_of_length_le (Nat.le_succ _), Nat.add_sub_cancel_left,
      List.map_append]
    simp [shape_symbol]

theorem right_edge {stop : Nat} (h : stop = ps.length ∨ ∃ w ∈ signs 0 ps, w.offset = stop) :
    ∃ v, (ps.drop stop).map shape ++ [.sign] = .sign :: v := by
  rcases h with rfl | ⟨w, hw, rfl⟩
  · exact ⟨[], by simp⟩
  · obtain ⟨front, back, plain, rfl, place⟩ := sign_at hw
    rw [Nat.zero_add] at place
    refine ⟨back.map shape ++ [.sign], ?_⟩
    rw [← place, List.drop_left]
    simp [shape_symbol]

theorem proper_cutOut (proper : Proper ps) {span : Span} (order : span.start ≤ span.stop)
    (start : span.start = 0 ∨ ∃ w ∈ signs 0 ps, w.offset + 1 = span.start)
    (stop : span.stop = ps.length ∨ ∃ w ∈ signs 0 ps, w.offset = span.stop) : Proper (cutOut ps span) := by
  obtain ⟨u, left⟩ := left_edge start
  obtain ⟨v, right⟩ := right_edge stop
  refine List.IsChain.infix proper ⟨u, v, ?_⟩
  have whole : edged ps = (.sign :: (ps.take span.start).map shape) ++ (cutOut ps span).map shape ++
      ((ps.drop span.stop).map shape ++ [.sign]) := by
    conv => lhs; rw [cutOut_split ps order]
    simp [edged]
  rw [whole, left, right]
  simp [edged]

theorem Proper.ends (proper : Proper ps) (hq : q ∈ signs 0 ps) : q.offset ≠ 0 ∧ q.offset + 1 ≠ ps.length := by
  obtain ⟨front, back, plain, rfl, place⟩ := sign_at hq
  obtain ⟨left, right⟩ := (proper_append (shape_symbol _ plain)).mp proper
  rw [Nat.zero_add] at place
  constructor
  · intro first
    rw [List.length_eq_zero_iff.mp (place.trans first)] at left
    exact not_proper_nil left
  · intro last
    rw [List.length_append, List.length_cons] at last
    rw [List.length_eq_zero_iff.mp (by omega : back.length = 0)] at right
    exact not_proper_nil right

theorem Proper.apart (proper : Proper ps) (hw : w ∈ signs 0 ps) (hq : q ∈ signs 0 ps) :
    w.offset + 1 ≠ q.offset := by
  obtain ⟨front, back, plain, rfl, place⟩ := sign_at hq
  have left := ((proper_append (shape_symbol _ plain)).mp proper).1
  rw [Nat.zero_add] at place
  rw [signs_append, Nat.zero_add] at hw
  rcases List.mem_append.mp hw with before | after
  · rw [← place]
    exact (left.ends before).2
  · have := (signs_bounds after).1
    omega

theorem span_ends {span : Span} (member : span ∈ spans ps) :
    (span.start = 0 ∨ ∃ w ∈ signs 0 ps, w.offset + 1 = span.start) ∧
      (span.stop = ps.length ∨ ∃ w ∈ signs 0 ps, w.offset = span.stop) := by
  obtain ⟨m, _, rfl⟩ := List.mem_map.mp member
  have reaches := reach_reaches (signs_ordered 0 ps) 0 ps.length m
  constructor
  · rcases reaches.start_at with edge | ⟨w, hw, _, _, _, edge⟩
    · exact .inl edge
    · exact .inr ⟨w, hw, edge⟩
  · rcases reaches.stop_at with edge | ⟨w, hw, _, _, _, edge⟩
    · exact .inl edge
    · exact .inr ⟨w, hw, edge⟩

theorem Proper.free (proper : Proper ps) {span : Span} (member : span ∈ spans ps) :
    (∀ q ∈ signs 0 ps, q.offset ≠ span.start) ∧ ∀ q ∈ signs 0 ps, q.offset + 1 ≠ span.stop := by
  obtain ⟨start, stop⟩ := span_ends member
  constructor
  · intro q hq
    rcases start with edge | ⟨w, hw, edge⟩
    · rw [edge]
      exact (proper.ends hq).1
    · rw [← edge]
      exact (proper.apart hw hq).symm
  · intro q hq
    rcases stop with edge | ⟨w, hw, edge⟩
    · rw [edge]
      exact (proper.ends hq).2
    · rw [← edge]
      exact proper.apart hq hw

end Ends

theorem groups_cutOut {ps : List Part} {span : Span} (order : span.start ≤ span.stop) {inside : List Part}
    (member : inside ∈ groups (cutOut ps span)) : inside ∈ groups ps := by
  rw [cutOut_split ps order, groups_append, groups_append]
  exact List.mem_append_left _ (List.mem_append_right _ member)

theorem Formed.cutOut {ps : List Part} (formed : Formed ps) {span : Span} (member : span ∈ spans ps) :
    Formed (cutOut ps span) := by
  have order := (span_order member).1
  have ends := span_ends member
  exact .intro (proper_cutOut formed.proper order ends.1 ends.2) fun inside hinside =>
    formed.inner inside (groups_cutOut order hinside)

theorem digitFirst_of_chain {ps : List Part}
    (chain : List.IsChain Shape.Follows (.group :: (ps.map shape ++ [.sign]))) :
    digitFirst (join ps) = false := by
  cases ps with
  | nil => rfl
  | cons p ps =>
    obtain ⟨o, plain, rfl⟩ := exists_symbol (Shape.eq_sign_of_group (List.isChain_cons_cons.mp chain).1)
    change o.symbol.isDigit = false
    cases o <;> decide

theorem Proper.clear {ps : List Part} (proper : Proper ps) : Clear ps := by
  have general : ∀ (qs : List Part) (x : Shape),
      List.IsChain Shape.Follows (x :: (qs.map shape ++ [.sign])) → Clear qs := by
    intro qs
    induction qs with
    | nil => exact fun _ _ => trivial
    | cons p qs ih =>
      intro x chain
      have tail := (List.isChain_cons_cons.mp chain).2
      cases p with
      | char c plain => exact ih _ tail
      | group inside => exact ⟨digitFirst_of_chain tail, ih _ tail⟩
  exact general ps .sign proper

end Part

theorem Kind.ofChar_eq_text {c : Char} :
    Kind.ofChar c = .text ↔ isParenthesis c = false ∧ c ≠ EvalOrder.marker ∧ Operator.ofChar? c = none := by
  constructor
  · intro letter
    have plain : isParenthesis c = false := by
      refine plain_of_ne ?_ ?_
      · rintro rfl
        exact absurd letter (by decide)
      · rintro rfl
        exact absurd letter (by decide)
    have unmarked : c ≠ EvalOrder.marker := by
      rintro rfl
      exact absurd letter (by decide)
    rw [Kind.ofChar_of_plain plain unmarked] at letter
    refine ⟨plain, unmarked, ?_⟩
    cases found : Operator.ofChar? c with
    | none => rfl
    | some o =>
      rw [found] at letter
      cases letter
  · rintro ⟨plain, unmarked, none⟩
    rw [Kind.ofChar_of_plain plain unmarked, none]
    rfl

namespace Part

theorem exists_letters {t : Text} (letters : ∀ c ∈ t, Kind.ofChar c = .text) :
    ∃ ps, join ps = t ∧ groups ps = [] ∧ ∀ p ∈ ps, p.shape = .letter := by
  induction t with
  | nil => exact ⟨[], rfl, rfl, fun _ h => absurd h List.not_mem_nil⟩
  | cons c t ih =>
    obtain ⟨ps, rfl, none, all⟩ := ih fun d hd => letters d (List.mem_cons_of_mem _ hd)
    obtain ⟨plain, _, letter⟩ := Kind.ofChar_eq_text.mp (letters c List.mem_cons_self)
    refine ⟨char c plain :: ps, rfl, none, ?_⟩
    intro p hp
    rcases List.mem_cons.mp hp with rfl | later
    · simp [shape, letter]
    · exact all p later

theorem chain_letters {ps : List Part} (all : ∀ p ∈ ps, p.shape = .letter) :
    List.IsChain Shape.Follows (.letter :: (ps.map shape ++ [.sign])) := by
  induction ps with
  | nil => exact List.isChain_cons_cons.mpr ⟨trivial, List.isChain_singleton _⟩
  | cons p ps ih =>
    rw [List.map_cons, all p List.mem_cons_self]
    exact List.isChain_cons_cons.mpr ⟨trivial, ih fun q hq => all q (List.mem_cons_of_mem _ hq)⟩

theorem proper_letters {ps : List Part} (some_part : ps ≠ []) (all : ∀ p ∈ ps, p.shape = .letter) :
    Proper ps := by
  cases ps with
  | nil => exact absurd rfl some_part
  | cons p ps =>
    rw [Proper, edged, List.map_cons, all p List.mem_cons_self]
    exact List.isChain_cons_cons.mpr ⟨trivial, chain_letters fun q hq => all q (List.mem_cons_of_mem _ hq)⟩

theorem proper_group (inside : List Part) : Proper [group inside] :=
  List.isChain_cons_cons.mpr ⟨trivial, List.isChain_cons_cons.mpr ⟨trivial, List.isChain_singleton _⟩⟩

theorem letters_or_group {ps : List Part} (proper : Proper ps) (no_sign : ∀ p ∈ ps, p.shape ≠ .sign) :
    ps ≠ [] ∧ (∀ p ∈ ps, p.shape = .letter) ∨ ∃ inside, ps = [group inside] := by
  have letters : ∀ qs : List Part, (∀ p ∈ qs, p.shape ≠ .sign) →
      List.IsChain Shape.Follows (.letter :: (qs.map shape ++ [.sign])) → ∀ p ∈ qs, p.shape = .letter := by
    intro qs
    induction qs with
    | nil => exact fun _ _ p hp => absurd hp List.not_mem_nil
    | cons p qs ih =>
      intro no_sign chain
      obtain ⟨next, tail⟩ := List.isChain_cons_cons.mp chain
      have letter := Shape.eq_letter_of_letter next (no_sign p List.mem_cons_self)
      rw [letter] at tail
      intro r hr
      rcases List.mem_cons.mp hr with rfl | later
      · exact letter
      · exact ih (fun x hx => no_sign x (List.mem_cons_of_mem _ hx)) tail r later
  cases ps with
  | nil => exact absurd proper not_proper_nil
  | cons p ps =>
    have tail := (List.isChain_cons_cons.mp proper).2
    have rest_no_sign : ∀ r ∈ ps, r.shape ≠ .sign := fun r hr => no_sign r (List.mem_cons_of_mem _ hr)
    cases p with
    | char c plain =>
      have letter : (char c plain).shape = .letter := by
        by_cases sign : (Operator.ofChar? c).isSome = true
        · exact absurd (if_pos sign) (no_sign _ List.mem_cons_self)
        · exact if_neg sign
      rw [letter] at tail
      refine .inl ⟨List.cons_ne_nil _ _, ?_⟩
      intro r hr
      rcases List.mem_cons.mp hr with rfl | later
      · exact letter
      · exact letters ps rest_no_sign tail r later
    | group inside =>
      cases ps with
      | nil => exact .inr ⟨inside, rfl⟩
      | cons r ps =>
        have sign := Shape.eq_sign_of_group (List.isChain_cons_cons.mp tail).1
        exact absurd sign (rest_no_sign r List.mem_cons_self)

theorem text_of_letter {c : Char} {plain : isParenthesis c = false} (letter : (char c plain).shape = .letter)
    (unmarked : c ≠ marker) : Kind.ofChar c = .text := by
  refine Kind.ofChar_eq_text.mpr ⟨plain, unmarked, ?_⟩
  cases found : Operator.ofChar? c with
  | none => rfl
  | some o => simp [shape, found] at letter

theorem texts_of_letters {ps : List Part} (all : ∀ p ∈ ps, p.shape = .letter) (unmarked : marker ∉ join ps) :
    ∀ c ∈ join ps, Kind.ofChar c = .text := by
  induction ps with
  | nil => exact fun _ h => absurd h List.not_mem_nil
  | cons p ps ih =>
    rw [join_cons, List.mem_append, not_or] at unmarked
    have letter := all p List.mem_cons_self
    cases p with
    | char c plain =>
      intro d hd
      rcases List.mem_cons.mp hd with rfl | later
      · exact text_of_letter letter (ne_marker_of_not_mem_text unmarked.1)
      · exact ih (fun q hq => all q (List.mem_cons_of_mem _ hq)) unmarked.2 d later
    | group inside => cases letter

/-- Proper parts whose groups are expressions are one: split at any operator, down to letters or one group. -/
theorem expression_of_proper {n : Nat} {ps : List Part} (short : ps.length ≤ n) (proper : Proper ps)
    (unmarked : marker ∉ join ps) (inner : ∀ inside ∈ groups ps, Expression (join inside)) :
    Expression (join ps) := by
  induction n generalizing ps with
  | zero =>
    rw [List.length_eq_zero_iff.mp (Nat.le_zero.mp short)] at proper
    exact absurd proper not_proper_nil
  | succ n ih =>
    by_cases sign : ∃ p ∈ ps, p.shape = .sign
    · obtain ⟨p, hp, is_sign⟩ := sign
      obtain ⟨front, back, rfl⟩ := List.append_of_mem hp
      obtain ⟨o, plain, rfl⟩ := exists_symbol is_sign
      obtain ⟨left, right⟩ := (proper_append is_sign).mp proper
      rw [List.length_append, List.length_cons] at short
      rw [groups_append] at inner
      rw [join_append, join_cons, List.mem_append, List.mem_append, not_or, not_or] at unmarked
      rw [join_append, join_cons]
      exact .joined o
        (ih (by omega) left unmarked.1 fun inside h => inner inside (List.mem_append_left _ h))
        (ih (by omega) right unmarked.2.2 fun inside h => inner inside (List.mem_append_right _ h))
    · have no_sign : ∀ p ∈ ps, p.shape ≠ .sign := fun p hp is_sign => sign ⟨p, hp, is_sign⟩
      rcases letters_or_group proper no_sign with ⟨some_part, all⟩ | ⟨inside, rfl⟩
      · refine .operand ?_ (texts_of_letters all unmarked)
        intro empty
        have := size_join_pos some_part
        rw [empty] at this
        exact Nat.lt_irrefl 0 this
      · rw [join_cons, join_nil, List.append_nil]
        exact .parenthesized (inner inside List.mem_cons_self)

theorem expression_of_formed {ps : List Part} (formed : Formed ps) (unmarked : marker ∉ join ps) :
    Expression (join ps) := by
  induction formed with
  | @intro ps proper _ ih =>
    refine expression_of_proper (Nat.le_refl _) proper unmarked fun inside hinside => ih inside hinside ?_
    intro marked
    refine unmarked ((text_infix_of_mem_groups hinside).subset ?_)
    rw [text_group]
    exact List.mem_cons_of_mem _ (List.mem_append_left _ marked)

theorem plain_symbol (o : Operator) : isParenthesis o.symbol = false := by
  cases o <;> decide

theorem formed_of_expression {t : Text} (expression : Expression t) :
    ∃ ps, t = join ps ∧ marker ∉ t ∧ Formed ps := by
  induction expression with
  | @operand t some_char letters =>
    obtain ⟨ps, rfl, none, all⟩ := exists_letters letters
    refine ⟨ps, rfl, fun marked => absurd (letters _ marked) (by decide), ?_⟩
    have some_part : ps ≠ [] := by
      rintro rfl
      exact some_char rfl
    refine .intro (proper_letters some_part all) fun inside h => ?_
    rw [none] at h
    cases h
  | parenthesized _ ih =>
    obtain ⟨ps, rfl, unmarked, formed⟩ := ih
    refine ⟨[group ps], by simp, ?_, .intro (proper_group ps) fun inside h => ?_⟩
    · simp only [List.cons_append, List.mem_cons, List.mem_append, List.not_mem_nil, or_false, not_or]
      exact ⟨by decide, unmarked, by decide⟩
    · rw [List.mem_singleton.mp h]
      exact formed
  | joined o _ _ left right =>
    obtain ⟨ps, rfl, left_unmarked, left⟩ := left
    obtain ⟨qs, rfl, right_unmarked, right⟩ := right
    refine ⟨ps ++ char o.symbol (plain_symbol o) :: qs, by simp, ?_, .intro ?_ fun inside h => ?_⟩
    · rw [List.mem_append, List.mem_cons, not_or, not_or]
      exact ⟨left_unmarked, by cases o <;> decide, right_unmarked⟩
    · exact (proper_append (shape_symbol o _)).mpr ⟨left.proper, right.proper⟩
    · rw [groups_append] at h
      rcases List.mem_append.mp h with h | h
      · exact left.inner inside h
      · exact right.inner inside h

theorem Formed.site {ps : List Part} (formed : Formed ps) {s : Site} (member : s ∈ Site.all ps) :
    Formed s.inside := by
  refine Site.forall_all (motive := fun d => Formed d.inside) formed ?_ member
  intro r formed_around c hc
  exact formed_around.inner _ (Site.children_bounds hc).2.2.2

end Part

end EvalOrder
