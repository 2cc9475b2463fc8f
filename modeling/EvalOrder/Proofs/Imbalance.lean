import EvalOrder.Proofs.Pairs
import EvalOrder.Theory.Imbalance

/-! Main statement: discovery fails at the first byte that offends, and with it every longer source; where
none does, it names the last parenthesis left open, and one closing parenthesis each repairs the source. A
text without a stray parenthesis is parts, with an open parenthesis between them wherever one is left
open. -/
namespace EvalOrder

open EvalOrder.Part Site

/-- No part from the front closes more parentheses than it opens. -/
def NoStray (t : Text) : Prop :=
  ∀ u, u <+: t → u.count ')' ≤ u.count '('

section Stray

variable {t u before after : Text}

theorem count_close (t : Text) :
    (t ++ [')']).count '(' = t.count '(' ∧ (t ++ [')']).count ')' = t.count ')' + 1 := by
  simp

theorem count_open (t u : Text) :
    (t ++ '(' :: u).count '(' = t.count '(' + u.count '(' + 1 ∧
      (t ++ '(' :: u).count ')' = t.count ')' + u.count ')' := by
  simp [Nat.add_assoc]

theorem NoStray.of_prefix (free : NoStray t) (front : u <+: t) : NoStray u :=
  fun v hv => free v (hv.trans front)

theorem NoStray.append (left : NoStray t) (right : NoStray u) : NoStray (t ++ u) := by
  intro v hv
  rcases List.prefix_or_prefix_of_prefix hv (List.prefix_append t u) with within | ⟨w, rfl⟩
  · exact left v within
  · have here := left t (List.prefix_refl t)
    have beyond := right w ((List.prefix_append_right_inj t).mp hv)
    simp only [List.count_append]
    omega

theorem noStray_join (ps : List Part) : NoStray (join ps) :=
  (balanced_iff_falls.mp (balanced_join ps)).2

theorem noStray_open (ps : List Part) : NoStray ('(' :: join ps) := by
  have closed := noStray_join [group ps]
  exact closed.of_prefix ⟨[')'], by simp⟩

theorem noStray_or_first (t : Text) :
    NoStray t ∨ ∃ inside after, t = inside ++ ')' :: after ∧ Balanced inside := by
  induction t using List.reverseRecOn with
  | nil => exact .inl fun u hu => by rw [List.prefix_nil.mp hu]; exact Nat.le_refl _
  | append_singleton t c ih =>
    rcases ih with free | ⟨inside, after, rfl, balanced⟩
    · have here := free t (List.prefix_refl t)
      by_cases more : (t ++ [c]).count ')' ≤ (t ++ [c]).count '('
      · refine .inl fun u hu => ?_
        rcases List.prefix_concat_iff.mp hu with rfl | shorter
        · exact more
        · exact free u shorter
      · have closing : c = ')' := by
          by_contra other
          have same : (t ++ [c]).count ')' = t.count ')' := by simp [other]
          have grown := (List.sublist_append_left t [c]).count_le '('
          omega
        subst closing
        have counted := count_close t
        exact .inr ⟨t, [], rfl, balanced_iff_falls.mpr ⟨by omega, free⟩⟩
    · exact .inr ⟨inside, after ++ [c], by simp, balanced⟩

theorem not_noStray_behind {ps : List Part} (split : join ps = before ++ '(' :: after) : ¬ NoStray after := by
  intro free
  obtain ⟨total, front⟩ := balanced_iff_falls.mp (balanced_join ps)
  have left := front before (split ▸ List.prefix_append _ _)
  have right := free after (List.prefix_refl _)
  have counted := count_open before after
  rw [split] at total
  omega

theorem unmatched_iff {start : Nat} : Unmatched t start ↔
    ∃ before after, t = before ++ '(' :: after ∧ Text.size before = start ∧ NoStray after := by
  constructor
  · rintro ⟨⟨before, after, split, size⟩, alone⟩
    rcases noStray_or_first after with free | ⟨inside, rest, rfl, balanced⟩
    · exact ⟨before, after, split, size, free⟩
    · exact absurd ⟨before, inside, rest, by simpa using split, balanced, size, rfl⟩ (alone _)
  · rintro ⟨before, after, split, size, free⟩
    refine ⟨⟨before, after, split, size⟩, ?_⟩
    rintro stop ⟨before', inside, rest, split', balanced, size', _⟩
    have same : before ++ '(' :: after = before' ++ '(' :: (inside ++ ')' :: rest) := by
      rw [← split, split']
      simp
    obtain ⟨_, tail⟩ := Text.append_inj_of_size same (size.trans size'.symm)
    obtain rfl := (List.cons.inj tail).2
    have closed := free (inside ++ [')']) ⟨rest, by simp⟩
    have total := balanced.1
    have counted := count_close inside
    omega

end Stray

/-- The parentheses that a text leaves open, the last one first. -/
inductive Opens : Text → List Nat → Prop
  | closed (ps : List Part) : Opens (join ps) []
  | opened {front : Text} {starts : List Nat} (before : Opens front starts) (ps : List Part) :
    Opens (front ++ '(' :: join ps) (Text.size front :: starts)

namespace Opens

variable {t : Text} {starts : List Nat} {start : Nat}

theorem parts (h : Opens t starts) (qs : List Part) : Opens (t ++ join qs) starts := by
  cases h with
  | closed ps =>
    rw [← join_append]
    exact closed _
  | opened before ps =>
    rw [List.append_assoc, List.cons_append, ← join_append]
    exact before.opened _

theorem push (h : Opens t starts) : Opens (t ++ ['(']) (Text.size t :: starts) :=
  h.opened []

theorem pop (h : Opens t (start :: starts)) : Opens (t ++ [')']) starts := by
  cases h with
  | opened before ps => simpa using before.parts [group ps]

theorem count (h : Opens t starts) : t.count '(' = t.count ')' + starts.length := by
  induction h with
  | closed ps =>
    have total := (balanced_join ps).1
    simp only [List.length_nil]
    omega
  | @opened front starts before ps ih =>
    have total := (balanced_join ps).1
    have counted := count_open front (join ps)
    rw [List.length_cons]
    omega

theorem lt_size (h : Opens t starts) : ∀ start ∈ starts, start < Text.size t := by
  induction h with
  | closed _ => exact fun _ h => absurd h List.not_mem_nil
  | opened _ ps ih =>
    intro start member
    have one : '('.utf8Size = 1 := by decide
    simp only [Text.size_append, Text.size_cons, one]
    rcases List.mem_cons.mp member with rfl | earlier
    · omega
    · have := ih start earlier
      omega

theorem order (h : Opens t starts) : starts.Pairwise (· > ·) := by
  induction h with
  | closed _ => exact List.Pairwise.nil
  | opened before _ ih => exact List.pairwise_cons.mpr ⟨before.lt_size, ih⟩

theorem mem_iff (h : Opens t starts) : start ∈ starts ↔ Unmatched t start := by
  rw [unmatched_iff]
  induction h with
  | closed ps =>
    constructor
    · exact fun impossible => absurd impossible List.not_mem_nil
    · rintro ⟨before, after, split, _, free⟩
      exact absurd free (not_noStray_behind split)
  | @opened front starts _ ps ih =>
    rw [List.mem_cons, ih]
    constructor
    · rintro (rfl | ⟨before, after, rfl, size, free⟩)
      · exact ⟨front, join ps, rfl, rfl, noStray_join ps⟩
      · exact ⟨before, after ++ '(' :: join ps, by simp, size, free.append (noStray_open ps)⟩
    · rintro ⟨before, after, split, size, free⟩
      -- it stands behind the last one left open, where all is closed; is that one; or stands before it
      rcases List.append_eq_append_iff.mp split with ⟨u, rfl, behind⟩ | ⟨u, rfl, behind⟩
      · cases u with
        | nil => exact .inl (by simpa using size.symm)
        | cons c u =>
          obtain ⟨rfl, within⟩ := List.cons.inj behind
          exact absurd free (not_noStray_behind within)
      · cases u with
        | nil => exact .inl (by simpa using size.symm)
        | cons c u =>
          obtain ⟨rfl, rfl⟩ := List.cons.inj behind
          exact .inr ⟨before, u, rfl, size, free.of_prefix (List.prefix_append _ _)⟩

theorem leftOpen (h : Opens t starts) : LeftOpen t starts :=
  ⟨fun _ => h.mem_iff, h.order⟩

theorem close (h : Opens t starts) {j : Nat} (enough : j ≤ starts.length) :
    Opens (t ++ List.replicate j ')') (starts.drop j) := by
  induction j with
  | zero => simpa using h
  | succ j ih =>
    have before := ih (Nat.le_of_succ_le enough)
    rw [List.drop_eq_getElem_cons enough] at before
    rw [List.replicate_succ', ← List.append_assoc]
    exact before.pop

theorem scan (h : Opens t starts) (unmarked : marker ∉ t) {source rest : Text} (here : source = t ++ rest) :
    ∃ closed, Brackets.scan source 0 source ⟨[], []⟩ =
      Brackets.scan source (Text.size t) rest ⟨starts, closed⟩ := by
  induction h generalizing rest with
  | closed ps =>
    obtain ⟨sites, _, scanned⟩ := scan_join (Nat.le_refl (depthOf ps)) unmarked [] rest ⟨[], []⟩ here
    rw [← here] at scanned
    exact ⟨_, scanned⟩
  | @opened front starts _ ps ih =>
    simp only [List.mem_append, List.mem_cons, not_or] at unmarked
    have split : source = front ++ '(' :: (join ps ++ rest) := by simp [here]
    have split' : source = front ++ ['('] ++ join ps ++ rest := by simp [here]
    obtain ⟨closed, scanned⟩ := ih unmarked.1 split
    obtain ⟨sites, _, later⟩ := scan_join (Nat.le_refl (depthOf ps)) unmarked.2.2 (front ++ ['(']) rest
      ⟨Text.size front :: starts, closed⟩ split'
    have whole : front ++ ['('] ++ join ps = front ++ '(' :: join ps := by simp
    have next : Text.size front + '('.utf8Size = Text.size (front ++ ['(']) := by simp
    rw [whole] at later
    rw [scanned, Brackets.scan_cons (Brackets.read_open _ _ _), next, later]
    exact ⟨_, rfl⟩

theorem levelsOf_eq (h : Opens t (start :: starts)) (unmarked : marker ∉ t) :
    levelsOf t = .error (.ofByte .unclosed start) := by
  obtain ⟨closed, scanned⟩ := h.scan unmarked (List.append_nil t).symm
  rw [levelsOf, scanned]
  rfl

theorem levelsOf_ok (h : Opens t []) (unmarked : marker ∉ t) : ∃ levels, levelsOf t = .ok levels := by
  cases h with
  | closed ps => exact ⟨_, levelsOf_join unmarked⟩

theorem unmarked_close (unmarked : marker ∉ t) (j : Nat) : marker ∉ t ++ List.replicate j ')' := by
  intro member
  rcases List.mem_append.mp member with within | closing
  · exact unmarked within
  · exact absurd (List.eq_of_mem_replicate closing) (by decide)

theorem levelsOf_close (h : Opens t starts) (unmarked : marker ∉ t) {j : Nat}
    (found : starts[j]? = some start) :
    levelsOf (t ++ List.replicate j ')') = .error (.ofByte .unclosed start) := by
  obtain ⟨inside, rfl⟩ := List.getElem?_eq_some_iff.mp found
  have closed := h.close (Nat.le_of_lt inside)
  rw [List.drop_eq_getElem_cons inside] at closed
  exact closed.levelsOf_eq (unmarked_close unmarked j)

theorem levelsOf_close_all (h : Opens t starts) (unmarked : marker ∉ t) :
    ∃ levels, levelsOf (t ++ List.replicate starts.length ')') = .ok levels := by
  have closed := h.close (Nat.le_refl _)
  rw [List.drop_length] at closed
  exact closed.levelsOf_ok (unmarked_close unmarked _)

end Opens

theorem exists_opens {t : Text} (free : NoStray t) : ∃ starts, Opens t starts := by
  induction t using List.reverseRecOn with
  | nil => exact ⟨[], .closed []⟩
  | append_singleton t c ih =>
    obtain ⟨starts, before⟩ := ih (free.of_prefix (List.prefix_append _ _))
    by_cases opening : c = '('
    · subst opening
      exact ⟨_, before.push⟩
    · by_cases closing : c = ')'
      · subst closing
        cases starts with
        | nil =>
          have level := before.count
          have here := free _ (List.prefix_refl _)
          have counted := count_close t
          rw [List.length_nil] at level
          omega
        | cons start starts => exact ⟨starts, before.pop⟩
      · exact ⟨starts, before.parts [char c (plain_of_ne opening closing)]⟩

def OffendsFirst (source : Text) (cause : Cause) (p : Nat) : Prop :=
  ∃ before c after, source = before ++ c :: after ∧ Text.size before = p ∧ marker ∉ before ∧ NoStray before ∧
    (cause = .reserved ∧ c = marker ∨ cause = .stray ∧ c = ')' ∧ before.count ')' = before.count '(')

section Offence

variable {source : Text} {cause : Cause} {p : Nat}

theorem OffendsFirst.offends (first : OffendsFirst source cause p) : Offends source cause p := by
  obtain ⟨before, c, after, split, size, _, _, marked | ⟨stray, rfl, level⟩⟩ := first
  · exact ⟨before, c, after, split, size, .inl marked⟩
  · exact ⟨before, ')', after, split, size, .inr ⟨stray, rfl, by simp [level]⟩⟩

theorem OffendsFirst.append (first : OffendsFirst source cause p) (more : Text) :
    OffendsFirst (source ++ more) cause p := by
  obtain ⟨before, c, after, rfl, rest⟩ := first
  exact ⟨before, c, after ++ more, by simp, rest⟩

theorem not_offends {t : Text} (unmarked : marker ∉ t) (free : NoStray t) : ¬ Offends t cause p := by
  rintro ⟨before, c, after, rfl, _, ⟨_, rfl⟩ | ⟨_, _, more⟩⟩
  · exact unmarked (List.mem_append_right _ List.mem_cons_self)
  · exact absurd (free (before ++ [c]) ⟨after, by simp⟩) (Nat.not_le.mpr more)

theorem OffendsFirst.least (first : OffendsFirst source cause p) {other : Cause} {q : Nat}
    (offends : Offends source other q) : p ≤ q := by
  obtain ⟨before, c, after, split, rfl, unmarked, free, _⟩ := first
  obtain ⟨before', c', after', split', rfl, offence⟩ := offends
  apply Nat.le_of_not_lt
  intro earlier
  have left : before <+: source := ⟨_, split.symm⟩
  have right : before' ++ [c'] <+: source := ⟨after', by simp [split']⟩
  rcases List.prefix_or_prefix_of_prefix right left with ⟨rest, within⟩ | shorter
  · have within_front : Offends before other (Text.size before') :=
      ⟨before', c', rest, by simp [← within], rfl, offence⟩
    exact not_offends unmarked free within_front
  · rcases List.prefix_concat_iff.mp shorter with rfl | ⟨rest, rfl⟩
    · have at_end : Offends (before' ++ [c']) other (Text.size before') :=
        ⟨before', c', [], rfl, rfl, offence⟩
      exact not_offends unmarked free at_end
    · rw [Text.size_append] at earlier
      omega

theorem OffendsFirst.levelsOf_eq (first : OffendsFirst source cause p) :
    levelsOf source = .error (.ofByte cause p) := by
  obtain ⟨before, c, after, split, rfl, unmarked, free, offence⟩ := first
  obtain ⟨starts, opens⟩ := exists_opens free
  obtain ⟨closed, scanned⟩ := opens.scan unmarked split
  rw [levelsOf, scanned, Brackets.scan]
  rcases offence with ⟨rfl, rfl⟩ | ⟨rfl, rfl, level⟩
  · rfl
  · have none : starts = [] := by
      have counted := opens.count
      exact List.eq_nil_of_length_eq_zero (by omega)
    subst none
    rfl

theorem noStray_or_offendsFirst_stray {t : Text} (unmarked : marker ∉ t) :
    NoStray t ∨ ∃ p, OffendsFirst t .stray p := by
  rcases noStray_or_first t with free | ⟨inside, after, rfl, balanced⟩
  · exact .inl free
  · have before : marker ∉ inside := fun member => unmarked (List.mem_append_left _ member)
    have free := (balanced_iff_falls.mp balanced).2
    exact .inr ⟨_, inside, ')', after, rfl, rfl, before, free, .inr ⟨rfl, rfl, balanced.1⟩⟩

theorem exists_offendsFirst (source : Text) :
    marker ∉ source ∧ NoStray source ∨ ∃ cause p, OffendsFirst source cause p := by
  by_cases marked : marker ∈ source
  · obtain ⟨before, after, rfl, unmarked⟩ := List.eq_append_cons_of_mem marked
    rcases noStray_or_offendsFirst_stray unmarked with free | ⟨p, first⟩
    · exact .inr ⟨.reserved, _, before, marker, after, rfl, rfl, unmarked, free, .inl ⟨rfl, rfl⟩⟩
    · exact .inr ⟨_, p, first.append _⟩
  · rcases noStray_or_offendsFirst_stray marked with free | ⟨p, first⟩
    · exact .inl ⟨marked, free⟩
    · exact .inr ⟨_, p, first⟩

end Offence

theorem levelsOf_imbalance {source : Text} {failure : Failure} (failed : levelsOf source = .error failure) :
    Imbalance source failure := by
  rcases exists_offendsFirst source with ⟨unmarked, free⟩ | ⟨cause, p, first⟩
  · have none : ¬ ∃ cause p, Offends source cause p :=
      fun ⟨_, _, offends⟩ => not_offends unmarked free offends
    obtain ⟨starts, opens⟩ := exists_opens free
    refine ⟨fun some_byte => absurd some_byte none, fun _ => ⟨starts, opens.leftOpen, ?_,
      fun j start found => opens.levelsOf_close unmarked found, opens.levelsOf_close_all unmarked⟩⟩
    cases starts with
    | nil =>
      obtain ⟨levels, found⟩ := opens.levelsOf_ok unmarked
      cases found.symm.trans failed
    | cons start starts =>
      have named := opens.levelsOf_eq unmarked
      rw [failed, Except.error.injEq] at named
      rw [named]
      rfl
  · have named := first.levelsOf_eq
    rw [failed, Except.error.injEq] at named
    refine ⟨fun _ => ⟨cause, p, first.offends, fun _ _ other => first.least other, named, fun more => ?_⟩,
      fun none => absurd ⟨cause, p, first.offends⟩ none⟩
    rw [named]
    exact (first.append more).levelsOf_eq

theorem levelsOf_imbalance_both : levelsOf "(é((a)".toList = .error (.ofByte .unclosed 3) ∧
    Imbalance "(é((a)".toList (.ofByte .unclosed 3) ∧
      levelsOf "a)é@".toList = .error (.ofByte .stray 1) ∧ Imbalance "a)é@".toList (.ofByte .stray 1) := by
  have left_open : levelsOf "(é((a)".toList = .error (.ofByte .unclosed 3) := by cbv
  have stray : levelsOf "a)é@".toList = .error (.ofByte .stray 1) := by cbv
  exact ⟨left_open, levelsOf_imbalance left_open, stray, levelsOf_imbalance stray⟩

end EvalOrder
