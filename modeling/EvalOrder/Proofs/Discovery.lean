import EvalOrder.Brackets
import EvalOrder.Proofs.Sites

/-! The scan for parentheses finds the levels of a source: it succeeds on the texts made of parts without a
marker, and on no others, and what it returns are the levels at the sites of those parts, deepest first. -/
namespace EvalOrder

open EvalOrder.Part

theorem Kind.ofChar_of_plain {c : Char} (plain : isParenthesis c = false) (unmarked : c ≠ EvalOrder.marker) :
    Kind.ofChar c = ((Operator.ofChar? c).map Kind.operator).getD .text := by
  rw [Kind.ofChar, if_neg (plain_ne_open plain), if_neg (plain_ne_close plain), if_neg unmarked]

namespace Brackets

theorem read_open (source : Text) (offset : Nat) (b : Brackets) :
    read source offset '(' b = .ok ⟨offset :: b.opened, b.closed⟩ := rfl

theorem read_close (source : Text) (offset start : Nat) (opened : List Nat) (closed : List Level) :
    read source offset ')' ⟨start :: opened, closed⟩ =
      .ok ⟨opened, (Level.opened start (opened.length + 1)).close source offset :: closed⟩ := rfl

theorem read_plain {c : Char} (plain : isParenthesis c = false) (unmarked : c ≠ marker) (source : Text)
    (offset : Nat) (b : Brackets) : read source offset c b = .ok b := by
  rw [read, Kind.ofChar_of_plain plain unmarked]
  cases Operator.ofChar? c <;> rfl

theorem scan_cons {source : Text} {offset : Nat} {c : Char} {t : Text} {b next : Brackets}
    (h : read source offset c b = .ok next) :
    scan source offset (c :: t) b = scan source (offset + c.utf8Size) t next := by
  rw [scan, h]
  rfl

end Brackets

namespace Site

theorem rows_append_perm (n : Nat) (a b : List Site) : (rows n (a ++ b)).Perm (rows n a ++ rows n b) := by
  induction n generalizing a b with
  | zero => exact List.Perm.refl _
  | succ n ih =>
    rw [rows, List.flatMap_append]
    refine ((ih _ _).append_right _).trans ?_
    simp only [rows, List.append_assoc]
    refine List.Perm.append_left _ ?_
    rw [← List.append_assoc, ← List.append_assoc]
    exact List.perm_append_comm.append_right _

theorem rows_cons_perm (n : Nat) (s : Site) (row : List Site) :
    (rows (n + 1) (s :: row)).Perm (s :: (rows n s.children ++ rows (n + 1) row)) := by
  have split := rows_append_perm (n + 1) [s] row
  rw [List.singleton_append] at split
  refine split.trans ?_
  simp only [rows, List.flatMap_cons, List.flatMap_nil, List.append_nil]
  rw [← List.cons_append]
  exact List.Perm.append_right _ (List.perm_append_singleton _ _)

theorem close_eq_level (before inside after : Text) (ps : List Part) (height : Nat)
    (parts : inside = join ps) :
    (Level.opened (Text.size before) (height + 1)).close
        (before ++ ('(' :: (inside ++ [')'])) ++ after) (Text.size before + 1 + Text.size inside) =
      level ⟨Text.size before + 1, height + 1, ps⟩ := by
  subst parts
  have whole := Text.slice_append before (group ps).text after
  rw [size_group] at whole
  simp only [text_group] at whole
  have stop : Text.size before + 1 + Text.size (join ps) + 1 =
      Text.size before + (Text.size (join ps) + 2) := by omega
  simp only [Level.opened, Level.close, level, last, stop, whole, Nat.add_sub_cancel,
    Nat.add_eq_zero_iff, Nat.one_ne_zero, and_false, if_false, text_group]

end Site

open Site

/-- Scanning parts leaves the open parentheses as they are and completes the levels of all groups. -/
theorem scan_join {source : Text} {n : Nat} {ps : List Part} (shallow : depthOf ps ≤ n)
    (unmarked : marker ∉ join ps) (before after : Text) (b : Brackets)
    (here : source = before ++ join ps ++ after) :
    ∃ closed : List Site, closed.Perm (rows n (among (Text.size before) (b.opened.length + 1) ps)) ∧
      Brackets.scan source (Text.size before) (join ps ++ after) b =
        Brackets.scan source (Text.size (before ++ join ps)) after
          ⟨b.opened, closed.map level ++ b.closed⟩ := by
  induction ps using Part.induction generalizing n before after b with
  | nil =>
    refine ⟨[], ?_, by simp⟩
    rw [among, rows_nil]
  | char c plain rest ih =>
    simp only [join_cons, text_char, List.singleton_append, List.mem_cons, not_or] at unmarked here
    obtain ⟨closed, sites, scanned⟩ := ih (n := n) (by simpa [depthOf, depth] using shallow)
      unmarked.2 (before ++ [c]) after b (by simp [here])
    refine ⟨closed, by simpa [among] using sites, ?_⟩
    rw [join_cons, text_char, List.singleton_append, List.cons_append,
      Brackets.scan_cons (Brackets.read_plain plain (Ne.symm unmarked.1) _ _ _)]
    simpa using scanned
  | group inside rest inner tail =>
    obtain ⟨k, rfl⟩ : ∃ k, n = k + 1 := ⟨n - 1, by simp only [depthOf, depth] at shallow; omega⟩
    simp only [depthOf, depth] at shallow
    simp only [join_cons, text_group, List.cons_append, List.append_assoc, List.nil_append,
      List.mem_cons, List.mem_append, not_or] at unmarked here
    have size_open : Text.size (before ++ ['(']) = Text.size before + 1 := by
      rw [Text.size_append]
      rfl
    obtain ⟨closed, sites, scanned⟩ := inner (n := k) (by omega) unmarked.2.1
      (before ++ ['(']) (')' :: (join rest ++ after))
      ⟨Text.size before :: b.opened, b.closed⟩ (by simp [here])
    have size_group' : Text.size (before ++ (group inside).text) =
        Text.size before + 1 + Text.size (join inside) + 1 := by
      rw [Text.size_append, size_group]
      omega
    obtain ⟨later, later_sites, later_scanned⟩ := tail (n := k + 1) (by omega) unmarked.2.2.2
      (before ++ (group inside).text) after
      ⟨b.opened, level ⟨Text.size before + 1, b.opened.length + 1, inside⟩ ::
        (closed.map level ++ b.closed)⟩ (by simp [here])
    refine ⟨later ++ ⟨Text.size before + 1, b.opened.length + 1, inside⟩ :: closed, ?_, ?_⟩
    · rw [among]
      refine List.Perm.trans ?_ (rows_cons_perm _ _ _).symm
      rw [Text.size_append] at later_sites
      rw [size_open] at sites
      refine List.perm_middle.trans (List.Perm.cons _ ?_)
      exact List.perm_append_comm.trans (sites.append later_sites)
    · have close := close_eq_level before (join inside) (join rest ++ after) inside b.opened.length rfl
      have whole : before ++ '(' :: (join inside ++ [')']) ++ (join rest ++ after) = source := by
        rw [here]
        simp
      rw [whole] at close
      have step := Brackets.scan_cons (t := join rest ++ after)
        (Brackets.read_close source (Text.size before + 1 + Text.size (join inside)) (Text.size before)
          b.opened (closed.map level ++ b.closed))
      rw [close] at step
      simp only [join_cons, text_group, List.cons_append, List.append_assoc, List.nil_append]
      rw [Brackets.scan_cons (Brackets.read_open _ _ _)]
      rw [size_open, Text.size_append, size_open] at scanned
      have one : '('.utf8Size = 1 := by decide
      rw [one, scanned, step]
      rw [size_group'] at later_scanned
      have one' : ')'.utf8Size = 1 := by decide
      rw [one', later_scanned]
      simp

theorem Level.order_isLE {a b : Level} :
    (Level.order a b).isLE = true ↔ b.height < a.height ∨ b.height = a.height ∧ a.start ≤ b.start := by
  rw [Level.order, Ordering.isLE_then_iff_or, Nat.compare_eq_lt, Nat.compare_eq_eq, Nat.isLE_compare]

theorem Level.sort_eq_of_perm {levels sorted : List Level} (perm : levels.Perm sorted)
    (order : sorted.Pairwise fun a b => (Level.order a b).isLE = true)
    (distinct : ∀ a ∈ sorted, ∀ b ∈ sorted, a.height = b.height → a.start = b.start → a = b) :
    Level.sort levels = sorted := by
  have merged := List.mergeSort_perm levels fun a b => (Level.order a b).isLE
  refine List.Perm.eq_of_pairwise ?_ ?_ order (merged.trans perm)
  · intro a b ha hb ab ba
    rw [Level.order_isLE] at ab ba
    exact distinct a (perm.subset (merged.subset ha)) b hb (by omega) (by omega)
  · refine List.pairwise_mergeSort ?_ ?_ levels
    · intro a b c ab bc
      rw [Level.order_isLE] at *
      omega
    · intro a b
      rw [Bool.or_eq_true, Level.order_isLE, Level.order_isLE]
      omega

theorem Site.start_lt_of_apart {a b : Site} (h : a.Apart b) : a.level.start < b.level.start := by
  have := a.first_le_last
  simp only [Apart, level] at *
  omega

theorem Site.order_of_precedes {a b : Site} (h : a.Precedes b) :
    (Level.order a.level b.level).isLE = true := by
  rw [Level.order_isLE]
  rcases h with deeper | ⟨same, apart⟩
  · exact .inl deeper
  · exact .inr ⟨same.symm, Nat.le_of_lt (start_lt_of_apart apart)⟩

theorem Site.eq_or_precedes {ps : List Part} {s t : Site} (hs : s ∈ all ps) (ht : t ∈ all ps) :
    s = t ∨ s.Precedes t ∨ t.Precedes s :=
  List.Pairwise.forall_of_forall_of_flip
    (R := fun s t : Site => s = t ∨ s.Precedes t ∨ t.Precedes s) (fun _ _ => .inl rfl)
    ((rows_precedes (isRow_root ps)).imp fun a => .inr (.inl a))
    ((rows_precedes (isRow_root ps)).imp fun a => .inr (.inr a)) hs ht

theorem Site.nodup_all (ps : List Part) : (all ps).Nodup := by
  refine (rows_precedes (isRow_root ps)).imp ?_
  rintro a b (deeper | ⟨_, apart⟩) rfl
  · exact Nat.lt_irrefl _ deeper
  · have := first_le_last a
    unfold Apart at apart
    omega

theorem Site.eq_or_apart_of_height {ps : List Part} {s t : Site} (hs : s ∈ all ps) (ht : t ∈ all ps)
    (heights : s.height = t.height) : s = t ∨ s.Apart t ∨ t.Apart s := by
  rcases eq_or_precedes hs ht with same | (deeper | ⟨_, apart⟩) | (deeper | ⟨_, apart⟩)
  · exact .inl same
  · omega
  · exact .inr (.inl apart)
  · omega
  · exact .inr (.inr apart)

theorem Site.eq_of_start {ps : List Part} {s t : Site} (hs : s ∈ all ps) (ht : t ∈ all ps)
    (heights : s.height = t.height) (starts : s.level.start = t.level.start) : s = t := by
  rcases eq_or_apart_of_height hs ht heights with same | apart | apart
  · exact same
  · have := start_lt_of_apart apart
    omega
  · have := start_lt_of_apart apart
    omega

theorem Site.root_level (ps : List Part) : (root ps).level = Level.outermost (join ps) := by
  simp [root, level, last, Level.outermost]

theorem Level.sort_of_perm {ps : List Part} {levels : List Level} (perm : levels.Perm ((all ps).map level)) :
    Level.sort levels = (all ps).map level := by
  have order : ((all ps).map level).Pairwise fun a b => (Level.order a b).isLE = true :=
    List.pairwise_map.mpr ((rows_precedes (isRow_root ps)).imp Site.order_of_precedes)
  refine Level.sort_eq_of_perm perm order ?_
  intro a ha b hb heights starts
  obtain ⟨s, hs, rfl⟩ := List.mem_map.mp ha
  obtain ⟨t, ht, rfl⟩ := List.mem_map.mp hb
  rw [Site.eq_of_start hs ht heights starts]

theorem levelsOf_join {ps : List Part} (unmarked : marker ∉ join ps) :
    levelsOf (join ps) = .ok ((all ps).map level) := by
  have whole : join ps = [] ++ join ps ++ [] := by simp
  obtain ⟨closed, sites, scanned⟩ := scan_join (Nat.le_refl (depthOf ps)) unmarked [] [] ⟨[], []⟩ whole
  have perm : (Level.outermost (join ps) :: closed.map level).Perm ((all ps).map level) := by
    rw [← root_level, ← List.map_cons]
    refine List.Perm.map _ ?_
    rw [all, rows]
    refine (List.Perm.cons _ ?_).trans (List.perm_append_singleton _ _).symm
    simpa [root, children] using sites
  simp only [List.append_nil, Text.size_nil, List.nil_append] at scanned
  rw [levelsOf, scanned]
  change Except.ok (Level.sort (Level.outermost (join ps) :: closed.map level)) = _
  rw [Level.sort_of_perm perm]

def Closes : Nat → Text → Prop
  | 0, t => ∃ ps, t = join ps
  | n + 1, t => ∃ ps u, t = join ps ++ ')' :: u ∧ Closes n u

theorem closes_plain {n : Nat} {c : Char} {t : Text} (plain : isParenthesis c = false) (h : Closes n t) :
    Closes n (c :: t) := by
  cases n with
  | zero =>
    obtain ⟨ps, rfl⟩ := h
    exact ⟨char c plain :: ps, rfl⟩
  | succ n =>
    obtain ⟨ps, u, rfl, later⟩ := h
    exact ⟨char c plain :: ps, u, rfl, later⟩

theorem closes_open {n : Nat} {t : Text} (h : Closes (n + 1) t) : Closes n ('(' :: t) := by
  obtain ⟨ps, u, rfl, later⟩ := h
  cases n with
  | zero =>
    obtain ⟨qs, rfl⟩ := later
    exact ⟨group ps :: qs, by simp⟩
  | succ n =>
    obtain ⟨qs, v, rfl, last⟩ := later
    exact ⟨group ps :: qs, v, by simp, last⟩

theorem closes_of_scan {source t : Text} {offset : Nat} {b final : Brackets}
    (scanned : Brackets.scan source offset t b = .ok final) (done : final.opened = []) :
    Closes b.opened.length t ∧ marker ∉ t := by
  induction t generalizing offset b with
  | nil =>
    cases Except.ok.inj scanned
    rw [done]
    exact ⟨⟨[], rfl⟩, List.not_mem_nil⟩
  | cons c t ih =>
    by_cases is_open : c = '('
    · subst is_open
      rw [Brackets.scan_cons (Brackets.read_open _ _ _)] at scanned
      obtain ⟨closes, unmarked⟩ := ih scanned
      exact ⟨closes_open closes, List.not_mem_cons_of_ne_of_not_mem (by decide) unmarked⟩
    · by_cases is_close : c = ')'
      · subst is_close
        obtain ⟨opened, closed⟩ := b
        cases opened with
        | nil => cases scanned
        | cons start opened =>
          rw [Brackets.scan_cons (Brackets.read_close _ _ _ _ _)] at scanned
          obtain ⟨closes, unmarked⟩ := ih scanned
          exact ⟨⟨[], t, rfl, closes⟩, List.not_mem_cons_of_ne_of_not_mem (by decide) unmarked⟩
      · by_cases marked : c = marker
        · subst marked
          cases scanned
        · have plain := plain_of_ne is_open is_close
          rw [Brackets.scan_cons (Brackets.read_plain plain marked _ _ _)] at scanned
          obtain ⟨closes, unmarked⟩ := ih scanned
          exact ⟨closes_plain plain closes, List.not_mem_cons_of_ne_of_not_mem (Ne.symm marked) unmarked⟩

/-- Discovery accepts the texts made of parts without a marker, and nothing else. -/
theorem levelsOf_eq_ok_iff {source : Text} {levels : List Level} :
    levelsOf source = .ok levels ↔
      ∃ ps, source = join ps ∧ marker ∉ join ps ∧ levels = (all ps).map level := by
  constructor
  · intro found
    cases scanned : Brackets.scan source 0 source ⟨[], []⟩ with
    | error failure =>
      rw [levelsOf, scanned] at found
      cases found
    | ok final =>
      have finished : ∃ closed, final.finish = .ok closed := by
        cases h : final.finish with
        | ok closed => exact ⟨closed, rfl⟩
        | error failure =>
          rw [levelsOf, scanned] at found
          change (final.finish >>= _) = _ at found
          rw [h] at found
          cases found
      have done : final.opened = [] := by
        obtain ⟨closed, h⟩ := finished
        unfold Brackets.finish at h
        split at h
        · assumption
        · cases h
      obtain ⟨⟨ps, rfl⟩, unmarked⟩ := closes_of_scan scanned done
      rw [levelsOf_join unmarked] at found
      exact ⟨ps, rfl, unmarked, (Except.ok.inj found).symm⟩
  · rintro ⟨ps, rfl, unmarked, rfl⟩
    exact levelsOf_join unmarked

end EvalOrder
