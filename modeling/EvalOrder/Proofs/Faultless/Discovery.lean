import EvalOrder.Checked.Stages
import EvalOrder.Proofs.Scanning
import Mathlib.Data.List.Perm.Basic

/-! Discovery as a machine runs it. The machine keeps all levels in one list and writes into it by place;
it finds every place, cuts every raw text between two characters, and no sum leaves a word. -/
namespace EvalOrder.Checked

open EvalOrder.Part Site

/-- A run that meets no fault, whatever its answer. -/
def faultless {α : Type} (answer : Except Failure α) : CheckedRun α :=
  ExceptT.mk (.ok answer)

theorem lift_bind {α β : Type} {x : Checked α} {a : α} {f : α → CheckedRun β} (done : x = .ok a) :
    ((x : CheckedRun α) >>= f) = f a := by
  subst done
  rfl

theorem add_eq {a b : Nat} (fits : a + b < wordLimit) : add a b = .ok (a + b) := if_pos fits

theorem subtract_eq {a b : Nat} (enough : b ≤ a) : subtract a b = .ok (a - b) := if_pos enough

theorem item_eq {α : Type} {xs : List α} {i : Nat} {x : α} (found : xs[i]? = some x) : item xs i = .ok x := by
  rw [item, found]

theorem slice_eq {t middle : Text} {start last : Nat} (fits : last + 1 < wordLimit)
    (cut : Text.slice? t start (last + 1) = some middle) : slice t start last = .ok middle := by
  simp only [slice, add_eq fits, bind, Except.bind, cut]

theorem failAt_eq {α : Type} {cause : Cause} {offset : Nat} (fits : offset + 1 < wordLimit) :
    (failAt cause offset : CheckedRun α) = faultless (.error (.ofByte cause offset)) := by
  rw [failAt, lift_bind (add_eq fits)]
  rfl

namespace Brackets

def stillOpen : List Nat → List Level
  | [] => []
  | start :: opened => Level.opened start (opened.length + 1) :: stillOpen opened

theorem length_stillOpen (opened : List Nat) : (stillOpen opened).length = opened.length := by
  induction opened with
  | nil => rfl
  | cons start opened ih => simp [stillOpen, ih]

/-- The machine holds the levels of the scan, the open ones at places it knows. -/
structure Mirrors (source : Text) (b : EvalOrder.Brackets) (c : Brackets) : Prop where
  perm : c.levels.Perm (Level.outermost source :: (b.closed ++ stillOpen b.opened))
  places : c.opened.map (c.levels[·]?) = (stillOpen b.opened).map some
  distinct : c.opened.Nodup

namespace Mirrors

variable {source : Text} {b : EvalOrder.Brackets} {c : Brackets}

theorem length (h : Mirrors source b c) : c.opened.length = b.opened.length := by
  have lengths := congrArg List.length h.places
  simpa [length_stillOpen] using lengths

theorem lt_length (h : Mirrors source b c) {place : Nat} (member : place ∈ c.opened) :
    place < c.levels.length := by
  have found : c.levels[place]? ∈ (stillOpen b.opened).map some := by
    rw [← h.places]
    exact List.mem_map_of_mem member
  obtain ⟨level, _, here⟩ := List.mem_map.mp found
  exact (List.getElem?_eq_some_iff.mp here.symm).1

theorem push (h : Mirrors source b c) (offset : Nat) :
    Mirrors source ⟨offset :: b.opened, b.closed⟩
      ⟨c.levels ++ [Level.opened offset (b.opened.length + 1)], c.levels.length :: c.opened⟩ := by
  constructor
  · refine (h.perm.append_right _).trans ?_
    simp only [stillOpen, List.cons_append, List.append_assoc]
    refine List.Perm.cons _ (List.Perm.append_left _ ?_)
    exact List.perm_append_singleton _ _
  · simp only [stillOpen, List.map_cons, List.getElem?_concat_length]
    rw [← h.places]
    congr 1
    exact List.map_congr_left fun place member => List.getElem?_append_left (h.lt_length member)
  · exact List.nodup_cons.mpr ⟨fun member => Nat.lt_irrefl _ (h.lt_length member), h.distinct⟩

theorem pop {start place : Nat} {opened places : List Nat} {closed levels : List Level}
    (h : Mirrors source ⟨start :: opened, closed⟩ ⟨levels, place :: places⟩) (level : Level) :
    Mirrors source ⟨opened, level :: closed⟩ ⟨levels.set place level, places⟩ := by
  obtain ⟨first, rest⟩ := List.cons.inj h.places
  obtain ⟨inside, here⟩ := List.getElem?_eq_some_iff.mp first
  obtain ⟨fresh, distinct⟩ := List.nodup_cons.mp h.distinct
  constructor
  · have whole := (List.getElem_cons_eraseIdx_perm inside).trans h.perm
    simp only at here
    rw [here] at whole
    have others : (levels.eraseIdx place).Perm (Level.outermost source :: (closed ++ stillOpen opened)) := by
      refine List.Perm.cons_inv (whole.trans ?_)
      simp only [stillOpen]
      exact (List.Perm.cons _ List.perm_middle).trans (List.Perm.swap _ _ _)
    refine (List.set_perm_cons_eraseIdx inside level).trans ?_
    exact (List.Perm.cons _ others).trans (List.Perm.swap _ _ _)
  · refine Eq.trans (List.map_congr_left fun other member => ?_) rest
    refine List.getElem?_set_ne ?_
    rintro rfl
    exact fresh member
  · exact distinct

end Mirrors

section Steps

variable {source before rest : Text} {c : Char} {b : EvalOrder.Brackets} {m : Brackets}

theorem close_eq {start place : Nat} {u v : Text} (fits : Text.size source < wordLimit)
    (here : source = before ++ ')' :: rest) (stands : before = u ++ '(' :: v) (size : Text.size u = start)
    {levels : List Level} {height : Nat} (found : levels[place]? = some (Level.opened start height)) :
    Brackets.close source levels place (Text.size before) =
      .ok (levels.set place ((Level.opened start height).close source (Text.size before))) := by
  have closing : ')'.utf8Size = 1 := by decide
  have cut : Text.slice? source start (Text.size before + 1) = some ('(' :: v ++ [')']) := by
    refine Text.slice?_eq_some_iff.mpr ⟨u, rest, by simp [here, stands], size, ?_⟩
    simp only [stands, Text.size_append, Text.size_cons, Text.size_nil, closing]
    omega
  have short : Text.size before + 1 < wordLimit := by
    simp only [here, Text.size_append, Text.size_cons, closing] at fits
    omega
  have filled := slice_eq short cut
  simp only [Brackets.close, item_eq found, fillRaw, Level.opened, bind, Except.bind, filled, Level.close,
    Text.slice, cut, Option.getD_some]
  rfl

/-- One step: the machine does what the scan does, and meets no fault. -/
theorem read_mirrors (h : Mirrors source b m) (follows : EvalOrder.Brackets.Follows before b.opened)
    (here : source = before ++ c :: rest) (fits : Text.size source < wordLimit) :
    (∃ failure, EvalOrder.Brackets.read source (Text.size before) c b = .error failure ∧
        read source (Text.size before) c m = faultless (.error failure)) ∨
      ∃ b' m', EvalOrder.Brackets.read source (Text.size before) c b = .ok b' ∧
        read source (Text.size before) c m = faultless (.ok m') ∧ Mirrors source b' m' := by
  have width := c.utf8Size_pos
  have short : Text.size before + 1 < wordLimit := by
    simp only [here, Text.size_append, Text.size_cons] at fits
    omega
  rcases sort_of_char c with rfl | rfl | rfl | ⟨plain, unmarked⟩
  · have few : m.opened.length + 1 < wordLimit := by
      have := follows.few
      have := h.length
      omega
    refine .inr ⟨_, _, EvalOrder.Brackets.read_open _ _ _, ?_, h.push (Text.size before)⟩
    rw [← h.length]
    exact lift_bind (add_eq few)
  · obtain ⟨opened, closed⟩ := b
    obtain ⟨levels, places⟩ := m
    have lengths := h.length
    cases opened with
    | nil =>
      obtain rfl : places = [] := List.length_eq_zero_iff.mp lengths
      exact .inl ⟨_, rfl, failAt_eq short⟩
    | cons start opened =>
      obtain ⟨place, places, rfl⟩ := List.exists_cons_of_length_eq_add_one lengths
      obtain ⟨u, v, stands, size⟩ := follows.stands start List.mem_cons_self
      have found := (List.cons.inj h.places).1
      refine .inr ⟨_, _, EvalOrder.Brackets.read_close _ _ _ _ _, ?_, h.pop _⟩
      exact lift_bind (close_eq fits here stands size found)
  · exact .inl ⟨_, rfl, failAt_eq short⟩
  · refine .inr ⟨b, m, EvalOrder.Brackets.read_plain plain unmarked _ _ _, ?_, h⟩
    rw [read, Kind.ofChar_of_plain plain unmarked]
    cases Operator.ofChar? c <;> rfl

theorem scan_mirrors (h : Mirrors source b m) (follows : EvalOrder.Brackets.Follows before b.opened)
    (here : source = before ++ rest) (fits : Text.size source < wordLimit) :
    (∃ failure, EvalOrder.Brackets.scan source (Text.size before) rest b = .error failure ∧
        scan source (Text.size before) rest m = faultless (.error failure)) ∨
      ∃ b' m', EvalOrder.Brackets.scan source (Text.size before) rest b = .ok b' ∧
        scan source (Text.size before) rest m = faultless (.ok m') ∧ Mirrors source b' m' ∧
          EvalOrder.Brackets.Follows source b'.opened := by
  induction rest generalizing before b m with
  | nil =>
    rw [List.append_nil] at here
    exact .inr ⟨b, m, rfl, rfl, h, here ▸ follows⟩
  | cons c rest ih =>
    have next_offset : Text.size before + c.utf8Size = Text.size (before ++ [c]) := by simp
    rcases read_mirrors h follows here fits with ⟨failure, failed, machine⟩ | ⟨b', m', step, machine, mirrors⟩
    · refine .inl ⟨failure, ?_, ?_⟩
      · rw [EvalOrder.Brackets.scan, failed]
        rfl
      · rw [scan, machine]
        rfl
    · have machine_step : scan source (Text.size before) (c :: rest) m =
          scan source (Text.size (before ++ [c])) rest m' := by
        rw [scan, machine, ← next_offset]
        rfl
      rcases EvalOrder.Brackets.read_follows follows here with ⟨b'', same, follows'⟩ | ⟨failure, failed, _⟩
      · obtain rfl : b' = b'' := Except.ok.inj (step.symm.trans same)
        rw [EvalOrder.Brackets.scan_cons step, machine_step, next_offset]
        exact ih mirrors follows' (by simpa using here)
      · rw [step] at failed
        cases failed

theorem finish_open {start : Nat} {opened : List Nat} {closed : List Level}
    (h : Mirrors source ⟨start :: opened, closed⟩ m)
    (follows : EvalOrder.Brackets.Follows source (start :: opened)) (fits : Text.size source < wordLimit) :
    m.finish = faultless (.error (.ofByte .unclosed start)) := by
  obtain ⟨levels, places⟩ := m
  obtain ⟨place, places, rfl⟩ := List.exists_cons_of_length_eq_add_one h.length
  have found := (List.cons.inj h.places).1
  obtain ⟨u, v, split, size⟩ := follows.stands start List.mem_cons_self
  have short : start + 1 < wordLimit := by
    have one : '('.utf8Size = 1 := by decide
    simp only [split, Text.size_append, Text.size_cons, one] at fits
    omega
  exact (lift_bind (item_eq found)).trans (failAt_eq short)

end Steps

end Brackets

theorem sort_eq_of_perm {source : Text} {closed levels : List Level}
    (found : EvalOrder.levelsOf source = .ok (Level.sort (Level.outermost source :: closed)))
    (perm : levels.Perm (Level.outermost source :: closed)) :
    Level.sort levels = Level.sort (Level.outermost source :: closed) := by
  obtain ⟨ps, rfl, _, sorted⟩ := levelsOf_eq_ok_iff.mp found
  have merged : (Level.sort (Level.outermost (join ps) :: closed)).Perm _ := List.mergeSort_perm _ _
  rw [sorted] at merged ⊢
  exact Level.sort_of_perm (perm.trans merged.symm)

theorem levelsOf_eq {source : Text} (fits : Text.size source < wordLimit) :
    levelsOf source = faultless (EvalOrder.levelsOf source) := by
  have start : Brackets.Mirrors source ⟨[], []⟩ ⟨[Level.outermost source], []⟩ :=
    ⟨List.Perm.refl _, rfl, List.nodup_nil⟩
  rcases Brackets.scan_mirrors start EvalOrder.Brackets.follows_nil rfl fits with
    ⟨failure, scanned, machine⟩ | ⟨⟨opened, closed⟩, m, scanned, machine, mirrors, follows⟩
  · simp only [Text.size_nil] at scanned machine
    rw [levelsOf, machine, EvalOrder.levelsOf, scanned]
    rfl
  · simp only [Text.size_nil] at scanned machine
    cases opened with
    | nil =>
      obtain ⟨levels, places⟩ := m
      obtain rfl : places = [] := List.length_eq_zero_iff.mp mirrors.length
      have found : EvalOrder.levelsOf source = .ok (Level.sort (Level.outermost source :: closed)) := by
        rw [EvalOrder.levelsOf, scanned]
        rfl
      have listed : levels.Perm (Level.outermost source :: closed) := by
        simpa [Brackets.stillOpen] using mirrors.perm
      rw [found, levelsOf, machine, ← sort_eq_of_perm found listed]
      rfl
    | cons start opened =>
      rw [levelsOf, machine, EvalOrder.levelsOf, scanned]
      exact congrArg (· >>= _) (Brackets.finish_open mirrors follows fits)

end EvalOrder.Checked
