import EvalOrder.Masking

/-! The parts of a source whose parentheses pair up: characters, and groups of parts. Such a source can be
read in one way only, and a group is never the front of another: this is why a search for the text of a
group, which looks at characters alone, cannot stop at a wrong one. -/
namespace EvalOrder

inductive Part where
  | char (c : Char) (plain : isParenthesis c = false)
  | group (inside : List Part)

namespace Part

mutual

def text : Part → Text
  | char c _ => [c]
  | group inside => '(' :: join inside ++ [')']

def join : List Part → Text
  | [] => []
  | p :: rest => text p ++ join rest

end

mutual

def depth : Part → Nat
  | char _ _ => 0
  | group inside => depthOf inside + 1

def depthOf : List Part → Nat
  | [] => 0
  | p :: rest => max (depth p) (depthOf rest)

end

/-- Induction over parts that enters every group. -/
theorem induction {motive : List Part → Prop} (nil : motive [])
    (char : ∀ c plain rest, motive rest → motive (Part.char c plain :: rest))
    (group : ∀ inside rest, motive inside → motive rest → motive (Part.group inside :: rest)) :
    ∀ ps, motive ps := by
  intro ps
  apply Part.rec_1 (motive_1 := fun p => ∀ rest, motive rest → motive (p :: rest)) (motive_2 := motive)
  · intro c plain rest ih
    exact char c plain rest ih
  · intro inside ih rest tail
    exact group inside rest ih tail
  · exact nil
  · intro p rest head tail
    exact head rest tail

@[simp] theorem join_nil : join [] = [] := rfl

@[simp] theorem join_cons (p : Part) (rest : List Part) : join (p :: rest) = p.text ++ join rest := rfl

@[simp] theorem text_char (c : Char) (plain : isParenthesis c = false) : (char c plain).text = [c] := rfl

@[simp] theorem text_group (inside : List Part) :
    (group inside).text = '(' :: (join inside ++ [')']) := rfl

@[simp] theorem join_append (ps qs : List Part) : join (ps ++ qs) = join ps ++ join qs := by
  induction ps with
  | nil => rfl
  | cons p ps ih => simp [ih]

theorem plain_ne_open {c : Char} (plain : isParenthesis c = false) : c ≠ '(' := by
  rintro rfl
  exact absurd plain (by decide)

theorem plain_ne_close {c : Char} (plain : isParenthesis c = false) : c ≠ ')' := by
  rintro rfl
  exact absurd plain (by decide)

theorem plain_of_ne {c : Char} (h : c ≠ '(') (h' : c ≠ ')') : isParenthesis c = false := by
  simp [isParenthesis, h, h']

theorem size_text_pos (p : Part) : 0 < Text.size p.text := by
  cases p with
  | char c plain =>
    have := c.utf8Size_pos
    simpa using this
  | group inside =>
    have := Char.utf8Size_pos '('
    simp only [text_group, Text.size_cons]
    omega

theorem size_group (inside : List Part) :
    Text.size (group inside).text = Text.size (join inside) + 2 := by
  have : '('.utf8Size = 1 := by decide
  have : ')'.utf8Size = 1 := by decide
  simp only [text_group, Text.size_cons, Text.size_append, Text.size_nil]
  omega

/-- Up to the parenthesis that closes what is around it, a text has one reading. -/
theorem join_unique {ps qs : List Part} {u v : Text} (same : join ps ++ ')' :: u = join qs ++ ')' :: v) :
    ps = qs ∧ u = v := by
  induction ps using Part.induction generalizing qs u v with
  | nil =>
    cases qs with
    | nil => exact ⟨rfl, (List.cons.inj same).2⟩
    | cons q qs =>
      cases q with
      | char c plain => exact absurd (List.cons.inj same).1.symm (plain_ne_close plain)
      | group inside => exact absurd (List.cons.inj same).1 (by decide)
  | char c plain rest ih =>
    cases qs with
    | nil => exact absurd (List.cons.inj same).1 (plain_ne_close plain)
    | cons q qs =>
      cases q with
      | char d plain' =>
        obtain ⟨rfl, tail⟩ := List.cons.inj same
        obtain ⟨rfl, ends⟩ := ih tail
        exact ⟨rfl, ends⟩
      | group inside => exact absurd (List.cons.inj same).1 (plain_ne_open plain)
  | group inside rest inner tail =>
    cases qs with
    | nil => exact absurd (List.cons.inj same).1 (by decide)
    | cons q qs =>
      cases q with
      | char d plain' => exact absurd (List.cons.inj same).1.symm (plain_ne_open plain')
      | group other =>
        simp only [join_cons, text_group, List.cons_append, List.append_assoc, List.nil_append,
          List.cons.injEq, true_and] at same
        obtain ⟨rfl, after⟩ := inner same
        obtain ⟨rfl, ends⟩ := tail after
        exact ⟨rfl, ends⟩

theorem group_unique {inside other : List Part} {u v : Text}
    (same : (group inside).text ++ u = (group other).text ++ v) : inside = other ∧ u = v := by
  simp only [text_group, List.cons_append, List.append_assoc, List.nil_append, List.cons.injEq,
    true_and] at same
  exact join_unique same

/-- The groups among the parts, without those inside other groups. -/
def groups : List Part → List (List Part)
  | [] => []
  | char _ _ :: rest => groups rest
  | group inside :: rest => inside :: groups rest

/-- The text with an alias in the place of every group; aliases count from `k`. -/
def masked : Nat → List Part → Text
  | _, [] => []
  | k, char c _ :: rest => c :: masked k rest
  | k, group _ :: rest => aliasOf k ++ masked (k + 1) rest

@[simp] theorem groups_append (ps qs : List Part) : groups (ps ++ qs) = groups ps ++ groups qs := by
  induction ps with
  | nil => rfl
  | cons p ps ih => cases p <;> simp [groups, ih]

theorem masked_append (k : Nat) (ps qs : List Part) :
    masked k (ps ++ qs) = masked k ps ++ masked (k + (groups ps).length) qs := by
  induction ps generalizing k with
  | nil => rfl
  | cons p ps ih =>
    cases p with
    | char c plain => simp [masked, groups, ih]
    | group inside =>
      rw [List.cons_append, masked, ih, masked, groups, List.length_cons, List.append_assoc]
      have : k + 1 + (groups ps).length = k + ((groups ps).length + 1) := by omega
      rw [this]

theorem size_le_of_mem_groups {ps : List Part} {inside : List Part} (member : inside ∈ groups ps) :
    Text.size (join inside) + 2 ≤ Text.size (join ps) := by
  induction ps with
  | nil => cases member
  | cons p ps ih =>
    rw [join_cons, Text.size_append]
    cases p with
    | char c plain =>
      have := ih member
      omega
    | group other =>
      rw [size_group]
      rcases List.mem_cons.mp member with rfl | later
      · omega
      · have := ih later
        omega

theorem depthOf_lt_of_mem_groups {ps : List Part} {inside : List Part} (member : inside ∈ groups ps) :
    depthOf inside < depthOf ps := by
  induction ps with
  | nil => cases member
  | cons p ps ih =>
    cases p with
    | char c plain =>
      have := ih member
      simp only [depthOf]
      omega
    | group other =>
      simp only [depthOf, depth]
      rcases List.mem_cons.mp member with rfl | later
      · omega
      · have := ih later
        omega

theorem exists_chars {t : Text} (plain : ∀ c ∈ t, isParenthesis c = false) :
    ∃ ps, join ps = t ∧ groups ps = [] := by
  induction t with
  | nil => exact ⟨[], rfl, rfl⟩
  | cons c t ih =>
    obtain ⟨ps, rfl, none⟩ := ih fun d hd => plain d (List.mem_cons_of_mem _ hd)
    exact ⟨char c (plain c List.mem_cons_self) :: ps, rfl, none⟩

end Part

end EvalOrder
