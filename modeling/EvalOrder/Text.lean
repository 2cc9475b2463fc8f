/-! Texts and their byte offsets. A text is its characters in order; an offset counts bytes of the
UTF-8 form, so it need not fall between two characters. `slice?` answers only where both ends do.
The lemmas say a cut is a decomposition of the text, never a rounding of the offset. -/
namespace EvalOrder

abbrev Text := List Char

namespace Text

def size : Text → Nat
  | [] => 0
  | c :: t => c.utf8Size + size t

def bytes (t : Text) : List UInt8 :=
  t.flatMap String.utf8EncodeChar

/-- The part before byte offset `n` and the part from it on. None inside a character or past the end. -/
def cut? : Nat → Text → Option (Text × Text)
  | 0, t => some ([], t)
  | _ + 1, [] => none
  | n + 1, c :: t =>
    if c.utf8Size ≤ n + 1 then
      (cut? (n + 1 - c.utf8Size) t).map fun parts => (c :: parts.1, parts.2)
    else none

/-- The bytes from `start` up to, and without, `stop`. -/
def slice? (t : Text) (start stop : Nat) : Option Text := do
  if stop < start then none
  let (_, rest) ← cut? start t
  let (middle, _) ← cut? (stop - start) rest
  return middle

/-- As `slice?`, with the empty text where there is no such slice. -/
def slice (t : Text) (start stop : Nat) : Text :=
  (slice? t start stop).getD []

def replaceFirst (old new : Text) : Text → Text
  | [] => if old.isEmpty then new else []
  | c :: t =>
    if old.isPrefixOf (c :: t) then new ++ (c :: t).drop old.length
    else c :: replaceFirst old new t

@[simp] theorem size_nil : size [] = 0 := rfl

@[simp] theorem size_cons (c : Char) (t : Text) : size (c :: t) = c.utf8Size + size t := rfl

@[simp] theorem size_append (t u : Text) : size (t ++ u) = size t + size u := by
  induction t with
  | nil => simp
  | cons c t ih => simp [ih, Nat.add_assoc]

theorem size_eq_zero {t : Text} : size t = 0 ↔ t = [] := by
  cases t with
  | nil => simp
  | cons c t =>
    have := c.utf8Size_pos
    simp only [size_cons, reduceCtorEq, iff_false]
    omega

theorem length_le_size (t : Text) : t.length ≤ size t := by
  induction t with
  | nil => exact Nat.le_refl 0
  | cons c t ih =>
    have := c.utf8Size_pos
    rw [List.length_cons, size_cons]
    omega

theorem size_eq_length_iff {t : Text} : size t = t.length ↔ ∀ c ∈ t, c.utf8Size = 1 := by
  induction t with
  | nil => simp
  | cons c t ih =>
    have := c.utf8Size_pos
    have := length_le_size t
    rw [List.forall_mem_cons, ← ih, size_cons, List.length_cons]
    omega

@[simp] theorem bytes_nil : bytes [] = [] := rfl

@[simp] theorem bytes_cons (c : Char) (t : Text) :
    bytes (c :: t) = String.utf8EncodeChar c ++ bytes t := rfl

@[simp] theorem bytes_append (t u : Text) : bytes (t ++ u) = bytes t ++ bytes u :=
  List.flatMap_append

theorem length_bytes (t : Text) : (bytes t).length = size t := by
  induction t with
  | nil => rfl
  | cons c t ih => simp [ih]

theorem cut?_eq_some_iff {n : Nat} {t u v : Text} :
    cut? n t = some (u, v) ↔ t = u ++ v ∧ size u = n := by
  induction t generalizing n u v with
  | nil =>
    cases n with
    | zero =>
      simp only [cut?, Option.some.injEq, Prod.mk.injEq, size_eq_zero]
      constructor
      · rintro ⟨rfl, rfl⟩; exact ⟨rfl, rfl⟩
      · rintro ⟨h, rfl⟩; exact ⟨rfl, h⟩
    | succ n =>
      simp only [cut?, reduceCtorEq, false_iff, not_and]
      intro h
      have hu : u = [] := (List.append_eq_nil_iff.mp h.symm).1
      simp [hu]
  | cons c t ih =>
    cases n with
    | zero =>
      simp only [cut?, Option.some.injEq, Prod.mk.injEq, size_eq_zero]
      constructor
      · rintro ⟨rfl, rfl⟩; exact ⟨rfl, rfl⟩
      · rintro ⟨h, rfl⟩; exact ⟨rfl, h⟩
    | succ n =>
      simp only [cut?]
      split
      · rename_i fits
        simp only [Option.map_eq_some_iff, Prod.exists, Prod.mk.injEq, ih]
        constructor
        · rintro ⟨a, b, ⟨rfl, hs⟩, rfl, rfl⟩
          exact ⟨rfl, by simp only [size_cons]; omega⟩
        · rintro ⟨h, hs⟩
          cases u with
          | nil => simp at hs
          | cons d u =>
            simp only [List.cons_append, List.cons.injEq] at h
            obtain ⟨rfl, rfl⟩ := h
            exact ⟨u, v, ⟨rfl, by simp only [size_cons] at hs; omega⟩, rfl, rfl⟩
      · rename_i fits
        simp only [reduceCtorEq, false_iff, not_and]
        intro h hs
        cases u with
        | nil => simp at hs
        | cons d u =>
          simp only [List.cons_append, List.cons.injEq] at h
          obtain ⟨rfl, rfl⟩ := h
          simp only [size_cons] at hs
          omega

theorem append_inj_of_size {t u v w : Text} (same : t ++ u = v ++ w) (sizes : size t = size v) :
    t = v ∧ u = w := by
  have left : cut? (size t) (t ++ u) = some (t, u) := cut?_eq_some_iff.mpr ⟨rfl, rfl⟩
  rw [cut?_eq_some_iff.mpr ⟨same, sizes.symm⟩] at left
  have parts := Prod.mk.inj (Option.some.inj left)
  exact ⟨parts.1.symm, parts.2.symm⟩

theorem slice?_eq_some_iff {t m : Text} {start stop : Nat} :
    slice? t start stop = some m ↔
      ∃ u v, t = u ++ m ++ v ∧ size u = start ∧ size u + size m = stop := by
  constructor
  · intro h
    simp only [slice?] at h
    split at h
    · simp at h
    · rename_i ordered
      simp only [Option.bind_eq_bind, Option.pure_def, Option.bind_eq_some_iff,
        Prod.exists, cut?_eq_some_iff, Option.some.injEq] at h
      obtain ⟨u, rest, ⟨rfl, hu⟩, m', v, ⟨rfl, hm⟩, rfl⟩ := h
      exact ⟨u, v, by simp, hu, by omega⟩
  · rintro ⟨u, v, rfl, rfl, rfl⟩
    have first : cut? (size u) (u ++ (m ++ v)) = some (u, m ++ v) := by simp [cut?_eq_some_iff]
    have second : cut? (size m) (m ++ v) = some (m, v) := by simp [cut?_eq_some_iff]
    have ordered : ¬ size u + size m < size u := by omega
    simp [slice?, ordered, first, second]

theorem slice_append (u m v : Text) : slice (u ++ m ++ v) (size u) (size u + size m) = m := by
  rw [slice, slice?_eq_some_iff.mpr ⟨u, v, rfl, rfl, rfl⟩, Option.getD_some]

end Text

end EvalOrder
