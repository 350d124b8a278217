/-!
# Sorted lists without repetitions

Insertion into a list that is kept in a strict order, and sorting by insertion.
An element that neither comes before nor after one already there is taken to be
that element, so every element is kept once.

Main results:

- Theorem `mem_insertDistinct`: insertion adds exactly the inserted element.
- Theorem `pairwise_insertDistinct`: insertion keeps the list in order.
- Theorems `mem_sortDistinct` and `pairwise_sortDistinct`: sorting keeps the
  elements and puts them in order.
-/

namespace VendorPrefixing

variable {α : Type}

/-- A strict order in which any two different elements are comparable. -/
structure StrictOrder (before : α → α → Bool) : Prop where
  irrefl : ∀ a, before a a = false
  trans : ∀ {a b c}, before a b = true → before b c = true → before a c = true
  connected : ∀ {a b}, before a b = false → before b a = false → a = b

/-- The list with `x` at its place, unless `x` is already there. -/
def insertDistinct (before : α → α → Bool) (x : α) : List α → List α
  | [] => [x]
  | y :: rest =>
    if before x y then x :: y :: rest
    else if before y x then y :: insertDistinct before x rest
    else y :: rest

/-- The elements of a list in order, each once. -/
def sortDistinct (before : α → α → Bool) (xs : List α) : List α :=
  xs.foldr (insertDistinct before) []

/-- Insertion adds exactly the inserted element. -/
theorem mem_insertDistinct {before : α → α → Bool} (order : StrictOrder before)
    {x z : α} {xs : List α} :
    z ∈ insertDistinct before x xs ↔ z = x ∨ z ∈ xs := by
  induction xs with
  | nil => simp [insertDistinct]
  | cons y rest ih =>
    rw [insertDistinct]
    split
    · simp
    · rename_i hxy
      split
      · simp only [List.mem_cons, ih]
        exact or_left_comm
      · rename_i hyx
        have hxy : x = y :=
          order.connected (Bool.eq_false_iff.mpr hxy) (Bool.eq_false_iff.mpr hyx)
        subst hxy
        simp

/-- Insertion keeps a list in order. -/
theorem pairwise_insertDistinct {before : α → α → Bool} (order : StrictOrder before)
    {x : α} {xs : List α} (h : xs.Pairwise fun a b => before a b = true) :
    (insertDistinct before x xs).Pairwise fun a b => before a b = true := by
  induction xs with
  | nil => simp [insertDistinct]
  | cons y rest ih =>
    have hy := (List.pairwise_cons.mp h).1
    have hrest := (List.pairwise_cons.mp h).2
    rw [insertDistinct]
    split
    · rename_i hxy
      refine List.pairwise_cons.mpr ⟨fun z hz => ?_, h⟩
      rcases List.mem_cons.mp hz with rfl | hz
      · exact hxy
      · exact order.trans hxy (hy z hz)
    · split
      · rename_i hyx
        refine List.pairwise_cons.mpr ⟨fun z hz => ?_, ih hrest⟩
        rcases (mem_insertDistinct order).mp hz with rfl | hz
        · exact hyx
        · exact hy z hz
      · exact h

/-- Sorting keeps the elements. -/
theorem mem_sortDistinct {before : α → α → Bool} (order : StrictOrder before)
    {z : α} {xs : List α} : z ∈ sortDistinct before xs ↔ z ∈ xs := by
  induction xs with
  | nil => simp [sortDistinct]
  | cons x rest ih =>
    have hcons : sortDistinct before (x :: rest) =
        insertDistinct before x (sortDistinct before rest) := rfl
    rw [hcons, mem_insertDistinct order, ih, List.mem_cons]

/-- Sorting puts the elements in order. -/
theorem pairwise_sortDistinct {before : α → α → Bool} (order : StrictOrder before)
    (xs : List α) : (sortDistinct before xs).Pairwise fun a b => before a b = true := by
  induction xs with
  | nil => simp [sortDistinct]
  | cons x rest ih => exact pairwise_insertDistinct order ih

/-- Longer names come first, by their size in bytes, and names of one size come
in the order of their characters. -/
def longerFirst (a b : String) : Bool :=
  b.utf8ByteSize < a.utf8ByteSize || (a.utf8ByteSize == b.utf8ByteSize && a < b)

/-- The order that puts longer names first is strict and total. -/
theorem longerFirst_strictOrder : StrictOrder longerFirst where
  irrefl a := by simp [longerFirst]
  trans {a b c} hab hbc := by
    simp only [longerFirst, Bool.or_eq_true, Bool.and_eq_true, decide_eq_true_eq,
      beq_iff_eq] at *
    rcases hab with hab | ⟨hab, hab'⟩ <;> rcases hbc with hbc | ⟨hbc, hbc'⟩
    · exact .inl (by omega)
    · exact .inl (by omega)
    · exact .inl (by omega)
    · exact .inr ⟨by omega, String.lt_trans hab' hbc'⟩
  connected {a b} hab hba := by
    simp only [longerFirst, Bool.or_eq_false_iff, Bool.and_eq_false_imp, decide_eq_false_iff_not,
      beq_iff_eq] at *
    have hsize : a.utf8ByteSize = b.utf8ByteSize := by omega
    exact String.le_antisymm (String.not_lt.mp (hba.2 hsize.symm)) (String.not_lt.mp (hab.2 hsize))

end VendorPrefixing
