import VendorPrefixing.Proofs.CommandLine.Disk

/-!
# Walking through a directory

The style sheets below a directory are visited depth first: the entries of every directory
in the order of their names, where what is below a directory comes in its place.  On a disk
in which no file is above another one, this order is the one in which the rows of names are
compared.

Main results:

- Theorem `Disk.Sound.eq_of_prefix`: no file is above another one.
- Theorem `Disk.Walks.unique`: there is only one walk through a directory.
- Theorem `Disk.Sound.exists_filesBelow`: which files are found below a directory.
- Theorem `Disk.Sound.walks`: the style sheets among them are in the order of a walk.
-/

namespace VendorPrefixing

variable {names : List String} {p q root : Place}

/-! ## The order of a walk -/

namespace Place

/-- Whether a walk comes to one place before another: in the directory where the ways to them
part, the name on the way to the first one is the smaller one. -/
def Precedes (p q : Place) : Prop :=
  ∃ front x xs y ys, p = front ++ x :: xs ∧ q = front ++ y :: ys ∧ x < y

theorem Precedes.lt (h : Precedes p q) : p < q := by
  obtain ⟨front, x, xs, y, ys, rfl, rfl, hlt⟩ := h
  induction front with
  | nil => exact List.cons_lt_cons_iff.mpr (.inl hlt)
  | cons name front ih => exact List.cons_lt_cons_iff.mpr (.inr ⟨rfl, ih⟩)

theorem Precedes.ne (h : Precedes p q) : p ≠ q := by
  rintro rfl
  exact List.lt_irrefl p h.lt

theorem Precedes.cons (h : Precedes p q) (name : String) :
    Precedes (name :: p) (name :: q) := by
  obtain ⟨front, x, xs, y, ys, rfl, rfl, hlt⟩ := h
  exact ⟨name :: front, x, xs, y, ys, rfl, rfl, hlt⟩

/-- Rows of names that are in order are so from the name on at which they part. -/
theorem precedes_of_not_lt (h : ¬ q < p) (hpq : ¬ p <+: q) (hqp : ¬ q <+: p) :
    Precedes p q := by
  induction p generalizing q with
  | nil => exact absurd List.nil_prefix hpq
  | cons x xs ih =>
    cases q with
    | nil => exact absurd List.nil_prefix hqp
    | cons y ys =>
      rw [List.cons_lt_cons_iff, not_or, not_and] at h
      by_cases hxy : x = y
      · subst hxy
        rw [List.prefix_cons_inj] at hpq hqp
        exact (ih (h.2 rfl) hpq hqp).cons x
      · have hlt : x < y := Std.lt_of_le_of_ne (String.not_lt.mp h.1) hxy
        exact ⟨[], x, xs, y, ys, rfl, rfl, hlt⟩

end Place

namespace Disk

variable {disk : Disk}

/-! ## Sound disks -/

instance (disk : Disk) : DecidablePred disk.Stands := fun p =>
  decidable_of_iff (∀ front ∈ p.inits, disk.HasDirectory front) <| by
    simp only [Stands, List.mem_inits]

/-- Whether the files of a disk are at different places and below directories. -/
structure Sound (disk : Disk) : Prop where
  isEntry : ∀ f ∈ disk.files, ∀ name ∈ f.1, Path.IsEntry name
  nodup : (disk.files.map Prod.fst).Nodup
  not_hasDirectory : ∀ f ∈ disk.files, ¬ disk.HasDirectory f.1
  stands : ∀ f ∈ disk.files, disk.Stands f.1.dropLast

variable (hsound : disk.Sound)
include hsound

/-- Every file of a sound disk is found at its place. -/
theorem Sound.isSome_bytes?_iff :
    (disk.bytes? p).isSome = true ↔ ∃ f ∈ disk.files, f.1 = p := by
  rw [bytes?]
  constructor
  · intro h
    split at h
    · cases h
    · obtain ⟨f, hf, hp⟩ := List.lookup_isSome_iff.mp h
      exact ⟨f, hf, (eq_of_beq hp).symm⟩
  · rintro ⟨f, hf, rfl⟩
    rw [if_neg (hsound.not_hasDirectory f hf)]
    exact List.lookup_isSome_iff.mpr ⟨f, hf, beq_self_eq_true f.1⟩

/-- What a file is below is a directory. -/
theorem Sound.stands_dropLast (h : (disk.bytes? p).isSome = true) :
    disk.Stands p.dropLast := by
  obtain ⟨f, hf, rfl⟩ := hsound.isSome_bytes?_iff.mp h
  exact hsound.stands f hf

/-- No file is above another one. -/
theorem Sound.eq_of_prefix (hp : (disk.bytes? p).isSome = true)
    (hq : (disk.bytes? q).isSome = true) (hpq : p <+: q) : p = q := by
  rcases List.eq_nil_or_concat q with rfl | ⟨above, name, rfl⟩
  · exact List.prefix_nil.mp hpq
  · rw [List.concat_eq_append] at hpq ⊢
    refine (List.prefix_concat_iff.mp hpq).resolve_right fun habove => ?_
    have hstands := hsound.stands_dropLast hq
    rw [List.concat_eq_append, List.dropLast_concat] at hstands
    rw [bytes?, if_pos (hstands p habove)] at hp
    cases hp

/-! ## The style sheets below a directory -/

omit hsound in
/-- Whether names lead from a directory to a style sheet. -/
def IsSheet (disk : Disk) (root : Place) (names : List String) : Prop :=
  (disk.bytes? (root ++ names)).isSome = true ∧ names.getLast?.any Path.isStylesheet = true

omit hsound in
theorem IsSheet.ne_nil (h : disk.IsSheet root names) : names ≠ [] := by
  rintro rfl
  cases h.2

theorem Sound.isEntry_of_isSheet (h : disk.IsSheet root names) :
    ∀ name ∈ names, Path.IsEntry name := by
  obtain ⟨f, hf, hplace⟩ := hsound.isSome_bytes?_iff.mp h.1
  exact fun name hname =>
    hsound.isEntry f hf name (hplace ▸ List.mem_append_right root hname)

omit hsound in
/-- Whether a list has the style sheets below a directory in the order of a walk. -/
structure Walks (disk : Disk) (root : Place) (files : List (List String)) : Prop where
  mem_iff : ∀ names, names ∈ files ↔ disk.IsSheet root names
  inOrder : files.Pairwise Place.Precedes

omit hsound in
theorem Walks.nodup {files : List (List String)} (h : disk.Walks root files) : files.Nodup :=
  h.inOrder.imp Place.Precedes.ne

omit hsound in
/-- There is only one walk through a directory. -/
theorem Walks.unique {files other : List (List String)} (h : disk.Walks root files)
    (hother : disk.Walks root other) : other = files := by
  have hperm : other.Perm files := (List.perm_ext_iff_of_nodup hother.nodup h.nodup).mpr
    fun names => (hother.mem_iff names).trans (h.mem_iff names).symm
  refine hperm.eq_of_pairwise (fun p q _ _ hpq hqp => ?_) hother.inOrder h.inOrder
  exact absurd hqp.lt (List.lt_asymm hpq.lt)

omit hsound in
/-- The place below a directory that a file has. -/
theorem below_eq_some_iff {f : Place × ByteArray} :
    (if root.isPrefixOf f.1 then some (f.1.drop root.length) else none) = some names ↔
      f.1 = root ++ names := by
  split
  · rename_i hroot
    obtain ⟨rest, hrest⟩ := List.isPrefixOf_iff_prefix.mp hroot
    rw [← hrest, List.drop_left, List.append_cancel_left_eq, Option.some_inj]
  · rename_i hroot
    refine iff_of_false nofun fun heq => hroot ?_
    exact List.isPrefixOf_iff_prefix.mpr ⟨names, heq.symm⟩

/-- The files below a directory are those whose places begin with its own. -/
theorem Sound.exists_filesBelow {path : String} (hroot : disk.place path = .ok root) :
    ∃ files, disk.filesBelow path = .ok files ∧
      (∀ names, names ∈ files ↔ (disk.bytes? (root ++ names)).isSome = true) ∧
      files.Pairwise fun p q => ¬ q < p ∧ p ≠ q := by
  rw [filesBelow, hroot]
  refine ⟨_, rfl, fun names => ?_, List.Pairwise.and ?_ ?_⟩
  · rw [List.mem_mergeSort, List.mem_filterMap, hsound.isSome_bytes?_iff]
    exact exists_congr fun f => and_congr_right fun _ => below_eq_some_iff
  · refine List.Pairwise.imp (fun h => by simpa using h) (List.pairwise_mergeSort ?_ ?_ _)
    · intro a b c hab hbc
      simp only [Bool.not_eq_true', decide_eq_false_iff_not, List.not_lt] at hab hbc ⊢
      exact List.le_trans hab hbc
    · intro a b
      simp only [Bool.or_eq_true, Bool.not_eq_true', decide_eq_false_iff_not, List.not_lt]
      exact List.le_total a b
  · refine (List.mergeSort_perm _ _).nodup_iff.mpr ?_
    refine (List.pairwise_map.mp hsound.nodup).filterMap _ ?_
    rintro f g hne a ha b hb rfl
    exact hne ((below_eq_some_iff.mp ha).trans (below_eq_some_iff.mp hb).symm)

/-- The style sheets among the files below a directory are in the order of a walk. -/
theorem Sound.walks {files : List (List String)}
    (hmem : ∀ names, names ∈ files ↔ (disk.bytes? (root ++ names)).isSome = true)
    (hsorted : files.Pairwise fun p q => ¬ q < p ∧ p ≠ q) :
    disk.Walks root (files.filter fun names => names.getLast?.any Path.isStylesheet) := by
  refine ⟨fun names => ?_, List.Pairwise.filter _ (hsorted.imp_of_mem ?_)⟩
  · rw [List.mem_filter, hmem]
    rfl
  · -- Different places of files are no prefixes of each other.
    have hfree : ∀ {p q}, p ∈ files → q ∈ files → p ≠ q → ¬ p <+: q := fun hp hq hne hpq =>
      hne (List.append_cancel_left (hsound.eq_of_prefix ((hmem _).mp hp) ((hmem _).mp hq)
        ((List.prefix_append_right_inj root).mpr hpq)))
    rintro p q hp hq ⟨hlt, hne⟩
    exact Place.precedes_of_not_lt hlt (hfree hp hq hne) (hfree hq hp hne.symm)

end Disk
end VendorPrefixing
