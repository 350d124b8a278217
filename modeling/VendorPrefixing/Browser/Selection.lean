import VendorPrefixing.Browser.Basic
import VendorPrefixing.Distinct

/-!
# Selections

A selection is the set of browser versions that a stylesheet has to support.
Only membership matters; the members are kept sorted so that equal sets are
equal values with one canonical text.

Main results:

- Theorem `Selection.mem_insert`: insertion adds exactly the inserted target.
- Theorem `Selection.mem_union`: a union holds the members of both sides.
- Theorem `Selection.ext`: selections with the same members are equal.
- Theorem `Selection.mem_versionsOf`: the versions listed for a browser are the
  ones selected under its name.
-/

namespace VendorPrefixing

/-- One version of one browser. -/
structure Target where
  name : String
  version : Version
deriving DecidableEq, Repr

namespace Target

/-- Targets are ordered by name and then by version. -/
def before (a b : Target) : Bool :=
  a.name < b.name || (a.name == b.name && a.version < b.version)

/-- The target as it is written in canonical texts: `chrome 25`. -/
def text (t : Target) : String :=
  t.name ++ " " ++ t.version.text

/-- The order of targets is strict and total. -/
theorem before_strictOrder : StrictOrder before where
  irrefl a := by
    have hversion : ¬ a.version < a.version := by
      rw [Version.lt_iff]
      omega
    simp only [before, String.lt_irrefl, hversion, decide_false, Bool.and_false, Bool.or_false]
  trans {a b c} hab hbc := by
    simp only [before, Bool.or_eq_true, Bool.and_eq_true, decide_eq_true_eq, beq_iff_eq,
      Version.lt_iff] at *
    rcases hab with hab | ⟨hab, hab'⟩ <;> rcases hbc with hbc | ⟨hbc, hbc'⟩
    · exact .inl (String.lt_trans hab hbc)
    · exact .inl (hbc ▸ hab)
    · exact .inl (hab ▸ hbc)
    · exact .inr ⟨hab.trans hbc, by omega⟩
  connected {a b} hab hba := by
    simp only [before, Bool.or_eq_false_iff, Bool.and_eq_false_imp, decide_eq_false_iff_not,
      beq_iff_eq, Version.lt_iff] at *
    have hname : a.name = b.name :=
      String.le_antisymm (String.not_lt.mp hba.1) (String.not_lt.mp hab.1)
    have h₁ := hab.2 hname
    have h₂ := hba.2 hname.symm
    cases a with
    | mk name v =>
      cases b with
      | mk name' w =>
        cases v
        cases w
        simp only [Target.mk.injEq, Version.mk.injEq] at *
        exact ⟨hname, by omega, by omega⟩

end Target

/-- A set of browser versions. -/
structure Selection where
  /-- The members, sorted. -/
  targets : List Target
  ordered : targets.Pairwise fun a b => a.before b = true

namespace Selection

/-- The selection without members. -/
def empty : Selection where
  targets := []
  ordered := .nil

/-- The selection with one more member. -/
def insert (s : Selection) (t : Target) : Selection where
  targets := insertDistinct Target.before t s.targets
  ordered := pairwise_insertDistinct Target.before_strictOrder s.ordered

/-- The selection with the members of a list added. -/
def union (s : Selection) (ts : List Target) : Selection :=
  ts.foldl insert s

/-- The set of the members of a list. -/
def ofList (ts : List Target) : Selection :=
  empty.union ts

/-- Whether a target is a member. -/
def contains (s : Selection) (t : Target) : Bool :=
  s.targets.contains t

/-- The number of members. -/
def size (s : Selection) : Nat :=
  s.targets.length

/-- Whether there is no member. -/
def isEmpty (s : Selection) : Bool :=
  s.targets.isEmpty

/-- The canonical text: the members in order, such as `chrome 25,ff 24`. -/
def key (s : Selection) : String :=
  Text.join "," (s.targets.map Target.text)

/-- The selected versions of one browser, newest first. -/
def versionsOf (s : Selection) (name : String) : List Version :=
  (s.targets.reverse.filter (·.name == name)).map Target.version

theorem contains_iff {s : Selection} {t : Target} : s.contains t = true ↔ t ∈ s.targets := by
  simp [contains]

/-- Insertion adds exactly the inserted target. -/
theorem mem_insert {s : Selection} {t u : Target} :
    u ∈ (s.insert t).targets ↔ u = t ∨ u ∈ s.targets :=
  mem_insertDistinct Target.before_strictOrder

/-- A union holds the members of both sides. -/
theorem mem_union {s : Selection} {ts : List Target} {u : Target} :
    u ∈ (s.union ts).targets ↔ u ∈ s.targets ∨ u ∈ ts := by
  induction ts generalizing s with
  | nil => simp [union]
  | cons t rest ih =>
    have hcons : s.union (t :: rest) = (s.insert t).union rest := rfl
    rw [hcons, ih, mem_insert, List.mem_cons]
    constructor
    · rintro ((h | h) | h)
      · exact .inr (.inl h)
      · exact .inl h
      · exact .inr (.inr h)
    · rintro (h | h | h)
      · exact .inl (.inr h)
      · exact .inl (.inl h)
      · exact .inr h

/-- The set of the members of a list holds these members. -/
theorem mem_ofList {ts : List Target} {u : Target} : u ∈ (ofList ts).targets ↔ u ∈ ts := by
  simp [ofList, mem_union, empty]

/-- The versions listed for a browser are the ones selected under its name. -/
theorem mem_versionsOf {s : Selection} {name : String} {v : Version} :
    v ∈ s.versionsOf name ↔ ⟨name, v⟩ ∈ s.targets := by
  simp only [versionsOf, List.mem_map, List.mem_filter, List.mem_reverse, beq_iff_eq]
  constructor
  · rintro ⟨t, ⟨ht, rfl⟩, rfl⟩
    exact ht
  · intro h
    exact ⟨_, ⟨h, rfl⟩, rfl⟩

/-- Sorted lists with the same members are equal. -/
theorem eq_of_pairwise {xs ys : List Target}
    (hx : xs.Pairwise fun a b => a.before b = true)
    (hy : ys.Pairwise fun a b => a.before b = true)
    (h : ∀ t, t ∈ xs ↔ t ∈ ys) : xs = ys := by
  have order := Target.before_strictOrder
  have hne : ∀ {a b : Target}, a.before b = true → a ≠ b := by
    rintro a b hab rfl
    rw [order.irrefl] at hab
    exact Bool.false_ne_true hab
  induction xs generalizing ys with
  | nil =>
    cases ys with
    | nil => rfl
    | cons y _ => exact absurd ((h y).mpr List.mem_cons_self) List.not_mem_nil
  | cons x xs ih =>
    cases ys with
    | nil => exact absurd ((h x).mp List.mem_cons_self) List.not_mem_nil
    | cons y ys =>
      obtain ⟨hx₁, hx₂⟩ := List.pairwise_cons.mp hx
      obtain ⟨hy₁, hy₂⟩ := List.pairwise_cons.mp hy
      have hxy : x = y := by
        rcases List.mem_cons.mp ((h x).mp List.mem_cons_self) with hxy | hxy
        · exact hxy
        · rcases List.mem_cons.mp ((h y).mpr List.mem_cons_self) with hyx | hyx
          · exact hyx.symm
          · have hirr := order.trans (hx₁ y hyx) (hy₁ x hxy)
            rw [order.irrefl] at hirr
            exact absurd hirr Bool.false_ne_true
      subst hxy
      refine congrArg (x :: ·) (ih hx₂ hy₂ fun t => ?_)
      constructor
      · intro ht
        rcases List.mem_cons.mp ((h t).mp (List.mem_cons_of_mem _ ht)) with rfl | ht'
        · exact absurd rfl (hne (hx₁ t ht))
        · exact ht'
      · intro ht
        rcases List.mem_cons.mp ((h t).mpr (List.mem_cons_of_mem _ ht)) with rfl | ht'
        · exact absurd rfl (hne (hy₁ t ht))
        · exact ht'

/-- Selections with the same members are equal. -/
@[ext]
theorem ext {s u : Selection} (h : ∀ t, t ∈ s.targets ↔ t ∈ u.targets) : s = u := by
  have hlist := eq_of_pairwise s.ordered u.ordered h
  cases s
  cases u
  simpa using hlist

end Selection

/-- The vendor mark that a target uses according to a table. -/
def BrowserTable.vendorFor? (table : BrowserTable) (t : Target) : Option String :=
  (table.find? t.name).map (·.vendorAt t.version)

/-- The vendor marks that targets use, each once, longest first. -/
def BrowserTable.vendorsOf (table : BrowserTable) (ts : List Target) : List String :=
  sortDistinct longerFirst (ts.filterMap table.vendorFor?)

end VendorPrefixing
