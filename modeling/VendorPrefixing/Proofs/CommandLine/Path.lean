import VendorPrefixing.CommandLine.Commands
import VendorPrefixing.Proofs.Text.Join

/-!
# Paths made of names

The path that leads from a directory to a file below it is joined from names, and it is
taken apart into the same names again.

Main results:

- Theorem `Path.exists_splitOn_join`: what a joined path is taken apart into.
- Theorem `Path.directory_join`: the directory that holds what a joined path leads to.
- Theorem `CommandLine.pathTo_eq`: names can be joined one by one or all at once.
-/

namespace VendorPrefixing

namespace Path

variable {base name path : String} {steps : List String}

/-- Whether a text can be the name of a file or a directory. -/
def IsEntry (name : String) : Prop :=
  name ≠ "" ∧ name ≠ "." ∧ name ≠ ".." ∧ '/' ∉ name.toList

instance : DecidablePred IsEntry := fun name =>
  inferInstanceAs (Decidable (name ≠ "" ∧ name ≠ "." ∧ name ≠ ".." ∧ '/' ∉ name.toList))

theorem IsEntry.ne_empty (h : IsEntry name) : name ≠ "" :=
  h.1

theorem IsEntry.slash_not_mem (h : IsEntry name) : '/' ∉ name.toList :=
  h.2.2.2

theorem isEntry_of_mem_dropLast (h : ∀ name ∈ steps, IsEntry name) :
    ∀ name ∈ steps.dropLast, IsEntry name :=
  fun name hname => h name ((List.dropLast_sublist steps).mem hname)

/-! ## Slashes at the ends -/

theorem toList_slash : "/".toList = ['/'] :=
  rfl

theorem isAbsolute_iff : isAbsolute path = true ↔ path.toList.head? = some '/' := by
  rw [isAbsolute, Text.startsWith, toList_slash]
  cases path.toList with
  | nil => exact iff_of_false Bool.false_ne_true nofun
  | cons c s =>
    simp only [List.isPrefixOf, Bool.and_true, beq_iff_eq, List.head?_cons, Option.some.injEq]
    exact eq_comm

theorem isAbsolute_append (h : base ≠ "") (path : String) :
    isAbsolute (base ++ path) = isAbsolute base := by
  rw [Bool.eq_iff_iff, isAbsolute_iff, isAbsolute_iff, String.toList_append, List.head?_append]
  cases hbase : base.toList with
  | nil => exact absurd (String.toList_eq_nil_iff.mp hbase) h
  | cons c s => rfl

theorem IsEntry.isAbsolute (h : IsEntry name) : isAbsolute name = false := by
  rw [← Bool.not_eq_true, isAbsolute_iff]
  exact fun hhead => h.slash_not_mem (List.mem_of_head? hhead)

theorem endsWith_slash_iff : Text.endsWith path "/" = true ↔ ∃ front, path = front ++ "/" := by
  rw [Text.endsWith, List.isSuffixOf_iff_suffix]
  constructor
  · rintro ⟨front, hfront⟩
    refine ⟨String.ofList front, String.toList_inj.mp ?_⟩
    rw [String.toList_append, ← hfront, String.toList_ofList (l := front)]
  · rintro ⟨front, rfl⟩
    exact ⟨front.toList, by rw [String.toList_append]⟩

/-- What ends in a name does not end in a slash. -/
theorem IsEntry.endsWith_slash (h : IsEntry name) (base : String) :
    Text.endsWith (base ++ name) "/" = false := by
  rw [← Bool.not_eq_true, Text.endsWith, List.isSuffixOf_iff_suffix, String.toList_append]
  rintro ⟨front, hfront⟩
  have hlast : (front ++ "/".toList).getLast? = name.toList.getLast? := by
    rw [hfront, List.getLast?_append]
    cases hname : name.toList.getLast? with
    | none =>
      have hnil : name.toList = [] := List.getLast?_eq_none_iff.mp hname
      exact absurd (String.toList_eq_nil_iff.mp hnil) h.ne_empty
    | some c => rfl
  rw [List.getLast?_append] at hlast
  exact h.slash_not_mem (List.mem_of_getLast? hlast.symm)

/-- What does not end in a slash keeps all its characters when those at its end go. -/
theorem dropWhile_slash_eq_self (h : Text.endsWith path "/" = false) :
    String.ofList (path.toList.reverse.dropWhile (· == '/')).reverse = path := by
  have hdrop : path.toList.reverse.dropWhile (· == '/') = path.toList.reverse := by
    cases hreverse : path.toList.reverse with
    | nil => rfl
    | cons c s =>
      have hc : c ≠ '/' := by
        rintro rfl
        have hpath : path.toList = s.reverse ++ "/".toList := by
          rw [← List.reverse_reverse path.toList, hreverse, List.reverse_cons]
          rfl
        rw [Text.endsWith, hpath, Bool.eq_false_iff] at h
        exact h (List.isSuffixOf_iff_suffix.mpr (List.suffix_append _ _))
      rw [List.dropWhile_cons_of_neg (by simpa using hc)]
  rw [hdrop, List.reverse_reverse, String.ofList_toList]

/-! ## Joined paths -/

/-- Names that are joined do not begin at the root. -/
theorem isAbsolute_join (h : ∀ name ∈ steps, IsEntry name) :
    isAbsolute (Text.join "/" steps) = false := by
  cases steps with
  | nil => rfl
  | cons name rest =>
    have hname := h name List.mem_cons_self
    cases rest with
    | nil => exact hname.isAbsolute
    | cons next rest =>
      rw [Text.join_cons_cons, String.append_assoc, isAbsolute_append hname.ne_empty,
        hname.isAbsolute]

/-- Names that are joined behind a path are cut off it again, where a slash at its end
leaves no trace. -/
theorem exists_splitOn_join (base : String) (hsteps : steps ≠ [])
    (h : ∀ name ∈ steps, IsEntry name) :
    ∃ front, Text.splitOn '/' (join base (Text.join "/" steps)) = front ++ steps ∧
      (Text.splitOn '/' base = front ∨ Text.splitOn '/' base = front ++ [""]) := by
  have hsplit : Text.splitOn '/' (Text.join "/" steps) = steps :=
    Text.splitOn_join toList_slash hsteps fun name hname => (h name hname).slash_not_mem
  rw [join, isAbsolute_join h, Bool.false_or]
  by_cases hempty : base.isEmpty = true
  · rw [if_pos hempty, String.isEmpty_iff.mp hempty]
    exact ⟨[], hsplit, .inr rfl⟩
  · rw [if_neg hempty]
    split
    · rename_i hends
      obtain ⟨front, rfl⟩ := endsWith_slash_iff.mp hends
      have hbase := Text.splitOn_append toList_slash front ""
      rw [String.append_empty] at hbase
      exact ⟨Text.splitOn '/' front, by rw [Text.splitOn_append toList_slash, hsplit], .inr hbase⟩
    · exact ⟨Text.splitOn '/' base, by rw [Text.splitOn_append toList_slash, hsplit], .inl rfl⟩

/-- A path that ends in a name does not end in a slash. -/
theorem endsWith_slash_join (base : String) (hsteps : steps ≠ [])
    (h : ∀ name ∈ steps, IsEntry name) :
    Text.endsWith (join base (Text.join "/" steps)) "/" = false := by
  rw [← Bool.not_eq_true, endsWith_slash_iff]
  rintro ⟨path, hpath⟩
  obtain ⟨front, hjoin, -⟩ := exists_splitOn_join base hsteps h
  have hends := Text.splitOn_append toList_slash path ""
  rw [String.append_empty, ← hpath, hjoin] at hends
  have hlast := congrArg List.getLast? hends
  rw [List.getLast?_append, List.getLast?_append, List.getLast?_eq_some_getLast hsteps] at hlast
  have hempty : steps.getLast hsteps = "" := Option.some.inj hlast
  exact (h _ (List.getLast_mem hsteps)).ne_empty hempty

theorem filter_eq_self (h : ∀ name ∈ steps, IsEntry name) :
    (steps.filter fun name => name != "" && name != ".") = steps := by
  refine List.filter_eq_self.mpr fun name hname => ?_
  simp [(h name hname).1, (h name hname).2.1]

theorem names_append_eq {front : List String} (hfront : Text.splitOn '/' path = front ++ steps)
    (h : ∀ name ∈ steps, IsEntry name) :
    names path = (front.filter fun name => name != "" && name != ".") ++ steps := by
  rw [names, hfront, List.filter_append, filter_eq_self h]

/-- The names of a path are followed by those that are joined to it. -/
theorem names_join (base : String) (hsteps : steps ≠ []) (h : ∀ name ∈ steps, IsEntry name) :
    names (join base (Text.join "/" steps)) = names base ++ steps := by
  obtain ⟨front, hjoin, hbase⟩ := exists_splitOn_join base hsteps h
  rw [names_append_eq hjoin h, names]
  rcases hbase with hbase | hbase
  · rw [hbase]
  · rw [hbase, List.filter_append]
    simp

/-- The names of a path can be joined and cut apart again. -/
theorem ne_empty_and_slash_not_mem_of_mem_names (h : name ∈ names path) :
    name ≠ "" ∧ '/' ∉ name.toList := by
  rw [names, List.mem_filter, Bool.and_eq_true, bne_iff_ne] at h
  exact ⟨h.2.1, Text.not_mem_of_mem_splitOn h.1⟩

theorem isAbsolute_join_of_relative (hbase : isAbsolute base = false)
    (h : ∀ name ∈ steps, IsEntry name) :
    isAbsolute (join base (Text.join "/" steps)) = false := by
  rw [join, isAbsolute_join h, Bool.false_or]
  by_cases hempty : base.isEmpty = true
  · rw [if_pos hempty, isAbsolute_join h]
  · have hne : base ≠ "" := fun heq => hempty (String.isEmpty_iff.mpr heq)
    rw [if_neg hempty]
    split
    · rw [isAbsolute_append hne, hbase]
    · rw [String.append_assoc, isAbsolute_append hne, hbase]

/-- The directory that holds what a joined path leads to. -/
theorem directory_join (hbase : isAbsolute base = false) (hsteps : steps ≠ [])
    (h : ∀ name ∈ steps, IsEntry name) :
    directory (join base (Text.join "/" steps)) =
      Text.join "/" (names base ++ steps.dropLast) := by
  rw [directory, isAbsolute_join_of_relative hbase h, names_join base hsteps h,
    List.dropLast_append_of_ne_nil hsteps]
  exact String.empty_append

/-- A name can be joined to a path before what follows it. -/
theorem join_join (base : String) (hname : IsEntry name) (hpath : isAbsolute path = false) :
    join (join base name) path = join base (name ++ "/" ++ path) := by
  have hafter : isAbsolute (name ++ "/" ++ path) = false := by
    rw [String.append_assoc, isAbsolute_append hname.ne_empty, hname.isAbsolute]
  have hnext : ∀ front, join (front ++ name) path = front ++ name ++ "/" ++ path := by
    intro front
    have hne : (front ++ name).isEmpty = false := by
      rw [← Bool.not_eq_true, String.isEmpty_iff, String.append_eq_empty_iff]
      exact fun h => hname.ne_empty h.2
    rw [join, hpath, hne, hname.endsWith_slash front]
    rfl
  by_cases hempty : base.isEmpty = true
  · obtain rfl := String.isEmpty_iff.mp hempty
    have hfirst : join "" name = "" ++ name := by simp [join]
    rw [hfirst, hnext, String.empty_append]
    simp [join]
  · rw [join.eq_def base name, join.eq_def base (name ++ "/" ++ path), hafter, hname.isAbsolute,
      Bool.false_or, if_neg hempty, if_neg hempty]
    split
    · rw [hnext]
      simp only [String.append_assoc]
    · rw [hnext (base ++ "/")]
      simp only [String.append_assoc]

end Path

namespace CommandLine

/-- Names can be joined to a path one by one or all at once. -/
theorem pathTo_eq (base : String) {steps : List String} (hsteps : steps ≠ [])
    (h : ∀ name ∈ steps, Path.IsEntry name) :
    pathTo base steps = Path.join base (Text.join "/" steps) := by
  induction steps generalizing base with
  | nil => exact absurd rfl hsteps
  | cons name rest ih =>
    rw [List.forall_mem_cons] at h
    cases rest with
    | nil => rfl
    | cons next rest =>
      have hrest : pathTo base (name :: next :: rest) =
          pathTo (Path.join base name) (next :: rest) := rfl
      rw [hrest, ih _ (List.cons_ne_nil next rest) h.2, Text.join_cons_cons,
        Path.join_join base h.1 (Path.isAbsolute_join h.2)]

end CommandLine
end VendorPrefixing
