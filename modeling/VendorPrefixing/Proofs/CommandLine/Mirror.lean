import VendorPrefixing.Proofs.CommandLine.Steps
import VendorPrefixing.Proofs.CommandLine.Walk

/-!
# Results in the same places

The results for the style sheets below a directory replace them or are written in the same
places below another directory.  What has been written after some of them is told by one
structure, which writing one more result preserves.

Main results:

- Theorem `Disk.Sound.accepts`: the style sheets themselves can be replaced.
- Theorem `Disk.Sound.accepts_of_new`: results can be written to where nothing is.
- Theorem `Disk.Progress.place_pathTo`: the way to a style sheet stays the same.
- Theorem `Disk.Progress.exists_withDirectoryOf`: there is room for every result.
- Theorem `Disk.Progress.write`: what one more result adds.
-/

namespace VendorPrefixing

/-- Whether two directories are the same, or neither is inside the other. -/
def Place.Apart (p q : Place) : Prop :=
  p = q ∨ ¬ p <+: q ∧ ¬ q <+: p

/-- Below directories that are apart, different names lead to different places. -/
theorem Place.Apart.append_inj {p q a b : Place} (h : p.Apart q) (heq : p ++ a = q ++ b) :
    p = q ∧ a = b := by
  have hpq : p = q := by
    refine h.resolve_right fun hapart => ?_
    rcases List.prefix_or_prefix_of_prefix (List.prefix_append p a)
      (heq ▸ List.prefix_append q b) with hlead | hlead
    · exact hapart.1 hlead
    · exact hapart.2 hlead
  subst hpq
  exact ⟨rfl, List.append_cancel_left heq⟩

namespace Disk

/-! ## Where the results go -/

/-- Whether a place is a directory above a result, when the results go below the directory
that a path leads to. -/
def IsNeeded (disk : Disk) (root : Place) (out : String) (p : Place) : Prop :=
  ∃ names, disk.IsSheet root names ∧
    Place.Visits [] (Text.splitOn '/' out ++ names.dropLast) p

/-- Whether the results for the style sheets below a directory can be written below the
directory that a path leads to: no file is in place of a directory and no directory in place
of a file. -/
structure Accepts (disk : Disk) (root : Place) (out : String) (base : Place) : Prop where
  relative : Path.isAbsolute out = false
  along_eq : Place.along [] (Text.splitOn '/' out) = some base
  bytes?_eq_none : ∀ p, disk.IsNeeded root out p → disk.bytes? p = none
  not_hasDirectory : ∀ names, disk.IsSheet root names → ¬ disk.HasDirectory (base ++ names)
  not_isNeeded : ∀ names, disk.IsSheet root names → ¬ disk.IsNeeded root out (base ++ names)

/-- Whether the results for the style sheets below a directory go below `base`: without an
output directory over the style sheets themselves. -/
inductive Receives (disk : Disk) (root : Place) : Option String → Place → Prop
  | inPlace : Receives disk root none root
  | into {out : String} {base : Place} :
    disk.Accepts root out base → base.Apart root → Receives disk root (some out) base

/-- Whether a recursive run can read the style sheets below one directory and write the
results below another one. -/
structure Mirrors (disk : Disk) (input : String) (root : Place) (out : String) (base : Place) :
    Prop where
  sound : disk.Sound
  place_eq : disk.place input = .ok root
  hasDirectory : disk.HasDirectory root
  accepts : disk.Accepts root out base
  apart : base.Apart root

variable {disk now : Disk} {root base p : Place} {input out : String} {names : List String}

/-- A path that leads to a directory leads through directories. -/
theorem visits_of_place (hplace : disk.place input = .ok root) (hroot : disk.HasDirectory root) :
    Path.isAbsolute input = false ∧ Place.along [] (Text.splitOn '/' input) = some root ∧
      ∀ p, Place.Visits [] (Text.splitOn '/' input) p → disk.HasDirectory p := by
  rw [place] at hplace
  split at hplace
  · cases hplace
  · rename_i hinput
    rw [Bool.or_eq_true, not_or, Bool.not_eq_true, Bool.not_eq_true] at hinput
    exact ⟨hinput.2, follow_directory_iff.mp ⟨hplace, hroot⟩⟩

/-- The places above a style sheet are directories. -/
theorem Sound.hasDirectory_of_isNeeded (hsound : disk.Sound)
    (hplace : disk.place input = .ok root) (hroot : disk.HasDirectory root)
    (hp : disk.IsNeeded root input p) : disk.HasDirectory p := by
  obtain ⟨-, halong, hvisits⟩ := visits_of_place hplace hroot
  obtain ⟨names, hsheet, hp⟩ := hp
  rcases (Place.visits_append halong).mp hp with hp | hp
  · exact hvisits p hp
  · have hstands := hsound.stands_dropLast hsheet.1
    rw [List.dropLast_append_of_ne_nil hsheet.ne_nil] at hstands
    obtain ⟨front, hfront, rfl⟩ := (Place.visits_of_isEntry
      (Path.isEntry_of_mem_dropLast (hsound.isEntry_of_isSheet hsheet))).mp hp
    exact hstands _ ((List.prefix_append_right_inj root).mpr hfront)

/-- Style sheets can be replaced. -/
theorem Sound.accepts (hsound : disk.Sound) (hplace : disk.place input = .ok root)
    (hroot : disk.HasDirectory root) : disk.Accepts root input root := by
  obtain ⟨hrelative, halong, -⟩ := visits_of_place hplace hroot
  have hneeded : ∀ p, disk.IsNeeded root input p → disk.HasDirectory p := fun p hp =>
    hsound.hasDirectory_of_isNeeded hplace hroot hp
  have hfile : ∀ names, disk.IsSheet root names → ¬ disk.HasDirectory (root ++ names) := by
    intro names hsheet hdirectory
    have hbytes := hsheet.1
    rw [bytes?, if_pos hdirectory] at hbytes
    cases hbytes
  exact
    { relative := hrelative
      along_eq := halong
      bytes?_eq_none := fun p hp => by rw [bytes?, if_pos (hneeded p hp)]
      not_hasDirectory := hfile
      not_isNeeded := fun names hsheet hp => hfile names hsheet (hneeded _ hp) }

/-- Results can be written below a directory below which nothing is. -/
theorem Sound.accepts_of_new (hsound : disk.Sound) (hne : base ≠ [])
    (hbase : ∀ name ∈ base, Path.IsEntry name)
    (habove : ∀ front, front <+: base → disk.bytes? front = none)
    (hfiles : ∀ f ∈ disk.files, ¬ base <+: f.1)
    (hdirectories : ∀ p ∈ disk.directories, base <+: p → p = base) :
    disk.Accepts root (Text.join "/" base) base := by
  have hsplit : Text.splitOn '/' (Text.join "/" base) = base :=
    Text.splitOn_join Path.toList_slash hne fun name hname => (hbase name hname).slash_not_mem
  have hneeded : ∀ p, disk.IsNeeded root (Text.join "/" base) p →
      ∃ names, disk.IsSheet root names ∧ p <+: base ++ names.dropLast := by
    rintro p ⟨names, hsheet, hp⟩
    have hnames : ∀ name ∈ base ++ names.dropLast, Path.IsEntry name := by
      rw [List.forall_mem_append]
      exact ⟨hbase, Path.isEntry_of_mem_dropLast (hsound.isEntry_of_isSheet hsheet)⟩
    rw [hsplit, Place.visits_of_isEntry hnames] at hp
    obtain ⟨front, hfront, rfl⟩ := hp
    exact ⟨names, hsheet, hfront⟩
  refine ⟨Path.isAbsolute_join hbase, ?_, ?_, ?_, ?_⟩
  · rw [hsplit, Place.along_of_isEntry hbase, List.nil_append]
  · intro p hp
    obtain ⟨names, -, hlead⟩ := hneeded p hp
    rcases List.prefix_or_prefix_of_prefix hlead (List.prefix_append base _) with hp | hp
    · exact habove p hp
    · rw [← Option.not_isSome_iff_eq_none, hsound.isSome_bytes?_iff]
      rintro ⟨f, hf, rfl⟩
      exact hfiles f hf hp
  · rintro names hsheet (hnil | hdirectory)
    · exact hne (List.append_eq_nil_iff.mp hnil).1
    · have hself := hdirectories _ hdirectory (List.prefix_append base names)
      exact hsheet.ne_nil (List.append_right_eq_self.mp hself)
  · intro names hsheet hp
    obtain ⟨other, hother, hlead⟩ := hneeded _ hp
    rw [List.prefix_append_right_inj] at hlead
    -- One style sheet would be above another one.
    have hsame := hsound.eq_of_prefix hsheet.1 hother.1
      ((List.prefix_append_right_inj root).mpr (hlead.trans (List.dropLast_prefix other)))
    obtain rfl := List.append_cancel_left hsame
    have hlength := hlead.length_le
    rw [List.length_dropLast] at hlength
    have hpos := List.length_pos_iff.mpr hsheet.ne_nil
    omega

theorem Receives.mirrors {output : Option String} (h : disk.Receives root output base)
    (hsound : disk.Sound) (hplace : disk.place input = .ok root)
    (hroot : disk.HasDirectory root) : disk.Mirrors input root (output.getD input) base := by
  cases h with
  | inPlace => exact ⟨hsound, hplace, hroot, hsound.accepts hplace hroot, .inl rfl⟩
  | into haccepts hapart => exact ⟨hsound, hplace, hroot, haccepts, hapart⟩

/-! ## What has been written -/

/-- Whether the results for some style sheets are all that has changed in the files. -/
structure Rewritten (before after : Disk) (t : Transformer) (root base : Place)
    (done : List (List String)) : Prop where
  written : ∀ names ∈ done, ∃ css s, before.Marked t (root ++ names) css s ∧
    after.bytes? (base ++ names) = some css.toUTF8
  unchanged : ∀ p, (∀ names ∈ done, p ≠ base ++ names) → after.bytes? p = before.bytes? p

theorem Rewritten.write {disk now after : Disk} {t : Transformer} {root base : Place}
    {done : List (List String)} (h : Rewritten disk now t root base done) {names : List String}
    (hnew : names ∉ done) {css : String} {s : Statistics}
    (hmarked : disk.Marked t (root ++ names) css s)
    (hbytes : ∀ p, after.bytes? p =
      if p = base ++ names then some css.toUTF8 else now.bytes? p) :
    Rewritten disk after t root base (done ++ [names]) := by
  constructor
  · rw [List.forall_mem_append, List.forall_mem_singleton]
    constructor
    · intro other hother
      have hne : base ++ other ≠ base ++ names := fun heq =>
        hnew (List.append_cancel_left heq ▸ hother)
      rw [hbytes, if_neg hne]
      exact h.written other hother
    · exact ⟨css, s, hmarked, by rw [hbytes, if_pos rfl]⟩
  · intro p hp
    rw [List.forall_mem_append, List.forall_mem_singleton] at hp
    rw [hbytes, if_neg hp.2, h.unchanged p hp.1]

/-- Whether the results for some style sheets are where given paths lead, and are all that
has changed in the files. -/
structure Delivered (before after : Disk) (t : Transformer) (root base : Place)
    (target : List String → String) (done : List (List String)) : Prop extends
    Rewritten before after t root base done where
  place_eq : ∀ names ∈ done, after.place (target names) = .ok (base ++ names)

/-- What holds after the results for some style sheets have been written. -/
structure Progress (disk : Disk) (t : Transformer) (root : Place) (out : String) (base : Place)
    (done : List (List String)) (now : Disk) : Prop extends
    Rewritten disk now t root base done where
  isSheet : ∀ names ∈ done, disk.IsSheet root names
  hasDirectory : ∀ p, disk.HasDirectory p → now.HasDirectory p
  made : ∀ names ∈ done, ∀ p, Place.Visits [] (Text.splitOn '/' out ++ names.dropLast) p →
    now.HasDirectory p
  of_hasDirectory : ∀ p, now.HasDirectory p → disk.HasDirectory p ∨ disk.IsNeeded root out p

variable {t : Transformer} {done : List (List String)}

theorem progress_nil : Progress disk t root out base [] disk where
  written := List.forall_mem_nil _
  unchanged _ _ := rfl
  isSheet := List.forall_mem_nil _
  hasDirectory _ := id
  made := List.forall_mem_nil _
  of_hasDirectory _ := .inl

namespace Progress

/-- The way to a style sheet stays the same. -/
theorem place_pathTo (h : Progress disk t root out base done now)
    (hmirrors : disk.Mirrors input root out base) (hsheet : disk.IsSheet root names) :
    now.place (CommandLine.pathTo input names) = .ok (root ++ names) := by
  have hnames := hmirrors.sound.isEntry_of_isSheet hsheet
  obtain ⟨hrelative, halong, -⟩ := visits_of_place hmirrors.place_eq hmirrors.hasDirectory
  rw [CommandLine.pathTo_eq input hsheet.ne_nil hnames]
  refine place_join_of_visits hrelative halong hsheet.ne_nil hnames fun p hp => ?_
  exact h.hasDirectory p (hmirrors.sound.hasDirectory_of_isNeeded hmirrors.place_eq
    hmirrors.hasDirectory ⟨names, hsheet, hp⟩)

/-- The paths to the results lead to them. -/
theorem place_join (h : Progress disk t root out base done now)
    (hmirrors : disk.Mirrors input root out base) (hnames : names ∈ done) :
    now.place (Path.join out (Text.join "/" names)) = .ok (base ++ names) := by
  have hsheet := h.isSheet names hnames
  exact place_join_of_visits hmirrors.accepts.relative hmirrors.accepts.along_eq hsheet.ne_nil
    (hmirrors.sound.isEntry_of_isSheet hsheet) (h.made names hnames)

/-- A style sheet stays as it is until it is its turn. -/
theorem bytes?_eq (h : Progress disk t root out base done now) (hapart : base.Apart root)
    (hnew : names ∉ done) : now.bytes? (root ++ names) = disk.bytes? (root ++ names) := by
  refine h.unchanged _ fun other hother heq => hnew ?_
  obtain ⟨-, rfl⟩ := hapart.append_inj heq.symm
  exact hother

/-- No result is in the way of a directory. -/
theorem bytes?_eq_none (h : Progress disk t root out base done now)
    (haccepts : disk.Accepts root out base) (hp : disk.IsNeeded root out p) :
    now.bytes? p = none := by
  rw [h.unchanged p, haccepts.bytes?_eq_none p hp]
  rintro other hother rfl
  exact haccepts.not_isNeeded other (h.isSheet other hother) hp

/-- The directories above a result can be made, and then there is room for it. -/
theorem exists_withDirectoryOf (h : Progress disk t root out base done now)
    (hmirrors : disk.Mirrors input root out base) (hsheet : disk.IsSheet root names) :
    ∃ made, now.withDirectoryOf (Path.join out (Text.join "/" names)) = .ok made ∧
      Widens (Place.Visits [] (Text.splitOn '/' out ++ names.dropLast)) now made ∧
      made.place (Path.join out (Text.join "/" names)) = .ok (base ++ names) ∧
      ¬ made.HasDirectory (base ++ names) := by
  have hnames := hmirrors.sound.isEntry_of_isSheet hsheet
  have habove := Path.isEntry_of_mem_dropLast hnames
  obtain ⟨hrelative, hout⟩ := And.intro hmirrors.accepts.relative hmirrors.accepts.along_eq
  have halong : Place.along [] (Text.splitOn '/' out ++ names.dropLast) =
      some (base ++ names.dropLast) := by
    rw [Place.along_append, hout, Option.bind_some, Place.along_of_isEntry habove]
  obtain ⟨made, hmake, hwidens⟩ := exists_makeDirectories stands_nil halong fun p hp =>
    h.bytes?_eq_none hmirrors.accepts ⟨names, hsheet, hp⟩
  refine ⟨made, withDirectoryOf_join hrelative hsheet.ne_nil hnames hmake, hwidens, ?_, ?_⟩
  · exact place_join_of_visits hrelative hout hsheet.ne_nil hnames fun p hp =>
      (hwidens.hasDirectory_iff p).mpr (.inr hp)
  · rw [hwidens.hasDirectory_iff]
    rintro (hdirectory | hvisits)
    · rcases h.of_hasDirectory _ hdirectory with hdirectory | hneeded
      · exact hmirrors.accepts.not_hasDirectory names hsheet hdirectory
      · exact hmirrors.accepts.not_isNeeded names hsheet hneeded
    · exact hmirrors.accepts.not_isNeeded names hsheet ⟨names, hsheet, hvisits⟩

/-- One more result is written. -/
theorem write (h : Progress disk t root out base done now)
    (haccepts : disk.Accepts root out base) (hsheet : disk.IsSheet root names)
    (hnew : names ∉ done) {made : Disk}
    (hwidens : Widens (Place.Visits [] (Text.splitOn '/' out ++ names.dropLast)) now made)
    (hroom : ¬ made.HasDirectory (base ++ names)) {css : String} {s : Statistics}
    (hmarked : disk.Marked t (root ++ names) css s) :
    Progress disk t root out base (done ++ [names])
      (made.write (base ++ names) css.toUTF8) := by
  have hbytes : ∀ p, (made.write (base ++ names) css.toUTF8).bytes? p =
      if p = base ++ names then some css.toUTF8 else now.bytes? p := by
    intro p
    rw [bytes?_write hroom, hwidens.bytes?_eq fun hp =>
      h.bytes?_eq_none haccepts ⟨names, hsheet, hp⟩]
  have hgrows : ∀ p, now.HasDirectory p → (made.write (base ++ names) css.toUTF8).HasDirectory p :=
    fun p hp => (hwidens.hasDirectory_iff p).mpr (.inl hp)
  refine { h.toRewritten.write hnew hmarked hbytes with
    isSheet := ?_
    hasDirectory := fun p hp => hgrows p (h.hasDirectory p hp)
    made := ?_
    of_hasDirectory := fun p hp => ?_ }
  · rw [List.forall_mem_append, List.forall_mem_singleton]
    exact ⟨h.isSheet, hsheet⟩
  · rw [List.forall_mem_append, List.forall_mem_singleton]
    exact ⟨fun other hother p hp => hgrows p (h.made other hother p hp),
      fun p hp => (hwidens.hasDirectory_iff p).mpr (.inr hp)⟩
  · rcases (hwidens.hasDirectory_iff p).mp hp with hp | hp
    · exact h.of_hasDirectory p hp
    · exact .inr ⟨names, hsheet, hp⟩

end Progress
end Disk
end VendorPrefixing
