import Mathlib.Data.List.Infix
import VendorPrefixing.CommandLine.Disk
import VendorPrefixing.Proofs.CommandLine.Path

/-!
# Following paths and making directories

A path is followed name by name, and every place on the way has to be a directory.  Which
places these are can be told from the path alone.  Making directories turns exactly them
into directories, if no file is in the way.

Main results:

- Theorem `Disk.follow_append`: a path can be followed in two stretches.
- Theorem `Disk.follow_directory_iff`: when a path leads to a directory.
- Theorem `Disk.place_join_of_visits`: where the path to something below a directory leads.
- Theorem `Disk.exists_makeDirectories`: what making directories does.
- Theorems `Disk.readFile_eq` and `Disk.writeFile_eq`: reading and writing once it is known
  where a path leads.
-/

namespace VendorPrefixing

variable {names : List String} {p q r : Place}

/-! ## The places on a path -/

namespace Place

/-- The place that one more name of a path leads to, whatever is there. -/
def next (place : Place) (name : String) : Option Place :=
  if name = "" || name = "." then some place
  else if name = ".." then if place.isEmpty then none else some place.dropLast
  else some (place ++ [name])

/-- The place that the names of a path lead to, whatever is there. -/
def along (place : Place) (names : List String) : Option Place :=
  names.foldlM next place

/-- The places that a path leads through, the first and the last one included. -/
inductive Visits : Place → List String → Place → Prop
  | here {p : Place} {names : List String} : Visits p names p
  | after {p q r : Place} {name : String} {names : List String} :
    next p name = some q → Visits q names r → Visits p (name :: names) r

theorem next_of_isEntry {name : String} (h : Path.IsEntry name) (p : Place) :
    next p name = some (p ++ [name]) := by
  simp [next, h.1, h.2.1, h.2.2.1]

theorem along_cons (p : Place) (name : String) (names : List String) :
    along p (name :: names) = (next p name).bind fun q => along q names :=
  List.foldlM_cons

theorem along_append (p : Place) (front back : List String) :
    along p (front ++ back) = (along p front).bind fun q => along q back :=
  List.foldlM_append

/-- Names lead on from a place, one below the other. -/
theorem along_of_isEntry (h : ∀ name ∈ names, Path.IsEntry name) (p : Place) :
    along p names = some (p ++ names) := by
  induction names generalizing p with
  | nil => rw [List.append_nil]; rfl
  | cons name names ih =>
    rw [List.forall_mem_cons] at h
    rw [along_cons, next_of_isEntry h.1, Option.bind_some, ih h.2, List.append_assoc]
    rfl

theorem visits_nil : Visits p [] q ↔ q = p := by
  constructor
  · rintro ⟨⟩
    rfl
  · rintro rfl
    exact .here

theorem visits_cons {name : String} (h : next p name = some q) :
    Visits p (name :: names) r ↔ r = p ∨ Visits q names r := by
  constructor
  · intro hvisits
    cases hvisits with
    | here => exact .inl rfl
    | after hnext hrest =>
      obtain rfl := Option.some.inj (h.symm.trans hnext)
      exact .inr hrest
  · rintro (rfl | hrest)
    · exact .here
    · exact .after h hrest

theorem visits_append {front back : List String} (h : along p front = some q) :
    Visits p (front ++ back) r ↔ Visits p front r ∨ Visits q back r := by
  induction front generalizing p with
  | nil =>
    obtain rfl := Option.some.inj h
    rw [List.nil_append, visits_nil, or_iff_right_of_imp]
    rintro rfl
    exact .here
  | cons name front ih =>
    rw [along_cons, Option.bind_eq_some_iff] at h
    obtain ⟨s, hnext, hrest⟩ := h
    rw [List.cons_append, visits_cons hnext, visits_cons hnext, ih hrest, or_assoc]

/-- Names lead through the places above the last one. -/
theorem visits_of_isEntry (h : ∀ name ∈ names, Path.IsEntry name) :
    Visits p names r ↔ ∃ front, front <+: names ∧ r = p ++ front := by
  induction names generalizing p with
  | nil => simp [visits_nil]
  | cons name names ih =>
    rw [List.forall_mem_cons] at h
    rw [visits_cons (next_of_isEntry h.1 p), ih h.2]
    constructor
    · rintro (rfl | ⟨front, hfront, rfl⟩)
      · exact ⟨[], List.nil_prefix, (List.append_nil r).symm⟩
      · exact ⟨name :: front, (List.prefix_cons_inj name).mpr hfront, by simp⟩
    · rintro ⟨front, hfront, rfl⟩
      rcases List.prefix_cons_iff.mp hfront with rfl | ⟨front, rfl, hrest⟩
      · exact .inl (List.append_nil p)
      · exact .inr ⟨front, hrest, by simp⟩

end Place

namespace Disk

variable {disk : Disk}

/-! ## What is at a place -/

/-- Whether a directory is at a place. -/
def HasDirectory (disk : Disk) (place : Place) : Prop :=
  place = [] ∨ place ∈ disk.directories

instance (disk : Disk) : DecidablePred disk.HasDirectory := fun place =>
  inferInstanceAs (Decidable (place = [] ∨ place ∈ disk.directories))

/-- The bytes of the file at a place. -/
def bytes? (disk : Disk) (place : Place) : Option ByteArray :=
  if disk.HasDirectory place then none else disk.files.lookup place

theorem find?_eq (disk : Disk) (place : Place) :
    disk.find? place =
      if disk.HasDirectory place then some .directory else (disk.bytes? place).map .file := by
  have hiff : (place.isEmpty || disk.directories.contains place) = true ↔
      disk.HasDirectory place := by
    rw [Bool.or_eq_true, List.isEmpty_iff, List.contains_iff_mem]
    rfl
  rw [find?, bytes?]
  by_cases h : disk.HasDirectory place
  · rw [if_pos (hiff.mpr h), if_pos h]
  · rw [if_neg (mt hiff.mp h), if_neg h, if_neg h]

theorem find?_eq_directory_iff : disk.find? p = some .directory ↔ disk.HasDirectory p := by
  rw [find?_eq]
  split
  · simp [*]
  · cases disk.bytes? p <;> simp [*]

theorem find?_of_bytes? {bytes : ByteArray} (h : disk.bytes? p = some bytes) :
    disk.find? p = some (.file bytes) := by
  have hdirectory : ¬ disk.HasDirectory p := fun hp => by
    rw [bytes?, if_pos hp] at h
    cases h
  rw [find?_eq, if_neg hdirectory, h, Option.map_some]

/-- A file that is written takes the place of what was there. -/
theorem bytes?_write (h : ¬ disk.HasDirectory p) (bytes : ByteArray) (q : Place) :
    (disk.write p bytes).bytes? q = if q = p then some bytes else disk.bytes? q := by
  have hlookup : (disk.write p bytes).files.lookup q =
      if q = p then some bytes else disk.files.lookup q := by
    rw [write, List.lookup_cons]
    by_cases hq : q = p
    · simp [hq]
    · rw [if_neg hq, beq_eq_false_iff_ne.mpr hq, lookup_filter_ne _ hq]
  have hdirectory : (disk.write p bytes).HasDirectory q ↔ disk.HasDirectory q := Iff.rfl
  rw [bytes?, hlookup, bytes?]
  by_cases hq : q = p
  · rw [if_neg (by rwa [hdirectory, hq]), if_pos hq, if_pos hq]
  · rw [if_neg hq, if_neg hq]
    exact if_congr hdirectory rfl rfl

/-! ## Following paths -/

/-- Nothing is found behind what is no directory. -/
theorem exists_follow_error (h : ¬ disk.HasDirectory p) :
    ∃ e, ∀ names ≠ [], disk.follow p names = .error e := by
  have hfind : disk.find? p ≠ some .directory := mt find?_eq_directory_iff.mp h
  cases hentry : disk.find? p with
  | none =>
    refine ⟨.missing, fun names hnames => ?_⟩
    obtain ⟨name, rest, rfl⟩ := List.exists_cons_of_ne_nil hnames
    rw [follow, hentry]
  | some entry =>
    cases entry with
    | directory => exact absurd hentry hfind
    | file bytes =>
      refine ⟨.notDirectory, fun names hnames => ?_⟩
      obtain ⟨name, rest, rfl⟩ := List.exists_cons_of_ne_nil hnames
      rw [follow, hentry]

/-- From a directory a path goes on at the place that its first name leads to. -/
theorem follow_cons (h : disk.HasDirectory p) (name : String) (names : List String) :
    disk.follow p (name :: names) =
      (Place.next p name).elim (.error .missing) fun q => disk.follow q names := by
  rw [follow, find?_eq_directory_iff.mpr h, Place.next]
  dsimp only
  split
  · rfl
  · split
    · split <;> rfl
    · rw [Option.elim_some]
      -- A missing name is noticed here or at the next name.
      split
      · rename_i hmissing
        rw [Bool.and_eq_true, Option.isNone_iff_eq_none] at hmissing
        have hnames : names ≠ [] := by simpa using hmissing.1
        obtain ⟨next, rest, rfl⟩ := List.exists_cons_of_ne_nil hnames
        rw [follow, hmissing.2]
      · rfl

/-- A path can be followed in two stretches. -/
theorem follow_append (disk : Disk) (p : Place) (front back : List String) :
    disk.follow p (front ++ back) = (disk.follow p front).bind fun q => disk.follow q back := by
  induction front generalizing p with
  | nil => rfl
  | cons name front ih =>
    by_cases hp : disk.HasDirectory p
    · rw [List.cons_append, follow_cons hp, follow_cons hp]
      cases Place.next p name with
      | none => rfl
      | some q => exact ih q
    · obtain ⟨e, he⟩ := exists_follow_error hp
      rw [he _ (List.cons_ne_nil _ _), List.cons_append, he _ (List.cons_ne_nil _ _)]
      rfl

/-- An empty name before another one makes no difference. -/
theorem follow_empty_cons (hnames : names ≠ []) :
    disk.follow p ("" :: names) = disk.follow p names := by
  by_cases hp : disk.HasDirectory p
  · rw [follow_cons hp]
    rfl
  · obtain ⟨e, he⟩ := exists_follow_error hp
    rw [he _ (List.cons_ne_nil _ _), he _ hnames]

/-- A path leads to a directory when all places on it are directories. -/
theorem follow_directory_iff :
    disk.follow p names = .ok q ∧ disk.HasDirectory q ↔
      Place.along p names = some q ∧ ∀ r, Place.Visits p names r → disk.HasDirectory r := by
  induction names generalizing p with
  | nil =>
    have hfollow : disk.follow p [] = .ok q ↔ p = q := by rw [follow, Except.ok.injEq]
    have halong : Place.along p [] = some q ↔ p = q := Option.some_inj
    rw [hfollow, halong]
    refine and_congr_right ?_
    rintro rfl
    simp only [Place.visits_nil, forall_eq]
  | cons name names ih =>
    by_cases hp : disk.HasDirectory p
    · rw [follow_cons hp, Place.along_cons]
      cases hnext : Place.next p name with
      | none => simp
      | some s =>
        rw [Option.elim_some, Option.bind_some, ih]
        simp only [Place.visits_cons hnext, forall_eq_or_imp, hp, true_and]
    · obtain ⟨e, he⟩ := exists_follow_error hp
      rw [he _ (List.cons_ne_nil _ _)]
      exact iff_of_false (fun h => by cases h.1) fun h => hp (h.2 p .here)

/-- Names lead from a directory to a place below it, if those above that place are
directories. -/
theorem follow_of_isEntry (hnames : ∀ name ∈ names, Path.IsEntry name)
    (h : ∀ front, front <+: names.dropLast → disk.HasDirectory (p ++ front)) :
    disk.follow p names = .ok (p ++ names) := by
  rcases List.eq_nil_or_concat names with rfl | ⟨above, name, rfl⟩
  · rw [List.append_nil, follow]
  · rw [List.concat_eq_append, List.dropLast_concat] at h
    simp only [List.concat_eq_append, List.forall_mem_append, List.forall_mem_singleton] at hnames
    obtain ⟨hfollow, habove⟩ := follow_directory_iff.mpr ⟨Place.along_of_isEntry hnames.1 p,
      fun r hr => by
        obtain ⟨front, hfront, rfl⟩ := (Place.visits_of_isEntry hnames.1).mp hr
        exact h front hfront⟩
    rw [List.concat_eq_append, follow_append, hfollow]
    change disk.follow (p ++ above) [name] = _
    rw [follow_cons habove, Place.next_of_isEntry hnames.2, Option.elim_some, follow,
      List.append_assoc]

/-- Where the path to something below a directory leads. -/
theorem place_join (disk : Disk) {base : String} (hbase : Path.isAbsolute base = false)
    (hne : names ≠ []) (hnames : ∀ name ∈ names, Path.IsEntry name) :
    disk.place (Path.join base (Text.join "/" names)) =
      disk.follow [] (Text.splitOn '/' base ++ names) := by
  have habsolute := Path.isAbsolute_join_of_relative hbase hnames
  obtain ⟨front, hjoin, hfront⟩ := Path.exists_splitOn_join base hne hnames
  have hempty : (Path.join base (Text.join "/" names)).isEmpty = false := by
    rw [← Bool.not_eq_true, String.isEmpty_iff]
    intro hempty
    have hjoined := Path.names_join base hne hnames
    rw [hempty] at hjoined
    exact hne (List.append_eq_nil_iff.mp hjoined.symm).2
  rw [place, hempty, habsolute, hjoin]
  rcases hfront with hfront | hfront
  · rw [hfront]
    rfl
  · rw [hfront, List.append_assoc, follow_append, follow_append disk [] front ([""] ++ names)]
    simp only [List.singleton_append, follow_empty_cons hne]
    rfl

/-- A path leads to something below a directory if all places above it are directories. -/
theorem place_join_of_visits {base : String} (hbase : Path.isAbsolute base = false)
    (hp : Place.along [] (Text.splitOn '/' base) = some p) (hne : names ≠ [])
    (hnames : ∀ name ∈ names, Path.IsEntry name)
    (h : ∀ q, Place.Visits [] (Text.splitOn '/' base ++ names.dropLast) q → disk.HasDirectory q) :
    disk.place (Path.join base (Text.join "/" names)) = .ok (p ++ names) := by
  have hvisits : ∀ q, Place.Visits [] (Text.splitOn '/' base) q ∨ Place.Visits p names.dropLast q →
      disk.HasDirectory q := fun q hq => h q ((Place.visits_append hp).mpr hq)
  have hfollow : disk.follow [] (Text.splitOn '/' base) = .ok p :=
    (follow_directory_iff.mpr ⟨hp, fun q hq => hvisits q (.inl hq)⟩).1
  rw [place_join disk hbase hne hnames, follow_append, hfollow]
  refine follow_of_isEntry hnames fun front hfront => hvisits _ (.inr ?_)
  exact (Place.visits_of_isEntry (Path.isEntry_of_mem_dropLast hnames)).mpr ⟨front, hfront, rfl⟩

/-! ## Making directories -/

/-- Whether a place and everything above it are directories. -/
def Stands (disk : Disk) (place : Place) : Prop :=
  ∀ front, front <+: place → disk.HasDirectory front

theorem stands_nil : disk.Stands [] :=
  fun _ hfront => .inl (List.prefix_nil.mp hfront)

theorem Stands.hasDirectory (h : disk.Stands p) : disk.HasDirectory p :=
  h p (List.prefix_refl p)

/-- Whether a disk is another one with more directories. -/
structure Widens (needed : Place → Prop) (before after : Disk) : Prop where
  files_eq : after.files = before.files
  hasDirectory_iff : ∀ place, after.HasDirectory place ↔ before.HasDirectory place ∨ needed place

theorem widens_withDirectory (disk : Disk) (p : Place) :
    Widens (· = p) disk (disk.withDirectory p) := by
  rw [withDirectory]
  by_cases h : disk.directories.contains p = true
  · rw [if_pos h]
    refine ⟨rfl, fun q => (or_iff_left_of_imp ?_).symm⟩
    rintro rfl
    exact .inr (List.contains_iff_mem.mp h)
  · rw [if_neg h]
    refine ⟨rfl, fun q => ?_⟩
    simp only [HasDirectory, List.mem_cons]
    exact ⟨fun h => by tauto, fun h => by tauto⟩

/-- Files stay where no directory is made in their place. -/
theorem Widens.bytes?_eq {needed : Place → Prop} {before after : Disk}
    (h : Widens needed before after) (hneeded : needed p → before.bytes? p = none) :
    after.bytes? p = before.bytes? p := by
  by_cases hp : needed p
  · rw [hneeded hp, bytes?, if_pos ((h.hasDirectory_iff p).mpr (.inr hp))]
  · rw [bytes?, bytes?, h.files_eq]
    exact if_congr ((h.hasDirectory_iff p).trans (or_iff_left hp)) rfl rfl

/-- Names that lead nowhere can be left out. -/
theorem makeDirectories_filter {after : Disk} (h : disk.makeDirectories p names = .ok after) :
    disk.makeDirectories p (names.filter fun name => name != "" && name != ".") = .ok after := by
  induction names generalizing disk p with
  | nil => exact h
  | cons name names ih =>
    rw [makeDirectories] at h
    by_cases hname : (decide (name = "") || decide (name = ".")) = true
    · rw [if_pos hname] at h
      rw [List.filter_cons_of_neg (by simpa [imp_iff_not_or] using hname)]
      exact ih h
    · rw [if_neg hname] at h
      rw [List.filter_cons_of_pos (by simpa using hname), makeDirectories, if_neg hname]
      by_cases hup : name = ".."
      · rw [if_pos hup] at h ⊢
        split at h
        · cases h
        · rename_i hp
          rw [if_neg hp]
          exact ih h
      · rw [if_neg hup] at h ⊢
        split at h
        · cases h
        · exact ih h

/-- One more name makes one more directory at most. -/
theorem exists_makeDirectories_cons {name : String} (hstands : disk.Stands p)
    (hnext : Place.next p name = some q) (hfile : disk.bytes? q = none) :
    ∃ made, (∀ names, disk.makeDirectories p (name :: names) = made.makeDirectories q names) ∧
      made.Stands q ∧ Widens (· = q) disk made := by
  have hself : disk.HasDirectory q → Widens (· = q) disk disk := fun hq =>
    ⟨rfl, fun r => (or_iff_left_of_imp (fun hr => hr ▸ hq)).symm⟩
  rw [Place.next] at hnext
  split at hnext
  · rename_i hname
    obtain rfl := Option.some.inj hnext
    exact ⟨disk, fun names => by rw [makeDirectories, if_pos hname], hstands,
      hself hstands.hasDirectory⟩
  · rename_i hname
    split at hnext
    · rename_i hup
      split at hnext
      · cases hnext
      · rename_i hp
        obtain rfl := Option.some.inj hnext
        have hdropLast : disk.Stands p.dropLast := fun front hfront =>
          hstands front (hfront.trans (List.dropLast_prefix p))
        refine ⟨disk, fun names => ?_, hdropLast, hself hdropLast.hasDirectory⟩
        rw [makeDirectories, if_neg hname, if_pos hup, if_neg hp]
    · rename_i hup
      obtain rfl := Option.some.inj hnext
      have hwidens := widens_withDirectory disk (p ++ [name])
      refine ⟨disk.withDirectory (p ++ [name]), fun names => ?_, fun front hfront => ?_, hwidens⟩
      · rw [makeDirectories, if_neg hname, if_neg hup, find?_eq, hfile]
        split
        · rename_i hmatch
          split at hmatch <;> cases hmatch
        · rfl
      · rw [hwidens.hasDirectory_iff]
        rcases List.prefix_concat_iff.mp hfront with rfl | hfront
        · exact .inr rfl
        · exact .inl (hstands front hfront)

/-- Making directories makes the places on a path directories and nothing else, if no file is
in the way. -/
theorem exists_makeDirectories (hstands : disk.Stands p) (hq : Place.along p names = some q)
    (hfiles : ∀ r, Place.Visits p names r → disk.bytes? r = none) :
    ∃ after, disk.makeDirectories p names = .ok after ∧
      Widens (Place.Visits p names) disk after := by
  induction names generalizing disk p with
  | nil =>
    refine ⟨disk, rfl, rfl, fun r => (or_iff_left_of_imp ?_).symm⟩
    rw [Place.visits_nil]
    rintro rfl
    exact hstands.hasDirectory
  | cons name names ih =>
    rw [Place.along_cons, Option.bind_eq_some_iff] at hq
    obtain ⟨s, hnext, hq⟩ := hq
    have hvisits : ∀ r, Place.Visits p (name :: names) r ↔ r = p ∨ Place.Visits s names r :=
      fun r => Place.visits_cons hnext
    have hfile : disk.bytes? s = none := hfiles s ((hvisits s).mpr (.inr .here))
    obtain ⟨made, hmake, hs, hmade⟩ := exists_makeDirectories_cons hstands hnext hfile
    obtain ⟨after, hafter, hwidens⟩ := ih hs hq fun r hr => by
      rw [hmade.bytes?_eq]
      · exact hfiles r ((hvisits r).mpr (.inr hr))
      · rintro rfl
        exact hfile
    refine ⟨after, (hmake names).trans hafter, hwidens.files_eq.trans hmade.files_eq, fun r => ?_⟩
    have hhere : r = s → Place.Visits s names r := fun hr => hr ▸ .here
    have hstart : r = p → disk.HasDirectory r := fun hr => hr ▸ hstands.hasDirectory
    rw [hwidens.hasDirectory_iff, hmade.hasDirectory_iff, hvisits]
    tauto

/-! ## Reading and writing -/

theorem readFile_eq {path : String} {bytes : ByteArray} (hplace : disk.place path = .ok p)
    (hbytes : disk.bytes? p = some bytes) :
    disk.readFile path =
      match String.fromUTF8? bytes with
      | some text => .ok text
      | none => .error .notText := by
  simp only [readFile, hplace, bind, Except.bind, find?_of_bytes? hbytes]
  rfl

theorem isDirectory_of_place {path : String} (hplace : disk.place path = .ok p)
    (hp : disk.HasDirectory p) : disk.isDirectory path = true := by
  rw [isDirectory, hplace]
  dsimp only
  rw [find?_eq_directory_iff.mpr hp]

theorem writeFile_eq {path : String} (hplace : disk.place path = .ok p)
    (hends : Text.endsWith path "/" = false) (hp : ¬ disk.HasDirectory p) (text : String) :
    disk.writeFile path text = .ok (disk.write p text.toUTF8) := by
  simp only [writeFile, Path.dropWhile_slash_eq_self hends, hplace, bind, Except.bind, find?_eq,
    if_neg hp]
  cases disk.bytes? p <;> simp [hends, pure, Except.pure]

end Disk
end VendorPrefixing
