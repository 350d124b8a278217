import VendorPrefixing.Proofs.CommandLine.Disk
import VendorPrefixing.Proofs.Marking.Simulation

/-!
# Steps on a machine

What the steps of a command come to on a machine, and the machine after them.  A step that
fails ends the command and leaves the machine as it is at that point.

Main results:

- Theorems `CommandLine.outcome_bind_ok` and `CommandLine.outcome_bind_error`: one step after
  another.
- Theorem `Transformer.attempt_of_parse`: a text that can be read is processed and printed,
  unless that ends the program.
- Theorem `Disk.marked_or_crashes_or_unreadable`: a file is marked, ends the program or cannot be
  read.
- Theorem `CommandLine.outcome_transformFile`: transforming a file changes nothing.
- Theorem `CommandLine.outcome_processFile`: a result is written after everything before it
  has succeeded.
-/

namespace VendorPrefixing

/-! ## Transforming texts -/

namespace Sheet

variable {file css : String} {n : Node}

/-- What is read does not depend on the name of the file. -/
theorem parse_eq_ok_iff_unnamed : parse file css = .ok n ↔ parse unnamed css = .ok n := by
  rw [parse, parse]
  cases (Reading.ofText (Chars.settle css.toList)).run <;> simp

/-- A text that cannot be read is refused under any name. -/
theorem exists_parse_eq_error {f : Failure} (h : parse unnamed css = .error f) (file : String) :
    ∃ f', parse file css = .error f' := by
  rw [parse] at h ⊢
  cases hrun : (Reading.ofText (Chars.settle css.toList)).run with
  | ok ns =>
    rw [hrun] at h
    cases h
  | error e => exact ⟨_, rfl⟩

end Sheet

namespace Transformer

variable {t : Transformer} {css : String} {n : Node}

/-- A text that can be read is processed and printed, unless that ends the program. -/
theorem attempt_of_parse (hplan : t.plan.MarksOnce) (hn : Sheet.parse Sheet.unnamed css = .ok n)
    (file : Option String) :
    { t with file := file }.attempt css =
      if t.plan.crashesIn n then .error .crash
      else .ok ((t.plan.process n).1.print t.layout, (t.plan.process n).2) := by
  have hread : { t with file := file }.read css = .ok n := Sheet.parse_eq_ok_iff_unnamed.mpr hn
  have hdraft := Plan.processDraft_eq hplan hn
  rw [attempt, hread]
  dsimp only
  cases hprocess : t.plan.processDraft (.ofNode n) with
  | none =>
    rw [hprocess, Option.map_none] at hdraft
    split at hdraft
    · rename_i h
      rw [if_pos h]
    · cases hdraft
  | some after =>
    rw [hprocess, Option.map_some] at hdraft
    split at hdraft
    · cases hdraft
    · rename_i h
      rw [if_neg h, ← Option.some.inj hdraft]

/-- A text that cannot be read is a failure. -/
theorem exists_attempt_eq_failure {f : Failure} (h : Sheet.parse Sheet.unnamed css = .error f)
    (file : Option String) : ∃ f', { t with file := file }.attempt css = .error (.failure f') := by
  obtain ⟨f', hf⟩ := Sheet.exists_parse_eq_error h (file.getD Sheet.unnamed)
  exact ⟨f', attempt_of_error hf⟩

end Transformer

/-! ## Files with style sheets -/

namespace Disk

/-- Whether a file holds a text that is read as a style sheet. -/
def Holds (disk : Disk) (p : Place) (n : Node) : Prop :=
  ∃ css : String, disk.bytes? p = some css.toUTF8 ∧ Sheet.parse Sheet.unnamed css = .ok n

/-- Whether the bytes of a file are no text, or a text with a fault. -/
inductive Unreadable (disk : Disk) (p : Place) : Prop
  | notText {bytes : ByteArray} : disk.bytes? p = some bytes → ¬ bytes.IsValidUTF8 →
    Unreadable disk p
  | fault {css : String} {f : Failure} : disk.bytes? p = some css.toUTF8 →
    Sheet.parse Sheet.unnamed css = .error f → Unreadable disk p

/-- Whether a file holds a style sheet that does not end the program, and what it comes to: the
printed text of what the passes make of it, and what they change. -/
def Marked (disk : Disk) (t : Transformer) (p : Place) (css : String) (s : Statistics) : Prop :=
  ∃ n, disk.Holds p n ∧ t.plan.crashesIn n = false ∧
    css = (t.plan.process n).1.print t.layout ∧ s = (t.plan.process n).2

/-- Whether a file holds a style sheet that ends the program. -/
def Crashes (disk : Disk) (t : Transformer) (p : Place) : Prop :=
  ∃ n, disk.Holds p n ∧ t.plan.crashesIn n = true

variable {disk : Disk} {p : Place} {t : Transformer}

theorem Holds.marked {n : Node} (h : disk.Holds p n) (hcrash : t.plan.crashesIn n = false) :
    disk.Marked t p ((t.plan.process n).1.print t.layout) (t.plan.process n).2 :=
  ⟨n, h, hcrash, rfl, rfl⟩

/-- A file with a style sheet does not end the program, ends it, or cannot be read. -/
theorem marked_or_crashes_or_unreadable (h : (disk.bytes? p).isSome = true) (t : Transformer) :
    (∃ css s, disk.Marked t p css s) ∨ disk.Crashes t p ∨ disk.Unreadable p := by
  obtain ⟨bytes, hbytes⟩ := Option.isSome_iff_exists.mp h
  by_cases hvalid : bytes.IsValidUTF8
  · have htext : disk.bytes? p = some (String.ofByteArray bytes hvalid).toUTF8 := hbytes
    cases hn : Sheet.parse Sheet.unnamed (String.ofByteArray bytes hvalid) with
    | error f => exact .inr (.inr (.fault htext hn))
    | ok n =>
      cases hcrash : t.plan.crashesIn n with
      | true => exact .inr (.inl ⟨n, ⟨_, htext, hn⟩, hcrash⟩)
      | false => exact .inl ⟨_, _, Holds.marked ⟨_, htext, hn⟩ hcrash⟩
  · exact .inr (.inr (.notText hbytes hvalid))

/-- A file holds one style sheet at most. -/
theorem Holds.unique {n other : Node} (h : disk.Holds p n) (hother : disk.Holds p other) :
    n = other := by
  obtain ⟨css, hcss, hn⟩ := h
  obtain ⟨css', hcss', hother⟩ := hother
  obtain rfl : css = css' := String.toByteArray_inj.mp (Option.some.inj (hcss.symm.trans hcss'))
  exact Except.ok.inj (hn.symm.trans hother)

/-- So what it comes to is determined. -/
theorem Holds.eq_of_marked {n : Node} {css : String} {s : Statistics} (h : disk.Holds p n)
    (hmarked : disk.Marked t p css s) :
    css = (t.plan.process n).1.print t.layout ∧ s = (t.plan.process n).2 := by
  obtain ⟨other, hother, -, hcss, hs⟩ := hmarked
  obtain rfl := h.unique hother
  exact ⟨hcss, hs⟩

theorem Holds.congr {now : Disk} {n : Node} (h : disk.Holds p n)
    (hbytes : now.bytes? p = disk.bytes? p) : now.Holds p n := by
  obtain ⟨css, hcss, hn⟩ := h
  exact ⟨css, hbytes.trans hcss, hn⟩

theorem Unreadable.congr {now : Disk} (h : disk.Unreadable p)
    (hbytes : now.bytes? p = disk.bytes? p) : now.Unreadable p := by
  cases h with
  | notText h hinvalid => exact .notText (hbytes.trans h) hinvalid
  | fault hcss hf => exact .fault (hbytes.trans hcss) hf

/-- The disk with the directories above what a path leads to. -/
def withDirectoryOf (disk : Disk) (path : String) : Except FileError Disk :=
  if Path.directory path != "" then
    disk.makeDirectories [] (Text.splitOn '/' (Path.directory path))
  else .ok disk

/-- The directories above what a joined path leads to are those on the way. -/
theorem withDirectoryOf_join {base : String} {names : List String} {made : Disk}
    (hbase : Path.isAbsolute base = false) (hne : names ≠ [])
    (hnames : ∀ name ∈ names, Path.IsEntry name)
    (h : disk.makeDirectories [] (Text.splitOn '/' base ++ names.dropLast) = .ok made) :
    disk.withDirectoryOf (Path.join base (Text.join "/" names)) = .ok made := by
  have habove := Path.isEntry_of_mem_dropLast hnames
  have hmake := makeDirectories_filter h
  have hpieces : ∀ name ∈ Path.names base ++ names.dropLast, name ≠ "" ∧ '/' ∉ name.toList := by
    rw [List.forall_mem_append]
    exact ⟨fun name hname => Path.ne_empty_and_slash_not_mem_of_mem_names hname,
      fun name hname => ⟨(habove name hname).ne_empty, (habove name hname).slash_not_mem⟩⟩
  rw [List.filter_append, Path.filter_eq_self habove] at hmake
  change disk.makeDirectories [] (Path.names base ++ names.dropLast) = .ok made at hmake
  rw [withDirectoryOf, Path.directory_join hbase hne hnames]
  by_cases hempty : Path.names base ++ names.dropLast = []
  · rw [hempty] at hmake ⊢
    exact hmake
  · rw [if_pos (bne_iff_ne.mpr (Text.join_ne_empty Path.toList_slash hempty hpieces)),
      Text.splitOn_join Path.toList_slash hempty fun name hname => (hpieces name hname).2, hmake]

end Disk

namespace CommandLine

variable {α β : Type}

/-! ## One step after another -/

/-- What a step comes to on a machine, and the machine after it. -/
def outcome (step : Step (StateM Machine) α) (machine : Machine) : Except Stop α × Machine :=
  (step.run.run machine).run

section Bind

variable {step : Step (StateM Machine) α} {next : α → Step (StateM Machine) β}
variable {before middle : Machine}

theorem outcome_bind_ok {a : α} (h : outcome step before = (.ok a, middle)) :
    outcome (step >>= next) before = outcome (next a) middle := by
  have hrun : step.run.run before = pure (Except.ok a, middle) := h
  rw [outcome, ExceptT.run_bind, StateT.run_bind, hrun]
  rfl

theorem outcome_bind_error {stop : Stop} (h : outcome step before = (.error stop, middle)) :
    outcome (step >>= next) before = (.error stop, middle) := by
  have hrun : step.run.run before = pure (Except.error stop, middle) := h
  rw [outcome, ExceptT.run_bind, StateT.run_bind, hrun]
  rfl

end Bind

theorem outcome_pure (a : α) (machine : Machine) : outcome (pure a) machine = (.ok a, machine) :=
  rfl

theorem outcome_orFail {result : Except Failure α} {a : α} (h : result = .ok a)
    (machine : Machine) :
    outcome (orFail result : Step (StateM Machine) α) machine = (.ok a, machine) := by
  rw [h]
  rfl

/-- The operations of a host cannot make a command fail by themselves. -/
theorem outcome_lift (operation : StateM Machine α) (machine : Machine) :
    outcome (operation : Step (StateM Machine) α) machine =
      (.ok (operation.run machine).run.1, (operation.run machine).run.2) :=
  rfl

theorem outcome_print (machine : Machine) (text : String) :
    outcome (Machine.host.print text : Step (StateM Machine) Unit) machine =
      (.ok (), { machine with output := machine.output ++ text }) :=
  rfl

/-- A change of the disk that succeeds changes nothing else. -/
theorem outcome_update (operation : Disk → Except FileError Disk) {machine : Machine}
    {disk : Disk} (h : operation machine.disk = .ok disk) :
    outcome (orIo (Machine.update operation)) machine =
      (.ok (), { machine with disk := disk }) := by
  have hupdate : outcome (Machine.update operation : Step (StateM Machine) _) machine =
      (.ok (.ok ()), { machine with disk := disk }) := by
    simp only [outcome_lift, Machine.update, StateT.run_bind, StateT.run_get, pure_bind, h]
    rfl
  rw [orIo, outcome_bind_ok hupdate]
  rfl

theorem outcome_makeDirectory (machine : Machine) {path : String} {disk : Disk}
    (h : machine.disk.makeDirectories [] (Text.splitOn '/' path) = .ok disk) :
    outcome (orIo (Machine.host.makeDirectory path)) machine =
      (.ok (), { machine with disk := disk }) :=
  outcome_update (fun disk => disk.makeDirectories [] (Text.splitOn '/' path)) h

theorem outcome_writeFile (machine : Machine) {path text : String} {disk : Disk}
    (h : machine.disk.writeFile path text = .ok disk) :
    outcome (orIo (Machine.host.writeFile path text)) machine =
      (.ok (), { machine with disk := disk }) :=
  outcome_update (fun disk => disk.writeFile path text) h

/-! ## Files -/

section Transform

variable {machine : Machine} {path : String} {p : Place} {t : Transformer}
  (hplace : machine.disk.place path = .ok p)
include hplace

theorem outcome_readFile {css : String} (h : machine.disk.bytes? p = some css.toUTF8) :
    outcome (readFile Machine.host path) machine = (.ok css, machine) := by
  have hvalid : css.toUTF8.IsValidUTF8 := css.isValidUTF8
  have htext : String.fromUTF8? css.toUTF8 = some css := by
    rw [String.fromUTF8?, dif_pos hvalid]
    rfl
  have hread : outcome (Machine.host.readFile path : Step (StateM Machine) _) machine =
      (.ok (machine.disk.readFile path), machine) := rfl
  rw [Disk.readFile_eq hplace h, htext] at hread
  rw [readFile, outcome_bind_ok hread]
  rfl

/-- Transforming a file with a style sheet changes nothing. -/
theorem outcome_transformFile {n : Node} (hplan : t.plan.MarksOnce)
    (h : machine.disk.Holds p n) :
    outcome (transformFile Machine.host t path) machine =
      (if t.plan.crashesIn n then .error .crash
        else .ok ((t.plan.process n).1.print t.layout, (t.plan.process n).2), machine) := by
  obtain ⟨css, hcss, hn⟩ := h
  rw [transformFile, outcome_bind_ok (outcome_readFile hplace hcss),
    ← t.attempt_of_parse hplan hn (some path)]
  rfl

/-- Nor does a file that cannot be read. -/
theorem exists_outcome_transformFile_unreadable (t : Transformer) (h : machine.disk.Unreadable p) :
    ∃ f, outcome (transformFile Machine.host t path) machine = (.error (.failure f), machine) := by
  rw [transformFile]
  cases h with
  | @notText bytes hbytes hinvalid =>
    have htext : String.fromUTF8? bytes = none := by rw [String.fromUTF8?, dif_neg hinvalid]
    have hread : outcome (Machine.host.readFile path : Step (StateM Machine) _) machine =
        (.ok (machine.disk.readFile path), machine) := rfl
    rw [Disk.readFile_eq hplace hbytes, htext] at hread
    have hfail : outcome (readFile Machine.host path) machine = (.error (.failure
        (.missingFile (path ++ ": " ++ FileError.notText.message))), machine) := by
      rw [readFile, outcome_bind_ok hread]
      rfl
    exact ⟨_, outcome_bind_error hfail⟩
  | fault hcss hf =>
    obtain ⟨f', hattempt⟩ := Transformer.exists_attempt_eq_failure (t := t) hf (some path)
    refine ⟨f', ?_⟩
    rw [outcome_bind_ok (outcome_readFile hplace hcss), hattempt]
    rfl

end Transform

/-- A result is written after everything before it has succeeded. -/
theorem outcome_processFile {machine : Machine} {t : Transformer} {input output css : String}
    {s : Statistics} {made after : Disk}
    (hcss : outcome (transformFile Machine.host t input) machine = (.ok (css, s), machine))
    (hmade : machine.disk.withDirectoryOf output = .ok made)
    (hafter : made.writeFile output css = .ok after) :
    outcome (processFile Machine.host t input output) machine =
      (.ok s, { machine with disk := after }) := by
  rw [processFile, outcome_bind_ok hcss]
  dsimp only
  rw [Disk.withDirectoryOf] at hmade
  by_cases hdirectory : (Path.directory output != "") = true
  · rw [if_pos hdirectory] at hmade ⊢
    have hwrite := outcome_writeFile { machine with disk := made } hafter
    rw [outcome_bind_ok (outcome_makeDirectory machine hmade), outcome_bind_ok hwrite]
    rfl
  · rw [if_neg hdirectory] at hmade ⊢
    obtain rfl := Except.ok.inj hmade
    rw [outcome_bind_ok (outcome_writeFile machine hafter)]
    rfl

end CommandLine
end VendorPrefixing
