import Mathlib.Algebra.GroupWithZero.Nat
import VendorPrefixing.Proofs.Browser.Key
import VendorPrefixing.Proofs.CommandLine.Mirror
import VendorPrefixing.Proofs.Marking.Crash
import VendorPrefixing.Proofs.Marking.Undone
import VendorPrefixing.Proofs.Marking.Untouched

/-!
# Recursive runs

A recursive run marks the style sheets below a directory one after the other and stops at
the first one that cannot be read, or that ends the program.

Main results:

- Theorem `CommandLine.exists_outcome_processFile`: what one style sheet adds to what has
  been written.
- Theorem `CommandLine.exists_outcome_processAll`: what a stretch of style sheets adds to it.
- Theorem `CommandLine.recursive_run_stops_at_first_failure`: the exit code, the files and the
  statistics of a recursive run.
-/

namespace VendorPrefixing

namespace Statistics

/-- What several runs have changed together. -/
def sum (all : List Statistics) : Statistics where
  declarationsAdded := (all.map declarationsAdded).sum
  declarationsRemoved := (all.map declarationsRemoved).sum
  keyframesAdded := (all.map keyframesAdded).sum
  keyframesRemoved := (all.map keyframesRemoved).sum

theorem sum_cons (s : Statistics) (all : List Statistics) : sum (s :: all) = s.merge (sum all) := by
  simp only [sum, merge, List.map_cons, List.sum_cons]

end Statistics

namespace CommandLine

open Disk (Progress)

variable {disk : Disk} {t : Transformer} {root base : Place} {input : String}
variable {output : Option String} {names : List String} {done : List (List String)}
variable {machine : Machine}

/-- Where the result for a style sheet is written. -/
theorem target_eq (input : String) (output : Option String) (hne : names ≠ [])
    (hnames : ∀ name ∈ names, Path.IsEntry name) :
    target input output names = Path.join (output.getD input) (Text.join "/" names) := by
  cases output with
  | none => exact pathTo_eq input hne hnames
  | some out => rfl

/-- Different style sheets have different targets. -/
theorem target_inj {other : List String} (hne : names ≠ [])
    (hnames : ∀ name ∈ names, Path.IsEntry name)
    (hother : other ≠ []) (hothers : ∀ name ∈ other, Path.IsEntry name)
    (h : target input output names = target input output other) : names = other := by
  rw [target_eq input output hne hnames, target_eq input output hother hothers] at h
  have hpath := congrArg Path.names h
  rw [Path.names_join _ hne hnames, Path.names_join _ hother hothers] at hpath
  exact List.append_cancel_left hpath

theorem nodup_map_target {files : List (List String)} (hsound : disk.Sound)
    (hwalk : disk.Walks root files) : (files.map (target input output)).Nodup := by
  have hsheet := fun names => (hwalk.mem_iff names).mp
  have hnames := fun names hmem => hsound.isEntry_of_isSheet (hsheet names hmem)
  refine List.pairwise_map.mpr (hwalk.nodup.imp_of_mem fun hname hother hne heq => hne ?_)
  exact target_inj (hsheet _ hname).ne_nil (hnames _ hname) (hsheet _ hother).ne_nil
    (hnames _ hother) heq

section Run

variable (hmirrors : disk.Mirrors input root (output.getD input) base)
include hmirrors

/-- What has been written is where the targets lead. -/
theorem delivered (h : Progress disk t root (output.getD input) base done machine.disk) :
    disk.Delivered machine.disk t root base (target input output) done where
  toRewritten := h.toRewritten
  place_eq names hnames := by
    have hsheet := h.isSheet names hnames
    rw [target_eq input output hsheet.ne_nil (hmirrors.sound.isEntry_of_isSheet hsheet)]
    exact h.place_join hmirrors hnames

variable (hplan : t.plan.MarksOnce)
include hplan

/-- What one style sheet adds to what has been written. -/
theorem exists_outcome_processFile
    (h : Progress disk t root (output.getD input) base done machine.disk)
    (hsheet : disk.IsSheet root names) (hnew : names ∉ done) {css : String} {s : Statistics}
    (hmarked : disk.Marked t (root ++ names) css s) :
    ∃ after, outcome (processFile Machine.host t (pathTo input names)
        (target input output names)) machine = (.ok s, { machine with disk := after }) ∧
      Progress disk t root (output.getD input) base (done ++ [names]) after := by
  have hnames := hmirrors.sound.isEntry_of_isSheet hsheet
  obtain ⟨n, hholds, hcrash, rfl, rfl⟩ := id hmarked
  have hresult := outcome_transformFile (h.place_pathTo hmirrors hsheet) hplan
    (hholds.congr (h.bytes?_eq hmirrors.apart hnew))
  rw [hcrash, if_neg Bool.false_ne_true] at hresult
  obtain ⟨made, hmake, hwidens, hplace, hroom⟩ := h.exists_withDirectoryOf hmirrors hsheet
  have hwrite := Disk.writeFile_eq hplace
    (Path.endsWith_slash_join (output.getD input) hsheet.ne_nil hnames) hroom
    ((t.plan.process n).1.print t.layout)
  rw [target_eq input output hsheet.ne_nil hnames]
  exact ⟨_, outcome_processFile hresult hmake hwrite,
    h.write hmirrors.accepts hsheet hnew hwidens hroom hmarked⟩

omit hplan in
/-- A style sheet that cannot be read changes nothing. -/
theorem exists_outcome_processFile_unreadable
    (h : Progress disk t root (output.getD input) base done machine.disk)
    (hsheet : disk.IsSheet root names) (hnew : names ∉ done)
    (hbad : disk.Unreadable (root ++ names)) (target : String) :
    ∃ f, outcome (processFile Machine.host t (pathTo input names) target) machine =
      (.error (.failure f), machine) := by
  obtain ⟨f, hresult⟩ := exists_outcome_transformFile_unreadable (h.place_pathTo hmirrors hsheet) t
    (hbad.congr (h.bytes?_eq hmirrors.apart hnew))
  exact ⟨f, outcome_bind_error hresult⟩

/-- Nor does one that ends the program. -/
theorem outcome_processFile_crash
    (h : Progress disk t root (output.getD input) base done machine.disk)
    (hsheet : disk.IsSheet root names) (hnew : names ∉ done)
    (hcrashes : disk.Crashes t (root ++ names)) (target : String) :
    outcome (processFile Machine.host t (pathTo input names) target) machine =
      (.error .crash, machine) := by
  obtain ⟨n, hholds, hcrash⟩ := hcrashes
  have hresult := outcome_transformFile (h.place_pathTo hmirrors hsheet) hplan
    (hholds.congr (h.bytes?_eq hmirrors.apart hnew))
  rw [hcrash, if_pos rfl] at hresult
  exact outcome_bind_error hresult

/-- What a stretch of style sheets adds to what has been written. -/
theorem exists_outcome_processAll (machine : Machine) {good : List (List String)}
    {changes : List Statistics}
    (h : Progress disk t root (output.getD input) base done machine.disk)
    (hsheets : ∀ names ∈ good, disk.IsSheet root names)
    (hgood : List.Forall₂ (fun names s => ∃ css, disk.Marked t (root ++ names) css s) good changes)
    (hnodup : (done ++ good).Nodup) (total : Statistics) :
    ∃ after : Machine,
      Progress disk t root (output.getD input) base (done ++ good) after.disk ∧
      after.messages = machine.messages ∧
      ∀ rest, outcome (processAll Machine.host t input output total (good ++ rest)) machine =
        outcome (processAll Machine.host t input output (total.merge (.sum changes)) rest)
          after := by
  induction hgood generalizing done machine total with
  | nil => exact ⟨machine, by rwa [List.append_nil], rfl, fun rest => rfl⟩
  | @cons names s good changes hmarked _ ih =>
    rw [List.forall_mem_cons] at hsheets
    obtain ⟨hsheet, hsheets⟩ := hsheets
    obtain ⟨css, hmarked⟩ := hmarked
    have hnew : names ∉ done := fun hdone =>
      (List.nodup_append.mp hnodup).2.2 names hdone names List.mem_cons_self rfl
    obtain ⟨disk', hstep, hprogress⟩ :=
      exists_outcome_processFile hmirrors hplan h hsheet hnew hmarked
    have happend : done ++ names :: good = done ++ [names] ++ good := by
      rw [List.append_assoc, List.singleton_append]
    rw [happend] at hnodup ⊢
    -- The line about the style sheet is printed before the next one is read.
    obtain ⟨after, hafter, hmessages, hrest⟩ := ih
      { machine with
        disk := disk'
        output := machine.output ++
          ("✅ " ++ pathTo input names ++ " -> " ++ target input output names ++ "\n") }
      hprogress hsheets hnodup (total.merge s)
    refine ⟨after, hafter, hmessages, fun rest => ?_⟩
    rw [Statistics.sum_cons, ← Statistics.merge_assoc, ← hrest, List.cons_append, processAll,
      outcome_bind_ok hstep, outcome_bind_ok (outcome_print _ _)]

end Run

/-! ## The whole directory -/

theorem outcome_stylesheets {all : List (List String)} (machine : Machine)
    (h : machine.disk.filesBelow input = .ok all) :
    outcome (stylesheets Machine.host input) machine =
      (.ok (all.filter fun names => names.getLast?.any Path.isStylesheet), machine) := by
  have hfiles : outcome (Machine.host.filesBelow input : Step (StateM Machine) _) machine =
      (.ok (.ok all), machine) := by
    rw [← h]
    rfl
  rw [stylesheets, outcome_bind_ok hfiles]
  rfl

/-- Style sheets that do not end the program are all marked. -/
theorem forall₂_marked {files : List (List String)} {sheets : List Node}
    (hsheets : List.Forall₂ (fun names n => disk.Holds (root ++ names) n) files sheets)
    (hcrash : ∀ n ∈ sheets, t.plan.crashesIn n = false) :
    List.Forall₂ (fun names s => ∃ css, disk.Marked t (root ++ names) css s) files
      (sheets.map fun n => (t.plan.process n).2) := by
  induction hsheets with
  | nil => exact .nil
  | cons hholds _ ih =>
    rw [List.forall_mem_cons] at hcrash
    exact .cons ⟨_, hholds.marked hcrash.1⟩ (ih hcrash.2)

section Directory

variable (machine : Machine) {files : List (List String)}
variable (hmirrors : machine.disk.Mirrors input root (output.getD input) base)
variable (hwalk : machine.disk.Walks root files)
variable (hfiles : outcome (stylesheets Machine.host input) machine = (.ok files, machine))
variable (hplan : t.plan.MarksOnce)
include hmirrors hwalk hfiles hplan

/-- If all style sheets can be marked, there is a result for each of them. -/
theorem exists_outcome_processDirectory {changes : List Statistics}
    (hgood : List.Forall₂ (fun names s => ∃ css, machine.disk.Marked t (root ++ names) css s)
      files changes) :
    ∃ after : Machine,
      outcome (processDirectory Machine.host t input output) machine =
        (.ok (.sum changes), after) ∧
      machine.disk.Delivered after.disk t root base (target input output) files ∧
      after.messages = machine.messages := by
  obtain ⟨after, hafter, hmessages, hrun⟩ := exists_outcome_processAll hmirrors hplan machine
    Disk.progress_nil (fun names hnames => (hwalk.mem_iff names).mp hnames) hgood hwalk.nodup .zero
  have hall := hrun []
  rw [List.append_nil, Statistics.zero_merge, processAll_nil, outcome_pure] at hall
  refine ⟨{ after with
      output := after.output ++ ("Processed " ++ toString files.length ++ " files\n") },
    ?_, delivered hmirrors hafter, hmessages⟩
  rw [processDirectory, outcome_bind_ok hfiles, outcome_bind_ok hall,
    outcome_bind_ok (outcome_print _ _), outcome_pure]

/-- Otherwise there are results for those before the first one that stops the run. -/
theorem exists_outcome_processDirectory_stop {bad : List String} {rest : List (List String)}
    (hsplit : files = done ++ bad :: rest)
    (hgood : ∀ names ∈ done, ∃ css s, machine.disk.Marked t (root ++ names) css s)
    (Stops : Stop → Prop)
    (hbad : ∀ now : Machine, Progress machine.disk t root (output.getD input) base done now.disk →
      bad ∉ done → machine.disk.IsSheet root bad → ∃ stop, Stops stop ∧
        outcome (processFile Machine.host t (pathTo input bad) (target input output bad)) now =
          (.error stop, now)) :
    ∃ stop, Stops stop ∧ ∃ after : Machine,
      outcome (processDirectory Machine.host t input output) machine = (.error stop, after) ∧
      machine.disk.Delivered after.disk t root base (target input output) done ∧
      after.messages = machine.messages := by
  have hsheets : ∀ names ∈ done ++ bad :: rest, machine.disk.IsSheet root names :=
    fun names hnames => (hwalk.mem_iff names).mp (hsplit ▸ hnames)
  have hnodup : (done ++ bad :: rest).Nodup := hsplit ▸ hwalk.nodup
  rw [List.forall_mem_append, List.forall_mem_cons] at hsheets
  obtain ⟨changes, hchanges⟩ := exists_forall₂_of_forall fun names hnames =>
    exists_comm.mp (hgood names hnames)
  obtain ⟨after, hafter, hmessages, hrun⟩ := exists_outcome_processAll hmirrors hplan machine
    Disk.progress_nil hsheets.1 hchanges (List.nodup_append.mp hnodup).1 .zero
  have hnew : bad ∉ done := fun hdone =>
    (List.nodup_append.mp hnodup).2.2 bad hdone bad List.mem_cons_self rfl
  obtain ⟨stop, hstop, hfile⟩ := hbad after hafter hnew hsheets.2.1
  have hall := hrun (bad :: rest)
  rw [← hsplit, processAll, outcome_bind_error hfile] at hall
  refine ⟨stop, hstop, after, ?_, delivered hmirrors hafter, hmessages⟩
  rw [processDirectory, outcome_bind_ok hfiles, outcome_bind_error hall]

end Directory

/-! ## The whole run -/

/-- The configuration in a file on a disk, if one is named. -/
def configuration (disk : Disk) : Option String → Except Failure Configuration
  | none => .ok .empty
  | some path =>
    match disk.readFile path with
    | .error e => .error (.missingFile ("Config file " ++ path ++ ": " ++ e.message))
    | .ok text => Configuration.read path text

theorem exists_of_map_eq_ok {α β : Type} {result : Except Failure α} {f : α → β} {b : β}
    (h : result.map f = .ok b) : ∃ a, result = .ok a ∧ f a = b := by
  cases result with
  | error failure => cases h
  | ok a => exact ⟨a, rfl, Except.ok.inj h⟩

/-- The transformer that a request to mark style sheets asks for. -/
def transformer (c : Configuration) (r : ProcessRequest) : Except Failure Transformer :=
  (Transformer.ofRequirements (requirements c r.browsers)).map fun t =>
    { t with layout := layout c r }

/-- The exit code of a run on a machine, and the machine after it. -/
def execute (args : List String) (machine : Machine) : Nat × Machine :=
  ((run Machine.host args).run machine).run

variable {c : Configuration} {r : ProcessRequest} {args : List String}

theorem outcome_perform_process {path : Option String} (machine : Machine)
    (hc : configuration machine.disk path = .ok c) (r : ProcessRequest) :
    outcome (perform Machine.host ⟨path, .process r⟩) machine =
      outcome (process Machine.host c r) machine := by
  cases path with
  | none =>
    obtain rfl := Except.ok.inj hc
    rfl
  | some path =>
    rw [configuration] at hc
    have hread : outcome (Machine.host.readFile path : Step (StateM Machine) _) machine =
        (.ok (machine.disk.readFile path), machine) := rfl
    cases htext : machine.disk.readFile path with
    | error e =>
      rw [htext] at hc
      cases hc
    | ok text =>
      rw [htext] at hc hread
      dsimp only at hc
      rw [perform]
      dsimp only
      rw [outcome_bind_ok hread, outcome_bind_ok (outcome_orFail hc machine)]

/-- A recursive request is carried out on the directory it names. -/
theorem outcome_process (machine : Machine) (ht : transformer c r = .ok t)
    (hdeep : r.deep = true) (hinput : r.input ≠ "-")
    (hdirectory : machine.disk.isDirectory r.input = true) :
    outcome (process Machine.host c r) machine =
      outcome (do
        let s ← processDirectory Machine.host t r.input (r.output <|> c.outputDirectory)
        if r.showStatistics then
          Machine.host.report (statisticsText s)) machine := by
  obtain ⟨t', ht', rfl⟩ := exists_of_map_eq_ok ht
  have htest : outcome (Machine.host.isDirectory r.input : Step (StateM Machine) _) machine =
      (.ok true, machine) := by
    rw [← hdirectory]
    rfl
  have hif : (r.deep && r.input != "-") = true := by
    rw [hdeep, Bool.true_and, bne_iff_ne]
    exact hinput
  rw [process]
  dsimp only
  rw [outcome_bind_ok (outcome_orFail ht' machine), if_pos hif, outcome_bind_ok htest,
    if_neg hinput]
  rfl

theorem execute_of_ok {i : Invocation} {after : Machine} (hargs : Invocation.read args = .ok i)
    (h : outcome (perform Machine.host i) machine = (.ok (), after)) :
    execute args machine = (0, after) := by
  have hrun : (perform Machine.host i).run.run machine = pure (Except.ok (), after) := h
  rw [execute, run, hargs]
  dsimp only
  rw [StateT.run_bind, hrun]
  rfl

theorem execute_of_failure {i : Invocation} {f : Failure} {after : Machine}
    (hargs : Invocation.read args = .ok i)
    (h : outcome (perform Machine.host i) machine = (.error (.failure f), after)) :
    execute args machine = (1, { after with messages := after.messages ++ complaint f }) := by
  have hrun : (perform Machine.host i).run.run machine =
      pure (Except.error (.failure f), after) := h
  rw [execute, run, hargs]
  dsimp only
  rw [StateT.run_bind, hrun]
  rfl

theorem execute_of_crash {i : Invocation} {after : Machine} (hargs : Invocation.read args = .ok i)
    (h : outcome (perform Machine.host i) machine = (.error .crash, after)) :
    execute args machine = (crashCode, after) := by
  have hrun : (perform Machine.host i).run.run machine = pure (Except.error .crash, after) := h
  rw [execute, run, hargs]
  dsimp only
  rw [StateT.run_bind, hrun]
  rfl

/-- Whether arguments ask for the style sheets below a directory, and what is known before
the first of them is read. -/
structure Recurses (disk : Disk) (args : List String) (r : ProcessRequest) (c : Configuration)
    (t : Transformer) (root base : Place) : Prop where
  read_eq : ∃ path, Invocation.read args = .ok ⟨path, .process r⟩ ∧ configuration disk path = .ok c
  deep : r.deep = true
  input_ne : r.input ≠ "-"
  transformer_eq : transformer c r = .ok t
  place_eq : disk.place r.input = .ok root
  hasDirectory : disk.HasDirectory root
  receives : disk.Receives root (r.output <|> c.outputDirectory) base

theorem Recurses.exists_outcome_perform (h : Recurses machine.disk args r c t root base) :
    ∃ i, Invocation.read args = .ok i ∧
      outcome (perform Machine.host i) machine =
        outcome (do
          let s ← processDirectory Machine.host t r.input (r.output <|> c.outputDirectory)
          if r.showStatistics then
            Machine.host.report (statisticsText s)) machine := by
  obtain ⟨path, hargs, hc⟩ := h.read_eq
  have hdirectory := Disk.isDirectory_of_place h.place_eq h.hasDirectory
  exact ⟨_, hargs, (outcome_perform_process machine hc r).trans
    (outcome_process machine h.transformer_eq h.deep h.input_ne hdirectory)⟩

/-- The plan of a run lists no mark twice. -/
theorem Recurses.marksOnce (h : Recurses disk args r c t root base) : t.plan.MarksOnce := by
  obtain ⟨t', ht, rfl⟩ := exists_of_map_eq_ok h.transformer_eq
  obtain ⟨selection, -, rfl⟩ := exists_of_map_eq_ok ht
  exact Plan.marksOnce_build _ _ selection

/-- It ends the program at no style sheet in which the calls of every gradient stand apart. -/
theorem Recurses.crashesIn_eq_false (h : Recurses disk args r c t root base) {n : Node}
    (hn : n.GradientsApart) : t.plan.crashesIn n = false := by
  obtain ⟨t', ht, rfl⟩ := exists_of_map_eq_ok h.transformer_eq
  obtain ⟨selection, -, rfl⟩ := exists_of_map_eq_ok ht
  exact Plan.crashesIn_eq_false selection hn

/-- The exit code is one if carrying out the request fails on the directory. -/
theorem Recurses.exists_execute_of_failure (h : Recurses machine.disk args r c t root base)
    {f : Failure} {after : Machine}
    (hrun : outcome (processDirectory Machine.host t r.input (r.output <|> c.outputDirectory))
      machine = (.error (.failure f), after)) :
    ∃ final, execute args machine = (1, final) ∧ final.disk = after.disk := by
  obtain ⟨i, hargs, hperform⟩ := h.exists_outcome_perform
  rw [outcome_bind_error hrun] at hperform
  exact ⟨_, execute_of_failure hargs hperform, rfl⟩

/-- If that ends the program, nothing more happens. -/
theorem Recurses.execute_of_crash (h : Recurses machine.disk args r c t root base)
    {after : Machine}
    (hrun : outcome (processDirectory Machine.host t r.input (r.output <|> c.outputDirectory))
      machine = (.error .crash, after)) :
    execute args machine = (crashCode, after) := by
  obtain ⟨i, hargs, hperform⟩ := h.exists_outcome_perform
  rw [outcome_bind_error hrun] at hperform
  exact CommandLine.execute_of_crash hargs hperform

/-- The exit code is zero if it succeeds, and the statistics are reported on demand. -/
theorem Recurses.exists_execute_of_ok (h : Recurses machine.disk args r c t root base)
    {s : Statistics} {after : Machine}
    (hrun : outcome (processDirectory Machine.host t r.input (r.output <|> c.outputDirectory))
      machine = (.ok s, after)) :
    ∃ final, execute args machine = (0, final) ∧ final.disk = after.disk ∧
      final.messages = after.messages ++
        if r.showStatistics then statisticsText s else "" := by
  obtain ⟨i, hargs, hperform⟩ := h.exists_outcome_perform
  rw [outcome_bind_ok hrun] at hperform
  by_cases hshow : r.showStatistics = true
  · rw [if_pos hshow] at hperform ⊢
    exact ⟨_, execute_of_ok hargs (hperform.trans (outcome_lift _ _)), rfl, rfl⟩
  · rw [if_neg hshow] at hperform ⊢
    exact ⟨_, execute_of_ok hargs hperform, rfl, String.append_empty.symm⟩

/-- A directory with three style sheets, of which the second one is given by its bytes. -/
def threeSheets (second : ByteArray) : Disk where
  files :=
    [(["in", "a.css"], "a\x7bwidth:calc(1px + 1em)\x7d".toUTF8), (["in", "b.css"], second),
      (["in", "c.css"], "c\x7b\x7d".toUTF8)]
  directories := [["in"]]

section ThreeSheets

variable {second : ByteArray}

theorem fst_mem_threeSheets {f : Place × ByteArray} (hf : f ∈ (threeSheets second).files) :
    f.1 ∈ [["in", "a.css"], ["in", "b.css"], ["in", "c.css"]] :=
  List.mem_map_of_mem hf

theorem sound_threeSheets (second : ByteArray) : (threeSheets second).Sound where
  isEntry f hf := by
    have h : ∀ p ∈ [["in", "a.css"], ["in", "b.css"], ["in", "c.css"]],
        ∀ name ∈ p, Path.IsEntry name := by decide
    exact h f.1 (fst_mem_threeSheets hf)
  nodup := by
    change [["in", "a.css"], ["in", "b.css"], ["in", "c.css"]].Nodup
    decide
  not_hasDirectory f hf := by
    have h : ∀ p ∈ [["in", "a.css"], ["in", "b.css"], ["in", "c.css"]],
        ¬ (p = [] ∨ p ∈ [["in"]]) := by decide
    exact h f.1 (fst_mem_threeSheets hf)
  stands f hf front hfront := by
    have h : ∀ p ∈ [["in", "a.css"], ["in", "b.css"], ["in", "c.css"]],
        ∀ front ∈ p.dropLast.inits, front = [] ∨ front ∈ [["in"]] := by decide
    exact h f.1 (fst_mem_threeSheets hf) front ((List.mem_inits _ _).mpr hfront)

theorem walks_threeSheets :
    (threeSheets second).Walks ["in"] [["a.css"], ["b.css"], ["c.css"]] := by
  have hmem : ∀ names, names ∈ [["a.css"], ["b.css"], ["c.css"]] ↔
      ((threeSheets second).bytes? (["in"] ++ names)).isSome = true := by
    intro names
    rw [(sound_threeSheets second).isSome_bytes?_iff]
    simp [threeSheets, eq_comm]
  exact (sound_threeSheets second).walks hmem (by decide)

theorem accepts_threeSheets : (threeSheets second).Accepts ["in"] "out" ["out"] := by
  have hfree : ∀ p ∈ [["in", "a.css"], ["in", "b.css"], ["in", "c.css"]],
      ¬ p <+: ["out"] ∧ ¬ ["out"] <+: p := by decide
  change (threeSheets second).Accepts ["in"] (Text.join "/" ["out"]) ["out"]
  refine (sound_threeSheets second).accepts_of_new (by decide) (by decide)
    (fun front hfront => ?_) (fun f hf => (hfree f.1 (fst_mem_threeSheets hf)).2) ?_
  · rw [← Option.not_isSome_iff_eq_none, (sound_threeSheets second).isSome_bytes?_iff]
    rintro ⟨f, hf, rfl⟩
    exact (hfree f.1 (fst_mem_threeSheets hf)).1 hfront
  · change ∀ p ∈ [["in"]], ["out"] <+: p → p = ["out"]
    decide

/-- The arguments of a run for Chrome 25 that reports what has changed. -/
def chromeRun : List String :=
  ["process", "-r", "in", "-o", "out", "-b", "chrome 25", "--stats"]

/-- The request that they make. -/
def chromeRequest : ProcessRequest :=
  ⟨"in", some "out", some "chrome 25", false, none, false, true, true⟩

/-- The transformer for it. -/
def chromeTransformer : Transformer where
  plan := .ofSelection Plan.chrome25
  layout := .standard
  file := none

theorem recurses_threeSheets :
    Recurses (threeSheets second) chromeRun chromeRequest .empty chromeTransformer
      ["in"] ["out"] where
  read_eq := ⟨none, by decide +kernel, rfl⟩
  deep := rfl
  input_ne := by decide
  transformer_eq := by
    have hrequirements : requirements .empty chromeRequest.browsers = ["chrome 25"] := by
      decide +kernel
    have hselection :
        Requirement.resolveAll Browser.builtIn ["chrome 25"] = .ok Plan.chrome25 := by
      decide +kernel
    rw [transformer, hrequirements, Transformer.ofRequirements, hselection]
    rfl
  place_eq := by
    have hsplit : Text.splitOn '/' chromeRequest.input = ["in"] := by decide +kernel
    have hfollow : (threeSheets second).follow [] ["in"] = .ok ([] ++ ["in"]) :=
      Disk.follow_of_isEntry (by decide) fun front hfront => .inl (List.prefix_nil.mp hfront)
    rw [Disk.place, if_neg (by decide), hsplit, hfollow, List.nil_append]
  hasDirectory := .inr (List.mem_singleton_self _)
  receives := .into accepts_threeSheets (.inr (by decide))

/-- The style sheet in the first file. -/
def computedWidth : Node :=
  .block .sheet [.block (.rule ["a"]) [.ofDeclaration "width" "calc(1px + 1em)" ⟨1, 3⟩]]

theorem holds_first : (threeSheets second).Holds ["in", "a.css"] computedWidth :=
  ⟨_, rfl, by decide +kernel⟩

theorem gradientsApart_computedWidth : computedWidth.GradientsApart := by
  decide +kernel

/-- The text in which it is marked. -/
def computedWidthText : String :=
  "a \x7b\n  width: -webkit-calc(1px + 1em);\n  width: calc(1px + 1em);\n\x7d\n"

/-- What is added to it is not removed again. -/
theorem process_computedWidth :
    (chromeTransformer.plan.process computedWidth).1.print .standard = computedWidthText ∧
      (chromeTransformer.plan.process computedWidth).2 = ⟨1, 0, 0, 0⟩ := by
  have hprocess : chromeTransformer.plan.process computedWidth =
      chromeTransformer.plan.addition computedWidth :=
    Plan.process_of_bare (by decide) (by decide)
  rw [hprocess]
  decide +kernel

/-- A style sheet with one empty rule. -/
def emptyRule (selector : String) : Node :=
  .block .sheet [.block (.rule [selector]) []]

theorem process_emptyRule (selector : String) :
    (chromeTransformer.plan.process (emptyRule selector)).2 = .zero := by
  have hprocess : chromeTransformer.plan.process (emptyRule selector) =
      chromeTransformer.plan.addition (emptyRule selector) :=
    Plan.process_of_bare (List.forall_mem_nil _) (List.forall_mem_nil _)
  rw [hprocess]
  rfl

/-- A gradient inside of another one ends the program. -/
def nestedGradient : Node :=
  .block .sheet
    [.block (.rule ["b"])
      [.ofDeclaration "background" "linear-gradient(linear-gradient(red))" ⟨1, 3⟩]]

theorem delivered_first {after : Disk}
    (h : (threeSheets second).Delivered after chromeTransformer ["in"] ["out"]
      (target "in" (some "out")) done) (hdone : ["a.css"] ∈ done) :
    after.bytes? ["out", "a.css"] = some computedWidthText.toUTF8 := by
  obtain ⟨css, s, hmarked, hbytes⟩ := h.written ["a.css"] hdone
  have hholds : (threeSheets second).Holds (["in"] ++ ["a.css"]) computedWidth := holds_first
  have hcss : css = (chromeTransformer.plan.process computedWidth).1.print .standard :=
    (hholds.eq_of_marked hmarked).1
  rw [process_computedWidth.1] at hcss
  exact hcss ▸ hbytes

end ThreeSheets

end CommandLine
end VendorPrefixing
