import UnoApi.Integration.Timestamps
import Mathlib.Data.List.Perm.Lattice

/-!
# The parameter sweep

`parameter-sweep.sh` runs the program for pairs of a workload and a grain size and keeps
what each run prints in a file named after the pair.  `extract-data.sh` takes the pair
out of the name and the total out of the file.
-/

namespace UnoApi.Integration

open UnoApi.Machine UnoApi.Input

/-! ## The scripts -/

abbrev Pair := List Char × List Char

def workloads : List (List Char) :=
  ["1000000000", "10000000000", "100000000000"].map String.toList

def grainSizes : List (List Char) :=
  ["10", "20", "50", "100", "200", "500", "1000", "2000", "5000", "10000", "20000", "50000",
    "100000", "200000", "500000", "1000000", "2000000", "5000000", "10000000", "20000000",
    "50000000", "100000000"].map String.toList

def sweepPairs : List Pair := workloads ×ˢ grainSizes

def filePrefix : List Char := "nvidia-perf-".toList

def fileSuffix : List Char := ".txt".toList

def fileName (p : Pair) : List Char := filePrefix ++ (p.1 ++ '-' :: (p.2 ++ fileSuffix))

/-- What a run prints without `-p`: its log, its result and maybe the function values, in
lines, and then the table of the timestamps. -/
structure SweepRun where
  before : List (List Char)
  runSequentially : Bool
  showFunctionValues : Bool
  clock : Nat → TimePoint
  deviceName : List Char

def SweepRun.timestamps (r : SweepRun) : Timestamps :=
  mainTimestamps r.runSequentially r.showFunctionValues r.clock

def SweepRun.output (r : SweepRun) : List Char :=
  (r.before.flatMap fun line => line ++ ['\n']) ++
    (printTimestamps r.timestamps r.deviceName).getD []

abbrev Directory := List Char → Option (List Char)

/-- The directory after the runs, each of which creates or overwrites its file. -/
def sweep (runs : Pair → SweepRun) (pairs : List Pair) (directory : Directory) : Directory :=
  pairs.foldl
    (fun directory p => Function.update directory (fileName p) (some (runs p).output)) directory

/-- The files that `${prefix}*.txt` stands for, in whatever order. -/
structure Matched (directory : Directory) (names : List (List Char)) : Prop where
  nodup : names.Nodup
  mem_iff : ∀ name, name ∈ names ↔
    (directory name).isSome ∧ ∃ middle, name = filePrefix ++ (middle ++ fileSuffix)

/-- The line that the loop of `extract-data.sh` prints for a file; the shell joins the lines
that the pipe finds. -/
def extractLine (directory : Directory) (row name : List Char) : List Char :=
  let x := removePrefix filePrefix name
  let n := beforeLast '-' x
  let g := removeSuffix fileSuffix (afterFirst '-' x)
  n ++ ',' :: (g ++ ',' ::
    ([' '].intercalate (extractData row ((directory name).getD []))))

/-! ## The names of the files -/

def Spelled (p : Pair) : Prop := '-' ∉ p.1 ∧ '-' ∉ p.2

theorem spelled_of_mem_sweepPairs : ∀ p ∈ sweepPairs, Spelled p := by
  unfold Spelled
  decide

theorem sweepPairs_nodup : sweepPairs.Nodup := by
  have hworkloads : workloads.Nodup := by decide
  have hgrainSizes : grainSizes.Nodup := by decide
  exact hworkloads.product hgrainSizes

theorem parse_fileName {p : Pair} (hp : Spelled p) :
    let x := removePrefix filePrefix (fileName p)
    beforeLast '-' x = p.1 ∧ removeSuffix fileSuffix (afterFirst '-' x) = p.2 := by
  intro x
  have hx : x = p.1 ++ '-' :: (p.2 ++ fileSuffix) := removePrefix_append _ _
  have hsuffix : '-' ∉ p.2 ++ fileSuffix := by
    rw [List.mem_append]
    exact not_or.mpr ⟨hp.2, by decide⟩
  rw [hx]
  constructor
  · exact beforeLast_append_cons hsuffix p.1
  · rw [afterFirst_append_cons hp.1, removeSuffix_append]

theorem eq_of_fileName_eq {p q : Pair} (hp : Spelled p) (hq : Spelled q)
    (h : fileName p = fileName q) : p = q := by
  obtain ⟨hn, hg⟩ := parse_fileName hp
  obtain ⟨hn', hg'⟩ := parse_fileName hq
  rw [h] at hn hg
  exact Prod.ext (hn.symm.trans hn') (hg.symm.trans hg')

theorem fileName_matches (p : Pair) :
    ∃ middle, fileName p = filePrefix ++ (middle ++ fileSuffix) :=
  ⟨p.1 ++ '-' :: p.2, by simp [fileName]⟩

/-! ## The files after the sweep -/

theorem sweep_of_notMem {runs : Pair → SweepRun} {pairs : List Pair} {directory : Directory}
    {name : List Char} (h : ∀ p ∈ pairs, fileName p ≠ name) :
    sweep runs pairs directory name = directory name := by
  induction pairs generalizing directory with
  | nil => rfl
  | cons p pairs ih =>
      have hp : fileName p ≠ name := h p List.mem_cons_self
      exact (ih fun q hq => h q (List.mem_cons_of_mem p hq)).trans
        (Function.update_of_ne (Ne.symm hp) _ _)

theorem sweep_fileName {runs : Pair → SweepRun} {pairs : List Pair} {directory : Directory}
    (hspelled : ∀ p ∈ pairs, Spelled p) (hnodup : pairs.Nodup) {p : Pair} (hp : p ∈ pairs) :
    sweep runs pairs directory (fileName p) = some (runs p).output := by
  induction pairs generalizing directory with
  | nil => simp at hp
  | cons q pairs ih =>
      obtain ⟨hq, hnodup⟩ := List.nodup_cons.mp hnodup
      have hrest : ∀ r ∈ pairs, Spelled r := fun r hr => hspelled r (List.mem_cons_of_mem q hr)
      rcases List.mem_cons.mp hp with rfl | hp
      · have hother : ∀ r ∈ pairs, fileName r ≠ fileName p := by
          intro r hr heq
          have hsame := eq_of_fileName_eq (hrest r hr) (hspelled p List.mem_cons_self) heq
          exact hq (hsame ▸ hr)
        exact (sweep_of_notMem hother).trans (Function.update_self _ _ _)
      · exact ih hrest hnodup hp

/-! ## The lines of the table -/

/-- A run whose output does not contain the word that the script searches, but for the
total. -/
structure SweepRun.Clean (r : SweepRun) : Prop where
  lines : ∀ line ∈ r.before, '\n' ∉ line
  notTotal : ∀ line ∈ r.before, ¬ "TOTAL".toList <:+: line
  device : '\n' ∉ r.deviceName
  deviceNotTotal : ¬ "TOTAL".toList <:+: r.deviceName

def SweepRun.elapsed (r : SweepRun) : Int :=
  (r.clock ((marks r.runSequentially r.showFunctionValues).length - 1)).val - (r.clock 0).val

theorem extractData_append {row : List Char} {before : List (List Char)}
    (hlines : ∀ line ∈ before, '\n' ∉ line) (hrow : ∀ line ∈ before, ¬ row <:+: line)
    (text : List Char) :
    extractData row ((before.flatMap fun line => line ++ ['\n']) ++ text) =
      extractData row text := by
  have hnone : before.filter (fun line => row <:+: line) = [] :=
    List.filter_eq_nil_iff.mpr fun line hline => by simpa using hrow line hline
  rw [extractData, closedPieces_append hlines, List.filter_append, hnone, List.nil_append,
    extractData]

theorem SweepRun.Clean.extractData_output {r : SweepRun} (h : r.Clean) :
    extractData "TOTAL".toList r.output = [printInt r.elapsed] := by
  obtain ⟨rest, hmain, hstop⟩ :=
    mainTimestamps_eq_cons r.runSequentially r.showFunctionValues r.clock
  have hlabels := cleanLabels_main r.runSequentially r.showFunctionValues r.clock
  rw [hmain] at hlabels
  obtain ⟨text, hprint, hextract⟩ := extractData_printed hlabels h.device h.deviceNotTotal
  rw [SweepRun.output, SweepRun.timestamps, hmain, hprint, Option.getD_some,
    extractData_append h.lines h.notTotal, hextract, sum_phaseRows, totalRow, hstop]
  rfl

/-! ## The whole pipeline -/

section

variable {runs : Pair → SweepRun} {directory : Directory}

theorem sweep_fileName_mem {p : Pair} (hp : p ∈ sweepPairs) :
    sweep runs sweepPairs directory (fileName p) = some (runs p).output :=
  sweep_fileName spelled_of_mem_sweepPairs sweepPairs_nodup hp

theorem fileNames_nodup : (sweepPairs.map fileName).Nodup := by
  apply List.Nodup.map_on ?_ sweepPairs_nodup
  intro p hp q hq h
  exact eq_of_fileName_eq (spelled_of_mem_sweepPairs p hp) (spelled_of_mem_sweepPairs q hq) h

/-- No file matches the pattern but those that the sweep overwrites. -/
def OnlySweepFiles (directory : Directory) : Prop :=
  ∀ middle, (directory (filePrefix ++ (middle ++ fileSuffix))).isSome →
    ∃ p ∈ sweepPairs, fileName p = filePrefix ++ (middle ++ fileSuffix)

theorem mem_fileNames_iff (honly : OnlySweepFiles directory) (name : List Char) :
    name ∈ sweepPairs.map fileName ↔ (sweep runs sweepPairs directory name).isSome ∧
      ∃ middle, name = filePrefix ++ (middle ++ fileSuffix) := by
  rw [List.mem_map]
  constructor
  · intro h
    obtain ⟨p, hp, rfl⟩ := h
    rw [sweep_fileName_mem hp]
    exact ⟨rfl, fileName_matches p⟩
  · intro h
    obtain ⟨hsome, middle, rfl⟩ := h
    by_contra hnone
    have hother : ∀ p ∈ sweepPairs, fileName p ≠ filePrefix ++ (middle ++ fileSuffix) :=
      fun p hp heq => hnone ⟨p, hp, heq⟩
    rw [sweep_of_notMem hother] at hsome
    exact hnone (honly middle hsome)

theorem Matched.perm {names : List (List Char)} (honly : OnlySweepFiles directory)
    (h : Matched (sweep runs sweepPairs directory) names) :
    names.Perm (sweepPairs.map fileName) := by
  apply (List.perm_ext_iff_of_nodup h.nodup fileNames_nodup).mpr
  intro name
  rw [h.mem_iff, mem_fileNames_iff honly]

theorem matched_fileNames (honly : OnlySweepFiles directory) :
    Matched (sweep runs sweepPairs directory) (sweepPairs.map fileName) :=
  ⟨fileNames_nodup, mem_fileNames_iff honly⟩

end

/-- Whatever order the shell lists the files in, the script prints one line for every pair
of the sweep, with the time of its run. -/
theorem extractLine_sweep (runs : Pair → SweepRun) (hclean : ∀ p ∈ sweepPairs, (runs p).Clean)
    {directory : Directory} (honly : OnlySweepFiles directory) {names : List (List Char)}
    (hnames : Matched (sweep runs sweepPairs directory) names) :
    (names.map (extractLine (sweep runs sweepPairs directory) "TOTAL".toList)).Perm
      (sweepPairs.map fun p => p.1 ++ ',' :: (p.2 ++ ',' :: printInt (runs p).elapsed)) := by
  refine ((hnames.perm honly).map _).trans (List.Perm.of_eq ?_)
  rw [List.map_map]
  apply List.map_congr_left
  intro p hp
  obtain ⟨hn, hg⟩ := parse_fileName (spelled_of_mem_sweepPairs p hp)
  rw [Function.comp_apply, extractLine, hn, hg, sweep_fileName_mem hp, Option.getD_some,
    (hclean p hp).extractData_output, List.intercalate_singleton]

theorem extractLine_sweep_seven :
    let runs : Pair → SweepRun := fun _ =>
      ⟨["result = 1".toList], true, false, fun k => if k = 0 then 5 else 12, "sequential".toList⟩
    ∃ names, Matched (sweep runs sweepPairs fun _ => none) names ∧
      (names.map (extractLine (sweep runs sweepPairs fun _ => none) "TOTAL".toList)).Perm
        (sweepPairs.map fun p => p.1 ++ ',' :: (p.2 ++ ',' :: ['7'])) := by
  intro runs
  have honly : OnlySweepFiles fun _ => none := fun _ h => absurd h (by simp)
  have hclean : ∀ p ∈ sweepPairs, (runs p).Clean := fun _ _ =>
    ⟨by decide, by decide, by decide, by decide⟩
  have helapsed : ∀ p, printInt (runs p).elapsed = ['7'] := fun _ => by decide
  have hlines := extractLine_sweep runs hclean honly (matched_fileNames honly)
  simp only [helapsed] at hlines
  exact ⟨_, matched_fileNames honly, hlines⟩

end UnoApi.Integration
