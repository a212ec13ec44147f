import UnoApi.Input.Fields
import UnoApi.Input.Printing

/-!
# Timestamps

`main` marks the time after each of its phases and prints a table of the differences.
The script `extract-data.sh` picks the lines that contain a word and cuts out their second
field; with its default it finds the line of the total.
-/

namespace UnoApi.Integration

open UnoApi.Machine UnoApi.Input

abbrev TimePoint := Fin (2 ^ 63)

abbrev Timestamps := List (List Char × TimePoint)

def markTime (timestamps : Timestamps) (label : List Char) (now : TimePoint) : Timestamps :=
  timestamps ++ [(label, now)]

structure TimingRow where
  time : TimePoint
  delta : Int
  phase : List Char

/-- `ROW_FORMAT`, with `TIME_UNIT`, up to the newline. -/
def TimingRow.line (deviceName : List Char) (r : TimingRow) : List Char :=
  printInt r.time.val ++ ',' :: (printInt r.delta ++ ',' :: ("ns".toList ++ ',' ::
    (deviceName ++ ',' :: r.phase)))

def rowHeader : List Char := "TIME,DELTA,UNIT,DEVICE,PHASE".toList

/-- The rows of the loop; `previous` is `(t - 1)->second`. -/
def deltaRows (previous : TimePoint) : Timestamps → List TimingRow
  | [] => []
  | (label, time) :: rest => ⟨time, time.val - previous.val, label⟩ :: deltaRows time rest

def phaseRows (start : List Char × TimePoint) (rest : Timestamps) : List TimingRow :=
  ⟨start.2, 0, start.1⟩ :: deltaRows start.2 rest

def stopTime (start : List Char × TimePoint) (rest : Timestamps) : TimePoint :=
  ((start :: rest).getLast (List.cons_ne_nil start rest)).2

def totalRow (start : List Char × TimePoint) (rest : Timestamps) : TimingRow :=
  ⟨stopTime start rest, (stopTime start rest).val - start.2.val, "TOTAL".toList⟩

/-- `none` when there is no first timestamp. -/
def printTimestamps (timestamps : Timestamps) (deviceName : List Char) : Option (List Char) :=
  match timestamps with
  | [] => none
  | start :: rest =>
      some ((rowHeader :: (phaseRows start rest ++ [totalRow start rest]).map
        (TimingRow.line deviceName)).flatMap fun line => line ++ ['\n'])

/-! ## The script -/

/-- `cut -d, -f2` of one line. -/
def cutSecond (line : List Char) : List Char :=
  match line.splitOn ',' with
  | _ :: second :: _ => second
  | _ => line

/-- `grep $row $f | cut -d, -f2`, for a word without special characters. -/
def extractData (row text : List Char) : List (List Char) :=
  ((closedPieces '\n' text).filter fun line => row <:+: line).map cutSecond

theorem mem_printInt {v : Int} {c : Char} (h : c ∈ printInt v) : c.isDigit = true ∨ c = '-' := by
  unfold printInt at h
  split at h
  · rcases List.mem_cons.mp h with rfl | h
    · exact .inr rfl
    · exact .inl (isDigit_of_mem_toDigits h)
  · exact .inl (isDigit_of_mem_toDigits h)

theorem notMem_printInt {c : Char} (hdigit : c.isDigit = false) (hminus : c ≠ '-') (v : Int) :
    c ∉ printInt v := by
  intro h
  rcases mem_printInt h with h | h
  · exact absurd h (by simp [hdigit])
  · exact hminus h

theorem cutSecond_line (deviceName : List Char) (r : TimingRow) :
    cutSecond (r.line deviceName) = printInt r.delta := by
  unfold cutSecond TimingRow.line
  rw [List.splitOn_append_cons_self_of_not_mem (notMem_printInt (by decide) (by decide) _),
    List.splitOn_append_cons_self_of_not_mem (notMem_printInt (by decide) (by decide) _)]

/-- A word that the script can look for: it occurs in no number, and in nothing else that
every line contains. -/
structure IsKeyword (word deviceName : List Char) : Prop where
  noComma : ',' ∉ word
  letter : ∃ c ∈ word, c.isDigit = false ∧ c ≠ '-'
  notUnit : ¬ word <:+: "ns".toList
  notHeader : ¬ word <:+: rowHeader
  notDevice : ¬ word <:+: deviceName

theorem IsKeyword.not_infix_printInt {word deviceName : List Char} (h : IsKeyword word deviceName)
    (v : Int) : ¬ word <:+: printInt v := by
  intro hfound
  obtain ⟨c, hc, hdigit, hminus⟩ := h.letter
  exact notMem_printInt hdigit hminus v (hfound.subset hc)

theorem IsKeyword.infix_line_iff {word deviceName : List Char} (h : IsKeyword word deviceName)
    (r : TimingRow) : word <:+: r.line deviceName ↔ word <:+: r.phase := by
  unfold TimingRow.line
  rw [infix_append_cons_iff h.noComma, infix_append_cons_iff h.noComma,
    infix_append_cons_iff h.noComma, infix_append_cons_iff h.noComma]
  simp only [h.not_infix_printInt, h.notUnit, h.notDevice, false_or]

structure OneLine (deviceName : List Char) (rows : List TimingRow) : Prop where
  deviceName : '\n' ∉ deviceName
  phases : ∀ r ∈ rows, '\n' ∉ r.phase

theorem OneLine.line {deviceName : List Char} {rows : List TimingRow} (h : OneLine deviceName rows)
    {r : TimingRow} (hr : r ∈ rows) : '\n' ∉ r.line deviceName := by
  have htime := @notMem_printInt '\n' (by decide) (by decide) r.time.val
  have hdelta := @notMem_printInt '\n' (by decide) (by decide) r.delta
  simp [TimingRow.line, htime, hdelta, h.deviceName, h.phases r hr]

theorem extractData_rows {word deviceName : List Char} (hword : IsKeyword word deviceName)
    {rows : List TimingRow} (hlines : OneLine deviceName rows) :
    extractData word ((rowHeader :: rows.map (TimingRow.line deviceName)).flatMap
        fun line => line ++ ['\n']) =
      (rows.filter fun r => word <:+: r.phase).map fun r => printInt r.delta := by
  have hclosed : ∀ line ∈ rowHeader :: rows.map (TimingRow.line deviceName), '\n' ∉ line := by
    intro line hline
    rcases List.mem_cons.mp hline with rfl | hline
    · decide
    · obtain ⟨r, hr, rfl⟩ := List.mem_map.mp hline
      exact hlines.line hr
  have hphase : ∀ r ∈ rows, decide (word <:+: r.line deviceName) = decide (word <:+: r.phase) :=
    fun r _ => decide_eq_decide.mpr (hword.infix_line_iff r)
  rw [extractData, closedPieces_flatMap hclosed,
    List.filter_cons_of_neg (by simp [hword.notHeader]), List.filter_map, List.map_map]
  have hfilter : rows.filter ((fun line => decide (word <:+: line)) ∘ TimingRow.line deviceName) =
      rows.filter fun r => word <:+: r.phase := List.filter_congr hphase
  rw [hfilter]
  exact List.map_congr_left fun r _ => cutSecond_line deviceName r

/-! ## The total -/

theorem sum_deltaRows (label : List Char) (previous : TimePoint) (rest : Timestamps) :
    ((deltaRows previous rest).map TimingRow.delta).sum =
      (stopTime (label, previous) rest).val - (previous.val : Int) := by
  induction rest generalizing label previous with
  | nil =>
      rw [deltaRows, List.map_nil, List.sum_nil, stopTime, List.getLast_singleton]
      exact (Int.sub_self _).symm
  | cons next rest ih =>
      obtain ⟨label', time⟩ := next
      have hstop : stopTime (label, previous) ((label', time) :: rest) =
          stopTime (label', time) rest := by
        rw [stopTime, stopTime, List.getLast_cons_cons]
      rw [deltaRows, List.map_cons, List.sum_cons, ih label' time, hstop]
      dsimp only
      omega

theorem sum_phaseRows (start : List Char × TimePoint) (rest : Timestamps) :
    ((phaseRows start rest).map TimingRow.delta).sum = (totalRow start rest).delta := by
  rw [phaseRows, List.map_cons, List.sum_cons, sum_deltaRows start.1]
  exact zero_add _

theorem phases_deltaRows (previous : TimePoint) (rest : Timestamps) :
    (deltaRows previous rest).map TimingRow.phase = rest.map Prod.fst := by
  induction rest generalizing previous with
  | nil => rfl
  | cons next rest ih =>
      obtain ⟨label, time⟩ := next
      rw [deltaRows, List.map_cons, List.map_cons, ih]

theorem phases_phaseRows (start : List Char × TimePoint) (rest : Timestamps) :
    (phaseRows start rest).map TimingRow.phase = (start :: rest).map Prod.fst := by
  rw [phaseRows, List.map_cons, List.map_cons, phases_deltaRows]

/-- Labels that the table can hold and that do not look like the total. -/
structure CleanLabels (timestamps : Timestamps) : Prop where
  oneLine : ∀ t ∈ timestamps, '\n' ∉ t.1
  notTotal : ∀ t ∈ timestamps, ¬ "TOTAL".toList <:+: t.1

theorem isKeyword_total {deviceName : List Char} (h : ¬ "TOTAL".toList <:+: deviceName) :
    IsKeyword "TOTAL".toList deviceName where
  noComma := by decide
  letter := ⟨'T', by decide, by decide, by decide⟩
  notUnit := by decide
  notHeader := by decide
  notDevice := h

theorem extractData_printed {start : List Char × TimePoint} {rest : Timestamps}
    (hlabels : CleanLabels (start :: rest)) {deviceName : List Char}
    (hdevice : '\n' ∉ deviceName) (htotal : ¬ "TOTAL".toList <:+: deviceName) :
    ∃ text, printTimestamps (start :: rest) deviceName = some text ∧
      extractData "TOTAL".toList text =
        [printInt ((phaseRows start rest).map TimingRow.delta).sum] := by
  have hphase : ∀ r ∈ phaseRows start rest, ∃ t ∈ start :: rest, r.phase = t.1 := by
    intro r hr
    have hmem : r.phase ∈ (start :: rest).map Prod.fst := by
      rw [← phases_phaseRows]
      exact List.mem_map_of_mem hr
    obtain ⟨t, ht, heq⟩ := List.mem_map.mp hmem
    exact ⟨t, ht, heq.symm⟩
  have hlines : OneLine deviceName (phaseRows start rest ++ [totalRow start rest]) := by
    refine ⟨hdevice, ?_⟩
    intro r hr
    rcases List.mem_append.mp hr with hr | hr
    · obtain ⟨t, ht, heq⟩ := hphase r hr
      rw [heq]
      exact hlabels.oneLine t ht
    · obtain rfl := List.mem_singleton.mp hr
      change '\n' ∉ "TOTAL".toList
      decide
  have hnone : (phaseRows start rest).filter (fun r => "TOTAL".toList <:+: r.phase) = [] := by
    apply List.filter_eq_nil_iff.mpr
    intro r hr
    obtain ⟨t, ht, heq⟩ := hphase r hr
    rw [heq]
    simpa using hlabels.notTotal t ht
  have hfound : "TOTAL".toList <:+: (totalRow start rest).phase := List.infix_rfl
  refine ⟨_, rfl, ?_⟩
  rw [extractData_rows (isKeyword_total htotal) hlines, List.filter_append, hnone,
    List.nil_append, List.filter_cons_of_pos (by simpa using hfound), List.filter_nil,
    List.map_singleton, sum_phaseRows]

/-! ## The marks of `main` -/

def marks (runSequentially showFunctionValues : Bool) : List String :=
  ["Start", "Memory allocation"] ++
    (if runSequentially then
      ["Integration"] ++ (if showFunctionValues then ["Output"] else [])
    else
      ["Queue creation", "Integration"] ++
        (if showFunctionValues then ["Host data access", "Output"] else [])) ++
    ["DONE"]

def mainTimestamps (runSequentially showFunctionValues : Bool) (clock : Nat → TimePoint) :
    Timestamps :=
  (marks runSequentially showFunctionValues).zipIdx.foldl
    (fun timestamps mark => markTime timestamps mark.1.toList (clock mark.2)) []

theorem foldl_markTime (labels : List (String × Nat)) (clock : Nat → TimePoint)
    (timestamps : Timestamps) :
    labels.foldl (fun timestamps mark => markTime timestamps mark.1.toList (clock mark.2))
        timestamps =
      timestamps ++ labels.map fun mark => (mark.1.toList, clock mark.2) := by
  induction labels generalizing timestamps with
  | nil => simp
  | cons mark labels ih => rw [List.foldl_cons, ih, markTime, List.append_assoc]; rfl

theorem cleanLabels_main (runSequentially showFunctionValues : Bool) (clock : Nat → TimePoint) :
    CleanLabels (mainTimestamps runSequentially showFunctionValues clock) := by
  have hmarks : ∀ label ∈ marks runSequentially showFunctionValues,
      '\n' ∉ label.toList ∧ ¬ "TOTAL".toList <:+: label.toList := by
    cases runSequentially <;> cases showFunctionValues <;> decide
  have hlabel : ∀ t ∈ mainTimestamps runSequentially showFunctionValues clock,
      ∃ label ∈ marks runSequentially showFunctionValues, t.1 = label.toList := by
    intro t ht
    rw [mainTimestamps, foldl_markTime, List.nil_append] at ht
    obtain ⟨mark, hmark, rfl⟩ := List.mem_map.mp ht
    exact ⟨mark.1, (List.mem_zipIdx' hmark).2 ▸ List.getElem_mem _, rfl⟩
  constructor
  · intro t ht
    obtain ⟨label, hmem, heq⟩ := hlabel t ht
    rw [heq]
    exact (hmarks label hmem).1
  · intro t ht
    obtain ⟨label, hmem, heq⟩ := hlabel t ht
    rw [heq]
    exact (hmarks label hmem).2

theorem mainTimestamps_eq_cons (runSequentially showFunctionValues : Bool)
    (clock : Nat → TimePoint) : ∃ rest,
      mainTimestamps runSequentially showFunctionValues clock =
        ("Start".toList, clock 0) :: rest ∧
      stopTime ("Start".toList, clock 0) rest =
        clock ((marks runSequentially showFunctionValues).length - 1) := by
  cases runSequentially <;> cases showFunctionValues <;> exact ⟨_, rfl, rfl⟩

/-- In every run of `main` the differences in the table add up to the time from the first
mark to the last one, and this is the number that the script takes out of the table, as
long as the name of the device does not look like the word it searches. -/
theorem extractData_total (runSequentially showFunctionValues : Bool) (clock : Nat → TimePoint)
    {deviceName : List Char} (hdevice : '\n' ∉ deviceName)
    (htotal : ¬ "TOTAL".toList <:+: deviceName) :
    let elapsed : Int := (clock ((marks runSequentially showFunctionValues).length - 1)).val -
      (clock 0).val
    ∃ start rest text,
      mainTimestamps runSequentially showFunctionValues clock = start :: rest ∧
      ((phaseRows start rest).map TimingRow.delta).sum = elapsed ∧
      printTimestamps (start :: rest) deviceName = some text ∧
      extractData "TOTAL".toList text = [printInt elapsed] := by
  intro elapsed
  obtain ⟨rest, hmain, hstop⟩ :=
    mainTimestamps_eq_cons runSequentially showFunctionValues clock
  have hlabels := cleanLabels_main runSequentially showFunctionValues clock
  rw [hmain] at hlabels
  have hsum : ((phaseRows ("Start".toList, clock 0) rest).map TimingRow.delta).sum = elapsed := by
    rw [sum_phaseRows, totalRow, hstop]
  obtain ⟨text, hprint, hextract⟩ := extractData_printed hlabels hdevice htotal
  rw [hsum] at hextract
  exact ⟨_, rest, text, hmain, hsum, hprint, hextract⟩

theorem extractData_total_four :
    ∃ start rest text,
      mainTimestamps true false (fun k => [10, 13, 20, 21].getD k 21) = start :: rest ∧
      ((phaseRows start rest).map TimingRow.delta).sum = 11 ∧
      printTimestamps (start :: rest) "sequential".toList = some text ∧
      extractData "TOTAL".toList text = [printInt 11] :=
  @extractData_total true false (fun k => [10, 13, 20, 21].getD k 21) "sequential".toList
    (by decide) (by decide)

end UnoApi.Integration
