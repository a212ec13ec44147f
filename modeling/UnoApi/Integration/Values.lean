import UnoApi.Integration.Integrand

/-!
# The table of function values

`print_function_values` labels entry `i` with `x_min + i * dx`.  The kernel stores the
function there; the sequential loop stores the value at `x_min + i * dx` in entry
`i + 1`, so its table is the right one shifted by one place.
-/

namespace UnoApi.Integration

open UnoApi.DataParallel UnoApi.Machine

structure Row where
  i : Nat
  x : ℚ
  xPrecision : UInt32
  value : ℚ
  yPrecision : UInt32

def printFunctionValues (size : Nat) (xMin dx : ℚ) (xPrecision yPrecision : UInt32) :
    WorkItem Cell ℚ Row :=
  .forEach (List.range size)
    (fun i => .read (.v, i) fun value =>
      .note ⟨i, xMin + i * dx, xPrecision, value, yPrecision⟩ .done)
    .done

def printedRows (o : Options) (xPrecision yPrecision : UInt32) (m : Cell → ℚ) : List Row :=
  ((printFunctionValues (domain o).size o.xMin (domain o).dx xPrecision yPrecision).trace
    m).filterMap Access.event?

def sequentialMemory (f : ℚ → ℚ) (o : Options) : Cell → ℚ :=
  (sequentialOption f o).exec fun _ => 0

def ParallelLeaves (f : ℚ → ℚ) (o : Options) (m m' : Cell → ℚ) : Prop :=
  ∃ tr m₁ tr', Completes (populateKernels f o) m tr m₁ ∧ Completes (reduceKernel o) m₁ tr' m'

def HoldsTable (f : ℚ → ℚ) (o : Options) (m : Cell → ℚ) : Prop :=
  ∀ i ≤ (domain o).numberOfTrapezoids, m (.v, i) = f (o.xMin + i * (domain o).dx)

def tableRows (f : ℚ → ℚ) (o : Options) (xPrecision yPrecision : UInt32) : List Row :=
  (List.range ((domain o).numberOfTrapezoids + 1)).map fun i : Nat =>
    ⟨i, o.xMin + i * (domain o).dx, xPrecision, f (o.xMin + i * (domain o).dx), yPrecision⟩

/-- Both options leave the correct table and print it. -/
structure TablesCorrect (f : ℚ → ℚ) (o : Options) : Prop where
  sequential : HoldsTable f o (sequentialMemory f o)
  parallel : ∀ m m', ParallelLeaves f o m m' → HoldsTable f o m'
  printsSequential : ∀ xPrecision yPrecision,
    printedRows o xPrecision yPrecision (sequentialMemory f o) =
      tableRows f o xPrecision yPrecision
  printsParallel : ∀ m m', ParallelLeaves f o m m' → ∀ xPrecision yPrecision,
    printedRows o xPrecision yPrecision m' = tableRows f o xPrecision yPrecision

section

variable (f : ℚ → ℚ) (o : Options)

/-! ## What is printed -/

theorem filterMap_trace_printFunctionValues (size : Nat) (xMin dx : ℚ)
    (xPrecision yPrecision : UInt32) (m : Cell → ℚ) :
    ((printFunctionValues size xMin dx xPrecision yPrecision).trace m).filterMap
        Access.event? =
      (List.range size).map fun i : Nat =>
        ⟨i, xMin + i * dx, xPrecision, m (.v, i), yPrecision⟩ := by
  unfold printFunctionValues
  induction List.range size with
  | nil => rfl
  | cons i rest ih =>
      rw [WorkItem.forEach_cons, WorkItem.trace_followedBy, List.filterMap_append]
      exact congrArg _ ih

theorem printedRows_eq_tableRows_iff (xPrecision yPrecision : UInt32) (m : Cell → ℚ) :
    printedRows o xPrecision yPrecision m = tableRows f o xPrecision yPrecision ↔
      (domain o).size = (domain o).numberOfTrapezoids + 1 ∧ HoldsTable f o m := by
  rw [printedRows, filterMap_trace_printFunctionValues, tableRows]
  constructor
  · intro hrows
    have hsize : (domain o).size = (domain o).numberOfTrapezoids + 1 := by
      simpa using congrArg List.length hrows
    rw [hsize] at hrows
    refine ⟨hsize, ?_⟩
    intro i hi
    have hrow := List.map_inj_left.mp hrows i (List.mem_range.mpr (by omega))
    exact congrArg Row.value hrow
  · intro h
    rw [h.1]
    apply List.map_congr_left
    intro i hi
    rw [h.2 i (Nat.lt_succ_iff.mp (List.mem_range.mp hi))]

/-! ## What the sequential option leaves -/

theorem foldl_sequentialStep_zero (passes : Nat) (m : Cell → ℚ) :
    (List.range passes).foldl (fun m i => (sequentialStep f o i).exec m) m (.v, 0) =
      m (.v, 0) := by
  induction passes with
  | zero => rfl
  | succ passes ih =>
      rw [List.range_succ, List.foldl_append, List.foldl_cons, List.foldl_nil, ← ih]
      simp [sequentialStep]

/-- Pass `i` fills entry `i + 1`, and no later pass changes it. -/
theorem foldl_sequentialStep_succ {passes i : Nat} (hi : i < passes) (m : Cell → ℚ) :
    (List.range passes).foldl (fun m i => (sequentialStep f o i).exec m) m (.v, i + 1) =
      f (o.xMin + i * (domain o).dx) := by
  induction passes with
  | zero => omega
  | succ passes ih =>
      rw [List.range_succ, List.foldl_append, List.foldl_cons, List.foldl_nil]
      by_cases hlast : i = passes
      · subst hlast
        simp [sequentialStep]
      · rw [← ih (by omega)]
        simp [sequentialStep, hlast]

theorem sequentialMemory_zero : sequentialMemory f o (.v, 0) = f o.xMin := by
  simp [sequentialMemory, sequentialOption, WorkItem.exec_forEach, foldl_sequentialStep_zero]

theorem sequentialMemory_succ {i : Nat} (hi : i < (domain o).numberOfTrapezoids) :
    sequentialMemory f o (.v, i + 1) = f (o.xMin + i * (domain o).dx) := by
  simp [sequentialMemory, sequentialOption, WorkItem.exec_forEach,
    foldl_sequentialStep_succ f o hi]

/-- The shifted table is correct when the function does not tell neighbours apart. -/
theorem holdsTable_sequentialMemory_iff :
    HoldsTable f o (sequentialMemory f o) ↔
      ∀ i < (domain o).numberOfTrapezoids,
        f (o.xMin + i * (domain o).dx) = f (o.xMin + (i + 1) * (domain o).dx) := by
  constructor
  · intro htable i hi
    have hentry := htable (i + 1) hi
    rw [sequentialMemory_succ f o hi] at hentry
    exact_mod_cast hentry
  · intro hsame i hi
    cases i with
    | zero => simp [sequentialMemory_zero]
    | succ i =>
        rw [sequentialMemory_succ f o hi, hsame i hi]
        push_cast
        rfl

/-! ## What the parallel option leaves -/

theorem holdsTable_of_parallelLeaves {m m' : Cell → ℚ}
    (hsize : (domain o).size = (domain o).numberOfTrapezoids + 1)
    (h : ParallelLeaves f o m m') : HoldsTable f o m' := by
  obtain ⟨tr, m₁, tr', hpopulate, hreduce⟩ := h
  have hkept : m' = m₁ := (contributions_contribute hreduce).2
  intro i hi
  have hcell := (isolated_populateKernels f o).memory_eq hpopulate (.inl ⟨i, by omega⟩)
    (Set.mem_singleton _)
  rw [hkept]
  simpa [populateKernels, populatedCell, valuesItem] using hcell

theorem tablesCorrect_iff_holdsTable :
    TablesCorrect f o ↔
      (domain o).size = (domain o).numberOfTrapezoids + 1 ∧
        HoldsTable f o (sequentialMemory f o) := by
  constructor
  · intro h
    exact (printedRows_eq_tableRows_iff f o 1 1 _).mp (h.printsSequential 1 1)
  · intro h
    obtain ⟨hsize, htable⟩ := h
    have hparallel : ∀ m m', ParallelLeaves f o m m' → HoldsTable f o m' :=
      fun _ _ hleaves => holdsTable_of_parallelLeaves f o hsize hleaves
    constructor
    · exact htable
    · exact hparallel
    · intro xPrecision yPrecision
      exact (printedRows_eq_tableRows_iff f o _ _ _).mpr ⟨hsize, htable⟩
    · intro m m' hleaves xPrecision yPrecision
      exact (printedRows_eq_tableRows_iff f o _ _ _).mpr ⟨hsize, hparallel m m' hleaves⟩

end

/-! ## The function of the program -/

theorem f_eq_add_iff (x d : ℚ) : f x = f (x + d) ↔ d = 0 ∨ 2 * x + d = 0 := by
  have hdiff : f (x + d) - f x = 3 * (d * (2 * x + d)) := by
    unfold f
    ring
  rw [eq_comm, ← sub_eq_zero, hdiff, mul_eq_zero, mul_eq_zero]
  norm_num

theorem f_same_on_steps_iff (x d : ℚ) {m : Nat} (hm : 1 ≤ m) :
    (∀ i < m, f (x + i * d) = f (x + (i + 1) * d)) ↔ d = 0 ∨ (m = 1 ∧ 2 * x + d = 0) := by
  have hstep : ∀ i : Nat, f (x + i * d) = f (x + (i + 1) * d) ↔
      d = 0 ∨ 2 * (x + i * d) + d = 0 := by
    intro i
    rw [← f_eq_add_iff, add_assoc, add_one_mul]
  simp only [hstep]
  constructor
  · intro hsame
    have hfirst := hsame 0 hm
    by_cases hd : d = 0
    · exact .inl hd
    · have hx := hfirst.resolve_left hd
      push_cast at hx
      refine .inr ⟨?_, by linarith⟩
      by_contra hne
      have hsecond := (hsame 1 (by omega)).resolve_left hd
      push_cast at hsecond
      apply hd
      linarith
  · intro h i hi
    rcases h with hd | ⟨rfl, hx⟩
    · exact .inl hd
    · have hzero : i = 0 := by omega
      subst hzero
      right
      simpa using hx

/-- The two options leave and print the correct table of function values only when the
range is empty, or is one trapezoid around the origin. -/
theorem tablesCorrect_iff (o : Options) (hg : 1 ≤ o.grainSize.toNat)
    (hle : o.grainSize.toNat ≤ o.totalWorkload.toNat) :
    TablesCorrect f o ↔
      o.totalWorkload.toNat / o.grainSize.toNat ≠ 2 ^ 64 - 1 ∧
      (o.xMin = o.xMax ∨
        (o.totalWorkload.toNat / o.grainSize.toNat = 1 ∧ o.xMax = -o.xMin)) := by
  have hm : 1 ≤ (domain o).numberOfTrapezoids := Nat.div_pos hle hg
  have hne : ((domain o).numberOfTrapezoids : ℚ) ≠ 0 := Nat.cast_ne_zero.mpr (by omega)
  have hdx : (domain o).dx = 0 ↔ o.xMin = o.xMax := by
    rw [dx_eq, div_eq_zero_iff, or_iff_left hne, sub_eq_zero, eq_comm]
  have hone : ((domain o).numberOfTrapezoids = 1 ∧ 2 * o.xMin + (domain o).dx = 0) ↔
      o.totalWorkload.toNat / o.grainSize.toNat = 1 ∧ o.xMax = -o.xMin := by
    apply and_congr_right
    intro hsingle
    rw [dx_eq, hsingle, Nat.cast_one, div_one]
    constructor
    · intro h
      linarith
    · intro h
      linarith
  rw [tablesCorrect_iff_holdsTable, size_eq_iff, holdsTable_sequentialMemory_iff,
    f_same_on_steps_iff _ _ hm, hdx, hone]

theorem tablesCorrect_origin :
    TablesCorrect f { totalWorkload := 100, xMin := -1, xMax := 1 } :=
  (tablesCorrect_iff _ (by decide) (by decide)).mpr (by decide)

/-- With the defaults entry 1 is the function at 0, not at 1/10. -/
theorem not_tablesCorrect_default : ¬ TablesCorrect f {} := by
  intro h
  have hdx : (domain {}).dx = 1 / 10 := by
    rw [dx_eq, show (domain {}).numberOfTrapezoids = 10 by decide]
    norm_num
  have hentry := h.sequential 1 (by decide)
  rw [sequentialMemory_succ f {} (by decide), hdx] at hentry
  norm_num [f] at hentry

end UnoApi.Integration
