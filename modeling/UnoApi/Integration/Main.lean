import UnoApi.DataParallel.Reduction
import UnoApi.Integration.Trapezoid
import Mathlib.Algebra.BigOperators.Fin
import Mathlib.Data.Fintype.Sum
import Mathlib.Tactic.NormNum

/-!
# The integration program

`main` cuts the range into outer trapezoids, each worked off in `grain_size` steps.
The sequential option adds them up in a loop.  The parallel option submits a kernel
for the function values, one for the trapezoids and a reduction; the first two may
overlap, the reduction waits for the trapezoids it reads.  Both paths are work
items over the elements of the containers, whose allocation is assumed to succeed.

For `2 ^ 64 - 1` outer trapezoids `size` wraps around to zero: the vector of the
sequential option is empty, and the kernels have no work items.
-/

namespace UnoApi.Integration

open UnoApi.DataParallel UnoApi.Machine UnoApi.Numerics

/-- The command line, with its defaults. -/
structure Options where
  totalWorkload : UInt64 := 1000
  grainSize : UInt32 := 100
  xMin : ℚ := 0
  xMax : ℚ := 1

/-- The domain setup.  Division by zero gives zero here, not infinity. -/
structure Domain where
  numberOfTrapezoids : Nat
  size : Nat
  dx : ℚ
  halfDx : ℚ
  dxInner : ℚ
  halfDxInner : ℚ

def domain (o : Options) : Domain :=
  let numberOfTrapezoids := o.totalWorkload.toNat / o.grainSize.toNat
  let dx := (o.xMax - o.xMin) / numberOfTrapezoids
  let dxInner := dx / o.grainSize.toNat
  { numberOfTrapezoids := numberOfTrapezoids
    size := wrap64 (numberOfTrapezoids + 1)
    dx := dx
    halfDx := 1 / 2 * dx
    dxInner := dxInner
    halfDxInner := 1 / 2 * dxInner }

theorem dx_eq (o : Options) :
    (domain o).dx = (o.xMax - o.xMin) / (domain o).numberOfTrapezoids := rfl

def steps (o : Options) : Nat :=
  o.totalWorkload.toNat / o.grainSize.toNat * o.grainSize.toNat

/-- The containers: `values` or `v_buf`, `t_buf`, and `result` or `r_buf`. -/
inductive Buffer where
  | v
  | t
  | r
  deriving DecidableEq

abbrev Cell := Buffer × Nat

/-- Values of `double` in the cells; a work item notes what it contributes to the sum. -/
abbrev Item := WorkItem Cell ℚ ℚ

def extent (o : Options) : Buffer → Nat
  | .v => (domain o).size
  | .t => (domain o).numberOfTrapezoids
  | .r => 1

def InBounds {ε : Type} (o : Options) : Access Cell ℚ ε → Prop
  | .read c _ => c.2 < extent o c.1
  | .write c _ => c.2 < extent o c.1
  | .note _ => True

instance {ε : Type} (o : Options) (a : Access Cell ℚ ε) : Decidable (InBounds o a) :=
  match a with
  | .read c _ => inferInstanceAs (Decidable (c.2 < extent o c.1))
  | .write c _ => inferInstanceAs (Decidable (c.2 < extent o c.1))
  | .note _ => inferInstanceAs (Decidable True)

/-- The memory that `w` leaves, unless one of its accesses leaves its container. -/
def checked (o : Options) (w : Item) (m : Cell → ℚ) : Option (Cell → ℚ) :=
  if ∀ a ∈ w.trace m, InBounds o a then some (w.exec m) else none

def outerArea (f : ℚ → ℚ) (o : Options) (i : Nat) : ℚ :=
  outerTrapezoid f (toInt32 o.grainSize.toNat) (o.xMin + i * (domain o).dx) (domain o).dxInner
    (domain o).halfDxInner

/-! ## The sequential option -/

def sequentialStep (f : ℚ → ℚ) (o : Options) (i : Nat) : Item :=
  .read (.r, 0) fun result =>
    .write (.r, 0) (result + outerArea f o i)
      (.write (.v, i + 1) (f (o.xMin + i * (domain o).dx)) .done)

/-- From `values[0] += f(x_min)` to the end of the loop. -/
def sequentialOption (f : ℚ → ℚ) (o : Options) : Item :=
  .read (.v, 0) fun v0 =>
    .write (.v, 0) (v0 + f o.xMin)
      (.forEach (List.range (domain o).numberOfTrapezoids) (sequentialStep f o) .done)

/-- The result the sequential option prints, if it is defined what the option does;
`values` and `result` start with zeros. -/
def sequentialResult (f : ℚ → ℚ) (o : Options) : Option ℚ :=
  (checked o (sequentialOption f o) fun _ => 0).map fun m => m (.r, 0)

/-! ## The parallel option -/

def valuesItem (f : ℚ → ℚ) (o : Options) (index : Nat) : Item :=
  .write (.v, index) (f (o.xMin + index * (domain o).dx)) .done

def trapezoidItem (f : ℚ → ℚ) (o : Options) (index : Nat) : Item :=
  .write (.t, index) (outerArea f o index) .done

def populateKernels (f : ℚ → ℚ) (o : Options) : Fin (domain o).size ⊕ Fin (domain o).size → Item :=
  Sum.elim (fun index => valuesItem f o index) (fun index => trapezoidItem f o index)

def reduceKernel (o : Options) (index : Fin (domain o).numberOfTrapezoids) : Item :=
  contribute (.t, index.val) id

/-- The parallel option can print `result` when the buffers start as in `m`.  The
reduction combines the original value of its target with all contributions.  A
cell past the end of a buffer is a cell of its own here. -/
def ParallelPrints (f : ℚ → ℚ) (o : Options) (m : Cell → ℚ) (result : ℚ) : Prop :=
  ∃ tr m₁ tr' m₂, Completes (populateKernels f o) m tr m₁ ∧
    Completes (reduceKernel o) m₁ tr' m₂ ∧
    Combines (m₁ (.r, 0) ::ₘ contributions tr') result

/-! ## The number of elements -/

theorem size_eq_iff (o : Options) :
    (domain o).size = (domain o).numberOfTrapezoids + 1 ↔
      o.totalWorkload.toNat / o.grainSize.toNat ≠ 2 ^ 64 - 1 := by
  have hlt := o.totalWorkload.toNat_lt
  have hdiv := Nat.div_le_self o.totalWorkload.toNat o.grainSize.toNat
  simp only [domain, wrap64]
  generalize o.totalWorkload.toNat / o.grainSize.toNat = m at *
  omega

theorem size_of_wrap {o : Options}
    (hwrap : o.totalWorkload.toNat / o.grainSize.toNat = 2 ^ 64 - 1) : (domain o).size = 0 := by
  simp [domain, hwrap, wrap64]

/-- Only a workload of `2 ^ 64 - 1` without grains is cut into that many trapezoids. -/
theorem eq_of_wrap {n : UInt64} {g : Nat} (hwrap : n.toNat / g = 2 ^ 64 - 1) :
    n.toNat = 2 ^ 64 - 1 ∧ g = 1 := by
  have hlt := n.toNat_lt
  have hle := Nat.div_mul_le_self n.toNat g
  have hdiv := Nat.div_le_self n.toNat g
  rw [hwrap] at hle
  rcases g with _ | _ | g
  · simp at hwrap
  · exact ⟨by omega, rfl⟩
  · rw [Nat.mul_add] at hle
    omega

/-! ## What the paths compute -/

def inside (o : Options) : Set Cell := {c | c.2 < extent o c.1}

theorem InBounds.of_within {ε : Type} {o : Options} {a : Access Cell ℚ ε}
    (h : a.Within (inside o) (inside o)) : InBounds o a := by
  cases a with
  | read c v => exact h
  | write c v => exact h
  | note e => trivial

section

variable (f : ℚ → ℚ) (o : Options)

theorem foldl_sequentialStep (steps : Nat) (m : Cell → ℚ) :
    (List.range steps).foldl (fun m i => (sequentialStep f o i).exec m) m (.r, 0) =
      m (.r, 0) + ∑ i ∈ Finset.range steps, outerArea f o i := by
  induction steps with
  | zero => simp
  | succ steps ih =>
      rw [List.range_succ, List.foldl_append, List.foldl_cons, List.foldl_nil,
        Finset.sum_range_succ, ← add_assoc, ← ih]
      simp [sequentialStep]

theorem within_sequentialOption
    (hsize : (domain o).size = (domain o).numberOfTrapezoids + 1) :
    (sequentialOption f o).Within (inside o) (inside o) := by
  have hfirst : ((.v, 0) : Cell) ∈ inside o := by
    simp [inside, extent, hsize]
  refine ⟨hfirst, fun _ => ⟨hfirst, ?_⟩⟩
  apply WorkItem.Within.forEach
  · intro i hi
    have hresult : ((.r, 0) : Cell) ∈ inside o := by
      simp [inside, extent]
    have hnext : ((.v, i + 1) : Cell) ∈ inside o := by
      have hlt := List.mem_range.mp hi
      simp only [inside, extent, hsize, Set.mem_ofPred_eq]
      omega
    exact ⟨hresult, fun _ => ⟨hresult, hnext, trivial⟩⟩
  · trivial

/-- Already `values[0]` is outside of an empty vector. -/
theorem inBounds_sequentialOption_iff :
    (∀ a ∈ (sequentialOption f o).trace fun _ => 0, InBounds o a) ↔
      o.totalWorkload.toNat / o.grainSize.toNat ≠ 2 ^ 64 - 1 := by
  constructor
  · intro hall hwrap
    have hread : (Access.read (.v, 0) 0 : Access Cell ℚ ℚ) ∈
        (sequentialOption f o).trace fun _ => 0 := by
      simp [sequentialOption]
    have hlt : 0 < (domain o).size := hall _ hread
    rw [size_of_wrap hwrap] at hlt
    exact lt_irrefl _ hlt
  · intro hwidth a ha
    have hwithin := within_sequentialOption f o ((size_eq_iff o).mpr hwidth)
    exact .of_within (hwithin.mem_trace _ ha)

variable {o} in
theorem checked_sequentialOption
    (hwidth : o.totalWorkload.toNat / o.grainSize.toNat ≠ 2 ^ 64 - 1) :
    checked o (sequentialOption f o) (fun _ => 0) = some ((sequentialOption f o).exec fun _ => 0) :=
  if_pos ((inBounds_sequentialOption_iff f o).mpr hwidth)

variable {o} in
theorem checked_sequentialOption_of_wrap
    (hwrap : o.totalWorkload.toNat / o.grainSize.toNat = 2 ^ 64 - 1) :
    checked o (sequentialOption f o) (fun _ => 0) = none :=
  if_neg (mt (inBounds_sequentialOption_iff f o).mp (not_not.mpr hwrap))

variable {o} in
theorem sequentialResult_eq
    (hwidth : o.totalWorkload.toNat / o.grainSize.toNat ≠ 2 ^ 64 - 1) :
    sequentialResult f o =
      some (∑ i ∈ Finset.range (domain o).numberOfTrapezoids, outerArea f o i) := by
  rw [sequentialResult, checked_sequentialOption f hwidth]
  simp only [sequentialOption, WorkItem.exec_read, WorkItem.exec_write,
    WorkItem.exec_forEach, WorkItem.exec_done, foldl_sequentialStep, Option.map_some]
  simp

variable {o} in
theorem sequentialResult_of_wrap
    (hwrap : o.totalWorkload.toNat / o.grainSize.toNat = 2 ^ 64 - 1) :
    sequentialResult f o = none := by
  rw [sequentialResult, checked_sequentialOption_of_wrap f hwrap, Option.map_none]

variable {o} in
/-- Without grains the vector is empty, with grains of three steps it is not. -/
theorem sequentialResult_grains_ne (hn : o.totalWorkload.toNat = 2 ^ 64 - 1) :
    sequentialResult f { o with grainSize := 1 } ≠
      sequentialResult f { o with grainSize := 3 } := by
  have hnone := sequentialResult_of_wrap f (o := { o with grainSize := 1 })
    ((Nat.div_one _).trans hn)
  have hwidth : o.totalWorkload.toNat / (3 : UInt32).toNat ≠ 2 ^ 64 - 1 := fun hwrap =>
    absurd (eq_of_wrap hwrap).2 (by decide)
  rw [hnone, sequentialResult_eq f (o := { o with grainSize := 3 }) hwidth]
  exact (Option.some_ne_none _).symm

theorem combines_reduceKernel {m m' : Cell → ℚ}
    {tr : List (Fin (domain o).numberOfTrapezoids × Access Cell ℚ ℚ)}
    (hrun : Completes (reduceKernel o) m tr m') :
    (contributions tr).sum = ∑ i ∈ Finset.range (domain o).numberOfTrapezoids, m (.t, i) := by
  rw [(contributions_contribute hrun).1, Finset.sum_range]
  rfl

def populatedCell {size : Nat} : Fin size ⊕ Fin size → Cell :=
  Sum.elim (fun index => (.v, index.val)) fun index => (.t, index.val)

theorem populatedCell_injective {size : Nat} :
    Function.Injective (populatedCell : Fin size ⊕ Fin size → Cell) := by
  intro p q h
  cases p with
  | inl p =>
      cases q with
      | inl q => exact congrArg _ (Fin.ext (by simpa [populatedCell] using h))
      | inr q => simp [populatedCell] at h
  | inr p =>
      cases q with
      | inl q => simp [populatedCell] at h
      | inr q => exact congrArg _ (Fin.ext (by simpa [populatedCell] using h))

theorem isolated_populateKernels :
    Isolated (populateKernels f o) (fun _ => ∅) fun item => {populatedCell item} := by
  apply Isolated.of_own populatedCell_injective
  · intro item
    cases item with
    | inl index => exact ⟨rfl, trivial⟩
    | inr index => exact ⟨rfl, trivial⟩
  · exact fun _ _ _ => Set.notMem_empty _

/-- The cell that the reduction reads for trapezoid `i`: computed when the launch has
a work item for it, as the buffer started otherwise. -/
def trapezoidCell (m : Cell → ℚ) (i : Nat) : ℚ :=
  if i < (domain o).size then outerArea f o i else m (.t, i)

theorem trapezoidCell_eq {m m' : Cell → ℚ}
    {tr : List ((Fin (domain o).size ⊕ Fin (domain o).size) × Access Cell ℚ ℚ)}
    (hrun : Completes (populateKernels f o) m tr m') (i : Nat) :
    m' (.t, i) = trapezoidCell f o m i := by
  have hisolated := isolated_populateKernels f o
  unfold trapezoidCell
  split
  · rename_i hi
    have hcell := hisolated.memory_eq hrun (.inr ⟨i, hi⟩) (Set.mem_singleton _)
    simpa [populateKernels, populatedCell, trapezoidItem] using hcell
  · rename_i hi
    apply hisolated.memory_frame hrun
    intro item hmem
    cases item with
    | inl index => simp [populatedCell] at hmem
    | inr index =>
        have hindex : i = index.val := by simpa [populatedCell] using hmem
        have hlt := index.isLt
        omega

theorem resultCell_eq {m m' : Cell → ℚ}
    {tr : List ((Fin (domain o).size ⊕ Fin (domain o).size) × Access Cell ℚ ℚ)}
    (hrun : Completes (populateKernels f o) m tr m') : m' (.r, 0) = m (.r, 0) := by
  apply (isolated_populateKernels f o).memory_frame hrun
  intro item hmem
  cases item with
  | inl index => simp [populatedCell] at hmem
  | inr index => simp [populatedCell] at hmem

theorem parallelPrints_iff (m : Cell → ℚ) (result : ℚ) :
    ParallelPrints f o m result ↔
      result = m (.r, 0) +
        ∑ i ∈ Finset.range (domain o).numberOfTrapezoids, trapezoidCell f o m i := by
  have hsum : ∀ {tr m₁ tr' m₂}, Completes (populateKernels f o) m tr m₁ →
      Completes (reduceKernel o) m₁ tr' m₂ →
      (m₁ (.r, 0) ::ₘ contributions tr').sum = m (.r, 0) +
        ∑ i ∈ Finset.range (domain o).numberOfTrapezoids, trapezoidCell f o m i := by
    intro tr m₁ tr' m₂ hpopulate hreduce
    rw [Multiset.sum_cons, combines_reduceKernel o hreduce, resultCell_eq f o hpopulate]
    simp only [trapezoidCell_eq f o hpopulate]
  constructor
  · intro hprints
    obtain ⟨tr, m₁, tr', m₂, hpopulate, hreduce, hcombines⟩ := hprints
    rw [hcombines.eq_sum, hsum hpopulate hreduce]
  · intro hresult
    obtain ⟨tr, m₁, hpopulate⟩ := exists_completes (populateKernels f o) m
    obtain ⟨tr', m₂, hreduce⟩ := exists_completes (reduceKernel o) m₁
    rw [← hsum hpopulate hreduce] at hresult
    exact ⟨tr, m₁, tr', m₂, hpopulate, hreduce, Combines.iff_eq_sum.mpr hresult⟩

variable {o}

theorem outerArea_eq (hg : o.grainSize.toNat < 2 ^ 31) (i : Nat) :
    outerArea f o i =
      trapezoidSum f (o.xMin + i * (domain o).dx) (domain o).dxInner o.grainSize.toNat := by
  have hsteps : toSizeT (toInt32 o.grainSize.toNat) = o.grainSize.toNat := by
    rw [toInt32_of_lt hg, toSizeT_natCast (by omega)]
  have hhalf : (domain o).halfDxInner = 1 / 2 * (domain o).dxInner := rfl
  unfold outerArea
  rw [hhalf, outerTrapezoid_eq, hsteps]

theorem sum_outerArea (hg : 1 ≤ o.grainSize.toNat) (hint : o.grainSize.toNat < 2 ^ 31) :
    ∑ i ∈ Finset.range (domain o).numberOfTrapezoids, outerArea f o i =
      compositeTrapezoid f o.xMin o.xMax
        ((domain o).numberOfTrapezoids * o.grainSize.toNat) := by
  have hne : (o.grainSize.toNat : ℚ) ≠ 0 := Nat.cast_ne_zero.mpr (by omega)
  calc
    _ = ∑ i ∈ Finset.range (domain o).numberOfTrapezoids,
        trapezoidSum f (o.xMin + i * (domain o).dx) (domain o).dxInner o.grainSize.toNat := by
      simp only [outerArea_eq f hint]
    _ = _ := sum_blocks_eq_compositeTrapezoid f o.xMin o.xMax _ hne

end

def flatRule (f : ℚ → ℚ) (o : Options) : ℚ := compositeTrapezoid f o.xMin o.xMax (steps o)

def SequentialIsFlat (f : ℚ → ℚ) (o : Options) : Prop :=
  sequentialResult f o = some (flatRule f o)

/-- In every order the parallel option adds the flat rule to what its target starts with. -/
def ParallelIsFlat (f : ℚ → ℚ) (o : Options) : Prop :=
  ∀ m result, ParallelPrints f o m result ↔ result = m (.r, 0) + flatRule f o

def GrainSizesAgree (f : ℚ → ℚ) (o : Options) : Prop :=
  ∀ g g' : UInt32, 1 ≤ g.toNat → g.toNat < 2 ^ 31 → g.toNat ∣ o.totalWorkload.toNat →
    1 ≤ g'.toNat → g'.toNat < 2 ^ 31 → g'.toNat ∣ o.totalWorkload.toNat →
    sequentialResult f { o with grainSize := g } = sequentialResult f { o with grainSize := g' } ∧
    ∀ m result, ParallelPrints f { o with grainSize := g } m result ↔
      ParallelPrints f { o with grainSize := g' } m result

section

variable (f : ℚ → ℚ) {o : Options} (hg : 1 ≤ o.grainSize.toNat)
  (hint : o.grainSize.toNat < 2 ^ 31)

include hg hint

theorem sequentialIsFlat_iff :
    SequentialIsFlat f o ↔ o.totalWorkload.toNat / o.grainSize.toNat ≠ 2 ^ 64 - 1 := by
  constructor
  · intro hflat hwrap
    rw [SequentialIsFlat, sequentialResult_of_wrap f hwrap] at hflat
    cases hflat
  · intro hwidth
    rw [SequentialIsFlat, sequentialResult_eq f hwidth, sum_outerArea f hg hint]
    rfl

theorem parallelIsFlat_iff :
    ParallelIsFlat f o ↔ o.totalWorkload.toNat / o.grainSize.toNat ≠ 2 ^ 64 - 1 := by
  unfold ParallelIsFlat
  simp only [parallelPrints_iff]
  constructor
  · intro hflat hwrap
    -- no work item fills the first cell that the reduction reads
    have hcell (m : Cell → ℚ) (i : Nat) : trapezoidCell f o m i = m (.t, i) := by
      rw [trapezoidCell, size_of_wrap hwrap, if_neg (Nat.not_lt_zero i)]
    have hpos : 0 < (domain o).numberOfTrapezoids := by
      change 0 < o.totalWorkload.toNat / o.grainSize.toNat
      omega
    have hone := (hflat (fun c => if c = (.t, 0) then flatRule f o + 1 else 0) _).mp rfl
    simp [hcell, hpos] at hone
  · intro hwidth m result
    have hcells : ∀ i ∈ Finset.range (domain o).numberOfTrapezoids,
        trapezoidCell f o m i = outerArea f o i := by
      intro i hi
      have hlt := Finset.mem_range.mp hi
      have hsize := (size_eq_iff o).mpr hwidth
      exact if_pos (by omega)
    rw [Finset.sum_congr rfl hcells, sum_outerArea f hg hint]
    rfl

end

theorem flatRule_of_dvd (f : ℚ → ℚ) {o : Options} {g g' : UInt32}
    (hdvd : g.toNat ∣ o.totalWorkload.toNat) (hdvd' : g'.toNat ∣ o.totalWorkload.toNat) :
    flatRule f { o with grainSize := g } = flatRule f { o with grainSize := g' } := by
  have hsteps (g : UInt32) (h : g.toNat ∣ o.totalWorkload.toNat) :
      steps { o with grainSize := g } = o.totalWorkload.toNat := Nat.div_mul_cancel h
  rw [flatRule, flatRule, hsteps g hdvd, hsteps g' hdvd']

theorem grainSizesAgree_iff (f : ℚ → ℚ) (o : Options) :
    GrainSizesAgree f o ↔ o.totalWorkload.toNat ≠ 2 ^ 64 - 1 := by
  constructor
  · intro hagree hn
    have hsame := (hagree 1 3 (by decide) (by decide) (one_dvd _) (by decide) (by decide)
      (hn ▸ by decide)).1
    exact sequentialResult_grains_ne f hn hsame
  · intro hn g g' hg hint hdvd hg' hint' hdvd'
    have hwidth (g : UInt32) : o.totalWorkload.toNat / g.toNat ≠ 2 ^ 64 - 1 := fun hwrap =>
      hn (eq_of_wrap hwrap).1
    have hflat := flatRule_of_dvd f hdvd hdvd'
    constructor
    · rw [(sequentialIsFlat_iff f (o := { o with grainSize := g }) hg hint).mpr (hwidth g),
        (sequentialIsFlat_iff f (o := { o with grainSize := g' }) hg' hint').mpr (hwidth g'), hflat]
    · intro m result
      rw [(parallelIsFlat_iff f (o := { o with grainSize := g }) hg hint).mpr (hwidth g),
        (parallelIsFlat_iff f (o := { o with grainSize := g' }) hg' hint').mpr (hwidth g'), hflat]

/-- Each path computes the flat rule exactly when the number of table entries does not wrap
around to zero, and only a workload for which it can do so lets the grain size matter. -/
theorem paths_flat_iff (f : ℚ → ℚ) (o : Options) (hg : 1 ≤ o.grainSize.toNat)
    (hint : o.grainSize.toNat < 2 ^ 31) :
    (SequentialIsFlat f o ↔ o.totalWorkload.toNat / o.grainSize.toNat ≠ 2 ^ 64 - 1) ∧
    (ParallelIsFlat f o ↔ o.totalWorkload.toNat / o.grainSize.toNat ≠ 2 ^ 64 - 1) ∧
    (GrainSizesAgree f o ↔ o.totalWorkload.toNat ≠ 2 ^ 64 - 1) :=
  ⟨sequentialIsFlat_iff f hg hint, parallelIsFlat_iff f hg hint, grainSizesAgree_iff f o⟩

theorem paths_flat_iff_four :
    sequentialResult (fun x => 3 * x ^ 2) { totalWorkload := 4, grainSize := 2 } =
      some (33 / 32) := by
  have hrule : sequentialResult (fun x => 3 * x ^ 2) { totalWorkload := 4, grainSize := 2 } =
      some (compositeTrapezoid (fun x => 3 * x ^ 2) 0 1 4) :=
    (paths_flat_iff (fun x => 3 * x ^ 2) { totalWorkload := 4, grainSize := 2 } (by decide)
      (by decide)).1.mpr (by decide)
  rw [hrule]
  norm_num [compositeTrapezoid, trapezoidSum, Finset.sum_range_succ]

def largest : Options := { totalWorkload := 18446744073709551615, grainSize := 1 }

/-- The vector of the sequential option is empty, and no work item computes a trapezoid. -/
theorem not_paths_flat_largest :
    ¬ SequentialIsFlat (fun x => 3 * x ^ 2) largest ∧
      ¬ ParallelIsFlat (fun x => 3 * x ^ 2) largest := by
  have hwrap : largest.totalWorkload.toNat / largest.grainSize.toNat = 2 ^ 64 - 1 :=
    Nat.div_one _
  constructor
  · rw [sequentialIsFlat_iff _ (by decide) (by decide)]
    exact not_not.mpr hwrap
  · rw [parallelIsFlat_iff _ (by decide) (by decide)]
    exact not_not.mpr hwrap

end UnoApi.Integration
