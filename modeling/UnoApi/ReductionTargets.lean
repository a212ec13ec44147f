import UnoApi.BigMatrix.MapReduce
import UnoApi.Integration.Main

/-!
# What the reductions start from

A buffer without host data starts with arbitrary contents, and a reduction adds to
the original value of its target.  The integration and the matrix program reduce
into such a buffer, so what they print contains what the buffer started with.
-/

namespace UnoApi

open Integration UnoApi.Machine

/-- What the parallel option of the integration program prints besides the areas it
computes: the original content of its target, and of the elements of `t_buf` without
a work item, which there are only when the launch size wraps around. -/
def leftOver (o : Options) (m : Cell → ℚ) : ℚ :=
  m (.r, 0) + ∑ i ∈ Finset.Ico (domain o).size (domain o).numberOfTrapezoids, m (.t, i)

theorem leftOver_eq (o : Options) (m : Cell → ℚ) (h : o.totalWorkload.toNat + 1 < 2 ^ 64) :
    leftOver o m = m (.r, 0) := by
  have hle : (domain o).numberOfTrapezoids ≤ o.totalWorkload.toNat := Nat.div_le_self _ _
  have hsize : (domain o).size = (domain o).numberOfTrapezoids + 1 :=
    wrap64_of_lt (show (domain o).numberOfTrapezoids + 1 < 2 ^ 64 by omega)
  have hempty : Finset.Ico (domain o).size (domain o).numberOfTrapezoids = ∅ :=
    Finset.Ico_eq_empty (by omega)
  rw [leftOver, hempty, Finset.sum_empty, add_zero]

theorem sum_trapezoidCell (f : ℚ → ℚ) (o : Options) (m : Cell → ℚ) :
    m (.r, 0) + ∑ i ∈ Finset.range (domain o).numberOfTrapezoids, trapezoidCell f o m i =
      leftOver o m +
        ∑ i ∈ (Finset.range (domain o).numberOfTrapezoids).filter (· < (domain o).size),
          outerArea f o i := by
  have hrest : (Finset.range (domain o).numberOfTrapezoids).filter (¬· < (domain o).size) =
      Finset.Ico (domain o).size (domain o).numberOfTrapezoids := by
    ext i
    simp only [Finset.mem_filter, Finset.mem_range, Finset.mem_Ico]
    omega
  simp only [trapezoidCell, Finset.sum_ite, hrest, leftOver]
  ring

theorem integration_same_iff (f : ℚ → ℚ) (o : Options) (m m' : Cell → ℚ) :
    (∀ result result', ParallelPrints f o m result → ParallelPrints f o m' result' →
      result = result') ↔ leftOver o m = leftOver o m' := by
  simp only [parallelPrints_iff, sum_trapezoidCell]
  constructor
  · intro h
    exact add_right_cancel (h _ _ rfl rfl)
  · intro h result result' hresult hresult'
    rw [hresult, hresult', h]

theorem bigMatrix_twice_iff {M : UInt32} (m : BigMatrix.Index M → UInt32) (r : UInt64) :
    (∀ result, BigMatrix.Prints M m r result →
      result = UInt64.ofNat (2 * M.toNat * M.toNat)) ↔ r = 0 := by
  simp only [BigMatrix.prints_iff]
  constructor
  · intro h
    exact add_eq_right.mp (h _ rfl)
  · intro hzero result hresult
    rw [hresult, hzero, zero_add]

/-- Two runs of the integration program print the same exactly when their buffers
start with the same left-over, and the matrix program prints `2 * M * M` exactly when
its result buffer happens to start with zero.  So neither holds of all contents, for
any options and any size. -/
theorem prints_same_iff (f : ℚ → ℚ) :
    (∀ (o : Options) (m m' : Cell → ℚ),
      (∀ result result', ParallelPrints f o m result → ParallelPrints f o m' result' →
        result = result') ↔ leftOver o m = leftOver o m') ∧
    (∀ o : Options, ¬∀ m m' result result', ParallelPrints f o m result →
      ParallelPrints f o m' result' → result = result') ∧
    (∀ (M : UInt32) (m : BigMatrix.Index M → UInt32) (r : UInt64),
      (∀ result, BigMatrix.Prints M m r result →
        result = UInt64.ofNat (2 * M.toNat * M.toNat)) ↔ r = 0) ∧
    ∀ M : UInt32, ¬∀ m r result, BigMatrix.Prints M m r result →
      result = UInt64.ofNat (2 * M.toNat * M.toNat) := by
  have hsame := integration_same_iff f
  have hmatrix (M : UInt32) := @bigMatrix_twice_iff M
  refine ⟨hsame, ?_, hmatrix, ?_⟩
  · intro o h
    have hleft := (hsame o (fun _ => 0) fun c => if c = (.r, 0) then 1 else 0).mp (h _ _)
    simp [leftOver] at hleft
  · intro M h
    have hzero := (hmatrix M (fun _ => 0) 1).mp (h _ _)
    exact absurd hzero (by decide)

/-- With the default options the integration program prints different results on
different buffer contents, and the matrix program prints 7 for `M = 1` when its result
buffer starts with 5. -/
theorem prints_arbitrary :
    (¬∀ m m' result result', ParallelPrints (fun x => 3 * x ^ 2) {} m result →
      ParallelPrints (fun x => 3 * x ^ 2) {} m' result' → result = result') ∧
    ¬∀ m r result, BigMatrix.Prints 1 m r result → result = 2 := by
  constructor
  · intro h
    have hprints (m : Cell → ℚ) := (parallelPrints_iff (fun x => 3 * x ^ 2) {} m _).mpr
      (sum_trapezoidCell (fun x => 3 * x ^ 2) {} m).symm
    have hsame := h _ _ _ _ (hprints fun _ => 0) (hprints fun c => if c = (.r, 0) then 1 else 0)
    have hleft := add_right_cancel hsame
    rw [leftOver_eq _ _ (by decide), leftOver_eq _ _ (by decide)] at hleft
    simp at hleft
  · intro h
    have hseven := h (fun _ => 0) 5 7 ((BigMatrix.prints_iff _ _ _).mpr rfl)
    exact absurd hseven (by decide)

end UnoApi
