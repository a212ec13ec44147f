import UnoApi.Integration.Main
import Mathlib.Algebra.BigOperators.Group.List.Lemmas

/-!
# What the sequential option evaluates

The calls of `single_trapezoid` that an integration request makes.  The result is the
sum of the areas these calls return, so a request without calls prints zero.
-/

namespace UnoApi.Integration

open UnoApi.Machine

structure Call where
  f1 : ℚ
  f2 : ℚ
  halfDx : ℚ

def Call.area (c : Call) : ℚ := singleTrapezoid c.f1 c.f2 c.halfDx

/-- `outerStep` together with the calls made so far. -/
def recordStep (f : ℚ → ℚ) (xPos dxInner halfDxInner : ℚ) (s : OuterState × List Call)
    (j : Nat) : OuterState × List Call :=
  let yRight := f (xPos + ((j + 1 : Nat) : ℚ) * dxInner)
  (outerStep f xPos dxInner halfDxInner s.1 j, s.2 ++ [⟨s.1.yLeft, yRight, halfDxInner⟩])

def outerCalls (f : ℚ → ℚ) (grainSize : Int) (xPos dxInner halfDxInner : ℚ) : List Call :=
  ((List.range (toSizeT grainSize)).foldl (recordStep f xPos dxInner halfDxInner)
    (⟨0, f xPos⟩, [])).2

/-- The calls that the sequential option makes, if it is defined what the option does. -/
def sequentialCalls (f : ℚ → ℚ) (o : Options) : Option (List Call) :=
  (checked o (sequentialOption f o) fun _ => 0).map fun _ =>
    (List.range (domain o).numberOfTrapezoids).flatMap fun i : Nat =>
      outerCalls f (toInt32 o.grainSize.toNat) (o.xMin + i * (domain o).dx) (domain o).dxInner
        (domain o).halfDxInner

/-- The domain setup divides by a nonzero number, and the sequential option evaluates
all trapezoids that fit into the workload, of which there is one at least. -/
structure DoesRealWork (f : ℚ → ℚ) (o : Options) : Prop where
  divides : (domain o).numberOfTrapezoids ≠ 0
  evaluates : (sequentialCalls f o).map List.length = some (steps o)
  nonempty : 1 ≤ steps o

section

variable (f : ℚ → ℚ) (x d h : ℚ)

/-- The record does not disturb the loop, has one call for every pass, and its areas
add up to the area. -/
theorem foldl_recordStep (passes : Nat) :
    let s := (List.range passes).foldl (recordStep f x d h) (⟨0, f x⟩, [])
    s.1 = (List.range passes).foldl (outerStep f x d h) ⟨0, f x⟩ ∧
      s.2.length = passes ∧ (s.2.map Call.area).sum = s.1.area := by
  induction passes with
  | zero => simp
  | succ passes ih =>
      obtain ⟨hstate, hlength, harea⟩ := ih
      simp only [List.range_succ, List.foldl_append, List.foldl_cons, List.foldl_nil]
      refine ⟨?_, ?_, ?_⟩
      · rw [← hstate]
        rfl
      · simp [recordStep, hlength]
      · simp [recordStep, harea, outerStep, Call.area]

theorem length_outerCalls (grainSize : Int) :
    (outerCalls f grainSize x d h).length = toSizeT grainSize :=
  (foldl_recordStep f x d h _).2.1

theorem sum_outerCalls (grainSize : Int) :
    ((outerCalls f grainSize x d h).map Call.area).sum = outerTrapezoid f grainSize x d h := by
  obtain ⟨hstate, -, harea⟩ := foldl_recordStep f x d h (toSizeT grainSize)
  rw [outerCalls, harea, hstate, outerTrapezoid]

variable (o : Options)

variable {o} in
theorem length_sequentialCalls
    (hwidth : o.totalWorkload.toNat / o.grainSize.toNat ≠ 2 ^ 64 - 1) :
    (sequentialCalls f o).map List.length =
      some ((domain o).numberOfTrapezoids * toSizeT (toInt32 o.grainSize.toNat)) := by
  rw [sequentialCalls, checked_sequentialOption f hwidth]
  simp [List.length_flatMap, length_outerCalls]

variable {o} in
theorem sequentialCalls_of_wrap
    (hwrap : o.totalWorkload.toNat / o.grainSize.toNat = 2 ^ 64 - 1) :
    sequentialCalls f o = none := by
  rw [sequentialCalls, checked_sequentialOption_of_wrap f hwrap, Option.map_none]

theorem sum_sequentialCalls :
    (sequentialCalls f o).map (fun calls => (calls.map Call.area).sum) = sequentialResult f o := by
  by_cases hwrap : o.totalWorkload.toNat / o.grainSize.toNat = 2 ^ 64 - 1
  · rw [sequentialCalls_of_wrap f hwrap, sequentialResult_of_wrap f hwrap, Option.map_none]
  rw [sequentialResult_eq f hwrap, sequentialCalls, checked_sequentialOption f hwrap,
    Option.map_some, Option.map_some]
  apply congrArg some
  induction (domain o).numberOfTrapezoids with
  | zero => rfl
  | succ passes ih =>
      rw [List.range_succ, List.flatMap_append, List.map_append, List.sum_append, ih,
        List.flatMap_singleton, sum_outerCalls, Finset.sum_range_succ]
      rfl

end

/-- A request does real work exactly when its grain size fits into the workload and into
an `int`, and the number of table entries does not wrap around to zero. -/
theorem doesRealWork_iff (f : ℚ → ℚ) (o : Options) (hg : 1 ≤ o.grainSize.toNat) :
    DoesRealWork f o ↔
      o.grainSize.toNat ≤ o.totalWorkload.toNat ∧ o.grainSize.toNat < 2 ^ 31 ∧
        o.totalWorkload.toNat / o.grainSize.toNat ≠ 2 ^ 64 - 1 := by
  have hpositive : (domain o).numberOfTrapezoids ≠ 0 ↔
      o.grainSize.toNat ≤ o.totalWorkload.toNat :=
    Nat.div_ne_zero_iff.trans (and_iff_right (by omega))
  constructor
  · intro h
    have hevaluates := h.evaluates
    have hwidth : o.totalWorkload.toNat / o.grainSize.toNat ≠ 2 ^ 64 - 1 := by
      intro hwrap
      rw [sequentialCalls_of_wrap f hwrap] at hevaluates
      cases hevaluates
    have hpasses : toSizeT (toInt32 o.grainSize.toNat) = o.grainSize.toNat := by
      rw [length_sequentialCalls f hwidth] at hevaluates
      exact Nat.eq_of_mul_eq_mul_left (Nat.pos_of_ne_zero h.divides) (Option.some.inj hevaluates)
    exact ⟨hpositive.mp h.divides, (toSizeT_toInt32_eq_iff o.grainSize.toNat_lt).mp hpasses, hwidth⟩
  · intro h
    obtain ⟨hle, hint, hwidth⟩ := h
    have hne := hpositive.mpr hle
    refine ⟨hne, ?_, ?_⟩
    · rw [length_sequentialCalls f hwidth, (toSizeT_toInt32_eq_iff o.grainSize.toNat_lt).mpr hint]
      rfl
    · exact Nat.mul_pos (Nat.pos_of_ne_zero hne) hg

theorem doesRealWork_iff_default : DoesRealWork (fun x => 3 * x ^ 2) {} :=
  (doesRealWork_iff _ {} (by decide)).mpr (by decide)

/-- With the workload left at its default of 1000, a grain size of 2000 is accepted and
nothing is evaluated. -/
theorem not_doesRealWork_grainSize :
    ¬ DoesRealWork (fun x => 3 * x ^ 2) { grainSize := 2000 } := by
  intro h
  exact absurd h.divides (by decide)

end UnoApi.Integration
