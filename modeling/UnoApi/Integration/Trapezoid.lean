import UnoApi.Machine.Counter
import UnoApi.Numerics.CompositeRule
import Mathlib.Data.Rat.Defs

/-!
# Trapezoids

`double` is read as exact rationals, and the function `f` is a parameter.
-/

namespace UnoApi.Integration

open UnoApi.Machine UnoApi.Numerics

def singleTrapezoid (f1 f2 halfDx : ℚ) : ℚ := (f1 + f2) * halfDx

structure OuterState where
  area : ℚ
  yLeft : ℚ

def outerStep (f : ℚ → ℚ) (xPos dxInner halfDxInner : ℚ) (s : OuterState) (j : Nat) :
    OuterState :=
  let yRight := f (xPos + ((j + 1 : Nat) : ℚ) * dxInner)
  ⟨s.area + singleTrapezoid s.yLeft yRight halfDxInner, yRight⟩

/-- The counter is an `unsigned long`, so the `int` bound is converted. -/
def outerTrapezoid (f : ℚ → ℚ) (grainSize : Int) (xPos dxInner halfDxInner : ℚ) : ℚ :=
  ((List.range (toSizeT grainSize)).foldl (outerStep f xPos dxInner halfDxInner)
    ⟨0, f xPos⟩).area

/-- The carried left value is the function at the left end of the next trapezoid. -/
theorem foldl_outerStep (f : ℚ → ℚ) (x d : ℚ) (steps : Nat) :
    (List.range steps).foldl (outerStep f x d (1 / 2 * d)) ⟨0, f x⟩ =
      ⟨trapezoidSum f x d steps, f (x + steps * d)⟩ := by
  induction steps with
  | zero => simp [trapezoidSum_zero]
  | succ steps ih =>
      rw [List.range_succ, List.foldl_append, ih, List.foldl_cons, List.foldl_nil,
        trapezoidSum_succ, outerStep, singleTrapezoid]
      push_cast
      rw [one_div_mul_eq_div]

theorem outerTrapezoid_eq (f : ℚ → ℚ) (grainSize : Int) (x d : ℚ) :
    outerTrapezoid f grainSize x d (1 / 2 * d) = trapezoidSum f x d (toSizeT grainSize) := by
  unfold outerTrapezoid
  rw [foldl_outerStep]

end UnoApi.Integration
