import Mathlib.Algebra.BigOperators.Intervals
import Mathlib.Algebra.Field.Basic
import Mathlib.Tactic.Ring

/-!
# The composite trapezoid rule

`trapezoidSum f x h steps` adds the trapezoids under `f` on `steps` steps of width
`h`, beginning at `x`.  Blocks of consecutive trapezoids join to one sum, because
a block ends where the next one begins.
-/

namespace UnoApi.Numerics

variable {K : Type} [Field K]

def trapezoidSum (f : K → K) (x h : K) (steps : Nat) : K :=
  ∑ s ∈ Finset.range steps, (f (x + s * h) + f (x + (s + 1) * h)) * (h / 2)

def compositeTrapezoid (f : K → K) (a b : K) (steps : Nat) : K :=
  trapezoidSum f a ((b - a) / steps) steps

theorem trapezoidSum_zero (f : K → K) (x h : K) : trapezoidSum f x h 0 = 0 := by
  simp [trapezoidSum]

theorem trapezoidSum_succ (f : K → K) (x h : K) (steps : Nat) :
    trapezoidSum f x h (steps + 1) =
      trapezoidSum f x h steps +
        (f (x + steps * h) + f (x + (steps + 1) * h)) * (h / 2) := by
  rw [trapezoidSum, Finset.sum_range_succ, trapezoidSum]

theorem trapezoidSum_add (f : K → K) (x h : K) (steps more : Nat) :
    trapezoidSum f x h (steps + more) =
      trapezoidSum f x h steps + trapezoidSum f (x + steps * h) h more := by
  rw [trapezoidSum, Finset.sum_range_add, trapezoidSum, trapezoidSum]
  congr 1
  apply Finset.sum_congr rfl
  intro s _
  have hleft : x + ((steps + s : Nat) : K) * h = x + steps * h + s * h := by
    push_cast
    ring
  have hright : x + (((steps + s : Nat) : K) + 1) * h = x + steps * h + (s + 1) * h := by
    push_cast
    ring
  rw [hleft, hright]

/-- The nested sum over `blocks` blocks of `g` trapezoids is one sum. -/
theorem sum_trapezoidSum (f : K → K) (x h : K) (blocks g : Nat) :
    ∑ i ∈ Finset.range blocks, trapezoidSum f (x + i * (g * h)) h g =
      trapezoidSum f x h (blocks * g) := by
  induction blocks with
  | zero => simp [trapezoidSum_zero]
  | succ blocks ih =>
      have hstart : x + ((blocks * g : Nat) : K) * h = x + blocks * (g * h) := by
        rw [Nat.cast_mul, mul_assoc]
      rw [Finset.sum_range_succ, ih, Nat.succ_mul, trapezoidSum_add, hstart]

/-- When one trapezoid of width `h` is the difference of an antiderivative and a defect
`e` wherever it stands, the sum telescopes and the defects add up. -/
theorem trapezoidSum_of_step {f F : K → K} {h e : K}
    (hstep : ∀ u, (f u + f (u + h)) * (h / 2) = F (u + h) - F u + e) (x : K) (steps : Nat) :
    trapezoidSum f x h steps = F (x + steps * h) - F x + steps * e := by
  induction steps with
  | zero => simp [trapezoidSum_zero]
  | succ steps ih =>
      have hnext : x + ((steps + 1 : Nat) : K) * h = x + steps * h + h := by
        push_cast
        ring
      have hnode : x + ((steps : K) + 1) * h = x + steps * h + h := by ring
      rw [trapezoidSum_succ, ih, hnode, hstep, hnext]
      push_cast
      ring

theorem compositeTrapezoid_of_step {f F : K → K} {a b e : K} {steps : Nat}
    (hsteps : (steps : K) ≠ 0)
    (hstep : ∀ u, (f u + f (u + (b - a) / steps)) * ((b - a) / steps / 2) =
      F (u + (b - a) / steps) - F u + e) :
    compositeTrapezoid f a b steps = F b - F a + steps * e := by
  rw [compositeTrapezoid, trapezoidSum_of_step hstep, mul_div_cancel₀ _ hsteps,
    add_sub_cancel]

/-- Cutting the range into `blocks` parts and each part into `g` steps gives the
rule with `blocks * g` steps. -/
theorem sum_blocks_eq_compositeTrapezoid (f : K → K) (a b : K) (blocks : Nat) {g : Nat}
    (hg : (g : K) ≠ 0) :
    ∑ i ∈ Finset.range blocks,
        trapezoidSum f (a + i * ((b - a) / blocks)) ((b - a) / blocks / g) g =
      compositeTrapezoid f a b (blocks * g) := by
  have hstep : (g : K) * ((b - a) / blocks / g) = (b - a) / blocks :=
    mul_div_cancel₀ _ hg
  have hflat : (b - a) / blocks / g = (b - a) / ((blocks * g : Nat) : K) := by
    rw [div_div, Nat.cast_mul]
  calc
    _ = trapezoidSum f a ((b - a) / blocks / g) (blocks * g) := by
      rw [← sum_trapezoidSum, hstep]
    _ = compositeTrapezoid f a b (blocks * g) := by
      rw [compositeTrapezoid, hflat]

end UnoApi.Numerics
