import UnoApi.Integration.Main
import Mathlib.Analysis.SpecialFunctions.Integrals.Basic

/-!
# The integrand of the program

One trapezoid under `3 * x ^ 2` exceeds the integral over its step by half the cube
of the step, wherever the step stands.  So the sum has a closed form, and its error
depends on the number of steps alone.
-/

namespace UnoApi.Integration

open UnoApi.Machine UnoApi.Numerics

def f (x : ℚ) : ℚ := 3 * x ^ 2

def primitive (x : ℚ) : ℚ := x ^ 3

theorem integral_f (a b : ℚ) :
    (∫ x in (a : ℝ)..b, 3 * x ^ 2) = ((primitive b - primitive a : ℚ) : ℝ) := by
  rw [intervalIntegral.integral_const_mul, integral_pow]
  simp only [primitive]
  push_cast
  ring

/-- The excess of one trapezoid of width `d`. -/
theorem f_step (d u : ℚ) :
    (f u + f (u + d)) * (d / 2) = primitive (u + d) - primitive u + d ^ 3 / 2 := by
  unfold f primitive
  ring

theorem outerTrapezoid_f {grainSize : Int} (hg : 0 ≤ grainSize) (hint : grainSize ≤ intMax)
    (x d : ℚ) :
    outerTrapezoid f grainSize x d (d / 2) =
      (x + grainSize * d) ^ 3 - x ^ 3 + grainSize * d ^ 3 / 2 := by
  unfold intMax at hint
  have hsteps : ((toSizeT grainSize : Nat) : ℚ) = grainSize := by
    have hnat : ((toSizeT grainSize : Nat) : Int) = grainSize := by
      unfold toSizeT
      omega
    exact_mod_cast congrArg (Int.cast : Int → ℚ) hnat
  have hhalf : d / 2 = 1 / 2 * d := by ring
  rw [hhalf, outerTrapezoid_eq, trapezoidSum_of_step (f_step d), hsteps, mul_div_assoc]
  rfl

theorem compositeTrapezoid_f (a b : ℚ) {steps : Nat} (hsteps : steps ≠ 0) :
    compositeTrapezoid f a b steps = b ^ 3 - a ^ 3 + (b - a) ^ 3 / (2 * steps ^ 2) := by
  have hne : (steps : ℚ) ≠ 0 := Nat.cast_ne_zero.mpr hsteps
  rw [compositeTrapezoid_of_step hne (f_step _)]
  unfold primitive
  field_simp

def closedForm (o : Options) : ℚ :=
  o.xMax ^ 3 - o.xMin ^ 3 + (o.xMax - o.xMin) ^ 3 / (2 * steps o ^ 2)

/-- The sequential option prints the closed form, which is no underestimate. -/
structure HasClosedForm (o : Options) : Prop where
  value : sequentialResult f o = some (closedForm o)
  overestimates : (∫ x in (o.xMin : ℝ)..o.xMax, 3 * x ^ 2) ≤ (closedForm o : ℝ)

/-- All ways to cut the range into as many steps give the same result. -/
def SplitsAgree (o : Options) : Prop :=
  ∀ (n : UInt64) (g : UInt32), 1 ≤ g.toNat → g.toNat < 2 ^ 31 → g.toNat ≤ n.toNat →
    n.toNat / g.toNat * g.toNat = steps o →
    sequentialResult f { o with totalWorkload := n, grainSize := g } = sequentialResult f o

section

variable {o : Options}

theorem steps_ne_zero (hg : 1 ≤ o.grainSize.toNat)
    (hle : o.grainSize.toNat ≤ o.totalWorkload.toNat) : steps o ≠ 0 :=
  Nat.mul_ne_zero (Nat.div_pos hle hg).ne' (Nat.pos_iff_ne_zero.mp hg)

theorem sequentialResult_f (hg : 1 ≤ o.grainSize.toNat) (hint : o.grainSize.toNat < 2 ^ 31)
    (hle : o.grainSize.toNat ≤ o.totalWorkload.toNat)
    (hwidth : o.totalWorkload.toNat / o.grainSize.toNat ≠ 2 ^ 64 - 1) :
    sequentialResult f o = some (closedForm o) := by
  rw [(sequentialIsFlat_iff f hg hint).mpr hwidth, flatRule,
    compositeTrapezoid_f _ _ (steps_ne_zero hg hle), closedForm]

theorem integral_le_closedForm (hrange : o.xMin ≤ o.xMax) :
    (∫ x in (o.xMin : ℝ)..o.xMax, 3 * x ^ 2) ≤ (closedForm o : ℝ) := by
  have hexcess : 0 ≤ (o.xMax - o.xMin) ^ 3 / (2 * (steps o : ℚ) ^ 2) :=
    div_nonneg (pow_nonneg (sub_nonneg.mpr hrange) 3) (by positivity)
  rw [integral_f]
  norm_cast
  unfold primitive closedForm
  linarith

theorem hasClosedForm_iff (hrange : o.xMin ≤ o.xMax) (hg : 1 ≤ o.grainSize.toNat)
    (hint : o.grainSize.toNat < 2 ^ 31) (hle : o.grainSize.toNat ≤ o.totalWorkload.toNat) :
    HasClosedForm o ↔ o.totalWorkload.toNat / o.grainSize.toNat ≠ 2 ^ 64 - 1 := by
  constructor
  · intro hclosed hwrap
    have hvalue := hclosed.value
    rw [sequentialResult_of_wrap f hwrap] at hvalue
    cases hvalue
  · intro hwidth
    exact ⟨sequentialResult_f hg hint hle hwidth, integral_le_closedForm hrange⟩

/-- As many steps as the largest workload has can be made with and without grains. -/
theorem not_splitsAgree_of_steps (hsteps : steps o = 2 ^ 64 - 1) : ¬ SplitsAgree o := by
  obtain ⟨n, hn⟩ : ∃ n : UInt64, n.toNat = 2 ^ 64 - 1 := ⟨largest.totalWorkload, rfl⟩
  have hone : (1 : UInt32).toNat = 1 := rfl
  have hthree : (3 : UInt32).toNat = 3 := rfl
  intro hagree
  have hfine := hagree n 1 (by omega) (by omega) (by omega) (by rw [hone, hn, hsteps]; rfl)
  have hcoarse := hagree n 3 (by omega) (by omega) (by omega) (by rw [hthree, hn, hsteps]; rfl)
  exact sequentialResult_grains_ne f (o := { o with totalWorkload := n }) hn
    (hfine.trans hcoarse.symm)

theorem splitsAgree_iff (hg : 1 ≤ o.grainSize.toNat) (hint : o.grainSize.toNat < 2 ^ 31)
    (hle : o.grainSize.toNat ≤ o.totalWorkload.toNat) :
    SplitsAgree o ↔ steps o ≠ 2 ^ 64 - 1 := by
  constructor
  · exact fun hagree hsteps => not_splitsAgree_of_steps hsteps hagree
  · intro hne n g hg' hint' hle' hsteps
    have hwidth : ∀ {n : UInt64} {g : UInt32}, n.toNat / g.toNat * g.toNat = steps o →
        n.toNat / g.toNat ≠ 2 ^ 64 - 1 := by
      intro n g hsteps hwrap
      apply hne
      rw [← hsteps, hwrap, (eq_of_wrap hwrap).2, Nat.mul_one]
    have hsame : closedForm { o with totalWorkload := n, grainSize := g } = closedForm o := by
      have hsteps' : steps { o with totalWorkload := n, grainSize := g } = steps o := hsteps
      rw [closedForm, hsteps', closedForm]
    rw [sequentialResult_f hg hint hle (hwidth rfl), ← hsame]
    exact sequentialResult_f (o := { o with totalWorkload := n, grainSize := g }) hg' hint' hle'
      (hwidth hsteps)

end

/-- The trapezoid sum of the program has a closed form that never falls below the integral,
unless the number of table entries wraps around to zero; and how the trapezoids are grouped
does not matter, unless one of the ways to group them makes it wrap around. -/
theorem trapezoids_closed_form_iff (o : Options) (hrange : o.xMin ≤ o.xMax)
    (hg : 1 ≤ o.grainSize.toNat) (hint : o.grainSize.toNat < 2 ^ 31)
    (hle : o.grainSize.toNat ≤ o.totalWorkload.toNat) :
    (∀ (grainSize : Int) (x d : ℚ), 0 ≤ grainSize → grainSize ≤ intMax →
      outerTrapezoid f grainSize x d (d / 2) =
        (x + grainSize * d) ^ 3 - x ^ 3 + grainSize * d ^ 3 / 2) ∧
    (HasClosedForm o ↔ o.totalWorkload.toNat / o.grainSize.toNat ≠ 2 ^ 64 - 1) ∧
    (SplitsAgree o ↔ steps o ≠ 2 ^ 64 - 1) :=
  ⟨fun _ x d hg hint => outerTrapezoid_f hg hint x d, hasClosedForm_iff hrange hg hint hle,
    splitsAgree_iff hg hint hle⟩

theorem trapezoids_closed_form_iff_default :
    outerTrapezoid f 1000 0 (1 / 1000) (1 / 1000 / 2) = 1 + 1 / 2000000 ∧
      sequentialResult f {} = some (1 + 1 / 2000000) := by
  have hform := trapezoids_closed_form_iff {} (by decide) (by decide) (by decide) (by decide)
  have houter := hform.1 1000 0 (1 / 1000) (by decide) (by decide)
  have hdefault := (hform.2.1.mpr (by decide)).value
  have hsteps : steps {} = 1000 := by decide
  rw [houter, hdefault, closedForm, hsteps]
  constructor
  · norm_num
  · norm_num

theorem not_hasClosedForm_largest : ¬ HasClosedForm largest := by
  rw [hasClosedForm_iff (by decide) (by decide) (by decide) (by decide)]
  exact not_not.mpr (Nat.div_one _)

end UnoApi.Integration
