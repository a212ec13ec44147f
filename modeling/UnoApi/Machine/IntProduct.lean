import Mathlib.Algebra.Ring.Int.Defs

/-!
# Products of `int` values

`x * y` on `int` is undefined when the exact product does not fit; read with
wrap-around it can then be zero although neither factor is.
-/

namespace UnoApi.Machine

def ProductFits (x y : Int32) : Prop :=
  -2 ^ 31 ≤ x.toInt * y.toInt ∧ x.toInt * y.toInt < 2 ^ 31

instance (x y : Int32) : Decidable (ProductFits x y) :=
  inferInstanceAs (Decidable (_ ∧ _))

def IsBit (x : Int32) : Prop := x = 0 ∨ x = 1

instance (x : Int32) : Decidable (IsBit x) := inferInstanceAs (Decidable (_ ∨ _))

theorem IsBit.productFits_left {x : Int32} (hx : IsBit x) (y : Int32) : ProductFits x y := by
  have hlow := y.le_toInt
  have hhigh := y.toInt_lt
  rcases hx with rfl | rfl
  · simp [ProductFits]
  · have hone : (1 : Int32).toInt = 1 := by decide
    unfold ProductFits
    rw [hone]
    omega

theorem IsBit.productFits_right {y : Int32} (hy : IsBit y) (x : Int32) : ProductFits x y := by
  have hfits := hy.productFits_left x
  rwa [ProductFits, Int.mul_comm] at hfits

/-- A product that fits is zero only when a factor is. -/
theorem ProductFits.mul_ne_zero_iff {x y : Int32} (h : ProductFits x y) :
    x * y ≠ 0 ↔ x ≠ 0 ∧ y ≠ 0 := by
  have hexact : (x * y).toInt = x.toInt * y.toInt :=
    calc
      (x * y).toInt = (x.toInt * y.toInt).bmod (2 ^ 32) := Int32.toInt_mul x y
      _ = x.toInt * y.toInt := Int.bmod_eq_of_le h.1 h.2
  have hzero : ∀ z : Int32, z = 0 ↔ z.toInt = 0 := fun z => by
    rw [← Int32.toInt_inj, Int32.toInt_zero]
  rw [Ne, Ne, Ne, hzero, hzero, hzero, hexact, Int.mul_eq_zero, not_or]

end UnoApi.Machine
