import Mathlib.Algebra.Ring.Nat
import Mathlib.Order.CompletePartialOrder
import Mathlib.Order.Interval.Set.Disjoint

/-!
# Stretches of one stream

Every member of a family takes the positions of a common stream from its own `first`
up to its `last`.  The stretches overlap unless each ends before the next one begins.
-/

namespace UnoApi.DataParallel

def StretchesDisjoint {κ : Type} (first last : κ → Nat) : Prop :=
  ∀ p q, p ≠ q → Disjoint (Set.Ico (first p) (last p)) (Set.Ico (first q) (last q))

theorem stretchesDisjoint_iff {κ : Type} {first last : κ → Nat}
    (hfirst : Function.Injective first) (hne : ∀ p, first p < last p) :
    StretchesDisjoint first last ↔ ∀ p q, first p < first q → last p ≤ first q := by
  constructor
  · intro h p q hlt
    have hdisjoint := h p q fun heq => absurd hlt (heq ▸ Nat.lt_irrefl _)
    rw [Set.Ico_disjoint_Ico] at hdisjoint
    have hq := hne q
    omega
  · intro h p q hpq
    rw [Set.Ico_disjoint_Ico]
    have hcases := Nat.lt_or_gt_of_ne fun heq => hpq (hfirst heq)
    rcases hcases with hlt | hlt
    · have hp := h p q hlt
      omega
    · have hq := h q p hlt
      omega

/-- Stretches that begin at equal distances overlap when one of them, apart from the
last, is longer than the distance. -/
theorem stretchesDisjoint_iff_spaced {n start step : Nat} {first last : Fin n → Nat}
    (hfirst : ∀ p, first p = start + step * p) (hstep : 0 < step)
    (hne : ∀ p, first p < last p) :
    StretchesDisjoint first last ↔ ∀ p : Fin n, p.val + 1 < n → last p ≤ first p + step := by
  have hlt_iff : ∀ p q, first p < first q ↔ p < q := by
    intro p q
    rw [hfirst, hfirst, Nat.add_lt_add_iff_left, Nat.mul_lt_mul_left hstep]
    rfl
  have hinjective : Function.Injective first := by
    intro p q heq
    rw [hfirst, hfirst, Nat.add_left_cancel_iff] at heq
    exact Fin.ext (Nat.eq_of_mul_eq_mul_left hstep heq)
  rw [stretchesDisjoint_iff hinjective hne]
  constructor
  · intro h p hp
    have hnext := h p ⟨p + 1, hp⟩ ((hlt_iff _ _).mpr (Nat.lt_succ_self p.val))
    rw [hfirst ⟨p + 1, hp⟩] at hnext
    rw [hfirst p, Nat.add_assoc, ← Nat.mul_succ]
    exact hnext
  · intro h p q hlt
    have hpq : p.val < q.val := (hlt_iff p q).mp hlt
    have hp := h p (by omega)
    have hmul : step * (p.val + 1) ≤ step * q.val := Nat.mul_le_mul_left step hpq
    calc
      last p ≤ first p + step := hp
      _ = start + step * (p.val + 1) := by rw [hfirst p, Nat.add_assoc, ← Nat.mul_succ]
      _ ≤ first q := by rw [hfirst q]; omega

end UnoApi.DataParallel
