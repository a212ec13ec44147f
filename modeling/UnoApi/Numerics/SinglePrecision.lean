import Mathlib.Algebra.BigOperators.Fin
import Mathlib.Algebra.Order.Floor.Ring
import Mathlib.Data.Int.Log
import Mathlib.Data.Rat.Floor
import Mathlib.Tactic.Linarith
import Mathlib.Tactic.NormNum
import Mathlib.Tactic.Ring

/-!
# Single precision

The numbers of the 32-bit format have 24 significant bits, and below `2 ^ (-126)` they
are evenly spaced.  `toSingle` rounds to the nearest of them, to the even one of two
that are as near; a result too large for the format, which becomes an infinity, is not
represented here.
-/

namespace UnoApi.Numerics

def roundHalfEven (x : ℚ) : ℤ :=
  if x - ⌊x⌋ < 1 / 2 then ⌊x⌋
  else if 1 / 2 < x - ⌊x⌋ then ⌊x⌋ + 1
  else if ⌊x⌋ % 2 = 0 then ⌊x⌋ else ⌊x⌋ + 1

def ulp (q : ℚ) : ℚ := 2 ^ (max (Int.log 2 |q|) (-126) - 23)

def toSingle (q : ℚ) : ℚ := roundHalfEven (q / ulp q) * ulp q

def IsSingle (q : ℚ) : Prop := toSingle q = q

abbrev Single := {q : ℚ // IsSingle q}

/-! ## Rounding to an integer -/

theorem roundHalfEven_cases (x : ℚ) :
    roundHalfEven x = ⌊x⌋ ∨ (roundHalfEven x = ⌊x⌋ + 1 ∧ (⌊x⌋ : ℚ) < x) := by
  unfold roundHalfEven
  split
  · exact .inl rfl
  · rename_i hhalf
    have hlt : (⌊x⌋ : ℚ) < x := by linarith
    split
    · exact .inr ⟨rfl, hlt⟩
    · split
      · exact .inl rfl
      · exact .inr ⟨rfl, hlt⟩

theorem le_roundHalfEven {n : ℤ} {x : ℚ} (h : (n : ℚ) ≤ x) : n ≤ roundHalfEven x := by
  have hfloor : n ≤ ⌊x⌋ := Int.le_floor.mpr h
  rcases roundHalfEven_cases x with heq | ⟨heq, -⟩
  · rw [heq]
    exact hfloor
  · rw [heq]
    omega

theorem roundHalfEven_le {n : ℤ} {x : ℚ} (h : x ≤ n) : roundHalfEven x ≤ n := by
  rcases roundHalfEven_cases x with heq | ⟨heq, hlt⟩
  · rw [heq]
    exact_mod_cast (Int.floor_le x).trans h
  · rw [heq]
    have hbelow : ⌊x⌋ < n := by exact_mod_cast hlt.trans_le h
    omega

theorem roundHalfEven_intCast (n : ℤ) : roundHalfEven n = n :=
  le_antisymm (roundHalfEven_le le_rfl) (le_roundHalfEven le_rfl)

/-! ## Exact values -/

theorem ulp_pos (q : ℚ) : 0 < ulp q := zpow_pos (by norm_num) _

theorem isSingle_of_eq_mul {q : ℚ} {k : ℤ} (h : q = k * ulp q) : IsSingle q := by
  have hquotient : q / ulp q = k := by
    rw [div_eq_iff (ulp_pos q).ne']
    exact h
  rw [IsSingle, toSingle, hquotient, roundHalfEven_intCast]
  exact h.symm

theorem IsSingle.eq_mul {q : ℚ} (h : IsSingle q) : ∃ k : ℤ, q = k * ulp q :=
  ⟨roundHalfEven (q / ulp q), h.symm⟩

theorem isSingle_natCast {n : ℕ} (hn : n ≤ 2 ^ 24) : IsSingle n := by
  have hlog : Int.log 2 |(n : ℚ)| = Nat.log 2 n := by
    rw [abs_of_nonneg (Nat.cast_nonneg n)]
    exact Int.log_natCast 2 n
  have hulp : ulp n = 2 ^ ((Nat.log 2 n : ℤ) - 23) := by
    rw [ulp, hlog, max_eq_left (by omega)]
  by_cases hsmall : Nat.log 2 n ≤ 23
  · obtain ⟨spare, hspare⟩ := Nat.exists_eq_add_of_le hsmall
    apply @isSingle_of_eq_mul _ (n * 2 ^ spare : ℕ)
    have hexponent : (Nat.log 2 n : ℤ) - 23 = -(spare : ℤ) := by omega
    rw [hulp, hexponent, zpow_neg, zpow_natCast]
    push_cast
    field_simp
  · -- only `2 ^ 24` itself is left
    have hpow : 2 ^ 24 ≤ n := by
      have hlog24 : 24 ≤ Nat.log 2 n := by omega
      have hne : n ≠ 0 := by
        intro hzero
        rw [hzero, Nat.log_zero_right] at hlog24
        omega
      exact (Nat.pow_le_pow_right (by omega) hlog24).trans (Nat.pow_log_le_self 2 hne)
    have heq : n = 2 ^ 24 := le_antisymm hn hpow
    have hlog24 : Nat.log 2 n = 24 := by rw [heq, Nat.log_pow (by omega)]
    apply @isSingle_of_eq_mul _ (2 ^ 23)
    rw [hulp, hlog24, heq]
    norm_num

/-! ## Differences -/

theorem IsSingle.eq_mul_of_one_le {q : ℚ} (h : IsSingle q) (hone : 1 ≤ |q|) :
    ∃ k : ℤ, q = k * 2 ^ (-23 : ℤ) := by
  obtain ⟨k, hk⟩ := h.eq_mul
  have hlog : 0 ≤ Int.log 2 |q| := by
    have hmono := Int.log_mono_right (b := 2) (show (0 : ℚ) < 1 by norm_num) hone
    rwa [Int.log_one_right] at hmono
  obtain ⟨e, he⟩ := Int.eq_ofNat_of_zero_le hlog
  refine ⟨k * 2 ^ e, ?_⟩
  have hulp : ulp q = 2 ^ e * 2 ^ (-23 : ℤ) := by
    rw [ulp, max_eq_left (by omega), he, sub_eq_add_neg, zpow_add₀ (by norm_num),
      zpow_natCast]
  rw [hk, hulp]
  push_cast
  ring

theorem le_abs_toSingle {q : ℚ} (h : (2 : ℚ) ^ (-23 : ℤ) ≤ |q|) :
    (2 : ℚ) ^ (-23 : ℤ) ≤ |toSingle q| := by
  have hpos : 0 < |q| := lt_of_lt_of_le (zpow_pos (by norm_num) _) h
  have hlog : -23 ≤ Int.log 2 |q| :=
    (Int.zpow_le_iff_le_log Nat.one_lt_two hpos).mp (by exact_mod_cast h)
  have hulp : ulp q = 2 ^ (Int.log 2 |q| - 23) := by
    rw [ulp, max_eq_left (by omega)]
  have hself : (2 : ℚ) ^ Int.log 2 |q| ≤ |q| := by
    exact_mod_cast Int.zpow_log_le_self Nat.one_lt_two hpos
  have hsplit : (2 : ℚ) ^ Int.log 2 |q| = 2 ^ 23 * ulp q := by
    rw [hulp, zpow_sub₀ (by norm_num)]
    norm_num
    ring
  have hquotient : (2 : ℚ) ^ 23 ≤ |q / ulp q| := by
    rw [abs_div, abs_of_pos (ulp_pos q), le_div_iff₀ (ulp_pos q), ← hsplit]
    exact hself
  have hround : (2 : ℚ) ^ 23 ≤ |(roundHalfEven (q / ulp q) : ℚ)| := by
    rcases le_abs.mp hquotient with hright | hleft
    · have hle := @le_roundHalfEven (2 ^ 23) (q / ulp q) (by exact_mod_cast hright)
      exact le_abs.mpr (.inl (by exact_mod_cast hle))
    · have hle := @roundHalfEven_le (-2 ^ 23) (q / ulp q) (by push_cast; linarith)
      have hcast : (roundHalfEven (q / ulp q) : ℚ) ≤ -2 ^ 23 := by exact_mod_cast hle
      exact le_abs.mpr (.inr (by linarith))
  calc
    (2 : ℚ) ^ (-23 : ℤ) ≤ 2 ^ Int.log 2 |q| := zpow_le_zpow_right₀ (by norm_num) hlog
    _ = 2 ^ 23 * ulp q := hsplit
    _ ≤ |(roundHalfEven (q / ulp q) : ℚ)| * ulp q :=
      mul_le_mul_of_nonneg_right hround (ulp_pos q).le
    _ = |toSingle q| := by rw [toSingle, abs_mul, abs_of_pos (ulp_pos q)]

/-- From 2 on, two numbers whose rounded difference is less than `2 ^ (-23)` are equal. -/
theorem IsSingle.eq_of_abs_lt {q : ℚ} (h : IsSingle q) {n : ℕ} (hn : 2 ≤ n)
    (hsmall : |toSingle (q - n)| < 2 ^ (-23 : ℤ)) : q = n := by
  have hdiff : |q - n| < 2 ^ (-23 : ℤ) := by
    by_contra hlarge
    exact absurd (le_abs_toSingle (not_lt.mp hlarge)) (not_le.mpr hsmall)
  have hn' : (2 : ℚ) ≤ n := by exact_mod_cast hn
  have hone : 1 ≤ |q| := by
    have hbound : (2 : ℚ) ^ (-23 : ℤ) ≤ 1 := by norm_num
    have hnear := (abs_lt.mp hdiff).1
    exact le_abs.mpr (.inl (by linarith))
  obtain ⟨k, hk⟩ := h.eq_mul_of_one_le hone
  have hscaled : q - n = (k - n * 2 ^ 23 : ℤ) * 2 ^ (-23 : ℤ) := by
    rw [hk]
    push_cast
    norm_num
    ring
  have hgrid : (0 : ℚ) < 2 ^ (-23 : ℤ) := zpow_pos (by norm_num) _
  rw [hscaled, abs_mul, abs_of_pos hgrid] at hdiff
  have hint : |((k - n * 2 ^ 23 : ℤ) : ℚ)| < 1 :=
    lt_of_mul_lt_mul_right (by rwa [one_mul]) hgrid.le
  have hzero : k - n * 2 ^ 23 = 0 := by
    have hlt : |k - n * 2 ^ 23| < 1 := by exact_mod_cast hint
    exact Int.abs_lt_one_iff.mp hlt
  rw [← sub_eq_zero, hscaled, hzero, Int.cast_zero, zero_mul]

/-! ## Sums of products -/

/-- `sum += x[k] * y[k]` from first to last, where every operation rounds. -/
def roundedDot (rnd : ℚ → ℚ) {n : ℕ} (x y : Fin n → ℚ) : ℚ :=
  (List.finRange n).foldl (fun sum k => rnd (sum + rnd (x k * y k))) 0

/-- No partial sum of natural numbers needs more bits than the whole sum. -/
theorem roundedDot_natCast {n : ℕ} (x y : Fin n → ℕ) (hfit : ∑ k, x k * y k ≤ 2 ^ 24) :
    roundedDot toSingle (fun k => (x k : ℚ)) (fun k => (y k : ℚ)) =
      ((∑ k, x k * y k : ℕ) : ℚ) := by
  have hfold : ∀ (ks : List (Fin n)) (start : ℕ),
      start + (ks.map fun k => x k * y k).sum ≤ 2 ^ 24 →
      ks.foldl (fun sum k => toSingle (sum + toSingle ((x k : ℚ) * y k))) (start : ℚ) =
        ((start + (ks.map fun k => x k * y k).sum : ℕ) : ℚ) := by
    intro ks
    induction ks with
    | nil => simp
    | cons k ks ih =>
        intro start hstart
        rw [List.map_cons, List.sum_cons] at hstart ⊢
        have hproduct : toSingle ((x k : ℚ) * y k) = ((x k * y k : ℕ) : ℚ) := by
          rw [← Nat.cast_mul]
          exact isSingle_natCast (by omega)
        have hsum : toSingle ((start : ℚ) + ((x k * y k : ℕ) : ℚ)) =
            ((start + x k * y k : ℕ) : ℚ) := by
          rw [← Nat.cast_add]
          exact isSingle_natCast (by omega)
        rw [List.foldl_cons, hproduct, hsum, ih _ (by omega), Nat.add_assoc]
  have hall := hfold (List.finRange n) 0 (by rwa [Nat.zero_add, ← Fin.sum_univ_def])
  rw [Nat.zero_add, ← Fin.sum_univ_def, Nat.cast_zero] at hall
  exact hall

end UnoApi.Numerics
