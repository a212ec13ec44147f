import UnoApi.Cipher.Substitute

/-!
# Message sizes

The loops of `main` and `substitute` count in an `int` up to a `size_t` bound.  They
count to the end, without overflow and from the right start, up to a size that an
`int` can hold.
-/

namespace UnoApi.Cipher

open UnoApi.Machine UnoApi.DataParallel UnoApi.Collections

/-- The counter takes the values from `first` to `bound - 1` and does not overflow. -/
def CountsExactly (run : CounterRun) (first bound : Nat) : Prop :=
  run = ⟨(List.range' first (bound - first)).map fun j : Nat => (j : Int), false⟩

/-- Both loops count exactly, and every byte of the message is substituted. -/
structure SubstitutesAll (n : Nat) (g : UInt32) : Prop where
  outer : CountsExactly (outerCounter n g) 0 (n / g.toNat + 1)
  inner : ∀ i < n / g.toNat + 1,
    CountsExactly (innerCounter n g i) (i * g.toNat) (min ((i + 1) * g.toNat) n)
  loop : ∀ m, ∀ j < n, (substituteLoop n g).exec m (.outputMessage, j) = substituted m j
  kernel : ∀ m tr m', Completes (substituteKernel n g) m tr m' →
    ∀ j < n, m' (.outputMessage, j) = substituted m j

section

variable {n : Nat} {g : UInt32}

theorem outer_countsExactly_iff (hn : n < 2 ^ 63) :
    CountsExactly (outerCounter n g) 0 (n / g.toNat + 1) ↔ n / g.toNat + 1 < 2 ^ 31 := by
  have hzero : toInt32 0 = 0 := by decide
  have hiff := counter_toInt32_eq_range_iff (Nat.succ_pos (n / g.toNat))
  rw [hzero] at hiff
  rw [CountsExactly, outerCounter, launchSize_eq hn]
  exact hiff

theorem inner_countsExactly_iff (hn : n < 2 ^ 63) (hg : 0 < g.toNat) :
    (∀ i < n / g.toNat + 1,
      CountsExactly (innerCounter n g i) (i * g.toNat) (min ((i + 1) * g.toNat) n)) ↔
      n < 2 ^ 31 := by
  constructor
  · intro hinner
    by_contra hbig
    obtain ⟨i, hi, hchunk⟩ := @exists_inChunk n g.toNat (n - 1) hg (by omega)
    have hlast : min ((i + 1) * g.toNat) n = n := by
      have hlt := hchunk.2
      omega
    have hexact := hinner i hi
    rw [CountsExactly, innerCounter_eq hn hi, hlast] at hexact
    have hstart := hchunk.1
    exact hbig ((counter_toInt32_eq_range_iff (by omega)).mp hexact)
  · intro hsmall i hi
    have hstart := chunk_start_le hi
    rw [CountsExactly, innerCounter_eq hn hi, toInt32_of_lt (by omega)]
    exact counter_eq_range hstart (by omega)

theorem countersFit_iff (hg : 0 < g.toNat) :
    CountersFit n g ↔ n < 2 ^ 31 - 1 ∨ (n = 2 ^ 31 - 1 ∧ 2 ≤ g.toNat) := by
  constructor
  · intro hfit
    have hsize := hfit.size
    by_cases hn : n < 2 ^ 31 - 1
    · exact .inl hn
    · refine .inr ⟨by omega, ?_⟩
      by_contra hone
      have hchunks := hfit.chunks
      rw [show g.toNat = 1 by omega, Nat.div_one] at hchunks
      omega
  · intro h
    rcases h with hn | ⟨rfl, hgrain⟩
    · exact .of_lt (by omega) g
    · constructor
      · decide
      · have hhalf : (2 ^ 31 - 1) / g.toNat ≤ (2 ^ 31 - 1) / 2 :=
          Nat.div_le_div_left hgrain (by decide)
        omega

end

/-- Substitution works off the whole message exactly when the size, and the number of
chunks with it, stays below the largest `int`. -/
theorem substitutesAll_iff (n : Nat) (g : UInt32) (hn : n < 2 ^ 63) (hg : 0 < g.toNat) :
    SubstitutesAll n g ↔ n < 2 ^ 31 - 1 ∨ (n = 2 ^ 31 - 1 ∧ 2 ≤ g.toNat) := by
  rw [← countersFit_iff hg]
  constructor
  · intro h
    exact ⟨(inner_countsExactly_iff hn hg).mp h.inner, (outer_countsExactly_iff hn).mp h.outer⟩
  · intro hfit
    constructor
    · exact (outer_countsExactly_iff hn).mpr hfit.chunks
    · exact (inner_countsExactly_iff hn hg).mpr hfit.size
    · intro m j hj
      exact substituteLoop_fills hfit hg hj
    · intro m tr m' hrun j hj
      exact substituteKernel_fills hfit.size hg hrun hj

theorem substitutesAll_three : SubstitutesAll 3 2 :=
  (substitutesAll_iff 3 2 (by decide) (by decide)).mpr (by decide)

/-- At three billion bytes the start of the last chunk becomes a negative `int`, which
compares as a huge `size_t`; the chunk is skipped. -/
theorem not_substitutesAll_three_billion :
    (innerCounter 3000000000 100 29999999).values = [] ∧ ¬ SubstitutesAll 3000000000 100 := by
  constructor
  · have hskips : ¬ toSizeT (toInt32 (29999999 * 100)) <
        min ((29999999 + 1) * 100) 3000000000 := by decide
    rw [innerCounter_eq (by decide) (by decide)]
    change (counter (toInt32 (29999999 * 100)) (min ((29999999 + 1) * 100) 3000000000)).values = []
    rw [counter, if_neg hskips]
  · intro h
    have hsmall := (inner_countsExactly_iff (by decide) (by decide)).mp h.inner
    omega

end UnoApi.Cipher
