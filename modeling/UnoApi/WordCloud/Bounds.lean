import UnoApi.Collections.Chunks
import UnoApi.DataParallel.Stretches
import UnoApi.WordCloud.Buckets

/-!
# The bounds of the buckets

The bounds are computed in `size_t` from a bucket size of any width.  The number of
buckets keeps every start below the number of words, so no bound that is used wraps
around, and the buckets cut the words into consecutive stretches.
-/

namespace UnoApi.WordCloud

open UnoApi.Collections UnoApi.DataParallel

/-- The buckets are cut as they are over the naturals, and no word outside the list is
looked up. -/
structure BoundsExact (size : Nat) (bucketSize : UInt64) : Prop where
  start : ∀ index < numOfBuckets size bucketSize,
    bucketStart bucketSize index = index * bucketSize.toNat ∧ bucketStart bucketSize index < size
  stop : ∀ index < numOfBuckets size bucketSize,
    bucketEnd size bucketSize index = min ((index + 1) * bucketSize.toNat) size
  nonempty : ∀ index < numOfBuckets size bucketSize,
    bucketStart bucketSize index < bucketEnd size bucketSize index
  consecutive : ∀ index, index + 1 < numOfBuckets size bucketSize →
    bucketEnd size bucketSize index = bucketStart bucketSize (index + 1)
  disjoint : StretchesDisjoint
    (fun index : Fin (numOfBuckets size bucketSize) => bucketStart bucketSize index)
    fun index => bucketEnd size bucketSize index
  covers : ∀ j, j < size ↔ ∃ index < numOfBuckets size bucketSize,
    bucketStart bucketSize index ≤ j ∧ j < bucketEnd size bucketSize index
  inside : ∀ words : List String, words.length = size →
    ∀ index < numOfBuckets size bucketSize, ∃ freqMap,
      tallyBucket words bucketSize index = some freqMap

section

variable {size : Nat} {bucketSize : UInt64} (hsize : size < 2 ^ 63) (hb : 0 < bucketSize.toNat)

include hsize hb

theorem bounds_iff_inChunk {index : Nat} (hindex : index < numOfBuckets size bucketSize)
    (j : Nat) :
    bucketStart bucketSize index ≤ j ∧ j < bucketEnd size bucketSize index ↔
      InChunk size bucketSize.toNat index j := by
  rw [bucketStart_eq hsize hb hindex, bucketEnd_eq hsize hb hindex, InChunk]

theorem bucketStart_lt_bucketEnd {index : Nat} (hindex : index < numOfBuckets size bucketSize) :
    bucketStart bucketSize index < bucketEnd size bucketSize index := by
  have hstart := (lt_numOfBuckets_iff hb).mp hindex
  rw [bucketStart_eq hsize hb hindex, bucketEnd_eq hsize hb hindex, Nat.succ_mul]
  omega

theorem bucketEnd_eq_bucketStart {index : Nat}
    (hindex : index + 1 < numOfBuckets size bucketSize) :
    bucketEnd size bucketSize index = bucketStart bucketSize (index + 1) := by
  have hnext := (lt_numOfBuckets_iff hb).mp hindex
  rw [bucketEnd_eq hsize hb (Nat.lt_of_succ_lt hindex), bucketStart_eq hsize hb hindex,
    Nat.min_eq_left hnext.le]

theorem buckets_disjoint : StretchesDisjoint
    (fun index : Fin (numOfBuckets size bucketSize) => bucketStart bucketSize index)
    fun index => bucketEnd size bucketSize index := by
  have hfirst : ∀ index : Fin (numOfBuckets size bucketSize),
      bucketStart bucketSize index = 0 + bucketSize.toNat * index := by
    intro index
    rw [bucketStart_eq hsize hb index.isLt, Nat.zero_add, Nat.mul_comm]
  rw [stretchesDisjoint_iff_spaced hfirst hb fun index =>
    bucketStart_lt_bucketEnd hsize hb index.isLt]
  intro index _
  rw [bucketStart_eq hsize hb index.isLt, bucketEnd_eq hsize hb index.isLt, ← Nat.succ_mul]
  exact Nat.min_le_left _ _

theorem buckets_cover (j : Nat) :
    j < size ↔ ∃ index < numOfBuckets size bucketSize,
      bucketStart bucketSize index ≤ j ∧ j < bucketEnd size bucketSize index := by
  constructor
  · intro hj
    obtain ⟨index, -, hchunk⟩ := exists_inChunk hb hj
    have hindex : index < numOfBuckets size bucketSize :=
      (lt_numOfBuckets_iff hb).mpr (Nat.lt_of_le_of_lt hchunk.1 hj)
    exact ⟨index, hindex, (bounds_iff_inChunk hsize hb hindex j).mpr hchunk⟩
  · intro h
    obtain ⟨index, hindex, hbounds⟩ := h
    have hchunk := (bounds_iff_inChunk hsize hb hindex j).mp hbounds
    exact Nat.lt_of_lt_of_le hchunk.2 (Nat.min_le_right _ _)

end

/-- The bounds of the buckets are exact for every bucket size, also next to `2 ^ 64`. -/
theorem boundsExact_of_lt (size : Nat) (bucketSize : UInt64) (hsize : size < 2 ^ 53)
    (hb : 1 ≤ bucketSize.toNat) : BoundsExact size bucketSize := by
  have hsize63 : size < 2 ^ 63 := Nat.lt_trans hsize (by decide)
  constructor
  · intro index hindex
    have hstart := bucketStart_eq hsize63 hb hindex
    refine ⟨hstart, ?_⟩
    rw [hstart]
    exact (lt_numOfBuckets_iff hb).mp hindex
  · exact fun index hindex => bucketEnd_eq hsize63 hb hindex
  · exact fun index hindex => bucketStart_lt_bucketEnd hsize63 hb hindex
  · exact fun index hindex => bucketEnd_eq_bucketStart hsize63 hb hindex
  · exact buckets_disjoint hsize63 hb
  · exact buckets_cover hsize63 hb
  · intro words hlength index hindex
    subst hlength
    obtain ⟨freqMap, htally, -⟩ := tallyBucket_counts ⟨words, hsize63⟩ hb hindex
    exact ⟨freqMap, htally⟩

theorem boundsExact_largest : BoundsExact 5 18446744073709551615 :=
  boundsExact_of_lt 5 18446744073709551615 (by decide) (by decide)

end UnoApi.WordCloud
