import UnoApi.Collections.Counting
import UnoApi.Machine.Counter
import Mathlib.Algebra.Order.Floor.Semiring
import Mathlib.Data.Rat.Floor

/-!
# The buckets of the word cloud

The words of the input are grouped into buckets of equal size, except for the last
one, and each bucket gets its frequency map.  The words are those left after the
short ones have been filtered out.
-/

namespace UnoApi.WordCloud

open UnoApi.Machine UnoApi.Collections

abbrev FrequencyMap := CountMap String

/-- A `std::vector` of words; no vector has `2 ^ 63` elements. -/
structure WordList where
  words : List String
  bounded : words.length < 2 ^ 63

def increase (freqMap : FrequencyMap) (word : String) (amount : Nat) : FrequencyMap :=
  freqMap.insert word (wrap64 ((freqMap.lookup word).getD 0 + amount))

/-- `none` when `source[index]` lies outside the vector. -/
def tallyFrequencies (source : List String) (left right : Nat) (freqMap : FrequencyMap) :
    Option FrequencyMap :=
  (List.range' left (right - left)).foldlM
    (fun freqMap index => source[index]?.map fun word => increase freqMap word 1) freqMap

/-- `ceil(1.0 * size / bucket_size)`, taken exactly. -/
def numOfBuckets (size : Nat) (bucketSize : UInt64) : Nat :=
  ⌈(size : ℚ) / (bucketSize.toNat : ℚ)⌉₊

def tallyBucket (words : List String) (bucketSize : UInt64) (index : Nat) :
    Option FrequencyMap :=
  let bucketStart := wrap64 (index * bucketSize.toNat)
  let bucketEnd := min (wrap64 (bucketStart + bucketSize.toNat)) words.length
  tallyFrequencies words bucketStart bucketEnd ∅

def buckets (words : List String) (bucketSize : UInt64) : Option (List FrequencyMap) :=
  (List.range (numOfBuckets words.length bucketSize)).mapM (tallyBucket words bucketSize)

/-! ## Slices -/

theorem extract_append {words : List String} {a b c : Nat} (hab : a ≤ b) (hbc : b ≤ c) :
    words.extract a b ++ words.extract b c = words.extract a c := by
  have hsplit : c - a = (b - a) + (c - b) := by omega
  rw [List.extract_eq_take_drop, List.extract_eq_take_drop, List.extract_eq_take_drop, hsplit,
    List.take_add, List.drop_drop, Nat.add_sub_cancel' hab]

theorem extract_succ {words : List String} {a b : Nat} (hab : a ≤ b) (hb : b < words.length) :
    words.extract a (b + 1) = words.extract a b ++ [words[b]] := by
  rw [← extract_append hab (Nat.le_add_right b 1)]
  congr 1
  rw [List.extract_eq_take_drop, Nat.add_sub_cancel_left, List.drop_eq_getElem_cons hb]
  rfl

/-! ## Tallying a slice -/

theorem increase_eq {freqMap : FrequencyMap} {xs : List String} (h : Counts freqMap xs)
    (word : String) {amount : Nat} (hsmall : xs.length + amount < 2 ^ 64) :
    increase freqMap word amount = addCount freqMap word amount := by
  have hcount := @List.count_le_length _ _ word xs
  unfold increase addCount
  rw [h.getD_lookup, wrap64_of_lt (by omega)]

/-- The spec of `tally_frequencies`: it adds the words between the bounds. -/
theorem tallyFrequencies_counts {source : List String} (hsource : source.length < 2 ^ 63)
    {left right : Nat} (hle : left ≤ right) (hright : right ≤ source.length)
    {freqMap : FrequencyMap} {xs : List String} (h : Counts freqMap xs)
    (hsmall : xs.length < 2 ^ 63) :
    ∃ freqMap', tallyFrequencies source left right freqMap = some freqMap' ∧
      Counts freqMap' (xs ++ source.extract left right) := by
  obtain ⟨count, rfl⟩ := Nat.exists_eq_add_of_le hle
  rw [tallyFrequencies, Nat.add_sub_cancel_left]
  clear hle
  induction count with
  | zero => exact ⟨freqMap, rfl, by simpa using h⟩
  | succ count ih =>
      have hindex : left + count < source.length := by omega
      obtain ⟨freqMap₁, htally, hcounts⟩ := ih (by omega)
      have hlength : (xs ++ source.extract left (left + count)).length + 1 < 2 ^ 64 := by
        have hslice : (source.extract left (left + count)).length ≤ source.length := by
          simp
        rw [List.length_append]
        omega
      refine ⟨increase freqMap₁ source[left + count] 1, ?_, ?_⟩
      · rw [List.range'_concat, List.foldlM_append, htally]
        simp [hindex]
      · rw [increase_eq hcounts _ hlength, ← Nat.add_assoc,
          extract_succ (Nat.le_add_right left count) hindex, ← List.append_assoc]
        exact hcounts.addCount _ Nat.one_pos

/-! ## The bounds of the buckets -/

section

variable {size : Nat} {bucketSize : UInt64}

theorem lt_numOfBuckets_iff (hb : 0 < bucketSize.toNat) {index : Nat} :
    index < numOfBuckets size bucketSize ↔ index * bucketSize.toNat < size := by
  have hpos : (0 : ℚ) < (bucketSize.toNat : ℚ) := Nat.cast_pos.mpr hb
  unfold numOfBuckets
  rw [Nat.lt_ceil, lt_div_iff₀ hpos]
  exact_mod_cast Iff.rfl

def bucketStart (bucketSize : UInt64) (index : Nat) : Nat := wrap64 (index * bucketSize.toNat)

def bucketEnd (size : Nat) (bucketSize : UInt64) (index : Nat) : Nat :=
  min (wrap64 (bucketStart bucketSize index + bucketSize.toNat)) size

theorem tallyBucket_eq (words : List String) (bucketSize : UInt64) (index : Nat) :
    tallyBucket words bucketSize index =
      tallyFrequencies words (bucketStart bucketSize index)
        (bucketEnd words.length bucketSize index) ∅ := rfl

theorem bucketStart_eq (hsize : size < 2 ^ 63) (hb : 0 < bucketSize.toNat) {index : Nat}
    (hindex : index < numOfBuckets size bucketSize) :
    bucketStart bucketSize index = index * bucketSize.toNat := by
  have hstart := (lt_numOfBuckets_iff hb).mp hindex
  exact wrap64_of_lt (by omega)

theorem bucketEnd_eq (hsize : size < 2 ^ 63) (hb : 0 < bucketSize.toNat) {index : Nat}
    (hindex : index < numOfBuckets size bucketSize) :
    bucketEnd size bucketSize index = min ((index + 1) * bucketSize.toNat) size := by
  have hstart := (lt_numOfBuckets_iff hb).mp hindex
  have hsize64 : bucketSize.toNat < 2 ^ 64 := bucketSize.toNat_lt
  have hwrap : index * bucketSize.toNat + bucketSize.toNat < 2 ^ 64 := by
    rcases Nat.eq_zero_or_pos index with rfl | hpos
    · omega
    · have hle := Nat.le_mul_of_pos_left bucketSize.toNat hpos
      omega
  rw [bucketEnd, bucketStart_eq hsize hb hindex, wrap64_of_lt hwrap, Nat.succ_mul]

def bucketSlice (words : List String) (bucketSize : UInt64) (index : Nat) : List String :=
  words.extract (index * bucketSize.toNat) (min ((index + 1) * bucketSize.toNat) words.length)

theorem tallyBucket_counts (words : WordList) (hb : 0 < bucketSize.toNat) {index : Nat}
    (hindex : index < numOfBuckets words.words.length bucketSize) :
    ∃ freqMap, tallyBucket words.words bucketSize index = some freqMap ∧
      Counts freqMap (bucketSlice words.words bucketSize index) := by
  have hstart := (lt_numOfBuckets_iff hb).mp hindex
  have hend : (index + 1) * bucketSize.toNat = index * bucketSize.toNat + bucketSize.toNat :=
    Nat.succ_mul _ _
  rw [tallyBucket_eq, bucketStart_eq words.bounded hb hindex,
    bucketEnd_eq words.bounded hb hindex, bucketSlice]
  have htally := @tallyFrequencies_counts words.words words.bounded (index * bucketSize.toNat)
    (min ((index + 1) * bucketSize.toNat) words.words.length) (by omega) (by omega) ∅ []
    Counts.empty (by simp)
  simpa using htally

end

end UnoApi.WordCloud
