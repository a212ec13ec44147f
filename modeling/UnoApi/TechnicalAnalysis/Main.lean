import UnoApi.WordCloud.Ranges

/-!
# The bucket loop of the technical analysis

This program walks the words in steps of the bucket size and tallies each bucket
with checked accesses.  Its loop passes `i + b` as the right bound, although `b` is
itself a position and not a length.
-/

namespace UnoApi.TechnicalAnalysis

open UnoApi.Machine UnoApi.Collections UnoApi.WordCloud

/-- How the program can fail: `at` throws for an index that is not in the vector.  The
fuel of the loop below never runs out. -/
inductive Failure where
  | outOfRange (index : Nat)
  | outOfFuel
  deriving DecidableEq

def at? (source : List String) (index : Nat) : Except Failure String :=
  match source[index]? with
  | some word => .ok word
  | none => .error (.outOfRange index)

def tallyFrequencies (source : List String) (left right : Nat) (freqMap : FrequencyMap) :
    Except Failure FrequencyMap :=
  (List.range' left (right - left)).foldlM
    (fun freqMap index => do
      let word ← at? source index
      pure (increase freqMap word 1))
    freqMap

/-- A call of `tally_frequencies`: its bounds, which it prints, and its map. -/
structure Tally where
  left : Nat
  right : Nat
  freqTable : FrequencyMap

/-- `for (auto i = 0UL; i < size; i += bucket_size)`, from `i` on. -/
def bucketLoop (all : List String) (bucketSize : UInt64) :
    Nat → Nat → Except Failure (List Tally)
  | 0, i => if i < all.length then .error .outOfFuel else .ok []
  | fuel + 1, i =>
      if i < all.length then do
        let b := min (wrap64 (i + bucketSize.toNat)) all.length
        let right := wrap64 (i + b)
        let freqTable ← tallyFrequencies all i right ∅
        let rest ← bucketLoop all bucketSize fuel (wrap64 (i + bucketSize.toNat))
        pure (⟨i, right, freqTable⟩ :: rest)
      else .ok []

/-- A pass for every word is more than the loop needs. -/
def main (all : List String) (bucketSize : UInt64) : Except Failure (List Tally) :=
  bucketLoop all bucketSize all.length 0

def Tally.covers (t : Tally) (position : Nat) : Prop := t.left ≤ position ∧ position < t.right

/-- What the loop is meant to do: no access fails, the calls tally the consecutive
slices, every position is in one of them, and the maps are those of the word cloud. -/
def TalliesBuckets (all : List String) (bucketSize : UInt64) : Prop :=
  ∃ tallies, main all bucketSize = .ok tallies ∧
    (∀ n, (h : n < tallies.length) → tallies[n].left = n * bucketSize.toNat ∧
      tallies[n].right = min (n * bucketSize.toNat + bucketSize.toNat) all.length) ∧
    (∀ position < all.length,
      ∃! n, ∃ h : n < tallies.length, tallies[n].covers position) ∧
    buckets all bucketSize = some (tallies.map Tally.freqTable)

/-! ## Tallying with checked accesses -/

theorem foldlM_at_cases (source : List String) (indices : List Nat) (freqMap : FrequencyMap) :
    (∃ freqMap', indices.foldlM (fun freqMap index => do
        let word ← at? source index
        pure (increase freqMap word 1)) freqMap = .ok freqMap' ∧
      ∀ index ∈ indices, index < source.length) ∨
    ∃ index, indices.foldlM (fun freqMap index => do
        let word ← at? source index
        pure (increase freqMap word 1)) freqMap = .error (.outOfRange index) := by
  induction indices generalizing freqMap with
  | nil => exact .inl ⟨freqMap, rfl, by simp⟩
  | cons index indices ih =>
      by_cases hindex : index < source.length
      · have hat : at? source index = .ok source[index] := by simp [at?, hindex]
        rw [List.foldlM_cons, hat]
        rcases ih (increase freqMap source[index] 1) with ⟨freqMap', hok, hall⟩ | hthrow
        · left
          refine ⟨freqMap', hok, ?_⟩
          intro k hk
          rcases List.mem_cons.mp hk with rfl | hk
          · exact hindex
          · exact hall k hk
        · exact .inr hthrow
      · have hat : at? source index = .error (.outOfRange index) := by
          simp [at?, List.getElem?_eq_none (Nat.le_of_not_lt hindex)]
        exact .inr ⟨index, by rw [List.foldlM_cons, hat]; rfl⟩

theorem tallyFrequencies_cases (source : List String) {left right : Nat} (h : left < right)
    (freqMap : FrequencyMap) :
    (∃ freqMap', tallyFrequencies source left right freqMap = .ok freqMap' ∧
      right ≤ source.length) ∨
    ∃ index, tallyFrequencies source left right freqMap = .error (.outOfRange index) := by
  rcases foldlM_at_cases source (List.range' left (right - left)) freqMap with
    ⟨freqMap', hok, hall⟩ | hthrow
  · left
    have hlast := hall (right - 1) (List.mem_range'_1.mpr (by omega))
    exact ⟨freqMap', hok, by omega⟩
  · exact .inr hthrow

theorem tallyFrequencies_eq {source : List String} {left right : Nat}
    {freqMap freqMap' : FrequencyMap}
    (h : WordCloud.tallyFrequencies source left right freqMap = some freqMap') :
    tallyFrequencies source left right freqMap = .ok freqMap' := by
  unfold WordCloud.tallyFrequencies at h
  unfold tallyFrequencies
  generalize List.range' left (right - left) = indices at h
  induction indices generalizing freqMap with
  | nil => exact congrArg Except.ok (Option.some.inj h)
  | cons index indices ih =>
      rw [List.foldlM_cons] at h ⊢
      cases hword : source[index]? with
      | none => simp [hword] at h
      | some word =>
          simp only [hword, Option.map_some, Option.bind_eq_bind, Option.bind_some] at h
          simp only [at?, hword]
          exact ih h

/-! ## The loop -/

section

variable (words : WordList) {bucketSize : UInt64}

theorem bucketLoop_of_le (all : List String) (bucketSize : UInt64) (fuel : Nat) {i : Nat}
    (h : all.length ≤ i) : bucketLoop all bucketSize fuel i = .ok [] := by
  cases fuel with
  | zero => simp [bucketLoop, Nat.not_lt.mpr h]
  | succ fuel => simp [bucketLoop, Nat.not_lt.mpr h]

theorem bucketLoop_succ {fuel i : Nat} (hlt : i < words.words.length)
    (hstep : i + bucketSize.toNat < 2 ^ 64) :
    bucketLoop words.words bucketSize (fuel + 1) i = (do
      let freqTable ← tallyFrequencies words.words i
        (i + min (i + bucketSize.toNat) words.words.length) ∅
      let rest ← bucketLoop words.words bucketSize fuel (i + bucketSize.toNat)
      pure (⟨i, i + min (i + bucketSize.toNat) words.words.length, freqTable⟩ :: rest)) := by
  have hbounded := words.bounded
  have hright : i + min (i + bucketSize.toNat) words.words.length < 2 ^ 64 := by omega
  simp only [bucketLoop, if_pos hlt, wrap64_of_lt hstep, wrap64_of_lt hright]

/-- From the second bucket on the loop throws: the right bound of the last bucket lies
past the end, if no bucket before it has failed. -/
theorem bucketLoop_throws (hb : 1 ≤ bucketSize.toNat) {fuel i : Nat}
    (hi : bucketSize.toNat ≤ i) (hlt : i < words.words.length)
    (hfuel : words.words.length - i ≤ fuel) :
    ∃ index, bucketLoop words.words bucketSize fuel i = .error (.outOfRange index) := by
  have hbounded := words.bounded
  induction fuel generalizing i with
  | zero => omega
  | succ fuel ih =>
      rw [bucketLoop_succ words hlt (by omega)]
      have hcases := tallyFrequencies_cases words.words
        (show i < i + min (i + bucketSize.toNat) words.words.length by omega) ∅
      rcases hcases with ⟨freqTable, hok, hle⟩ | ⟨index, hthrow⟩
      · -- the bounds were in the vector, so this was not the last bucket
        obtain ⟨index, hrest⟩ := @ih (i + bucketSize.toNat) (by omega) (by omega) (by omega)
        rw [hok, hrest]
        exact ⟨index, rfl⟩
      · rw [hthrow]
        exact ⟨index, rfl⟩

theorem main_throws (hb : 1 ≤ bucketSize.toNat)
    (hmany : bucketSize.toNat < words.words.length) :
    ∃ index, main words.words bucketSize = .error (.outOfRange index) := by
  have hbounded := words.bounded
  obtain ⟨fuel, hfuel⟩ := Nat.exists_eq_add_one.mpr (show 0 < words.words.length by omega)
  rcases @bucketLoop_throws words bucketSize hb fuel (0 + bucketSize.toNat) (by omega) (by omega)
    (by omega) with ⟨index, hrest⟩
  have hcases := tallyFrequencies_cases words.words
    (show 0 < 0 + min (0 + bucketSize.toNat) words.words.length by omega) ∅
  unfold main
  rw [hfuel, bucketLoop_succ words (by omega) (by omega), hrest]
  rcases hcases with ⟨freqTable, hok, -⟩ | ⟨index', hthrow⟩
  · rw [hok]
    exact ⟨index, rfl⟩
  · rw [hthrow]
    exact ⟨index', rfl⟩

theorem buckets_of_le (hb : 1 ≤ bucketSize.toNat)
    (hfew : words.words.length ≤ bucketSize.toNat) (hpos : 0 < words.words.length) :
    ∃ freqMap, WordCloud.tallyFrequencies words.words 0 words.words.length ∅ = some freqMap ∧
      buckets words.words bucketSize = some [freqMap] := by
  obtain ⟨freqMap, htally, -⟩ := WordCloud.tallyFrequencies_counts words.bounded
    (Nat.zero_le _) (Nat.le_refl words.words.length) Counts.empty (by simp)
  have hone : numOfBuckets words.words.length bucketSize = 1 := by
    have hsome := (@lt_numOfBuckets_iff words.words.length bucketSize hb 0).mpr (by omega)
    have hmore := mt (@lt_numOfBuckets_iff words.words.length bucketSize hb 1).mp (by omega)
    omega
  have hbucket : tallyBucket words.words bucketSize 0 = some freqMap := by
    have hsize := bucketSize.toNat_lt
    unfold tallyBucket
    dsimp only
    rw [Nat.zero_mul, wrap64_of_lt (by omega), Nat.zero_add, wrap64_of_lt hsize,
      Nat.min_eq_right hfew]
    exact htally
  refine ⟨freqMap, htally, ?_⟩
  rw [buckets, hone]
  simp [List.range_succ, hbucket]

theorem main_of_le (hfew : words.words.length ≤ bucketSize.toNat)
    (hpos : 0 < words.words.length) {freqMap : FrequencyMap}
    (htally : WordCloud.tallyFrequencies words.words 0 words.words.length ∅ = some freqMap) :
    main words.words bucketSize = .ok [⟨0, words.words.length, freqMap⟩] := by
  have hsize := bucketSize.toNat_lt
  have hright : 0 + min (0 + bucketSize.toNat) words.words.length = words.words.length := by omega
  obtain ⟨fuel, hfuel⟩ := Nat.exists_eq_add_one.mpr hpos
  have hrest := bucketLoop_of_le words.words bucketSize fuel
    (show words.words.length ≤ 0 + bucketSize.toNat by omega)
  unfold main
  rw [hfuel, bucketLoop_succ words hpos (by omega), hright, tallyFrequencies_eq htally, hrest,
    ← hfuel]
  rfl

end

/-- The loop does what it is meant to do exactly when the words fit in one bucket; with
more words it ends with an exception. -/
theorem talliesBuckets_iff (words : WordList) (bucketSize : UInt64)
    (hb : 1 ≤ bucketSize.toNat) :
    TalliesBuckets words.words bucketSize ↔ words.words.length ≤ bucketSize.toNat := by
  constructor
  · intro htallies
    obtain ⟨tallies, hmain, -⟩ := htallies
    by_contra hmany
    obtain ⟨index, hthrow⟩ := main_throws words hb (Nat.lt_of_not_le hmany)
    rw [hthrow] at hmain
    cases hmain
  · intro hfew
    rcases Nat.eq_zero_or_pos words.words.length with hzero | hpos
    · have hnil : words.words = [] := List.length_eq_zero_iff.mp hzero
      have hnone : numOfBuckets 0 bucketSize = 0 := by simp [numOfBuckets]
      refine ⟨[], ?_, by simp, by simp [hnil], ?_⟩
      · rw [main]
        exact bucketLoop_of_le _ _ _ (by omega)
      · simp [buckets, hnil, hnone]
    · obtain ⟨freqMap, htally, hbuckets⟩ := buckets_of_le words hb hfew hpos
      refine ⟨_, main_of_le words hfew hpos htally, ?_, ?_, hbuckets⟩
      · intro n hn
        have hzero : n = 0 := by simpa using hn
        subst hzero
        simp [Nat.min_eq_right hfew]
      · intro position hposition
        refine ⟨0, ⟨by simp, Nat.zero_le _, hposition⟩, ?_⟩
        intro n hn
        simpa using hn.1

theorem talliesBuckets_one : TalliesBuckets ["map", "fold", "map"] 3 :=
  (talliesBuckets_iff ⟨["map", "fold", "map"], by decide⟩ 3 (by decide)).mpr (by decide)

/-- Two words in buckets of one: the second call reads from 1 up to 2, past the end. -/
theorem not_talliesBuckets_two :
    main ["map", "fold"] 1 = .error (.outOfRange 2) ∧ ¬TalliesBuckets ["map", "fold"] 1 := by
  have hthrow : main ["map", "fold"] 1 = .error (.outOfRange 2) := by rfl
  refine ⟨hthrow, ?_⟩
  intro htallies
  obtain ⟨tallies, hmain, -⟩ := htallies
  rw [hthrow] at hmain
  cases hmain

end UnoApi.TechnicalAnalysis
