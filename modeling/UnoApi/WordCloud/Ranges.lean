import UnoApi.WordCloud.Buckets

/-!
# Range queries

A query for a range of buckets copies the first map and adds the entries of the
others, in the order in which the unordered maps list them.
-/

namespace UnoApi.WordCloud

open UnoApi.Machine UnoApi.Collections

def addToCombined (combined : FrequencyMap) (entries : List (Σ _ : String, Nat)) :
    FrequencyMap :=
  entries.foldl (fun combined kv => increase combined kv.1 kv.2) combined

/-- The loop over these bucket indices, where each map lists its entries in any order. -/
inductive CombinesFrom (buckets : List FrequencyMap) :
    List Nat → FrequencyMap → FrequencyMap → Prop where
  | nil (combined : FrequencyMap) : CombinesFrom buckets [] combined combined
  | cons {index : Nat} {rest : List Nat} {bucket combined result : FrequencyMap}
      {entries : List (Σ _ : String, Nat)} (hbucket : buckets[index]? = some bucket)
      (hentries : ListsEntries bucket entries)
      (hrest : CombinesFrom buckets rest (addToCombined combined entries) result) :
      CombinesFrom buckets (index :: rest) combined result

/-- `main` can build this map for the bucket range from `first` to `second`. -/
def CombinedRange (words : List String) (bucketSize : UInt64) (first second : Nat)
    (combined : FrequencyMap) : Prop :=
  ∃ all start, buckets words bucketSize = some all ∧ all[first]? = some start ∧
    CombinesFrom all (List.range' (first + 1) (second - first)) start combined

def frequency (words : List String) (word : String) : Option Nat :=
  if words.count word = 0 then none else some (words.count word)

/-! ## Adding one bucket -/

theorem addToCombined_eq {combined : FrequencyMap} {xs : List String} (h : Counts combined xs)
    {entries : List (Σ _ : String, Nat)} (hpos : ∀ e ∈ entries, 0 < e.2)
    (hsmall : xs.length + (occurrencesOf entries).length < 2 ^ 64) :
    addToCombined combined entries = addEntries combined entries := by
  induction entries generalizing combined xs with
  | nil => rfl
  | cons e entries ih =>
      have hlength : (occurrencesOf (e :: entries)).length =
          e.2 + (occurrencesOf entries).length := by simp [occurrencesOf]
      have hnext := ih (h.addCount e.1 (hpos e (by simp)))
        (fun e' he' => hpos e' (by simp [he'])) (by
          rw [List.length_append, List.length_replicate]
          omega)
      rw [addToCombined, List.foldl_cons, increase_eq h e.1 (by omega)]
      exact hnext

theorem counts_addToCombined {combined bucket : FrequencyMap} {xs ys : List String}
    (h : Counts combined xs) (h' : Counts bucket ys) {entries : List (Σ _ : String, Nat)}
    (hentries : ListsEntries bucket entries) (hsmall : (xs ++ ys).length < 2 ^ 64) :
    Counts (addToCombined combined entries) (xs ++ ys) := by
  have hlength : (occurrencesOf entries).length = ys.length :=
    (List.perm_iff_count.mpr fun a => hentries.count_eq h' a).length_eq
  rw [addToCombined_eq h (hentries.pos h') (by rwa [hlength, ← List.length_append])]
  exact h.addListed h' hentries

/-! ## The loop over the range -/

theorem exists_mapM_eq_some {β γ : Type} {f : β → Option γ} {P : β → γ → Prop} {l : List β}
    (h : ∀ x ∈ l, ∃ y, f x = some y ∧ P x y) :
    ∃ ys, l.mapM f = some ys ∧
      ∀ i, (hi : i < l.length) → ∃ y, ys[i]? = some y ∧ P l[i] y := by
  induction l with
  | nil => exact ⟨[], rfl, by simp⟩
  | cons x l ih =>
      obtain ⟨y, hy, hP⟩ := h x (by simp)
      obtain ⟨ys, hys, hall⟩ := ih fun x' hx' => h x' (by simp [hx'])
      refine ⟨y :: ys, by simp [List.mapM_cons, hy, hys], ?_⟩
      intro i hi
      cases i with
      | zero => exact ⟨y, rfl, hP⟩
      | succ i => simpa using hall i (by simpa using hi)

section

variable (words : WordList) {bucketSize : UInt64} (hb : 0 < bucketSize.toNat)

include hb

theorem buckets_counts : ∃ all, buckets words.words bucketSize = some all ∧
    ∀ index < numOfBuckets words.words.length bucketSize, ∃ bucket,
      all[index]? = some bucket ∧ Counts bucket (bucketSlice words.words bucketSize index) := by
  have hbucket : ∀ index ∈ List.range (numOfBuckets words.words.length bucketSize),
      ∃ bucket, tallyBucket words.words bucketSize index = some bucket ∧
        Counts bucket (bucketSlice words.words bucketSize index) := fun index hindex =>
    tallyBucket_counts words hb (List.mem_range.mp hindex)
  obtain ⟨all, hall, hcounts⟩ := exists_mapM_eq_some hbucket
  refine ⟨all, hall, ?_⟩
  intro index hindex
  obtain ⟨bucket, hget, hspec⟩ := hcounts index (by simpa using hindex)
  exact ⟨bucket, hget, by simpa using hspec⟩

theorem counts_nextBucket {first index : Nat} (hfirst : first ≤ index)
    (hindex : index < numOfBuckets words.words.length bucketSize)
    {combined bucket : FrequencyMap} {entries : List (Σ _ : String, Nat)}
    (h : Counts combined (words.words.extract (first * bucketSize.toNat)
      (min (index * bucketSize.toNat) words.words.length)))
    (hslice : Counts bucket (bucketSlice words.words bucketSize index))
    (hentries : ListsEntries bucket entries) :
    Counts (addToCombined combined entries) (words.words.extract (first * bucketSize.toNat)
      (min ((index + 1) * bucketSize.toNat) words.words.length)) := by
  have hstart := (lt_numOfBuckets_iff hb).mp hindex
  have hmul : first * bucketSize.toNat ≤ index * bucketSize.toNat :=
    Nat.mul_le_mul_right _ hfirst
  have hend : (index + 1) * bucketSize.toNat =
      index * bucketSize.toNat + bucketSize.toNat := by ring
  rw [Nat.min_eq_left hstart.le] at h
  -- the slice counted so far and the slice of this bucket join
  have hjoin := @extract_append words.words (first * bucketSize.toNat)
    (index * bucketSize.toNat) (min ((index + 1) * bucketSize.toNat) words.words.length)
    hmul (by omega)
  have hbounded := words.bounded
  rw [← hjoin]
  apply counts_addToCombined h hslice hentries
  unfold bucketSlice
  rw [hjoin, List.extract_eq_take_drop, List.length_take, List.length_drop]
  omega

theorem combinesFrom_counts {all : List FrequencyMap}
    (hall : ∀ index < numOfBuckets words.words.length bucketSize, ∃ bucket,
      all[index]? = some bucket ∧ Counts bucket (bucketSlice words.words bucketSize index))
    {first index count : Nat} (hfirst : first ≤ index)
    (hcount : index + count ≤ numOfBuckets words.words.length bucketSize)
    {combined : FrequencyMap}
    (h : Counts combined (words.words.extract (first * bucketSize.toNat)
      (min (index * bucketSize.toNat) words.words.length))) :
    (∃ result, CombinesFrom all (List.range' index count) combined result) ∧
    ∀ result, CombinesFrom all (List.range' index count) combined result →
      Counts result (words.words.extract (first * bucketSize.toNat)
        (min ((index + count) * bucketSize.toNat) words.words.length)) := by
  induction count generalizing index combined with
  | zero =>
      constructor
      · exact ⟨combined, .nil _⟩
      · intro result hresult
        cases hresult
        simpa using h
  | succ count ih =>
      have hindex : index < numOfBuckets words.words.length bucketSize := by omega
      obtain ⟨bucket, hbucket, hslice⟩ := hall index hindex
      have hsum : index + (count + 1) = index + 1 + count := by omega
      rw [List.range'_succ, hsum]
      constructor
      · obtain ⟨entries, hentries⟩ := exists_listsEntries bucket
        have hnext := counts_nextBucket words hb hfirst hindex h hslice hentries
        obtain ⟨result, hresult⟩ := (ih (by omega) (by omega) hnext).1
        exact ⟨result, .cons hbucket hentries hresult⟩
      · intro result hresult
        cases hresult with | cons hbucket' hentries hrest =>
        rcases Option.some.inj (hbucket.symm.trans hbucket') with rfl
        have hnext := counts_nextBucket words hb hfirst hindex h hslice hentries
        exact (ih (by omega) (by omega) hnext).2 result hrest

/-- The spec of a query: the combined map counts the words of its buckets. -/
theorem combinedRange_counts {first second : Nat} (hle : first ≤ second)
    (hsecond : second < numOfBuckets words.words.length bucketSize) :
    (∃ combined, CombinedRange words.words bucketSize first second combined) ∧
    ∀ combined, CombinedRange words.words bucketSize first second combined →
      Counts combined (words.words.extract (first * bucketSize.toNat)
        (min ((second + 1) * bucketSize.toNat) words.words.length)) := by
  obtain ⟨all, hall, hbuckets⟩ := buckets_counts words hb
  obtain ⟨start, hstart, hcounts⟩ := hbuckets first (by omega)
  have hloop := @combinesFrom_counts words bucketSize hb all hbuckets first (first + 1)
    (second - first) (by omega) (by omega) start hcounts
  have hsum : first + 1 + (second - first) = second + 1 := by omega
  rw [hsum] at hloop
  obtain ⟨⟨result, hresult⟩, hloop⟩ := hloop
  constructor
  · exact ⟨result, all, start, hall, hstart, hresult⟩
  · intro combined hquery
    obtain ⟨all', start', hall', hstart', hcombined⟩ := hquery
    rcases Option.some.inj (hall.symm.trans hall') with rfl
    rcases Option.some.inj (hstart.symm.trans hstart') with rfl
    exact hloop combined hcombined

theorem length_le_numOfBuckets_mul (hsome : 0 < numOfBuckets words.words.length bucketSize) :
    words.words.length ≤
      (numOfBuckets words.words.length bucketSize - 1 + 1) * bucketSize.toNat := by
  by_contra hlt
  have hmore := (lt_numOfBuckets_iff hb).mpr (Nat.lt_of_not_le hlt)
  omega

end

/-- For every range that passes the check, the combined map holds the frequencies of the
words in its buckets, whatever the iteration orders, and the range of all buckets gives
the frequencies of the whole input. -/
theorem combinedRange_lookup (words : WordList) (bucketSize : UInt64)
    (hb : 1 ≤ bucketSize.toNat) (first second : Nat) (hle : first ≤ second)
    (hsecond : second < numOfBuckets words.words.length bucketSize) :
    (∃ combined, CombinedRange words.words bucketSize first second combined) ∧
    (∀ combined, CombinedRange words.words bucketSize first second combined → ∀ word,
      combined.lookup word = frequency (words.words.extract (first * bucketSize.toNat)
        (min ((second + 1) * bucketSize.toNat) words.words.length)) word) ∧
    ∀ combined, CombinedRange words.words bucketSize 0
        (numOfBuckets words.words.length bucketSize - 1) combined →
      ∀ word, combined.lookup word = frequency words.words word := by
  refine ⟨(combinedRange_counts words hb hle hsecond).1, ?_, ?_⟩
  · intro combined hcombined
    exact (combinedRange_counts words hb hle hsecond).2 combined hcombined
  · intro combined hcombined word
    have hlast : numOfBuckets words.words.length bucketSize - 1 <
        numOfBuckets words.words.length bucketSize := by omega
    have hcover := length_le_numOfBuckets_mul words hb (by omega)
    have hcounts :=
      (combinedRange_counts words hb (Nat.zero_le _) hlast).2 combined hcombined word
    rw [Nat.min_eq_right hcover] at hcounts
    simpa [frequency] using hcounts

theorem combinedRange_lookup_last : ∃ combined,
    CombinedRange ["map", "fold", "map", "fold", "map"] 2 1 2 combined ∧
      combined.lookup "map" = some 2 ∧ combined.lookup "reduce" = none := by
  have hrange := combinedRange_lookup ⟨["map", "fold", "map", "fold", "map"], by decide⟩ 2
    (by decide) 1 2 (by decide) ((lt_numOfBuckets_iff (by decide)).mpr (by decide))
  obtain ⟨combined, hcombined⟩ := hrange.1
  have hlookup := hrange.2.1 combined hcombined
  exact ⟨combined, hcombined, (hlookup "map").trans (by decide),
    (hlookup "reduce").trans (by decide)⟩

end UnoApi.WordCloud
