import UnoApi.Input.Extraction
import UnoApi.WordCloud.Ranges
import UnoApi.WordCloud.Report
import Mathlib.Data.List.Sort

/-!
# The program

`main` reads the words of the input, drops the short ones, fills the buckets and prints a
line for every bucket, or for every valid range when ranges are asked for.  The unordered
maps list their entries in any order each time they are walked through; `cloudText` says
what is printed whichever they choose.
-/

namespace UnoApi.WordCloud

open UnoApi.Machine UnoApi.Collections UnoApi.Input

structure Options where
  bucketSize : UInt64
  topNWords : UInt64
  minWordLength : UInt64
  runSequentially : Bool
  bucketRanges : List (UInt64 × UInt64)
  bucketSize_pos : 1 ≤ bucketSize.toNat
  topNWords_pos : 1 ≤ topNWords.toNat
  minWordLength_pos : 1 ≤ minWordLength.toNat

/-- The words of the input without the short ones; a length counts bytes. -/
def readWords (minWordLength : UInt64) (input : List Char) : List String :=
  ((tokens input).map String.ofList).filter fun word =>
    ¬ word.utf8ByteSize < minWordLength.toNat

def ValidRange (size : Nat) (bucketSize : UInt64) (r : UInt64 × UInt64) : Prop :=
  r.1 ≤ r.2 ∧ r.2.toNat < numOfBuckets size bucketSize

def bucketLabel (index : Nat) : String := "bucket " ++ toString index ++ ": "

def rangeLabel (r : UInt64 × UInt64) : String :=
  "bucket range " ++ toString r.1.toNat ++ "-" ++ toString r.2.toNat ++ ": "

def PrintsFrequencies (freqMap : FrequencyMap) (howMany : UInt64) (line : String) : Prop :=
  ∃ listed, ListsEntries freqMap listed ∧ line = printFrequencies listed howMany

inductive PrintsBuckets (howMany : UInt64) : Nat → List FrequencyMap → String → Prop where
  | nil (index : Nat) : PrintsBuckets howMany index [] ""
  | cons {index : Nat} {bucket : FrequencyMap} {rest : List FrequencyMap} {line output : String}
      (hline : PrintsFrequencies bucket howMany line)
      (hrest : PrintsBuckets howMany (index + 1) rest output) :
      PrintsBuckets howMany index (bucket :: rest) (bucketLabel index ++ line ++ output)

inductive PrintsRanges (words : List String) (bucketSize howMany : UInt64) :
    List (UInt64 × UInt64) → String → Prop where
  | nil : PrintsRanges words bucketSize howMany [] ""
  | valid {r : UInt64 × UInt64} {rest : List (UInt64 × UInt64)} {combined : FrequencyMap}
      {line output : String} (hvalid : ValidRange words.length bucketSize r)
      (hcombined : CombinedRange words bucketSize r.1.toNat r.2.toNat combined)
      (hline : PrintsFrequencies combined howMany line)
      (hrest : PrintsRanges words bucketSize howMany rest output) :
      PrintsRanges words bucketSize howMany (r :: rest) (rangeLabel r ++ line ++ output)
  | invalid {r : UInt64 × UInt64} {rest : List (UInt64 × UInt64)} {output : String}
      (hinvalid : ¬ ValidRange words.length bucketSize r)
      (hrest : PrintsRanges words bucketSize howMany rest output) :
      PrintsRanges words bucketSize howMany (r :: rest) output

inductive Main (o : Options) (input : List Char) : String → Prop where
  | buckets {all : List FrequencyMap} {output : String} (hmode : o.runSequentially = true)
      (hranges : o.bucketRanges = [])
      (hall : buckets (readWords o.minWordLength input) o.bucketSize = some all)
      (hprints : PrintsBuckets o.topNWords 0 all output) : Main o input output
  | ranges {all : List FrequencyMap} {output : String} (hmode : o.runSequentially = true)
      (hranges : o.bucketRanges ≠ [])
      (hall : buckets (readWords o.minWordLength input) o.bucketSize = some all)
      (hprints : PrintsRanges (readWords o.minWordLength input) o.bucketSize o.topNWords
        o.bucketRanges output) : Main o input output
  -- the queue and the buffer that are made without an accelerator are not used
  | accelerator (hmode : o.runSequentially = false) : Main o input ""

/-! ## What should be printed -/

def MayPrecede (e e' : Entry) : Prop := ¬ descendingByValue e' e

instance : DecidableRel MayPrecede := fun e e' =>
  inferInstanceAs (Decidable (¬ descendingByValue e' e))

theorem mayPrecede_iff {e e' : Entry} : MayPrecede e e' ↔ rank e' ≤ rank e := by
  rw [MayPrecede, descendingByValue_iff, not_lt]

instance : Std.Total MayPrecede where
  total e e' := by
    rw [mayPrecede_iff, mayPrecede_iff]
    exact le_total _ _

instance : IsTrans Entry MayPrecede where
  trans e e' e'' h h' := by
    rw [mayPrecede_iff] at h h' ⊢
    exact h'.trans h

/-- The distinct words with their frequencies, the most frequent first and words of the
same frequency in alphabetical order. -/
def byFrequency (occurrences : List String) : List Entry :=
  (occurrences.dedup.map fun word => ⟨word, occurrences.count word⟩).insertionSort MayPrecede

def topLine (occurrences : List String) (howMany : UInt64) : String :=
  reportText ((byFrequency occurrences).take howMany.toNat)

def rangeSlice (words : List String) (bucketSize : UInt64) (r : UInt64 × UInt64) : List String :=
  words.extract (r.1.toNat * bucketSize.toNat)
    (min ((r.2.toNat + 1) * bucketSize.toNat) words.length)

instance (size : Nat) (bucketSize : UInt64) (r : UInt64 × UInt64) :
    Decidable (ValidRange size bucketSize r) := inferInstanceAs (Decidable (_ ∧ _))

def bucketLine (words : List String) (bucketSize howMany : UInt64) (index : Nat) : String :=
  bucketLabel index ++ topLine (bucketSlice words bucketSize index) howMany

def rangeLine (words : List String) (bucketSize howMany : UInt64) (r : UInt64 × UInt64) :
    String :=
  rangeLabel r ++ topLine (rangeSlice words bucketSize r) howMany

def cloudText (o : Options) (words : List String) : String :=
  if ¬ o.runSequentially then ""
  else if o.bucketRanges = [] then
    String.join ((List.range (numOfBuckets words.length o.bucketSize)).map
      (bucketLine words o.bucketSize o.topNWords))
  else
    String.join ((o.bucketRanges.filter (ValidRange words.length o.bucketSize)).map
      (rangeLine words o.bucketSize o.topNWords))

theorem byFrequency_perm (occurrences : List String) :
    (byFrequency occurrences).Perm
      (occurrences.dedup.map fun word => ⟨word, occurrences.count word⟩) :=
  List.perm_insertionSort _ _

theorem mem_byFrequency {occurrences : List String} {e : Entry} :
    e ∈ byFrequency occurrences ↔ e.1 ∈ occurrences ∧ e.2 = occurrences.count e.1 := by
  rw [(byFrequency_perm occurrences).mem_iff, List.mem_map]
  constructor
  · rintro ⟨word, hword, rfl⟩
    exact ⟨List.mem_dedup.mp hword, rfl⟩
  · rintro ⟨hword, hcount⟩
    exact ⟨e.1, List.mem_dedup.mpr hword, Sigma.ext rfl (heq_of_eq hcount.symm)⟩

theorem byFrequency_nodup (occurrences : List String) : (byFrequency occurrences).Nodup := by
  rw [(byFrequency_perm occurrences).nodup_iff]
  apply occurrences.nodup_dedup.map
  intro word word' h
  exact congrArg Sigma.fst h

theorem byFrequency_sorted (occurrences : List String) :
    (byFrequency occurrences).Pairwise descendingByValue := by
  have hsorted : (byFrequency occurrences).Pairwise MayPrecede :=
    List.pairwise_insertionSort MayPrecede _
  apply (hsorted.and (byFrequency_nodup occurrences)).imp
  rintro e e' ⟨hprecede, hne⟩
  exact descendingByValue_iff.mpr
    (lt_of_le_of_ne (mayPrecede_iff.mp hprecede) fun heq => hne (rank_injective heq).symm)

theorem byFrequency_eq_of_perm {occurrences occurrences' : List String}
    (h : occurrences.Perm occurrences') : byFrequency occurrences = byFrequency occurrences' := by
  apply OrderedSet.elements_eq_of_mem_iff ⟨_, byFrequency_sorted occurrences⟩
    ⟨_, byFrequency_sorted occurrences'⟩
  intro e
  rw [mem_byFrequency, mem_byFrequency, h.mem_iff, h.count_eq]

theorem freqSet_eq_byFrequency {freqMap : FrequencyMap} {occurrences : List String}
    (h : Counts freqMap occurrences) {listed : List Entry} (hlisted : ListsEntries freqMap listed) :
    (freqSet listed).elements = byFrequency occurrences := by
  apply OrderedSet.elements_eq_of_mem_iff (freqSet listed) ⟨_, byFrequency_sorted occurrences⟩
  intro e
  rw [mem_freqSet hlisted, h e.1, mem_byFrequency]
  by_cases hcount : occurrences.count e.1 = 0
  · have hnot : e.1 ∉ occurrences := List.count_eq_zero.mp hcount
    simp [hcount, hnot]
  · have hmem : e.1 ∈ occurrences := List.count_pos_iff.mp (Nat.pos_of_ne_zero hcount)
    simp [hcount, hmem, eq_comm]

theorem printsFrequencies_iff {freqMap : FrequencyMap} {occurrences : List String}
    (h : Counts freqMap occurrences) {howMany : UInt64} (hmany : 1 ≤ howMany.toNat)
    {line : String} :
    PrintsFrequencies freqMap howMany line ↔ line = topLine occurrences howMany := by
  have hline : ∀ {listed}, ListsEntries freqMap listed →
      printFrequencies listed howMany = topLine occurrences howMany := by
    intro listed hlisted
    rw [printFrequencies, printedEntries_eq_take hmany, freqSet_eq_byFrequency h hlisted, topLine]
  constructor
  · rintro ⟨listed, hlisted, rfl⟩
    exact hline hlisted
  · rintro rfl
    obtain ⟨listed, hlisted⟩ := exists_listsEntries freqMap
    exact ⟨listed, hlisted, (hline hlisted).symm⟩

/-! ## The loops -/

theorem printsBuckets_iff {howMany : UInt64} (hmany : 1 ≤ howMany.toNat)
    {slice : Nat → List String} {index : Nat} {all : List FrequencyMap}
    (hall : ∀ k bucket, all[k]? = some bucket → Counts bucket (slice (index + k)))
    {output : String} :
    PrintsBuckets howMany index all output ↔
      output = String.join ((List.range' index all.length).map fun index =>
        bucketLabel index ++ topLine (slice index) howMany) := by
  induction all generalizing index output with
  | nil =>
      constructor
      · rintro ⟨⟩
        rfl
      · rintro rfl
        exact .nil index
  | cons bucket rest ih =>
      have hfirst : Counts bucket (slice index) := hall 0 bucket rfl
      have hrest : ∀ k bucket', rest[k]? = some bucket' →
          Counts bucket' (slice (index + 1 + k)) := by
        intro k bucket' hget
        have hnext := hall (k + 1) bucket' hget
        rwa [Nat.add_right_comm index 1 k]
      rw [List.length_cons, List.range'_succ, List.map_cons, String.join_cons]
      constructor
      · rintro ⟨⟩
        rename_i line output hline hprints
        rw [(printsFrequencies_iff hfirst hmany).mp hline, (ih hrest).mp hprints]
      · rintro rfl
        exact .cons ((printsFrequencies_iff hfirst hmany).mpr rfl) ((ih hrest).mpr rfl)

section

variable (words : WordList) {bucketSize howMany : UInt64} (hb : 0 < bucketSize.toNat)
  (hmany : 1 ≤ howMany.toNat)

include hb hmany

theorem printsRanges_iff (rs : List (UInt64 × UInt64)) {output : String} :
    PrintsRanges words.words bucketSize howMany rs output ↔
      output = String.join ((rs.filter (ValidRange words.words.length bucketSize)).map
        (rangeLine words.words bucketSize howMany)) := by
  induction rs generalizing output with
  | nil =>
      constructor
      · rintro ⟨⟩
        rfl
      · rintro rfl
        exact .nil
  | cons r rest ih =>
      by_cases hvalid : ValidRange words.words.length bucketSize r
      · obtain ⟨⟨combined, hcombined⟩, hcounts⟩ :=
          combinedRange_counts words hb (UInt64.le_iff_toNat_le.mp hvalid.1) hvalid.2
        rw [List.filter_cons_of_pos (by simpa using hvalid), List.map_cons, String.join_cons]
        constructor
        · intro hprints
          cases hprints with
          | valid _ hcombined' hline hrest =>
              rw [(printsFrequencies_iff (hcounts _ hcombined') hmany).mp hline, ih.mp hrest]
              rfl
          | invalid hinvalid => exact absurd hvalid hinvalid
        · rintro rfl
          exact .valid hvalid hcombined
            ((printsFrequencies_iff (hcounts combined hcombined) hmany).mpr rfl) (ih.mpr rfl)
      · rw [List.filter_cons_of_neg (by simpa using hvalid), ← ih]
        constructor
        · intro hprints
          cases hprints with
          | valid hvalid' => exact absurd hvalid' hvalid
          | invalid _ hrest => exact hrest
        · exact .invalid hvalid

end

/-! ## The program -/

theorem length_of_mapM_eq_some {β γ : Type} {f : β → Option γ} {l : List β} {ys : List γ}
    (h : l.mapM f = some ys) : ys.length = l.length := by
  induction l generalizing ys with
  | nil =>
      cases h
      rfl
  | cons x l ih =>
      rw [List.mapM_cons] at h
      obtain ⟨y, -, h⟩ := Option.bind_eq_some_iff.mp h
      obtain ⟨rest, hrest, h⟩ := Option.bind_eq_some_iff.mp h
      cases h
      rw [List.length_cons, List.length_cons, ih hrest]

theorem printsBuckets_all (words : WordList) {b howMany : UInt64} (hb : 1 ≤ b.toNat)
    (hmany : 1 ≤ howMany.toNat) {all : List FrequencyMap}
    (hall : buckets words.words b = some all) (output : String) :
    PrintsBuckets howMany 0 all output ↔
      output = String.join ((List.range (numOfBuckets words.words.length b)).map
        (bucketLine words.words b howMany)) := by
  obtain ⟨all', hall', hcounts⟩ := buckets_counts words hb
  obtain rfl := Option.some.inj (hall'.symm.trans hall)
  have hlength : all'.length = numOfBuckets words.words.length b := by
    rw [length_of_mapM_eq_some hall, List.length_range]
  have hslices : ∀ k bucket, all'[k]? = some bucket →
      Counts bucket (bucketSlice words.words b (0 + k)) := by
    intro k bucket hget
    have hk : k < all'.length := (List.getElem?_eq_some_iff.mp hget).1
    obtain ⟨bucket', hget', hbucket⟩ := hcounts k (hlength ▸ hk)
    rw [Nat.zero_add, Option.some.inj (hget.symm.trans hget')]
    exact hbucket
  rw [printsBuckets_iff hmany hslices, hlength, List.range_eq_range']
  rfl

section

variable {o : Options} {input : List Char}

theorem Main.eq_cloudText (hsize : (readWords o.minWordLength input).length < 2 ^ 53)
    {output : String} (hmain : Main o input output) :
    output = cloudText o (readWords o.minWordLength input) := by
  let words : WordList := ⟨readWords o.minWordLength input, by omega⟩
  cases hmain with
  | buckets hmode hranges hall hprints =>
      rw [cloudText, if_neg (not_not.mpr hmode), if_pos hranges]
      exact (printsBuckets_all words o.bucketSize_pos o.topNWords_pos hall output).mp hprints
  | ranges hmode hranges _ hprints =>
      rw [cloudText, if_neg (not_not.mpr hmode), if_neg hranges]
      exact (printsRanges_iff words o.bucketSize_pos o.topNWords_pos _).mp hprints
  | accelerator hmode => rw [cloudText, if_pos (by simp [hmode])]

theorem main_cloudText (hsize : (readWords o.minWordLength input).length < 2 ^ 53) :
    Main o input (cloudText o (readWords o.minWordLength input)) := by
  let words : WordList := ⟨readWords o.minWordLength input, by omega⟩
  obtain ⟨all, hall, -⟩ := buckets_counts words o.bucketSize_pos
  by_cases hmode : o.runSequentially = true
  · by_cases hranges : o.bucketRanges = []
    · rw [cloudText, if_neg (not_not.mpr hmode), if_pos hranges]
      exact .buckets hmode hranges hall
        ((printsBuckets_all words o.bucketSize_pos o.topNWords_pos hall _).mpr rfl)
    · rw [cloudText, if_neg (not_not.mpr hmode), if_neg hranges]
      exact .ranges hmode hranges hall
        ((printsRanges_iff words o.bucketSize_pos o.topNWords_pos _).mpr rfl)
  · rw [cloudText, if_pos hmode]
    exact .accelerator (eq_false_of_ne_true hmode)

end

/-- In every order in which the maps list their entries the program prints the words of
each slice that occur most often, with their frequencies. -/
theorem main_prints (o : Options) (input : List Char)
    (hsize : (readWords o.minWordLength input).length < 2 ^ 53) (output : String) :
    Main o input output ↔ output = cloudText o (readWords o.minWordLength input) := by
  constructor
  · exact fun hmain => hmain.eq_cloudText hsize
  · rintro rfl
    exact main_cloudText hsize

/-- Words of less than six bytes are left out, and so is the second range. -/
theorem main_prints_kernels :
    Main ⟨2, 1, 6, true, [(1, 2), (2, 1)], by decide, by decide, by decide⟩
      "queue kernels buffers kernels\nkernels  buffers".toList
      "bucket range 1-2: kernels: 2 \n" := by
  let o : Options := ⟨2, 1, 6, true, [(1, 2), (2, 1)], by decide, by decide, by decide⟩
  have hwords : readWords 6 "queue kernels buffers kernels\nkernels  buffers".toList =
      ["kernels", "buffers", "kernels", "kernels", "buffers"] := by decide
  have hvalid : ValidRange 5 2 (1, 2) :=
    ⟨by decide, (lt_numOfBuckets_iff (by decide)).mpr (by decide)⟩
  have hinvalid : ¬ ValidRange 5 2 (2, 1) := fun h => absurd h.1 (by decide)
  apply (main_prints o _ (by decide) _).mpr
  have hranges : o.bucketRanges.filter (ValidRange 5 2) = [(1, 2)] := by
    simp [o, hvalid, hinvalid]
  have htext : rangeLine ["kernels", "buffers", "kernels", "kernels", "buffers"] 2 1 (1, 2) =
      "bucket range 1-2: kernels: 2 \n" := by decide
  have hprinted : cloudText o ["kernels", "buffers", "kernels", "kernels", "buffers"] =
      "bucket range 1-2: kernels: 2 \n" := by
    rw [cloudText, if_neg (by decide), if_neg (by decide)]
    change String.join ((o.bucketRanges.filter (ValidRange 5 2)).map _) = _
    rw [hranges, List.map_singleton, htext]
    rfl
  exact (hwords ▸ hprinted).symm

/-! ## Inputs whose buckets hold the same words -/

theorem rangeSlice_eq_flatMap (words : List String) (b first count : Nat) :
    words.extract (first * b) (min ((first + count) * b) words.length) =
      (List.range' first count).flatMap fun index =>
        words.extract (index * b) (min ((index + 1) * b) words.length) := by
  induction count with
  | zero =>
      rw [Nat.add_zero, List.extract_eq_take_drop, Nat.sub_eq_zero_of_le (Nat.min_le_left _ _)]
      rfl
  | succ count ih =>
      have hmul : first * b ≤ (first + count) * b := Nat.mul_le_mul_right b (Nat.le_add_right _ _)
      have hnext : (first + count) * b ≤ (first + count + 1) * b :=
        Nat.mul_le_mul_right b (Nat.le_succ _)
      rw [List.range'_concat, List.flatMap_append, ← ih, Nat.one_mul, List.flatMap_singleton,
        ← Nat.add_assoc]
      rcases Nat.le_total ((first + count) * b) words.length with hle | hle
      · rw [Nat.min_eq_left hle, extract_append hmul (Nat.le_min.mpr ⟨hnext, hle⟩)]
      · -- the words have ended before this bucket
        have hnone : words.extract ((first + count) * b)
            (min ((first + count + 1) * b) words.length) = [] := by
          rw [List.extract_eq_take_drop, List.drop_eq_nil_of_le hle, List.take_nil]
        rw [hnone, List.append_nil, Nat.min_eq_right hle, Nat.min_eq_right (hle.trans hnext)]

theorem topLine_eq_of_perm {occurrences occurrences' : List String}
    (h : occurrences.Perm occurrences') (howMany : UInt64) :
    topLine occurrences howMany = topLine occurrences' howMany := by
  rw [topLine, topLine, byFrequency_eq_of_perm h]

theorem cloudText_eq_of_perm (o : Options) {words words' : List String}
    (hlength : words.length = words'.length)
    (hslices : ∀ index, (bucketSlice words o.bucketSize index).Perm
      (bucketSlice words' o.bucketSize index)) :
    cloudText o words = cloudText o words' := by
  have hbuckets : ∀ index, bucketLine words o.bucketSize o.topNWords index =
      bucketLine words' o.bucketSize o.topNWords index := fun index =>
    congrArg (bucketLabel index ++ ·) (topLine_eq_of_perm (hslices index) _)
  have hranges : ∀ r ∈ o.bucketRanges.filter (ValidRange words'.length o.bucketSize),
      rangeLine words o.bucketSize o.topNWords r =
        rangeLine words' o.bucketSize o.topNWords r := by
    intro r hr
    have hle := UInt64.le_iff_toNat_le.mp (of_decide_eq_true (List.mem_filter.mp hr).2).1
    have hperm : (rangeSlice words o.bucketSize r).Perm (rangeSlice words' o.bucketSize r) := by
      obtain ⟨count, hcount⟩ := Nat.exists_eq_add_of_le hle
      rw [rangeSlice, rangeSlice, hcount, Nat.add_assoc, rangeSlice_eq_flatMap,
        rangeSlice_eq_flatMap]
      exact List.Perm.flatMap_left _ fun index _ => hslices index
    exact congrArg (rangeLabel r ++ ·) (topLine_eq_of_perm hperm _)
  unfold cloudText
  rw [hlength, List.map_congr_left fun index _ => hbuckets index, List.map_congr_left hranges]

/-- Moving words within their buckets changes nothing that is printed. -/
theorem main_reordered (o : Options) {input input' : List Char}
    (hsize : (readWords o.minWordLength input).length < 2 ^ 53)
    (hlength : (readWords o.minWordLength input).length =
      (readWords o.minWordLength input').length)
    (hslices : ∀ index,
      (bucketSlice (readWords o.minWordLength input) o.bucketSize index).Perm
        (bucketSlice (readWords o.minWordLength input') o.bucketSize index)) (output : String) :
    Main o input output ↔ Main o input' output := by
  have hsize' : (readWords o.minWordLength input').length < 2 ^ 53 := hlength ▸ hsize
  have htext := cloudText_eq_of_perm o hlength hslices
  constructor
  · intro hmain
    rw [hmain.eq_cloudText hsize, htext]
    exact main_cloudText hsize'
  · intro hmain
    rw [hmain.eq_cloudText hsize', ← htext]
    exact main_cloudText hsize

theorem main_reordered_swapped :
    Main ⟨2, 1, 6, true, [], by decide, by decide, by decide⟩ "kernels buffers kernels".toList
        "bucket 0: buffers: 1 \nbucket 1: kernels: 1 \n" ↔
      Main ⟨2, 1, 6, true, [], by decide, by decide, by decide⟩ "buffers kernels kernels".toList
        "bucket 0: buffers: 1 \nbucket 1: kernels: 1 \n" := by
  have hwords : readWords 6 "kernels buffers kernels".toList =
      ["kernels", "buffers", "kernels"] := by decide
  have hwords' : readWords 6 "buffers kernels kernels".toList =
      ["buffers", "kernels", "kernels"] := by decide
  apply main_reordered ⟨2, 1, 6, true, [], by decide, by decide, by decide⟩ (by decide) (by decide)
  intro index
  dsimp only
  rw [hwords, hwords']
  match index with
  | 0 => decide
  | 1 => decide
  | index + 2 =>
      have hnone : ∀ words : List String, words.length = 3 →
          bucketSlice words 2 (index + 2) = [] := by
        intro words hlength
        have hstart : words.length ≤ (index + 2) * (2 : UInt64).toNat := by
          have htwo : (2 : UInt64).toNat = 2 := rfl
          rw [hlength, htwo]
          omega
        rw [bucketSlice, List.extract_eq_take_drop, List.drop_eq_nil_of_le hstart, List.take_nil]
      rw [hnone _ rfl, hnone _ rfl]

end UnoApi.WordCloud
