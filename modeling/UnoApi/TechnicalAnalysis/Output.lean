import UnoApi.Input.Extraction
import UnoApi.TechnicalAnalysis.Main

/-!
# What the technical analysis hands to `stdout`

Each pass prints its bounds before it tallies.  With more words than fit in one bucket
some pass is the first whose right bound lies past the end; the program prints the bounds
up to there and then aborts over an access right behind the last word.  The abort does
not flush `stdout`: unless that is a terminal, none of the text may be seen.
-/

namespace UnoApi.TechnicalAnalysis

open UnoApi.Machine UnoApi.Collections UnoApi.WordCloud UnoApi.Input

/-- The text that has been handed to `stdout`, seen or not, and the exception if one was
thrown. -/
structure Printed where
  text : String
  failure : Option Failure
  deriving DecidableEq

/-- The lines of `main` and of `tally_frequencies`. -/
def passText (left b right : Nat) : String :=
  toString left ++ ".." ++ toString b ++ "\n" ++
    ("l = " ++ toString left ++ " r = " ++ toString right ++ "\n")

def printLoop (all : List String) (bucketSize : UInt64) : Nat → Nat → Printed
  | 0, i => ⟨"", if i < all.length then some .outOfFuel else none⟩
  | fuel + 1, i =>
      if i < all.length then
        let b := min (wrap64 (i + bucketSize.toNat)) all.length
        let right := wrap64 (i + b)
        match tallyFrequencies all i right ∅ with
        | .error failure => ⟨passText i b right, some failure⟩
        | .ok _ =>
            let rest := printLoop all bucketSize fuel (wrap64 (i + bucketSize.toNat))
            ⟨passText i b right ++ rest.text, rest.failure⟩
      else ⟨"", none⟩

def listing (all : List String) : String :=
  "read " ++ toString all.length ++ " words\n" ++
    String.join (all.map fun word => word ++ ": " ++ toString word.utf8ByteSize ++ " ")

def readAll (input : List Char) : List String := (tokens input).map String.ofList

def run (input : List Char) (bucketSize : UInt64) : Printed :=
  let all := readAll input
  let loop := printLoop all bucketSize all.length 0
  if loop.failure = none then ⟨loop.text ++ listing all, none⟩ else loop

/-- The loop that prints throws what the loop that tallies throws. -/
theorem printLoop_failure (all : List String) (bucketSize : UInt64) (fuel i : Nat) :
    (∃ tallies, bucketLoop all bucketSize fuel i = .ok tallies ∧
      (printLoop all bucketSize fuel i).failure = none) ∨
    ∃ failure, bucketLoop all bucketSize fuel i = .error failure ∧
      (printLoop all bucketSize fuel i).failure = some failure := by
  induction fuel generalizing i with
  | zero =>
      unfold bucketLoop printLoop
      by_cases hlt : i < all.length
      · exact .inr ⟨.outOfFuel, by simp [hlt]⟩
      · exact .inl ⟨[], by simp [hlt]⟩
  | succ fuel ih =>
      unfold bucketLoop printLoop
      by_cases hlt : i < all.length
      · simp only [if_pos hlt]
        cases htally : tallyFrequencies all i
            (wrap64 (i + min (wrap64 (i + bucketSize.toNat)) all.length)) ∅ with
        | error failure => exact .inr ⟨failure, rfl, rfl⟩
        | ok freqTable =>
            rcases ih (wrap64 (i + bucketSize.toNat)) with ⟨tallies, hok, hnone⟩ |
              ⟨failure, herror, hsome⟩
            · left
              rw [hok]
              exact ⟨_, rfl, hnone⟩
            · right
              rw [herror]
              exact ⟨failure, rfl, hsome⟩
      · exact .inl ⟨[], by simp [hlt]⟩

/-! ## One pass -/

/-- The access that fails is the one right behind the last word. -/
theorem tallyFrequencies_past {source : List String} {left right : Nat}
    (hleft : left ≤ source.length) (hright : source.length < right) (freqMap : FrequencyMap) :
    tallyFrequencies source left right freqMap = .error (.outOfRange source.length) := by
  obtain ⟨count, hcount⟩ := Nat.exists_eq_add_of_le hleft
  induction count generalizing left freqMap with
  | zero =>
      obtain ⟨more, hmore⟩ : ∃ more, right - left = more + 1 :=
        Nat.exists_eq_add_one.mpr (by omega)
      have hat : at? source left = .error (.outOfRange source.length) := by
        simp [at?, hcount]
      rw [tallyFrequencies, hmore, List.range'_succ, List.foldlM_cons, hat]
      rfl
  | succ count ih =>
      obtain ⟨more, hmore⟩ : ∃ more, right - left = more + 1 :=
        Nat.exists_eq_add_one.mpr (by omega)
      have hlt : left < source.length := by omega
      have hat : at? source left = .ok source[left] := by simp [at?, hlt]
      have hrest := @ih (left + 1) (by omega) (increase freqMap source[left] 1) (by omega)
      rw [tallyFrequencies, show right - (left + 1) = more by omega] at hrest
      rw [tallyFrequencies, hmore, List.range'_succ, List.foldlM_cons, hat]
      exact hrest

section

variable (words : WordList) {bucketSize : UInt64}

theorem tallyFrequencies_inside {left right : Nat} (hle : left ≤ right)
    (hright : right ≤ words.words.length) :
    ∃ freqTable, tallyFrequencies words.words left right ∅ = .ok freqTable := by
  obtain ⟨freqTable, htally, -⟩ := WordCloud.tallyFrequencies_counts words.bounded hle hright
    Counts.empty (by simp)
  exact ⟨freqTable, tallyFrequencies_eq htally⟩

theorem printLoop_inside {fuel i right : Nat} (hlt : i < words.words.length)
    (hstep : i + bucketSize.toNat < 2 ^ 64)
    (hright : i + min (i + bucketSize.toNat) words.words.length = right)
    (hinside : right ≤ words.words.length) :
    printLoop words.words bucketSize (fuel + 1) i =
      let rest := printLoop words.words bucketSize fuel (i + bucketSize.toNat)
      ⟨passText i (min (i + bucketSize.toNat) words.words.length) right ++ rest.text,
        rest.failure⟩ := by
  have hbounded := words.bounded
  obtain ⟨freqTable, htally⟩ := tallyFrequencies_inside words (show i ≤ right by omega) hinside
  rw [printLoop, if_pos hlt, wrap64_of_lt hstep]
  dsimp only
  rw [hright, wrap64_of_lt (by omega), htally]

theorem printLoop_past {fuel i right : Nat} (hlt : i < words.words.length)
    (hstep : i + bucketSize.toNat < 2 ^ 64)
    (hright : i + min (i + bucketSize.toNat) words.words.length = right)
    (hpast : words.words.length < right) :
    printLoop words.words bucketSize (fuel + 1) i =
      ⟨passText i (min (i + bucketSize.toNat) words.words.length) right,
        some (.outOfRange words.words.length)⟩ := by
  have hbounded := words.bounded
  rw [printLoop, if_pos hlt, wrap64_of_lt hstep]
  dsimp only
  rw [hright, wrap64_of_lt (by omega), tallyFrequencies_past hlt.le hpast]

/-! ## The loop -/

def passLines (size : Nat) (bucketSize : UInt64) (k : Nat) : String :=
  passText (k * bucketSize.toNat) (min ((k + 1) * bucketSize.toNat) size)
    (k * bucketSize.toNat + min ((k + 1) * bucketSize.toNat) size)

/-- The first pass whose two ends add up to a position past the words. -/
def lastPass (size : Nat) (bucketSize : UInt64) : Nat := (size / bucketSize.toNat + 1) / 2

theorem lastPass_inside {size k : Nat} (hk : k < lastPass size bucketSize) :
    k * bucketSize.toNat + (k + 1) * bucketSize.toNat ≤ size := by
  unfold lastPass at hk
  have hless : k + (k + 1) ≤ size / bucketSize.toNat := by omega
  rw [← Nat.add_mul]
  exact (Nat.mul_le_mul_right _ hless).trans (Nat.div_mul_le_self _ _)

theorem lastPass_pos (hb : 1 ≤ bucketSize.toNat) {size : Nat} (hmany : bucketSize.toNat < size) :
    1 ≤ lastPass size bucketSize := by
  have hpos : 1 ≤ size / bucketSize.toNat := (Nat.one_le_div_iff hb).mpr hmany.le
  unfold lastPass
  omega

theorem lastPass_lt (hb : 1 ≤ bucketSize.toNat) {size : Nat} (hmany : bucketSize.toNat < size) :
    lastPass size bucketSize * bucketSize.toNat < size := by
  have hpos := lastPass_pos hb hmany
  unfold lastPass at hpos ⊢
  rcases Nat.eq_or_lt_of_le hpos with hone | hmore
  · rw [← hone, Nat.one_mul]
    exact hmany
  · have hless : (size / bucketSize.toNat + 1) / 2 + 1 ≤ size / bucketSize.toNat := by omega
    have hmul := Nat.mul_le_mul_right bucketSize.toNat hless
    rw [Nat.succ_mul] at hmul
    have hquotient := Nat.div_mul_le_self size bucketSize.toNat
    omega

theorem lastPass_past (hb : 1 ≤ bucketSize.toNat) {size : Nat} (hmany : bucketSize.toNat < size) :
    size < lastPass size bucketSize * bucketSize.toNat +
      min ((lastPass size bucketSize + 1) * bucketSize.toNat) size := by
  have hfirst := Nat.mul_le_mul_right bucketSize.toNat (lastPass_pos hb hmany)
  have hless : size / bucketSize.toNat + 1 ≤
      lastPass size bucketSize + (lastPass size bucketSize + 1) := by
    unfold lastPass
    omega
  have hnext := (Nat.lt_mul_of_div_lt (Nat.lt_succ_self _) hb).trans_le
    (Nat.mul_le_mul_right bucketSize.toNat hless)
  rw [Nat.add_mul] at hnext
  omega

theorem printLoop_from (hb : 1 ≤ bucketSize.toNat) (hmany : bucketSize.toNat < words.words.length)
    {k more fuel : Nat} (hk : k + more = lastPass words.words.length bucketSize)
    (hfuel : more < fuel) :
    printLoop words.words bucketSize fuel (k * bucketSize.toNat) =
      ⟨String.join ((List.range' k (more + 1)).map (passLines words.words.length bucketSize)),
        some (.outOfRange words.words.length)⟩ := by
  have hbounded := words.bounded
  have hsucc (k : Nat) : (k + 1) * bucketSize.toNat =
      k * bucketSize.toNat + bucketSize.toNat := Nat.succ_mul _ _
  induction more generalizing k fuel with
  | zero =>
      obtain ⟨fuel, rfl⟩ := Nat.exists_eq_add_one.mpr (show 0 < fuel by omega)
      have hlt := lastPass_lt hb hmany
      have hpast := lastPass_past hb hmany
      rw [← hk, Nat.add_zero] at hlt hpast
      rw [hsucc] at hpast
      rw [printLoop_past words hlt (by omega) rfl hpast]
      have hone : String.join ((List.range' k (0 + 1)).map
          (passLines words.words.length bucketSize)) =
          passLines words.words.length bucketSize k := by simp
      rw [hone, passLines, hsucc]
  | succ more ih =>
      have hinside := @lastPass_inside bucketSize words.words.length k (by omega)
      rw [hsucc] at hinside
      have hright : k * bucketSize.toNat +
          min (k * bucketSize.toNat + bucketSize.toNat) words.words.length ≤
            words.words.length := by omega
      obtain ⟨fuel, rfl⟩ := Nat.exists_eq_add_one.mpr (show 0 < fuel by omega)
      have hrest := @ih (k + 1) fuel (by omega) (by omega)
      rw [hsucc] at hrest
      have hjoin : String.join ((List.range' k (more + 1 + 1)).map
          (passLines words.words.length bucketSize)) =
          passLines words.words.length bucketSize k ++ String.join
            ((List.range' (k + 1) (more + 1)).map (passLines words.words.length bucketSize)) := by
        rw [List.range'_succ, List.map_cons, String.join_cons]
      rw [printLoop_inside words (by omega) (by omega) rfl hright, hrest, hjoin, passLines, hsucc]

theorem printLoop_single (hpos : 0 < words.words.length)
    (hfew : words.words.length ≤ bucketSize.toNat) :
    printLoop words.words bucketSize words.words.length 0 =
      ⟨passText 0 words.words.length words.words.length, none⟩ := by
  have hstep : bucketSize.toNat < 2 ^ 64 := bucketSize.toNat_lt
  obtain ⟨fuel, hfuel⟩ := Nat.exists_eq_add_one.mpr hpos
  have hend : min (0 + bucketSize.toNat) words.words.length = words.words.length := by omega
  have hright : 0 + min (0 + bucketSize.toNat) words.words.length = words.words.length := by omega
  have hrest : printLoop words.words bucketSize fuel (0 + bucketSize.toNat) = ⟨"", none⟩ := by
    cases fuel with
    | zero => rw [printLoop, if_neg (by omega)]
    | succ fuel => rw [printLoop, if_neg (by omega)]
  rw [hfuel, printLoop_inside words hpos (by omega) hright (Nat.le_refl _), hrest, hend, ← hfuel]
  dsimp only
  rw [String.append_empty]

end

theorem run_of_printLoop {input : List Char} {bucketSize : UInt64} {printed : Printed}
    (h : printLoop (readAll input) bucketSize (readAll input).length 0 = printed) :
    run input bucketSize =
      if printed.failure = none then ⟨printed.text ++ listing (readAll input), none⟩
      else printed := by
  rw [← h]
  rfl

theorem run_failure_iff (input : List Char) (bucketSize : UInt64) (failure : Failure) :
    (run input bucketSize).failure = some failure ↔
      main (readAll input) bucketSize = .error failure := by
  have hloop := printLoop_failure (readAll input) bucketSize (readAll input).length 0
  rw [run_of_printLoop rfl, main]
  rcases hloop with ⟨tallies, hok, hnone⟩ | ⟨thrown, herror, hsome⟩
  · rw [if_pos hnone, hok]
    simp
  · rw [if_neg (by simp [hsome]), hsome, herror]
    simp

theorem run_eq (input : List Char) (bucketSize : UInt64) (hb : 1 ≤ bucketSize.toNat)
    (hsize : (readAll input).length < 2 ^ 63) :
    let size := (readAll input).length
    run input bucketSize =
      if bucketSize.toNat < size then
        ⟨String.join ((List.range (lastPass size bucketSize + 1)).map (passLines size bucketSize)),
          some (.outOfRange size)⟩
      else ⟨(if size = 0 then "" else passText 0 size size) ++ listing (readAll input), none⟩ := by
  intro size
  let words : WordList := ⟨readAll input, hsize⟩
  by_cases hmany : bucketSize.toNat < size
  · have hdiv : size / bucketSize.toNat ≤ size := Nat.div_le_self _ _
    have hpasses : lastPass size bucketSize < size := by
      unfold lastPass
      omega
    have hloop := @printLoop_from words bucketSize hb hmany 0 (lastPass size bucketSize) size
      (Nat.zero_add _) hpasses
    rw [Nat.zero_mul] at hloop
    rw [if_pos hmany, List.range_eq_range']
    exact run_of_printLoop hloop
  · rw [if_neg hmany]
    rcases Nat.eq_zero_or_pos size with hzero | hpos
    · have hempty : printLoop (readAll input) bucketSize size 0 = ⟨"", none⟩ := by
        rw [hzero, printLoop, if_neg (by omega)]
      rw [run_of_printLoop hempty, if_pos rfl, if_pos hzero]
    · have hloop := printLoop_single words hpos (Nat.le_of_not_lt hmany)
      rw [run_of_printLoop hloop, if_pos rfl, if_neg (Nat.pos_iff_ne_zero.mp hpos)]

/-- With more words than fit in one bucket the program prints the bounds of the buckets up
to the first one whose two ends add up to a position past the words, and aborts over the
access right behind the last word; otherwise it prints one line of bounds, if there are
words at all, and lists them.  It throws what the loop over the tallies throws. -/
theorem run_prints (input : List Char) (bucketSize : UInt64) (hb : 1 ≤ bucketSize.toNat)
    (hsize : (readAll input).length < 2 ^ 63) :
    let size := (readAll input).length
    (run input bucketSize =
      if bucketSize.toNat < size then
        ⟨String.join ((List.range (lastPass size bucketSize + 1)).map (passLines size bucketSize)),
          some (.outOfRange size)⟩
      else ⟨(if size = 0 then "" else passText 0 size size) ++ listing (readAll input), none⟩) ∧
    ((∀ k < lastPass size bucketSize,
        k * bucketSize.toNat + min ((k + 1) * bucketSize.toNat) size ≤ size) ∧
      (bucketSize.toNat < size → size < lastPass size bucketSize * bucketSize.toNat +
        min ((lastPass size bucketSize + 1) * bucketSize.toNat) size)) ∧
    ∀ failure, main (readAll input) bucketSize = .error failure ↔
      (run input bucketSize).failure = some failure := by
  intro size
  refine ⟨run_eq input bucketSize hb hsize, ⟨?_, fun hmany => lastPass_past hb hmany⟩,
    fun failure => (run_failure_iff input bucketSize failure).symm⟩
  intro k hk
  have hinside := lastPass_inside hk
  omega

/-- Seven words in buckets of two: the third pass fails. -/
theorem run_prints_seven :
    run "a b c d e f g".toList 2 =
      ⟨"0..2\nl = 0 r = 2\n2..4\nl = 2 r = 6\n4..6\nl = 4 r = 10\n", some (.outOfRange 7)⟩ ∧
    main ["a", "b", "c", "d", "e", "f", "g"] 2 = .error (.outOfRange 7) := by
  have hprints := run_prints "a b c d e f g".toList 2 (by decide) (by decide)
  have hread : readAll "a b c d e f g".toList = ["a", "b", "c", "d", "e", "f", "g"] := by decide
  have hseven : (readAll "a b c d e f g".toList).length = 7 := by decide
  obtain ⟨hrun, -, hfailure⟩ := hprints
  rw [hseven] at hrun
  refine ⟨hrun.trans (by decide), ?_⟩
  rw [← hread, hfailure, hrun]
  decide

end UnoApi.TechnicalAnalysis
