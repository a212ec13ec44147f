import UnoApi.Collections.OrderedSet
import UnoApi.WordCloud.Buckets
import Mathlib.Data.Prod.Lex
import Mathlib.Data.String.Basic

/-!
# The most frequent words

`print_frequencies` loads the entries of an unordered map into a set ordered by falling
frequency, with words of the same frequency in lexicographic order, and prints the first
entries of the set.  The order of the code points of two words is that of their bytes in
UTF-8.
-/

namespace UnoApi.WordCloud

open UnoApi.Machine UnoApi.Collections

section

variable {α : Type}

/-- The count, then the word in reversed order. -/
def rank (e : Σ _ : α, Nat) : ℕ ×ₗ αᵒᵈ := toLex (e.2, OrderDual.toDual e.1)

theorem rank_injective : Function.Injective (rank : (Σ _ : α, Nat) → ℕ ×ₗ αᵒᵈ) := by
  intro l r h
  have hpair := toLex.injective h
  exact Sigma.ext (OrderDual.toDual.injective (congrArg Prod.snd hpair))
    (heq_of_eq (congrArg Prod.fst hpair))

variable [LinearOrder α]

def descendingByValue (l r : Σ _ : α, Nat) : Prop :=
  if l.2 ≠ r.2 then l.2 > r.2 else l.1 < r.1

instance : DecidableRel (descendingByValue : (Σ _ : α, Nat) → (Σ _ : α, Nat) → Prop) :=
  fun l r => inferInstanceAs (Decidable (if l.2 ≠ r.2 then l.2 > r.2 else l.1 < r.1))

theorem descendingByValue_iff {l r : Σ _ : α, Nat} :
    descendingByValue l r ↔ rank r < rank l := by
  rw [rank, rank, Prod.Lex.toLex_lt_toLex, OrderDual.toDual_lt_toDual, descendingByValue]
  by_cases hcount : l.2 = r.2
  · simp [hcount]
  · simp [hcount, Ne.symm hcount]

instance : IsStrictTotalOrder (Σ _ : α, Nat) descendingByValue where
  irrefl e h := lt_irrefl _ (descendingByValue_iff.mp h)
  trans l m r hlm hmr := descendingByValue_iff.mpr
    ((descendingByValue_iff.mp hmr).trans (descendingByValue_iff.mp hlm))
  trichotomous l r hlr hrl := by
    rw [descendingByValue_iff] at hlr hrl
    exact rank_injective (le_antisymm (not_lt.mp hlr) (not_lt.mp hrl))

end

/-! ## Printing -/

abbrev Entry := Σ _ : String, Nat

/-- `freq_set`, from the entries in the order in which the map lists them. -/
def freqSet (listed : List Entry) : OrderedSet (descendingByValue : Entry → Entry → Prop) :=
  OrderedSet.ofList listed

def printLoop (howMany count : UInt64) : List Entry → List Entry
  | [] => []
  | kv :: rest =>
      if count + 1 ≥ howMany then [kv] else kv :: printLoop howMany (count + 1) rest

def printedEntries (listed : List Entry) (howMany : UInt64) : List Entry :=
  printLoop howMany 0 (freqSet listed).elements

def entryText (kv : Entry) : String := kv.1 ++ ": " ++ toString kv.2 ++ " "

def reportText (printed : List Entry) : String := String.join (printed.map entryText) ++ "\n"

def printFrequencies (listed : List Entry) (howMany : UInt64) : String :=
  reportText (printedEntries listed howMany)

/-- The counter does not pass `how_many`, so it does not wrap around. -/
theorem printLoop_eq_take {howMany count : UInt64} (h : count < howMany) (l : List Entry) :
    printLoop howMany count l = l.take (howMany.toNat - count.toNat) := by
  induction l generalizing count with
  | nil => simp [printLoop]
  | cons kv rest ih =>
      have hnext := toNat_add_one h
      obtain ⟨more, hmore⟩ : ∃ more, howMany.toNat = count.toNat + more + 1 :=
        Nat.exists_eq_add_of_lt h
      have htake : howMany.toNat - count.toNat = more + 1 := by omega
      unfold printLoop
      split
      · rename_i hlast
        have hle : howMany.toNat ≤ (count + 1).toNat := hlast
        have hzero : more = 0 := by omega
        rw [htake, hzero]
        simp
      · rename_i hgoes
        have hcount : count + 1 < howMany := UInt64.not_le.mp hgoes
        have hrest : howMany.toNat - (count + 1).toNat = more := by omega
        rw [ih hcount, hrest, htake, List.take_succ_cons]

/-! ## What is printed -/

/-- The report of a map: its entries of highest rank, from the highest down. -/
structure TopEntries (freqMap : FrequencyMap) (howMany : Nat) (top : List Entry) : Prop where
  length : top.length = min howMany freqMap.entries.card
  nodup : top.Nodup
  counts : ∀ e ∈ top, freqMap.lookup e.1 = some e.2
  sorted : top.Pairwise fun e e' => rank e' < rank e
  leftOut : ∀ e, freqMap.lookup e.1 = some e.2 → e ∉ top → ∀ e' ∈ top, rank e < rank e'

theorem mem_freqSet {freqMap : FrequencyMap} {listed : List Entry}
    (h : ListsEntries freqMap listed) (e : Entry) :
    e ∈ (freqSet listed).elements ↔ freqMap.lookup e.1 = some e.2 := by
  rw [freqSet, OrderedSet.mem_ofList, ← h.dlookup_eq]
  exact (List.mem_dlookup_iff h.nodupKeys).symm

theorem length_freqSet {freqMap : FrequencyMap} {listed : List Entry}
    (h : ListsEntries freqMap listed) :
    (freqSet listed).elements.length = freqMap.entries.card := by
  have hperm : (freqSet listed).elements.Perm listed := OrderedSet.ofList_perm h.nodupKeys.nodup
  rw [hperm.length_eq, ← h, Multiset.coe_card]

theorem freqSet_eq {freqMap : FrequencyMap} {listed listed' : List Entry}
    (h : ListsEntries freqMap listed) (h' : ListsEntries freqMap listed') :
    (freqSet listed).elements = (freqSet listed').elements :=
  OrderedSet.ofList_eq_of_perm (Multiset.coe_eq_coe.mp (h.trans h'.symm))

theorem printedEntries_eq_take {howMany : UInt64} (h : 1 ≤ howMany.toNat)
    (listed : List Entry) :
    printedEntries listed howMany = (freqSet listed).elements.take howMany.toNat :=
  printLoop_eq_take (show (0 : UInt64) < howMany from h) _

theorem topEntries_printedEntries {freqMap : FrequencyMap} {listed : List Entry}
    (h : ListsEntries freqMap listed) {howMany : UInt64} (hmany : 1 ≤ howMany.toNat) :
    TopEntries freqMap howMany.toNat (printedEntries listed howMany) := by
  rw [printedEntries_eq_take hmany]
  constructor
  · rw [List.length_take, length_freqSet h]
  · exact (freqSet listed).nodup.sublist (List.take_sublist _ _)
  · intro e he
    exact (mem_freqSet h e).mp (List.mem_of_mem_take he)
  · apply ((freqSet listed).sorted.sublist (List.take_sublist _ _)).imp
    intro e e' hlt
    exact descendingByValue_iff.mp hlt
  · intro e he hrest e' he'
    exact descendingByValue_iff.mp
      ((freqSet listed).lt_of_mem_take he' ((mem_freqSet h e).mpr he) hrest)

/-- `print_frequencies` prints the entries of highest rank, as many as it is asked for,
and the same text for every order in which the map lists its entries; the comparator is
a strict total order, so the set drops none of them. -/
theorem printFrequencies_top (freqMap : FrequencyMap) (howMany : UInt64)
    (hmany : 1 ≤ howMany.toNat) :
    IsStrictTotalOrder Entry descendingByValue ∧
    ∃ top, TopEntries freqMap howMany.toNat top ∧ ∀ listed, ListsEntries freqMap listed →
      printedEntries listed howMany = top ∧ printFrequencies listed howMany = reportText top := by
  refine ⟨inferInstance, ?_⟩
  obtain ⟨entries, hentries⟩ := exists_listsEntries freqMap
  refine ⟨printedEntries entries howMany, topEntries_printedEntries hentries hmany, ?_⟩
  intro listed hlisted
  have hprinted : printedEntries listed howMany = printedEntries entries howMany := by
    rw [printedEntries, printedEntries, freqSet_eq hlisted hentries]
  exact ⟨hprinted, congrArg reportText hprinted⟩

theorem printFrequencies_top_two : ∃ top : List Entry,
    TopEntries (List.toFinmap [⟨"reduce", 1⟩, ⟨"map", 2⟩, ⟨"fold", 2⟩]) 2 top ∧
      reportText top = "fold: 2 map: 2 \n" := by
  obtain ⟨top, htop, hprints⟩ := (printFrequencies_top
    (List.toFinmap [⟨"reduce", 1⟩, ⟨"map", 2⟩, ⟨"fold", 2⟩]) 2 (by decide)).2
  have htext := (hprints [⟨"reduce", 1⟩, ⟨"map", 2⟩, ⟨"fold", 2⟩] rfl).2
  refine ⟨top, htop, ?_⟩
  rw [← htext]
  decide

end UnoApi.WordCloud
