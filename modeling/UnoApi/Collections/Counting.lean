import Mathlib.Data.Finmap

/-!
# Counting maps

A counting map holds, for every element that occurs in a list, how often it does.
Adding the entries of one counting map to another, in any order, counts the
occurrences of both lists.
-/

namespace UnoApi.Collections

variable {α : Type} [DecidableEq α]

abbrev CountMap (α : Type) := Finmap fun _ : α => Nat

/-- The map holds the number of occurrences of each element, and has an entry for no
other element. -/
def Counts (m : CountMap α) (occurrences : List α) : Prop :=
  ∀ a, m.lookup a = if occurrences.count a = 0 then none else some (occurrences.count a)

/-- Add `amount` to the count of `a`, which is zero when it has no entry. -/
def addCount (m : CountMap α) (a : α) (amount : Nat) : CountMap α :=
  m.insert a ((m.lookup a).getD 0 + amount)

namespace Counts

variable {m : CountMap α} {xs ys : List α}

theorem empty : Counts (∅ : CountMap α) [] := by
  intro a
  simp

theorem getD_lookup (h : Counts m xs) (a : α) : (m.lookup a).getD 0 = xs.count a := by
  rw [h a]
  split <;> simp_all

theorem of_count_eq (h : Counts m xs) (hcount : ∀ a, xs.count a = ys.count a) :
    Counts m ys := by
  intro a
  rw [h a, hcount a]

theorem addCount (h : Counts m xs) (a : α) {amount : Nat} (hpos : 0 < amount) :
    Counts (addCount m a amount) (xs ++ List.replicate amount a) := by
  intro b
  rw [Collections.addCount, h.getD_lookup]
  by_cases hb : b = a
  · subst hb
    rw [Finmap.lookup_insert, List.count_append, List.count_replicate_self, if_neg (by omega)]
  · have hother : (List.replicate amount a).count b = 0 := by
      simp [List.count_replicate, Ne.symm hb]
    rw [Finmap.lookup_insert_of_ne _ hb, h b, List.count_append, hother, Nat.add_zero]

end Counts

/-! ## Adding the entries of a map -/

def addEntries (m : CountMap α) (entries : List (Σ _ : α, Nat)) : CountMap α :=
  entries.foldl (fun m e => addCount m e.1 e.2) m

def occurrencesOf (entries : List (Σ _ : α, Nat)) : List α :=
  entries.flatMap fun e => List.replicate e.2 e.1

theorem Counts.addEntries {m : CountMap α} {xs : List α} (h : Counts m xs)
    {entries : List (Σ _ : α, Nat)} (hpos : ∀ e ∈ entries, 0 < e.2) :
    Counts (addEntries m entries) (xs ++ occurrencesOf entries) := by
  induction entries generalizing m xs with
  | nil => simpa [Collections.addEntries, occurrencesOf] using h
  | cons e entries ih =>
      have hnext := ih (h.addCount e.1 (hpos e (by simp))) fun e' he' => hpos e' (by simp [he'])
      simpa [Collections.addEntries, occurrencesOf] using hnext

theorem count_occurrencesOf {entries : List (Σ _ : α, Nat)} (hnodup : entries.NodupKeys)
    (a : α) : (occurrencesOf entries).count a = (entries.dlookup a).getD 0 := by
  induction entries with
  | nil => simp [occurrencesOf]
  | cons e entries ih =>
      obtain ⟨b, count⟩ := e
      obtain ⟨hb, hnodup⟩ := List.nodupKeys_cons.mp hnodup
      have hcons : (occurrencesOf (⟨b, count⟩ :: entries)).count a =
          (List.replicate count b).count a + (occurrencesOf entries).count a := by
        simp [occurrencesOf]
      rw [hcons, ih hnodup, List.count_replicate]
      by_cases hab : b = a
      · subst hab
        have hnone : entries.dlookup b = none := List.dlookup_eq_none.mpr hb
        simp [hnone]
      · have hne : a ≠ (⟨b, count⟩ : Σ _ : α, Nat).1 := Ne.symm hab
        rw [List.dlookup_cons_ne _ _ hne]
        simp [hab]

def ListsEntries (m : CountMap α) (entries : List (Σ _ : α, Nat)) : Prop :=
  (entries : Multiset (Σ _ : α, Nat)) = m.entries

omit [DecidableEq α] in
theorem exists_listsEntries (m : CountMap α) : ∃ entries, ListsEntries m entries :=
  Quotient.exists_rep m.entries

omit [DecidableEq α] in
theorem ListsEntries.nodupKeys {m : CountMap α} {entries : List (Σ _ : α, Nat)}
    (h : ListsEntries m entries) : entries.NodupKeys := by
  have hnodup := m.nodupKeys
  rwa [← h] at hnodup

theorem ListsEntries.dlookup_eq {m : CountMap α} {entries : List (Σ _ : α, Nat)}
    (h : ListsEntries m entries) (a : α) : entries.dlookup a = m.lookup a := by
  have hm : AList.toFinmap ⟨entries, h.nodupKeys⟩ = m := Finmap.ext h
  rw [← hm]
  rfl

theorem ListsEntries.pos {m : CountMap α} {xs : List α} {entries : List (Σ _ : α, Nat)}
    (h : ListsEntries m entries) (hcounts : Counts m xs) : ∀ e ∈ entries, 0 < e.2 := by
  intro e he
  have hlookup := List.mem_dlookup h.nodupKeys (show ⟨e.1, e.2⟩ ∈ entries from he)
  rw [h.dlookup_eq, hcounts] at hlookup
  split at hlookup
  · simp at hlookup
  · rename_i hne
    have hcount : xs.count e.1 = e.2 := Option.some.inj hlookup
    omega

theorem ListsEntries.count_eq {m : CountMap α} {xs : List α}
    {entries : List (Σ _ : α, Nat)} (h : ListsEntries m entries) (hcounts : Counts m xs) (a : α) :
    (occurrencesOf entries).count a = xs.count a := by
  rw [count_occurrencesOf h.nodupKeys, h.dlookup_eq, hcounts.getD_lookup]

/-- Adding the entries of a counting map, in any order, adds its occurrences. -/
theorem Counts.addListed {m m' : CountMap α} {xs ys : List α} (h : Counts m xs)
    (h' : Counts m' ys) {entries : List (Σ _ : α, Nat)} (hentries : ListsEntries m' entries) :
    Counts (Collections.addEntries m entries) (xs ++ ys) := by
  apply (h.addEntries (hentries.pos h')).of_count_eq
  intro a
  rw [List.count_append, List.count_append, hentries.count_eq h']

end UnoApi.Collections
