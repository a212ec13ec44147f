import Mathlib.Data.List.Nodup
import Mathlib.Data.List.Perm.Lattice

/-!
# Listings of a finite type

A listing names every element of a type exactly once, so position and element
determine each other.  `prioritize d` moves the elements of `d` to the front and
keeps the others in their order.
-/

namespace UnoApi.Collections

variable {α : Type}

theorem filter_notMem_take [DecidableEq α] {l : List α} (h : l.Nodup) (k : Nat) :
    l.filter (· ∉ l.take k) = l.drop k := by
  have htaken : (l.take k).filter (· ∉ l.take k) = [] := by
    rw [List.filter_eq_nil_iff]
    intro b hb
    simp [hb]
  have hkept : (l.drop k).filter (· ∉ l.take k) = l.drop k := by
    rw [List.filter_eq_self]
    intro b hb
    simpa using fun hmem => List.disjoint_take_drop h (Nat.le_refl k) hmem hb
  calc
    l.filter (· ∉ l.take k) = (l.take k ++ l.drop k).filter (· ∉ l.take k) := by
      rw [List.take_append_drop]
    _ = l.drop k := by
      rw [List.filter_append, htaken, hkept, List.nil_append]

theorem nodup_append_filter_notMem [DecidableEq α] {l d : List α} (hl : l.Nodup)
    (hd : d.Nodup) : (d ++ l.filter (· ∉ d)).Nodup := by
  apply List.nodup_append.mpr
  refine ⟨hd, hl.filter _, ?_⟩
  intro a ha b hb heq
  subst heq
  simp [ha] at hb

theorem append_filter_notMem_perm [DecidableEq α] {l d : List α} (hl : l.Nodup)
    (hd : d.Nodup) (hsub : d ⊆ l) : (d ++ l.filter (· ∉ d)).Perm l := by
  apply (List.perm_ext_iff_of_nodup (nodup_append_filter_notMem hl hd) hl).mpr
  intro a
  by_cases ha : a ∈ d
  · simp [ha, hsub ha]
  · simp [ha]

/-- Every element of `α`, each exactly once. -/
structure Listing (α : Type) where
  entries : List α
  nodup : entries.Nodup
  complete : ∀ a, a ∈ entries

namespace Listing

theorem perm (l l' : Listing α) : l.entries.Perm l'.entries :=
  (List.perm_ext_iff_of_nodup l.nodup l'.nodup).mpr fun a =>
    ⟨fun _ => l'.complete a, fun _ => l.complete a⟩

theorem length_eq (l l' : Listing α) : l.entries.length = l'.entries.length :=
  (l.perm l').length_eq

variable [DecidableEq α]

theorem idxOf_lt (l : Listing α) (a : α) : l.entries.idxOf a < l.entries.length :=
  List.idxOf_lt_length_of_mem (l.complete a)

/-- The elements of `d` first, then the others in the order of the listing. -/
def prioritize (l : Listing α) (d : List α) (hd : d.Nodup) : Listing α where
  entries := d ++ l.entries.filter (· ∉ d)
  nodup := nodup_append_filter_notMem l.nodup hd
  complete := by
    intro a
    by_cases ha : a ∈ d
    · simp [ha]
    · simp [ha, l.complete a]

@[simp] theorem prioritize_entries (l : Listing α) (d : List α) (hd : d.Nodup) :
    (l.prioritize d hd).entries = d ++ l.entries.filter (· ∉ d) := rfl

theorem length_le (l : Listing α) (d : List α) (hd : d.Nodup) :
    d.length ≤ l.entries.length := by
  have hlength := (l.prioritize d hd).length_eq l
  simp only [prioritize_entries, List.length_append] at hlength
  omega

theorem idxOf_prioritize_of_mem (l : Listing α) {d : List α} (hd : d.Nodup) {a : α}
    (ha : a ∈ d) : (l.prioritize d hd).entries.idxOf a = d.idxOf a :=
  List.idxOf_append_of_mem ha

/-- An element that is not prioritized comes after `d` and after the other such
elements that precede it in the listing. -/
theorem idxOf_prioritize_of_notMem (l : Listing α) {d : List α} (hd : d.Nodup) {a : α}
    (ha : a ∉ d) {pre post : List α} (hsplit : l.entries = pre ++ a :: post) :
    (l.prioritize d hd).entries.idxOf a = d.length + (pre.filter (· ∉ d)).length := by
  have hpre : a ∉ pre.filter (· ∉ d) := by
    intro hmem
    have hnodup := l.nodup
    rw [hsplit] at hnodup
    exact (List.nodup_append.mp hnodup).2.2 a (List.mem_filter.mp hmem).1 a (by simp) rfl
  rw [prioritize_entries, List.idxOf_append_of_notMem ha, hsplit, List.filter_append,
    List.idxOf_append_of_notMem hpre, List.filter_cons_of_pos (by simpa using ha),
    List.idxOf_cons_self, Nat.add_zero]

theorem idxOf_prioritize_of_sorted [LT α] [DecidableLT α]
    [Std.Asymm ((· < ·) : α → α → Prop)] (l : Listing α)
    (hsorted : l.entries.Pairwise (· < ·)) {d : List α} (hd : d.Nodup) {a : α} (ha : a ∉ d) :
    (l.prioritize d hd).entries.idxOf a =
      d.length + (l.entries.filter fun b => b < a ∧ b ∉ d).length := by
  obtain ⟨pre, post, hsplit⟩ := List.append_of_mem (l.complete a)
  rw [hsplit] at hsorted
  have hpre : ∀ b ∈ pre, b < a := fun b hb =>
    (List.pairwise_append.mp hsorted).2.2 b hb a (by simp)
  have hpost : ∀ b ∈ a :: post, ¬ b < a := by
    intro b hb
    rcases List.mem_cons.mp hb with rfl | hb
    · exact Std.Irrefl.irrefl b
    · exact Std.Asymm.asymm a b
        ((List.pairwise_cons.mp (List.pairwise_append.mp hsorted).2.1).1 b hb)
  have hsmaller : (l.entries.filter fun b => b < a ∧ b ∉ d) = pre.filter (· ∉ d) := by
    have hfirst : (pre.filter fun b => b < a ∧ b ∉ d) = pre.filter (· ∉ d) := by
      apply List.filter_congr
      intro b hb
      simp [hpre b hb]
    have hrest : ((a :: post).filter fun b => b < a ∧ b ∉ d) = [] := by
      rw [List.filter_eq_nil_iff]
      intro b hb
      simp [hpost b hb]
    rw [hsplit, List.filter_append, hfirst, hrest, List.append_nil]
  rw [l.idxOf_prioritize_of_notMem hd ha hsplit, hsmaller]

/-- Elements that are prioritized although they would have come next anyway make no
difference, and nothing else makes none. -/
theorem prioritize_eq_iff (l : Listing α) {d₁ d₂ : List α} (hd₁ : d₁.Nodup) (hd₂ : d₂.Nodup)
    (hle : d₁.length ≤ d₂.length) :
    (l.prioritize d₁ hd₁).entries = (l.prioritize d₂ hd₂).entries ↔
      d₂ = d₁ ++ (l.entries.filter (· ∉ d₁)).take (d₂.length - d₁.length) := by
  rw [prioritize_entries, prioritize_entries]
  generalize hrest : l.entries.filter (· ∉ d₁) = rest
  constructor
  · intro heq
    calc
      d₂ = (d₂ ++ l.entries.filter (· ∉ d₂)).take d₂.length := List.take_left.symm
      _ = (d₁ ++ rest).take d₂.length := by rw [heq]
      _ = d₁ ++ rest.take (d₂.length - d₁.length) := by
        rw [List.take_append, List.take_of_length_le hle]
  · intro heq
    generalize d₂.length - d₁.length = more at heq
    have hnodup : rest.Nodup := hrest ▸ l.nodup.filter _
    have hremaining : l.entries.filter (· ∉ d₂) = rest.drop more := by
      have hnext : l.entries.filter (· ∉ d₂) = rest.filter (· ∉ rest.take more) := by
        rw [← hrest, List.filter_filter, hrest]
        apply List.filter_congr
        intro b _
        simp [heq, Bool.and_comm]
      rw [hnext, filter_notMem_take hnodup]
    rw [hremaining, heq, List.append_assoc, List.take_append_drop]

end Listing

end UnoApi.Collections
