import Mathlib.Data.List.Nodup
import Mathlib.Data.List.Perm.Basic
import Mathlib.Order.Defs.Unbundled

/-!
# Ordered sets

An ordered set holds its elements in the order of a comparator.  Of elements that the
comparator does not tell apart it keeps the one that came first.  Under a strict total
order it keeps every element, and its content alone determines it.
-/

namespace UnoApi.Collections

variable {α : Type} {lt : α → α → Prop}

/-- Put `a` in its place unless an equivalent element is there already. -/
def insertUnique (lt : α → α → Prop) [DecidableRel lt] (a : α) : List α → List α
  | [] => [a]
  | b :: rest =>
      if lt a b then a :: b :: rest
      else if lt b a then b :: insertUnique lt a rest
      else b :: rest

def Equivalent (lt : α → α → Prop) (a b : α) : Prop := ¬ lt a b ∧ ¬ lt b a

theorem Equivalent.eq [Std.Trichotomous lt] {a b : α} (h : Equivalent lt a b) : a = b :=
  Std.Trichotomous.trichotomous a b h.1 h.2

/-! ## Insertion -/

section

variable [DecidableRel lt] {a b : α} {l : List α}

theorem mem_insertUnique_of_mem (h : b ∈ l) : b ∈ insertUnique lt a l := by
  induction l with
  | nil => simp at h
  | cons c rest ih =>
      unfold insertUnique
      split
      · exact List.mem_cons_of_mem a h
      · split
        · rcases List.mem_cons.mp h with rfl | hrest
          · exact List.mem_cons_self
          · exact List.mem_cons_of_mem c (ih hrest)
        · exact h

theorem eq_or_mem_of_mem_insertUnique (h : b ∈ insertUnique lt a l) : b = a ∨ b ∈ l := by
  induction l with
  | nil => exact .inl (List.mem_singleton.mp h)
  | cons c rest ih =>
      unfold insertUnique at h
      split at h
      · exact List.mem_cons.mp h
      · split at h
        · rcases List.mem_cons.mp h with rfl | hrest
          · exact .inr List.mem_cons_self
          · exact (ih hrest).imp_right (List.mem_cons_of_mem c)
        · exact .inr h

theorem exists_equivalent_mem_insertUnique [Std.Irrefl lt] (a : α) (l : List α) :
    ∃ b ∈ insertUnique lt a l, Equivalent lt a b := by
  have hself : Equivalent lt a a := ⟨Std.Irrefl.irrefl a, Std.Irrefl.irrefl a⟩
  induction l with
  | nil => exact ⟨a, List.mem_singleton_self a, hself⟩
  | cons c rest ih =>
      unfold insertUnique
      split
      · exact ⟨a, List.mem_cons_self, hself⟩
      · rename_i hac
        split
        · obtain ⟨b, hb, hequivalent⟩ := ih
          exact ⟨b, List.mem_cons_of_mem c hb, hequivalent⟩
        · rename_i hca
          exact ⟨c, List.mem_cons_self, hac, hca⟩

theorem pairwise_insertUnique [IsTrans α lt] (a : α) (h : l.Pairwise lt) :
    (insertUnique lt a l).Pairwise lt := by
  induction l with
  | nil => exact List.pairwise_singleton lt a
  | cons c rest ih =>
      obtain ⟨hc, hrest⟩ := List.pairwise_cons.mp h
      unfold insertUnique
      split
      · rename_i hac
        refine List.pairwise_cons.mpr ⟨?_, h⟩
        intro b hb
        rcases List.mem_cons.mp hb with rfl | hb
        · exact hac
        · exact IsTrans.trans a c b hac (hc b hb)
      · split
        · rename_i hca
          refine List.pairwise_cons.mpr ⟨?_, ih hrest⟩
          intro b hb
          rcases eq_or_mem_of_mem_insertUnique hb with rfl | hb
          · exact hca
          · exact hc b hb
        · exact h

end

/-! ## Sets -/

/-- The elements in the order of the comparator. -/
structure OrderedSet (lt : α → α → Prop) where
  elements : List α
  sorted : elements.Pairwise lt

namespace OrderedSet

theorem nodup [Std.Irrefl lt] (s : OrderedSet lt) : s.elements.Nodup := by
  apply s.sorted.imp
  intro a b hlt heq
  subst heq
  exact Std.Irrefl.irrefl a hlt

theorem elements_eq_of_mem_iff [IsStrictOrder α lt] (s t : OrderedSet lt)
    (h : ∀ a, a ∈ s.elements ↔ a ∈ t.elements) : s.elements = t.elements := by
  have hperm := (List.perm_ext_iff_of_nodup s.nodup t.nodup).mpr h
  apply hperm.eq_of_pairwise _ s.sorted t.sorted
  intro a b _ _ hab hba
  exact absurd (IsTrans.trans a b a hab hba) (Std.Irrefl.irrefl a)

theorem lt_of_mem_take (s : OrderedSet lt) {k : Nat} {a b : α} (ha : a ∈ s.elements.take k)
    (hb : b ∈ s.elements) (hrest : b ∉ s.elements.take k) : lt a b := by
  have hsplit := s.sorted
  rw [← List.take_append_drop k s.elements, List.pairwise_append] at hsplit
  rw [← List.take_append_drop k s.elements, List.mem_append] at hb
  exact hsplit.2.2 a ha b (hb.resolve_left hrest)

variable [DecidableRel lt]

section

variable [IsTrans α lt]

def empty : OrderedSet lt := ⟨[], .nil⟩

def insert (s : OrderedSet lt) (a : α) : OrderedSet lt :=
  ⟨insertUnique lt a s.elements, pairwise_insertUnique a s.sorted⟩

def ofList (l : List α) : OrderedSet lt := l.foldl insert empty

theorem mem_foldl_insert_of_mem (l : List α) {s : OrderedSet lt} {b : α}
    (h : b ∈ s.elements) : b ∈ (l.foldl insert s).elements := by
  induction l generalizing s with
  | nil => exact h
  | cons a l ih => exact ih (mem_insertUnique_of_mem h)

theorem mem_or_mem_of_mem_foldl_insert {l : List α} {s : OrderedSet lt} {b : α}
    (h : b ∈ (l.foldl insert s).elements) : b ∈ s.elements ∨ b ∈ l := by
  induction l generalizing s with
  | nil => exact .inl h
  | cons a l ih =>
      rcases ih h with hs | hl
      · rcases eq_or_mem_of_mem_insertUnique hs with rfl | hs
        · exact .inr List.mem_cons_self
        · exact .inl hs
      · exact .inr (List.mem_cons_of_mem a hl)

theorem exists_equivalent_mem_foldl_insert [Std.Irrefl lt] {l : List α} (s : OrderedSet lt)
    {a : α} (h : a ∈ l) : ∃ b ∈ (l.foldl insert s).elements, Equivalent lt a b := by
  induction l generalizing s with
  | nil => simp at h
  | cons c l ih =>
      rcases List.mem_cons.mp h with rfl | hl
      · obtain ⟨b, hb, hequivalent⟩ := @exists_equivalent_mem_insertUnique _ lt _ _ a s.elements
        exact ⟨b, mem_foldl_insert_of_mem l hb, hequivalent⟩
      · exact ih (s.insert c) hl

end

variable [IsStrictTotalOrder α lt]

/-- A strict total order drops nothing. -/
@[simp] theorem mem_ofList {l : List α} {a : α} :
    a ∈ (ofList l : OrderedSet lt).elements ↔ a ∈ l := by
  constructor
  · intro h
    exact (mem_or_mem_of_mem_foldl_insert h).resolve_left List.not_mem_nil
  · intro h
    obtain ⟨b, hb, hequivalent⟩ := exists_equivalent_mem_foldl_insert (empty : OrderedSet lt) h
    rw [hequivalent.eq]
    exact hb

theorem ofList_perm {l : List α} (h : l.Nodup) : (ofList l : OrderedSet lt).elements.Perm l :=
  (List.perm_ext_iff_of_nodup (nodup _) h).mpr fun _ => mem_ofList

theorem ofList_eq_of_perm {l l' : List α} (h : l.Perm l') :
    (ofList l : OrderedSet lt).elements = (ofList l' : OrderedSet lt).elements := by
  apply elements_eq_of_mem_iff
  intro a
  rw [mem_ofList, mem_ofList, h.mem_iff]

end OrderedSet

end UnoApi.Collections
