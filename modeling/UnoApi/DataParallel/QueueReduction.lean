import Mathlib.Algebra.BigOperators.Fin
import Mathlib.Data.Fintype.Sum
import UnoApi.DataParallel.OutOfOrder
import UnoApi.DataParallel.Reduction

/-!
# Queues that end with a reduction

The last command group of a queue contributes the cells that the others have filled.
Whatever the queue still runs beside it, it contributes what they leave.
-/

namespace UnoApi.DataParallel

variable {κ κ' ι α ε β : Type} [DecidableEq κ] [DecidableEq κ'] [DecidableEq ι]

omit [DecidableEq κ'] in
theorem inOrder_contribute (cell : κ' → ι) (convert : α → ε) (order : List κ') (m : ι → α) :
    inOrder (fun p => contribute (cell p) convert) order m = m := by
  induction order with
  | nil => rfl
  | cons p order ih => exact ih

def withReduction (first : κ → WorkItem ι α ε) (cell : κ' → ι) (convert : α → ε) :
    κ ⊕ κ' → WorkItem ι α ε :=
  Sum.elim first fun p => contribute (cell p) convert

variable {first : κ → WorkItem ι α ε} {cell : κ' → ι} {convert : α → ε}

omit [DecidableEq κ] [DecidableEq κ'] in
theorem inOrder_first (order : List κ) (m : ι → α) :
    inOrder (withReduction first cell convert) (order.map .inl) m = inOrder first order m :=
  inOrder_map _ _ _ m

omit [DecidableEq κ] [DecidableEq κ'] in
theorem inOrder_reduction (order : List κ') (m : ι → α) :
    inOrder (withReduction first cell convert) (order.map .inr) m = m :=
  (inOrder_map _ _ _ m).trans (inOrder_contribute cell convert order m)

/-- A queue whose last group reduces, with the items of both parts in the order of
submission; only the reduction notes anything. -/
structure EndsWithReduction (s : Submissions (κ ⊕ κ') ι β) (R W : κ ⊕ κ' → Set ι)
    (first : κ → WorkItem ι α ε) (cell : κ' → ι) (convert : α → ε) (order : List κ)
    (order' : List κ') : Prop where
  keeps : s.Keeps R W
  within : ∀ p, (withReduction first cell convert p).Within (R p) (W p)
  lists : s.Lists (order.map .inl ++ order'.map .inr)
  quiet : ∀ p m, ((first p).trace m).filterMap Access.event? = []

namespace EndsWithReduction

variable {s : Submissions (κ ⊕ κ') ι β} {R W : κ ⊕ κ' → Set ι} {order : List κ}
  {order' : List κ'} {m m' : ι → α} {tr : List ((κ ⊕ κ') × Access ι α ε)}

theorem memory_eq (h : EndsWithReduction s R W first cell convert order order')
    (hrun : OutOfOrder s.WaitsFor (withReduction first cell convert) m tr m') :
    m' = inOrder first order m := by
  rw [h.keeps.memory_eq h.within h.lists hrun, inOrder_append, inOrder_first, inOrder_reduction]

theorem notesOf_first (h : EndsWithReduction s R W first cell convert order order')
    (hrun : OutOfOrder s.WaitsFor (withReduction first cell convert) m tr m') (p : κ) :
    notesOf tr (.inl p) = [] := by
  obtain ⟨before, after, hsplit⟩ := List.append_of_mem (h.lists.all (.inl p))
  rw [notesOf, h.keeps.accessesOf_eq h.within h.lists hrun hsplit]
  exact h.quiet p _

theorem notesOf_reduction (h : EndsWithReduction s R W first cell convert order order')
    (hrun : OutOfOrder s.WaitsFor (withReduction first cell convert) m tr m') (p : κ') :
    notesOf tr (.inr p) = [convert (m' (cell p))] := by
  have hmem : p ∈ order' := by simpa using h.lists.all (.inr p)
  obtain ⟨before, after, hsplit⟩ := List.append_of_mem hmem
  have horder : order.map Sum.inl ++ order'.map Sum.inr =
      (order.map Sum.inl ++ before.map Sum.inr) ++ Sum.inr p :: after.map Sum.inr := by
    simp [hsplit]
  rw [notesOf, h.keeps.accessesOf_eq h.within h.lists hrun horder, inOrder_append, inOrder_first,
    inOrder_reduction, ← h.memory_eq hrun]
  rfl

theorem contributions_eq [Fintype κ] [Fintype κ']
    (h : EndsWithReduction s R W first cell convert order order')
    (hrun : OutOfOrder s.WaitsFor (withReduction first cell convert) m tr m') :
    contributions tr = Finset.univ.val.map fun p => convert (m' (cell p)) := by
  rw [contributions_eq_sum, Fintype.sum_sum_type]
  simp only [h.notesOf_first hrun, h.notesOf_reduction hrun, Multiset.coe_nil,
    Finset.sum_const_zero, zero_add, Multiset.coe_singleton]
  rw [← Multiset.sum_map_singleton (Multiset.map _ _), Multiset.map_map]
  rfl

end EndsWithReduction

end UnoApi.DataParallel
