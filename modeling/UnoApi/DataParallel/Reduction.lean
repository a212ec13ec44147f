import UnoApi.DataParallel.Kernel
import Mathlib.Algebra.BigOperators.Group.Finset.Piecewise

/-!
# Sum reductions

A reduction combines the contributions of its work items in an order and a
grouping of its own choice, and may start partial results from the identity.
`Combines s a` holds when `a` can come out for the contributions `s`.  A work item
notes what it contributes, so the contributions of a kernel are the events of its
trace.
-/

namespace UnoApi.DataParallel

/-- Some order and grouping of the contributions combines them to this value. -/
inductive Combines {α : Type} [Zero α] [Add α] : Multiset α → α → Prop where
  | identity : Combines 0 0
  | single (a : α) : Combines {a} a
  | join {s t : Multiset α} {a b : α} (hs : Combines s a) (ht : Combines t b) :
      Combines (s + t) (a + b)

namespace Combines

variable {α : Type} [AddCommMonoid α]

theorem eq_sum {s : Multiset α} {a : α} (h : Combines s a) : a = s.sum := by
  induction h with
  | identity => simp
  | single a => simp
  | join _ _ ihs iht => rw [ihs, iht, Multiset.sum_add]

theorem sum (s : Multiset α) : Combines s s.sum := by
  induction s using Multiset.induction with
  | empty => simpa using identity
  | cons a s ih => simpa using (single a).join ih

theorem iff_eq_sum {s : Multiset α} {a : α} : Combines s a ↔ a = s.sum := by
  constructor
  · exact eq_sum
  · intro h
    rw [h]
    exact sum s

end Combines

/-! ## What a kernel contributes -/

variable {κ ι α ε : Type}

def contributions (tr : List (κ × Access ι α ε)) : Multiset ε :=
  (tr.filterMap fun l => l.2.event? : List ε)

theorem contributions_cons (r : κ) (a : Access ι α ε) (tr : List (κ × Access ι α ε)) :
    contributions ((r, a) :: tr) = (a.event?.toList : Multiset ε) + contributions tr := by
  unfold contributions
  rw [List.filterMap_cons]
  cases a <;> simp

theorem contributions_eq_sum [DecidableEq κ] [Fintype κ] (tr : List (κ × Access ι α ε)) :
    contributions tr = ∑ p, (notesOf tr p : Multiset ε) := by
  induction tr with
  | nil => simp [contributions]
  | cons l tr ih =>
      obtain ⟨r, a⟩ := l
      have hupdate : (fun p => (notesOf ((r, a) :: tr) p : Multiset ε)) =
          Function.update (fun p => (notesOf tr p : Multiset ε)) r
            ((a.event?.toList : Multiset ε) + notesOf tr r) := by
        rw [notesOf_cons]
        ext1 p
        by_cases hp : p = r
        · subst hp
          simp
        · simp [Function.update_of_ne hp]
      rw [contributions_cons, ih, hupdate, Finset.sum_update_of_mem (Finset.mem_univ r),
        add_assoc, Finset.sdiff_singleton_eq_erase,
        Finset.add_sum_erase _ (fun p => (notesOf tr p : Multiset ε)) (Finset.mem_univ r)]

def contribute (cell : ι) (convert : α → ε) : WorkItem ι α ε :=
  .read cell fun v => .note (convert v) .done

theorem isolated_contribute (cell : κ → ι) (convert : α → ε) :
    Isolated (fun p => contribute (cell p) convert) (fun p => {cell p}) fun _ => ∅ where
  within _ := ⟨rfl, fun _ => trivial⟩
  apart _ _ _ _ hc := hc.elim

/-- A kernel that contributes cells contributes each of them once, and changes none. -/
theorem contributions_contribute [DecidableEq κ] [Fintype κ] [DecidableEq ι] {cell : κ → ι}
    {convert : α → ε} {m m' : ι → α} {tr : List (κ × Access ι α ε)}
    (hrun : Completes (fun p => contribute (cell p) convert) m tr m') :
    contributions tr = Finset.univ.val.map (fun p => convert (m (cell p))) ∧ m' = m := by
  have hisolated := isolated_contribute cell convert
  have hnotes (p : κ) : (notesOf tr p : Multiset ε) = {convert (m (cell p))} := by
    rw [notesOf, hisolated.accessesOf_eq hrun]
    rfl
  constructor
  · simp only [contributions_eq_sum, hnotes]
    rw [← Multiset.sum_map_singleton (Multiset.map _ _), Multiset.map_map]
    rfl
  · ext1 c
    exact hisolated.memory_frame hrun fun _ => Set.notMem_empty c

end UnoApi.DataParallel
