import UnoApi.BigMatrix.MapReduce
import UnoApi.DataParallel.GroupOrder
import UnoApi.TransitiveClosure.Warshall

/-!
# In-order queues

The transitive closure and the matrix program ask for in-order queues.  The accessors of
any two of their command groups conflict, so a queue without this property would run them
in the same way.
-/

namespace UnoApi

open UnoApi.DataParallel

namespace TransitiveClosure

/-- The accessors of the copy and of the pivots, which declare their matrix write-only. -/
def accessors : Nat → Accessors Buffer
  | 0 => ⟨{.C}, {.A}⟩
  | _ + 1 => ⟨∅, {.A}⟩

def submissions (n : Nat) : Submissions (Nat × Fin n × Fin n) (Cell n) Buffer :=
  ⟨Prod.fst, accessors, Prod.fst⟩

theorem writes_accessors (position : Nat) : .A ∈ (accessors position).writes := by
  cases position <;> exact rfl

theorem waitsFor_submissions (n : Nat) : (submissions n).WaitsFor = Later := by
  ext p q
  have hconflict : (accessors p.1).Conflict (accessors q.1) :=
    ⟨.A, .inl ⟨writes_accessors p.1, .inr (writes_accessors q.1)⟩⟩
  exact ⟨fun h => h.1, fun h => ⟨h, hconflict⟩⟩

end TransitiveClosure

namespace BigMatrix

inductive Buffer where
  | m
  | r
  deriving DecidableEq

/-- The accessors of the three groups; the reduction combines the original value of `r`. -/
def accessors : Nat → Accessors Buffer
  | 0 => ⟨∅, {.m}⟩
  | 1 => ⟨{.m}, {.m}⟩
  | _ + 2 => ⟨{.m, .r}, {.r}⟩

def submissions (M : UInt32) : Submissions (Nat × Index M) (Index M) Buffer :=
  ⟨Prod.fst, accessors, fun _ => .m⟩

theorem waitsFor_submissions (M : UInt32) : (submissions M).WaitsFor = Later := by
  ext p q
  obtain ⟨position, index⟩ := p
  obtain ⟨position', index'⟩ := q
  constructor
  · exact fun h => h.1
  · intro h
    refine ⟨h, ?_⟩
    change (accessors position).Conflict (accessors position')
    match position, position', h with
    | 1, 0, _ => exact ⟨.m, .inl ⟨rfl, .inr rfl⟩⟩
    | _ + 2, 0, _ => exact ⟨.m, .inr ⟨.inl rfl, rfl⟩⟩
    | _ + 2, 1, _ => exact ⟨.m, .inr ⟨.inl rfl, rfl⟩⟩
    | _ + 2, _ + 2, _ => exact ⟨.r, .inl ⟨rfl, .inr rfl⟩⟩

def kernels (M : UInt32) : List (Index M → Item M) := [initItem, mapItem, reduceKernel M]

end BigMatrix

/-- Without the property, the queues of both programs would have the same runs: the same
accesses in the same order, from and to the same memory. -/
theorem inOrder_redundant :
    (∀ (n : Nat) m tr m',
      (∃ tr', OutOfOrder (TransitiveClosure.submissions n).WaitsFor
          (launchedFrom (TransitiveClosure.parallelBlock n)) m tr' m' ∧ withoutGroups tr' = tr) ↔
        QueueRun (TransitiveClosure.parallelBlock n) m tr m') ∧
    ∀ (M : UInt32) m tr m',
      (∃ tr', OutOfOrder (BigMatrix.submissions M).WaitsFor
          (launchedFrom (BigMatrix.kernels M)) m tr' m' ∧ withoutGroups tr' = tr) ↔
        QueueRun (BigMatrix.kernels M) m tr m' := by
  constructor
  · intro n m tr m'
    rw [TransitiveClosure.waitsFor_submissions]
    exact outOfOrder_iff_queueRun
  · intro M m tr m'
    rw [BigMatrix.waitsFor_submissions]
    exact outOfOrder_iff_queueRun

end UnoApi
