import UnoApi.TransitiveClosure.Pass

/-!
# The sequential block

The entries of `C` may be any `int` values.  The first pass turns them into zeros
and ones, and its row-major order does so before they are multiplied.
-/

namespace UnoApi.TransitiveClosure

open UnoApi.DataParallel UnoApi.Machine

variable {n : Nat}

/-- The loops for pivot `k` are one interleaving of its kernel. -/
theorem inPlacePass_rowMajor (k : Fin n) (m : Cell n → Int32) :
    InPlacePass k (matrixA m) (matrixA (inOrder (updateEntry k) (rowMajor n) m))
      (notesOf (inOrderTrace (updateEntry k) (rowMajor n) m)) :=
  inPlacePass_of_completes (completes_inOrder _ (rowMajor_nodup n) mem_rowMajor m)

/-- In the first pass the left factor is already zero or one when it is read: its
entry comes first in its row. -/
theorem allFit_first_pass {k : Fin n} (hk : k.val = 0) (m : Cell n → Int32) :
    AllFit (notesOf (inOrderTrace (updateEntry k) (rowMajor n) m)) := by
  intro index e he
  obtain ⟨i, j⟩ := index
  have hwriter := singleWriter_updateEntry k
  have hbinary := (inPlacePass_rowMajor k m).binary
  have hnodup := rowMajor_nodup n
  obtain ⟨l, l', hsplit⟩ := List.append_of_mem (mem_rowMajor (i, j))
  rw [hsplit] at hnodup hbinary he
  obtain ⟨a, ha, hcases⟩ := yields_updateEntry (hwriter.inOrder_yields hnodup m)
  rcases hcases with ⟨-, hnotes, -⟩ | ⟨hzero, x, y, hx, -, hnotes, -⟩
  · simp [hnotes] at he
  · have heq : e = (x, y) := by simpa [hnotes] using he
    subst heq
    suffices hbit : IsBit x from hbit.productFits_left y
    by_cases hjk : j = k
    · -- the left factor is the entry itself, which is zero
      subst hjk
      rw [← ha, hzero] at hx
      exact .inl hx
    · have hfirst : k < j := by omega
      have hmem : (i, k) ∈ l := mem_of_precedes hsplit (.inr ⟨rfl, hfirst⟩)
      rw [hx]
      exact (hwriter.inOrder_before hnodup hmem m) ▸ hbinary i k

theorem passes_of_loop (ks : List (Fin n)) (m : Cell n → Int32)
    (hstart : Binary (matrixA m) ∨ ∀ k ∈ ks.head?, k.val = 0) :
    let loop : WorkItem (Cell n) Int32 Factors :=
      .forEach ks (fun k => .forEach (rowMajor n) (updateEntry k) .done) .done
    Passes ks (matrixA m) (matrixA (loop.exec m)) ∧
      ∀ x y, .note (x, y) ∈ loop.trace m → ProductFits x y := by
  induction ks generalizing m with
  | nil => exact ⟨.nil _, by simp⟩
  | cons k ks ih =>
      have hpass := inPlacePass_rowMajor k m
      have hfit : AllFit (notesOf (inOrderTrace (updateEntry k) (rowMajor n) m)) :=
        hstart.elim (fun hA => hpass.allFit (hA.safe k))
          fun hfirst => allFit_first_pass (hfirst k (by simp)) m
      obtain ⟨hrest, hnotes⟩ := ih (inOrder (updateEntry k) (rowMajor n) m) (.inl hpass.binary)
      dsimp only
      rw [WorkItem.forEach_cons, WorkItem.exec_followedBy, WorkItem.trace_followedBy,
        exec_forEach_done (updateEntry k), trace_forEach_done (updateEntry k)]
      refine ⟨.cons hpass hfit hrest, ?_⟩
      intro x y hmem
      rcases List.mem_append.mp hmem with hmem | hmem
      · obtain ⟨⟨index, a⟩, hl, rfl⟩ := List.mem_map.mp hmem
        exact hfit index (x, y) (mem_notesOf.mpr hl)
      · exact hnotes x y hmem

theorem passes_sequentialBlock (C A : IntMatrix n) :
    Passes (List.finRange n) C (matrixA ((sequentialBlock n).exec (buffers C A))) ∧
      ∀ x y, .note (x, y) ∈ (sequentialBlock n).trace (buffers C A) → ProductFits x y := by
  have hcopy : Completes copyEntry (buffers C A) _ _ :=
    completes_inOrder copyEntry (rowMajor_nodup n) mem_rowMajor (buffers C A)
  have hfirst : ∀ k ∈ (List.finRange n).head?, k.val = 0 := by
    cases n with
    | zero => simp
    | succ n => simp [List.finRange_succ]
  obtain ⟨hpasses, hnotes⟩ := passes_of_loop (List.finRange n)
    (inOrder copyEntry (rowMajor n) (buffers C A)) (.inr hfirst)
  rw [matrixA_of_copy hcopy] at hpasses
  rw [sequentialBlock_eq, WorkItem.exec_followedBy, WorkItem.trace_followedBy,
    exec_forEach_done copyEntry, trace_forEach_done copyEntry]
  refine ⟨hpasses, ?_⟩
  intro x y hmem
  rcases List.mem_append.mp hmem with hmem | hmem
  · obtain ⟨⟨index, a⟩, hl, rfl⟩ := List.mem_map.mp hmem
    exact absurd hl (no_note_of_copy hcopy index (x, y))
  · exact hnotes x y hmem

/-- For every matrix of `int` entries the sequential block computes the transitive
closure in zeros and ones, and no product it evaluates overflows. -/
theorem sequentialBlock_closure (C A : IntMatrix n) :
    (∀ i j, matrixA ((sequentialBlock n).exec (buffers C A)) i j = 0 ∨
      matrixA ((sequentialBlock n).exec (buffers C A)) i j = 1) ∧
    (∀ i j, matrixA ((sequentialBlock n).exec (buffers C A)) i j = 1 ↔
      Relation.TransGen (fun u v => C u v ≠ 0) i j) ∧
    ∀ x y, .note (x, y) ∈ (sequentialBlock n).trace (buffers C A) → ProductFits x y := by
  obtain ⟨hpasses, hnotes⟩ := passes_sequentialBlock C A
  have hentry := hpasses.eq_one_iff List.mem_finRange
  exact ⟨fun i j => (hentry i j).1, fun i j => (hentry i j).2, hnotes⟩

end UnoApi.TransitiveClosure
