import UnoApi.DataParallel.SingleWriter
import UnoApi.Machine.IntProduct

/-!
# Warshall's procedure

The program reads an adjacency matrix `C` of `int` entries, copies it to `A` and
updates `A` in place, once for every pivot `k`.  The sequential block nests
loops; the parallel block submits the copy and one kernel for each pivot to an
in-order queue, with a work item for every entry.
-/

namespace UnoApi.TransitiveClosure

open UnoApi.DataParallel UnoApi.Machine

inductive Buffer where
  | C
  | A
  deriving DecidableEq

abbrev Cell (n : Nat) := Buffer × Fin n × Fin n

abbrev IntMatrix (n : Nat) := Fin n → Fin n → Int32

abbrev Factors := Int32 × Int32

variable {n : Nat}

def copyEntry (index : Fin n × Fin n) : WorkItem (Cell n) Int32 Factors :=
  .read (.C, index) fun v => .write (.A, index) v .done

/-- `A[i][j] = A[i][j] || A[i][k] * A[k][j]`. -/
def updateEntry (k : Fin n) (index : Fin n × Fin n) : WorkItem (Cell n) Int32 Factors :=
  .read (.A, index) fun a =>
    -- `||` evaluates the product only when the entry is zero; its factors may be read in
    -- either order, and no result below depends on which comes first
    if a ≠ 0 then .write (.A, index) 1 .done
    else
      .read (.A, index.1, k) fun x =>
        .read (.A, k, index.2) fun y =>
          .note (x, y) (.write (.A, index) (if x * y ≠ 0 then 1 else 0) .done)

def sequentialBlock (n : Nat) : WorkItem (Cell n) Int32 Factors :=
  .forEach (List.finRange n)
    (fun i => .forEach (List.finRange n) (fun j => copyEntry (i, j)) .done)
    (.forEach (List.finRange n)
      (fun k => .forEach (List.finRange n)
        (fun i => .forEach (List.finRange n) (fun j => updateEntry k (i, j)) .done) .done)
      .done)

def parallelBlock (n : Nat) : List (Fin n × Fin n → WorkItem (Cell n) Int32 Factors) :=
  copyEntry :: (List.finRange n).map updateEntry

def buffers (C A : IntMatrix n) : Cell n → Int32
  | (.C, i, j) => C i j
  | (.A, i, j) => A i j

def matrixA (m : Cell n → Int32) : IntMatrix n := fun i j => m (.A, i, j)

def own (index : Fin n × Fin n) : Cell n := (.A, index)

theorem own_injective : Function.Injective (own : Fin n × Fin n → Cell n) := fun _ _ h =>
  (Prod.ext_iff.mp h).2

theorem isolated_copyEntry :
    Isolated (copyEntry : Fin n × Fin n → _) (fun index => {(.C, index)})
      fun index => {own index} := by
  apply Isolated.of_own own_injective
  · exact fun _ => ⟨rfl, fun _ => ⟨rfl, trivial⟩⟩
  · intro p q _ h
    simp [own] at h

theorem matrixA_of_copy {m m' : Cell n → Int32}
    {tr : List ((Fin n × Fin n) × Access (Cell n) Int32 Factors)}
    (hrun : Completes copyEntry m tr m') : matrixA m' = fun i j => m (.C, i, j) := by
  ext i j : 2
  have hentry := isolated_copyEntry.memory_eq hrun (i, j) (Set.mem_singleton (own (i, j)))
  simpa [matrixA, own, copyEntry] using hentry

theorem no_note_of_copy {m m' : Cell n → Int32}
    {tr : List ((Fin n × Fin n) × Access (Cell n) Int32 Factors)}
    (hrun : Completes copyEntry m tr m') (index : Fin n × Fin n) (e : Factors) :
    (index, .note e) ∉ tr := by
  rw [← mem_accessesOf, isolated_copyEntry.accessesOf_eq hrun]
  simp [copyEntry]

theorem singleWriter_updateEntry (k : Fin n) : SingleWriter (updateEntry k) own where
  injective := own_injective
  endsAt index a := by
    dsimp only
    split
    · exact ⟨rfl, rfl⟩
    · exact fun _ _ => ⟨rfl, rfl⟩

theorem yields_updateEntry {view : Cell n → Int32 → Prop} {k : Fin n} {i j : Fin n}
    {es : List Factors} {r : Int32} (h : (updateEntry k (i, j)).Yields view es r) :
    ∃ a, view (.A, i, j) a ∧
      ((a ≠ 0 ∧ es = [] ∧ r = 1) ∨
        (a = 0 ∧ ∃ x y, view (.A, i, k) x ∧ view (.A, k, j) y ∧ es = [(x, y)] ∧
          r = if x * y ≠ 0 then 1 else 0)) := by
  cases h with | @read _ _ a _ _ ha h =>
  refine ⟨a, ha, ?_⟩
  dsimp only at h
  split at h
  · rename_i hne
    cases h
    exact .inl ⟨hne, rfl, rfl⟩
  · rename_i hzero
    cases h with | @read _ _ x _ _ hx h =>
    cases h with | @read _ _ y _ _ hy h =>
    cases h with | note h =>
    cases h
    exact .inr ⟨not_not.mp hzero, x, y, hx, hy, rfl, rfl⟩

/-! ## Row-major order -/

def rowMajor (n : Nat) : List (Fin n × Fin n) := List.finRange n ×ˢ List.finRange n

theorem mem_rowMajor (index : Fin n × Fin n) : index ∈ rowMajor n :=
  List.mem_product.mpr ⟨List.mem_finRange _, List.mem_finRange _⟩

theorem rowMajor_nodup (n : Nat) : (rowMajor n).Nodup :=
  (List.nodup_finRange n).product (List.nodup_finRange n)

def Precedes (p q : Fin n × Fin n) : Prop := p.1 < q.1 ∨ (p.1 = q.1 ∧ p.2 < q.2)

theorem product_pairwise {rows : List (Fin n)} (hrows : rows.Pairwise (· < ·)) :
    (rows ×ˢ List.finRange n).Pairwise Precedes := by
  induction rows with
  | nil => exact List.Pairwise.nil
  | cons i rows ih =>
      obtain ⟨hi, hrows⟩ := List.pairwise_cons.mp hrows
      rw [List.product_cons, List.pairwise_append]
      refine ⟨?_, ih hrows, ?_⟩
      · apply List.pairwise_map.mpr
        exact (List.pairwise_lt_finRange n).imp fun h => .inr ⟨rfl, h⟩
      · intro p hp q hq
        obtain ⟨j, -, rfl⟩ := List.mem_map.mp hp
        exact .inl (hi q.1 (List.mem_product.mp hq).1)

theorem rowMajor_pairwise (n : Nat) : (rowMajor n).Pairwise Precedes :=
  product_pairwise (List.pairwise_lt_finRange n)

theorem mem_of_precedes {l l' : List (Fin n × Fin n)} {p q : Fin n × Fin n}
    (hsplit : rowMajor n = l ++ p :: l') (hq : Precedes q p) : q ∈ l := by
  have hmem := mem_rowMajor q
  have hpairwise := rowMajor_pairwise n
  rw [hsplit] at hmem hpairwise
  rcases List.mem_append.mp hmem with hmem | hmem
  · exact hmem
  · exfalso
    rcases List.mem_cons.mp hmem with rfl | hmem
    · unfold Precedes at hq
      omega
    · have hafter := (List.pairwise_cons.mp (List.pairwise_append.mp hpairwise).2.1).1 q hmem
      unfold Precedes at hq hafter
      omega

theorem sequentialBlock_eq (n : Nat) :
    sequentialBlock n =
      (WorkItem.forEach (rowMajor n) copyEntry .done).followedBy
        (.forEach (List.finRange n)
          (fun k => .forEach (rowMajor n) (updateEntry k) .done) .done) := by
  simp only [sequentialBlock, WorkItem.forEach_forEach, WorkItem.forEach_followedBy]
  rfl

end UnoApi.TransitiveClosure
