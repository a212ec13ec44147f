import UnoApi.TransitiveClosure.Sequential
import Mathlib.Data.Finite.Prod

/-!
# The parallel block

The work items of one kernel read entries that other items of the kernel are
writing.  With zeros and ones in `C` the outcome does not depend on which value
they get.  With arbitrary `int` entries the kernel for pivot 0 may multiply
entries of `C` itself, and then it does what it should exactly when those
products fit.
-/

namespace UnoApi.TransitiveClosure

open UnoApi.DataParallel UnoApi.Machine

variable {n : Nat}

/-! ## Choosing what each look-up returns -/

/-- Which factors a work item looks up after their entry got its new value. -/
structure ReadChoice where
  leftIsNew : Bool
  rightIsNew : Bool

/-- What the work item of `reader` gets for `A[i][j]`; its own entry is still old, since
an item writes after it has read. -/
def lookUp (A A' : IntMatrix n) (reader : Fin n × Fin n) (isNew : Bool) (i j : Fin n) : Int32 :=
  if isNew ∧ (i, j) ≠ reader then A' i j else A i j

def ChoiceKernel (k : Fin n) (choice : Fin n × Fin n → ReadChoice) (A A' : IntMatrix n) : Prop :=
  ∀ i j, A' i j = orProduct (A i j) (lookUp A A' (i, j) (choice (i, j)).leftIsNew i k)
    (lookUp A A' (i, j) (choice (i, j)).rightIsNew k j)

inductive ChoiceRun (choice : Fin n → Fin n × Fin n → ReadChoice) :
    List (Fin n) → IntMatrix n → IntMatrix n → Prop where
  | nil (A : IntMatrix n) : ChoiceRun choice [] A A
  | cons {k : Fin n} {ks : List (Fin n)} {A A₁ A' : IntMatrix n}
      (hkernel : ChoiceKernel k (choice k) A A₁) (hrest : ChoiceRun choice ks A₁ A') :
      ChoiceRun choice (k :: ks) A A'

theorem lookUp_cases (A A' : IntMatrix n) (reader : Fin n × Fin n) (isNew : Bool)
    (i j : Fin n) :
    lookUp A A' reader isNew i j = A i j ∨
      ((i, j) ≠ reader ∧ lookUp A A' reader isNew i j = A' i j) := by
  unfold lookUp
  split
  · rename_i hnew
    exact .inr ⟨hnew.2, rfl⟩
  · exact .inl rfl

theorem ChoiceKernel.inPlacePass {k : Fin n} {choice : Fin n × Fin n → ReadChoice}
    {A A' : IntMatrix n} (h : ChoiceKernel k choice A A') :
    ∃ factors, InPlacePass k A A' factors := by
  refine ⟨fun index => factorsOf (A index.1 index.2)
    (lookUp A A' index (choice index).leftIsNew index.1 k)
    (lookUp A A' index (choice index).rightIsNew k index.2), ?_⟩
  intro i j
  refine ⟨_, _, ?_, ?_, h i j, rfl⟩
  · exact (lookUp_cases _ _ _ _ _ _).imp id fun hnew =>
      ⟨fun heq => hnew.1 (by rw [heq]), hnew.2⟩
  · exact (lookUp_cases _ _ _ _ _ _).imp id fun hnew =>
      ⟨fun heq => hnew.1 (by rw [heq]), hnew.2⟩

theorem exists_lookUp {A A' : IntMatrix n} {reader : Fin n × Fin n} {i j : Fin n} {x : Int32}
    (h : x = A i j ∨ ((i, j) ≠ reader ∧ x = A' i j)) :
    ∃ isNew, x = lookUp A A' reader isNew i j := by
  rcases h with h | ⟨hne, h⟩
  · exact ⟨false, by simp [lookUp, h]⟩
  · exact ⟨true, by simp [lookUp, hne, h]⟩

theorem exists_choice_of_completes {k : Fin n} {m m' : Cell n → Int32}
    {tr : List ((Fin n × Fin n) × Access (Cell n) Int32 Factors)}
    (hrun : Completes (updateEntry k) m tr m') :
    ∃ choice, ChoiceKernel k choice (matrixA m) (matrixA m') := by
  have hchoice : ∀ index : Fin n × Fin n, ∃ c : ReadChoice,
      matrixA m' index.1 index.2 = orProduct (matrixA m index.1 index.2)
        (lookUp (matrixA m) (matrixA m') index c.leftIsNew index.1 k)
        (lookUp (matrixA m) (matrixA m') index c.rightIsNew k index.2) := by
    intro index
    obtain ⟨i, j⟩ := index
    obtain ⟨x, y, hx, hy, hnew, -⟩ := inPlacePass_of_completes hrun i j
    have hleft : (i, k) = (i, j) → j = k := fun heq => (Prod.ext_iff.mp heq).2.symm
    have hright : (k, j) = (i, j) → i = k := fun heq => (Prod.ext_iff.mp heq).1.symm
    obtain ⟨leftIsNew, hx⟩ := exists_lookUp (hx.imp_right (And.imp_left (mt hleft)))
    obtain ⟨rightIsNew, hy⟩ := exists_lookUp (hy.imp_right (And.imp_left (mt hright)))
    refine ⟨⟨leftIsNew, rightIsNew⟩, ?_⟩
    rw [← hx, ← hy]
    exact hnew
  choose choice hchoice using hchoice
  exact ⟨choice, fun i j => hchoice (i, j)⟩

theorem ChoiceRun.congr {choice choice' : Fin n → Fin n × Fin n → ReadChoice} {ks : List (Fin n)}
    {A A' : IntMatrix n} (h : ChoiceRun choice ks A A') (hks : ∀ k ∈ ks, choice k = choice' k) :
    ChoiceRun choice' ks A A' := by
  induction h with
  | nil A => exact .nil A
  | @cons k ks _ _ _ hkernel _ ih =>
      rw [hks k (by simp)] at hkernel
      exact .cons hkernel (ih fun k' hk' => hks k' (by simp [hk']))

/-- The choices cover every interleaving of the queue. -/
theorem exists_choiceRun_of_queueRun {ks : List (Fin n)} (hnodup : ks.Nodup) {m m' : Cell n → Int32}
    {tr : List ((Fin n × Fin n) × Access (Cell n) Int32 Factors)}
    (hrun : QueueRun (ks.map updateEntry) m tr m') :
    ∃ choice, ChoiceRun choice ks (matrixA m) (matrixA m') := by
  induction ks generalizing m tr with
  | nil =>
      cases hrun
      exact ⟨fun _ _ => ⟨false, false⟩, .nil _⟩
  | cons k ks ih =>
      obtain ⟨hk, hnodup⟩ := List.nodup_cons.mp hnodup
      rw [List.map_cons] at hrun
      cases hrun with | @cons _ _ _ m₁ _ _ _ hfirst hrest =>
      obtain ⟨first, hkernel⟩ := exists_choice_of_completes hfirst
      obtain ⟨choice, hchoice⟩ := ih hnodup hrest
      have hlater : ∀ k' ∈ ks, choice k' = Function.update choice k first k' := by
        intro k' hk'
        have hne : k' ≠ k := fun heq => hk (heq ▸ hk')
        rw [Function.update_of_ne hne]
      have hkernel' :
          ChoiceKernel k (Function.update choice k first k) (matrixA m) (matrixA m₁) := by
        rw [Function.update_self]
        exact hkernel
      exact ⟨Function.update choice k first, .cons hkernel' (hchoice.congr hlater)⟩

def oldPass (k : Fin n) (A : IntMatrix n) : IntMatrix n := fun i j =>
  orProduct (A i j) (A i k) (A k j)

section

variable {A : IntMatrix n} (hA : Binary A) (k : Fin n)

include hA

theorem oldPass_ne_zero (i j : Fin n) :
    oldPass k A i j ≠ 0 ↔ A i j ≠ 0 ∨ (A i k ≠ 0 ∧ A k j ≠ 0) := by
  rw [oldPass, orProduct_ne_zero, ((hA i k).productFits_left _).mul_ne_zero_iff]

theorem lookUp_column (reader : Fin n × Fin n) (isNew : Bool) (i : Fin n) :
    IsBit (lookUp A (oldPass k A) reader isNew i k) ∧
      (lookUp A (oldPass k A) reader isNew i k ≠ 0 ↔ A i k ≠ 0) := by
  rcases lookUp_cases A (oldPass k A) reader isNew i k with h | ⟨-, h⟩
  · rw [h]
    exact ⟨hA i k, Iff.rfl⟩
  · rw [h, oldPass_ne_zero hA]
    exact ⟨orProduct_isBit _ _ _, fun h => h.elim id And.left, Or.inl⟩

theorem lookUp_row (reader : Fin n × Fin n) (isNew : Bool) (j : Fin n) :
    lookUp A (oldPass k A) reader isNew k j ≠ 0 ↔ A k j ≠ 0 := by
  rcases lookUp_cases A (oldPass k A) reader isNew k j with h | ⟨-, h⟩
  · rw [h]
  · rw [h, oldPass_ne_zero hA]
    exact ⟨fun h => h.elim id And.right, Or.inl⟩

theorem choiceKernel_oldPass (choice : Fin n × Fin n → ReadChoice) :
    ChoiceKernel k choice A (oldPass k A) := by
  intro i j
  obtain ⟨hbit, hleft⟩ := lookUp_column hA k (i, j) (choice (i, j)).leftIsNew i
  have hright := lookUp_row hA k (i, j) (choice (i, j)).rightIsNew j
  refine orProduct_congr ?_
  rw [(hbit.productFits_left _).mul_ne_zero_iff, hleft, hright,
    ((hA i k).productFits_left _).mul_ne_zero_iff]

end

theorem exists_choiceRun (choice : Fin n → Fin n × Fin n → ReadChoice) (ks : List (Fin n))
    {A : IntMatrix n} (hA : Binary A) : ∃ A', ChoiceRun choice ks A A' := by
  induction ks generalizing A with
  | nil => exact ⟨A, .nil A⟩
  | cons k ks ih =>
      have hkernel := choiceKernel_oldPass hA k (choice k)
      obtain ⟨factors, hpass⟩ := hkernel.inPlacePass
      obtain ⟨A', hrest⟩ := ih hpass.binary
      exact ⟨A', .cons hkernel hrest⟩

theorem ChoiceRun.passes {choice : Fin n → Fin n × Fin n → ReadChoice} {ks : List (Fin n)}
    {A A' : IntMatrix n} (h : ChoiceRun choice ks A A') (hA : Binary A) : Passes ks A A' := by
  induction h with
  | nil A => exact .nil A
  | cons hkernel _ ih =>
      obtain ⟨factors, hpass⟩ := hkernel.inPlacePass
      exact .cons hpass (hpass.allFit (hA.safe _)) (ih hpass.binary)

/-! ## The queue -/

/-- The kernels of the queue are in-place passes without overflow, whatever the
interleaving, when the first of them starts on products that fit. -/
theorem passes_of_queueRun {ks : List (Fin n)} {m m' : Cell n → Int32}
    {tr : List ((Fin n × Fin n) × Access (Cell n) Int32 Factors)}
    (hrun : QueueRun (ks.map updateEntry) m tr m')
    (hsafe : ∀ k ∈ ks.head?, Safe k (matrixA m)) :
    Passes ks (matrixA m) (matrixA m') ∧
      ∀ index x y, (index, .note (x, y)) ∈ tr → ProductFits x y := by
  induction ks generalizing m tr with
  | nil =>
      cases hrun
      exact ⟨.nil _, by simp⟩
  | cons k ks ih =>
      rw [List.map_cons] at hrun
      cases hrun with | cons hfirst hrest =>
      have hpass := inPlacePass_of_completes hfirst
      have hfit := hpass.allFit (hsafe k (by simp))
      obtain ⟨hpasses, hnotes⟩ := ih hrest fun k' _ => hpass.binary.safe k'
      refine ⟨.cons hpass hfit hpasses, ?_⟩
      intro index x y hmem
      rcases List.mem_append.mp hmem with hmem | hmem
      · exact hfit index (x, y) (mem_notesOf.mpr hmem)
      · exact hnotes index x y hmem

theorem passes_parallelBlock {C A : IntMatrix n} {m' : Cell n → Int32}
    {tr : List ((Fin n × Fin n) × Access (Cell n) Int32 Factors)}
    (hrun : QueueRun (parallelBlock n) (buffers C A) tr m')
    (hsafe : ∀ k : Fin n, k.val = 0 → Safe k C) :
    Passes (List.finRange n) C (matrixA m') ∧
      ∀ index x y, (index, .note (x, y)) ∈ tr → ProductFits x y := by
  cases hrun with | @cons _ _ _ m₁ _ _ _ hcopy hrest =>
  have hC : matrixA m₁ = C := matrixA_of_copy hcopy
  have hfirst : ∀ k ∈ (List.finRange n).head?, Safe k (matrixA m₁) := by
    rw [hC]
    cases n with
    | zero => simp
    | succ n =>
        intro k hk
        exact hsafe k (by simpa [List.finRange_succ, eq_comm] using hk)
  obtain ⟨hpasses, hnotes⟩ := passes_of_queueRun hrest hfirst
  rw [hC] at hpasses
  refine ⟨hpasses, ?_⟩
  intro index x y hmem
  rcases List.mem_append.mp hmem with hmem | hmem
  · exact absurd hmem (no_note_of_copy hcopy index (x, y))
  · exact hnotes index x y hmem

/-- With zeros and ones in `C` the parallel block gives what the sequential block
gives, the transitive closure: whichever values the look-ups of every kernel
return, and in every interleaving of the queue. -/
theorem parallelBlock_closure (C : IntMatrix n) (hC : Binary C) (A : IntMatrix n) :
    (∀ tr m₁, Completes copyEntry (buffers C A) tr m₁ → ∀ choice,
      (∃ A', ChoiceRun choice (List.finRange n) (matrixA m₁) A') ∧
      ∀ A', ChoiceRun choice (List.finRange n) (matrixA m₁) A' →
        A' = matrixA ((sequentialBlock n).exec (buffers C A)) ∧
        ∀ i j, A' i j = 1 ↔ Relation.TransGen (fun u v => C u v ≠ 0) i j) ∧
    (∃ tr m', QueueRun (parallelBlock n) (buffers C A) tr m') ∧
    ∀ tr m', QueueRun (parallelBlock n) (buffers C A) tr m' →
      matrixA m' = matrixA ((sequentialBlock n).exec (buffers C A)) := by
  have hall : ∀ k : Fin n, k ∈ List.finRange n := List.mem_finRange
  obtain ⟨hsequential, -⟩ := passes_sequentialBlock C A
  have hunique : ∀ choice A', ChoiceRun choice (List.finRange n) C A' →
      A' = matrixA ((sequentialBlock n).exec (buffers C A)) ∧
      ∀ i j, A' i j = 1 ↔ Relation.TransGen (fun u v => C u v ≠ 0) i j := by
    intro choice A' hrun
    have hpasses := hrun.passes hC
    exact ⟨hpasses.unique hsequential hall hall rfl, fun i j => (hpasses.eq_one_iff hall i j).2⟩
  refine ⟨?_, exists_queueRun _ _, ?_⟩
  · intro tr m₁ hcopy choice
    have hstart : matrixA m₁ = C := matrixA_of_copy hcopy
    rw [hstart]
    exact ⟨exists_choiceRun choice _ hC, hunique choice⟩
  · intro tr m' hrun
    cases hrun with | @cons _ _ _ m₁ _ _ _ hcopy hrest =>
    have hstart : matrixA m₁ = C := matrixA_of_copy hcopy
    -- an interleaving is a run with some choice of what the look-ups return
    obtain ⟨choice, hchoice⟩ := exists_choiceRun_of_queueRun (List.nodup_finRange n) hrest
    rw [hstart] at hchoice
    exact (hunique choice _ hchoice).1

theorem parallelBlock_closure_cycle :
    (∃ tr m', QueueRun (parallelBlock 2)
      (buffers (fun i j => if i = j then 0 else 1) fun _ _ => 7) tr m') ∧
    ∀ tr m', QueueRun (parallelBlock 2)
        (buffers (fun i j => if i = j then 0 else 1) fun _ _ => 7) tr m' →
      ∀ i j, matrixA m' i j = 1 := by
  have hbits : ∀ i j : Fin 2, IsBit (if i = j then 0 else 1) := by decide
  have hclosure := parallelBlock_closure (fun i j => if i = j then 0 else 1) hbits fun _ _ => 7
  have hsequential : ∀ i j, matrixA ((sequentialBlock 2).exec
      (buffers (fun i j => if i = j then 0 else 1) fun _ _ => 7)) i j = 1 := by decide
  refine ⟨hclosure.2.1, ?_⟩
  intro tr m' hrun i j
  rw [hclosure.2.2 tr m' hrun]
  exact hsequential i j

/-! ## Entries that are not zero or one -/

/-- What the parallel block should do on `C`: no product it evaluates overflows, no
product of nonzero entries is taken for zero, and it marks the pairs the sequential
block marks. -/
def MarksLikeSequential (C : IntMatrix n) : Prop :=
  ∀ A tr m', QueueRun (parallelBlock n) (buffers C A) tr m' →
    (∀ index x y, (index, .note (x, y)) ∈ tr →
      ProductFits x y ∧ (x ≠ 0 → y ≠ 0 → x * y ≠ 0)) ∧
    ∀ i j, matrixA m' i j ≠ 0 ↔ matrixA ((sequentialBlock n).exec (buffers C A)) i j ≠ 0

theorem exists_order_head (index : Fin n × Fin n) :
    ∃ order, (index :: order).Nodup ∧ ∀ p, p ∈ index :: order := by
  refine ⟨(rowMajor n).erase index, ?_, ?_⟩
  · exact List.nodup_cons.mpr ⟨(rowMajor_nodup n).not_mem_erase, (rowMajor_nodup n).erase _⟩
  · intro p
    by_cases heq : p = index
    · simp [heq]
    · exact List.mem_cons_of_mem _ ((List.mem_erase_of_ne heq).mpr (mem_rowMajor p))

/-- When the work item of `i, j` is the first of its kernel, it multiplies entries
of `C`. -/
theorem exists_queueRun_note {C : IntMatrix n} (A : IntMatrix n) {k : Fin n} (hk : k.val = 0)
    {i j : Fin n} (hzero : C i j = 0) :
    ∃ tr m', QueueRun (parallelBlock n) (buffers C A) tr m' ∧
      ((i, j), .note (C i k, C k j)) ∈ tr := by
  obtain ⟨tr₀, m₁, hcopy⟩ := exists_completes copyEntry (buffers C A)
  have hC : matrixA m₁ = C := matrixA_of_copy hcopy
  obtain ⟨ks, hks⟩ : ∃ ks, List.finRange n = k :: ks := by
    cases n with
    | zero => exact k.elim0
    | succ n =>
        obtain rfl : k = 0 := Fin.ext hk
        exact ⟨_, List.finRange_succ⟩
  obtain ⟨order, hnodup, hmem⟩ := exists_order_head (i, j)
  have hkernel := completes_inOrder (updateEntry k) hnodup hmem m₁
  obtain ⟨tr', m', hrest⟩ := exists_queueRun (ks.map updateEntry)
    (inOrder (updateEntry k) ((i, j) :: order) m₁)
  have hrun := QueueRun.cons hcopy (.cons hkernel hrest)
  have hentry : m₁ (.A, i, j) = 0 := (congrFun₂ hC i j).trans hzero
  have hleft : m₁ (.A, i, k) = C i k := congrFun₂ hC i k
  have hright : m₁ (.A, k, j) = C k j := congrFun₂ hC k j
  have hnote : Access.note (C i k, C k j) ∈ (updateEntry k (i, j)).trace m₁ := by
    simp [updateEntry, hentry, hleft, hright]
  refine ⟨_, m', by rwa [parallelBlock, hks, List.map_cons], ?_⟩
  apply List.mem_append_right
  apply List.mem_append_left
  rw [inOrderTrace]
  exact List.mem_append_left _ (List.mem_map.mpr ⟨_, hnote, rfl⟩)

/-- The parallel block marks what the sequential block marks, without overflow and in
every interleaving, exactly when the products of entries of `C` that the kernel for
pivot 0 may evaluate fit in an `int`. -/
theorem marksLikeSequential_iff (C : IntMatrix n) :
    MarksLikeSequential C ↔
      ∀ k i j : Fin n, k.val = 0 → C i j = 0 → ProductFits (C i k) (C k j) := by
  constructor
  · intro h k i j hk hzero
    obtain ⟨tr, m', hrun, hnote⟩ := exists_queueRun_note (fun _ _ => 0) hk hzero
    exact ((h _ tr m' hrun).1 _ _ _ hnote).1
  · intro hsafe A tr m' hrun
    obtain ⟨hpasses, hnotes⟩ := passes_parallelBlock hrun fun k hk i j => hsafe k i j hk
    constructor
    · intro index x y hmem
      have hfits := hnotes index x y hmem
      exact ⟨hfits, fun hx hy => hfits.mul_ne_zero_iff.mpr ⟨hx, hy⟩⟩
    · intro i j
      have hall : ∀ k : Fin n, k ∈ List.finRange n := List.mem_finRange
      rw [hpasses.unique (passes_sequentialBlock C A).1 hall hall rfl]

/-- Two vertices with edges of weight 65536 between them.  The kernel for pivot 0 may
come to the entry 1, 1 first and multiply 65536 by itself; the product wraps to zero
and the entry stays unmarked. -/
theorem not_marksLikeSequential_heavy :
    ¬MarksLikeSequential fun i j : Fin 2 => if i = j then 0 else 65536 := by
  intro h
  let m : Cell 2 → Int32 := buffers (fun i j => if i = j then 0 else 65536) fun _ _ => 0
  have hrows (k : Fin 2) (m : Cell 2 → Int32) :=
    completes_inOrder (updateEntry k) (rowMajor_nodup 2) mem_rowMajor m
  have hfirst : ([(1, 1), (0, 0), (0, 1), (1, 0)] : List (Fin 2 × Fin 2)).Nodup := by decide
  have hrun := QueueRun.cons (completes_inOrder copyEntry (rowMajor_nodup 2) mem_rowMajor m)
    (.cons (completes_inOrder (updateEntry 0) hfirst (by decide) _)
      (.cons (hrows 1 _) (.nil _)))
  have hmarks := (h _ _ _ hrun).2 1 1
  revert hmarks
  decide

end UnoApi.TransitiveClosure
