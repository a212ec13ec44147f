import UnoApi.DataParallel.Kernel
import Mathlib.Algebra.BigOperators.Fin
import Mathlib.Data.Finite.Prod
import Mathlib.Data.Rat.Defs
import Mathlib.Tactic.Ring

/-!
# Multiplication through a transpose

The device transposes `b` into `b_t` and multiplies `a` with it; the host multiplies
`a` and `b` in a triple loop to check the result.  `a` is `M` by `2 * M` and `b` is
`2 * M` by `4 * M`, and `float` is read as exact rationals.
-/

namespace UnoApi.MatrixMul

open UnoApi.DataParallel

variable {M : Nat}

inductive Cell (M : Nat) where
  | a (i : Fin M) (k : Fin (2 * M))
  | b (k : Fin (2 * M)) (j : Fin (4 * M))
  | bT (j : Fin (4 * M)) (k : Fin (2 * M))
  | c (i : Fin M) (j : Fin (4 * M))
  deriving DecidableEq

abbrev Item (M : Nat) := WorkItem (Cell M) ℚ Empty

/-- A row of `a` as a column of `b`, of which there are more. -/
def asColumn (row : Fin M) : Fin (4 * M) := Fin.castLE (by omega) row

/-! ## The device -/

/-- `b_t[row][col] = b[col][row]`, launched for `range(M, N)`. -/
def transposeItem (index : Fin M × Fin (2 * M)) : Item M :=
  .read (.b index.2 (asColumn index.1)) fun v => .write (.bT (asColumn index.1) index.2) v .done

def accumulate (row : Fin M) (sum : ℚ) : List (Fin (2 * M)) → (ℚ → Item M) → Item M
  | [], next => next sum
  | i :: rest, next =>
      .read (.a row i) fun x =>
        .read (.bT (asColumn row) i) fun y => accumulate row (sum + x * y) rest next

def multiplyItem (index : Fin M × Fin (4 * M)) : Item M :=
  accumulate index.1 0 (List.finRange (2 * M)) fun sum => .write (.c index.1 index.2) sum .done

/-! ## The host -/

def clearItem (index : Fin M × Fin (4 * M)) : Item M := .write (.c index.1 index.2) 0 .done

def hostStep (i : Fin M) (k : Fin (2 * M)) (j : Fin (4 * M)) : Item M :=
  .read (.c i j) fun sum =>
    .read (.a i k) fun x =>
      .read (.b k j) fun y => .write (.c i j) (sum + x * y) .done

def hostMultiply (M : Nat) : Item M :=
  .forEach (List.finRange M)
    (fun i => .forEach (List.finRange (4 * M)) (fun j => clearItem (i, j)) .done)
    (.forEach (List.finRange M)
      (fun i => .forEach (List.finRange (2 * M))
        (fun k => .forEach (List.finRange (4 * M)) (fun j => hostStep i k j) .done) .done)
      .done)

structure Holds (m : Cell M → ℚ) (a : Fin M → Fin (2 * M) → ℚ)
    (b : Fin (2 * M) → Fin (4 * M) → ℚ) : Prop where
  a : ∀ i k, m (.a i k) = a i k
  b : ∀ k j, m (.b k j) = b k j

/-! ## What the device computes -/

theorem exec_accumulate (row : Fin M) (is : List (Fin (2 * M))) (next : ℚ → Item M)
    (m : Cell M → ℚ) (sum : ℚ) :
    (accumulate row sum is next).exec m =
      (next (sum + (is.map fun i => m (.a row i) * m (.bT (asColumn row) i)).sum)).exec m := by
  induction is generalizing sum with
  | nil => simp [accumulate]
  | cons i is ih =>
      rw [accumulate, WorkItem.exec_read, WorkItem.exec_read, ih, List.map_cons, List.sum_cons,
        add_assoc]

theorem exec_multiplyItem (index : Fin M × Fin (4 * M)) (m : Cell M → ℚ) :
    (multiplyItem index).exec m =
      Function.update m (.c index.1 index.2)
        (∑ i, m (.a index.1 i) * m (.bT (asColumn index.1) i)) := by
  rw [multiplyItem, exec_accumulate, zero_add, ← Fin.sum_univ_def]
  rfl

theorem resultCell_injective :
    Function.Injective fun index : Fin M × Fin (4 * M) => Cell.c index.1 index.2 := by
  intro p q h
  have hindex : p.1 = q.1 ∧ p.2 = q.2 := by simpa using h
  exact Prod.ext hindex.1 hindex.2

def rowRead (row : Fin M) : Set (Cell M) :=
  {cell | ∃ i, cell = .a row i ∨ cell = .bT (asColumn row) i}

theorem within_accumulate (row : Fin M) {W : Set (Cell M)} {next : ℚ → Item M}
    (hnext : ∀ sum, (next sum).Within (rowRead row) W) (is : List (Fin (2 * M))) (sum : ℚ) :
    (accumulate row sum is next).Within (rowRead row) W := by
  induction is generalizing sum with
  | nil => exact hnext sum
  | cons i is ih => exact ⟨⟨i, .inl rfl⟩, fun x => ⟨⟨i, .inr rfl⟩, fun y => ih _⟩⟩

theorem isolated_multiplyItem :
    Isolated (multiplyItem : Fin M × Fin (4 * M) → Item M) (fun index => rowRead index.1)
      fun index => {.c index.1 index.2} := by
  apply Isolated.of_own
  · exact resultCell_injective
  · intro index
    have hlast : ∀ sum, (WorkItem.write (.c index.1 index.2) sum .done : Item M).Within
        (rowRead index.1) {.c index.1 index.2} := fun _ => ⟨rfl, trivial⟩
    exact within_accumulate index.1 hlast _ 0
  · intro p q _ hread
    obtain ⟨i, h | h⟩ := hread
    · cases h
    · cases h

theorem asColumn_injective : Function.Injective (asColumn : Fin M → Fin (4 * M)) :=
  Fin.castLE_injective (by omega)

theorem isolated_transposeItem :
    Isolated (transposeItem : Fin M × Fin (2 * M) → Item M)
      (fun index => {.b index.2 (asColumn index.1)})
      fun index => {.bT (asColumn index.1) index.2} := by
  apply Isolated.of_own
  · intro p q h
    have hindex : asColumn p.1 = asColumn q.1 ∧ p.2 = q.2 := by simpa using h
    exact Prod.ext (asColumn_injective hindex.1) hindex.2
  · exact fun _ => ⟨rfl, fun _ => ⟨rfl, trivial⟩⟩
  · intro p q _ h
    simp at h

section

variable {m m₁ m₂ : Cell M → ℚ}
  {tr : List ((Fin M × Fin (2 * M)) × Access (Cell M) ℚ Empty)}
  {tr' : List ((Fin M × Fin (4 * M)) × Access (Cell M) ℚ Empty)}

theorem transpose_bT (htranspose : Completes transposeItem m tr m₁) (row : Fin M)
    (k : Fin (2 * M)) : m₁ (.bT (asColumn row) k) = m (.b k (asColumn row)) := by
  have hcell := isolated_transposeItem.memory_eq htranspose (row, k) rfl
  simpa [transposeItem] using hcell

theorem transpose_frame (htranspose : Completes transposeItem m tr m₁) {cell : Cell M}
    (hcell : ∀ j k, cell ≠ .bT j k) : m₁ cell = m cell :=
  isolated_transposeItem.memory_frame htranspose fun _ h => hcell _ _ h

/-- The device multiplies row `i` of `a` with column `i` of `b`, whatever the column of
the result. -/
theorem device_c (htranspose : Completes transposeItem m tr m₁)
    (hmultiply : Completes multiplyItem m₁ tr' m₂) (i : Fin M) (j : Fin (4 * M)) :
    m₂ (.c i j) = ∑ k, m (.a i k) * m (.b k (asColumn i)) := by
  calc
    m₂ (.c i j) = ∑ k, m₁ (.a i k) * m₁ (.bT (asColumn i) k) := by
      rw [isolated_multiplyItem.memory_eq hmultiply (i, j) rfl, exec_multiplyItem,
        Function.update_self]
    _ = ∑ k, m (.a i k) * m (.b k (asColumn i)) := by
      apply Finset.sum_congr rfl
      intro k _
      rw [transpose_bT htranspose, transpose_frame htranspose fun _ _ => by simp]

theorem bT_written (htranspose : Completes transposeItem m tr m₁)
    (hmultiply : Completes multiplyItem m₁ tr' m₂) {index : Fin M × Fin (4 * M)}
    {j : Fin (4 * M)} {k : Fin (2 * M)} {v : ℚ}
    (hread : (index, .read (.bT j k) v) ∈ tr') :
    ∃ index' w, (index', .write (.bT j k) w) ∈ tr := by
  have hmem := mem_accessesOf.mpr hread
  rw [isolated_multiplyItem.accessesOf_eq hmultiply] at hmem
  obtain ⟨i, hcell | hcell⟩ := (isolated_multiplyItem.within index).mem_trace m₁ hmem
  · cases hcell
  · cases hcell
    have hwrite : .write (.bT (asColumn index.1) k) (m (.b k (asColumn index.1))) ∈
        accessesOf (index.1, k) tr := by
      rw [isolated_transposeItem.accessesOf_eq htranspose]
      simp [transposeItem]
    exact ⟨(index.1, k), _, mem_accessesOf.mp hwrite⟩

end

/-! ## What the host computes -/

def hostTerms (m : Cell M → ℚ) (i : Fin M) (j : Fin (4 * M))
    (steps : List (Fin M × Fin (2 * M) × Fin (4 * M))) : ℚ :=
  (steps.map fun s => if s.1 = i ∧ s.2.2 = j then m (.a i s.2.1) * m (.b s.2.1 j) else 0).sum

theorem foldl_hostStep (steps : List (Fin M × Fin (2 * M) × Fin (4 * M))) (m : Cell M → ℚ) :
    (∀ i k, steps.foldl (fun m s => (hostStep s.1 s.2.1 s.2.2).exec m) m (.a i k) =
      m (.a i k)) ∧
    (∀ k j, steps.foldl (fun m s => (hostStep s.1 s.2.1 s.2.2).exec m) m (.b k j) =
      m (.b k j)) ∧
    ∀ i j, steps.foldl (fun m s => (hostStep s.1 s.2.1 s.2.2).exec m) m (.c i j) =
      m (.c i j) + hostTerms m i j steps := by
  induction steps generalizing m with
  | nil => simp [hostTerms]
  | cons s steps ih =>
      obtain ⟨i', k', j'⟩ := s
      obtain ⟨ha, hb, hc⟩ := ih ((hostStep i' k' j').exec m)
      have hexec : (hostStep i' k' j').exec m = Function.update m (.c i' j')
          (m (.c i' j') + m (.a i' k') * m (.b k' j')) := rfl
      have hterms (i j) : hostTerms ((hostStep i' k' j').exec m) i j steps =
          hostTerms m i j steps := by
        simp [hostTerms, hexec]
      refine ⟨?_, ?_, ?_⟩
      · intro i k
        rw [List.foldl_cons, ha, hexec, Function.update_of_ne (by simp)]
      · intro k j
        rw [List.foldl_cons, hb, hexec, Function.update_of_ne (by simp)]
      · intro i j
        rw [List.foldl_cons, hc, hterms, hexec]
        by_cases hij : i' = i ∧ j' = j
        · obtain ⟨rfl, rfl⟩ := hij
          simp [hostTerms, add_assoc]
        · have hne : (Cell.c i j) ≠ .c i' j' := fun heq => hij (by simpa [eq_comm] using heq)
          rw [Function.update_of_ne hne]
          simp [hostTerms, hij]

def hostSteps (M : Nat) : List (Fin M × Fin (2 * M) × Fin (4 * M)) :=
  List.finRange M ×ˢ (List.finRange (2 * M) ×ˢ List.finRange (4 * M))

theorem hostTerms_hostSteps (m : Cell M → ℚ) (i : Fin M) (j : Fin (4 * M)) :
    hostTerms m i j (hostSteps M) = ∑ k, m (.a i k) * m (.b k j) := by
  have hnodup : (hostSteps M).Nodup := (List.nodup_finRange _).product
    ((List.nodup_finRange _).product (List.nodup_finRange _))
  have hall : (hostSteps M).toFinset = Finset.univ :=
    Finset.eq_univ_of_forall fun s => List.mem_toFinset.mpr <| List.mem_product.mpr
      ⟨List.mem_finRange _, List.mem_product.mpr ⟨List.mem_finRange _, List.mem_finRange _⟩⟩
  have hinner (i' : Fin M) (k : Fin (2 * M)) :
      ∑ j', (if i' = i ∧ j' = j then m (.a i k) * m (.b k j) else 0) =
        if i' = i then m (.a i k) * m (.b k j) else 0 := by
    split <;> simp [*]
  calc
    hostTerms m i j (hostSteps M) = ∑ s : Fin M × Fin (2 * M) × Fin (4 * M),
        if s.1 = i ∧ s.2.2 = j then m (.a i s.2.1) * m (.b s.2.1 j) else 0 := by
      rw [hostTerms, ← List.sum_toFinset _ hnodup, hall]
    _ = ∑ i', ∑ k, if i' = i then m (.a i k) * m (.b k j) else 0 := by
      simp only [Fintype.sum_prod_type, hinner]
    _ = ∑ k, m (.a i k) * m (.b k j) := by
      rw [Finset.sum_comm]
      simp

theorem hostMultiply_eq (M : Nat) :
    hostMultiply M =
      (WorkItem.forEach (List.finRange M ×ˢ List.finRange (4 * M)) clearItem .done).followedBy
        (.forEach (hostSteps M) (fun s => hostStep s.1 s.2.1 s.2.2) .done) := by
  simp only [hostMultiply, WorkItem.forEach_forEach, WorkItem.forEach_followedBy]
  rfl

theorem isolated_clearItem :
    Isolated (clearItem : Fin M × Fin (4 * M) → Item M) (fun _ => ∅)
      fun index => {.c index.1 index.2} := by
  apply Isolated.of_own
  · exact resultCell_injective
  · exact fun _ => ⟨rfl, trivial⟩
  · exact fun _ _ _ => Set.notMem_empty _

theorem host_c (m : Cell M → ℚ) (i : Fin M) (j : Fin (4 * M)) :
    (hostMultiply M).exec m (.c i j) = ∑ k, m (.a i k) * m (.b k j) := by
  have hnodup : (List.finRange M ×ˢ List.finRange (4 * M)).Nodup :=
    (List.nodup_finRange _).product (List.nodup_finRange _)
  have hmem : (i, j) ∈ List.finRange M ×ˢ List.finRange (4 * M) :=
    List.mem_product.mpr ⟨List.mem_finRange i, List.mem_finRange j⟩
  obtain ⟨hclear, hframe, -⟩ := isolated_clearItem.inOrder hnodup m
  have hzero := hclear (i, j) hmem (.c i j) rfl
  have ha (k) := hframe (.a i k) fun _ _ h => by simp at h
  have hb (k) := hframe (.b k j) fun _ _ h => by simp at h
  rw [hostMultiply_eq, WorkItem.exec_followedBy, WorkItem.exec_forEach, WorkItem.exec_done,
    exec_forEach_done clearItem, (foldl_hostStep _ _).2.2, hostTerms_hostSteps, hzero]
  simp [ha, hb, clearItem]

/-! ## The comparison -/

/-- What the device should do for these factors: in every run the result is the matrix
product, the host computes the same from the same factors, and no element of `b_t` is
read that the transpose has not written. -/
def DeviceMultiplies (a : Fin M → Fin (2 * M) → ℚ) (b : Fin (2 * M) → Fin (4 * M) → ℚ) : Prop :=
  ∀ m, Holds m a b → ∀ tr m₁ tr' m₂, Completes transposeItem m tr m₁ →
    Completes multiplyItem m₁ tr' m₂ →
    (∀ i j, m₂ (.c i j) = ∑ k, a i k * b k j) ∧
    (∀ i j, m₂ (.c i j) = (hostMultiply M).exec m (.c i j)) ∧
    ∀ index j k v, (index, .read (.bT j k) v) ∈ tr' →
      ∃ index' w, (index', .write (.bT j k) w) ∈ tr

def load (a : Fin M → Fin (2 * M) → ℚ) (b : Fin (2 * M) → Fin (4 * M) → ℚ) : Cell M → ℚ
  | .a i k => a i k
  | .b k j => b k j
  | .bT _ _ => 0
  | .c _ _ => 0

/-- The device computes the product exactly when no row of `a` tells the column of `b`
with the number of the row from any other column. -/
theorem deviceMultiplies_iff (a : Fin M → Fin (2 * M) → ℚ) (b : Fin (2 * M) → Fin (4 * M) → ℚ) :
    DeviceMultiplies a b ↔ ∀ i j, ∑ k, a i k * (b k j - b k (asColumn i)) = 0 := by
  have hsplit (i j) : ∑ k, a i k * (b k j - b k (asColumn i)) = 0 ↔
      ∑ k, a i k * b k (asColumn i) = ∑ k, a i k * b k j := by
    simp only [mul_sub, Finset.sum_sub_distrib, sub_eq_zero]
    exact eq_comm
  simp only [hsplit]
  constructor
  · intro h i j
    have hload : Holds (load a b) a b := ⟨fun _ _ => rfl, fun _ _ => rfl⟩
    obtain ⟨tr, m₁, htranspose⟩ := exists_completes transposeItem (load a b)
    obtain ⟨tr', m₂, hmultiply⟩ := exists_completes multiplyItem m₁
    have hproduct := (h _ hload tr m₁ tr' m₂ htranspose hmultiply).1 i j
    rwa [device_c htranspose hmultiply] at hproduct
  · intro hcolumns m hm tr m₁ tr' m₂ htranspose hmultiply
    have hdevice (i j) : m₂ (.c i j) = ∑ k, a i k * b k j := by
      rw [device_c htranspose hmultiply, ← hcolumns i j]
      simp only [hm.a, hm.b]
    have hhost (i j) : m₂ (.c i j) = (hostMultiply M).exec m (.c i j) := by
      rw [hdevice, host_c]
      simp only [hm.a, hm.b]
    exact ⟨hdevice, hhost, fun _ _ _ _ hread => bT_written htranspose hmultiply hread⟩

/-- For `M = 1` with ones in `a` and column numbers in `b` the product has 2 in column 1,
and the device leaves 0 there. -/
theorem not_deviceMultiplies_columns :
    ¬DeviceMultiplies (fun _ _ => 1 : Fin 1 → Fin (2 * 1) → ℚ) fun _ j => (j.val : ℚ) := by
  intro h
  have hload : Holds (load (fun _ _ => 1 : Fin 1 → Fin (2 * 1) → ℚ) fun _ j => (j.val : ℚ)) _ _ :=
    ⟨fun _ _ => rfl, fun _ _ => rfl⟩
  obtain ⟨tr, m₁, htranspose⟩ := exists_completes transposeItem _
  obtain ⟨tr', m₂, hmultiply⟩ := exists_completes multiplyItem m₁
  have hproduct := (h _ hload tr m₁ tr' m₂ htranspose hmultiply).1 0 1
  rw [device_c htranspose hmultiply] at hproduct
  simp [load, asColumn] at hproduct

end UnoApi.MatrixMul
