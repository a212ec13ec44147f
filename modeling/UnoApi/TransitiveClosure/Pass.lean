import UnoApi.Graph.Pivot
import UnoApi.TransitiveClosure.Warshall

/-!
# One pivot

`InPlacePass k A A'` holds when `A'` results from updating every entry of `A` for
pivot `k`, where each update sees the entries of row and column `k` before or
after their own update.  As long as no product overflows, such a pass adds the
pivot `k` to the edges of the matrix and leaves zeros and ones.
-/

namespace UnoApi.TransitiveClosure

open UnoApi.DataParallel UnoApi.Machine UnoApi.Graph

variable {n : Nat}

def Edges (A : IntMatrix n) (u v : Fin n) : Prop := A u v ≠ 0

def Binary (A : IntMatrix n) : Prop := ∀ i j, IsBit (A i j)

def orProduct (a x y : Int32) : Int32 := if a ≠ 0 ∨ x * y ≠ 0 then 1 else 0

theorem orProduct_isBit (a x y : Int32) : IsBit (orProduct a x y) := by
  unfold orProduct
  split
  · exact .inr rfl
  · exact .inl rfl

theorem orProduct_ne_zero {a x y : Int32} : orProduct a x y ≠ 0 ↔ a ≠ 0 ∨ x * y ≠ 0 := by
  unfold orProduct
  split <;> simp_all

theorem orProduct_congr {a x y x' y' : Int32} (h : x * y ≠ 0 ↔ x' * y' ≠ 0) :
    orProduct a x y = orProduct a x' y' := by
  simp only [orProduct, h]

def factorsOf (a x y : Int32) : List Factors := if a ≠ 0 then [] else [(x, y)]

/-- `A'` is `A` updated in place for pivot `k`; the updates multiplied these factors. -/
def InPlacePass (k : Fin n) (A A' : IntMatrix n) (factors : Fin n × Fin n → List Factors) :
    Prop :=
  ∀ i j, ∃ x y, (x = A i k ∨ (j ≠ k ∧ x = A' i k)) ∧ (y = A k j ∨ (i ≠ k ∧ y = A' k j)) ∧
    A' i j = orProduct (A i j) x y ∧ factors (i, j) = factorsOf (A i j) x y

def AllFit (factors : Fin n × Fin n → List Factors) : Prop :=
  ∀ index, ∀ e ∈ factors index, ProductFits e.1 e.2

/-- The products a pass takes from the matrix before the pass fit. -/
def Safe (k : Fin n) (A : IntMatrix n) : Prop :=
  ∀ i j, A i j = 0 → ProductFits (A i k) (A k j)

theorem Binary.safe {A : IntMatrix n} (hA : Binary A) (k : Fin n) : Safe k A := by
  intro i j _
  exact (hA i k).productFits_left _

namespace InPlacePass

variable {k : Fin n} {A A' : IntMatrix n} {factors : Fin n × Fin n → List Factors}

theorem binary (h : InPlacePass k A A' factors) : Binary A' := by
  intro i j
  obtain ⟨x, y, -, -, hA', -⟩ := h i j
  rw [hA']
  exact orProduct_isBit _ _ _

/-- An updated entry is zero or one, so only products of old entries can overflow. -/
theorem allFit (h : InPlacePass k A A' factors) (hsafe : Safe k A) : AllFit factors := by
  intro index e he
  obtain ⟨i, j⟩ := index
  obtain ⟨x, y, hx, hy, -, hfactors⟩ := h i j
  rw [hfactors] at he
  unfold factorsOf at he
  split at he
  · simp at he
  · rename_i hzero
    rcases List.mem_singleton.mp he with rfl
    rcases hx with rfl | ⟨-, rfl⟩
    · rcases hy with rfl | ⟨-, rfl⟩
      · exact hsafe i j (not_not.mp hzero)
      · exact (h.binary k j).productFits_right _
    · exact (h.binary i k).productFits_left _

theorem racyPivot (h : InPlacePass k A A' factors) (hfit : AllFit factors) :
    RacyPivot k (Edges A) (Edges A') := by
  intro i j
  obtain ⟨x, y, hx, hy, hA', hfactors⟩ := h i j
  refine ⟨x ≠ 0, y ≠ 0, ?_, ?_, ?_⟩
  · exact hx.imp (fun hx => by rw [hx, Edges]) fun hx => ⟨hx.1, by rw [hx.2, Edges]⟩
  · exact hy.imp (fun hy => by rw [hy, Edges]) fun hy => ⟨hy.1, by rw [hy.2, Edges]⟩
  · unfold Edges
    rw [hA', orProduct_ne_zero]
    by_cases hzero : A i j = 0
    · have hmem : (x, y) ∈ factors (i, j) := by simp [hfactors, factorsOf, hzero]
      rw [(hfit (i, j) _ hmem).mul_ne_zero_iff]
    · simp [hzero]

theorem edges_eq (h : InPlacePass k A A' factors) (hfit : AllFit factors) :
    Edges A' = addPivot k (Edges A) :=
  (h.racyPivot hfit).eq_addPivot

end InPlacePass

theorem inPlacePass_of_completes {k : Fin n} {m m' : Cell n → Int32}
    {tr : List ((Fin n × Fin n) × Access (Cell n) Int32 Factors)}
    (hrun : Completes (updateEntry k) m tr m') :
    InPlacePass k (matrixA m) (matrixA m') (notesOf tr) := by
  intro i j
  have hyields := (singleWriter_updateEntry k).yields hrun (i, j)
  -- reads of the item's own entry come before its write
  have hview : ∀ {p v}, OldOrNew own m m' (i, j) (own p) v →
      v = m (own p) ∨ (p ≠ (i, j) ∧ v = m' (own p)) := fun h =>
    h.imp id fun hnew => ⟨fun heq => hnew.1 (congrArg own heq), hnew.2⟩
  obtain ⟨a, ha, hcases⟩ := yields_updateEntry hyields
  have ha : a = matrixA m i j := (hview ha).resolve_right fun hnew => hnew.1 rfl
  rcases hcases with ⟨hne, hnotes, hnew⟩ | ⟨hzero, x, y, hx, hy, hnotes, hnew⟩
  · have hmarked : matrixA m i j ≠ 0 := ha ▸ hne
    refine ⟨matrixA m i k, matrixA m k j, .inl rfl, .inl rfl, ?_, ?_⟩
    · unfold orProduct
      rw [if_pos (.inl hmarked)]
      exact hnew
    · unfold factorsOf
      rw [hnotes, if_pos hmarked]
  · have hnotmarked : ¬matrixA m i j ≠ 0 := not_not.mpr (ha ▸ hzero)
    refine ⟨x, y, ?_, ?_, ?_, ?_⟩
    · exact (hview hx).imp id fun hnew => ⟨fun heq => hnew.1 (by rw [heq]), hnew.2⟩
    · exact (hview hy).imp id fun hnew => ⟨fun heq => hnew.1 (by rw [heq]), hnew.2⟩
    · simp only [orProduct, hnotmarked, false_or]
      exact hnew
    · unfold factorsOf
      rw [hnotes, if_neg hnotmarked]

/-! ## All pivots -/

/-- In-place passes for the listed pivots, in which no product overflows. -/
inductive Passes : List (Fin n) → IntMatrix n → IntMatrix n → Prop where
  | nil (A : IntMatrix n) : Passes [] A A
  | cons {k : Fin n} {ks : List (Fin n)} {A A₁ A' : IntMatrix n}
      {factors : Fin n × Fin n → List Factors} (hpass : InPlacePass k A A₁ factors)
      (hfit : AllFit factors) (hrest : Passes ks A₁ A') : Passes (k :: ks) A A'

theorem Passes.edges_eq {ks : List (Fin n)} {A A' : IntMatrix n} (h : Passes ks A A') :
    Edges A' = addPivots ks (Edges A) := by
  induction h with
  | nil A => rfl
  | cons hpass hfit _ ih =>
      rw [ih, hpass.edges_eq hfit]
      rfl

theorem Passes.binary {ks : List (Fin n)} {A A' : IntMatrix n} (h : Passes ks A A')
    (hstart : Binary A ∨ ks ≠ []) : Binary A' := by
  induction h with
  | nil A => exact hstart.resolve_right fun hne => hne rfl
  | cons hpass _ _ ih => exact ih (.inl hpass.binary)

/-- With every pivot added, an entry is one exactly when a path leads from its row
to its column. -/
theorem Passes.eq_one_iff {ks : List (Fin n)} {A A' : IntMatrix n} (h : Passes ks A A')
    (hall : ∀ k, k ∈ ks) (i j : Fin n) :
    IsBit (A' i j) ∧ (A' i j = 1 ↔ Relation.TransGen (Edges A) i j) := by
  have hbit := h.binary (.inr (List.ne_nil_of_mem (hall i))) i j
  refine ⟨hbit, ?_⟩
  rw [← addPivots_iff_transGen hall, ← h.edges_eq, Edges]
  rcases hbit with h0 | h1
  · simp [h0]
  · simp [h1]

theorem Passes.unique {ks ks' : List (Fin n)} {A B A' B' : IntMatrix n}
    (h : Passes ks A A') (h' : Passes ks' B B') (hall : ∀ k, k ∈ ks) (hall' : ∀ k, k ∈ ks')
    (hedges : Edges A = Edges B) : A' = B' := by
  ext i j : 2
  obtain ⟨hbit, hone⟩ := h.eq_one_iff hall i j
  obtain ⟨hbit', hone'⟩ := h'.eq_one_iff hall' i j
  rw [hedges, ← hone'] at hone
  rcases hbit with h0 | h1
  · rcases hbit' with h0' | h1'
    · rw [h0, h0']
    · exact absurd (hone.mpr h1') (by rw [h0]; decide)
  · rw [h1, hone.mp h1]

end UnoApi.TransitiveClosure
