import UnoApi.Integration.Values

/-!
# The indices of the integration program

`v_buf` has `size` elements and `t_buf` one less, but both kernels are launched with
`size` work items.  The last item of the trapezoid kernel writes past the end of
`t_buf`, whatever the options; no other access leaves its container, unless `size`
itself wraps to zero.
-/

namespace UnoApi.Integration

open UnoApi.DataParallel UnoApi.Machine

/-- Every access of the three kernels, of the sequential option and of
`print_function_values` stays inside its container. -/
structure AccessesInBounds (f : ℚ → ℚ) (o : Options) : Prop where
  sequential : ∀ a ∈ (sequentialOption f o).trace (fun _ => 0), InBounds o a
  populate : ∀ m tr m', Completes (populateKernels f o) m tr m' → ∀ l ∈ tr, InBounds o l.2
  reduce : ∀ m tr m', Completes (reduceKernel o) m tr m' → ∀ l ∈ tr, InBounds o l.2
  print : ∀ m xPrecision yPrecision,
    ∀ a ∈ (printFunctionValues (domain o).size o.xMin (domain o).dx xPrecision
      yPrecision).trace m, InBounds o a

section

variable (f : ℚ → ℚ) (o : Options)

theorem within_printFunctionValues (xMin dx : ℚ) (xPrecision yPrecision : UInt32) :
    (printFunctionValues (domain o).size xMin dx xPrecision yPrecision).Within (inside o)
      (inside o) := by
  apply WorkItem.Within.forEach
  · intro i hi
    exact ⟨List.mem_range.mp hi, fun _ => trivial⟩
  · trivial

theorem inBounds_reduceKernel {m m' : Cell → ℚ}
    {tr : List (Fin (domain o).numberOfTrapezoids × Access Cell ℚ ℚ)}
    (hrun : Completes (reduceKernel o) m tr m') : ∀ l ∈ tr, InBounds o l.2 := by
  intro l hl
  obtain ⟨index, a⟩ := l
  have hisolated := isolated_contribute (fun index : Fin (domain o).numberOfTrapezoids =>
    ((.t, index.val) : Cell)) (id : ℚ → ℚ)
  have ha := (hisolated.within index).mem_trace m ((hisolated.mem_iff hrun).mp hl)
  cases a with
  | read c v =>
      have hc : c = (.t, index.val) := ha
      subst hc
      exact index.isLt
  | write c v => exact ha.elim
  | note e => trivial

theorem mem_populateKernels_iff {m m' : Cell → ℚ}
    {tr : List ((Fin (domain o).size ⊕ Fin (domain o).size) × Access Cell ℚ ℚ)}
    (hrun : Completes (populateKernels f o) m tr m') {item} {a : Access Cell ℚ ℚ} :
    (item, a) ∈ tr ↔ ∃ value, a = .write (populatedCell item) value ∧
      (populateKernels f o item) = .write (populatedCell item) value .done := by
  rw [(isolated_populateKernels f o).mem_iff hrun]
  cases item with
  | inl index => simp [populateKernels, valuesItem, populatedCell]
  | inr index => simp [populateKernels, trapezoidItem, populatedCell]

/-- The one access of the first two kernels that leaves its container is the write of
the last work item to `t_buf`. -/
theorem outOfBounds_populateKernels_iff
    (hsize : (domain o).size = (domain o).numberOfTrapezoids + 1) {m m' : Cell → ℚ}
    {tr : List ((Fin (domain o).size ⊕ Fin (domain o).size) × Access Cell ℚ ℚ)}
    (hrun : Completes (populateKernels f o) m tr m') {item} {a : Access Cell ℚ ℚ}
    (hl : (item, a) ∈ tr) :
    ¬ InBounds o a ↔ populatedCell item = (.t, (domain o).numberOfTrapezoids) := by
  obtain ⟨value, rfl, -⟩ := (mem_populateKernels_iff f o hrun).mp hl
  cases item with
  | inl index => simp [InBounds, extent, populatedCell]
  | inr index =>
      have hlt := index.isLt
      simp only [InBounds, extent, populatedCell, Sum.elim_inr, Prod.mk.injEq, true_and]
      omega

theorem inBounds_apart_from_last
    (hsize : (domain o).size = (domain o).numberOfTrapezoids + 1) :
    (∀ a ∈ (sequentialOption f o).trace (fun _ => 0), InBounds o a) ∧
    (∀ m tr m', Completes (populateKernels f o) m tr m' → ∀ l ∈ tr,
      populatedCell l.1 ≠ (.t, (domain o).numberOfTrapezoids) → InBounds o l.2) ∧
    (∀ m tr m', Completes (reduceKernel o) m tr m' → ∀ l ∈ tr, InBounds o l.2) ∧
    ∀ m xPrecision yPrecision,
      ∀ a ∈ (printFunctionValues (domain o).size o.xMin (domain o).dx xPrecision
        yPrecision).trace m, InBounds o a := by
  refine ⟨?_, ?_, ?_, ?_⟩
  · intro a ha
    exact .of_within ((within_sequentialOption f o hsize).mem_trace _ ha)
  · intro m tr m' hrun l hl hne
    by_contra hout
    exact hne ((outOfBounds_populateKernels_iff f o hsize hrun hl).mp hout)
  · exact fun m tr m' hrun => inBounds_reduceKernel o hrun
  · intro m xPrecision yPrecision a ha
    exact .of_within ((within_printFunctionValues o _ _ _ _).mem_trace m ha)

theorem not_accessesInBounds_of_size
    (hsize : (domain o).size = (domain o).numberOfTrapezoids + 1) :
    ¬ AccessesInBounds f o := by
  intro h
  obtain ⟨tr, m', hrun⟩ := exists_completes (populateKernels f o) fun _ => 0
  have hlast : ((.inr ⟨(domain o).numberOfTrapezoids, by omega⟩, _) :
      (Fin (domain o).size ⊕ Fin (domain o).size) × Access Cell ℚ ℚ) ∈ tr :=
    (mem_populateKernels_iff f o hrun).mpr ⟨_, rfl, rfl⟩
  exact (outOfBounds_populateKernels_iff f o hsize hrun hlast).mpr rfl
    (h.populate _ tr m' hrun _ hlast)

/-- Some access leaves its container on every request: the extra work item of the
trapezoid kernel, or every access to `values` when `size` wraps to zero. -/
theorem not_accessesInBounds : ¬ AccessesInBounds f o := by
  by_cases hsize : (domain o).size = (domain o).numberOfTrapezoids + 1
  · exact not_accessesInBounds_of_size f o hsize
  · intro h
    exact hsize ((size_eq_iff o).mpr ((inBounds_sequentialOption_iff f o).mp h.sequential))

end

theorem not_accessesInBounds_default : ¬ AccessesInBounds f {} :=
  not_accessesInBounds_of_size f {} (by decide)

end UnoApi.Integration
