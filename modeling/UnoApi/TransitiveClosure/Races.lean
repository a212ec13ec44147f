import UnoApi.DataParallel.Races
import UnoApi.TransitiveClosure.Pass
import Mathlib.Data.Finite.Prod

/-!
# Races of the kernels

The kernel of a pivot updates the matrix in place.  It races where an entry is zero that
is not the pivot's own: its item reads an entry that another item writes.  The copy never
races.
-/

namespace UnoApi.TransitiveClosure

open UnoApi.DataParallel UnoApi.Machine

variable {n : Nat}

def NonzeroApart (k : Fin n) (A : IntMatrix n) : Prop :=
  ∀ i j, (i, j) ≠ (k, k) → A i j ≠ 0

/-- An item only accesses its own entry, unless that entry is zero. -/
theorem within_trace_updateEntry {k : Fin n} {m : Cell n → Int32} {index : Fin n × Fin n}
    (h : index = (k, k) ∨ m (own index) ≠ 0) :
    ∀ a ∈ (updateEntry k index).trace m, a.Within {own index} {own index} := by
  rcases h with rfl | hne
  · apply WorkItem.Within.mem_trace
    refine ⟨rfl, fun a => ?_⟩
    dsimp only
    split
    · exact ⟨rfl, trivial⟩
    · exact ⟨rfl, fun _ => ⟨rfl, fun _ => ⟨rfl, trivial⟩⟩⟩
  · intro a ha
    have htrace : (updateEntry k index).trace m =
        [.read (own index) (m (own index)), .write (own index) 1] := by
      have hentry : m (.A, index) ≠ 0 := hne
      simp [updateEntry, own, hentry]
    rw [htrace] at ha
    simp only [List.mem_cons, List.not_mem_nil, or_false] at ha
    rcases ha with rfl | rfl
    · exact rfl
    · exact rfl

theorem apartFrom_updateEntry {k : Fin n} {m : Cell n → Int32}
    (h : NonzeroApart k (matrixA m)) :
    ApartFrom (updateEntry k) (fun index => {own index}) (fun index => {own index}) m where
  within index := by
    apply within_trace_updateEntry
    by_cases hindex : index = (k, k)
    · exact .inl hindex
    · exact .inr (h index.1 index.2 hindex)
  apart p q hne := by
    have hown : own p ≠ own q := fun heq => hne (own_injective heq)
    constructor
    · intro c hc
      rcases hc with rfl
      exact ⟨hown, hown⟩
    · intro c hc
      rcases hc with rfl
      exact Ne.symm hown

theorem makes_updateEntry {k i j : Fin n} {accesses : List (Access (Cell n) Int32 Factors)}
    (h : (updateEntry k (i, j)).Makes accesses) :
    (∃ v, .write (own (i, j)) v ∈ accesses) ∧
      (accesses.filterMap Access.event? = [] ∨
        (∃ x, .read (own (i, k)) x ∈ accesses) ∧ ∃ y, .read (own (k, j)) y ∈ accesses) := by
  cases h with | @read _ _ a _ h =>
  dsimp only at h
  split at h
  · cases h with | write h =>
    cases h
    exact ⟨⟨1, by simp [own]⟩, .inl (by simp)⟩
  · cases h with | @read _ _ x _ h =>
    cases h with | @read _ _ y _ h =>
    cases h with | note h =>
    cases h with | write h =>
    cases h
    exact ⟨⟨if x * y ≠ 0 then 1 else 0, by simp [own]⟩,
      .inr ⟨⟨x, by simp [own]⟩, ⟨y, by simp [own]⟩⟩⟩

section

variable {k : Fin n} {m m' : Cell n → Int32}
  {tr : List ((Fin n × Fin n) × Access (Cell n) Int32 Factors)}

theorem races_of_zero (hrun : Completes (updateEntry k) m tr m') {i j : Fin n}
    (hzero : matrixA m i j = 0) (hne : (i, j) ≠ (k, k)) : Races Unordered tr := by
  have hmakes : ∀ index, (updateEntry k index).Makes (accessesOf index tr) := fun index =>
    Run.makes hrun (fun _ => rfl) index
  have hwrites : ∀ p q, ∃ v, ((p, q), .write (own (p, q)) v) ∈ tr := fun p q =>
    (makes_updateEntry (hmakes (p, q))).1.imp fun _ hv => mem_accessesOf.mp hv
  -- the entry is zero, so the factors are read
  have hreads : (∃ x, .read (own (i, k)) x ∈ accessesOf (i, j) tr) ∧
      ∃ y, .read (own (k, j)) y ∈ accessesOf (i, j) tr := by
    apply (makes_updateEntry (hmakes (i, j))).2.resolve_left
    intro hnone
    obtain ⟨x, y, -, -, -, hfactors⟩ := inPlacePass_of_completes hrun i j
    rw [notesOf, hnone, factorsOf, hzero] at hfactors
    simp at hfactors
  obtain ⟨⟨x, hx⟩, ⟨y, hy⟩⟩ := hreads
  by_cases hj : j = k
  · have hi : i ≠ k := fun hi => hne (by rw [hi, hj])
    obtain ⟨v, hv⟩ := hwrites k j
    refine ⟨(i, j), (k, j), _, _, fun heq => hi (Prod.ext_iff.mp heq).1, mem_accessesOf.mp hy, hv,
      ⟨own (k, j), rfl, rfl, .inr rfl⟩, id, id⟩
  · obtain ⟨v, hv⟩ := hwrites i k
    refine ⟨(i, j), (i, k), _, _, fun heq => hj (Prod.ext_iff.mp heq).2, mem_accessesOf.mp hx, hv,
      ⟨own (i, k), rfl, rfl, .inr rfl⟩, id, id⟩

/-- In every interleaving or in none: the kernel races exactly if an entry other than the
pivot's own is zero. -/
theorem not_races_updateEntry_iff (hrun : Completes (updateEntry k) m tr m') :
    ¬ Races Unordered tr ↔ NonzeroApart k (matrixA m) := by
  constructor
  · intro hfree i j hne hzero
    exact hfree (races_of_zero hrun hzero hne)
  · intro h
    exact (apartFrom_updateEntry h).not_races hrun

theorem ne_zero_of_pass (hrun : Completes (updateEntry k) m tr m') {i j : Fin n}
    (h : matrixA m i j ≠ 0) : matrixA m' i j ≠ 0 := by
  obtain ⟨x, y, -, -, hentry, -⟩ := inPlacePass_of_completes hrun i j
  rw [hentry, orProduct_ne_zero]
  exact .inl h

theorem pivot_of_pass (hrun : Completes (updateEntry k) m tr m') (h : matrixA m k k = 0) :
    matrixA m' k k = 0 := by
  obtain ⟨x, y, hx, -, hentry, -⟩ := inPlacePass_of_completes hrun k k
  have hzero : x = 0 := by
    rcases hx with hx | ⟨hne, -⟩
    · rw [hx, h]
    · exact absurd rfl hne
  rw [hentry, h, hzero, orProduct]
  simp

end

/-! ## The parallel block -/

theorem raceFreeRun_passes {m m' : Cell n → Int32} {ks : List (Fin n)}
    {tr : List ((Fin n × Fin n) × Access (Cell n) Int32 Factors)}
    (hcomplete : n ≤ 1 ∨ ∀ i j, matrixA m i j ≠ 0)
    (hrun : QueueRun (ks.map updateEntry) m tr m') :
    RaceFreeRun (ks.map updateEntry) m tr m' := by
  induction ks generalizing m tr with
  | nil =>
      cases hrun
      exact .nil _
  | cons k ks ih =>
      cases hrun with | cons hfirst hrest =>
      have hapart : NonzeroApart k (matrixA m) := by
        intro i j hne
        rcases hcomplete with hn | hall
        · exact absurd (Prod.ext (Fin.ext (by omega)) (Fin.ext (by omega))) hne
        · exact hall i j
      have hnext := hcomplete.imp_right fun hall i j => ne_zero_of_pass hfirst (hall i j)
      exact .cons hfirst ((not_races_updateEntry_iff hfirst).mpr hapart) (ih hnext hrest)

/-- Whatever the interleaving, a run of the parallel block is free of races exactly if there
is at most one vertex or no entry is zero. -/
theorem parallelBlock_raceFree_iff {C A : IntMatrix n} {m' : Cell n → Int32}
    {tr : List ((Fin n × Fin n) × Access (Cell n) Int32 Factors)}
    (hrun : QueueRun (parallelBlock n) (buffers C A) tr m') :
    RaceFreeRun (parallelBlock n) (buffers C A) tr m' ↔ n ≤ 1 ∨ ∀ i j, C i j ≠ 0 := by
  constructor
  · intro hfree
    by_contra hnot
    obtain ⟨hn, hzero⟩ := not_or.mp hnot
    obtain ⟨i, j, hzero⟩ : ∃ i j, C i j = 0 := by simpa using hzero
    obtain ⟨l, rfl⟩ : ∃ l, n = l + 2 := ⟨n - 2, by omega⟩
    rw [parallelBlock, List.finRange_succ, List.finRange_succ] at hfree
    cases hfree with | cons hcopy _ hfree =>
    cases hfree with | cons hfirst hfirstFree hfree =>
    cases hfree with | cons hsecond hsecondFree _ =>
    have hfirstApart := (not_races_updateEntry_iff hfirst).mp hfirstFree
    have hsecondApart := (not_races_updateEntry_iff hsecond).mp hsecondFree
    rw [matrixA_of_copy hcopy] at hfirstApart
    -- the zero can only be the entry of the first pivot, which stays zero
    have hindex : (i, j) = (0, 0) := by
      by_contra hne
      exact hfirstApart i j hne hzero
    obtain ⟨rfl, rfl⟩ := Prod.ext_iff.mp hindex
    refine hsecondApart 0 0 (by simp) (pivot_of_pass hfirst ?_)
    rw [matrixA_of_copy hcopy]
    exact hzero
  · intro h
    cases hrun with | cons hcopy hrest =>
    refine .cons hcopy ((isolated_copyEntry.apartFrom _).not_races hcopy) ?_
    apply raceFreeRun_passes (h.imp_right fun hall i j => ?_) hrest
    rw [matrixA_of_copy hcopy]
    exact hall i j

/-- Two vertices and the edges between them race, for want of loops. -/
theorem parallelBlock_raceFree_iff_loops : ∃ tr m',
    QueueRun (parallelBlock 2) (buffers (fun i j => if i = j then 0 else 1) 0) tr m' ∧
      ¬ RaceFreeRun (parallelBlock 2) (buffers (fun i j => if i = j then 0 else 1) 0) tr m' := by
  obtain ⟨tr, m', hrun⟩ := exists_queueRun (parallelBlock 2)
    (buffers (fun i j => if i = j then 0 else 1) 0)
  refine ⟨tr, m', hrun, ?_⟩
  rw [parallelBlock_raceFree_iff hrun]
  decide

end UnoApi.TransitiveClosure
