import UnoApi.TransitiveClosure.Parallel
import UnoApi.TransitiveClosure.Printing

/-!
# The program

`main` reads the file twice, runs one of the two blocks and prints the matrix `A` if it is
asked to.  `Main` relates a file to the outcomes `main` can have: what the uninitialised
variables and buffers hold and how the work items of the queue interleave is open.

The work items of a kernel can race (`parallelBlock_raceFree_iff`).  Racing accesses count
as atomic here, as in `parallelBlock_closure`: a look-up returns what the entry holds when
it is made, the old value or the new one, and no run is undefined for its races alone.
-/

namespace UnoApi.TransitiveClosure

open UnoApi.DataParallel UnoApi.Machine UnoApi.Input

variable {n : Nat}

structure Options where
  runSequentially : Bool
  print : Bool

/-- What `main` returns and prints, or `undefined` for a product that overflows, a write
outside of a buffer and a negative size. -/
inductive Outcome where
  | exits (code : Int) (output : List Char)
  | undefined

def openMessage (file : File) : List Char :=
  match file with
  | none => "The file could not be opened.".toList
  | some _ => []

def report (o : Options) (A : IntMatrix n) : List Char := if o.print then printMatrix A else []

/-- The block that is chosen multiplies these factors and leaves this matrix.  Every
interleaving of atomic accesses is a run of the parallel block. -/
inductive Executes (C : IntMatrix n) : Bool → (Factors → Prop) → IntMatrix n → Prop where
  | sequential (A : IntMatrix n) :
      Executes C true (fun e => .note e ∈ (sequentialBlock n).trace (buffers C A))
        (matrixA ((sequentialBlock n).exec (buffers C A)))
  | parallel (A : IntMatrix n) {tr : List ((Fin n × Fin n) × Access (Cell n) Int32 Factors)}
      {m' : Cell n → Int32} (hrun : QueueRun (parallelBlock n) (buffers C A) tr m') :
      Executes C false (fun e => ∃ index, (index, .note e) ∈ tr) (matrixA m')

inductive Main (o : Options) (file : File) : Outcome → Prop where
  | notVerified {junk : Junk} {m : Int} (hverify : (verifyMatrixSquared file junk m).1 = 1) :
      Main o file (.exits 1 (openMessage file))
  -- `sycl::range(n, n)` takes a negative `n` for a number above every buffer size
  | negative {junk : Junk} {m size : Int} (hverify : verifyMatrixSquared file junk m = (0, size))
      (hsize : size < 0) : Main o file .undefined
  | notPopulated {junk junk' : Junk} {m size : Int} {C : Entries}
      (hverify : verifyMatrixSquared file junk m = (0, size)) (hsize : 0 ≤ size)
      (hpopulate : (populateMatrix file junk' C).1 = 1) :
      Main o file (.exits 1 (openMessage file))
  -- the second reading finds other sizes and writes outside of the buffer
  | outside {text : List Char} (hfile : file = some text) {junk junk' : Junk} {m size : Int}
      {C : Entries} (hverify : verifyMatrixSquared file junk m = (0, size))
      (hpopulate : (populateMatrix file junk' C).1 = 0)
      (hrows : size < (extractSizes junk' ⟨tokens text, false⟩).1) : Main o file .undefined
  | overflows {text : List Char} (hfile : file = some text) {junk junk' : Junk} {m : Int}
      {size : Nat} {C : Entries} (hverify : verifyMatrixSquared file junk m = (0, (size : Int)))
      (hpopulate : (populateMatrix file junk' C).1 = 0)
      (hrows : (extractSizes junk' ⟨tokens text, false⟩).1 ≤ size)
      {factors : Factors → Prop} {A : IntMatrix size}
      (hblock : Executes (loaded size (populateMatrix file junk' C).2) o.runSequentially factors A)
      {x y : Int32} (hevaluated : factors (x, y)) (hfits : ¬ ProductFits x y) :
      Main o file .undefined
  | finishes {text : List Char} (hfile : file = some text) {junk junk' : Junk} {m : Int}
      {size : Nat} {C : Entries} (hverify : verifyMatrixSquared file junk m = (0, (size : Int)))
      (hpopulate : (populateMatrix file junk' C).1 = 0)
      (hrows : (extractSizes junk' ⟨tokens text, false⟩).1 ≤ size)
      {factors : Factors → Prop} {A : IntMatrix size}
      (hblock : Executes (loaded size (populateMatrix file junk' C).2) o.runSequentially factors A)
      (hfits : ∀ x y, factors (x, y) → ProductFits x y) : Main o file (.exits 0 (report o A))

/-! ## The blocks -/

open Classical in
noncomputable def closure (C : IntMatrix n) : IntMatrix n := fun i j =>
  if Relation.TransGen (Edges C) i j then 1 else 0

theorem closure_eq_one_iff (C : IntMatrix n) (i j : Fin n) :
    closure C i j = 1 ↔ Relation.TransGen (Edges C) i j := by
  by_cases h : Relation.TransGen (Edges C) i j <;> simp [closure, h]

theorem closure_binary (C : IntMatrix n) : Binary (closure C) := by
  intro i j
  by_cases h : Relation.TransGen (Edges C) i j <;> simp [closure, h, IsBit]

theorem eq_of_isBit {x y : Int32} (hx : IsBit x) (hy : IsBit y) (h : x = 1 ↔ y = 1) : x = y := by
  rcases hx with rfl | rfl
  · rcases hy with rfl | rfl
    · rfl
    · exact absurd (h.mpr rfl) (by decide)
  · exact (h.mp rfl).symm

theorem Passes.eq_closure {C A' : IntMatrix n} (h : Passes (List.finRange n) C A') :
    A' = closure C := by
  ext i j : 2
  obtain ⟨hbit, hone⟩ := h.eq_one_iff List.mem_finRange i j
  exact eq_of_isBit hbit (closure_binary C i j) (hone.trans (closure_eq_one_iff C i j).symm)

theorem edges_closure (C : IntMatrix n) : Edges (closure C) = Relation.TransGen (Edges C) := by
  ext i j
  by_cases h : Relation.TransGen (Edges C) i j <;> simp [Edges, closure, h]

theorem closure_closure (C : IntMatrix n) : closure (closure C) = closure C := by
  ext i j : 2
  apply eq_of_isBit (closure_binary _ i j) (closure_binary _ i j)
  rw [closure_eq_one_iff, closure_eq_one_iff, edges_closure, Relation.transGen_eq_self]

def FirstPivotFits (C : IntMatrix n) : Prop := ∀ k : Fin n, k.val = 0 → Safe k C

theorem Executes.eq_closure {C : IntMatrix n} {sequentially : Bool} {factors : Factors → Prop}
    {A : IntMatrix n} (h : Executes C sequentially factors A)
    (hfirst : sequentially = true ∨ FirstPivotFits C) :
    A = closure C ∧ ∀ x y, factors (x, y) → ProductFits x y := by
  cases h with
  | sequential A =>
      obtain ⟨hpasses, hnotes⟩ := passes_sequentialBlock C A
      exact ⟨hpasses.eq_closure, hnotes⟩
  | parallel A hrun =>
      obtain ⟨hpasses, hnotes⟩ :=
        passes_parallelBlock hrun (hfirst.resolve_left Bool.false_ne_true)
      exact ⟨hpasses.eq_closure, fun x y ⟨index, hmem⟩ => hnotes index x y hmem⟩

theorem exists_executes (C : IntMatrix n) (sequentially : Bool) :
    ∃ factors A, Executes C sequentially factors A := by
  cases sequentially with
  | true => exact ⟨_, _, .sequential C⟩
  | false =>
      obtain ⟨tr, m', hrun⟩ := exists_queueRun (parallelBlock n) (buffers C C)
      exact ⟨_, _, .parallel C hrun⟩

theorem exists_overflow {C : IntMatrix n} (h : ¬ FirstPivotFits C) :
    ∃ factors A x y, Executes C false factors A ∧ factors (x, y) ∧ ¬ ProductFits x y := by
  simp only [FirstPivotFits, Safe, not_forall] at h
  obtain ⟨k, hk, i, j, hzero, hfits⟩ := h
  obtain ⟨tr, m', hrun, hnote⟩ := exists_queueRun_note C hk hzero
  exact ⟨_, _, _, _, .parallel C hrun, ⟨(i, j), hnote⟩, hfits⟩

/-! ## Files that are well formed -/

section

variable {text : List Char} {entry : Nat → Int} (h : Describes text n entry)

include h

theorem Describes.size_le : (n : Int) ≤ intMax := by
  obtain ⟨_, _, _, -, hrows, -⟩ := h
  exact intToken_le hrows

theorem Describes.rows_eq (junk : Junk) :
    (extractSizes junk ⟨tokens text, false⟩).1 = n := by
  obtain ⟨body, hsizes, -⟩ := h.sizes
  rw [hsizes]

theorem Describes.populate_eq_zero (junk : Junk) (C : Entries) :
    (populateMatrix (some text) junk C).1 = 0 :=
  (populate_eq_zero_iff text junk C).mpr (h.sizesAgree junk)

theorem Describes.finishes {o : Options} {factors : Factors → Prop} {A : IntMatrix n}
    (hblock : Executes (described n entry) o.runSequentially factors A)
    (hfits : ∀ x y, factors (x, y) → ProductFits x y) :
    Main o (some text) (.exits 0 (report o A)) := by
  have hloaded := h.loaded_eq ⟨0, 0⟩ fun _ => 0
  exact .finishes rfl (h.verify ⟨0, 0⟩ 0) (h.populate_eq_zero ⟨0, 0⟩ fun _ => 0)
    (h.rows_eq ⟨0, 0⟩).le (hloaded.symm ▸ hblock) hfits

theorem Describes.overflows {o : Options} {factors : Factors → Prop} {A : IntMatrix n}
    (hblock : Executes (described n entry) o.runSequentially factors A) {x y : Int32}
    (hevaluated : factors (x, y)) (hfits : ¬ ProductFits x y) :
    Main o (some text) .undefined := by
  have hloaded := h.loaded_eq ⟨0, 0⟩ fun _ => 0
  exact .overflows rfl (h.verify ⟨0, 0⟩ 0) (h.populate_eq_zero ⟨0, 0⟩ fun _ => 0)
    (h.rows_eq ⟨0, 0⟩).le (hloaded.symm ▸ hblock) hevaluated hfits

/-- The readers accept the file and agree on its size, so a block runs. -/
theorem Describes.main_cases {o : Options} {outcome : Outcome}
    (hmain : Main o (some text) outcome) :
    ∃ factors A, Executes (described n entry) o.runSequentially factors A ∧
      (outcome = .exits 0 (report o A) ∨
        outcome = .undefined ∧ ∃ x y, factors (x, y) ∧ ¬ ProductFits x y) := by
  have hsize : ∀ {junk m size}, verifyMatrixSquared (some text) junk m = (0, size) →
      size = (n : Int) := fun {junk m _} hverify =>
    (congrArg Prod.snd hverify).symm.trans (congrArg Prod.snd (h.verify junk m))
  cases hmain with
  | @notVerified junk m hverify =>
      rw [h.verify junk m] at hverify
      cases hverify
  | negative hverify hneg =>
      rw [hsize hverify] at hneg
      exact absurd hneg (by omega)
  | @notPopulated _ junk' _ _ C _ _ hpopulate =>
      rw [h.populate_eq_zero junk' C] at hpopulate
      cases hpopulate
  | @outside text' hfile _ junk' _ _ _ hverify _ hrows =>
      cases hfile
      rw [hsize hverify, h.rows_eq junk'] at hrows
      exact absurd hrows (lt_irrefl _)
  | @overflows text' _ _ junk' _ size C hverify _ _ factors A hblock x y hevaluated hfits =>
      obtain rfl : size = n := Int.ofNat.inj (hsize hverify)
      rw [h.loaded_eq] at hblock
      exact ⟨factors, A, hblock, .inr ⟨rfl, x, y, hevaluated, hfits⟩⟩
  | @finishes text' _ _ junk' _ size C hverify _ _ factors A hblock _ =>
      obtain rfl : size = n := Int.ofNat.inj (hsize hverify)
      rw [h.loaded_eq] at hblock
      exact ⟨factors, A, hblock, .inl rfl⟩

theorem Describes.main_iff {o : Options}
    (hfirst : o.runSequentially = true ∨ FirstPivotFits (described n entry)) (outcome : Outcome) :
    Main o (some text) outcome ↔
      outcome = .exits 0 (report o (closure (described n entry))) := by
  constructor
  · intro hmain
    obtain ⟨factors, A, hblock, hcases⟩ := h.main_cases hmain
    obtain ⟨hclosure, hfits⟩ := hblock.eq_closure hfirst
    rcases hcases with hcases | ⟨-, x, y, hevaluated, hnot⟩
    · rw [hcases, hclosure]
    · exact absurd (hfits x y hevaluated) hnot
  · rintro rfl
    obtain ⟨factors, A, hblock⟩ := exists_executes (described n entry) o.runSequentially
    obtain ⟨hclosure, hfits⟩ := hblock.eq_closure hfirst
    exact hclosure ▸ h.finishes hblock hfits

end

/-- On a file that describes a matrix `main` returns 0 and reports the transitive closure,
whatever the uninitialised memory holds and in every interleaving of atomic accesses,
exactly when it runs sequentially or the products of entries that the kernel for pivot 0
can evaluate fit. -/
theorem main_prints_closure {text : List Char} {entry : Nat → Int}
    (h : Describes text n entry) (o : Options) :
    (∀ outcome, Main o (some text) outcome ↔
        outcome = .exits 0 (report o (closure (described n entry)))) ↔
      o.runSequentially = true ∨ ∀ k i j : Fin n, k.val = 0 → described n entry i j = 0 →
        ProductFits (described n entry i k) (described n entry k j) := by
  constructor
  · intro honly
    by_contra hnot
    obtain ⟨hparallel, hfirst⟩ := not_or.mp hnot
    have hoverflow : ¬ FirstPivotFits (described n entry) := fun hfits =>
      hfirst fun k i j hk => hfits k hk i j
    obtain ⟨factors, A, x, y, hblock, hevaluated, hfits⟩ := exists_overflow hoverflow
    have hmode : o.runSequentially = false := eq_false_of_ne_true hparallel
    cases (honly .undefined).mp (h.overflows (hmode.symm ▸ hblock) hevaluated hfits)
  · intro hfits
    exact h.main_iff (hfits.imp_right fun hfits k hk i j => hfits k i j hk)

/-- Two vertices with edges of weight 65536 between them: the sequential block prints the
closure, the parallel block need not. -/
theorem main_prints_closure_heavy :
    (∀ outcome, Main ⟨true, true⟩ (some "2 2\n0 65536 \n65536 0 \n".toList) outcome ↔
      outcome = .exits 0 "Transitive Closure A of C: \n1 1 \n1 1 \n".toList) ∧
    ¬ ∀ outcome, Main ⟨false, true⟩ (some "2 2\n0 65536 \n65536 0 \n".toList) outcome ↔
      outcome = .exits 0 "Transitive Closure A of C: \n1 1 \n1 1 \n".toList := by
  let C : IntMatrix 2 := fun i j => if i = j then 0 else 65536
  have htext : inputText C = "2 2\n0 65536 \n65536 0 \n".toList := by decide
  have hdescribes : Describes "2 2\n0 65536 \n65536 0 \n".toList 2 (entryAt C) :=
    htext ▸ describes_inputText (by decide) C
  have hedge : ∀ i j, i ≠ j → Relation.TransGen (Edges C) i j := by
    intro i j hne
    apply Relation.TransGen.single
    simp [Edges, C, hne]
  have hclosure : closure C = fun _ _ => 1 := by
    ext i j : 2
    rw [closure_eq_one_iff]
    by_cases heq : i = j
    · subst heq
      have hother : i ≠ i + 1 := by omega
      exact (hedge i (i + 1) hother).trans (hedge (i + 1) i hother.symm)
    · exact hedge i j heq
  have hprinted : ∀ o : Options, o.print = true →
      report o (closure (described 2 (entryAt C))) =
        "Transitive Closure A of C: \n1 1 \n1 1 \n".toList := by
    intro o hprint
    rw [described_entryAt, hclosure, report, if_pos hprint]
    decide
  have hsequential := main_prints_closure hdescribes ⟨true, true⟩
  have hparallel := main_prints_closure hdescribes ⟨false, true⟩
  rw [hprinted _ rfl] at hsequential hparallel
  refine ⟨hsequential.mpr (.inl rfl), ?_⟩
  intro honly
  have hfits := (hparallel.mp honly).resolve_left Bool.false_ne_true
  rw [described_entryAt] at hfits
  exact absurd (hfits 0 1 1 rfl (by decide)) (by decide)

/-- Running `main` on a file that describes the matrix it has left gives this matrix again,
in both modes and whichever mode has left it. -/
theorem main_closure_again {text : List Char} {entry : Nat → Int} (h : Describes text n entry)
    (o o' : Options) (hfirst : o.runSequentially = true ∨ FirstPivotFits (described n entry)) :
    let A := closure (described n entry)
    (∀ outcome, Main o (some text) outcome ↔ outcome = .exits 0 (report o A)) ∧
    ∀ outcome, Main o' (some (inputText A)) outcome ↔ outcome = .exits 0 (report o' A) := by
  intro A
  have hagain := describes_inputText h.size_le A
  constructor
  · exact h.main_iff hfirst
  · intro outcome
    have hbinary : FirstPivotFits (described n (entryAt A)) := by
      rw [described_entryAt]
      exact fun k _ => (closure_binary _).safe k
    rw [hagain.main_iff (.inr hbinary), described_entryAt, closure_closure]

theorem main_closure_again_heavy :
    let A := closure (described 2 (entryAt (fun i j : Fin 2 => if i = j then 0 else 65536)))
    (∀ outcome, Main ⟨true, true⟩ (some "2 2\n0 65536 \n65536 0 \n".toList) outcome ↔
      outcome = .exits 0 (printMatrix A)) ∧
    ∀ outcome, Main ⟨false, true⟩ (some (inputText A)) outcome ↔
      outcome = .exits 0 (printMatrix A) := by
  have hdescribes := describes_inputText (by decide) fun i j : Fin 2 => if i = j then 0 else 65536
  exact main_closure_again hdescribes ⟨true, true⟩ ⟨false, true⟩ (.inl rfl)

/-! ## Files that are turned down -/

theorem main_of_rejected {o : Options} {file : File} {outcome : Outcome}
    (hrejected : ∀ junk m, (verifyMatrixSquared file junk m).1 = 1)
    (hmain : Main o file outcome) : outcome = .exits 1 (openMessage file) := by
  have hnot : ∀ {junk m size}, verifyMatrixSquared file junk m ≠ (0, size) := by
    intro junk m size hverify
    have hone := hrejected junk m
    rw [hverify] at hone
    cases hone
  cases hmain with
  | notVerified => rfl
  | negative hverify => exact absurd hverify hnot
  | notPopulated => rfl
  | outside _ hverify => exact absurd hverify hnot
  | overflows _ hverify => exact absurd hverify hnot
  | finishes _ hverify => exact absurd hverify hnot

theorem exists_main_accepted {text : List Char} {junk : Junk}
    (hagree : SizesAgree junk (tokens text)) (o : Options) :
    ∃ outcome, Main o (some text) outcome ∧ ∀ output, outcome ≠ .exits 1 output := by
  have hverify : verifyMatrixSquared (some text) junk 0 =
      (0, (extractSizes junk ⟨tokens text, false⟩).1) := if_neg (not_not.mpr hagree)
  by_cases hsize : (extractSizes junk ⟨tokens text, false⟩).1 < 0
  · exact ⟨_, .negative hverify hsize, fun _ h => by cases h⟩
  · obtain ⟨size, hrows⟩ := Int.eq_ofNat_of_zero_le (not_lt.mp hsize)
    have hpopulate := (populate_eq_zero_iff text junk fun _ => 0).mpr hagree
    rw [hrows] at hverify
    obtain ⟨factors, A, hblock⟩ := exists_executes
      (loaded size (populateMatrix (some text) junk fun _ => 0).2) o.runSequentially
    by_cases hfits : ∀ x y, factors (x, y) → ProductFits x y
    · exact ⟨_, .finishes rfl hverify hpopulate hrows.le hblock hfits, fun _ h => by cases h⟩
    · simp only [not_forall] at hfits
      obtain ⟨x, y, hevaluated, hfits⟩ := hfits
      exact ⟨_, .overflows rfl hverify hpopulate hrows.le hblock hevaluated hfits,
        fun _ h => by cases h⟩

/-- `main` is sure to return 1 exactly for the files that cannot be opened and for those
that begin with a number and store another one for what follows it; only of the first it
says why. -/
theorem main_exits_one_iff (o : Options) (file : File) :
    (∀ outcome, Main o file outcome → outcome = .exits 1 (openMessage file)) ↔
      file = none ∨ ∃ text, file = some text ∧ SizesDiffer (tokens text) := by
  constructor
  · intro hone
    cases file with
    | none => exact .inl rfl
    | some text =>
        refine .inr ⟨text, rfl, ?_⟩
        rw [sizesDiffer_iff]
        intro junk hagree
        obtain ⟨outcome, hmain, hne⟩ := exists_main_accepted hagree o
        exact hne _ (hone outcome hmain)
  · intro h outcome hmain
    apply main_of_rejected _ hmain
    intro junk m
    rcases h with rfl | ⟨text, rfl, hdiffer⟩
    · rfl
    · apply (verify_zero_or_one (some text) junk m).resolve_left
      rw [verify_eq_zero_iff]
      exact (sizesDiffer_iff _).mp hdiffer junk

end UnoApi.TransitiveClosure
