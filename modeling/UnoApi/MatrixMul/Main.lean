import UnoApi.DataParallel.OutOfOrder
import UnoApi.MatrixMul.Multiply
import UnoApi.Numerics.SinglePrecision

/-!
# The multiplication program

`main` submits four command groups to a queue without an order: two fill `a` and `b`,
one transposes `b` and one multiplies.  `VerifyResult` fills arrays of its own,
multiplies them on the host and compares.  Every operation on `float` rounds its result.
-/

namespace UnoApi.MatrixMul

open UnoApi.DataParallel UnoApi.Numerics

variable {M : Nat}

/-! ## The command groups -/

section

variable (rnd : ℚ → ℚ)

def initAItem (index : Fin M × Fin (2 * M)) : Item M := .write (.a index.1 index.2) 1 .done

def initBItem (index : Fin (2 * M) × Fin (4 * M)) : Item M :=
  .write (.b index.1 index.2) (rnd (rnd index.1.val + 1)) .done

/-- `sum += a[row][i] * b_t[row][i]` over the listed `i`, with rounding. -/
def accumulateRounded (row : Fin M) (sum : ℚ) : List (Fin (2 * M)) → (ℚ → Item M) → Item M
  | [], next => next sum
  | i :: rest, next =>
      .read (.a row i) fun x =>
        .read (.bT (asColumn row) i) fun y =>
          accumulateRounded row (rnd (sum + rnd (x * y))) rest next

def multiplyRounded (index : Fin M × Fin (4 * M)) : Item M :=
  accumulateRounded rnd index.1 0 (List.finRange (2 * M)) fun sum =>
    .write (.c index.1 index.2) sum .done

inductive Launch (M : Nat) where
  | initA (index : Fin M × Fin (2 * M))
  | initB (index : Fin (2 * M) × Fin (4 * M))
  | transpose (index : Fin M × Fin (2 * M))
  | multiply (index : Fin M × Fin (4 * M))
  deriving DecidableEq

def launched : Launch M → Item M
  | .initA index => initAItem index
  | .initB index => initBItem rnd index
  | .transpose index => transposeItem index
  | .multiply index => multiplyRounded rnd index

inductive Buffer where
  | a
  | b
  | bT
  | c
  deriving DecidableEq

def Cell.buffer : Cell M → Buffer
  | .a _ _ => .a
  | .b _ _ => .b
  | .bT _ _ => .bT
  | .c _ _ => .c

def Launch.position : Launch M → Nat
  | .initA _ => 0
  | .initB _ => 1
  | .transpose _ => 2
  | .multiply _ => 3

def accessors : Nat → Accessors Buffer
  | 0 => ⟨∅, {.a}⟩
  | 1 => ⟨∅, {.b}⟩
  | 2 => ⟨{.b}, {.bT}⟩
  | 3 => ⟨{.a, .bT}, {.c}⟩
  | _ => ⟨∅, ∅⟩

def submissions (M : Nat) : Submissions (Launch M) (Cell M) Buffer :=
  ⟨Launch.position, accessors, Cell.buffer⟩

/-- The queue of `main` can work off the command groups in this way. -/
def Device (m : Cell M → ℚ) (tr : List (Launch M × Access (Cell M) ℚ Empty))
    (m' : Cell M → ℚ) : Prop :=
  OutOfOrder (submissions M).WaitsFor (launched rnd) m tr m'

/-! ## The host -/

def hostStepRounded (i : Fin M) (k : Fin (2 * M)) (j : Fin (4 * M)) : Item M :=
  .read (.c i j) fun sum =>
    .read (.a i k) fun x =>
      .read (.b k j) fun y => .write (.c i j) (rnd (sum + rnd (x * y))) .done

def hostRow (i : Fin M) : Item M :=
  .forEach (List.finRange (2 * M))
    (fun k => .forEach (List.finRange (4 * M)) (hostStepRounded rnd i k) .done) .done

/-- The loops of `VerifyResult` up to the comparison. -/
def hostLoops (M : Nat) : Item M :=
  .forEach (List.finRange M)
    (fun i => .forEach (List.finRange (2 * M)) (fun j => initAItem (i, j)) .done)
    (.forEach (List.finRange (2 * M))
      (fun i => .forEach (List.finRange (4 * M)) (fun j => initBItem rnd (i, j)) .done)
      (.forEach (List.finRange M)
        (fun i => .forEach (List.finRange (4 * M)) (fun j => clearItem (i, j)) .done)
        (.forEach (List.finRange M) (hostRow rnd) .done)))

def valueSame (a b : ℚ) : Bool := |rnd (a - b)| < 2 ^ (-23 : ℤ)

end

structure Mismatch (M : Nat) where
  row : Fin M
  column : Fin (4 * M)
  expected : ℚ
  found : ℚ
  deriving DecidableEq

structure Comparison (M : Nat) where
  mismatchFound : Bool
  printCount : Nat
  printed : List (Mismatch M)

abbrev Matrix (M : Nat) := Fin M → Fin (4 * M) → ℚ

section

variable (same : ℚ → ℚ → Bool) (cBack cHost : Matrix M)

def mismatchAt (index : Fin M × Fin (4 * M)) : Mismatch M :=
  ⟨index.1, index.2, cHost index.1 index.2, cBack index.1 index.2⟩

/-- The inner loop of the comparison, which breaks after the fifth message. -/
def compareColumns (i : Fin M) : List (Fin (4 * M)) → Comparison M → Comparison M
  | [], s => s
  | j :: js, s =>
      if same (cBack i j) (cHost i j) then compareColumns i js s
      else
        let s := ⟨true, s.printCount + 1, s.printed ++ [mismatchAt cBack cHost (i, j)]⟩
        if s.printCount = 5 then s else compareColumns i js s

def compareRows : List (Fin M) → Comparison M → Comparison M
  | [], s => s
  | i :: is, s =>
      let s := compareColumns same cBack cHost i (List.finRange (4 * M)) s
      if s.printCount = 5 then s else compareRows is s

end

structure Verdict (M : Nat) where
  printed : List (Mismatch M)
  message : String
  result : Int
  deriving DecidableEq

def verdict (s : Comparison M) : Verdict M :=
  if s.mismatchFound then ⟨s.printed, "Fail - The results mismatch!\n", -1⟩
  else ⟨s.printed, "Success - The results are correct!\n", 0⟩

/-- The host arrays start with anything. -/
def verifyResult (rnd : ℚ → ℚ) (cBack : Matrix M) (host : Cell M → ℚ) : Verdict M :=
  let filled := (hostLoops rnd M).exec host
  verdict (compareRows (valueSame rnd) cBack (fun i j => filled (.c i j)) (List.finRange M)
    ⟨false, 0, []⟩)

theorem multiplyRounded_id :
    (multiplyRounded id : Fin M × Fin (4 * M) → Item M) = multiplyItem := by
  have haccumulate : ∀ (row : Fin M) (is : List (Fin (2 * M))) (sum : ℚ) (next : ℚ → Item M),
      accumulateRounded id row sum is next = accumulate row sum is next := by
    intro row is
    induction is with
    | nil => exact fun _ _ => rfl
    | cons i is ih =>
        intro sum next
        simp only [accumulateRounded, accumulate, ih, id]
  ext1 index
  exact haccumulate _ _ _ _

/-! ## Any schedule of the queue -/

section

variable {rnd : ℚ → ℚ}

def Launch.reads : Launch M → Set (Cell M)
  | .initA _ => ∅
  | .initB _ => ∅
  | .transpose index => {.b index.2 (asColumn index.1)}
  | .multiply index => rowRead index.1

def Launch.own : Launch M → Cell M
  | .initA index => .a index.1 index.2
  | .initB index => .b index.1 index.2
  | .transpose index => .bT (asColumn index.1) index.2
  | .multiply index => .c index.1 index.2

theorem Launch.own_injective : Function.Injective (Launch.own : Launch M → Cell M) := by
  intro p q h
  cases p with
  | initA p =>
      cases q with
      | initA q => exact congrArg _ (Prod.ext (by simp_all [own]) (by simp_all [own]))
      | _ => cases h
  | initB p =>
      cases q with
      | initB q => exact congrArg _ (Prod.ext (by simp_all [own]) (by simp_all [own]))
      | _ => cases h
  | transpose p =>
      cases q with
      | transpose q =>
          have hindex : asColumn p.1 = asColumn q.1 ∧ p.2 = q.2 := by simpa [own] using h
          exact congrArg _ (Prod.ext (asColumn_injective hindex.1) hindex.2)
      | _ => cases h
  | multiply p =>
      cases q with
      | multiply q => exact congrArg _ (Prod.ext (by simp_all [own]) (by simp_all [own]))
      | _ => cases h

theorem within_accumulateRounded (row : Fin M) {W : Set (Cell M)} {next : ℚ → Item M}
    (hnext : ∀ sum, (next sum).Within (rowRead row) W) (is : List (Fin (2 * M))) (sum : ℚ) :
    (accumulateRounded rnd row sum is next).Within (rowRead row) W := by
  induction is generalizing sum with
  | nil => exact hnext sum
  | cons i is ih => exact ⟨⟨i, .inl rfl⟩, fun x => ⟨⟨i, .inr rfl⟩, fun y => ih _⟩⟩

theorem within_launched (p : Launch M) : (launched rnd p).Within p.reads {p.own} := by
  cases p with
  | initA index => exact ⟨rfl, trivial⟩
  | initB index => exact ⟨rfl, trivial⟩
  | transpose index => exact ⟨rfl, fun _ => ⟨rfl, trivial⟩⟩
  | multiply index =>
      have hlast : ∀ sum, (WorkItem.write (.c index.1 index.2) sum .done : Item M).Within
          (rowRead index.1) {.c index.1 index.2} := fun _ => ⟨rfl, trivial⟩
      exact within_accumulateRounded index.1 hlast _ 0

theorem buffer_of_mem_rowRead {row : Fin M} {cell : Cell M} (h : cell ∈ rowRead row) :
    cell.buffer = .a ∨ cell.buffer = .bT := by
  obtain ⟨i, rfl | rfl⟩ := h
  · exact .inl rfl
  · exact .inr rfl

theorem buffer_mem_reads (p : Launch M) {c : Cell M} (hc : c ∈ p.reads) :
    c.buffer ∈ (accessors p.position).reads := by
  cases p with
  | initA index => exact hc.elim
  | initB index => exact hc.elim
  | transpose index =>
      rcases hc with rfl
      exact rfl
  | multiply index => exact buffer_of_mem_rowRead hc

theorem buffer_mem_writes (p : Launch M) :
    p.own.buffer ∈ (accessors p.position).writes := by
  cases p <;> exact rfl

theorem accessors_apart (position : Nat) {buffer : Buffer}
    (hwrites : buffer ∈ (accessors position).writes) :
    buffer ∉ (accessors position).reads := by
  intro hreads
  match position with
  | 0 => exact hreads
  | 1 => exact hreads
  | 2 =>
      rcases hwrites with rfl
      cases hreads
  | 3 =>
      rcases hwrites with rfl
      rcases hreads with h | h <;> cases h
  | _ + 4 => exact hreads

theorem own_notMem_reads {p q : Launch M} (hsame : p.position = q.position) :
    p.own ∉ q.reads := by
  intro hmem
  have hwrites := buffer_mem_writes p
  rw [hsame] at hwrites
  exact accessors_apart _ hwrites (buffer_mem_reads q hmem)

theorem keeps_submissions :
    (submissions M).Keeps Launch.reads fun p => {p.own} where
  reads p c hc := buffer_mem_reads p hc
  writes p c hc := by
    rcases hc with rfl
    exact buffer_mem_writes p
  apart p q hne hsame := by
    constructor
    · intro c hc
      rcases hc with rfl
      exact ⟨own_notMem_reads hsame, fun h => hne (Launch.own_injective h)⟩
    · intro c hc
      rcases hc with rfl
      exact own_notMem_reads hsame.symm

theorem mem_allPairs {k l : Nat} (p : Fin k × Fin l) :
    p ∈ List.finRange k ×ˢ List.finRange l :=
  List.mem_product.mpr ⟨List.mem_finRange _, List.mem_finRange _⟩

theorem allPairs_nodup (k l : Nat) : (List.finRange k ×ˢ List.finRange l).Nodup :=
  (List.nodup_finRange k).product (List.nodup_finRange l)

def submissionOrder (M : Nat) : List (Launch M) :=
  [] ++ (List.finRange M ×ˢ List.finRange (2 * M)).map .initA ++
    (List.finRange (2 * M) ×ˢ List.finRange (4 * M)).map .initB ++
    (List.finRange M ×ˢ List.finRange (2 * M)).map .transpose ++
    (List.finRange M ×ˢ List.finRange (4 * M)).map .multiply

theorem lists_submissionOrder : (submissions M).Lists (submissionOrder M) := by
  have hnodup : ∀ {k l : Nat} (g : Fin k × Fin l → Launch M), Function.Injective g →
      ((List.finRange k ×ˢ List.finRange l).map g).Nodup := fun _ hg =>
    (List.nodup_map_iff hg).mpr (allPairs_nodup _ _)
  have hgroups : (submissions M).ListsGroups 4 (submissionOrder M) := by
    refine (((Submissions.ListsGroups.nil.append (hnodup .initA ?_) ?_).append
      (hnodup .initB ?_) ?_).append (hnodup .transpose ?_) ?_).append (hnodup .multiply ?_) ?_
    all_goals first
      | exact fun _ _ h => by simpa using h
      | intro p
        cases p <;> simp [submissions, Launch.position, mem_allPairs]
  refine hgroups.lists fun p => ?_
  cases p <;> simp [submissions, Launch.position]

theorem device_memory {m m' : Cell M → ℚ}
    {tr : List (Launch M × Access (Cell M) ℚ Empty)} (hdevice : Device rnd m tr m') :
    m' = inOrder (multiplyRounded rnd) (List.finRange M ×ˢ List.finRange (4 * M))
      (inOrder transposeItem (List.finRange M ×ˢ List.finRange (2 * M))
        (inOrder (initBItem rnd) (List.finRange (2 * M) ×ˢ List.finRange (4 * M))
          (inOrder initAItem (List.finRange M ×ˢ List.finRange (2 * M)) m))) := by
  rw [keeps_submissions.memory_eq within_launched lists_submissionOrder hdevice]
  simp only [submissionOrder, inOrder_append, inOrder_map, List.nil_append]
  rfl

/-! ## The result of the device -/

theorem isolated_initAItem :
    Isolated (initAItem : Fin M × Fin (2 * M) → Item M) (fun _ => ∅)
      fun index => {.a index.1 index.2} := by
  apply Isolated.of_own
  · exact fun p q h => Prod.ext (by simp_all) (by simp_all)
  · exact fun _ => ⟨rfl, trivial⟩
  · exact fun _ _ _ => Set.notMem_empty _

theorem isolated_initBItem :
    Isolated (initBItem rnd : Fin (2 * M) × Fin (4 * M) → Item M) (fun _ => ∅)
      fun index => {.b index.1 index.2} := by
  apply Isolated.of_own
  · exact fun p q h => Prod.ext (by simp_all) (by simp_all)
  · exact fun _ => ⟨rfl, trivial⟩
  · exact fun _ _ _ => Set.notMem_empty _

theorem filled_ab (m : Cell M → ℚ) :
    let m₁ := inOrder (initBItem rnd) (List.finRange (2 * M) ×ˢ List.finRange (4 * M))
      (inOrder initAItem (List.finRange M ×ˢ List.finRange (2 * M)) m)
    (∀ i k, m₁ (.a i k) = 1) ∧ ∀ k j, m₁ (.b k j) = rnd (rnd k.val + 1) := by
  obtain ⟨ha, -, -⟩ := isolated_initAItem.inOrder (allPairs_nodup M (2 * M)) m
  obtain ⟨hb, hframe, -⟩ := (@isolated_initBItem M rnd).inOrder
    (allPairs_nodup (2 * M) (4 * M))
    (inOrder initAItem (List.finRange M ×ˢ List.finRange (2 * M)) m)
  constructor
  · intro i k
    rw [hframe _ fun p _ h => by simp at h, ha (i, k) (mem_allPairs _) _ rfl]
    simp [initAItem]
  · intro k j
    rw [hb (k, j) (mem_allPairs _) _ rfl]
    simp [initBItem]

theorem exec_accumulateRounded (row : Fin M) (is : List (Fin (2 * M))) (next : ℚ → Item M)
    (m : Cell M → ℚ) (sum : ℚ) :
    (accumulateRounded rnd row sum is next).exec m =
      (next (is.foldl (fun sum i =>
        rnd (sum + rnd (m (.a row i) * m (.bT (asColumn row) i)))) sum)).exec m := by
  induction is generalizing sum with
  | nil => rfl
  | cons i is ih =>
      rw [accumulateRounded, WorkItem.exec_read, WorkItem.exec_read, ih, List.foldl_cons]

theorem isolated_multiplyRounded :
    Isolated (multiplyRounded rnd : Fin M × Fin (4 * M) → Item M)
      (fun index => rowRead index.1) fun index => {.c index.1 index.2} := by
  apply Isolated.of_own resultCell_injective
  · exact fun index => @within_launched M rnd (.multiply index)
  · intro p q _ hread
    rcases buffer_of_mem_rowRead hread with h | h <;> cases h

/-- What both sides compute for every element of the result. -/
def element (rnd : ℚ → ℚ) (M : Nat) : ℚ :=
  roundedDot rnd (fun _ : Fin (2 * M) => 1) fun k => rnd (rnd k.val + 1)

/-- The device reads column `i` of `b` for row `i`; in this program all columns are equal. -/
theorem device_element {m m' : Cell M → ℚ}
    {tr : List (Launch M × Access (Cell M) ℚ Empty)} (hdevice : Device rnd m tr m')
    (i : Fin M) (j : Fin (4 * M)) : m' (.c i j) = element rnd M := by
  obtain ⟨ha, hb⟩ := @filled_ab M rnd m
  rw [device_memory hdevice]
  generalize inOrder (initBItem rnd) (List.finRange (2 * M) ×ˢ List.finRange (4 * M))
    (inOrder initAItem (List.finRange M ×ˢ List.finRange (2 * M)) m) = m₁ at ha hb ⊢
  have htranspose := completes_inOrder transposeItem (allPairs_nodup M (2 * M)) mem_allPairs m₁
  have hbT (k) := (transpose_bT htranspose i k).trans (hb k (asColumn i))
  have hkept (k) :
      inOrder transposeItem (List.finRange M ×ˢ List.finRange (2 * M)) m₁ (.a i k) = 1 :=
    (transpose_frame htranspose (by simp)).trans (ha i k)
  have hresult := (@isolated_multiplyRounded M rnd).inOrder (allPairs_nodup M (4 * M))
    (inOrder transposeItem (List.finRange M ×ˢ List.finRange (2 * M)) m₁)
  rw [hresult.1 (i, j) (mem_allPairs _) _ rfl, multiplyRounded, exec_accumulateRounded]
  simp only [WorkItem.exec_write, WorkItem.exec_done, Function.update_self, hbT, hkept]
  rfl

/-! ## The result of the host -/

theorem isolated_hostStepRounded (i : Fin M) (k : Fin (2 * M)) :
    Isolated (hostStepRounded rnd i k) (fun j => {.c i j, .a i k, .b k j})
      fun j => {.c i j} := by
  apply Isolated.of_own
  · exact fun p q h => by simpa using h
  · exact fun j => ⟨.inl rfl, fun _ => ⟨.inr (.inl rfl), fun _ => ⟨.inr (.inr rfl),
      fun _ => ⟨rfl, trivial⟩⟩⟩⟩
  · intro p q hne h
    simp [hne] at h

theorem exec_hostRow (i : Fin M) (ks : List (Fin (2 * M))) (m : Cell M → ℚ) :
    let row : Item M := .forEach ks
      (fun k => .forEach (List.finRange (4 * M)) (hostStepRounded rnd i k) .done) .done
    (∀ j, row.exec m (.c i j) =
      ks.foldl (fun sum k => rnd (sum + rnd (m (.a i k) * m (.b k j)))) (m (.c i j))) ∧
    ∀ cell, (∀ j, cell ≠ .c i j) → row.exec m cell = m cell := by
  induction ks generalizing m with
  | nil => exact ⟨fun _ => rfl, fun _ _ => rfl⟩
  | cons k ks ih =>
      obtain ⟨hc, hframe, -⟩ := (@isolated_hostStepRounded M rnd i k).inOrder
        (List.nodup_finRange (4 * M)) m
      obtain ⟨hrest, hrestFrame⟩ :=
        ih (inOrder (hostStepRounded rnd i k) (List.finRange (4 * M)) m)
      dsimp only at hrest hrestFrame ⊢
      rw [WorkItem.forEach_cons, WorkItem.exec_followedBy,
        exec_forEach_done (hostStepRounded rnd i k)]
      constructor
      · intro j
        have hfirst := hc j (List.mem_finRange j) (.c i j) rfl
        have ha (k') := hframe (.a i k') fun _ _ h => by simp at h
        have hb (k') := hframe (.b k' j) fun _ _ h => by simp at h
        rw [hrest, hfirst, List.foldl_cons]
        simp only [ha, hb]
        congr 1
        simp [hostStepRounded]
      · intro cell hcell
        rw [hrestFrame cell hcell]
        exact hframe cell fun j _ h => hcell j h

def hostRowRead (i : Fin M) : Set (Cell M) :=
  {cell | (∃ j, cell = .c i j) ∨ cell.buffer = .a ∨ cell.buffer = .b}

theorem isolated_hostRow :
    Isolated (hostRow rnd : Fin M → Item M) hostRowRead fun i => {cell | ∃ j, cell = .c i j} where
  within i := by
    refine WorkItem.Within.forEach (fun k _ => ?_) (by trivial)
    refine WorkItem.Within.forEach (fun j _ => ?_) (by trivial)
    exact ⟨.inl ⟨j, rfl⟩, fun _ => ⟨.inr (.inl rfl), fun _ => ⟨.inr (.inr rfl),
      fun _ => ⟨⟨j, rfl⟩, trivial⟩⟩⟩⟩
  apart i i' hne cell hcell := by
    obtain ⟨j, rfl⟩ := hcell
    constructor
    · intro h
      rcases h with ⟨j', h⟩ | h | h
      · exact hne (by simpa using (Cell.c.inj h).1)
      · cases h
      · cases h
    · intro h
      obtain ⟨j', h⟩ := h
      exact hne (Cell.c.inj h).1

theorem exec_hostLoops (host : Cell M → ℚ) :
    (hostLoops rnd M).exec host =
      inOrder (hostRow rnd) (List.finRange M)
        (inOrder clearItem (List.finRange M ×ˢ List.finRange (4 * M))
          (inOrder (initBItem rnd) (List.finRange (2 * M) ×ˢ List.finRange (4 * M))
            (inOrder initAItem (List.finRange M ×ˢ List.finRange (2 * M)) host))) := by
  simp only [hostLoops, WorkItem.forEach_forEach, WorkItem.exec_forEach, WorkItem.exec_done]
  rfl

theorem host_element (host : Cell M → ℚ) (i : Fin M) (j : Fin (4 * M)) :
    (hostLoops rnd M).exec host (.c i j) = element rnd M := by
  obtain ⟨ha, hb⟩ := @filled_ab M rnd host
  rw [exec_hostLoops]
  generalize inOrder (initBItem rnd) (List.finRange (2 * M) ×ˢ List.finRange (4 * M))
    (inOrder initAItem (List.finRange M ×ˢ List.finRange (2 * M)) host) = m₁ at ha hb ⊢
  obtain ⟨hclear, hframe, -⟩ := isolated_clearItem.inOrder (allPairs_nodup M (4 * M)) m₁
  have hzero : inOrder clearItem (List.finRange M ×ˢ List.finRange (4 * M)) m₁ (.c i j) = 0 := by
    rw [hclear (i, j) (mem_allPairs _) _ rfl]
    simp [clearItem]
  have ha' (k) := (hframe (.a i k) fun _ _ h => by simp at h).trans (ha i k)
  have hb' (k) := (hframe (.b k j) fun _ _ h => by simp at h).trans (hb k j)
  have hrows := (@isolated_hostRow M rnd).inOrder (List.nodup_finRange M)
    (inOrder clearItem (List.finRange M ×ˢ List.finRange (4 * M)) m₁)
  rw [hrows.1 i (List.mem_finRange i) _ ⟨j, rfl⟩, hostRow,
    (exec_hostRow i (List.finRange (2 * M)) _).1 j, hzero]
  simp only [ha', hb']
  rfl

end

/-! ## The comparison -/

section

variable (same : ℚ → ℚ → Bool) (cBack cHost : Matrix M)

def mismatches (indices : List (Fin M × Fin (4 * M))) : List (Mismatch M) :=
  (indices.filter fun index =>
    !same (cBack index.1 index.2) (cHost index.1 index.2)).map (mismatchAt cBack cHost)

theorem mismatches_append (l l' : List (Fin M × Fin (4 * M))) :
    mismatches same cBack cHost (l ++ l') =
      mismatches same cBack cHost l ++ mismatches same cBack cHost l' := by
  simp [mismatches]

def Comparison.add (s : Comparison M) (l : List (Mismatch M)) : Comparison M :=
  ⟨s.mismatchFound || !l.isEmpty, s.printCount + l.length, s.printed ++ l⟩

theorem Comparison.add_nil (s : Comparison M) : s.add [] = s := by simp [add]

theorem Comparison.add_add (s : Comparison M) (l l' : List (Mismatch M)) :
    (s.add l).add l' = s.add (l ++ l') := by
  cases l with
  | nil => simp [add]
  | cons x l =>
      simp [add]
      omega

theorem compareColumns_eq (i : Fin M) (js : List (Fin (4 * M))) {s : Comparison M}
    (hs : s.printCount < 5) :
    compareColumns same cBack cHost i js s =
      s.add ((mismatches same cBack cHost (js.map (Prod.mk i))).take (5 - s.printCount)) := by
  induction js generalizing s with
  | nil => simp [compareColumns, mismatches, Comparison.add_nil]
  | cons j js ih =>
      unfold compareColumns
      split
      · rename_i hsame
        rw [ih hs]
        simp [mismatches, hsame]
      · rename_i hsame
        have hcons : mismatches same cBack cHost ((j :: js).map (Prod.mk i)) =
            mismatchAt cBack cHost (i, j) ::
              mismatches same cBack cHost (js.map (Prod.mk i)) := by
          simp [mismatches, hsame]
        have hstate : (⟨true, s.printCount + 1,
            s.printed ++ [mismatchAt cBack cHost (i, j)]⟩ : Comparison M) =
            s.add [mismatchAt cBack cHost (i, j)] := by simp [Comparison.add]
        obtain ⟨more, hmore⟩ : ∃ more, 5 - s.printCount = more + 1 :=
          ⟨4 - s.printCount, by omega⟩
        rw [hcons, hmore, List.take_succ_cons]
        dsimp only
        split
        · rename_i hlast
          have hzero : more = 0 := by omega
          rw [hstate, hzero, List.take_zero]
        · rename_i hgoes
          have hrest : 5 - (s.add [mismatchAt cBack cHost (i, j)]).printCount = more := by
            simp only [Comparison.add, List.length_singleton]
            omega
          have hfew : (s.add [mismatchAt cBack cHost (i, j)]).printCount < 5 := by
            simp only [Comparison.add, List.length_singleton]
            omega
          rw [hstate, ih hfew, hrest, Comparison.add_add, List.singleton_append]

/-- The loops report the first five elements that differ, in row-major order. -/
theorem compareRows_eq (is : List (Fin M)) {s : Comparison M} (hs : s.printCount < 5) :
    compareRows same cBack cHost is s =
      s.add ((mismatches same cBack cHost
        (is ×ˢ List.finRange (4 * M))).take (5 - s.printCount)) := by
  induction is generalizing s with
  | nil => simp [compareRows, mismatches, Comparison.add_nil]
  | cons i is ih =>
      rw [compareRows, compareColumns_eq same cBack cHost i _ hs, List.product_cons,
        mismatches_append]
      generalize mismatches same cBack cHost ((List.finRange (4 * M)).map (Prod.mk i)) = row
      by_cases hlast : 5 - s.printCount ≤ row.length
      · -- the fifth message ends both loops
        rw [List.take_append_of_le_length hlast, if_pos]
        simp only [Comparison.add, List.length_take]
        omega
      · have htake : row.take (5 - s.printCount) = row := List.take_of_length_le (by omega)
        have hcount : (s.add row).printCount = s.printCount + row.length := rfl
        rw [htake, if_neg (by omega), ih (by omega), Comparison.add_add, hcount,
          List.take_append, htake, Nat.sub_add_eq]

end

theorem verifyResult_eq (rnd : ℚ → ℚ) (cBack : Matrix M) (host : Cell M → ℚ) :
    verifyResult rnd cBack host =
      let wrong := mismatches (valueSame rnd) cBack (fun _ _ => element rnd M)
        (List.finRange M ×ˢ List.finRange (4 * M))
      if wrong = [] then ⟨[], "Success - The results are correct!\n", 0⟩
      else ⟨wrong.take 5, "Fail - The results mismatch!\n", -1⟩ := by
  have hhost : (fun (i : Fin M) (j : Fin (4 * M)) => (hostLoops rnd M).exec host (.c i j)) =
      fun _ _ => element rnd M := by
    ext i j : 2
    exact host_element host i j
  have hstart : (⟨false, 0, []⟩ : Comparison M).printCount < 5 := Nat.zero_lt_succ 4
  rw [verifyResult]
  dsimp only
  rw [hhost, compareRows_eq _ _ _ _ hstart]
  generalize mismatches (valueSame rnd) cBack (fun _ _ => element rnd M)
    (List.finRange M ×ˢ List.finRange (4 * M)) = wrong
  cases wrong with
  | nil => rfl
  | cons x wrong => rfl

/-! ## The values of the program -/

theorem sum_succ (n : Nat) : (∑ k ∈ Finset.range n, (k + 1)) * 2 = n * (n + 1) := by
  induction n with
  | zero => rfl
  | succ n ih =>
      rw [Finset.sum_range_succ, Nat.add_mul, ih]
      ring

/-- In single precision every element is `1 + 2 + .. + N` exactly, as long as that number
has no more than 24 bits. -/
theorem element_toSingle (hfit : M * (2 * M + 1) ≤ 2 ^ 24) :
    element toSingle M = ((M * (2 * M + 1) : ℕ) : ℚ) := by
  have hsum : ∑ k : Fin (2 * M), 1 * (k.val + 1) = M * (2 * M + 1) := by
    have hdouble := sum_succ (2 * M)
    rw [← Fin.sum_univ_eq_sum_range (fun k => k + 1)] at hdouble
    simp only [Nat.one_mul]
    nlinarith
  have hentry : ∀ k : Fin (2 * M), toSingle (toSingle k.val + 1) = ((k.val + 1 : ℕ) : ℚ) := by
    intro k
    have hk := k.isLt
    have hM : 0 < M := by omega
    have hle : 2 * M ≤ M * (2 * M + 1) := by nlinarith
    have hindex : toSingle (k.val : ℚ) = k.val := isSingle_natCast (by omega)
    rw [hindex]
    exact_mod_cast isSingle_natCast (show k.val + 1 ≤ 2 ^ 24 by omega)
  have hdot := roundedDot_natCast (fun _ : Fin (2 * M) => 1) (fun k => k.val + 1)
    (by rw [hsum]; exact hfit)
  rw [hsum] at hdot
  rw [element, ← hdot]
  simp only [hentry, Nat.cast_one]

theorem valueSame_self (q : ℚ) : valueSame toSingle q q := by
  have hzero : toSingle 0 = 0 := by exact_mod_cast isSingle_natCast (Nat.zero_le (2 ^ 24))
  simp [valueSame, hzero]

/-- `ValueSame` leaves no tolerance at numbers from 2 on. -/
theorem valueSame_iff (q : Single) {n : ℕ} (hn : 2 ≤ n) :
    valueSame toSingle q.val n ↔ q.val = n := by
  constructor
  · intro h
    exact q.property.eq_of_abs_lt hn (of_decide_eq_true h)
  · intro h
    rw [h]
    exact valueSame_self _

theorem mismatches_toSingle {total : ℕ} (htotal : 2 ≤ total)
    (cBack : Fin M → Fin (4 * M) → Single) (indices : List (Fin M × Fin (4 * M))) :
    mismatches (valueSame toSingle) (fun i j => (cBack i j).val) (fun _ _ => (total : ℚ)) indices =
      (indices.filter fun index => (cBack index.1 index.2).val ≠ total).map fun index =>
        ⟨index.1, index.2, total, (cBack index.1 index.2).val⟩ := by
  unfold mismatches mismatchAt
  congr 1
  apply List.filter_congr
  intro index _
  have hsame := valueSame_iff (cBack index.1 index.2) htotal
  by_cases heq : (cBack index.1 index.2).val = total
  · simp [heq, valueSame_self]
  · simp [heq, Bool.eq_false_iff.mpr (mt hsame.mp heq)]

/-- The program reports success: whatever the buffers and the arrays of the host start
with, and whatever the order in which the queue works off the command groups and
interleaves their work items, every element of the device is `1 + 2 + .. + N` and the
host finds the same.  The sizes of the program are those for `M = 150`. -/
theorem main_succeeds (hfit : M * (2 * M + 1) ≤ 2 ^ 24) (m host : Cell M → ℚ) :
    (∃ tr m', Device toSingle m tr m') ∧
    ∀ tr m', Device toSingle m tr m' →
      (∀ i j, m' (.c i j) = ((M * (2 * M + 1) : ℕ) : ℚ)) ∧
      verifyResult toSingle (fun i j => m' (.c i j)) host =
        ⟨[], "Success - The results are correct!\n", 0⟩ := by
  refine ⟨⟨_, _, lists_submissionOrder.outOfOrder (launched toSingle) m⟩, ?_⟩
  intro tr m' hdevice
  have helement := device_element hdevice
  constructor
  · intro i j
    rw [helement, element_toSingle hfit]
  · rw [verifyResult_eq]
    simp only [helement]
    rw [if_pos]
    simp [mismatches, valueSame_self]

theorem main_succeeds_program : ∃ tr m',
    Device toSingle (fun _ : Cell 150 => 0) tr m' ∧
      (verifyResult toSingle (fun i j => m' (.c i j)) fun _ => 7).result = 0 := by
  have hmain := main_succeeds (M := 150) (by decide) (fun _ => 0) fun _ => 7
  obtain ⟨⟨tr, m', hdevice⟩, hall⟩ := hmain
  refine ⟨tr, m', hdevice, ?_⟩
  rw [(hall tr m' hdevice).2]

/-- The verdict on any result of the device is exact: `VerifyResult` returns 0 when every
element is `1 + 2 + .. + N`, and otherwise -1 after it has reported the first five
elements that are not, in row-major order. -/
theorem verifyResult_verdict (hM : 1 ≤ M) (hfit : M * (2 * M + 1) ≤ 2 ^ 24)
    (cBack : Fin M → Fin (4 * M) → Single) (host : Cell M → ℚ) :
    let expected : ℚ := ((M * (2 * M + 1) : ℕ) : ℚ)
    let wrong := (List.finRange M ×ˢ List.finRange (4 * M)).filter fun index =>
      (cBack index.1 index.2).val ≠ expected
    ((∀ i j, (cBack i j).val = expected) →
      verifyResult toSingle (fun i j => (cBack i j).val) host =
        ⟨[], "Success - The results are correct!\n", 0⟩) ∧
    ((∃ i j, (cBack i j).val ≠ expected) →
      verifyResult toSingle (fun i j => (cBack i j).val) host =
        ⟨(wrong.map fun index => ⟨index.1, index.2, expected, (cBack index.1 index.2).val⟩).take 5,
          "Fail - The results mismatch!\n", -1⟩) := by
  have htwo : 2 ≤ M * (2 * M + 1) := by nlinarith
  dsimp only
  rw [verifyResult_eq, element_toSingle hfit]
  generalize M * (2 * M + 1) = total at htwo ⊢
  rw [mismatches_toSingle htwo]
  constructor
  · intro hright
    simp [hright]
  · intro hsome
    obtain ⟨i, j, hne⟩ := hsome
    dsimp only
    rw [if_neg]
    simp only [List.map_eq_nil_iff, List.filter_eq_nil_iff]
    intro hall
    simpa using hall (i, j) (mem_allPairs _) (by simpa using hne)

theorem verifyResult_verdict_four :
    (verifyResult toSingle (fun (_ : Fin 1) (j : Fin (4 * 1)) => if j = 0 then 4 else 3)
      fun _ => 0).result = -1 := by
  have hthree : IsSingle 3 := isSingle_natCast (show 3 ≤ 2 ^ 24 by decide)
  have hfour : IsSingle 4 := isSingle_natCast (show 4 ≤ 2 ^ 24 by decide)
  have hverdict := (verifyResult_verdict (M := 1) (by decide) (by decide)
    (fun _ j => if j = 0 then ⟨4, hfour⟩ else ⟨3, hthree⟩) fun _ => 0).2
    ⟨0, 0, by norm_num⟩
  have hvalues : (fun (_ : Fin 1) (j : Fin (4 * 1)) =>
      (if j = 0 then ⟨4, hfour⟩ else ⟨3, hthree⟩ : Single).val) =
      fun _ j => if j = 0 then 4 else 3 := by
    ext _ j : 2
    split <;> rfl
  rw [hvalues] at hverdict
  rw [hverdict]

end UnoApi.MatrixMul
