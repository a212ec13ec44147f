import UnoApi.DataParallel.QueueReduction
import UnoApi.MonteCarlo.Counts

/-!
# The queue of the dart game

The queue is not in-order: the reduction waits for the darts because both command groups
use the buffer of the counts.
-/

namespace UnoApi.MonteCarlo

open UnoApi.DataParallel

inductive Buffer where
  | counts
  | sum
  deriving DecidableEq

section

variable {σ : Type} (e : Engine σ) (seed : Int) (numberOfPlayers numberOfDarts : UInt64)

abbrev Launch := Player numberOfPlayers ⊕ Player numberOfPlayers

def launched : Launch numberOfPlayers → Item numberOfPlayers :=
  Sum.elim (dartKernel e seed numberOfDarts) (reduceKernel numberOfPlayers)

def position : Launch numberOfPlayers → Nat
  | .inl _ => 0
  | .inr _ => 1

/-- The accessors of the command groups; the reduction combines the original value. -/
def accessors : Nat → Accessors Buffer
  | 0 => ⟨∅, {.counts}⟩
  | 1 => ⟨{.counts, .sum}, {.sum}⟩
  | _ => ⟨∅, ∅⟩

def submissions : Submissions (Launch numberOfPlayers) (Player numberOfPlayers) Buffer :=
  ⟨position numberOfPlayers, accessors, fun _ => .counts⟩

/-- The program can print these counts and this sum under some schedule of the queue. -/
def QueuePrints (counts : Player numberOfPlayers → UInt64) (sum : UInt64) : Prop :=
  ∃ tr, OutOfOrder (submissions numberOfPlayers).WaitsFor
      (launched e seed numberOfPlayers numberOfDarts) (fun _ => 0) tr counts ∧
    Combines (0 ::ₘ contributions tr) sum

end

section

variable {σ : Type} {e : Engine σ} {seed : Int} {numberOfPlayers numberOfDarts : UInt64}

def reads : Launch numberOfPlayers → Set (Player numberOfPlayers) :=
  Sum.elim (fun _ => ∅) fun player => {player}

def writes : Launch numberOfPlayers → Set (Player numberOfPlayers) :=
  Sum.elim (fun player => {player}) fun _ => ∅

theorem within_launched (p : Launch numberOfPlayers) :
    (launched e seed numberOfPlayers numberOfDarts p).Within (reads p) (writes p) := by
  cases p with
  | inl player => exact isolated_dartKernel.within player
  | inr player => exact ⟨rfl, fun _ => trivial⟩

theorem keeps_submissions : (submissions numberOfPlayers).Keeps reads writes where
  reads p c hc := by
    cases p with
    | inl player => exact hc.elim
    | inr player => exact .inl rfl
  writes p c hc := by
    cases p with
    | inl player => exact rfl
    | inr player => exact hc.elim
  apart p q hne hsame := by
    cases p with
    | inl player =>
        cases q with
        | inl player' =>
            have hplayer : player ≠ player' := fun heq => hne (congrArg _ heq)
            constructor
            · intro c hc
              rcases hc with rfl
              exact ⟨id, hplayer⟩
            · exact fun _ _ h => h.elim
        | inr player' => cases hsame
    | inr player =>
        cases q with
        | inl player' => cases hsame
        | inr player' => exact ⟨fun _ h => h.elim, fun _ h => h.elim⟩

def submissionOrder (numberOfPlayers : UInt64) : List (Launch numberOfPlayers) :=
  [] ++ (List.finRange numberOfPlayers.toNat).map .inl ++
    (List.finRange numberOfPlayers.toNat).map .inr

theorem lists_submissionOrder :
    (submissions numberOfPlayers).Lists (submissionOrder numberOfPlayers) := by
  have hnodup : ∀ g : Player numberOfPlayers → Launch numberOfPlayers, Function.Injective g →
      ((List.finRange numberOfPlayers.toNat).map g).Nodup := fun _ hg =>
    (List.nodup_map_iff hg).mpr (List.nodup_finRange _)
  have hgroups : (submissions numberOfPlayers).ListsGroups 2 (submissionOrder _) := by
    refine (Submissions.ListsGroups.nil.append (hnodup .inl Sum.inl_injective) ?_).append
      (hnodup .inr Sum.inr_injective) ?_
    all_goals
      intro p
      cases p <;> simp [submissions, position]
  refine hgroups.lists fun p => ?_
  cases p <;> simp [submissions, position]

/-! ## What the queue leaves -/

def thrown (e : Engine σ) (seed : Int) (numberOfDarts : UInt64)
    (player : Player numberOfPlayers) : UInt64 :=
  (play e seed numberOfDarts player).dartsWithinCircle

theorem inOrder_darts (m : Player numberOfPlayers → UInt64) :
    inOrder (dartKernel e seed numberOfDarts) (List.finRange numberOfPlayers.toNat) m =
      thrown e seed numberOfDarts := by
  have hdarts := (@isolated_dartKernel σ numberOfPlayers e seed numberOfDarts).inOrder
    (List.nodup_finRange _) m
  ext1 player
  rw [hdarts.1 player (List.mem_finRange _) player rfl, dartKernel, WorkItem.exec_write,
    WorkItem.exec_done, Function.update_self, thrown]

theorem launched_endsWithReduction :
    EndsWithReduction (submissions numberOfPlayers) reads writes
      (dartKernel e seed numberOfDarts) (fun player : Player numberOfPlayers => player) id
      (List.finRange numberOfPlayers.toNat) (List.finRange numberOfPlayers.toNat) where
  keeps := keeps_submissions
  within := within_launched
  lists := lists_submissionOrder
  quiet _ _ := rfl

theorem queue_counts {m m' : Player numberOfPlayers → UInt64}
    {tr : List (Launch numberOfPlayers × Access (Player numberOfPlayers) UInt64 UInt64)}
    (hrun : OutOfOrder (submissions numberOfPlayers).WaitsFor
      (launched e seed numberOfPlayers numberOfDarts) m tr m') :
    m' = thrown e seed numberOfDarts ∧
      (contributions tr).sum = ∑ player : Player numberOfPlayers,
        thrown e seed numberOfDarts player := by
  have hcounts : m' = thrown e seed numberOfDarts :=
    (launched_endsWithReduction.memory_eq hrun).trans (inOrder_darts m)
  have hcontributions : contributions tr =
      Finset.univ.val.map fun player : Player numberOfPlayers => id (m' player) :=
    launched_endsWithReduction.contributions_eq hrun
  constructor
  · exact hcounts
  · rw [hcontributions, ← Finset.sum_eq_multiset_sum, hcounts]
    rfl

variable {counts : Player numberOfPlayers → UInt64} {sum : UInt64}

theorem queuePrints_counts (h : QueuePrints e seed numberOfPlayers numberOfDarts counts sum) :
    counts = thrown e seed numberOfDarts ∧ sum = ∑ player, counts player := by
  obtain ⟨tr, hrun, hcombines⟩ := h
  obtain ⟨hcounts, hsum⟩ := queue_counts hrun
  refine ⟨hcounts, ?_⟩
  rw [hcombines.eq_sum, Multiset.sum_cons, zero_add, hsum, hcounts]

theorem prints_counts (h : Prints e seed numberOfPlayers numberOfDarts counts sum) :
    counts = thrown e seed numberOfDarts ∧ sum = ∑ player, counts player := by
  obtain ⟨tr, m, tr', hthrow, hreduce, hcombines⟩ := h
  obtain ⟨hcontributions, hkept⟩ := contributions_contribute hreduce
  constructor
  · ext1 player
    rw [hkept, isolated_dartKernel.memory_eq hthrow player rfl, dartKernel,
      WorkItem.exec_write, WorkItem.exec_done, Function.update_self, thrown]
  · rw [hcombines.eq_sum, Multiset.sum_cons, zero_add, hcontributions, hkept]
    rfl

theorem exists_queuePrints : ∃ counts sum,
    QueuePrints e seed numberOfPlayers numberOfDarts counts sum :=
  ⟨_, _, _, lists_submissionOrder.outOfOrder _ _, Combines.sum _⟩

end

/-- Under every schedule the queue allows, and however it reduces, the program prints the
counts of the players' own engines and their sum in 64 bits; it prints what it would print
if the queue were in-order. -/
theorem queuePrints_iff {σ : Type} (e : Engine σ) (seed : Int)
    (numberOfPlayers numberOfDarts : UInt64) (counts : Player numberOfPlayers → UInt64)
    (sum : UInt64) :
    (QueuePrints e seed numberOfPlayers numberOfDarts counts sum ↔
      counts = thrown e seed numberOfDarts ∧ sum = ∑ player, counts player) ∧
    (QueuePrints e seed numberOfPlayers numberOfDarts counts sum ↔
      Prints e seed numberOfPlayers numberOfDarts counts sum) := by
  have hqueue : QueuePrints e seed numberOfPlayers numberOfDarts counts sum ↔
      counts = thrown e seed numberOfDarts ∧ sum = ∑ player, counts player := by
    refine ⟨queuePrints_counts, fun h => ?_⟩
    obtain ⟨counts', sum', hprints⟩ := @exists_queuePrints σ e seed numberOfPlayers numberOfDarts
    obtain ⟨hcounts', hsum'⟩ := queuePrints_counts hprints
    rw [h.2, h.1, ← hcounts', ← hsum']
    exact hprints
  have hprints : Prints e seed numberOfPlayers numberOfDarts counts sum ↔
      counts = thrown e seed numberOfDarts ∧ sum = ∑ player, counts player := by
    refine ⟨prints_counts, fun h => ?_⟩
    obtain ⟨counts', sum', hprints⟩ := @exists_prints σ numberOfPlayers e seed numberOfDarts
    obtain ⟨hcounts', hsum'⟩ := prints_counts hprints
    rw [h.2, h.1, ← hcounts', ← hsum']
    exact hprints
  exact ⟨hqueue, hqueue.trans hprints.symm⟩

end UnoApi.MonteCarlo
