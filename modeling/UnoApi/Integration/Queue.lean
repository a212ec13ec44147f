import UnoApi.DataParallel.QueueReduction
import UnoApi.Integration.Values

/-!
# The queue of the parallel option

The three command groups go to a queue that orders them by their accessors.  The values
are independent of the rest, so their work items may still run while the reduction does;
the reduction waits for the trapezoids.
-/

namespace UnoApi.Integration

open UnoApi.DataParallel UnoApi.Machine

abbrev Launch (o : Options) :=
  (Fin (domain o).size ⊕ Fin (domain o).size) ⊕ Fin (domain o).numberOfTrapezoids

def launched (f : ℚ → ℚ) (o : Options) : Launch o → Item :=
  Sum.elim (populateKernels f o) (reduceKernel o)

def position (o : Options) : Launch o → Nat
  | .inl (.inl _) => 0
  | .inl (.inr _) => 1
  | .inr _ => 2

/-- The accessors of the command groups, all of them for reading and writing. -/
def accessors : Nat → Accessors Buffer
  | 0 => ⟨{.v}, {.v}⟩
  | 1 => ⟨{.t}, {.t}⟩
  | 2 => ⟨{.t, .r}, {.t, .r}⟩
  | _ => ⟨∅, ∅⟩

def submissions (o : Options) : Submissions (Launch o) Cell Buffer :=
  ⟨position o, accessors, Prod.fst⟩

section

variable {f : ℚ → ℚ} {o : Options}

/-! ## The footprints of the work items -/

def reads (o : Options) : Launch o → Set Cell :=
  Sum.elim (fun _ => ∅) fun index => {(.t, index.val)}

def writes (o : Options) : Launch o → Set Cell :=
  Sum.elim (fun item => {populatedCell item}) fun _ => ∅

theorem within_launched (p : Launch o) :
    (launched f o p).Within (reads o p) (writes o p) := by
  cases p with
  | inl item => exact (isolated_populateKernels f o).within item
  | inr index => exact ⟨rfl, fun _ => trivial⟩

theorem keeps_submissions : (submissions o).Keeps (reads o) (writes o) where
  reads p c hc := by
    cases p with
    | inl item => exact hc.elim
    | inr index =>
        rcases hc with rfl
        exact .inl rfl
  writes p c hc := by
    rcases p with (index | index) | index
    · rcases hc with rfl
      exact rfl
    · rcases hc with rfl
      exact rfl
    · exact hc.elim
  apart p q hne hsame := by
    cases p with
    | inl item =>
        cases q with
        | inl item' =>
            have hitem : item ≠ item' := fun heq => hne (congrArg _ heq)
            exact ⟨(isolated_populateKernels f o).apart item item' hitem, fun _ _ h => h.elim⟩
        | inr index => rcases item with index' | index' <;> cases hsame
    | inr index =>
        cases q with
        | inl item => rcases item with index' | index' <;> cases hsame
        | inr index' => exact ⟨fun _ h => h.elim, fun _ h => h.elim⟩

def populateOrder (o : Options) : List (Fin (domain o).size ⊕ Fin (domain o).size) :=
  (List.finRange (domain o).size).map .inl ++ (List.finRange (domain o).size).map .inr

def submissionOrder (o : Options) : List (Launch o) :=
  [] ++ (List.finRange (domain o).size).map (fun index => .inl (.inl index)) ++
    (List.finRange (domain o).size).map (fun index => .inl (.inr index)) ++
    (List.finRange (domain o).numberOfTrapezoids).map .inr

theorem submissionOrder_eq (o : Options) :
    submissionOrder o = (populateOrder o).map .inl ++
      (List.finRange (domain o).numberOfTrapezoids).map .inr := by
  simp [submissionOrder, populateOrder, Function.comp_def]

theorem lists_submissionOrder : (submissions o).Lists (submissionOrder o) := by
  have hnodup : ∀ {k : Nat} (g : Fin k → Launch o), Function.Injective g →
      ((List.finRange k).map g).Nodup := fun _ hg =>
    (List.nodup_map_iff hg).mpr (List.nodup_finRange _)
  have hgroups : (submissions o).ListsGroups 3 (submissionOrder o) := by
    refine ((Submissions.ListsGroups.nil.append (hnodup _ ?_) ?_).append
      (hnodup _ ?_) ?_).append (hnodup _ ?_) ?_
    all_goals first
      | exact fun _ _ h => by simpa using h
      | intro p
        rcases p with (index | index) | index <;> simp [submissions, position]
  refine hgroups.lists fun p => ?_
  rcases p with (index | index) | index <;> simp [submissions, position]

theorem launched_endsWithReduction :
    EndsWithReduction (submissions o) (reads o) (writes o) (populateKernels f o)
      (fun index : Fin (domain o).numberOfTrapezoids => (.t, index.val)) id (populateOrder o)
      (List.finRange (domain o).numberOfTrapezoids) where
  keeps := keeps_submissions
  within := within_launched
  lists := submissionOrder_eq o ▸ lists_submissionOrder
  quiet item _ := by cases item <;> rfl

variable {m m' : Cell → ℚ} {tr : List (Launch o × Access Cell ℚ ℚ)}

end

end UnoApi.Integration
