import Mathlib.Logic.Relation

/-!
# Transitive closure by pivots

`addPivot k T` adds to a relation the pairs connected through `k`.  Adding every
vertex of a graph as a pivot, one after the other, closes its edge relation.

An implementation updates the relation in place, so while pivot `k` is added
some pairs are looked up before and some after their own update.  `RacyPivot`
allows any mixture; `RacyPivot.eq_addPivot` shows that it does not matter,
because row `k` and column `k` are the same before and after.
-/

namespace UnoApi.Graph

variable {V : Type}

def addPivot (k : V) (T : V → V → Prop) : V → V → Prop :=
  fun u v => T u v ∨ (T u k ∧ T k v)

def addPivots (ks : List V) (T : V → V → Prop) : V → V → Prop :=
  ks.foldl (fun T k => addPivot k T) T

/-- `T'` results from `T` by adding pivot `k` in place: the update of `u, v` sees
`u, k` and `k, v` before or after their own update, except that it sees the
pair it updates itself before. -/
def RacyPivot (k : V) (T T' : V → V → Prop) : Prop :=
  ∀ u v, ∃ X Y : Prop,
    ((X ↔ T u k) ∨ (v ≠ k ∧ (X ↔ T' u k))) ∧
    ((Y ↔ T k v) ∨ (u ≠ k ∧ (Y ↔ T' k v))) ∧
    (T' u v ↔ T u v ∨ (X ∧ Y))

theorem RacyPivot.column {k : V} {T T' : V → V → Prop} (h : RacyPivot k T T') (u : V) :
    T' u k ↔ T u k := by
  obtain ⟨X, Y, hX, -, hT'⟩ := h u k
  have hX : X ↔ T u k := hX.resolve_right fun hne => hne.1 rfl
  rw [hT', hX]
  exact ⟨fun h => h.elim id And.left, Or.inl⟩

theorem RacyPivot.row {k : V} {T T' : V → V → Prop} (h : RacyPivot k T T') (v : V) :
    T' k v ↔ T k v := by
  obtain ⟨X, Y, -, hY, hT'⟩ := h k v
  have hY : Y ↔ T k v := hY.resolve_right fun hne => hne.1 rfl
  rw [hT', hY]
  exact ⟨fun h => h.elim id And.right, Or.inl⟩

/-- Old or new, a look-up in row or column `k` gives the same answer. -/
theorem RacyPivot.eq_addPivot {k : V} {T T' : V → V → Prop} (h : RacyPivot k T T') :
    T' = addPivot k T := by
  ext u v
  obtain ⟨X, Y, hX, hY, hT'⟩ := h u v
  have hX : X ↔ T u k := hX.elim id fun hnew => hnew.2.trans (h.column u)
  have hY : Y ↔ T k v := hY.elim id fun hnew => hnew.2.trans (h.row v)
  rw [addPivot, hT', hX, hY]

/-! ## Closure -/

/-- Two pairs that meet in a vertex of `S` are connected. -/
def ClosedThrough (S : V → Prop) (T : V → V → Prop) : Prop :=
  ∀ k, S k → ∀ u v, T u k → T k v → T u v

theorem ClosedThrough.addPivot {S : V → Prop} {T : V → V → Prop}
    (h : ClosedThrough S T) (p : V) :
    ClosedThrough (fun k => S k ∨ k = p) (addPivot p T) := by
  intro k hk u v huk hkv
  rcases hk with hk | rfl
  · rcases huk with huk | ⟨hup, hpk⟩
    · rcases hkv with hkv | ⟨hkp, hpv⟩
      · exact .inl (h k hk u v huk hkv)
      · exact .inr ⟨h k hk u p huk hkp, hpv⟩
    · rcases hkv with hkv | ⟨_, hpv⟩
      · exact .inr ⟨hup, h k hk p v hpk hkv⟩
      · exact .inr ⟨hup, hpv⟩
  · have huk : T u k := huk.elim id And.left
    have hkv : T k v := hkv.elim id And.right
    exact .inr ⟨huk, hkv⟩

theorem ClosedThrough.addPivots {S : V → Prop} {T : V → V → Prop}
    (h : ClosedThrough S T) (ks : List V) :
    ClosedThrough (fun k => S k ∨ k ∈ ks) (addPivots ks T) := by
  induction ks generalizing S T with
  | nil => simpa [Graph.addPivots] using h
  | cons p ks ih =>
      have hnext := ih (h.addPivot p)
      simpa [Graph.addPivots, or_assoc] using hnext

theorem subset_addPivots (ks : List V) (T : V → V → Prop) {u v : V} (h : T u v) :
    addPivots ks T u v := by
  induction ks generalizing T with
  | nil => exact h
  | cons p ks ih => exact ih _ (.inl h)

theorem addPivots_subset {R T : V → V → Prop} (ks : List V)
    (hT : ∀ u v, T u v → Relation.TransGen R u v) {u v : V}
    (h : addPivots ks T u v) : Relation.TransGen R u v := by
  induction ks generalizing T with
  | nil => exact hT u v h
  | cons p ks ih =>
      apply ih _ h
      intro a b hab
      rcases hab with hab | ⟨hap, hpb⟩
      · exact hT a b hab
      · exact (hT a p hap).trans (hT p b hpb)

/-- With every vertex as a pivot the relation is the transitive closure. -/
theorem addPivots_iff_transGen {R : V → V → Prop} {ks : List V} (hall : ∀ v, v ∈ ks)
    (u v : V) : addPivots ks R u v ↔ Relation.TransGen R u v := by
  constructor
  · exact addPivots_subset ks fun a b hab => .single hab
  · intro hpath
    have hclosed : ClosedThrough (fun k => False ∨ k ∈ ks) (addPivots ks R) :=
      ClosedThrough.addPivots (fun _ hk => hk.elim) ks
    induction hpath with
    | single hab => exact subset_addPivots ks R hab
    | tail _ hbc ih => exact hclosed _ (.inr (hall _)) _ _ ih (subset_addPivots ks R hbc)

end UnoApi.Graph
