import UnoApi.DataParallel.OutOfOrder
import Mathlib.Data.Prod.Basic

/-!
# Command groups that all wait for each other

When the accessors of any two groups conflict, a queue that is not in-order has no choice
left: `outOfOrder_iff_queueRun` states that its runs are those of the in-order queue, for
kernels of any kind.
-/

namespace UnoApi.DataParallel

variable {κ κ' ι α ε : Type}

def launchedFrom (kernels : List (κ → WorkItem ι α ε)) (p : Nat × κ) : WorkItem ι α ε :=
  kernels.getD p.1 (fun _ => .done) p.2

def Later (p q : Nat × κ) : Prop := q.1 < p.1

def withoutGroups (tr : List ((Nat × κ) × Access ι α ε)) : List (κ × Access ι α ε) :=
  tr.map fun l => (l.1.2, l.2)

section

variable [DecidableEq ι] [DecidableEq κ] [DecidableEq κ'] {waitsFor : κ → κ → Prop}

/-! ## Runs of some of the items -/

theorem OutOfOrderRun.of_done {c c' : Config κ ι α ε} {tr : List (κ × Access ι α ε)}
    (hrun : OutOfOrderRun waitsFor c tr c') (hdone : ∀ l ∈ tr, c.pending l.1 = .done) :
    tr = [] ∧ c' = c := by
  cases hrun with
  | refl => exact ⟨rfl, rfl⟩
  | head _ hstep _ =>
      rw [hdone _ List.mem_cons_self] at hstep
      cases hstep

theorem OutOfOrderRun.notMem_of_done {c c' : Config κ ι α ε} {tr : List (κ × Access ι α ε)}
    (hrun : OutOfOrderRun waitsFor c tr c') {p : κ} (hdone : c.pending p = .done) :
    ∀ l ∈ tr, l.1 ≠ p := by
  induction hrun with
  | refl c => simp
  | @head c c' r a w m tr _ hstep _ ih =>
      have hr : r ≠ p := by
        intro heq
        rw [heq, hdone] at hstep
        cases hstep
      intro l hl
      rcases List.mem_cons.mp hl with rfl | hl
      · exact hr
      · exact ih ((Function.update_of_ne (Ne.symm hr) _ _).trans hdone) l hl

/-- A run in which the items of `first` come to their ends before another one starts. -/
structure SplitsAt (waitsFor : κ → κ → Prop) (first : κ → Prop) (c : Config κ ι α ε)
    (tr₁ : List (κ × Access ι α ε)) (c₁ : Config κ ι α ε) (tr₂ : List (κ × Access ι α ε))
    (c' : Config κ ι α ε) : Prop where
  before : OutOfOrderRun waitsFor c tr₁ c₁
  after : OutOfOrderRun waitsFor c₁ tr₂ c'
  mem_before : ∀ l ∈ tr₁, first l.1
  mem_after : ∀ l ∈ tr₂, ¬ first l.1
  done : ∀ p, first p → c₁.pending p = .done
  kept : ∀ p, ¬ first p → c₁.pending p = c.pending p

theorem SplitsAt.head {first : κ → Prop} {c c₁ c' : Config κ ι α ε} {p : κ} {a : Access ι α ε}
    {w : WorkItem ι α ε} {m : ι → α} {tr₁ tr₂ : List (κ × Access ι α ε)}
    (h : SplitsAt waitsFor first ⟨Function.update c.pending p w, m⟩ tr₁ c₁ tr₂ c')
    (hp : first p) (hready : ∀ q, waitsFor p q → c.pending q = .done)
    (hstep : (c.pending p).Step c.memory a w m) :
    SplitsAt waitsFor first c ((p, a) :: tr₁) c₁ tr₂ c' where
  before := .head hready hstep h.before
  after := h.after
  mem_before l hl := by
    rcases List.mem_cons.mp hl with rfl | hl
    · exact hp
    · exact h.mem_before l hl
  mem_after := h.mem_after
  done := h.done
  kept q hq := by
    have hne : q ≠ p := fun heq => hq (heq ▸ hp)
    exact (h.kept q hq).trans (Function.update_of_ne hne _ _)

theorem SplitsAt.of_done {first : κ → Prop} {c c' : Config κ ι α ε}
    {tr : List (κ × Access ι α ε)} (hrun : OutOfOrderRun waitsFor c tr c')
    (hdone : ∀ p, first p → c.pending p = .done) : SplitsAt waitsFor first c [] c tr c' where
  before := .refl c
  after := hrun
  mem_before := by simp
  mem_after l hl hfirst := hrun.notMem_of_done (hdone l.1 hfirst) l hl rfl
  done := hdone
  kept _ _ := rfl

/-- Where all others wait for the items of `first`, a run begins with these. -/
theorem OutOfOrderRun.split {first : κ → Prop}
    (hwaits : ∀ p q, ¬ first p → first q → waitsFor p q) {c c' : Config κ ι α ε}
    {tr : List (κ × Access ι α ε)} (hrun : OutOfOrderRun waitsFor c tr c')
    (hdone : ∀ p, c'.pending p = .done) :
    ∃ tr₁ c₁ tr₂, tr = tr₁ ++ tr₂ ∧ SplitsAt waitsFor first c tr₁ c₁ tr₂ c' := by
  induction hrun with
  | refl c => exact ⟨[], c, [], rfl, .of_done (.refl c) fun p _ => hdone p⟩
  | @head c c' p a w m tr hready hstep hrun ih =>
      by_cases hp : first p
      · obtain ⟨tr₁, c₁, tr₂, htr, hsplit⟩ := ih hdone
        exact ⟨(p, a) :: tr₁, c₁, tr₂, by rw [htr, List.cons_append],
          hsplit.head hp hready hstep⟩
      · -- the item had to wait until all of `first` were done
        exact ⟨[], c, (p, a) :: tr, rfl,
          .of_done (.head hready hstep hrun) fun q hq => hready q (hwaits p q hp hq)⟩

theorem OutOfOrderRun.restrict {g : κ' → κ} (hg : Function.Injective g) {c c' : Config κ ι α ε}
    {tr : List (κ × Access ι α ε)} (hrun : OutOfOrderRun waitsFor c tr c')
    (hown : ∀ l ∈ tr, ∃ p, g p = l.1) :
    ∃ tr', tr = tr'.map (Prod.map g id) ∧
      OutOfOrderRun (fun p q => waitsFor (g p) (g q)) ⟨c.pending ∘ g, c.memory⟩ tr'
        ⟨c'.pending ∘ g, c'.memory⟩ := by
  induction hrun with
  | refl c => exact ⟨[], rfl, .refl _⟩
  | @head c c' p a w m tr hready hstep hrun ih =>
      obtain ⟨p', rfl⟩ := hown (p, a) List.mem_cons_self
      obtain ⟨tr', htr, hrest⟩ := ih fun l hl => hown l (List.mem_cons_of_mem _ hl)
      refine ⟨(p', a) :: tr', by rw [htr]; rfl, ?_⟩
      rw [Function.update_comp_eq_of_injective _ hg] at hrest
      exact .head (fun q hq => hready (g q) hq) hstep hrest

theorem OutOfOrderRun.extend {g : κ' → κ} (hg : Function.Injective g)
    {waitsFor' : κ' → κ' → Prop} {c c' : Config κ' ι α ε} {tr : List (κ' × Access ι α ε)}
    (hrun : OutOfOrderRun waitsFor' c tr c') {pending : κ → WorkItem ι α ε}
    (hpending : pending ∘ g = c.pending)
    (hwaits : ∀ p q, waitsFor (g p) q →
      ((∀ q', g q' ≠ q) ∧ pending q = .done) ∨ ∃ q', g q' = q ∧ waitsFor' p q') :
    ∃ pending', OutOfOrderRun waitsFor ⟨pending, c.memory⟩ (tr.map (Prod.map g id))
        ⟨pending', c'.memory⟩ ∧
      pending' ∘ g = c'.pending ∧ ∀ q, (∀ p, g p ≠ q) → pending' q = pending q := by
  induction hrun generalizing pending with
  | refl c => exact ⟨pending, .refl _, hpending, fun _ _ => rfl⟩
  | @head c c' p a w m tr hready hstep hrun ih =>
      have hupdate : Function.update pending (g p) w ∘ g = Function.update c.pending p w := by
        rw [Function.update_comp_eq_of_injective _ hg, hpending]
      have houtside : ∀ q, (∀ q', g q' ≠ q) → Function.update pending (g p) w q = pending q :=
        fun q hq => Function.update_of_ne (Ne.symm (hq p)) _ _
      obtain ⟨pending', hrest, hcomp, hkept⟩ := ih hupdate (by
        intro r q hq
        rcases hwaits r q hq with ⟨hq', hnone⟩ | hq'
        · exact .inl ⟨hq', by rw [houtside q hq', hnone]⟩
        · exact .inr hq')
      refine ⟨pending', .head ?_ ?_ hrest, hcomp, fun q hq => (hkept q hq).trans (houtside q hq)⟩
      · intro q hq
        rcases hwaits p q hq with ⟨-, hnone⟩ | ⟨q', rfl, hq'⟩
        · exact hnone
        · exact (congrFun hpending q').trans (hready q' hq')
      · have hitem : pending (g p) = c.pending p := congrFun hpending p
        dsimp only
        rw [hitem]
        exact hstep

end

/-! ## Queues of kernels -/

section

variable [DecidableEq ι] [DecidableEq κ]

omit [DecidableEq ι] [DecidableEq κ] in
theorem withoutGroups_append (tr tr' : List ((Nat × κ) × Access ι α ε)) :
    withoutGroups (tr ++ tr') = withoutGroups tr ++ withoutGroups tr' := List.map_append

omit [DecidableEq ι] [DecidableEq κ] in
theorem withoutGroups_map_first (tr : List (κ × Access ι α ε)) :
    withoutGroups (tr.map (Prod.map (Prod.mk 0) id)) = tr := by
  simp [withoutGroups, Function.comp_def]

def laterItem (p : Nat × κ) : Nat × κ := (p.1 + 1, p.2)

omit [DecidableEq κ] in
theorem laterItem_injective : Function.Injective (laterItem : Nat × κ → Nat × κ) := by
  intro p q h
  have hparts : p.1 = q.1 ∧ p.2 = q.2 := by simpa [laterItem] using h
  exact Prod.ext hparts.1 hparts.2

omit [DecidableEq κ] in
theorem laterItem_ne_first (p : Nat × κ) (x : κ) : laterItem p ≠ (0, x) := fun h =>
  absurd (Prod.ext_iff.mp h).1 (Nat.succ_ne_zero p.1)

omit [DecidableEq ι] [DecidableEq κ] in
theorem withoutGroups_map_laterItem (tr : List ((Nat × κ) × Access ι α ε)) :
    withoutGroups (tr.map (Prod.map laterItem id)) = withoutGroups tr := by
  simp [withoutGroups, laterItem, Function.comp_def]

omit [DecidableEq κ] in
theorem later_laterItem :
    (fun p q : Nat × κ => Later (laterItem p) (laterItem q)) = Later := by
  ext p q
  exact Nat.add_lt_add_iff_right

theorem queueRun_of_outOfOrder {kernels : List (κ → WorkItem ι α ε)} {m m' : ι → α}
    {tr : List ((Nat × κ) × Access ι α ε)}
    (hrun : OutOfOrder Later (launchedFrom kernels) m tr m') :
    QueueRun kernels m (withoutGroups tr) m' := by
  induction kernels generalizing m tr with
  | nil =>
      obtain ⟨rfl, hconfig⟩ := OutOfOrderRun.of_done hrun fun _ _ => rfl
      cases hconfig
      exact .nil _
  | cons items kernels ih =>
      have hwaits : ∀ p q : Nat × κ, ¬ p.1 = 0 → q.1 = 0 → Later p q := by
        intro p q hp hq
        unfold Later
        omega
      obtain ⟨tr₁, ⟨pending₁, m₁⟩, tr₂, rfl, hsplit⟩ := hrun.split hwaits fun _ => rfl
      obtain ⟨tr₁', rfl, hfirst⟩ := hsplit.before.restrict (Prod.mk_right_injective 0)
        fun l hl => ⟨l.1.2, Prod.ext (hsplit.mem_before l hl).symm rfl⟩
      obtain ⟨tr₂', rfl, hrest⟩ := hsplit.after.restrict laterItem_injective fun l hl =>
        ⟨(l.1.1 - 1, l.1.2), Prod.ext (Nat.succ_pred_eq_of_ne_zero (hsplit.mem_after l hl)) rfl⟩
      have hdone : pending₁ ∘ Prod.mk 0 = fun _ => .done := funext fun p => hsplit.done (0, p) rfl
      have hkept : pending₁ ∘ laterItem = launchedFrom kernels := funext fun p =>
        hsplit.kept (laterItem p) (Nat.succ_ne_zero p.1)
      dsimp only at hfirst hrest
      rw [hdone] at hfirst
      rw [hkept, later_laterItem] at hrest
      rw [withoutGroups_append, withoutGroups_map_first, withoutGroups_map_laterItem]
      exact .cons hfirst.run (ih hrest)

theorem outOfOrder_of_queueRun {kernels : List (κ → WorkItem ι α ε)} {m m' : ι → α}
    {tr : List (κ × Access ι α ε)} (hrun : QueueRun kernels m tr m') :
    ∃ tr', OutOfOrder Later (launchedFrom kernels) m tr' m' ∧ withoutGroups tr' = tr := by
  induction hrun with
  | nil m => exact ⟨[], .refl _, rfl⟩
  | @cons items kernels m m₁ m' tr₁ tr₂ hfirst _ ih =>
      obtain ⟨tr₂', hrest, rfl⟩ := ih
      have hbefore : ∃ pending₁,
          OutOfOrderRun Later ⟨launchedFrom (items :: kernels), m⟩
            (tr₁.map (Prod.map (Prod.mk 0) id)) ⟨pending₁, m₁⟩ ∧
          pending₁ ∘ Prod.mk 0 = (fun _ => .done) ∧
          ∀ q, (∀ p, (0, p) ≠ q) → pending₁ q = launchedFrom (items :: kernels) q :=
        (Run.unordered hfirst).extend (Prod.mk_right_injective 0) rfl
          fun p q hq => absurd hq (Nat.not_lt_zero _)
      obtain ⟨pending₁, hbefore, hdone, hkept⟩ := hbefore
      have hlater : pending₁ ∘ laterItem = launchedFrom kernels := by
        ext1 p
        exact hkept _ fun p' heq => laterItem_ne_first p p' heq.symm
      -- the later kernels wait for the first one, which is done, and for each other
      have hwaits : ∀ p q, Later (laterItem p) q →
          ((∀ q', laterItem q' ≠ q) ∧ pending₁ q = .done) ∨
            ∃ q', laterItem q' = q ∧ Later p q' := by
        intro p q hq
        obtain ⟨k, x⟩ := q
        cases k with
        | zero => exact .inl ⟨fun q' => laterItem_ne_first q' x, congrFun hdone x⟩
        | succ k => exact .inr ⟨(k, x), rfl, Nat.lt_of_succ_lt_succ hq⟩
      obtain ⟨pending₂, hafter, hdone₂, hkept₂⟩ :=
        hrest.extend laterItem_injective hlater hwaits
      have hend : pending₂ = fun _ => .done := by
        ext1 q
        obtain ⟨k, x⟩ := q
        cases k with
        | zero => exact (hkept₂ _ fun p => laterItem_ne_first p x).trans (congrFun hdone x)
        | succ k => exact congrFun hdone₂ (k, x)
      rw [hend] at hafter
      refine ⟨_, hbefore.trans hafter, ?_⟩
      rw [withoutGroups_append, withoutGroups_map_first, withoutGroups_map_laterItem]

/-- A queue whose groups all conflict behaves as an in-order queue. -/
theorem outOfOrder_iff_queueRun {kernels : List (κ → WorkItem ι α ε)} {m m' : ι → α}
    {tr : List (κ × Access ι α ε)} :
    (∃ tr', OutOfOrder Later (launchedFrom kernels) m tr' m' ∧ withoutGroups tr' = tr) ↔
      QueueRun kernels m tr m' := by
  constructor
  · intro h
    obtain ⟨tr', hrun, rfl⟩ := h
    exact queueRun_of_outOfOrder hrun
  · exact outOfOrder_of_queueRun

end

end UnoApi.DataParallel
