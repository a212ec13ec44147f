import UnoApi.DataParallel.Kernel

/-!
# Queues without an order

A queue that is not in-order starts the work items of all its command groups as it
likes, except that a group waits for the earlier groups whose accessors conflict with
its own.  `OutOfOrderRun` is such a run for any relation between the items that wait.

* `OutOfOrderRun.serial`: when items that do not wait for each other are apart, every
  run leaves what the items leave in the order of submission;
* `outOfOrderRun_inOrder`: the order of submission is one of the runs.
-/

namespace UnoApi.DataParallel

variable {κ ι α ε : Type}

/-- Neither item writes what the other one reads or writes. -/
structure Apart (R W : κ → Set ι) (p q : κ) : Prop where
  left : ∀ c ∈ W p, c ∉ R q ∧ c ∉ W q
  right : ∀ c ∈ W q, c ∉ R p

section

variable [DecidableEq ι]

/-! ## Steps and items that are apart -/

theorem WorkItem.Within.exec_update {R W : Set ι} {v : WorkItem ι α ε} (h : v.Within R W)
    {c : ι} (hR : c ∉ R) (hW : c ∉ W) (x : α) (m : ι → α) :
    v.exec (Function.update m c x) = Function.update (v.exec m) c x := by
  ext1 d
  by_cases hd : d = c
  · subst hd
    rw [h.exec_frame _ hW, Function.update_self, Function.update_self]
  · rw [Function.update_of_ne hd]
    apply h.exec_congr
    · intro e he
      have hne : e ≠ c := fun heq => hR (heq ▸ he)
      exact Function.update_of_ne hne _ _
    · exact Function.update_of_ne hd _ _

theorem WorkItem.Step.exec_apart {R W R' W' : Set ι} {w w' v : WorkItem ι α ε}
    {m m' : ι → α} {a : Access ι α ε} (h : w.Step m a w' m') (hw : w.Within R W)
    (hv : v.Within R' W') (hwrites : ∀ c ∈ W, c ∉ R' ∧ c ∉ W') (hreads : ∀ c ∈ W', c ∉ R) :
    w.Step (v.exec m) a w' (v.exec m') := by
  cases h with
  | read c k m =>
      have hsame : v.exec m c = m c := hv.exec_frame m fun hc => hreads c hc hw.1
      rw [← hsame]
      exact .read c _ _
  | write c x k m =>
      obtain ⟨hR, hW⟩ := hwrites c hw.1
      rw [hv.exec_update hR hW]
      exact .write c x _ _
  | note e k m => exact .note e _ _

theorem WorkItem.Step.update_within [DecidableEq κ] {items : κ → WorkItem ι α ε} {R W : κ → Set ι}
    {p : κ} {w : WorkItem ι α ε} {m m' : ι → α} {a : Access ι α ε}
    (hstep : (items p).Step m a w m') (hwithin : ∀ q, (items q).Within (R q) (W q)) :
    ∀ q, (Function.update items p w q).Within (R q) (W q) := by
  intro q
  by_cases hq : q = p
  · subst hq
    simpa using hstep.within (hwithin q)
  · simpa [Function.update_of_ne hq] using hwithin q

theorem inOrder_map {κ' : Type} (items : κ → WorkItem ι α ε) (g : κ' → κ) (order : List κ')
    (m : ι → α) : inOrder items (order.map g) m = inOrder (fun p => items (g p)) order m := by
  simp [inOrder, List.foldl_map]

theorem inOrder_congr {items items' : κ → WorkItem ι α ε} {order : List κ}
    (h : ∀ p ∈ order, items p = items' p) (m : ι → α) :
    inOrder items order m = inOrder items' order m := by
  induction order generalizing m with
  | nil => rfl
  | cons p order ih =>
      rw [inOrder_cons, inOrder_cons, h p (by simp)]
      exact ih (fun q hq => h q (by simp [hq])) _

theorem inOrderTrace_congr {items items' : κ → WorkItem ι α ε} {order : List κ}
    (h : ∀ p ∈ order, items p = items' p) (m : ι → α) :
    inOrderTrace items order m = inOrderTrace items' order m := by
  induction order generalizing m with
  | nil => rfl
  | cons p order ih =>
      rw [inOrderTrace, inOrderTrace, h p (by simp), ih fun q hq => h q (by simp [hq])]

theorem WorkItem.Step.inOrder_apart {items : κ → WorkItem ι α ε} {R W : κ → Set ι}
    (hwithin : ∀ p, (items p).Within (R p) (W p)) {p : κ} {w : WorkItem ι α ε}
    {m m' : ι → α} {a : Access ι α ε} (h : (items p).Step m a w m') {before : List κ}
    (hbefore : ∀ q ∈ before, items q = .done ∨ Apart R W p q) :
    (items p).Step (inOrder items before m) a w (inOrder items before m') := by
  induction before generalizing m m' with
  | nil => exact h
  | cons q before ih =>
      have hnext : (items p).Step ((items q).exec m) a w ((items q).exec m') := by
        rcases hbefore q (by simp) with hdone | hapart
        · rw [hdone]
          exact h
        · exact h.exec_apart (hwithin p) (hwithin q) hapart.left hapart.right
      exact ih hnext fun r hr => hbefore r (by simp [hr])

/-! ## Runs -/

variable [DecidableEq κ]

/-- Steps of any items, none of which has an item left to wait for. -/
inductive OutOfOrderRun (waitsFor : κ → κ → Prop) :
    Config κ ι α ε → List (κ × Access ι α ε) → Config κ ι α ε → Prop where
  | refl (c : Config κ ι α ε) : OutOfOrderRun waitsFor c [] c
  | head {c c' : Config κ ι α ε} {p : κ} {a : Access ι α ε} {w : WorkItem ι α ε} {m : ι → α}
      {tr : List (κ × Access ι α ε)} (hready : ∀ q, waitsFor p q → c.pending q = .done)
      (hstep : (c.pending p).Step c.memory a w m)
      (hrun : OutOfOrderRun waitsFor ⟨Function.update c.pending p w, m⟩ tr c') :
      OutOfOrderRun waitsFor c ((p, a) :: tr) c'

def OutOfOrder (waitsFor : κ → κ → Prop) (items : κ → WorkItem ι α ε) (m : ι → α)
    (tr : List (κ × Access ι α ε)) (m' : ι → α) : Prop :=
  OutOfOrderRun waitsFor ⟨items, m⟩ tr ⟨fun _ => .done, m'⟩

theorem OutOfOrderRun.trans {waitsFor : κ → κ → Prop} {c c' c'' : Config κ ι α ε}
    {tr tr' : List (κ × Access ι α ε)} (h : OutOfOrderRun waitsFor c tr c')
    (h' : OutOfOrderRun waitsFor c' tr' c'') : OutOfOrderRun waitsFor c (tr ++ tr') c'' := by
  induction h with
  | refl c => exact h'
  | head hready hstep _ ih => exact .head hready hstep (ih h')

def Unordered : κ → κ → Prop := fun _ _ => False

theorem OutOfOrderRun.run {waitsFor : κ → κ → Prop} {c c' : Config κ ι α ε}
    {tr : List (κ × Access ι α ε)} (h : OutOfOrderRun waitsFor c tr c') : Run c tr c' := by
  induction h with
  | refl c => exact .refl c
  | head _ hstep _ ih => exact .head (.item hstep) ih

theorem Run.unordered {c c' : Config κ ι α ε} {tr : List (κ × Access ι α ε)}
    (h : Run c tr c') : OutOfOrderRun Unordered c tr c' := by
  induction h with
  | refl c => exact .refl c
  | head hstep _ ih =>
      cases hstep with | item hitem =>
      exact .head (fun _ h => h.elim) hitem ih

/-! ## Every run is as good as the order of submission -/

/-- Every item comes after those it waits for and is apart from the others before it. -/
def Serial (waitsFor : κ → κ → Prop) (R W : κ → Set ι) (order : List κ) : Prop :=
  order.Pairwise fun q p => waitsFor p q ∨ Apart R W p q

section

variable {waitsFor : κ → κ → Prop} {R W : κ → Set ι} {order : List κ}

omit [DecidableEq ι] [DecidableEq κ] in
theorem Serial.before (h : Serial waitsFor R W order) {items : κ → WorkItem ι α ε}
    {before after : List κ} {p : κ} (hsplit : order = before ++ p :: after)
    (hready : ∀ q, waitsFor p q → items q = .done) :
    ∀ q ∈ before, items q = .done ∨ Apart R W p q := by
  intro q hq
  rw [Serial, hsplit, List.pairwise_append] at h
  exact (h.2.2 q hq p List.mem_cons_self).imp_left (hready q)

omit [DecidableEq ι] in
theorem update_eq_of_notMem {items : κ → WorkItem ι α ε} {p : κ} {w : WorkItem ι α ε}
    {l : List κ} (hp : p ∉ l) : ∀ q ∈ l, Function.update items p w q = items q := by
  intro q hq
  have hne : q ≠ p := fun heq => hp (heq ▸ hq)
  exact Function.update_of_ne hne _ _

/-- A step of an item is the next step it makes in the order of submission. -/
theorem Serial.inOrder_step (h : Serial waitsFor R W order) (hnodup : order.Nodup)
    {items : κ → WorkItem ι α ε} (hwithin : ∀ p, (items p).Within (R p) (W p))
    {m m' : ι → α} {p : κ} {a : Access ι α ε} {w : WorkItem ι α ε}
    (hready : ∀ q, waitsFor p q → items q = .done) (hstep : (items p).Step m a w m')
    (hp : p ∈ order) :
    inOrder items order m = inOrder (Function.update items p w) order m' := by
  obtain ⟨before, after, hsplit⟩ := List.append_of_mem hp
  have hmoved := hstep.inOrder_apart hwithin (h.before hsplit hready)
  rw [hsplit] at hnodup
  have hbefore : p ∉ before := fun hmem =>
    (List.nodup_append.mp hnodup).2.2 p hmem p List.mem_cons_self rfl
  have hafter : p ∉ after := (List.nodup_cons.mp (List.nodup_append.mp hnodup).2.1).1
  rw [hsplit, inOrder_append, inOrder_append, inOrder_cons, inOrder_cons, hmoved.exec_eq,
    Function.update_self, inOrder_congr (update_eq_of_notMem hbefore),
    inOrder_congr (update_eq_of_notMem hafter)]

theorem Serial.trace_step (h : Serial waitsFor R W order) {items : κ → WorkItem ι α ε}
    (hwithin : ∀ p, (items p).Within (R p) (W p)) {m m' : ι → α} {p : κ} {a : Access ι α ε}
    {w : WorkItem ι α ε} (hready : ∀ q, waitsFor p q → items q = .done)
    (hstep : (items p).Step m a w m') {before after : List κ} {r : κ}
    (hsplit : order = before ++ r :: after) (hbefore : p ∉ before) (hp : p ∈ after) :
    (items r).trace (inOrder items before m) =
      (items r).trace (inOrder (Function.update items p w) before m') := by
  obtain ⟨between, rest, hafter⟩ := List.append_of_mem hp
  have hjoin : order = (before ++ r :: between) ++ p :: rest := by
    rw [hsplit, hafter, List.append_assoc, List.cons_append]
  have hall := h.before hjoin hready
  rw [inOrder_congr (update_eq_of_notMem hbefore)]
  rcases hall r (by simp) with hdone | hapart
  · rw [hdone]
    rfl
  · -- the step happens after `before` as well, and changes nothing that `r` reads
    have hmoved := hstep.inOrder_apart hwithin fun q hq => hall q (List.mem_append_left _ hq)
    apply (hwithin r).trace_congr
    intro c hc
    exact (hmoved.frame (hwithin p) fun hcp => (hapart.left c hcp).1 hc).symm

theorem Serial.accessesOf_step (h : Serial waitsFor R W order) (hnodup : order.Nodup)
    (hall : ∀ p, p ∈ order) {items : κ → WorkItem ι α ε}
    (hwithin : ∀ p, (items p).Within (R p) (W p)) {m m' : ι → α} {p : κ} {a : Access ι α ε}
    {w : WorkItem ι α ε} (hready : ∀ q, waitsFor p q → items q = .done)
    (hstep : (items p).Step m a w m') {tr : List (κ × Access ι α ε)} {before after : List κ} {r : κ}
    (hsplit : order = before ++ r :: after)
    (hlater : accessesOf r tr =
      (Function.update items p w r).trace (inOrder (Function.update items p w) before m')) :
    accessesOf r ((p, a) :: tr) = (items r).trace (inOrder items before m) := by
  by_cases hr : r = p
  · subst hr
    have hmoved := hstep.inOrder_apart hwithin (h.before hsplit hready)
    have hbefore : r ∉ before := fun hmem => by
      rw [hsplit] at hnodup
      exact (List.nodup_append.mp hnodup).2.2 r hmem r List.mem_cons_self rfl
    rw [accessesOf_cons_self, hlater, Function.update_self,
      inOrder_congr (update_eq_of_notMem hbefore), hmoved.trace_eq]
  · rw [accessesOf_cons_of_ne hr, hlater, Function.update_of_ne hr]
    by_cases hbefore : p ∈ before
    · -- the step lies in the past of `r`
      have hserial : Serial waitsFor R W before := by
        rw [Serial, hsplit, List.pairwise_append] at h
        exact h.1
      rw [hsplit] at hnodup
      rw [hserial.inOrder_step (List.nodup_append.mp hnodup).1 hwithin hready hstep hbefore]
    · have hp : p ∈ after := by
        have hmem := hall p
        rw [hsplit, List.mem_append, List.mem_cons] at hmem
        exact (hmem.resolve_left hbefore).resolve_left (Ne.symm hr)
      exact (h.trace_step hwithin hready hstep hsplit hbefore hp).symm

omit [DecidableEq κ] in
theorem inOrder_done {items : κ → WorkItem ι α ε} (hdone : ∀ p, items p = .done) (l : List κ)
    (m : ι → α) : inOrder items l m = m := by
  induction l with
  | nil => rfl
  | cons p l ih => rw [inOrder_cons, hdone, WorkItem.exec_done, ih]

/-- Whatever the queue does, the memory ends as the order of submission leaves it, and
every item makes the accesses that it makes there. -/
theorem OutOfOrderRun.serial (h : Serial waitsFor R W order) (hnodup : order.Nodup)
    (hall : ∀ p, p ∈ order) {c c' : Config κ ι α ε} {tr : List (κ × Access ι α ε)}
    (hwithin : ∀ p, (c.pending p).Within (R p) (W p)) (hrun : OutOfOrderRun waitsFor c tr c')
    (hdone : ∀ p, c'.pending p = .done) :
    c'.memory = inOrder c.pending order c.memory ∧
      ∀ before p after, order = before ++ p :: after →
        accessesOf p tr = (c.pending p).trace (inOrder c.pending before c.memory) := by
  induction hrun with
  | refl c =>
      refine ⟨(inOrder_done hdone order c.memory).symm, ?_⟩
      intro before p after _
      simp [hdone p]
  | @head c c' p a w m tr hready hstep hrun ih =>
      obtain ⟨hmem, htrace⟩ := ih (hstep.update_within hwithin) hdone
      dsimp only at hmem htrace
      constructor
      · rw [hmem, ← h.inOrder_step hnodup hwithin hready hstep (hall p)]
      · intro before r after hsplit
        exact h.accessesOf_step hnodup hall hwithin hready hstep hsplit
          (htrace before r after hsplit)

end

/-! ## The order of submission is a run -/

section

variable {waitsFor : κ → κ → Prop}

theorem Run.outOfOrder {c c' : Config κ ι α ε} {tr : List (κ × Access ι α ε)} {p : κ}
    (hself : ¬ waitsFor p p) (hready : ∀ q, waitsFor p q → c.pending q = .done)
    (hown : ∀ l ∈ tr, l.1 = p) (hrun : Run c tr c') : OutOfOrderRun waitsFor c tr c' := by
  induction hrun with
  | refl c => exact .refl c
  | @head c c₁ c' l tr hstep _ ih =>
      cases hstep with | @item r a w m hr =>
      have hrp : r = p := hown (r, a) (by simp)
      subst hrp
      refine .head hready hr (ih ?_ fun l hl => hown l (by simp [hl]))
      intro q hq
      have hne : q ≠ r := fun heq => hself (heq ▸ hq)
      simpa [Function.update_of_ne hne] using hready q hq

theorem outOfOrderRun_inOrder (hself : ∀ p, ¬ waitsFor p p) {order : List κ}
    (hnodup : order.Nodup) (hsorted : order.Pairwise fun q p => ¬ waitsFor q p) (c : Config κ ι α ε)
    (hothers : ∀ q ∉ order, c.pending q = .done) :
    OutOfOrderRun waitsFor c (inOrderTrace c.pending order c.memory)
      ⟨fun _ => .done, inOrder c.pending order c.memory⟩ := by
  induction order generalizing c with
  | nil =>
      have hpending : c.pending = fun _ => .done := funext fun q => hothers q (by simp)
      obtain ⟨pending, memory⟩ := c
      dsimp only at hpending
      rw [hpending]
      exact .refl _
  | cons p order ih =>
      obtain ⟨hp, hnodup⟩ := List.nodup_cons.mp hnodup
      obtain ⟨hfirst, hsorted⟩ := List.pairwise_cons.mp hsorted
      have hready : ∀ q, waitsFor p q → c.pending q = .done := by
        intro q hq
        apply hothers
        intro hmem
        rcases List.mem_cons.mp hmem with rfl | hmem
        · exact hself q hq
        · exact hfirst q hmem hq
      have hitem := run_item (c.pending p) c.pending rfl c.memory
      have hown : ∀ l ∈ ((c.pending p).trace c.memory).map (Prod.mk p), l.1 = p := by simp
      have hothers' : ∀ q ∉ order, Function.update c.pending p .done q = .done := by
        intro q hq
        by_cases hqp : q = p
        · subst hqp
          exact Function.update_self _ _ _
        · rw [Function.update_of_ne hqp]
          exact hothers q fun hmem => hq ((List.mem_cons.mp hmem).resolve_left hqp)
      have hrest := ih hnodup hsorted
        ⟨Function.update c.pending p .done, (c.pending p).exec c.memory⟩ hothers'
      dsimp only at hrest
      rw [inOrder_congr (update_eq_of_notMem hp), inOrderTrace_congr (update_eq_of_notMem hp)]
        at hrest
      rw [inOrderTrace, inOrder_cons]
      exact (hitem.outOfOrder (hself p) hready hown).trans hrest

end

/-! ## Accessors -/

structure Accessors (β : Type) where
  reads : Set β
  writes : Set β

variable {β : Type}

def Accessors.Conflict (a b : Accessors β) : Prop :=
  ∃ buffer, (buffer ∈ a.writes ∧ (buffer ∈ b.reads ∨ buffer ∈ b.writes)) ∨
    (buffer ∈ a.reads ∧ buffer ∈ b.writes)

/-- The command groups of a queue: when the group of an item was submitted, what the
groups declare, and the buffer that a cell belongs to. -/
structure Submissions (κ ι β : Type) where
  position : κ → Nat
  accessors : Nat → Accessors β
  buffer : ι → β

namespace Submissions

variable {s : Submissions κ ι β} {R W : κ → Set ι} {order : List κ}

/-- An item waits for the items of earlier groups with conflicting accessors. -/
def WaitsFor (s : Submissions κ ι β) (p q : κ) : Prop :=
  s.position q < s.position p ∧
    (s.accessors (s.position p)).Conflict (s.accessors (s.position q))

/-- The items keep to the accessors of their group, and those of one group are apart. -/
structure Keeps (s : Submissions κ ι β) (R W : κ → Set ι) : Prop where
  reads : ∀ p, ∀ c ∈ R p, s.buffer c ∈ (s.accessors (s.position p)).reads
  writes : ∀ p, ∀ c ∈ W p, s.buffer c ∈ (s.accessors (s.position p)).writes
  apart : ∀ p q, p ≠ q → s.position p = s.position q → Apart R W p q

structure Lists (s : Submissions κ ι β) (order : List κ) : Prop where
  nodup : order.Nodup
  all : ∀ p, p ∈ order
  sorted : order.Pairwise fun q p => s.position q ≤ s.position p

structure ListsGroups (s : Submissions κ ι β) (count : Nat) (order : List κ) : Prop where
  nodup : order.Nodup
  mem_iff : ∀ p, p ∈ order ↔ s.position p < count
  sorted : order.Pairwise fun q p => s.position q ≤ s.position p

omit [DecidableEq ι] [DecidableEq κ] in
theorem ListsGroups.nil : s.ListsGroups 0 [] := ⟨.nil, by simp, .nil⟩

omit [DecidableEq ι] [DecidableEq κ] in
theorem ListsGroups.append {count : Nat} (h : s.ListsGroups count order) {group : List κ}
    (hnodup : group.Nodup) (hgroup : ∀ p, p ∈ group ↔ s.position p = count) :
    s.ListsGroups (count + 1) (order ++ group) where
  nodup := by
    refine List.nodup_append.mpr ⟨h.nodup, hnodup, ?_⟩
    intro q hq p hp heq
    have hlt := (h.mem_iff q).mp hq
    rw [heq, (hgroup p).mp hp] at hlt
    exact Nat.lt_irrefl _ hlt
  mem_iff p := by
    rw [List.mem_append, h.mem_iff, hgroup]
    omega
  sorted := by
    refine List.pairwise_append.mpr ⟨h.sorted, ?_, ?_⟩
    · apply List.pairwise_of_forall_mem_list
      intro q hq p hp
      rw [(hgroup q).mp hq, (hgroup p).mp hp]
    · intro q hq p hp
      have hlt := (h.mem_iff q).mp hq
      rw [(hgroup p).mp hp]
      exact hlt.le

omit [DecidableEq ι] [DecidableEq κ] in
theorem ListsGroups.lists {count : Nat} (h : s.ListsGroups count order)
    (hall : ∀ p, s.position p < count) : s.Lists order :=
  ⟨h.nodup, fun p => (h.mem_iff p).mpr (hall p), h.sorted⟩

omit [DecidableEq ι] [DecidableEq κ] in
theorem Keeps.apart_of_not_conflict (h : s.Keeps R W) {p q : κ}
    (hfree : ¬ (s.accessors (s.position p)).Conflict (s.accessors (s.position q))) :
    Apart R W p q where
  left c hc := by
    have hwrites := h.writes p c hc
    exact ⟨fun hq => hfree ⟨s.buffer c, .inl ⟨hwrites, .inl (h.reads q c hq)⟩⟩,
      fun hq => hfree ⟨s.buffer c, .inl ⟨hwrites, .inr (h.writes q c hq)⟩⟩⟩
  right c hc hp := hfree ⟨s.buffer c, .inr ⟨h.reads p c hp, h.writes q c hc⟩⟩

omit [DecidableEq ι] [DecidableEq κ] in
theorem Keeps.serial (h : s.Keeps R W) (horder : s.Lists order) :
    Serial s.WaitsFor R W order := by
  apply (horder.nodup.and horder.sorted).imp
  intro q p hpair
  obtain ⟨hne, hle⟩ := hpair
  by_cases hconflict : (s.accessors (s.position p)).Conflict (s.accessors (s.position q))
  · rcases Nat.eq_or_lt_of_le hle with heq | hlt
    · exact .inr (h.apart p q (Ne.symm hne) heq.symm)
    · exact .inl ⟨hlt, hconflict⟩
  · exact .inr (h.apart_of_not_conflict hconflict)

variable {items : κ → WorkItem ι α ε} {m m' : ι → α} {tr : List (κ × Access ι α ε)}

/-- The queue leaves what its groups leave one after the other. -/
theorem Keeps.memory_eq (h : s.Keeps R W) (hwithin : ∀ p, (items p).Within (R p) (W p))
    (horder : s.Lists order) (hrun : OutOfOrder s.WaitsFor items m tr m') :
    m' = inOrder items order m :=
  (OutOfOrderRun.serial (h.serial horder) horder.nodup horder.all hwithin hrun fun _ => rfl).1

theorem Keeps.accessesOf_eq (h : s.Keeps R W) (hwithin : ∀ p, (items p).Within (R p) (W p))
    (horder : s.Lists order) (hrun : OutOfOrder s.WaitsFor items m tr m') {before after : List κ}
    {p : κ} (hsplit : order = before ++ p :: after) :
    accessesOf p tr = (items p).trace (inOrder items before m) :=
  (OutOfOrderRun.serial (h.serial horder) horder.nodup horder.all hwithin hrun
    fun _ => rfl).2 before p after hsplit

theorem Lists.outOfOrder (horder : s.Lists order) (items : κ → WorkItem ι α ε) (m : ι → α) :
    OutOfOrder s.WaitsFor items m (inOrderTrace items order m) (inOrder items order m) := by
  apply outOfOrderRun_inOrder (fun p h => Nat.lt_irrefl _ h.1) horder.nodup
  · apply horder.sorted.imp
    intro q p hle hwaits
    exact absurd hwaits.1 (Nat.not_lt.mpr hle)
  · exact fun q hq => absurd (horder.all q) hq

end Submissions

end

end UnoApi.DataParallel
