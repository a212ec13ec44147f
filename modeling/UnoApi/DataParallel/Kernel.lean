import UnoApi.DataParallel.WorkItem
import Mathlib.Data.Fintype.EquivFin
import Mathlib.Data.List.Nodup

/-!
# Kernels

A kernel launches one work item for every index `κ`.  The items share one
memory and run interleaved: a step lets any one item make its next access.
`Completes` relates the memory before a kernel, the accesses in the order they
happened and the memory after the last item is done.

* `completes_inOrder`: running the items one after the other, in any order, is
  one of the interleavings, so a finite kernel always completes;
* `Isolated`: no item writes what another one reads or writes.  Then every
  interleaving leaves what each item alone would leave.
-/

namespace UnoApi.DataParallel

variable {κ ι α ε : Type}

/-- A kernel while it runs: what each item still has to do, and the memory. -/
structure Config (κ ι α ε : Type) where
  pending : κ → WorkItem ι α ε
  memory : ι → α

section

variable [DecidableEq κ]

def accessesOf (p : κ) (tr : List (κ × Access ι α ε)) : List (Access ι α ε) :=
  (tr.filter fun l => l.1 = p).map Prod.snd

@[simp] theorem accessesOf_nil (p : κ) :
    accessesOf p ([] : List (κ × Access ι α ε)) = [] := rfl

theorem accessesOf_cons_self (p : κ) (a : Access ι α ε)
    (tr : List (κ × Access ι α ε)) :
    accessesOf p ((p, a) :: tr) = a :: accessesOf p tr := by
  simp [accessesOf]

theorem accessesOf_cons_of_ne {p r : κ} (hne : p ≠ r) (a : Access ι α ε)
    (tr : List (κ × Access ι α ε)) :
    accessesOf p ((r, a) :: tr) = accessesOf p tr := by
  simp [accessesOf, hne.symm]

theorem accessesOf_append (p : κ) (tr tr' : List (κ × Access ι α ε)) :
    accessesOf p (tr ++ tr') = accessesOf p tr ++ accessesOf p tr' := by
  simp [accessesOf]

theorem accessesOf_map_self (p : κ) (accesses : List (Access ι α ε)) :
    accessesOf p (accesses.map (Prod.mk p)) = accesses := by
  simp [accessesOf, List.filter_map, Function.comp_def]

theorem accessesOf_map_of_ne {p r : κ} (hne : p ≠ r) (accesses : List (Access ι α ε)) :
    accessesOf p (accesses.map (Prod.mk r)) = [] := by
  simp [accessesOf, List.filter_map, Function.comp_def, hne.symm]

theorem mem_accessesOf {p : κ} {a : Access ι α ε} {tr : List (κ × Access ι α ε)} :
    a ∈ accessesOf p tr ↔ (p, a) ∈ tr := by
  simp [accessesOf]

def notesOf (tr : List (κ × Access ι α ε)) (p : κ) : List ε :=
  (accessesOf p tr).filterMap Access.event?

@[simp] theorem notesOf_nil (p : κ) : notesOf ([] : List (κ × Access ι α ε)) p = [] := rfl

theorem notesOf_cons (r : κ) (a : Access ι α ε) (tr : List (κ × Access ι α ε)) :
    notesOf ((r, a) :: tr) =
      Function.update (notesOf tr) r (a.event?.toList ++ notesOf tr r) := by
  ext1 p
  by_cases hp : p = r
  · subst hp
    cases a <;> simp [notesOf, accessesOf_cons_self, List.filterMap_cons]
  · simp [notesOf, accessesOf_cons_of_ne hp, Function.update_of_ne hp]

theorem mem_notesOf {p : κ} {e : ε} {tr : List (κ × Access ι α ε)} :
    e ∈ notesOf tr p ↔ (p, Access.note e) ∈ tr := by
  simp only [notesOf, List.mem_filterMap, mem_accessesOf]
  constructor
  · intro h
    obtain ⟨a, ha, he⟩ := h
    cases a with
    | read => simp at he
    | write => simp at he
    | note e' =>
        have heq : e' = e := by simpa using he
        subst heq
        exact ha
  · intro h
    exact ⟨_, h, rfl⟩

end

section

variable [DecidableEq ι]

/-- The memory after running the listed items one after the other. -/
def inOrder (items : κ → WorkItem ι α ε) (order : List κ) (m : ι → α) : ι → α :=
  order.foldl (fun m p => (items p).exec m) m

def inOrderTrace (items : κ → WorkItem ι α ε) :
    List κ → (ι → α) → List (κ × Access ι α ε)
  | [], _ => []
  | p :: order, m =>
      ((items p).trace m).map (Prod.mk p) ++ inOrderTrace items order ((items p).exec m)

@[simp] theorem inOrder_nil (items : κ → WorkItem ι α ε) (m : ι → α) :
    inOrder items [] m = m := rfl

@[simp] theorem inOrder_cons (items : κ → WorkItem ι α ε) (p : κ) (order : List κ)
    (m : ι → α) :
    inOrder items (p :: order) m = inOrder items order ((items p).exec m) := rfl

theorem inOrder_append (items : κ → WorkItem ι α ε) (l l' : List κ) (m : ι → α) :
    inOrder items (l ++ l') m = inOrder items l' (inOrder items l m) := by
  simp [inOrder]

theorem inOrderTrace_append (items : κ → WorkItem ι α ε) (l l' : List κ) (m : ι → α) :
    inOrderTrace items (l ++ l') m =
      inOrderTrace items l m ++ inOrderTrace items l' (inOrder items l m) := by
  induction l generalizing m with
  | nil => rfl
  | cons p l ih =>
      rw [List.cons_append, inOrderTrace, inOrderTrace, inOrder_cons, ih, List.append_assoc]

theorem exec_forEach_done (items : κ → WorkItem ι α ε) (order : List κ) (m : ι → α) :
    (WorkItem.forEach order items .done).exec m = inOrder items order m := by
  rw [WorkItem.exec_forEach, WorkItem.exec_done]
  rfl

theorem trace_forEach_done (items : κ → WorkItem ι α ε) (order : List κ) (m : ι → α) :
    (WorkItem.forEach order items .done).trace m =
      (inOrderTrace items order m).map Prod.snd := by
  induction order generalizing m with
  | nil => rfl
  | cons p order ih =>
      simp [WorkItem.trace_followedBy, inOrderTrace, ih, Function.comp_def]

inductive WorkItem.Step :
    WorkItem ι α ε → (ι → α) → Access ι α ε → WorkItem ι α ε → (ι → α) → Prop where
  | read (c : ι) (k : α → WorkItem ι α ε) (m : ι → α) :
      Step (.read c k) m (.read c (m c)) (k (m c)) m
  | write (c : ι) (v : α) (k : WorkItem ι α ε) (m : ι → α) :
      Step (.write c v k) m (.write c v) k (Function.update m c v)
  | note (e : ε) (k : WorkItem ι α ε) (m : ι → α) :
      Step (.note e k) m (.note e) k m

variable [DecidableEq κ]

inductive Step : Config κ ι α ε → κ × Access ι α ε → Config κ ι α ε → Prop where
  | item {c : Config κ ι α ε} {p : κ} {a : Access ι α ε} {w : WorkItem ι α ε}
      {m : ι → α} (h : (c.pending p).Step c.memory a w m) :
      Step c (p, a) ⟨Function.update c.pending p w, m⟩

inductive Run :
    Config κ ι α ε → List (κ × Access ι α ε) → Config κ ι α ε → Prop where
  | refl (c : Config κ ι α ε) : Run c [] c
  | head {c c' c'' : Config κ ι α ε} {l : κ × Access ι α ε}
      {tr : List (κ × Access ι α ε)} (hstep : Step c l c') (hrun : Run c' tr c'') :
      Run c (l :: tr) c''

/-- The kernel `items` starts on memory `m`, its accesses happen in the order
`tr`, and when every item is done the memory is `m'`. -/
def Completes (items : κ → WorkItem ι α ε) (m : ι → α)
    (tr : List (κ × Access ι α ε)) (m' : ι → α) : Prop :=
  Run ⟨items, m⟩ tr ⟨fun _ => .done, m'⟩

/-- Kernels submitted to an in-order queue: each starts when the one before it
has completed. -/
inductive QueueRun :
    List (κ → WorkItem ι α ε) → (ι → α) → List (κ × Access ι α ε) → (ι → α) → Prop where
  | nil (m : ι → α) : QueueRun [] m [] m
  | cons {items : κ → WorkItem ι α ε} {rest : List (κ → WorkItem ι α ε)}
      {m m' m'' : ι → α} {tr tr' : List (κ × Access ι α ε)}
      (hfirst : Completes items m tr m') (hrest : QueueRun rest m' tr' m'') :
      QueueRun (items :: rest) m (tr ++ tr') m''

theorem Run.trans {c c' c'' : Config κ ι α ε} {tr tr' : List (κ × Access ι α ε)}
    (h : Run c tr c') (h' : Run c' tr' c'') : Run c (tr ++ tr') c'' := by
  induction h with
  | refl c => exact h'
  | head hstep _ ih => exact .head hstep (ih h')

/-! ## One item after the other -/

theorem Run.item_head {pending : κ → WorkItem ι α ε} {m m' : ι → α} {p : κ}
    {w w' : WorkItem ι α ε} {a : Access ι α ε} {tr : List (κ × Access ι α ε)}
    {c : Config κ ι α ε} (hp : pending p = w) (h : w.Step m a w' m')
    (hrun : Run ⟨Function.update pending p w', m'⟩ tr c) :
    Run ⟨pending, m⟩ ((p, a) :: tr) c := by
  subst hp
  exact .head (.item h) hrun

theorem accessesOf_inOrderTrace_of_notMem (items : κ → WorkItem ι α ε) {order : List κ}
    {p : κ} (hp : p ∉ order) (m : ι → α) :
    accessesOf p (inOrderTrace items order m) = [] := by
  induction order generalizing m with
  | nil => rfl
  | cons r order ih =>
      obtain ⟨hne, hp⟩ := not_or.mp (mt List.mem_cons.mpr hp)
      rw [inOrderTrace, accessesOf_append, accessesOf_map_of_ne hne, ih hp, List.append_nil]

theorem accessesOf_inOrderTrace (items : κ → WorkItem ι α ε) {l l' : List κ} {p : κ}
    (hnodup : (l ++ p :: l').Nodup) (m : ι → α) :
    accessesOf p (inOrderTrace items (l ++ p :: l') m) =
      (items p).trace (inOrder items l m) := by
  have hp : p ∉ l := fun hmem =>
    (List.nodup_append.mp hnodup).2.2 p hmem p (by simp) rfl
  have hp' : p ∉ l' := (List.nodup_cons.mp (List.nodup_append.mp hnodup).2.1).1
  rw [inOrderTrace_append, accessesOf_append, accessesOf_inOrderTrace_of_notMem items hp,
    List.nil_append, inOrderTrace, accessesOf_append, accessesOf_map_self,
    accessesOf_inOrderTrace_of_notMem items hp', List.append_nil]

theorem run_item (w : WorkItem ι α ε) (pending : κ → WorkItem ι α ε) {p : κ}
    (hp : pending p = w) (m : ι → α) :
    Run ⟨pending, m⟩ ((w.trace m).map (Prod.mk p))
      ⟨Function.update pending p .done, w.exec m⟩ := by
  induction w generalizing pending m with
  | done =>
      rw [← hp, Function.update_eq_self, hp]
      exact .refl _
  | read d k ih =>
      have hrun := ih (m d) (Function.update pending p (k (m d))) (by simp) m
      rw [Function.update_idem] at hrun
      exact .item_head hp (.read d k m) hrun
  | write d v k ih =>
      have hrun := ih (Function.update pending p k) (by simp) (Function.update m d v)
      rw [Function.update_idem] at hrun
      exact .item_head hp (.write d v k m) hrun
  | note e k ih =>
      have hrun := ih (Function.update pending p k) (by simp) m
      rw [Function.update_idem] at hrun
      exact .item_head hp (.note e k m) hrun

theorem run_inOrder (items : κ → WorkItem ι α ε) {order : List κ}
    (hnodup : order.Nodup) (c : Config κ ι α ε)
    (hpending : ∀ q ∈ order, c.pending q = items q) :
    ∃ c', Run c (inOrderTrace items order c.memory) c' ∧
      c'.memory = inOrder items order c.memory ∧
      (∀ q ∈ order, c'.pending q = .done) ∧
      ∀ q ∉ order, c'.pending q = c.pending q := by
  induction order generalizing c with
  | nil => exact ⟨c, .refl c, rfl, by simp, fun q _ => rfl⟩
  | cons p order ih =>
      obtain ⟨hp, hnodup⟩ := List.nodup_cons.mp hnodup
      have hitem := run_item (items p) c.pending (hpending p (by simp)) c.memory
      obtain ⟨c', hrun, hmem, hdone, hrest⟩ := ih hnodup
        ⟨Function.update c.pending p .done, (items p).exec c.memory⟩ (by
          intro q hq
          have hne : q ≠ p := fun h => hp (h ▸ hq)
          simp [Function.update_of_ne hne, hpending q (by simp [hq])])
      have hdone' : ∀ q ∈ p :: order, c'.pending q = .done := by
        intro q hq
        rcases List.mem_cons.mp hq with rfl | hq
        · simpa using hrest q hp
        · exact hdone q hq
      have hrest' : ∀ q ∉ p :: order, c'.pending q = c.pending q := by
        intro q hq
        obtain ⟨hne, hq⟩ := not_or.mp (mt List.mem_cons.mpr hq)
        simpa [Function.update_of_ne hne] using hrest q hq
      exact ⟨c', hitem.trans hrun, hmem, hdone', hrest'⟩

/-- Running all items one after the other, in any order, completes the kernel. -/
theorem completes_inOrder (items : κ → WorkItem ι α ε) {order : List κ}
    (hnodup : order.Nodup) (hall : ∀ p, p ∈ order) (m : ι → α) :
    Completes items m (inOrderTrace items order m) (inOrder items order m) := by
  obtain ⟨⟨pending, m'⟩, hrun, rfl, hdone, -⟩ :=
    run_inOrder items hnodup ⟨items, m⟩ fun _ _ => rfl
  have hpending : pending = fun _ => .done := funext fun p => hdone p (hall p)
  rw [hpending] at hrun
  exact hrun

theorem exists_completes [Finite κ] (items : κ → WorkItem ι α ε) (m : ι → α) :
    ∃ tr m', Completes items m tr m' := by
  obtain ⟨order, hnodup, hall⟩ := Finite.exists_univ_list κ
  exact ⟨_, _, completes_inOrder items hnodup hall m⟩

theorem exists_queueRun [Finite κ] (kernels : List (κ → WorkItem ι α ε)) (m : ι → α) :
    ∃ tr m', QueueRun kernels m tr m' := by
  induction kernels generalizing m with
  | nil => exact ⟨_, _, .nil m⟩
  | cons items kernels ih =>
      obtain ⟨tr, m₁, hfirst⟩ := exists_completes items m
      obtain ⟨tr', m', hrest⟩ := ih m₁
      exact ⟨_, _, .cons hfirst hrest⟩

/-! ## Kernels without races -/

/-- No item writes a cell that another item reads or writes. -/
structure Isolated (items : κ → WorkItem ι α ε) (R W : κ → Set ι) : Prop where
  within : ∀ p, (items p).Within (R p) (W p)
  apart : ∀ p q, p ≠ q → ∀ c ∈ W p, c ∉ R q ∧ c ∉ W q

omit [DecidableEq ι] [DecidableEq κ] in
theorem Isolated.of_own {items : κ → WorkItem ι α ε} {R : κ → Set ι} {own : κ → ι}
    (hown : Function.Injective own) (hwithin : ∀ p, (items p).Within (R p) {own p})
    (hread : ∀ p q, p ≠ q → own p ∉ R q) : Isolated items R fun p => {own p} where
  within := hwithin
  apart := by
    intro p q hne c hc
    rcases hc with rfl
    exact ⟨hread p q hne, fun h => hne (hown h)⟩

omit [DecidableEq κ] in
/-- One after the other, in any order, each item leaves its own cells as it does
when it runs first, and makes the accesses it makes then. -/
theorem Isolated.inOrder {items : κ → WorkItem ι α ε} {R W : κ → Set ι}
    (h : Isolated items R W) {order : List κ} (hnodup : order.Nodup) (m : ι → α) :
    (∀ p ∈ order, ∀ c ∈ W p, inOrder items order m c = (items p).exec m c) ∧
    (∀ c, (∀ p ∈ order, c ∉ W p) → inOrder items order m c = m c) ∧
    inOrderTrace items order m = order.flatMap fun p => ((items p).trace m).map (Prod.mk p) := by
  induction order generalizing m with
  | nil => exact ⟨by simp, fun _ _ => rfl, rfl⟩
  | cons p order ih =>
      obtain ⟨hp, hnodup⟩ := List.nodup_cons.mp hnodup
      obtain ⟨hmem, hframe, htrace⟩ := ih hnodup ((items p).exec m)
      -- the later items see their cells as `p` found them
      have hsame : ∀ q ∈ order, ∀ c, c ∈ R q ∨ c ∈ W q → (items p).exec m c = m c := by
        intro q hq c hc
        apply (h.within p).exec_frame m
        intro hcp
        have hapart := h.apart p q (fun heq => hp (heq ▸ hq)) c hcp
        exact hc.elim hapart.1 hapart.2
      refine ⟨?_, ?_, ?_⟩
      · intro q hq c hc
        rw [inOrder_cons]
        rcases List.mem_cons.mp hq with rfl | hq
        · apply hframe
          intro r hr
          exact (h.apart q r (fun heq => hp (heq ▸ hr)) c hc).2
        · rw [hmem q hq c hc]
          exact (h.within q).exec_congr (fun d hd => hsame q hq d (.inl hd))
            (hsame q hq c (.inr hc))
      · intro c hc
        rw [inOrder_cons, hframe c fun q hq => hc q (by simp [hq])]
        exact (h.within p).exec_frame m (hc p (by simp))
      · rw [inOrderTrace, htrace, List.flatMap_cons]
        congr 1
        apply List.flatMap_congr
        intro q hq
        rw [(h.within q).trace_congr fun d hd => hsame q hq d (.inl hd)]

theorem WorkItem.Step.within {R W : Set ι} {w w' : WorkItem ι α ε} {m m' : ι → α}
    {a : Access ι α ε} (h : w.Step m a w' m') (hw : w.Within R W) :
    w'.Within R W := by
  cases h with
  | read c k m => exact hw.2 _
  | write c v k m => exact hw.2
  | note e k m => exact hw

theorem WorkItem.Step.frame {R W : Set ι} {w w' : WorkItem ι α ε} {m m' : ι → α}
    {a : Access ι α ε} (h : w.Step m a w' m') (hw : w.Within R W) {c : ι}
    (hc : c ∉ W) : m' c = m c := by
  cases h with
  | read d k m => rfl
  | write d v k m =>
      have hne : c ≠ d := fun heq => hc (heq ▸ hw.1)
      exact Function.update_of_ne hne _ _
  | note e k m => rfl

theorem WorkItem.Step.exec_eq {w w' : WorkItem ι α ε} {m m' : ι → α}
    {a : Access ι α ε} (h : w.Step m a w' m') : w.exec m = w'.exec m' := by
  cases h <;> rfl

theorem WorkItem.Step.trace_eq {w w' : WorkItem ι α ε} {m m' : ι → α}
    {a : Access ι α ε} (h : w.Step m a w' m') : w.trace m = a :: w'.trace m' := by
  cases h <;> rfl

theorem Isolated.step {R W : κ → Set ι} {c : Config κ ι α ε} {p : κ}
    {w : WorkItem ι α ε} {m : ι → α} {a : Access ι α ε}
    (h : Isolated c.pending R W) (hstep : (c.pending p).Step c.memory a w m) :
    Isolated (Function.update c.pending p w) R W := by
  have hwithin : ∀ q, (Function.update c.pending p w q).Within (R q) (W q) := by
    intro q
    by_cases hq : q = p
    · subst hq
      simpa using hstep.within (h.within q)
    · simpa [Function.update_of_ne hq] using h.within q
  exact ⟨hwithin, h.apart⟩

/-- The invariant of a kernel without races: what each item would leave on its
own, from here on, does not change as the others run. -/
theorem Isolated.run {R W : κ → Set ι} {c c' : Config κ ι α ε}
    {tr : List (κ × Access ι α ε)} (h : Isolated c.pending R W) (hrun : Run c tr c')
    (hdone : ∀ p, c'.pending p = .done) :
    (∀ p, ∀ d ∈ W p, c'.memory d = (c.pending p).exec c.memory d) ∧
    (∀ d, (∀ p, d ∉ W p) → c'.memory d = c.memory d) ∧
    ∀ p, accessesOf p tr = (c.pending p).trace c.memory := by
  induction hrun with
  | refl c =>
      refine ⟨?_, ?_, ?_⟩
      · intro p d _
        simp [hdone p]
      · intro d _
        rfl
      · intro p
        simp [hdone p]
  | @head c c₁ c'' l tr hstep hrun ih =>
      cases hstep with | @item r a w m hr =>
      obtain ⟨hmem, hframe, htrace⟩ := ih (h.step hr) hdone
      dsimp only at hmem hframe htrace
      -- another item's cells are not touched by the step of `r`
      have hsame : ∀ p, p ≠ r → ∀ d, d ∈ R p ∨ d ∈ W p → m d = c.memory d := by
        intro p hp d hd
        apply hr.frame (h.within r)
        intro hdr
        have hapart := h.apart r p (Ne.symm hp) d hdr
        exact hd.elim hapart.1 hapart.2
      refine ⟨?_, ?_, ?_⟩
      · intro p d hd
        rw [hmem p d hd]
        by_cases hp : p = r
        · subst hp
          simp [hr.exec_eq]
        · rw [Function.update_of_ne hp]
          exact (h.within p).exec_congr (fun e he => hsame p hp e (.inl he))
            (hsame p hp d (.inr hd))
      · intro d hd
        rw [hframe d hd]
        exact hr.frame (h.within r) (hd r)
      · intro p
        by_cases hp : p = r
        · subst hp
          rw [accessesOf_cons_self, htrace p, hr.trace_eq]
          simp
        · rw [accessesOf_cons_of_ne hp, htrace p, Function.update_of_ne hp]
          exact (h.within p).trace_congr fun e he => hsame p hp e (.inl he)

variable {items : κ → WorkItem ι α ε} {R W : κ → Set ι} {m m' : ι → α}
  {tr : List (κ × Access ι α ε)}

theorem Isolated.memory_eq (h : Isolated items R W) (hrun : Completes items m tr m')
    (p : κ) {c : ι} (hc : c ∈ W p) : m' c = (items p).exec m c :=
  (Isolated.run h hrun fun _ => rfl).1 p c hc

theorem Isolated.memory_frame (h : Isolated items R W) (hrun : Completes items m tr m')
    {c : ι} (hc : ∀ p, c ∉ W p) : m' c = m c :=
  (Isolated.run h hrun fun _ => rfl).2.1 c hc

theorem Isolated.accessesOf_eq (h : Isolated items R W)
    (hrun : Completes items m tr m') (p : κ) :
    accessesOf p tr = (items p).trace m :=
  (Isolated.run h hrun fun _ => rfl).2.2 p

theorem Isolated.mem_iff (h : Isolated items R W) (hrun : Completes items m tr m')
    {p : κ} {a : Access ι α ε} : (p, a) ∈ tr ↔ a ∈ (items p).trace m := by
  rw [← mem_accessesOf, h.accessesOf_eq hrun]

end

end UnoApi.DataParallel
