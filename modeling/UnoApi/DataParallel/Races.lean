import UnoApi.DataParallel.OutOfOrder

/-!
# Races

Two items race in a run when both access a cell, one of them writes it, and nothing
orders the two items.

* `ApartFrom.not_races`: items that keep to cells of their own when each runs alone do so
  in every interleaving, and never race;
* `Submissions.Keeps.not_races`: neither do items that keep to the accessors of their
  command groups;
* `Run.makes`: in any run, what an item does is one of the ways it can go.
-/

namespace UnoApi.DataParallel

variable {κ ι α ε : Type}

/-! ## Conflicts -/

def Access.Touches (c : ι) : Access ι α ε → Prop
  | .read d _ => d = c
  | .write d _ => d = c
  | .note _ => False

def Access.Writes (c : ι) : Access ι α ε → Prop
  | .read _ _ => False
  | .write d _ => d = c
  | .note _ => False

def Access.Conflict (a b : Access ι α ε) : Prop :=
  ∃ c, a.Touches c ∧ b.Touches c ∧ (a.Writes c ∨ b.Writes c)

/-- Two items make conflicting accesses, and neither is ordered after the other. -/
def Races (after : κ → κ → Prop) (tr : List (κ × Access ι α ε)) : Prop :=
  ∃ p q a b, p ≠ q ∧ (p, a) ∈ tr ∧ (q, b) ∈ tr ∧ a.Conflict b ∧ ¬ after p q ∧ ¬ after q p

theorem Access.Within.of_touches {R W : Set ι} {a : Access ι α ε} (h : a.Within R W) {c : ι}
    (hc : a.Touches c) : c ∈ R ∨ c ∈ W := by
  cases a with
  | read d v => exact .inl (hc ▸ h)
  | write d v => exact .inr (hc ▸ h)
  | note e => exact hc.elim

theorem Access.Within.of_writes {R W : Set ι} {a : Access ι α ε} (h : a.Within R W) {c : ι}
    (hc : a.Writes c) : c ∈ W := by
  cases a with
  | read d v => exact hc.elim
  | write d v => exact hc ▸ h
  | note e => exact hc.elim

theorem Apart.not_conflict {R W : κ → Set ι} {p q : κ} (h : Apart R W p q)
    {a b : Access ι α ε} (ha : a.Within (R p) (W p)) (hb : b.Within (R q) (W q)) :
    ¬ a.Conflict b := by
  intro hconflict
  obtain ⟨c, hac, hbc, hwrites⟩ := hconflict
  rcases hwrites with hwrites | hwrites
  · have hapart := h.left c (ha.of_writes hwrites)
    exact (hb.of_touches hbc).elim hapart.1 hapart.2
  · have hc := hb.of_writes hwrites
    rcases ha.of_touches hac with hread | hwritten
    · exact h.right c hc hread
    · exact (h.left c hwritten).2 hc

/-! ## Items that keep to their own cells -/

section

variable [DecidableEq ι]

theorem WorkItem.Step.access_within {R W : Set ι} {w w' : WorkItem ι α ε} {m m' : ι → α}
    {a : Access ι α ε} (h : w.Step m a w' m') (hw : w.Within R W) : a.Within R W := by
  cases h with
  | read c k m => exact hw.1
  | write c v k m => exact hw.1
  | note e k m => trivial

theorem WorkItem.Step.frame_of_access {R W : Set ι} {w w' : WorkItem ι α ε} {m m' : ι → α}
    {a : Access ι α ε} (h : w.Step m a w' m') (ha : a.Within R W) {c : ι} (hc : c ∉ W) :
    m' c = m c := by
  cases h with
  | read d k m => rfl
  | write d v k m =>
      have hd : d ∈ W := ha
      have hne : c ≠ d := fun heq => hc (heq ▸ hd)
      exact Function.update_of_ne hne _ _
  | note e k m => rfl

theorem WorkItem.trace_congr {R W : Set ι} {w : WorkItem ι α ε} {m₁ m₂ : ι → α}
    (hw : ∀ a ∈ w.trace m₁, a.Within R W) (hR : ∀ c ∈ R, m₁ c = m₂ c) :
    w.trace m₁ = w.trace m₂ := by
  induction w generalizing m₁ m₂ with
  | done => rfl
  | read c k ih =>
      have hc : c ∈ R := hw _ List.mem_cons_self
      rw [trace_read, trace_read, ← hR c hc]
      congr 1
      exact ih (m₁ c) (fun a ha => hw a (List.mem_cons_of_mem _ ha)) hR
  | write c v k ih =>
      rw [trace_write, trace_write]
      congr 1
      apply ih fun a ha => hw a (List.mem_cons_of_mem _ ha)
      intro d hd
      by_cases hdc : d = c
      · subst hdc
        rw [Function.update_self, Function.update_self]
      · rw [Function.update_of_ne hdc, Function.update_of_ne hdc, hR d hd]
  | note e k ih =>
      rw [trace_note, trace_note]
      congr 1
      exact ih (fun a ha => hw a (List.mem_cons_of_mem _ ha)) hR

/-- Running alone on the memory `m`, no item accesses a cell that another one writes. -/
structure ApartFrom (items : κ → WorkItem ι α ε) (R W : κ → Set ι) (m : ι → α) : Prop where
  within : ∀ p, ∀ a ∈ (items p).trace m, a.Within (R p) (W p)
  apart : ∀ p q, p ≠ q → Apart R W p q

theorem Isolated.apartFrom {items : κ → WorkItem ι α ε} {R W : κ → Set ι}
    (h : Isolated items R W) (m : ι → α) : ApartFrom items R W m where
  within p _ ha := (h.within p).mem_trace m ha
  apart p q hne := ⟨h.apart p q hne, fun c hc => (h.apart q p (Ne.symm hne) c hc).1⟩

variable [DecidableEq κ]

theorem ApartFrom.step {R W : κ → Set ι} {c : Config κ ι α ε} {r : κ} {w : WorkItem ι α ε}
    {m : ι → α} {a : Access ι α ε} (h : ApartFrom c.pending R W c.memory)
    (hstep : (c.pending r).Step c.memory a w m) :
    ApartFrom (Function.update c.pending r w) R W m ∧
      ∀ p, p ≠ r → (c.pending p).trace c.memory = (c.pending p).trace m := by
  have hmine : ∀ b ∈ (c.pending r).trace c.memory, b.Within (R r) (W r) := h.within r
  rw [hstep.trace_eq] at hmine
  -- the step can only write a cell of `r`, which no other item reads
  have hothers : ∀ p, p ≠ r → (c.pending p).trace c.memory = (c.pending p).trace m := by
    intro p hp
    apply WorkItem.trace_congr (h.within p)
    intro d hd
    have hdr : d ∉ W r := fun hdr => ((h.apart r p (Ne.symm hp)).left d hdr).1 hd
    exact (hstep.frame_of_access (hmine a List.mem_cons_self) hdr).symm
  refine ⟨⟨?_, h.apart⟩, hothers⟩
  intro p b hb
  by_cases hp : p = r
  · subst hp
    rw [Function.update_self] at hb
    exact hmine b (List.mem_cons_of_mem _ hb)
  · rw [Function.update_of_ne hp, ← hothers p hp] at hb
    exact h.within p b hb

/-- Every item does in the run what it does alone. -/
theorem ApartFrom.run {R W : κ → Set ι} {c c' : Config κ ι α ε} {tr : List (κ × Access ι α ε)}
    (h : ApartFrom c.pending R W c.memory) (hrun : Run c tr c')
    (hdone : ∀ p, c'.pending p = .done) (p : κ) :
    accessesOf p tr = (c.pending p).trace c.memory := by
  induction hrun with
  | refl c => rw [hdone p, accessesOf_nil, WorkItem.trace_done]
  | @head c c₁ c' l tr hstep hrun ih =>
      cases hstep with | @item r a w m hr =>
      obtain ⟨hnext, hothers⟩ := h.step hr
      have hrest := ih hnext hdone
      dsimp only at hrest
      by_cases hp : p = r
      · subst hp
        rw [accessesOf_cons_self, hrest, Function.update_self, hr.trace_eq]
      · rw [accessesOf_cons_of_ne hp, hrest, Function.update_of_ne hp, hothers p hp]

theorem ApartFrom.not_races {items : κ → WorkItem ι α ε} {R W : κ → Set ι} {m m' : ι → α}
    {tr : List (κ × Access ι α ε)} (h : ApartFrom items R W m)
    (hrun : Completes items m tr m') : ¬ Races Unordered tr := by
  intro hraces
  obtain ⟨p, q, a, b, hne, ha, hb, hconflict, -⟩ := hraces
  have hwithin : ∀ {r x}, (r, x) ∈ tr → x.Within (R r) (W r) := by
    intro r x hx
    rw [← mem_accessesOf, h.run hrun fun _ => rfl] at hx
    exact h.within r x hx
  exact (h.apart p q hne).not_conflict (hwithin ha) (hwithin hb) hconflict

/-! ## Command groups -/

theorem Run.within {R W : κ → Set ι} {c c' : Config κ ι α ε} {tr : List (κ × Access ι α ε)}
    (hwithin : ∀ p, (c.pending p).Within (R p) (W p)) (hrun : Run c tr c') :
    ∀ l ∈ tr, l.2.Within (R l.1) (W l.1) := by
  induction hrun with
  | refl c => simp
  | @head c c₁ c' l tr hstep hrun ih =>
      cases hstep with | @item r a w m hr =>
      intro l hl
      rcases List.mem_cons.mp hl with rfl | hl
      · exact hr.access_within (hwithin r)
      · exact ih (hr.update_within hwithin) l hl

omit [DecidableEq ι] [DecidableEq κ] in
theorem Accessors.Conflict.symm {β : Type} {a b : Accessors β} (h : a.Conflict b) :
    b.Conflict a := by
  obtain ⟨buffer, ⟨ha, hb | hb⟩ | ⟨ha, hb⟩⟩ := h
  · exact ⟨buffer, .inr ⟨hb, ha⟩⟩
  · exact ⟨buffer, .inl ⟨hb, .inr ha⟩⟩
  · exact ⟨buffer, .inl ⟨hb, .inl ha⟩⟩

/-- Conflicting accesses of a queue are ordered by its accessors. -/
theorem Submissions.Keeps.not_races {β : Type} {s : Submissions κ ι β} {R W : κ → Set ι}
    (h : s.Keeps R W) {items : κ → WorkItem ι α ε} {m m' : ι → α}
    {tr : List (κ × Access ι α ε)} (hwithin : ∀ p, (items p).Within (R p) (W p))
    (hrun : OutOfOrder s.WaitsFor items m tr m') : ¬ Races s.WaitsFor tr := by
  intro hraces
  obtain ⟨p, q, a, b, hne, ha, hb, hconflict, hpq, hqp⟩ := hraces
  have hfoot := Run.within hwithin hrun.run
  have hapart : Apart R W p q := by
    rcases Nat.lt_trichotomy (s.position p) (s.position q) with hlt | heq | hlt
    · exact h.apart_of_not_conflict fun hgroups => hqp ⟨hlt, hgroups.symm⟩
    · exact h.apart p q hne heq
    · exact h.apart_of_not_conflict fun hgroups => hpq ⟨hlt, hgroups⟩
  exact hapart.not_conflict (hfoot _ ha) (hfoot _ hb) hconflict

/-! ## The ways an item can go -/

inductive WorkItem.Makes : WorkItem ι α ε → List (Access ι α ε) → Prop where
  | done : Makes .done []
  | read {c : ι} {k : α → WorkItem ι α ε} {v : α} {rest : List (Access ι α ε)}
      (hrest : Makes (k v) rest) : Makes (.read c k) (.read c v :: rest)
  | write {c : ι} {v : α} {k : WorkItem ι α ε} {rest : List (Access ι α ε)}
      (hrest : Makes k rest) : Makes (.write c v k) (.write c v :: rest)
  | note {e : ε} {k : WorkItem ι α ε} {rest : List (Access ι α ε)}
      (hrest : Makes k rest) : Makes (.note e k) (.note e :: rest)

omit [DecidableEq κ] in
theorem WorkItem.Step.makes {w w' : WorkItem ι α ε} {m m' : ι → α} {a : Access ι α ε}
    (h : w.Step m a w' m') {rest : List (Access ι α ε)} (hrest : w'.Makes rest) :
    w.Makes (a :: rest) := by
  cases h with
  | read c k m => exact .read hrest
  | write c v k m => exact .write hrest
  | note e k m => exact .note hrest

theorem Run.makes {c c' : Config κ ι α ε} {tr : List (κ × Access ι α ε)} (hrun : Run c tr c')
    (hdone : ∀ p, c'.pending p = .done) (p : κ) : (c.pending p).Makes (accessesOf p tr) := by
  induction hrun with
  | refl c =>
      rw [hdone p, accessesOf_nil]
      exact .done
  | @head c c₁ c' l tr hstep hrun ih =>
      cases hstep with | @item r a w m hr =>
      have hrest := ih hdone
      dsimp only at hrest
      by_cases hp : p = r
      · subst hp
        rw [Function.update_self] at hrest
        rw [accessesOf_cons_self]
        exact hr.makes hrest
      · rw [Function.update_of_ne hp] at hrest
        rwa [accessesOf_cons_of_ne hp]

/-! ## In-order queues -/

inductive RaceFreeRun :
    List (κ → WorkItem ι α ε) → (ι → α) → List (κ × Access ι α ε) → (ι → α) → Prop where
  | nil (m : ι → α) : RaceFreeRun [] m [] m
  | cons {items : κ → WorkItem ι α ε} {rest : List (κ → WorkItem ι α ε)}
      {m m' m'' : ι → α} {tr tr' : List (κ × Access ι α ε)}
      (hfirst : Completes items m tr m') (hfree : ¬ Races Unordered tr)
      (hrest : RaceFreeRun rest m' tr' m'') : RaceFreeRun (items :: rest) m (tr ++ tr') m''

end

end UnoApi.DataParallel
