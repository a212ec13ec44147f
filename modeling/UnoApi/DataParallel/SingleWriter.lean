import UnoApi.DataParallel.Kernel

/-!
# Kernels that update cells in place

In a kernel that updates its cells in place an item may read cells other items
are about to write, so it is not `Isolated`.  When every item owns one cell,
writes only that cell and does so as its last step, a read can still return
only two values: what the cell held before the kernel, or what its owner
leaves there.  `Completes.yields` states this for every interleaving, and the
`inOrder` lemmas say which of the two it is when the items run one by one.
-/

namespace UnoApi.DataParallel

variable {κ ι α ε : Type}

namespace WorkItem

def EndsAt (cell : ι) : WorkItem ι α ε → Prop
  | done => False
  | read _ k => ∀ v, (k v).EndsAt cell
  | write c _ k => c = cell ∧ k = done
  | note _ k => k.EndsAt cell

/-- With reads that return what `view` allows, the item notes these events and
ends by writing this value. -/
inductive Yields (view : ι → α → Prop) : WorkItem ι α ε → List ε → α → Prop where
  | read {c : ι} {k : α → WorkItem ι α ε} {v r : α} {es : List ε}
      (hv : view c v) (hk : Yields view (k v) es r) : Yields view (.read c k) es r
  | write (c : ι) (v : α) : Yields view (.write c v .done) [] v
  | note {e : ε} {k : WorkItem ι α ε} {r : α} {es : List ε}
      (hk : Yields view k es r) : Yields view (.note e k) (e :: es) r

theorem Yields.mono {view view' : ι → α → Prop} (hview : ∀ c v, view c v → view' c v)
    {w : WorkItem ι α ε} {es : List ε} {r : α} (h : w.Yields view es r) :
    w.Yields view' es r := by
  induction h with
  | read hv _ ih => exact .read (hview _ _ hv) ih
  | write c v => exact .write c v
  | note _ ih => exact .note ih

variable [DecidableEq ι]

theorem Step.done_or_endsAt {cell : ι} {w w' : WorkItem ι α ε} {m m' : ι → α}
    {a : Access ι α ε} (h : w.Step m a w' m') (hw : w.EndsAt cell) :
    w' = .done ∨ w'.EndsAt cell := by
  cases h with
  | read c k m => exact .inr (hw _)
  | write c v k m => exact .inl hw.2
  | note e k m => exact .inr hw

theorem EndsAt.exec_frame {cell : ι} {w : WorkItem ι α ε} (h : w.EndsAt cell)
    (m : ι → α) {c : ι} (hc : c ≠ cell) : w.exec m c = m c := by
  induction w generalizing m with
  | done => exact h.elim
  | read d k ih => exact ih (m d) (h (m d)) m
  | write d v k =>
      obtain ⟨rfl, rfl⟩ := h
      simp [Function.update_of_ne hc]
  | note e k ih => exact ih h m

theorem EndsAt.yields {cell : ι} {w : WorkItem ι α ε} (h : w.EndsAt cell)
    (m : ι → α) :
    w.Yields (fun c v => v = m c) ((w.trace m).filterMap Access.event?)
      (w.exec m cell) := by
  induction w with
  | done => exact h.elim
  | read d k ih =>
      exact .read rfl (by simpa [List.filterMap_cons] using ih (m d) (h (m d)))
  | write d v k =>
      obtain ⟨rfl, rfl⟩ := h
      simpa [List.filterMap_cons] using Yields.write d v
  | note e k ih => exact .note (ih h)

end WorkItem

/-- Every item owns one cell, and writes it once, as its last step. -/
structure SingleWriter (items : κ → WorkItem ι α ε) (own : κ → ι) : Prop where
  injective : Function.Injective own
  endsAt : ∀ p, (items p).EndsAt (own p)

/-- What a read of item `p` may return: the old value of any cell, or the new
value of a cell that `p` does not own (its own cell it has not written yet). -/
def OldOrNew (own : κ → ι) (old new : ι → α) (p : κ) (c : ι) (v : α) : Prop :=
  v = old c ∨ (c ≠ own p ∧ v = new c)

/-! ## Interleaved -/

section

variable [DecidableEq κ]

variable {own : κ → ι} {new : ι → α} {notes : κ → List ε}

/-- What remains of an in-place kernel that will leave the memory `new`: an item
that still runs has not written its cell and will yield the new value of it
from old and new values; the cell of an item that is done is settled. -/
structure Settles (own : κ → ι) (new : ι → α) (c : Config κ ι α ε)
    (notes : κ → List ε) : Prop where
  yields : ∀ p, (c.pending p).EndsAt (own p) →
    (c.pending p).Yields (OldOrNew own c.memory new p) (notes p) (new (own p))
  settled : ∀ p, c.pending p = .done → new (own p) = c.memory (own p) ∧ notes p = []

theorem Settles.of_quiet {c : Config κ ι α ε} {r : κ} {w : WorkItem ι α ε}
    {es : List ε}
    (h : Settles own new ⟨Function.update c.pending r w, c.memory⟩ notes)
    (hr : (c.pending r).EndsAt (own r)) (hw : w.EndsAt (own r))
    (hyields : w.Yields (OldOrNew own c.memory new r) (notes r) (new (own r)) →
      (c.pending r).Yields (OldOrNew own c.memory new r) es (new (own r))) :
    Settles own new c (Function.update notes r es) := by
  constructor
  · intro p hp
    by_cases hpr : p = r
    · subst hpr
      simpa using hyields (by simpa using h.yields p (by simpa using hw))
    · simpa [Function.update_of_ne hpr] using
        h.yields p (by simpa [Function.update_of_ne hpr] using hp)
  · intro p hp
    have hpr : p ≠ r := by
      intro heq
      subst heq
      rw [hp] at hr
      exact hr
    simpa [Function.update_of_ne hpr] using
      h.settled p (by simpa [Function.update_of_ne hpr] using hp)

variable [DecidableEq ι]

theorem Settles.of_write {c : Config κ ι α ε} {r : κ} {v : α}
    (hown : Function.Injective own)
    (h : Settles own new
      ⟨Function.update c.pending r .done, Function.update c.memory (own r) v⟩ notes)
    (hr : c.pending r = .write (own r) v .done) :
    Settles own new c notes := by
  obtain ⟨hyields, hsettled⟩ := h
  dsimp only at hyields hsettled
  obtain ⟨hnew, hnone⟩ := hsettled r (by simp)
  rw [Function.update_self] at hnew
  constructor
  · intro p hp
    by_cases hpr : p = r
    · subst hpr
      rw [hr, hnone, hnew]
      exact .write (own p) v
    · have hy := hyields p (by simpa [Function.update_of_ne hpr] using hp)
      rw [Function.update_of_ne hpr] at hy
      -- a value read after the write of `r` is the new value of its cell
      apply hy.mono
      intro d u hd
      rcases hd with hd | hd
      · by_cases hdr : d = own r
        · subst hdr
          rw [Function.update_self, ← hnew] at hd
          exact .inr ⟨fun heq => hpr (hown heq).symm, hd⟩
        · rw [Function.update_of_ne hdr] at hd
          exact .inl hd
      · exact .inr hd
  · intro p hp
    have hpr : p ≠ r := by
      intro heq
      subst heq
      rw [hp] at hr
      cases hr
    have hs := hsettled p (by simpa [Function.update_of_ne hpr] using hp)
    rwa [Function.update_of_ne fun heq => hpr (hown heq)] at hs

theorem Settles.step {c c' : Config κ ι α ε} {r : κ} {a : Access ι α ε}
    {tr : List (κ × Access ι α ε)} (hown : Function.Injective own)
    (hr : (c.pending r).EndsAt (own r)) (hstep : Step c (r, a) c')
    (h : Settles own new c' (notesOf tr)) :
    Settles own new c (notesOf ((r, a) :: tr)) := by
  cases hstep with | @item _ _ w m hw =>
  rw [notesOf_cons]
  generalize hp : c.pending r = q at hw
  have hr' := hr
  rw [hp] at hr'
  cases hw with
  | read d k m =>
      apply h.of_quiet hr (hr' _)
      intro hy
      rw [hp]
      exact .read (.inl rfl) hy
  | note e k m =>
      apply h.of_quiet hr hr'
      intro hy
      rw [hp]
      exact .note hy
  | write d v k m =>
      obtain ⟨rfl, rfl⟩ := hr'
      simpa using h.of_write hown hp

theorem Settles.run {c c' : Config κ ι α ε} {tr : List (κ × Access ι α ε)}
    (hown : Function.Injective own)
    (hpending : ∀ p, c.pending p = .done ∨ (c.pending p).EndsAt (own p))
    (hrun : Run c tr c') (hdone : ∀ p, c'.pending p = .done) :
    Settles own c'.memory c (notesOf tr) := by
  induction hrun with
  | refl c =>
      constructor
      · intro p hp
        rw [hdone p] at hp
        exact hp.elim
      · intro p _
        exact ⟨rfl, rfl⟩
  | @head c c₁ c'' l tr hstep hrun ih =>
      obtain ⟨r, a⟩ := l
      have hstep' := hstep
      cases hstep with | @item _ _ w m hw =>
      -- the item that moves was not done, so it ends at its own cell
      have hr : (c.pending r).EndsAt (own r) := by
        apply (hpending r).resolve_left
        intro hnone
        rw [hnone] at hw
        cases hw
      apply Settles.step hown hr hstep'
      apply ih _ hdone
      intro p
      by_cases hp : p = r
      · subst hp
        simpa using hw.done_or_endsAt hr
      · simpa [Function.update_of_ne hp] using hpending p

/-- Whatever the interleaving, an item ends by writing the value it yields from
old and new values of the cells it reads. -/
theorem SingleWriter.yields {items : κ → WorkItem ι α ε}
    (h : SingleWriter items own) {m m' : ι → α} {tr : List (κ × Access ι α ε)}
    (hrun : Completes items m tr m') (p : κ) :
    (items p).Yields (OldOrNew own m m' p) (notesOf tr p) (m' (own p)) :=
  (Settles.run h.injective (fun p => .inr (h.endsAt p)) hrun fun _ => rfl).yields p
    (h.endsAt p)

end

/-! ## One item after the other -/

section

variable [DecidableEq ι] {items : κ → WorkItem ι α ε} {own : κ → ι}

theorem SingleWriter.inOrder_of_notMem (h : SingleWriter items own) {order : List κ}
    {q : κ} (hq : q ∉ order) (m : ι → α) : inOrder items order m (own q) = m (own q) := by
  induction order generalizing m with
  | nil => rfl
  | cons p order ih =>
      obtain ⟨hne, hq⟩ := not_or.mp (mt List.mem_cons.mpr hq)
      rw [inOrder_cons, ih hq]
      exact (h.endsAt p).exec_frame m fun heq => hne (h.injective heq)

theorem SingleWriter.inOrder_before (h : SingleWriter items own) {l l' : List κ} {p q : κ}
    (hnodup : (l ++ p :: l').Nodup) (hq : q ∈ l) (m : ι → α) :
    inOrder items l m (own q) = inOrder items (l ++ p :: l') m (own q) := by
  have hq' : q ∉ p :: l' := fun hmem =>
    (List.nodup_append.mp hnodup).2.2 q hq q hmem rfl
  rw [inOrder_append, h.inOrder_of_notMem hq']

theorem SingleWriter.inOrder_own (h : SingleWriter items own) {l l' : List κ} {p : κ}
    (hnodup : (l ++ p :: l').Nodup) (m : ι → α) :
    inOrder items (l ++ p :: l') m (own p) =
      (items p).exec (inOrder items l m) (own p) := by
  have hp : p ∉ l' := (List.nodup_cons.mp (List.nodup_append.mp hnodup).2.1).1
  rw [inOrder_append, inOrder_cons, h.inOrder_of_notMem hp]

/-- When the items run one by one, an item reads new values of the cells whose
owners came before it and old values of the others. -/
theorem SingleWriter.inOrder_yields [DecidableEq κ] (h : SingleWriter items own)
    {l l' : List κ} {p : κ} (hnodup : (l ++ p :: l').Nodup) (m : ι → α) :
    (items p).Yields (fun c v => v = inOrder items l m c)
      (notesOf (inOrderTrace items (l ++ p :: l') m) p)
      (inOrder items (l ++ p :: l') m (own p)) := by
  rw [notesOf, accessesOf_inOrderTrace items hnodup, h.inOrder_own hnodup]
  exact (h.endsAt p).yields _

end

end UnoApi.DataParallel
