import Mathlib.Data.List.ProdSigma
import Mathlib.Data.Set.Basic
import Mathlib.Logic.Function.Basic

/-!
# Work items

A work item is a program over shared cells `ι` holding values `α`: it reads a
cell and goes on with the value, writes a cell, or notes an event of `ε`
without touching a cell.  `exec` and `trace` run one work item alone.

The same programs describe host code: a host loop is the `forEach` of its body.
-/

namespace UnoApi.DataParallel

inductive WorkItem (ι α ε : Type) where
  | done
  | read (cell : ι) (next : α → WorkItem ι α ε)
  | write (cell : ι) (value : α) (next : WorkItem ι α ε)
  | note (event : ε) (next : WorkItem ι α ε)

inductive Access (ι α ε : Type) where
  | read (cell : ι) (value : α)
  | write (cell : ι) (value : α)
  | note (event : ε)
  deriving DecidableEq

variable {ι α ε β : Type}

def Access.Within (R W : Set ι) : Access ι α ε → Prop
  | .read c _ => c ∈ R
  | .write c _ => c ∈ W
  | .note _ => True

def Access.event? : Access ι α ε → Option ε
  | .read _ _ => none
  | .write _ _ => none
  | .note e => some e

@[simp] theorem Access.event?_read (c : ι) (v : α) :
    (Access.read c v : Access ι α ε).event? = none := rfl

@[simp] theorem Access.event?_write (c : ι) (v : α) :
    (Access.write c v : Access ι α ε).event? = none := rfl

@[simp] theorem Access.event?_note (e : ε) :
    (Access.note e : Access ι α ε).event? = some e := rfl

namespace WorkItem

/-! ## Sequential composition -/

def followedBy : WorkItem ι α ε → WorkItem ι α ε → WorkItem ι α ε
  | done, q => q
  | read c k, q => read c fun v => (k v).followedBy q
  | write c v k, q => write c v (k.followedBy q)
  | note e k, q => note e (k.followedBy q)

/-- The loop that runs `body` for each listed value and then `last`. -/
def forEach (values : List β) (body : β → WorkItem ι α ε)
    (last : WorkItem ι α ε) : WorkItem ι α ε :=
  values.foldr (fun b rest => (body b).followedBy rest) last

@[simp] theorem forEach_nil (body : β → WorkItem ι α ε) (last : WorkItem ι α ε) :
    forEach [] body last = last := rfl

@[simp] theorem forEach_cons (b : β) (values : List β) (body : β → WorkItem ι α ε)
    (last : WorkItem ι α ε) :
    forEach (b :: values) body last = (body b).followedBy (forEach values body last) := rfl

theorem followedBy_assoc (p q r : WorkItem ι α ε) :
    (p.followedBy q).followedBy r = p.followedBy (q.followedBy r) := by
  induction p with
  | done => rfl
  | read c k ih => simp only [followedBy, ih]
  | write c v k ih => simp only [followedBy, ih]
  | note e k ih => simp only [followedBy, ih]

theorem forEach_followedBy (values : List β) (body : β → WorkItem ι α ε)
    (last next : WorkItem ι α ε) :
    (forEach values body last).followedBy next = forEach values body (last.followedBy next) := by
  induction values with
  | nil => rfl
  | cons b values ih => rw [forEach_cons, followedBy_assoc, ih, forEach_cons]

theorem forEach_append (values values' : List β) (body : β → WorkItem ι α ε)
    (last : WorkItem ι α ε) :
    forEach (values ++ values') body last = forEach values body (forEach values' body last) := by
  simp [forEach]

theorem forEach_map {γ : Type} (f : γ → β) (values : List γ) (body : β → WorkItem ι α ε)
    (last : WorkItem ι α ε) :
    forEach (values.map f) body last = forEach values (fun c => body (f c)) last := by
  simp [forEach, List.foldr_map]

/-- Nested loops are one loop over the pairs of counter values, row by row. -/
theorem forEach_forEach {γ : Type} (rows : List β) (columns : List γ)
    (body : β → γ → WorkItem ι α ε) (last : WorkItem ι α ε) :
    forEach rows (fun b => forEach columns (body b) done) last =
      forEach (rows ×ˢ columns) (fun p => body p.1 p.2) last := by
  induction rows with
  | nil => rfl
  | cons b rows ih =>
      rw [forEach_cons, forEach_followedBy, ih, List.product_cons, forEach_append, forEach_map]
      rfl

theorem forEach_congr {values : List β} {body body' : β → WorkItem ι α ε}
    {last : WorkItem ι α ε} (h : ∀ b ∈ values, body b = body' b) :
    forEach values body last = forEach values body' last := by
  induction values with
  | nil => rfl
  | cons b values ih =>
      rw [forEach_cons, forEach_cons, h b (by simp), ih fun b' hb' => h b' (by simp [hb'])]

/-! ## Footprints -/

/-- Every read of the work item lies in `R` and every write in `W`, whatever
values the reads return. -/
def Within (R W : Set ι) : WorkItem ι α ε → Prop
  | done => True
  | read c k => c ∈ R ∧ ∀ v, (k v).Within R W
  | write c _ k => c ∈ W ∧ k.Within R W
  | note _ k => k.Within R W

theorem Within.mono {R R' W W' : Set ι} (hR : R ⊆ R') (hW : W ⊆ W')
    {p : WorkItem ι α ε} (h : p.Within R W) : p.Within R' W' := by
  induction p with
  | done => trivial
  | read c k ih => exact ⟨hR h.1, fun v => ih v (h.2 v)⟩
  | write c v k ih => exact ⟨hW h.1, ih h.2⟩
  | note e k ih => exact ih h

theorem Within.followedBy {R W : Set ι} {p q : WorkItem ι α ε}
    (hp : p.Within R W) (hq : q.Within R W) : (p.followedBy q).Within R W := by
  induction p with
  | done => exact hq
  | read c k ih => exact ⟨hp.1, fun v => ih v (hp.2 v)⟩
  | write c v k ih => exact ⟨hp.1, ih hp.2⟩
  | note e k ih => exact ih hp

theorem Within.forEach {R W : Set ι} {values : List β} {body : β → WorkItem ι α ε}
    {last : WorkItem ι α ε} (hbody : ∀ b ∈ values, (body b).Within R W)
    (hlast : last.Within R W) : (WorkItem.forEach values body last).Within R W := by
  induction values with
  | nil => exact hlast
  | cons b values ih =>
      apply Within.followedBy (hbody b (by simp))
      apply ih
      intro b' hb'
      exact hbody b' (by simp [hb'])

/-! ## Running one work item alone -/

variable [DecidableEq ι]

def exec : WorkItem ι α ε → (ι → α) → ι → α
  | done, m => m
  | read c k, m => (k (m c)).exec m
  | write c v k, m => k.exec (Function.update m c v)
  | note _ k, m => k.exec m

def trace : WorkItem ι α ε → (ι → α) → List (Access ι α ε)
  | done, _ => []
  | read c k, m => .read c (m c) :: (k (m c)).trace m
  | write c v k, m => .write c v :: k.trace (Function.update m c v)
  | note e k, m => .note e :: k.trace m

@[simp] theorem exec_done (m : ι → α) : (done : WorkItem ι α ε).exec m = m := rfl

@[simp] theorem exec_read (c : ι) (k : α → WorkItem ι α ε) (m : ι → α) :
    (read c k).exec m = (k (m c)).exec m := rfl

@[simp] theorem exec_write (c : ι) (v : α) (k : WorkItem ι α ε) (m : ι → α) :
    (write c v k).exec m = k.exec (Function.update m c v) := rfl

@[simp] theorem exec_note (e : ε) (k : WorkItem ι α ε) (m : ι → α) :
    (note e k).exec m = k.exec m := rfl

@[simp] theorem trace_done (m : ι → α) : (done : WorkItem ι α ε).trace m = [] := rfl

@[simp] theorem trace_read (c : ι) (k : α → WorkItem ι α ε) (m : ι → α) :
    (read c k).trace m = .read c (m c) :: (k (m c)).trace m := rfl

@[simp] theorem trace_write (c : ι) (v : α) (k : WorkItem ι α ε) (m : ι → α) :
    (write c v k).trace m = .write c v :: k.trace (Function.update m c v) := rfl

@[simp] theorem trace_note (e : ε) (k : WorkItem ι α ε) (m : ι → α) :
    (note e k).trace m = .note e :: k.trace m := rfl

theorem exec_followedBy (p q : WorkItem ι α ε) (m : ι → α) :
    (p.followedBy q).exec m = q.exec (p.exec m) := by
  induction p generalizing m with
  | done => rfl
  | read c k ih => exact ih (m c) m
  | write c v k ih => exact ih _
  | note e k ih => exact ih m

theorem trace_followedBy (p q : WorkItem ι α ε) (m : ι → α) :
    (p.followedBy q).trace m = p.trace m ++ q.trace (p.exec m) := by
  induction p generalizing m with
  | done => rfl
  | read c k ih => simp [followedBy, ih]
  | write c v k ih => simp [followedBy, ih]
  | note e k ih => simp [followedBy, ih]

theorem exec_forEach (values : List β) (body : β → WorkItem ι α ε)
    (last : WorkItem ι α ε) (m : ι → α) :
    (forEach values body last).exec m =
      last.exec (values.foldl (fun m b => (body b).exec m) m) := by
  induction values generalizing m with
  | nil => rfl
  | cons b values ih => simp only [forEach_cons, exec_followedBy, ih, List.foldl_cons]

/-! ## What a footprint says about a lone run -/

theorem Within.exec_frame {R W : Set ι} {p : WorkItem ι α ε} (h : p.Within R W)
    (m : ι → α) {c : ι} (hc : c ∉ W) : p.exec m c = m c := by
  induction p generalizing m with
  | done => rfl
  | read d k ih => exact ih (m d) (h.2 (m d)) m
  | write d v k ih =>
      have hne : c ≠ d := fun heq => hc (heq ▸ h.1)
      rw [exec_write, ih h.2, Function.update_of_ne hne]
  | note e k ih => exact ih h m

theorem Within.trace_congr {R W : Set ι} {p : WorkItem ι α ε} (h : p.Within R W)
    {m₁ m₂ : ι → α} (hR : ∀ c ∈ R, m₁ c = m₂ c) : p.trace m₁ = p.trace m₂ := by
  induction p generalizing m₁ m₂ with
  | done => rfl
  | read c k ih =>
      simp only [trace_read, hR c h.1]
      rw [ih (m₂ c) (h.2 (m₂ c)) hR]
  | write c v k ih =>
      simp only [trace_write]
      rw [ih h.2]
      intro d hd
      by_cases hdc : d = c
      · subst hdc; simp
      · simp [Function.update_of_ne hdc, hR d hd]
  | note e k ih => simp only [trace_note, ih h hR]

theorem Within.exec_congr {R W : Set ι} {p : WorkItem ι α ε} (h : p.Within R W)
    {m₁ m₂ : ι → α} (hR : ∀ c ∈ R, m₁ c = m₂ c) {c : ι} (hc : m₁ c = m₂ c) :
    p.exec m₁ c = p.exec m₂ c := by
  induction p generalizing m₁ m₂ with
  | done => exact hc
  | read d k ih =>
      simp only [exec_read, hR d h.1]
      exact ih (m₂ d) (h.2 (m₂ d)) hR hc
  | write d v k ih =>
      have hupd : ∀ c', m₁ c' = m₂ c' →
          Function.update m₁ d v c' = Function.update m₂ d v c' := by
        intro c' hc'
        by_cases hcd : c' = d
        · subst hcd; simp
        · simp [Function.update_of_ne hcd, hc']
      exact ih h.2 (fun c' hc' => hupd c' (hR c' hc')) (hupd c hc)
  | note e k ih => exact ih h hR hc

theorem Within.mem_trace {R W : Set ι} {p : WorkItem ι α ε} (h : p.Within R W)
    (m : ι → α) {a : Access ι α ε} (ha : a ∈ p.trace m) : a.Within R W := by
  induction p generalizing m with
  | done => simp at ha
  | read d k ih =>
      simp only [trace_read, List.mem_cons] at ha
      rcases ha with rfl | ha
      · exact h.1
      · exact ih (m d) (h.2 (m d)) m ha
  | write d v k ih =>
      simp only [trace_write, List.mem_cons] at ha
      rcases ha with rfl | ha
      · exact h.1
      · exact ih h.2 _ ha
  | note e k ih =>
      simp only [trace_note, List.mem_cons] at ha
      rcases ha with rfl | ha
      · trivial
      · exact ih h m ha

end WorkItem

end UnoApi.DataParallel
