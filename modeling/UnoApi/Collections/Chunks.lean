import Mathlib.Data.List.Nodup
import Mathlib.Tactic.Ring

/-!
# Chunks

`size` positions are cut into chunks of `g`; chunk `i` covers the positions from
`i * g` up to `(i + 1) * g`, clipped at `size`.  Every position lies in exactly
one chunk, whatever the number of positions is modulo `g`.
-/

namespace UnoApi.Collections

def InChunk (size g i j : Nat) : Prop := i * g ≤ j ∧ j < min ((i + 1) * g) size

theorem inChunk_iff {size g i j : Nat} (hg : 0 < g) :
    InChunk size g i j ↔ j < size ∧ j / g = i := by
  unfold InChunk
  rw [Nat.lt_min, Nat.div_eq_iff hg]
  constructor
  · intro h
    have hexpand : (i + 1) * g = i * g + g := by ring
    omega
  · intro h
    have hexpand : (i + 1) * g = i * g + g := by ring
    omega

theorem chunk_start_le {size g i : Nat} (hi : i < size / g + 1) :
    i * g ≤ min ((i + 1) * g) size := by
  apply Nat.le_min.mpr
  constructor
  · exact Nat.mul_le_mul_right g (Nat.le_succ i)
  · calc
      i * g ≤ size / g * g := Nat.mul_le_mul_right g (Nat.lt_succ_iff.mp hi)
      _ ≤ size := Nat.div_mul_le_self size g

def chunk (size g i : Nat) : List Nat := List.range' (i * g) (min ((i + 1) * g) size - i * g)

theorem mem_chunk {size g i j : Nat} : j ∈ chunk size g i ↔ InChunk size g i j := by
  rw [chunk, List.mem_range'_1, InChunk]
  omega

theorem chunk_nodup (size g i : Nat) : (chunk size g i).Nodup := List.nodup_range'

theorem InChunk.unique {size g i i' j : Nat} (hg : 0 < g) (h : InChunk size g i j)
    (h' : InChunk size g i' j) : i = i' := by
  rw [inChunk_iff hg] at h h'
  exact h.2.symm.trans h'.2

theorem exists_inChunk {size g j : Nat} (hg : 0 < g) (hj : j < size) :
    ∃ i, i < size / g + 1 ∧ InChunk size g i j := by
  have hlast : j / g < size / g + 1 := Nat.lt_succ_of_le (Nat.div_le_div_right hj.le)
  exact ⟨j / g, hlast, (inChunk_iff hg).mpr ⟨hj, rfl⟩⟩

theorem existsUnique_inChunk {size g j : Nat} (hg : 0 < g) (hj : j < size) :
    ∃! i, i < size / g + 1 ∧ InChunk size g i j := by
  obtain ⟨i, hi, hchunk⟩ := exists_inChunk hg hj
  exact ⟨i, ⟨hi, hchunk⟩, fun i' h' => h'.2.unique hg hchunk⟩

/-- Nested loops are one loop in row-major order. -/
theorem foldl_rows {β : Type} (step : β → Nat → Nat → β) (rows columns : Nat) (s : β) :
    (List.range rows).foldl
        (fun s i => (List.range columns).foldl (fun s j => step s i j) s) s =
      (List.range (rows * columns)).foldl (fun s k => step s (k / columns) (k % columns)) s := by
  induction rows with
  | zero => simp
  | succ rows ih =>
      rw [List.range_succ, List.foldl_append, ih, Nat.succ_mul, List.range_add,
        List.foldl_append, List.foldl_map, List.foldl_cons, List.foldl_nil]
      apply List.foldl_ext
      intro s j hj
      have hlt := List.mem_range.mp hj
      rw [Nat.mul_comm rows, Nat.mul_add_div (by omega), Nat.div_eq_of_lt hlt, Nat.add_zero,
        Nat.mul_comm columns, Nat.mul_add_mod_of_lt hlt]

end UnoApi.Collections
