import UnoApi.DataParallel.Reduction
import Mathlib.Data.Fintype.Prod
import Mathlib.Data.UInt

/-!
# Map and reduce over a matrix

The program fills an `M` by `M` matrix with ones on the device, doubles every
element and adds them up in a 64-bit reduction.
-/

namespace UnoApi.BigMatrix

open UnoApi.DataParallel

variable {M : UInt32}

abbrev Index (M : UInt32) := Fin M.toNat × Fin M.toNat

/-- Matrix elements are `uint`; a work item notes what it contributes as `ulong`. -/
abbrev Item (M : UInt32) := WorkItem (Index M) UInt32 UInt64

def initItem (index : Index M) : Item M := .write index 1 .done

def mapItem (index : Index M) : Item M := .read index fun v => .write index (v * 2) .done

def reduceKernel (M : UInt32) (index : Index M) : Item M := contribute index UInt32.toUInt64

/-- The program can print `result` when the matrix buffer starts as `m` and the result
buffer as `r`; the reduction combines `r` with all contributions. -/
def Prints (M : UInt32) (m : Index M → UInt32) (r result : UInt64) : Prop :=
  ∃ tr m₁ tr' m₂, QueueRun [initItem, mapItem] m tr m₁ ∧
    Completes (reduceKernel M) m₁ tr' m₂ ∧ Combines (r ::ₘ contributions tr') result

theorem isolated_initItem :
    Isolated (initItem : Index M → Item M) (fun _ => ∅) fun index => {index} := by
  apply Isolated.of_own
  · exact fun _ _ h => h
  · exact fun _ => ⟨rfl, trivial⟩
  · exact fun _ _ _ => Set.notMem_empty _

theorem isolated_mapItem :
    Isolated (mapItem : Index M → Item M) (fun index => {index}) fun index => {index} := by
  apply Isolated.of_own
  · exact fun _ _ h => h
  · exact fun _ => ⟨rfl, fun _ => ⟨rfl, trivial⟩⟩
  · exact fun _ _ hne => hne

theorem element_eq_two {m m' : Index M → UInt32}
    {tr : List (Index M × Access (Index M) UInt32 UInt64)}
    (hrun : QueueRun [initItem, mapItem] m tr m') (index : Index M) : m' index = 2 := by
  cases hrun with | @cons _ _ _ m₁ _ _ _ hinit hrest =>
  cases hrest with | cons hmap hnil =>
  cases hnil
  have hone : m₁ index = 1 := by
    simpa [initItem] using isolated_initItem.memory_eq hinit index rfl
  rw [isolated_mapItem.memory_eq hmap index rfl]
  simp [mapItem, hone]

theorem nsmul_two (count : Nat) : count • (2 : UInt64) = UInt64.ofNat (2 * count) := by
  induction count with
  | zero => rfl
  | succ count ih =>
      rw [succ_nsmul, ih, Nat.mul_succ, UInt64.ofNat_add]
      rfl

/-- The program prints `2 * M * M` on top of what the result buffer started with. -/
theorem prints_iff (m : Index M → UInt32) (r result : UInt64) :
    Prints M m r result ↔ result = r + UInt64.ofNat (2 * M.toNat * M.toNat) := by
  have hsum : ∀ {tr m₁ tr' m₂}, QueueRun [initItem, mapItem] m tr m₁ →
      Completes (reduceKernel M) m₁ tr' m₂ →
      (r ::ₘ contributions tr').sum = r + UInt64.ofNat (2 * M.toNat * M.toNat) := by
    intro tr m₁ tr' m₂ hqueue hreduce
    have htwo : (UInt32.toUInt64 2) = 2 := rfl
    have hcard : Fintype.card (Index M) = M.toNat * M.toNat := by simp
    have hcontributions : (contributions tr').sum = Fintype.card (Index M) • (2 : UInt64) := by
      rw [(contributions_contribute hreduce).1]
      simp only [element_eq_two hqueue, htwo, Multiset.map_const', Multiset.sum_replicate,
        Finset.card_val, Finset.card_univ]
    calc
      (r ::ₘ contributions tr').sum = r + Fintype.card (Index M) • (2 : UInt64) := by
        rw [Multiset.sum_cons, hcontributions]
      _ = r + UInt64.ofNat (2 * M.toNat * M.toNat) := by
        rw [nsmul_two, hcard, Nat.mul_assoc]
  constructor
  · intro hprints
    obtain ⟨tr, m₁, tr', m₂, hqueue, hreduce, hcombines⟩ := hprints
    rw [hcombines.eq_sum, hsum hqueue hreduce]
  · intro hresult
    obtain ⟨tr, m₁, hqueue⟩ := exists_queueRun [initItem, mapItem] m
    obtain ⟨tr', m₂, hreduce⟩ := exists_completes (reduceKernel M) m₁
    rw [← hsum hqueue hreduce] at hresult
    exact ⟨tr, m₁, tr', m₂, hqueue, hreduce, Combines.iff_eq_sum.mpr hresult⟩

end UnoApi.BigMatrix
