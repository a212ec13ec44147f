import UnoApi.BigMatrix.MapReduce
import UnoApi.Cipher.Substitute
import UnoApi.DataParallel.Races
import UnoApi.Integration.Queue
import UnoApi.MatrixMul.Main
import UnoApi.MonteCarlo.Queue

/-!
# Programs without races

Apart from the transitive closure, no program of the collection races: the kernels of one
queue keep to cells of their own, and where they do not, the accessors order them.
-/

namespace UnoApi

open UnoApi.DataParallel

theorem BigMatrix.raceFree {M : UInt32} {m m' : BigMatrix.Index M → UInt32}
    {tr : List (BigMatrix.Index M × Access (BigMatrix.Index M) UInt32 UInt64)}
    (hrun : QueueRun [BigMatrix.initItem, BigMatrix.mapItem, BigMatrix.reduceKernel M] m tr m') :
    RaceFreeRun [BigMatrix.initItem, BigMatrix.mapItem, BigMatrix.reduceKernel M] m tr m' := by
  have hreduceApart := isolated_contribute (fun index : BigMatrix.Index M => index)
    UInt32.toUInt64
  cases hrun with | cons hinit hrest =>
  cases hrest with | cons hmap hrest =>
  cases hrest with | cons hreduce hnil =>
  cases hnil
  exact .cons hinit ((BigMatrix.isolated_initItem.apartFrom _).not_races hinit)
    (.cons hmap ((BigMatrix.isolated_mapItem.apartFrom _).not_races hmap)
      (.cons hreduce ((hreduceApart.apartFrom _).not_races hreduce) (.nil _)))

/-- No run of the other programs' kernels has conflicting accesses that nothing orders. -/
theorem programs_raceFree :
    (∀ (n : Nat) (g : UInt32), n < 2 ^ 31 → 0 < g.toNat → ∀ m tr m',
      Completes (Cipher.substituteKernel n g) m tr m' → ¬ Races Unordered tr) ∧
    (∀ (M : Nat) (rnd : ℚ → ℚ) m tr m', MatrixMul.Device (M := M) rnd m tr m' →
      ¬ Races (MatrixMul.submissions M).WaitsFor tr) ∧
    (∀ (f : ℚ → ℚ) (o : Integration.Options) m tr m',
      OutOfOrder (Integration.submissions o).WaitsFor (Integration.launched f o) m tr m' →
      ¬ Races (Integration.submissions o).WaitsFor tr) ∧
    (∀ (σ : Type) (e : MonteCarlo.Engine σ) (seed : Int) (numberOfPlayers numberOfDarts : UInt64)
      m tr m', OutOfOrder (MonteCarlo.submissions numberOfPlayers).WaitsFor
        (MonteCarlo.launched e seed numberOfPlayers numberOfDarts) m tr m' →
      ¬ Races (MonteCarlo.submissions numberOfPlayers).WaitsFor tr) ∧
    ∀ (M : UInt32) m tr m',
      QueueRun [BigMatrix.initItem, BigMatrix.mapItem, BigMatrix.reduceKernel M] m tr m' →
      RaceFreeRun [BigMatrix.initItem, BigMatrix.mapItem, BigMatrix.reduceKernel M] m tr m' := by
  refine ⟨?_, ?_, ?_, ?_, ?_⟩
  · intro n g hn hg m tr m' hrun
    exact ((Cipher.isolated_substituteKernel hn hg).apartFrom m).not_races hrun
  · intro M rnd m tr m' hrun
    exact MatrixMul.keeps_submissions.not_races MatrixMul.within_launched hrun
  · intro f o m tr m' hrun
    exact Integration.keeps_submissions.not_races Integration.within_launched hrun
  · intro σ e seed numberOfPlayers numberOfDarts m tr m' hrun
    exact MonteCarlo.keeps_submissions.not_races MonteCarlo.within_launched hrun
  · intro M m tr m' hrun
    exact BigMatrix.raceFree hrun

theorem programs_raceFree_chunks : ∃ tr m',
    Completes (Cipher.substituteKernel 5 2) (fun _ => 0) tr m' ∧ ¬ Races Unordered tr := by
  obtain ⟨tr, m', hrun⟩ := exists_completes (Cipher.substituteKernel 5 2) fun _ => 0
  exact ⟨tr, m', hrun, programs_raceFree.1 5 2 (by decide) (by decide) _ tr m' hrun⟩

end UnoApi
