import UnoApi.MonteCarlo.Darts
import Mathlib.Algebra.BigOperators.Fin
import Mathlib.Algebra.Order.BigOperators.Group.Finset
import Mathlib.Algebra.Order.Field.Rat
import Mathlib.Tactic.Positivity

/-!
# Counting is exact

The radius is chosen so that the squares of two coordinates just fit into 64 bits.  So
the test of the kernel is the test over the naturals, and as long as the number of all
darts fits as well, so do the counts and their sum.
-/

namespace UnoApi.MonteCarlo

open UnoApi.DataParallel

structure Exact (x y : UInt64) : Prop where
  xSquare : (x * x).toNat = x.toNat * x.toNat
  ySquare : (y * y).toNat = y.toNat * y.toNat
  dSquare : (x * x + y * y).toNat = x.toNat * x.toNat + y.toNat * y.toNat

theorem rSquare_toNat : rSquare.toNat = R.toNat * R.toNat := by decide

theorem exact_of_le {x y : UInt64} (hx : x ≤ R) (hy : y ≤ R) : Exact x y := by
  have hR : R.toNat = 3037000493 := by decide
  have hxx : x.toNat * x.toNat ≤ 3037000493 * 3037000493 := by
    rw [← hR]
    exact Nat.mul_le_mul hx hx
  have hyy : y.toNat * y.toNat ≤ 3037000493 * 3037000493 := by
    rw [← hR]
    exact Nat.mul_le_mul hy hy
  have hxSquare : (x * x).toNat = x.toNat * x.toNat := by
    rw [UInt64.toNat_mul, Nat.mod_eq_of_lt (by omega)]
  have hySquare : (y * y).toNat = y.toNat * y.toNat := by
    rw [UInt64.toNat_mul, Nat.mod_eq_of_lt (by omega)]
  refine ⟨hxSquare, hySquare, ?_⟩
  rw [UInt64.toNat_add, hxSquare, hySquare, Nat.mod_eq_of_lt (by omega)]

theorem landsWithin_iff {x y : UInt64} (hx : x ≤ R) (hy : y ≤ R) :
    landsWithin x y ↔ x.toNat ^ 2 + y.toNat ^ 2 ≤ R.toNat ^ 2 := by
  rw [landsWithin, decide_eq_true_iff, UInt64.le_iff_toNat_le, (exact_of_le hx hy).dSquare,
    rSquare_toNat, Nat.pow_two, Nat.pow_two, Nat.pow_two]

/-! ## Assignments of draws -/

section

variable {σ : Type} {numberOfPlayers : UInt64}

/-- The engine hands out these coordinates for the darts of every player. -/
def Deals (e : Engine σ) (seed : Int) (numberOfDarts : UInt64)
    (draws : Player numberOfPlayers → Nat → UInt64 × UInt64) : Prop :=
  ∀ player, ∀ dart < numberOfDarts.toNat,
    e.value (start e seed player) (2 * dart) = (draws player dart).1 ∧
      e.value (start e seed player) (2 * dart + 1) = (draws player dart).2

def hits (numberOfDarts : UInt64) (draws : Player numberOfPlayers → Nat → UInt64 × UInt64)
    (player : Player numberOfPlayers) : Nat :=
  ((Finset.range numberOfDarts.toNat).filter fun dart =>
    (draws player dart).1.toNat ^ 2 + (draws player dart).2.toNat ^ 2 ≤ R.toNat ^ 2).card

/-- An engine that knows the player from the offset and reads off the coordinates. -/
def tape (draws : Player numberOfPlayers → Nat → UInt64 × UInt64) : Engine (UInt64 × Nat) where
  construct _ offset := (offset, 0)
  distr s :=
    (if h : (indexOf s.1).toNat < numberOfPlayers.toNat then
      let dart := draws ⟨(indexOf s.1).toNat, h⟩ (s.2 / 2)
      if s.2 % 2 = 0 then dart.1 else dart.2
    else 0, s.1, s.2 + 1)

theorem tape_after (draws : Player numberOfPlayers → Nat → UInt64 × UInt64) (s : UInt64)
    (count : Nat) : (tape draws).after (s, 0) count = (s, count) := by
  induction count with
  | zero => rfl
  | succ count ih => rw [Engine.after_succ, ih, tape]

/-- Every assignment of draws is one that some engine hands out. -/
theorem deals_tape (seed : Int) (numberOfDarts : UInt64)
    (draws : Player numberOfPlayers → Nat → UInt64 × UInt64) :
    Deals (tape draws) seed numberOfDarts draws := by
  intro player dart _
  have hindex : (indexOf (offset (linearId player))).toNat = player.val := by
    rw [indexOf_offset, linearId_toNat]
  have hvalue : ∀ count, (tape draws).value (start (tape draws) seed player) count =
      if count % 2 = 0 then (draws player (count / 2)).1 else (draws player (count / 2)).2 := by
    intro count
    rw [Engine.value, start, show (tape draws).construct seed (offset (linearId player)) =
      (offset (linearId player), 0) from rfl, tape_after]
    simp [tape, hindex]
  rw [hvalue, hvalue]
  constructor
  · rw [if_pos (by omega), show 2 * dart / 2 = dart by omega]
  · rw [if_neg (by omega), show (2 * dart + 1) / 2 = dart by omega]

theorem hits_le (numberOfDarts : UInt64)
    (draws : Player numberOfPlayers → Nat → UInt64 × UInt64) (player : Player numberOfPlayers) :
    hits numberOfDarts draws player ≤ numberOfDarts.toNat := by
  have hle := Finset.card_filter_le (Finset.range numberOfDarts.toNat) fun dart =>
    (draws player dart).1.toNat ^ 2 + (draws player dart).2.toNat ^ 2 ≤ R.toNat ^ 2
  rwa [Finset.card_range] at hle

theorem sum_hits_le (numberOfDarts : UInt64)
    (draws : Player numberOfPlayers → Nat → UInt64 × UInt64) :
    ∑ player, hits numberOfDarts draws player ≤
      numberOfPlayers.toNat * numberOfDarts.toNat := by
  have hle := Finset.sum_le_card_nsmul Finset.univ (hits numberOfDarts draws)
    numberOfDarts.toNat fun player _ => hits_le numberOfDarts draws player
  simpa using hle

/-! ## What the program prints -/

def InRange (numberOfDarts : UInt64)
    (draws : Player numberOfPlayers → Nat → UInt64 × UInt64) : Prop :=
  ∀ player, ∀ dart < numberOfDarts.toNat,
    (draws player dart).1 ≤ R ∧ (draws player dart).2 ≤ R

variable {e : Engine σ} {seed : Int} {numberOfDarts : UInt64}
  {draws : Player numberOfPlayers → Nat → UInt64 × UInt64}

theorem dartsWithinCircle_toNat (hdraws : InRange numberOfDarts draws)
    (hdeals : Deals e seed numberOfDarts draws) (player : Player numberOfPlayers) :
    (play e seed numberOfDarts player).dartsWithinCircle.toNat =
      hits numberOfDarts draws player := by
  have hcount : ((List.range numberOfDarts.toNat).countP fun dart =>
      landsWithin (e.value (start e seed player) (2 * dart))
        (e.value (start e seed player) (2 * dart + 1))) = hits numberOfDarts draws player := by
    calc
      _ = (List.range numberOfDarts.toNat).countP fun dart =>
          (draws player dart).1.toNat ^ 2 + (draws player dart).2.toNat ^ 2 ≤ R.toNat ^ 2 := by
        apply List.countP_congr
        intro dart hdart
        have hlt := List.mem_range.mp hdart
        have hrange := hdraws player dart hlt
        rw [(hdeals player dart hlt).1, (hdeals player dart hlt).2,
          landsWithin_iff hrange.1 hrange.2, decide_eq_true_iff]
      _ = hits numberOfDarts draws player := by
        rw [List.countP_eq_length_filter]
        rfl
  rw [play, foldl_throwDart, hcount]
  exact UInt64.toNat_ofNat_of_lt'
    ((hits_le numberOfDarts draws player).trans_lt numberOfDarts.toNat_lt)

theorem isolated_dartKernel :
    Isolated (dartKernel e seed numberOfDarts : Player numberOfPlayers → _) (fun _ => ∅)
      fun player => {player} := by
  apply Isolated.of_own
  · exact fun _ _ h => h
  · exact fun _ => ⟨rfl, trivial⟩
  · exact fun _ _ _ => Set.notMem_empty _

theorem toNat_sum {s : Multiset UInt64} (h : (s.map UInt64.toNat).sum < 2 ^ 64) :
    s.sum.toNat = (s.map UInt64.toNat).sum := by
  induction s using Multiset.induction with
  | empty => rfl
  | cons a s ih =>
      rw [Multiset.map_cons, Multiset.sum_cons] at h
      rw [Multiset.map_cons, Multiset.sum_cons, Multiset.sum_cons, UInt64.toNat_add,
        ih (by omega), Nat.mod_eq_of_lt h]

theorem prints_exact (hfits : numberOfPlayers.toNat * numberOfDarts.toNat < 2 ^ 64)
    (hdraws : InRange numberOfDarts draws) (hdeals : Deals e seed numberOfDarts draws)
    {counts : Player numberOfPlayers → UInt64} {sum : UInt64}
    (hprints : Prints e seed numberOfPlayers numberOfDarts counts sum) :
    (∀ player, (counts player).toNat = hits numberOfDarts draws player) ∧
      sum.toNat = ∑ player, hits numberOfDarts draws player := by
  obtain ⟨tr, m, tr', hthrow, hreduce, hcombines⟩ := hprints
  obtain ⟨hcontributions, hkept⟩ := contributions_contribute hreduce
  have hcounts : ∀ player, (counts player).toNat = hits numberOfDarts draws player := by
    intro player
    rw [hkept, isolated_dartKernel.memory_eq hthrow player rfl,
      ← dartsWithinCircle_toNat hdraws hdeals player]
    simp [dartKernel]
  have hnat : ((contributions tr').map UInt64.toNat).sum =
      ∑ player, hits numberOfDarts draws player := by
    rw [hcontributions, Multiset.map_map]
    apply congrArg Multiset.sum
    apply Multiset.map_congr rfl
    intro player _
    rw [← hcounts player, hkept]
    rfl
  refine ⟨hcounts, ?_⟩
  rw [hcombines.eq_sum, Multiset.sum_cons, zero_add, toNat_sum, hnat]
  rw [hnat]
  exact (sum_hits_le numberOfDarts draws).trans_lt hfits

theorem exists_prints : ∃ counts sum, Prints e seed numberOfPlayers numberOfDarts counts sum := by
  obtain ⟨tr, m, hthrow⟩ := exists_completes
    (dartKernel e seed numberOfDarts : Player numberOfPlayers → _) fun _ => 0
  obtain ⟨tr', counts, hreduce⟩ := exists_completes (reduceKernel numberOfPlayers) m
  exact ⟨counts, _, tr, m, tr', hthrow, hreduce, Combines.sum _⟩

end

theorem estimate_mem {numberOfPlayers numberOfDarts sum : UInt64}
    (hfits : numberOfPlayers.toNat * numberOfDarts.toNat < 2 ^ 64)
    (hsum : sum.toNat ≤ numberOfPlayers.toNat * numberOfDarts.toNat) :
    0 ≤ estimate numberOfPlayers numberOfDarts sum ∧
      estimate numberOfPlayers numberOfDarts sum ≤ 4 := by
  have hdivisor : (numberOfPlayers * numberOfDarts).toNat =
      numberOfPlayers.toNat * numberOfDarts.toNat := by
    rw [UInt64.toNat_mul, Nat.mod_eq_of_lt hfits]
  rw [← hdivisor] at hsum
  have hcast : (sum.toNat : ℚ) ≤ ((numberOfPlayers * numberOfDarts).toNat : ℚ) :=
    Nat.cast_le.mpr hsum
  unfold estimate
  constructor
  · positivity
  · apply div_le_of_le_mul₀
    · positivity
    · norm_num
    · exact mul_le_mul_of_nonneg_left hcast (by norm_num)

/-- Every assignment of coordinates to the darts is one that some engine hands out; the
test of the kernel is exact on it, and whatever the schedule and the order of the
reduction, so are the counts, their sum and the range of the estimate. -/
theorem counting_exact (seed : Int) (numberOfPlayers numberOfDarts : UInt64)
    (hfits : numberOfPlayers.toNat * numberOfDarts.toNat < 2 ^ 64)
    (draws : Player numberOfPlayers → Nat → UInt64 × UInt64)
    (hdraws : InRange numberOfDarts draws) :
    (∃ (σ : Type) (e : Engine σ), Deals e seed numberOfDarts draws) ∧
    (rSquare.toNat = R.toNat * R.toNat ∧ ∀ player, ∀ dart < numberOfDarts.toNat,
      Exact (draws player dart).1 (draws player dart).2) ∧
    ∀ (σ : Type) (e : Engine σ), Deals e seed numberOfDarts draws →
      (∃ counts sum, Prints e seed numberOfPlayers numberOfDarts counts sum) ∧
      ∀ counts sum, Prints e seed numberOfPlayers numberOfDarts counts sum →
        (∀ player, (counts player).toNat = hits numberOfDarts draws player) ∧
        sum.toNat = ∑ player, hits numberOfDarts draws player ∧
        0 ≤ estimate numberOfPlayers numberOfDarts sum ∧
        estimate numberOfPlayers numberOfDarts sum ≤ 4 := by
  refine ⟨⟨_, tape draws, deals_tape seed numberOfDarts draws⟩, ⟨rSquare_toNat, ?_⟩, ?_⟩
  · intro player dart hdart
    have hrange := hdraws player dart hdart
    exact exact_of_le hrange.1 hrange.2
  · intro σ e hdeals
    refine ⟨exists_prints, ?_⟩
    intro counts sum hprints
    obtain ⟨hcounts, hsum⟩ := prints_exact hfits hdraws hdeals hprints
    have hle := sum_hits_le numberOfDarts draws
    rw [← hsum] at hle
    exact ⟨hcounts, hsum, estimate_mem hfits hle⟩

/-- Darts on the axis are within the circle and darts at the corner are not. -/
theorem counting_exact_axis : ∃ counts sum,
    Prints (tape fun (player : Player 2) _ => if player.val = 0 then (0, R) else (R, R)) 0 2 3
      counts sum ∧ sum.toNat = 3 := by
  have hexact := counting_exact 0 2 3 (by decide)
    (fun (player : Player 2) _ => if player.val = 0 then (0, R) else (R, R))
    (by unfold InRange; decide)
  obtain ⟨hprints, hvalues⟩ := hexact.2.2 _ _ (deals_tape 0 3 _)
  obtain ⟨counts, sum, hrun⟩ := hprints
  refine ⟨counts, sum, hrun, ?_⟩
  rw [(hvalues counts sum hrun).2.1]
  decide

end UnoApi.MonteCarlo
