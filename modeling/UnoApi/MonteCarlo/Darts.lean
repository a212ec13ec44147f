import UnoApi.DataParallel.Reduction
import Mathlib.Data.Rat.Defs
import Mathlib.Data.UInt
import Mathlib.Logic.Function.Iterate

/-!
# Throwing darts

Every player throws its darts with an engine of its own and counts those that land
within the circle.  A reduction adds up the counts.  The engine and the distribution
belong to the device library and are parameters.
-/

namespace UnoApi.MonteCarlo

open UnoApi.DataParallel

/-- The engine that the options select, with the distribution over it. -/
structure Engine (σ : Type) where
  construct : (seed : Int) → (offset : UInt64) → σ
  distr : σ → UInt64 × σ

def R : UInt64 := 3037000493

def rSquare : UInt64 := R * R

def offset (index : UInt64) : UInt64 := 37 * index + 13

structure Throws (σ : Type) where
  engine : σ
  dartsWithinCircle : UInt64

variable {σ : Type}

def landsWithin (x y : UInt64) : Bool := x * x + y * y ≤ rSquare

def throwDart (e : Engine σ) (t : Throws σ) : Throws σ :=
  let (x, engine) := e.distr t.engine
  let (y, engine) := e.distr engine
  ⟨engine, if landsWithin x y then t.dartsWithinCircle + 1 else t.dartsWithinCircle⟩

abbrev Player (numberOfPlayers : UInt64) := Fin numberOfPlayers.toNat

/-- Work items over the elements of `counts`, noting what they contribute to `sum`. -/
abbrev Item (numberOfPlayers : UInt64) := WorkItem (Player numberOfPlayers) UInt64 UInt64

def linearId {numberOfPlayers : UInt64} (player : Player numberOfPlayers) : UInt64 :=
  UInt64.ofNat player

def start (e : Engine σ) (seed : Int) {numberOfPlayers : UInt64}
    (player : Player numberOfPlayers) : σ :=
  e.construct seed (offset (linearId player))

def play (e : Engine σ) (seed : Int) (numberOfDarts : UInt64) {numberOfPlayers : UInt64}
    (player : Player numberOfPlayers) : Throws σ :=
  (List.range numberOfDarts.toNat).foldl (fun t _ => throwDart e t) ⟨start e seed player, 0⟩

def dartKernel (e : Engine σ) (seed : Int) (numberOfDarts : UInt64) {numberOfPlayers : UInt64}
    (player : Player numberOfPlayers) : Item numberOfPlayers :=
  .write player (play e seed numberOfDarts player).dartsWithinCircle .done

def reduceKernel (numberOfPlayers : UInt64) (player : Player numberOfPlayers) :
    Item numberOfPlayers :=
  contribute player id

/-- The program can print these counts and this sum; `counts` and `sum` start with zeros,
and the reduction combines the original value of its target. -/
def Prints (e : Engine σ) (seed : Int) (numberOfPlayers numberOfDarts : UInt64)
    (counts : Player numberOfPlayers → UInt64) (sum : UInt64) : Prop :=
  ∃ tr m tr', Completes (dartKernel e seed numberOfDarts) (fun _ => 0) tr m ∧
    Completes (reduceKernel numberOfPlayers) m tr' counts ∧
    Combines (0 ::ₘ contributions tr') sum

/-- `pi`, over the rationals; the divisor is a product of `uint64_t` values. -/
def estimate (numberOfPlayers numberOfDarts sum : UInt64) : ℚ :=
  4 * (sum.toNat : ℚ) / ((numberOfPlayers * numberOfDarts).toNat : ℚ)

/-! ## What an engine hands out -/

namespace Engine

variable (e : Engine σ)

def after (s : σ) (draws : Nat) : σ := (fun s => (e.distr s).2)^[draws] s

def value (s : σ) (draws : Nat) : UInt64 := (e.distr (e.after s draws)).1

theorem after_succ (s : σ) (draws : Nat) :
    e.after s (draws + 1) = (e.distr (e.after s draws)).2 :=
  Function.iterate_succ_apply' _ _ _

end Engine

/-- The factor 37 can be undone in `size_t`. -/
def indexOf (offset : UInt64) : UInt64 := 1495681951922396077 * (offset - 13)

theorem indexOf_offset : Function.LeftInverse indexOf offset := by
  intro index
  have hinverse : (1495681951922396077 : UInt64) * 37 = 1 := by decide
  rw [indexOf, offset, UInt64.add_sub_cancel, ← UInt64.mul_assoc, hinverse, UInt64.one_mul]

theorem linearId_toNat {numberOfPlayers : UInt64} (player : Player numberOfPlayers) :
    (linearId player).toNat = player.val :=
  UInt64.toNat_ofNat_of_lt' (player.isLt.trans numberOfPlayers.toNat_lt)

/-- The loop draws twice for every dart and counts the darts that pass the test. -/
theorem foldl_throwDart (e : Engine σ) (s : σ) (darts : Nat) :
    (List.range darts).foldl (fun t _ => throwDart e t) ⟨s, 0⟩ =
      ⟨e.after s (2 * darts), UInt64.ofNat ((List.range darts).countP fun dart =>
        landsWithin (e.value s (2 * dart)) (e.value s (2 * dart + 1)))⟩ := by
  induction darts with
  | zero => rfl
  | succ darts ih =>
      have hstate : e.after s (2 * (darts + 1)) =
          (e.distr (e.after s (2 * darts + 1))).2 := e.after_succ s (2 * darts + 1)
      rw [List.range_succ, List.foldl_append, ih, List.countP_append]
      simp only [List.foldl_cons, List.foldl_nil, throwDart, List.countP_singleton,
        Engine.value, ← Engine.after_succ, hstate]
      split
      · rw [UInt64.ofNat_add]
        rfl
      · rfl

end UnoApi.MonteCarlo
