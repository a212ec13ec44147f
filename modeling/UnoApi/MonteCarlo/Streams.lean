import UnoApi.DataParallel.Stretches
import UnoApi.MonteCarlo.Darts
import Mathlib.Algebra.Order.BigOperators.Group.Finset

/-!
# The stream positions of the players

The players construct their engines at offsets that are 37 apart, whatever the number
of darts.  A dart takes two elements of the stream at least, so with 19 darts a player
has passed the offset of the next one and consumes elements of its darts again, if in
other pairs: 37 is odd.
-/

namespace UnoApi.MonteCarlo

open UnoApi.DataParallel

variable {σ : Type}

/-- What is known of an engine: it stands at a position of the one stream of its seed, at
first at the offset, and every call of the distribution takes it further. -/
structure Stream (e : Engine σ) where
  position : σ → Nat
  position_construct : ∀ seed offset, position (e.construct seed offset) = offset.toNat
  position_distr : ∀ s, position s < position (e.distr s).2

section

variable (e : Engine σ) (stream : Stream e) (seed : Int) {numberOfPlayers : UInt64}
  (numberOfDarts : UInt64) (player : Player numberOfPlayers)

def consumed : Set Nat :=
  {x | ∃ draw < 2 * numberOfDarts.toNat,
    stream.position (e.after (start e seed player) draw) ≤ x ∧
      x < stream.position (e.after (start e seed player) (draw + 1))}

/-- The number of elements that the library takes for the draws of a player. -/
def taken : Nat :=
  ∑ draw ∈ Finset.range (2 * numberOfDarts.toNat),
    (stream.position (e.after (start e seed player) (draw + 1)) -
      stream.position (e.after (start e seed player) draw))

/-- No stream position is consumed by the darts of two players. -/
def DistinctDarts (numberOfPlayers numberOfDarts : UInt64) : Prop :=
  ∀ p q : Player numberOfPlayers, p ≠ q →
    Disjoint (consumed e stream seed numberOfDarts p) (consumed e stream seed numberOfDarts q)

end

/-! ## One player -/

section

variable {e : Engine σ} (stream : Stream e) (s : σ)

theorem Stream.position_after_lt (draws : Nat) :
    stream.position (e.after s draws) < stream.position (e.after s (draws + 1)) := by
  rw [e.after_succ]
  exact stream.position_distr _

theorem Stream.position_add_sum (draws : Nat) :
    stream.position s + ∑ draw ∈ Finset.range draws,
      (stream.position (e.after s (draw + 1)) - stream.position (e.after s draw)) =
      stream.position (e.after s draws) := by
  induction draws with
  | zero => rfl
  | succ draws ih =>
      have hlt := stream.position_after_lt s draws
      rw [Finset.sum_range_succ, ← Nat.add_assoc, ih]
      omega

theorem Stream.exists_draw {draws x : Nat} (hle : stream.position s ≤ x)
    (hlt : x < stream.position (e.after s draws)) :
    ∃ draw < draws, stream.position (e.after s draw) ≤ x ∧
      x < stream.position (e.after s (draw + 1)) := by
  induction draws with
  | zero => exact absurd hlt (Nat.not_lt_of_le hle)
  | succ draws ih =>
      by_cases hbefore : x < stream.position (e.after s draws)
      · obtain ⟨draw, hdraw, hx⟩ := ih hbefore
        exact ⟨draw, Nat.lt_succ_of_lt hdraw, hx⟩
      · exact ⟨draws, Nat.lt_succ_self draws, Nat.le_of_not_lt hbefore, hlt⟩

theorem Stream.position_after_mono {draws draws' : Nat} (h : draws ≤ draws') :
    stream.position (e.after s draws) ≤ stream.position (e.after s draws') :=
  monotone_nat_of_le_succ (fun draws => (stream.position_after_lt s draws).le) h

variable (seed : Int) (numberOfDarts : UInt64) {numberOfPlayers : UInt64}
  (player : Player numberOfPlayers)

def first : Nat := (offset (linearId player)).toNat

theorem position_start : stream.position (start e seed player) = first player :=
  stream.position_construct _ _

theorem position_play :
    stream.position (play e seed numberOfDarts player).engine =
      first player + taken e stream seed numberOfDarts player := by
  rw [play, foldl_throwDart, taken, ← position_start stream seed, stream.position_add_sum]

/-- The draws of a player consume a stretch of the stream, beginning at its offset. -/
theorem consumed_eq_Ico :
    consumed e stream seed numberOfDarts player =
      Set.Ico (first player) (first player + taken e stream seed numberOfDarts player) := by
  ext x
  rw [taken, ← position_start stream seed, stream.position_add_sum]
  constructor
  · intro hx
    obtain ⟨draw, hdraw, hle, hlt⟩ := hx
    exact ⟨(stream.position_after_mono _ (Nat.zero_le draw)).trans hle,
      lt_of_lt_of_le hlt (stream.position_after_mono _ hdraw)⟩
  · intro hx
    exact stream.exists_draw _ hx.1 hx.2

theorem two_mul_le_taken :
    2 * numberOfDarts.toNat ≤ taken e stream seed numberOfDarts player := by
  have hone : ∀ draw ∈ Finset.range (2 * numberOfDarts.toNat),
      1 ≤ stream.position (e.after (start e seed player) (draw + 1)) -
        stream.position (e.after (start e seed player) draw) := by
    intro draw _
    have hlt := stream.position_after_lt (start e seed player) draw
    omega
  simpa [taken] using Finset.card_nsmul_le_sum _ _ 1 hone

end

/-! ## The offsets -/

theorem first_injective {numberOfPlayers : UInt64} :
    Function.Injective (first : Player numberOfPlayers → Nat) := by
  intro p q h
  have hid : linearId p = linearId q := indexOf_offset.injective (UInt64.toNat_inj.mp h)
  have hval := congrArg UInt64.toNat hid
  rw [linearId_toNat, linearId_toNat] at hval
  exact Fin.ext hval

theorem first_eq {numberOfPlayers : UInt64} (player : Player numberOfPlayers)
    (h : 37 * player.val + 13 < 2 ^ 64) : first player = 13 + 37 * player.val := by
  rw [first, offset, UInt64.toNat_add, UInt64.toNat_mul, linearId_toNat]
  change (37 * player.val % 2 ^ 64 + 13) % 2 ^ 64 = 13 + 37 * player.val
  omega

/-! ## All players -/

section

variable {e : Engine σ} (stream : Stream e) (seed : Int)
  {numberOfPlayers numberOfDarts : UInt64}

theorem distinctDarts_iff_stretches :
    DistinctDarts e stream seed numberOfPlayers numberOfDarts ↔
      StretchesDisjoint (first : Player numberOfPlayers → Nat)
        fun p => first p + taken e stream seed numberOfDarts p := by
  simp only [DistinctDarts, StretchesDisjoint, consumed_eq_Ico]

theorem distinctDarts_of_zero (hdarts : numberOfDarts.toNat = 0) :
    DistinctDarts e stream seed numberOfPlayers numberOfDarts := by
  rw [distinctDarts_iff_stretches]
  intro p q _
  simp [taken, hdarts]

theorem distinctDarts_iff_gaps :
    DistinctDarts e stream seed numberOfPlayers numberOfDarts ↔
      ∀ p q : Player numberOfPlayers, first p < first q →
        first p + taken e stream seed numberOfDarts p ≤ first q := by
  by_cases hdarts : numberOfDarts.toNat = 0
  · apply iff_of_true (distinctDarts_of_zero stream seed hdarts)
    intro p q hlt
    simpa [taken, hdarts] using hlt.le
  · rw [distinctDarts_iff_stretches, stretchesDisjoint_iff first_injective]
    intro p
    have hp := two_mul_le_taken stream seed numberOfDarts p
    omega

/-- As long as the offsets do not wrap around, each is 37 behind the one before. -/
theorem distinctDarts_iff_spaced (hwrap : 37 * numberOfPlayers.toNat ≤ 2 ^ 64) :
    DistinctDarts e stream seed numberOfPlayers numberOfDarts ↔
      ∀ p : Player numberOfPlayers, p.val + 1 < numberOfPlayers.toNat →
        taken e stream seed numberOfDarts p ≤ 37 := by
  by_cases hdarts : numberOfDarts.toNat = 0
  · apply iff_of_true (distinctDarts_of_zero stream seed hdarts)
    intro p _
    simp [taken, hdarts]
  · have hfirst : ∀ p : Player numberOfPlayers, first p = 13 + 37 * p.val := by
      intro p
      have hp := p.isLt
      exact first_eq p (by omega)
    rw [distinctDarts_iff_stretches, stretchesDisjoint_iff_spaced hfirst (by decide)]
    · simp only [Nat.add_le_add_iff_left]
    · intro p
      have hp := two_mul_le_taken stream seed numberOfDarts p
      omega

theorem not_distinctDarts (hplayers : 2 ≤ numberOfPlayers.toNat)
    (hdarts : 19 ≤ numberOfDarts.toNat) :
    ¬ DistinctDarts e stream seed numberOfPlayers numberOfDarts := by
  rw [distinctDarts_iff_gaps]
  intro h
  obtain ⟨p, hp⟩ : ∃ p : Player numberOfPlayers, p.val = 0 := ⟨⟨0, by omega⟩, rfl⟩
  obtain ⟨q, hq⟩ : ∃ q : Player numberOfPlayers, q.val = 1 := ⟨⟨1, by omega⟩, rfl⟩
  have hfirst := first_eq p (by omega)
  have hnext := first_eq q (by omega)
  have hgap := h p q (by omega)
  have htaken := two_mul_le_taken stream seed numberOfDarts p
  omega

theorem taken_of_uniform {elements : Nat}
    (huniform : ∀ s, stream.position (e.distr s).2 = stream.position s + elements)
    (player : Player numberOfPlayers) :
    taken e stream seed numberOfDarts player = 2 * numberOfDarts.toNat * elements := by
  simp [taken, e.after_succ, huniform]

end

/-- The darts of the players are distinct exactly when the draws of no player reach the
next offset.  The offsets are 37 apart as long as they do not wrap around, so two
players never throw 19 distinct darts. -/
theorem distinctDarts_iff (e : Engine σ) (stream : Stream e) (seed : Int)
    (numberOfPlayers numberOfDarts : UInt64) :
    (DistinctDarts e stream seed numberOfPlayers numberOfDarts ↔
      ∀ p q : Player numberOfPlayers, first p < first q →
        taken e stream seed numberOfDarts p ≤ first q - first p) ∧
    (37 * numberOfPlayers.toNat ≤ 2 ^ 64 →
      (DistinctDarts e stream seed numberOfPlayers numberOfDarts ↔
        ∀ p : Player numberOfPlayers, p.val + 1 < numberOfPlayers.toNat →
          taken e stream seed numberOfDarts p ≤ 37) ∧
      ∀ elements, (∀ s, stream.position (e.distr s).2 = stream.position s + elements) →
        (DistinctDarts e stream seed numberOfPlayers numberOfDarts ↔
          numberOfPlayers.toNat ≤ 1 ∨ 2 * numberOfDarts.toNat * elements ≤ 37)) ∧
    (2 ≤ numberOfPlayers.toNat → 19 ≤ numberOfDarts.toNat →
      ¬ DistinctDarts e stream seed numberOfPlayers numberOfDarts) := by
  refine ⟨?_, ?_, not_distinctDarts stream seed⟩
  · rw [distinctDarts_iff_gaps]
    apply forall₂_congr
    intro p q
    apply imp_congr_right
    intro hlt
    omega
  · intro hwrap
    refine ⟨distinctDarts_iff_spaced stream seed hwrap, ?_⟩
    intro elements huniform
    rw [distinctDarts_iff_spaced stream seed hwrap]
    simp only [taken_of_uniform stream seed huniform]
    constructor
    · intro h
      by_cases hone : numberOfPlayers.toNat ≤ 1
      · exact .inl hone
      · exact .inr (h ⟨0, by omega⟩ (show 0 + 1 < numberOfPlayers.toNat by omega))
    · intro h p hp
      exact h.resolve_left (by omega)

/-- The minimal standard engine in closed form, with one element for every draw. -/
def minstd : Engine (Nat × Nat) where
  construct seed offset := (max 1 (seed % 2147483647).toNat, offset.toNat)
  distr s :=
    (UInt64.ofNat (48271 ^ (s.2 + 1) * s.1 % 2147483647 * 3037000494 / 2147483647),
      s.1, s.2 + 1)

def minstdStream : Stream minstd where
  position := Prod.snd
  position_construct _ _ := rfl
  position_distr s := Nat.lt_succ_self s.2

theorem distinctDarts_four_eighteen : DistinctDarts minstd minstdStream 0 4 18 :=
  (((distinctDarts_iff minstd minstdStream 0 4 18).2.1 (by decide)).2 1 fun _ => rfl).mpr
    (.inr (by decide))

/-- With the default options players share elements of the stream. -/
theorem not_distinctDarts_default : ¬ DistinctDarts minstd minstdStream 0 4 1000000 :=
  not_distinctDarts minstdStream 0 (by decide) (by decide)

end UnoApi.MonteCarlo
