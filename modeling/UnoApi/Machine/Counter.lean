import Mathlib.Algebra.Ring.Int.Defs
import Mathlib.Algebra.Ring.Nat

/-!
# Machine integers and counted loops

`size_t` values are naturals below `2 ^ 64` and `int` values integers between
`-2 ^ 31` and `2 ^ 31 - 1`; the conversions between them are written out.

`counter` is the header `for (int c = first; c < bound; c++)` with a `size_t`
bound.  The comparison converts the counter to `size_t`, so a negative counter
compares as a huge value and the loop ends; incrementing `INT_MAX` is signed
overflow, and the counter reports it.
-/

namespace UnoApi.Machine

def intMax : Int := 2 ^ 31 - 1

/-- The value of a `size_t` expression whose exact value is `x`. -/
def wrap64 (x : Nat) : Nat := x % 2 ^ 64

def toSizeT (x : Int) : Nat := (x % 2 ^ 64).toNat

def sub64 (x y : Nat) : Nat := (x + 2 ^ 64 - y) % 2 ^ 64

def toByte (x : Int) : UInt8 := UInt8.ofNat (x % 256).toNat

def toInt32 (x : Nat) : Int := (x : Int).bmod (2 ^ 32)

@[simp] theorem wrap64_of_lt {x : Nat} (h : x < 2 ^ 64) : wrap64 x = x := by
  unfold wrap64
  omega

theorem toSizeT_natCast {x : Nat} (h : x < 2 ^ 64) : toSizeT x = x := by
  unfold toSizeT
  omega

theorem sub64_of_le {x y : Nat} (hx : x < 2 ^ 64) (hy : y ≤ x) : sub64 x y = x - y := by
  unfold sub64
  omega

theorem toNat_add_one {x y : UInt64} (h : x < y) : (x + 1).toNat = x.toNat + 1 := by
  have hlt : x.toNat < y.toNat := h
  have hbound : y.toNat < 2 ^ 64 := y.toNat_lt
  rw [UInt64.toNat_add, Nat.mod_eq_of_lt]
  · rfl
  · change x.toNat + 1 < 2 ^ 64
    omega

theorem toByte_natCast (x : Nat) : toByte x = UInt8.ofNat x := by
  have hmod : ((x : Int) % 256).toNat = x % 256 := by omega
  unfold toByte
  rw [hmod]
  exact UInt8.ofNat_mod_size

theorem toByte_toNat (x : Int) : (toByte x).toNat = (x % 256).toNat := by
  have hlt : (x % 256).toNat < 256 := by omega
  exact UInt8.toNat_ofNat_of_lt' hlt

theorem toInt32_of_lt {x : Nat} (h : x < 2 ^ 31) : toInt32 x = x := by
  unfold toInt32
  rw [Int.bmod_def]
  omega

/-- A `uint` that is passed as an `int` and compared with a `size_t` keeps its value
exactly when it is an `int`. -/
theorem toSizeT_toInt32_eq_iff {x : Nat} (h : x < 2 ^ 32) :
    toSizeT (toInt32 x) = x ↔ x < 2 ^ 31 := by
  constructor
  · intro heq
    unfold toSizeT toInt32 at heq
    rw [Int.bmod_def] at heq
    omega
  · intro hint
    rw [toInt32_of_lt hint, toSizeT_natCast (by omega)]

/-- The counter values of `for (int c = first; c < bound; c++)` with an `int` bound;
such a counter stops at the bound and never runs past `INT_MAX`. -/
def intRange (first bound : Int) : List Int :=
  (List.range (bound - first).toNat).map fun i : Nat => first + i

theorem mem_intRange {first bound i : Int} : i ∈ intRange first bound ↔ first ≤ i ∧ i < bound := by
  unfold intRange
  rw [List.mem_map]
  constructor
  · intro h
    obtain ⟨k, hk, rfl⟩ := h
    have hlt := List.mem_range.mp hk
    omega
  · intro h
    exact ⟨(i - first).toNat, List.mem_range.mpr (by omega), by omega⟩

theorem length_intRange (first bound : Int) :
    (intRange first bound).length = (bound - first).toNat := by
  simp [intRange]

theorem intRange_nodup (first bound : Int) : (intRange first bound).Nodup := by
  rw [intRange, List.Nodup, List.pairwise_map]
  apply List.Pairwise.imp _ List.nodup_range
  intro i j hne heq
  omega

theorem intRange_zero (bound : Nat) :
    intRange 0 bound = (List.range bound).map fun i : Nat => (i : Int) := by
  simp [intRange]

/-- What a counted loop does: the values its counter has in the body, and whether
the counter then ran past `INT_MAX`. -/
structure CounterRun where
  values : List Int
  overflows : Bool
  deriving DecidableEq

/-- `for (int c = first; c < bound; c++)`. -/
def counter (first : Int) (bound : Nat) : CounterRun :=
  if toSizeT first < bound then
    if first < intMax then
      let rest := counter (first + 1) bound
      ⟨first :: rest.values, rest.overflows⟩
    else ⟨[first], true⟩
  else ⟨[], false⟩
termination_by (intMax - first).toNat
decreasing_by omega

theorem counter_next {first : Int} {bound : Nat} (hlt : toSizeT first < bound)
    (hint : first < intMax) :
    counter first bound =
      ⟨first :: (counter (first + 1) bound).values, (counter (first + 1) bound).overflows⟩ := by
  rw [counter, if_pos hlt, if_pos hint]

theorem counter_last {first : Int} {bound : Nat} (hlt : toSizeT first < bound)
    (hint : ¬ first < intMax) : counter first bound = ⟨[first], true⟩ := by
  rw [counter, if_pos hlt, if_neg hint]

theorem counter_eq_range {first bound : Nat} (hle : first ≤ bound) (hbound : bound < 2 ^ 31) :
    counter first bound =
      ⟨(List.range' first (bound - first)).map fun j : Nat => (j : Int), false⟩ := by
  obtain ⟨count, rfl⟩ := Nat.exists_eq_add_of_le hle
  rw [Nat.add_sub_cancel_left]
  induction count generalizing first with
  | zero =>
      rw [counter, if_neg]
      · rfl
      · rw [toSizeT_natCast (by omega)]
        omega
  | succ count ih =>
      have hfirst : toSizeT first < first + (count + 1) := by
        rw [toSizeT_natCast (by omega)]
        omega
      have hint : (first : Int) < intMax := by
        unfold intMax
        omega
      have hnext := @ih (first + 1) (by omega) (by omega)
      have hcast : ((first + 1 : Nat) : Int) = first + 1 := by omega
      rw [show first + 1 + count = first + (count + 1) by omega, hcast] at hnext
      rw [counter_next hfirst hint, hnext]
      rfl

theorem overflows_next {first : Int} {bound : Nat} (hlt : toSizeT first < bound)
    (hint : first < intMax) (h : (counter (first + 1) bound).overflows = true) :
    (counter first bound).overflows = true := by
  rw [counter_next hlt hint]
  exact h

theorem overflows_last {first : Int} {bound : Nat} (hlt : toSizeT first < bound)
    (hint : ¬ first < intMax) : (counter first bound).overflows = true := by
  rw [counter_last hlt hint]

theorem counter_overflows {first bound : Nat} (hfirst : first < 2 ^ 31)
    (hbound : 2 ^ 31 ≤ bound) : (counter first bound).overflows = true := by
  obtain ⟨room, hroom⟩ := Nat.exists_eq_add_of_lt hfirst
  induction room generalizing first with
  | zero =>
      have hlt : toSizeT first < bound := by
        rw [toSizeT_natCast (by omega)]
        omega
      have hlast : ¬ (first : Int) < intMax := by
        unfold intMax
        omega
      exact overflows_last hlt hlast
  | succ room ih =>
      have hlt : toSizeT first < bound := by
        rw [toSizeT_natCast (by omega)]
        omega
      have hint : (first : Int) < intMax := by
        unfold intMax
        omega
      have hcast : ((first + 1 : Nat) : Int) = first + 1 := by omega
      have hnext := @ih (first + 1) (by omega) (by omega)
      rw [hcast] at hnext
      exact overflows_next hlt hint hnext

theorem counter_values_head {first c : Int} {bound : Nat} {rest : List Int}
    (h : (counter first bound).values = c :: rest) : c = first := by
  rw [counter] at h
  split at h
  · split at h
    · exact (List.cons.inj h).1.symm
    · exact (List.cons.inj h).1.symm
  · cases h

/-- A counter that is to begin at a `size_t` value below its bound takes the values it
is meant to exactly when an `int` can reach the bound. -/
theorem counter_toInt32_eq_range_iff {first bound : Nat} (hlt : first < bound) :
    counter (toInt32 first) bound =
        ⟨(List.range' first (bound - first)).map fun j : Nat => (j : Int), false⟩ ↔
      bound < 2 ^ 31 := by
  constructor
  · intro hexact
    by_contra hbound
    by_cases hfirst : first < 2 ^ 31
    · rw [toInt32_of_lt hfirst] at hexact
      have hoverflows := counter_overflows hfirst (Nat.le_of_not_lt hbound)
      rw [hexact] at hoverflows
      cases hoverflows
    · obtain ⟨count, hcount⟩ : ∃ count, bound - first = count + 1 :=
        ⟨bound - first - 1, by omega⟩
      have hvalues := congrArg CounterRun.values hexact
      rw [hcount, List.range'_succ, List.map_cons] at hvalues
      have hhead := counter_values_head hvalues
      unfold toInt32 at hhead
      rw [Int.bmod_def] at hhead
      omega
  · intro hbound
    rw [toInt32_of_lt (by omega)]
    exact counter_eq_range (Nat.le_of_lt hlt) hbound

end UnoApi.Machine
