import UnoApi.Machine.Counter
import Mathlib.Logic.Function.Basic

/-!
# Extracting integers from a text

`input >> target` on an `int` skips white space and converts the number that follows;
what the number leaves of its token is the next thing to read.  A word stores zero and
a number that does not fit the nearest `int`, and both fail the stream, as the end of
the text does.  On a failed stream, and at the end, the target keeps its value.
-/

namespace UnoApi.Input

open UnoApi.Machine

/-- Characters without white space. -/
abbrev Token := List Char

def isSpace (c : Char) : Bool := c.toNat = 32 ∨ (9 ≤ c.toNat ∧ c.toNat ≤ 13)

def tokens (text : List Char) : List Token := (text.splitOnP isSpace).filter (· ≠ [])

inductive Conversion where
  | value (v : Int) (left : Token)
  | outOfRange (nearest : Int)
  | noNumber

def Conversion.stored : Conversion → Int
  | .value v _ => v
  | .outOfRange nearest => nearest
  | .noNumber => 0

def digitsValue (digits : Token) : Nat :=
  digits.foldl (fun v c => 10 * v + (c.toNat - 48)) 0

/-- The longest decimal number at the beginning of a token. -/
def convert (t : Token) : Conversion :=
  let unsigned := if t.head? = some '-' ∨ t.head? = some '+' then t.tail else t
  let digits := unsigned.takeWhile Char.isDigit
  let v : Int := if t.head? = some '-' then -digitsValue digits else digitsValue digits
  if digits = [] then .noNumber
  else if v < -2 ^ 31 then .outOfRange (-2 ^ 31)
  else if intMax < v then .outOfRange intMax
  else .value v (unsigned.dropWhile Char.isDigit)

/-- The value of a token that is an `int` and nothing else. -/
def intToken (t : Token) : Option Int :=
  match convert t with
  | .value v [] => some v
  | _ => none

structure InputStream where
  tokens : List Token
  failed : Bool

/-- `input >> target`: the target and the stream after it. -/
def extract (target : Int) (s : InputStream) : Int × InputStream :=
  if s.failed then (target, s)
  else
    match s.tokens with
    | [] => (target, ⟨[], true⟩)
    | t :: rest =>
        match convert t with
        | .value v [] => (v, ⟨rest, false⟩)
        | .value v left => (v, ⟨left :: rest, false⟩)
        | .outOfRange nearest => (nearest, ⟨rest, true⟩)
        | .noNumber => (0, ⟨t :: rest, true⟩)

theorem convert_of_intToken {t : Token} {v : Int} (h : intToken t = some v) :
    convert t = .value v [] := by
  unfold intToken at h
  split at h
  · rename_i heq
    rw [heq, Option.some.inj h]
  · cases h

theorem intToken_le {t : Token} {v : Int} (h : intToken t = some v) : v ≤ intMax := by
  have hvalue := convert_of_intToken h
  unfold convert at hvalue
  dsimp only at hvalue
  generalize (if t.head? = some '-' ∨ t.head? = some '+' then t.tail else t) = unsigned at hvalue
  generalize (if t.head? = some '-' then _ else _ : Int) = w at hvalue
  by_cases hdigits : unsigned.takeWhile Char.isDigit = []
  · rw [if_pos hdigits] at hvalue
    cases hvalue
  rw [if_neg hdigits] at hvalue
  by_cases hlow : w < -2 ^ 31
  · rw [if_pos hlow] at hvalue
    cases hvalue
  rw [if_neg hlow] at hvalue
  by_cases hhigh : intMax < w
  · rw [if_pos hhigh] at hvalue
    cases hvalue
  · rw [if_neg hhigh] at hvalue
    obtain ⟨rfl, -⟩ := Conversion.value.inj hvalue
    exact Int.not_lt.mp hhigh

theorem extract_stored (target : Int) (t : Token) (rest : List Token) :
    (extract target ⟨t :: rest, false⟩).1 = (convert t).stored := by
  unfold extract
  dsimp only
  cases convert t with
  | value v left => cases left <;> rfl
  | outOfRange nearest => rfl
  | noNumber => rfl

theorem extract_of_value {t : Token} {v : Int} {left : Token} (h : convert t = .value v left)
    (target : Int) (rest : List Token) :
    extract target ⟨t :: rest, false⟩ =
      (v, ⟨if left = [] then rest else left :: rest, false⟩) := by
  unfold extract
  dsimp only
  rw [h]
  cases left <;> rfl

theorem extract_of_outOfRange {t : Token} {nearest : Int}
    (h : convert t = .outOfRange nearest) (target : Int) (rest : List Token) :
    extract target ⟨t :: rest, false⟩ = (nearest, ⟨rest, true⟩) := by
  unfold extract
  dsimp only
  rw [h]
  rfl

theorem extract_of_noNumber {t : Token} (h : convert t = .noNumber) (target : Int)
    (rest : List Token) : extract target ⟨t :: rest, false⟩ = (0, ⟨t :: rest, true⟩) := by
  unfold extract
  dsimp only
  rw [h]
  rfl

theorem extract_intToken {ts : List Token} {v : Int} (h : ts.head?.bind intToken = some v)
    (target : Int) : extract target ⟨ts, false⟩ = (v, ⟨ts.tail, false⟩) := by
  cases ts with
  | nil => cases h
  | cons t rest => exact extract_of_value (convert_of_intToken h) target rest

/-! ## Filling cells -/

variable {κ : Type} [DecidableEq κ]

def extractInto (s : (κ → Int) × InputStream) (cell : κ) : (κ → Int) × InputStream :=
  let (v, input) := extract (s.1 cell) s.2
  (Function.update s.1 cell v, input)

theorem foldl_extractInto {cell : Nat → κ} {value : Nat → Int} {ts : List Token} {count : Nat}
    (hcell : ∀ k < count, ∀ l < count, cell k = cell l → k = l)
    (hts : ∀ k < count, ts[k]?.bind intToken = some (value k)) (C : κ → Int) :
    let s := (List.range count).foldl (fun s k => extractInto s (cell k)) (C, ⟨ts, false⟩)
    s.2 = ⟨ts.drop count, false⟩ ∧ ∀ k < count, s.1 (cell k) = value k := by
  induction count with
  | zero => simp
  | succ count ih =>
      rcases ih (fun k hk l hl => hcell k (by omega) l (by omega)) fun k hk => hts k (by omega)
        with ⟨hinput, hvalues⟩
      have hnext : (ts.drop count).head?.bind intToken = some (value count) := by
        rw [List.head?_drop]
        exact hts count (Nat.lt_succ_self count)
      dsimp only at hinput hvalues ⊢
      rw [List.range_succ, List.foldl_append, List.foldl_cons, List.foldl_nil, extractInto,
        hinput, extract_intToken hnext]
      dsimp only
      refine ⟨by rw [List.tail_drop], ?_⟩
      intro k hk
      by_cases hlast : k = count
      · subst hlast
        exact Function.update_self _ _ _
      · have hne : cell k ≠ cell count := fun heq =>
          hlast (hcell k hk count (Nat.lt_succ_self count) heq)
        rw [Function.update_of_ne hne]
        exact hvalues k (by omega)

end UnoApi.Input
