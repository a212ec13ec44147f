import UnoApi.Input.Extraction
import Mathlib.Data.List.TakeWhile

/-!
# Printed integers

`std::cout << v` prints an integer in decimal.  What is printed without white space and
followed by white space is a token again, and a printed `int` is read back as it was.
-/

namespace UnoApi.Input

open UnoApi.Machine

def printInt (v : Int) : Token :=
  if v < 0 then '-' :: Nat.toDigits 10 v.natAbs else Nat.toDigits 10 v.natAbs

/-! ## Digits -/

theorem digitsValue_toDigits (n : Nat) : digitsValue (Nat.toDigits 10 n) = n := by
  have hdigits := @Nat.ofDigitChars_toDigits 10 n (by decide) (by decide)
  rw [Nat.ofDigitChars_eq_foldl] at hdigits
  exact hdigits

theorem isDigit_of_mem_toDigits {n : Nat} {c : Char} (h : c ∈ Nat.toDigits 10 n) :
    c.isDigit = true := Nat.isDigit_of_mem_toDigits (by decide) (by decide) h

theorem isDigit_iff (c : Char) : c.isDigit = true ↔ 48 ≤ c.toNat ∧ c.toNat ≤ 57 := by
  simp only [Char.isDigit, Bool.and_eq_true, decide_eq_true_eq, UInt32.le_iff_toNat_le]
  exact Iff.rfl

theorem takeWhile_toDigits (n : Nat) :
    (Nat.toDigits 10 n).takeWhile Char.isDigit = Nat.toDigits 10 n :=
  List.takeWhile_eq_self_iff.mpr fun _ h => isDigit_of_mem_toDigits h

theorem dropWhile_toDigits (n : Nat) : (Nat.toDigits 10 n).dropWhile Char.isDigit = [] :=
  List.dropWhile_eq_nil_iff.mpr fun _ h => isDigit_of_mem_toDigits h

theorem head_toDigits (n : Nat) : (Nat.toDigits 10 n).head? ≠ some '-' ∧
    (Nat.toDigits 10 n).head? ≠ some '+' := by
  have hdigit : ∀ c, (Nat.toDigits 10 n).head? = some c → c.isDigit = true := fun c h =>
    isDigit_of_mem_toDigits (List.mem_of_head? h)
  constructor
  · intro h
    exact absurd (hdigit _ h) (by decide)
  · intro h
    exact absurd (hdigit _ h) (by decide)

/-! ## Reading a printed integer -/

theorem convert_minus_toDigits {n : Nat} (hn : n ≤ 2 ^ 31) :
    convert ('-' :: Nat.toDigits 10 n) = .value (-n) [] := by
  have hne := @Nat.toDigits_ne_nil n 10
  have hmax : (0 : Int) ≤ intMax := by decide
  have hhigh : ¬ intMax < -(n : Int) := by omega
  simp [convert, takeWhile_toDigits, dropWhile_toDigits, digitsValue_toDigits, hne, hhigh]
  omega

theorem convert_toDigits {n : Nat} (hn : (n : Int) ≤ intMax) :
    convert (Nat.toDigits 10 n) = .value n [] := by
  obtain ⟨hminus, hplus⟩ := head_toDigits n
  have hne := @Nat.toDigits_ne_nil n 10
  have hhigh : ¬ intMax < (n : Int) := by omega
  simp [convert, takeWhile_toDigits, dropWhile_toDigits, digitsValue_toDigits, hne, hminus, hplus,
    hhigh]

theorem intToken_printInt {v : Int} (hmin : -2 ^ 31 ≤ v) (hmax : v ≤ intMax) :
    intToken (printInt v) = some v := by
  have hconvert : convert (printInt v) = .value v [] := by
    unfold printInt
    split
    · have hn : v.natAbs ≤ 2 ^ 31 := by omega
      have habs : -(v.natAbs : Int) = v := by omega
      rw [convert_minus_toDigits hn, habs]
    · have habs : (v.natAbs : Int) = v := by omega
      have hn : (v.natAbs : Int) ≤ intMax := by omega
      rw [convert_toDigits hn, habs]
  rw [intToken, hconvert]

/-! ## Words -/

structure IsWord (t : Token) : Prop where
  ne_nil : t ≠ []
  noSpace : ∀ c ∈ t, isSpace c = false

theorem isWord_printInt (v : Int) : IsWord (printInt v) := by
  have hdigits : ∀ c ∈ Nat.toDigits 10 v.natAbs, isSpace c = false := by
    intro c hc
    have hdigit := (isDigit_iff c).mp (isDigit_of_mem_toDigits hc)
    simp only [isSpace, decide_eq_false_iff_not]
    omega
  unfold printInt
  split
  · refine ⟨by simp, ?_⟩
    intro c hc
    rcases List.mem_cons.mp hc with rfl | hc
    · decide
    · exact hdigits c hc
  · exact ⟨Nat.toDigits_ne_nil, hdigits⟩

theorem tokens_space {c : Char} (h : isSpace c = true) (rest : List Char) :
    tokens (c :: rest) = tokens rest := by
  simp [tokens, List.splitOnP_cons_eq_if_modifyHead, h]

theorem tokens_word {t : Token} (ht : IsWord t) {c : Char} (hc : isSpace c = true)
    (rest : List Char) : tokens (t ++ c :: rest) = t :: tokens rest := by
  have hne := ht.ne_nil
  rw [tokens, List.splitOnP_append_cons_of_forall_mem ht.noSpace c hc]
  simp [hne, tokens]

theorem tokens_words {ts : List Token} (hts : ∀ t ∈ ts, IsWord t) (rest : List Char) :
    tokens (ts.flatMap (fun t => t ++ [' ']) ++ rest) = ts ++ tokens rest := by
  induction ts with
  | nil => rfl
  | cons t ts ih =>
      have hjoin : (t :: ts).flatMap (fun t => t ++ [' ']) ++ rest =
          t ++ ' ' :: (ts.flatMap (fun t => t ++ [' ']) ++ rest) := by
        simp
      rw [hjoin, tokens_word (hts t (by simp)) (by decide), ih fun t' ht' => hts t' (by simp [ht']),
        List.cons_append]

end UnoApi.Input
