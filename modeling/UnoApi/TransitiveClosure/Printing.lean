import UnoApi.Input.Printing
import UnoApi.TransitiveClosure.Reader
import UnoApi.TransitiveClosure.Warshall
import Mathlib.Data.List.OfFn

/-!
# Printing the matrix

`print_matrix` writes the rows of a matrix the way the reader takes them: with the two
sizes in front they are a file that describes the matrix.
-/

namespace UnoApi.TransitiveClosure

open UnoApi.Machine UnoApi.Input

variable {n : Nat}

def entryText (A : IntMatrix n) (i j : Fin n) : List Char := printInt (A i j).toInt ++ [' ']

def rowText (A : IntMatrix n) (i : Fin n) : List Char :=
  (List.finRange n).flatMap (entryText A i) ++ ['\n']

def rowsText (A : IntMatrix n) : List Char := (List.finRange n).flatMap (rowText A)

def printMatrix (A : IntMatrix n) : List Char :=
  "Transitive Closure A of C: \n".toList ++ rowsText A

/-- A file with these rows. -/
def inputText (A : IntMatrix n) : List Char :=
  printInt n ++ ' ' :: (printInt n ++ '\n' :: rowsText A)

def described (n : Nat) (entry : Nat → Int) : IntMatrix n := fun i j =>
  Int32.ofInt (entry (i * n + j))

def loaded (n : Nat) (C : Entries) : IntMatrix n := fun i j => Int32.ofInt (C (i, j))

def entryAt (A : IntMatrix n) (k : Nat) : Int :=
  if h : k < n * n then (A ⟨k / n, Nat.div_lt_of_lt_mul h⟩
    ⟨k % n, Nat.mod_lt k (Nat.pos_of_mul_pos_left (Nat.zero_lt_of_lt h))⟩).toInt
  else 0

theorem rowMajor_lt (i j : Fin n) : i.val * n + j.val < n * n :=
  calc
    i.val * n + j.val < i.val * n + n := Nat.add_lt_add_left j.isLt _
    _ = (i.val + 1) * n := (Nat.succ_mul i.val n).symm
    _ ≤ n * n := Nat.mul_le_mul_right n i.isLt

theorem entryAt_rowMajor (A : IntMatrix n) (i j : Fin n) :
    entryAt A (i * n + j) = (A i j).toInt := by
  have hpos : 0 < n := Nat.zero_lt_of_lt j.isLt
  have hrow : (i.val * n + j.val) / n = i := by
    rw [Nat.mul_comm, Nat.mul_add_div hpos, Nat.div_eq_of_lt j.isLt, Nat.add_zero]
  have hcolumn : (i.val * n + j.val) % n = j := Nat.mul_add_mod_of_lt j.isLt
  rw [entryAt, dif_pos (rowMajor_lt i j)]
  simp only [hrow, hcolumn]

theorem described_entryAt (A : IntMatrix n) : described n (entryAt A) = A := by
  ext i j : 2
  rw [described, entryAt_rowMajor, Int32.ofInt_toInt]

/-! ## The tokens of the rows -/

theorem tokens_rowText (A : IntMatrix n) (i : Fin n) (rest : List Char) :
    tokens (rowText A i ++ rest) =
      (List.finRange n).map (fun j => printInt (A i j).toInt) ++ tokens rest := by
  have hwords : ∀ t ∈ (List.finRange n).map (fun j => printInt (A i j).toInt), IsWord t := by
    intro t ht
    obtain ⟨j, -, rfl⟩ := List.mem_map.mp ht
    exact isWord_printInt _
  have hrow : rowText A i ++ rest =
      ((List.finRange n).map fun j => printInt (A i j).toInt).flatMap (fun t => t ++ [' ']) ++
        '\n' :: rest := by
    rw [rowText, List.append_assoc, List.flatMap_map]
    rfl
  rw [hrow, tokens_words hwords, tokens_space (by decide)]

theorem tokens_rows (A : IntMatrix n) (rows : List (Fin n)) :
    tokens (rows.flatMap (rowText A)) =
      rows.flatMap fun i => (List.finRange n).map fun j => printInt (A i j).toInt := by
  induction rows with
  | nil => rfl
  | cons i rows ih => rw [List.flatMap_cons, tokens_rowText, ih, List.flatMap_cons]

theorem tokens_rowsText (A : IntMatrix n) :
    tokens (rowsText A) = List.ofFn fun k : Fin (n * n) => printInt (entryAt A k) := by
  rw [rowsText, tokens_rows, List.ofFn_mul]
  simp only [entryAt_rowMajor, List.flatMap_def, List.ofFn_eq_map]

theorem tokens_inputText (A : IntMatrix n) :
    tokens (inputText A) = printInt n :: printInt n :: tokens (rowsText A) := by
  rw [inputText, tokens_word (isWord_printInt _) (by decide),
    tokens_word (isWord_printInt _) (by decide)]

theorem intToken_printInt32 (x : Int32) : intToken (printInt x.toInt) = some x.toInt := by
  have hlow := x.le_toInt
  have hhigh := x.toInt_lt
  apply intToken_printInt
  · exact hlow
  · unfold intMax
    omega

theorem describes_inputText (hn : (n : Int) ≤ intMax) (A : IntMatrix n) :
    Describes (inputText A) n (entryAt A) := by
  have hsize : intToken (printInt n) = some (n : Int) := intToken_printInt (by omega) hn
  refine ⟨_, _, _, tokens_inputText A, hsize, hsize, ?_⟩
  intro k hk
  rw [tokens_rowsText, List.getElem?_ofFn, dif_pos hk, Option.bind_some, entryAt, dif_pos hk]
  exact intToken_printInt32 _

theorem Describes.loaded_eq {text : List Char} {size : Nat} {entry : Nat → Int}
    (h : Describes text size entry) (junk : Junk) (C : Entries) :
    loaded size (populateMatrix (some text) junk C).2 = described size entry := by
  ext i j : 2
  rw [loaded, h.fills junk C i.isLt j.isLt, described]

/-- What `print_matrix` prints of a matrix, with the two sizes in front, is read back as
this matrix. -/
theorem populateMatrix_inputText (hn : (n : Int) ≤ intMax) (A : IntMatrix n) (junk junk' : Junk)
    (m : Int) (C : Entries) :
    verifyMatrixSquared (some (inputText A)) junk m = (0, (n : Int)) ∧
      (populateMatrix (some (inputText A)) junk' C).1 = 0 ∧
      loaded n (populateMatrix (some (inputText A)) junk' C).2 = A := by
  have hdescribes := describes_inputText hn A
  refine ⟨hdescribes.verify junk m, ?_, ?_⟩
  · exact (populate_eq_zero_iff _ junk' C).mpr (hdescribes.sizesAgree junk')
  · rw [hdescribes.loaded_eq, described_entryAt]

theorem populateMatrix_inputText_weights :
    inputText (fun i j : Fin 2 => if i = j then -7 else 65536) =
        "2 2\n-7 65536 \n65536 -7 \n".toList ∧
      loaded 2 (populateMatrix (some (inputText fun i j : Fin 2 => if i = j then -7 else 65536))
        ⟨3, 5⟩ fun _ => 9).2 = fun i j => if i = j then -7 else 65536 := by
  refine ⟨by decide, ?_⟩
  exact (populateMatrix_inputText (by decide) _ ⟨0, 0⟩ ⟨3, 5⟩ 0 fun _ => 9).2.2

end UnoApi.TransitiveClosure
