import UnoApi.Collections.Chunks
import UnoApi.Input.Extraction

/-!
# Reading the matrix

`verify_matrix_squared` reads the two sizes, and `populate_matrix` reads them again and
then the entries.  Neither looks at the state of the stream, so a text whose sizes come
out equal is accepted whatever follows them, and whatever they are.
-/

namespace UnoApi.TransitiveClosure

open UnoApi.Machine UnoApi.Collections UnoApi.Input

abbrev File := Option (List Char)

abbrev Entries := Int × Int → Int

/-- What the uninitialised `rows` and `columns` hold. -/
structure Junk where
  rows : Int
  columns : Int

def extractSizes (junk : Junk) (input : InputStream) : Int × Int × InputStream :=
  let (rows, input) := extract junk.rows input
  let (columns, input) := extract junk.columns input
  (rows, columns, input)

def verifyMatrixSquared (file : File) (junk : Junk) (n : Int) : Int × Int :=
  match file with
  | none => (1, n)
  | some text =>
      let (rows, columns, _) := extractSizes junk ⟨tokens text, false⟩
      let n := rows
      if rows ≠ columns then (1, n) else (0, n)

def populateMatrix (file : File) (junk : Junk) (C : Entries) : Int × Entries :=
  match file with
  | none => (1, C)
  | some text =>
      let (rows, columns, input) := extractSizes junk ⟨tokens text, false⟩
      if rows ≠ columns then (1, C)
      else
        let s := (intRange 0 rows).foldl (fun s i =>
          (intRange 0 columns).foldl (fun s j => extractInto s (i, j)) s) (C, input)
        (0, s.1)

/-- The text begins with two equal sizes, and so many numbers follow. -/
def Describes (text : List Char) (size : Nat) (entry : Nat → Int) : Prop :=
  ∃ rows columns body, tokens text = rows :: columns :: body ∧
    intToken rows = some (size : Int) ∧ intToken columns = some (size : Int) ∧
    ∀ k < size * size, body[k]?.bind intToken = some (entry k)

def WellFormed (file : File) : Prop :=
  ∃ text size entry, file = some text ∧ Describes text size entry

def Accepts (file : File) (junk junk' : Junk) (n : Int) (C : Entries) : Prop :=
  (verifyMatrixSquared file junk n).1 = 0 ∧ (populateMatrix file junk' C).1 = 0

/-- The reader accepts the file exactly when it is well formed and then leaves what the
file describes; otherwise one of the two functions returns 1. -/
structure ReadsExactly (file : File) : Prop where
  accepts : ∀ junk junk' n C, Accepts file junk junk' n C ↔ WellFormed file
  fills : ∀ text size entry, file = some text → Describes text size entry →
    ∀ junk junk' n C, (verifyMatrixSquared file junk n).2 = size ∧
      ∀ i < size, ∀ j < size, (populateMatrix file junk' C).2 (i, j) = entry (i * size + j)
  rejects : ¬ WellFormed file → ∀ junk junk' n C,
    (verifyMatrixSquared file junk n).1 = 1 ∨ (populateMatrix file junk' C).1 = 1

/-! ## The sizes -/

def SizesAgree (junk : Junk) (ts : List Token) : Prop :=
  (extractSizes junk ⟨ts, false⟩).1 = (extractSizes junk ⟨ts, false⟩).2.1

theorem code_eq_zero_iff {α : Type} {rows columns : Int} {x y : α} :
    (if rows ≠ columns then ((1 : Int), x) else (0, y)).1 = 0 ↔ rows = columns := by
  by_cases h : rows = columns
  · simp [h]
  · simp [h]

theorem verify_eq_zero_iff (text : List Char) (junk : Junk) (n : Int) :
    (verifyMatrixSquared (some text) junk n).1 = 0 ↔ SizesAgree junk (tokens text) :=
  code_eq_zero_iff

theorem populate_eq_zero_iff (text : List Char) (junk : Junk) (C : Entries) :
    (populateMatrix (some text) junk C).1 = 0 ↔ SizesAgree junk (tokens text) :=
  code_eq_zero_iff

theorem verify_zero_or_one (file : File) (junk : Junk) (n : Int) :
    (verifyMatrixSquared file junk n).1 = 0 ∨ (verifyMatrixSquared file junk n).1 = 1 := by
  unfold verifyMatrixSquared
  split
  · exact .inr rfl
  · dsimp only
    split
    · exact .inr rfl
    · exact .inl rfl

theorem accepts_iff (text : List Char) (junk junk' : Junk) (n : Int) (C : Entries) :
    Accepts (some text) junk junk' n C ↔
      SizesAgree junk (tokens text) ∧ SizesAgree junk' (tokens text) := by
  rw [Accepts, verify_eq_zero_iff, populate_eq_zero_iff]

theorem extractSizes_of_ints {rows columns : Token} {body : List Token} {r c : Int}
    (hrows : intToken rows = some r) (hcolumns : intToken columns = some c) (junk : Junk) :
    extractSizes junk ⟨rows :: columns :: body, false⟩ = (r, c, ⟨body, false⟩) := by
  have hfirst : (rows :: columns :: body).head?.bind intToken = some r := hrows
  have hsecond : (columns :: body).head?.bind intToken = some c := hcolumns
  rw [extractSizes, extract_intToken hfirst]
  dsimp only [List.tail_cons]
  rw [extract_intToken hsecond]
  rfl

/-! ## The entries -/

def fillOrder (size k : Nat) : Int × Int := ((k / size : Nat), (k % size : Nat))

theorem fillOrder_injective {size k l : Nat} (h : fillOrder size k = fillOrder size l) : k = l := by
  simp only [fillOrder, Prod.mk.injEq, Int.natCast_inj] at h
  calc
    k = size * (k / size) + k % size := (Nat.div_add_mod k size).symm
    _ = size * (l / size) + l % size := by rw [h.1, h.2]
    _ = l := Nat.div_add_mod l size

theorem fillOrder_add {size j : Nat} (i : Nat) (hj : j < size) :
    fillOrder size (i * size + j) = ((i : Int), (j : Int)) := by
  rw [fillOrder, Nat.mul_add_mod_of_lt hj, Nat.mul_comm, Nat.mul_add_div (by omega),
    Nat.div_eq_of_lt hj, Nat.add_zero]

theorem Describes.sizes {text : List Char} {size : Nat} {entry : Nat → Int}
    (h : Describes text size entry) : ∃ body : List Token,
      (∀ junk, extractSizes junk ⟨tokens text, false⟩ =
        ((size : Int), (size : Int), (⟨body, false⟩ : InputStream))) ∧
      ∀ k < size * size, body[k]?.bind intToken = some (entry k) := by
  obtain ⟨rows, columns, body, hsplit, hrows, hcolumns, hbody⟩ := h
  refine ⟨body, ?_, hbody⟩
  intro junk
  rw [hsplit, extractSizes_of_ints hrows hcolumns]

theorem Describes.fills {text : List Char} {size : Nat} {entry : Nat → Int}
    (h : Describes text size entry) (junk : Junk) (C : Entries) {i j : Nat} (hi : i < size)
    (hj : j < size) : (populateMatrix (some text) junk C).2 (i, j) = entry (i * size + j) := by
  obtain ⟨body, hsizes, hbody⟩ := h.sizes
  have hloops := foldl_rows (fun (s : Entries × InputStream) i j =>
    extractInto s ((i : Int), (j : Int))) size size (C, ⟨body, false⟩)
  have hcell : ∀ k < size * size, ∀ l < size * size,
      fillOrder size k = fillOrder size l → k = l := fun _ _ _ _ heq => fillOrder_injective heq
  have hfilled := (foldl_extractInto hcell hbody C).2
  have hk : i * size + j < size * size :=
    calc
      i * size + j < i * size + size := Nat.add_lt_add_left hj _
      _ = (i + 1) * size := (Nat.succ_mul i size).symm
      _ ≤ size * size := Nat.mul_le_mul_right size hi
  unfold populateMatrix
  simp only [hsizes, intRange_zero, List.foldl_map, hloops, ne_eq, not_true_eq_false, if_false]
  rw [← fillOrder_add i hj]
  exact hfilled _ hk

theorem Describes.verify {text : List Char} {size : Nat} {entry : Nat → Int}
    (h : Describes text size entry) (junk : Junk) (n : Int) :
    verifyMatrixSquared (some text) junk n = (0, (size : Int)) := by
  obtain ⟨body, hsizes, -⟩ := h.sizes
  unfold verifyMatrixSquared
  simp [hsizes]

theorem Describes.sizesAgree {text : List Char} {size : Nat} {entry : Nat → Int}
    (h : Describes text size entry) (junk : Junk) : SizesAgree junk (tokens text) := by
  obtain ⟨body, hsizes, -⟩ := h.sizes
  rw [SizesAgree, hsizes]

/-! ## Which files are read correctly -/

/-- The first token begins with a number, and what is read after it is another one. -/
def SizesDiffer (ts : List Token) : Prop :=
  ∃ first rest r left second rest', ts = first :: rest ∧ convert first = .value r left ∧
    (if left = [] then rest else left :: rest) = second :: rest' ∧ (convert second).stored ≠ r

/-- Otherwise the two sizes are equal, or one of them keeps what the variable held and
can be equal to the other. -/
theorem sizesDiffer_iff (ts : List Token) : SizesDiffer ts ↔ ∀ junk, ¬ SizesAgree junk ts := by
  constructor
  · intro h junk hagree
    obtain ⟨first, rest, r, left, second, rest', rfl, hfirst, hnext, hne⟩ := h
    rw [SizesAgree, extractSizes, extract_of_value hfirst, hnext] at hagree
    dsimp only at hagree
    rw [extract_stored] at hagree
    exact hne hagree.symm
  · intro h
    cases ts with
    | nil => exact absurd rfl (h ⟨0, 0⟩)
    | cons first rest =>
        cases hfirst : convert first with
        | value r left =>
            have hsizes : ∀ junk : Junk, ¬ r = (extract junk.columns
                ⟨if left = [] then rest else left :: rest, false⟩).1 := by
              intro junk hagree
              apply h junk
              rw [SizesAgree, extractSizes, extract_of_value hfirst]
              exact hagree
            cases hnext : (if left = [] then rest else left :: rest) with
            | nil =>
                rw [hnext] at hsizes
                exact absurd rfl (hsizes ⟨0, r⟩)
            | cons second rest' =>
                have hne := hsizes ⟨0, 0⟩
                rw [hnext, extract_stored] at hne
                exact ⟨first, rest, r, left, second, rest', rfl, hfirst, hnext, Ne.symm hne⟩
        | outOfRange nearest =>
            apply absurd _ (h ⟨0, nearest⟩)
            rw [SizesAgree, extractSizes, extract_of_outOfRange hfirst]
            rfl
        | noNumber =>
            apply absurd _ (h ⟨0, 0⟩)
            rw [SizesAgree, extractSizes, extract_of_noNumber hfirst]
            rfl

theorem WellFormed.readsExactly {file : File} (h : WellFormed file) : ReadsExactly file where
  accepts junk junk' n C := by
    obtain ⟨text, size, entry, rfl, hdescribes⟩ := h
    rw [accepts_iff]
    exact iff_of_true ⟨hdescribes.sizesAgree junk, hdescribes.sizesAgree junk'⟩
      ⟨text, size, entry, rfl, hdescribes⟩
  fills text size entry hfile hdescribes junk junk' n C := by
    subst hfile
    constructor
    · rw [hdescribes.verify junk n]
    · intro i hi j hj
      exact hdescribes.fills junk' C hi hj
  rejects hnot := absurd h hnot

theorem ReadsExactly.wellFormed {text : List Char} (h : ReadsExactly (some text)) {junk : Junk}
    (hagree : SizesAgree junk (tokens text)) : WellFormed (some text) := by
  have haccepted := (accepts_iff text junk junk 0 fun _ => 0).mpr ⟨hagree, hagree⟩
  exact (h.accepts junk junk 0 fun _ => 0).mp haccepted

theorem ReadsExactly.entries {text : List Char} (h : ReadsExactly (some text)) {junk : Junk}
    (hagree : SizesAgree junk (tokens text)) {rows columns : Token} {body : List Token}
    (hsplit : tokens text = rows :: columns :: body) :
    ∃ (size : Nat) (entry : Nat → Int), intToken rows = some (size : Int) ∧
      ∀ k < size * size, body[k]?.bind intToken = some (entry k) := by
  obtain ⟨text', size, entry, hfile, hdescribes⟩ := h.wellFormed hagree
  obtain ⟨rows', columns', body', hsplit', hrows, -, hbody⟩ := hdescribes
  rw [← Option.some.inj hfile, hsplit] at hsplit'
  cases hsplit'
  exact ⟨size, entry, hrows, hbody⟩

theorem readsExactly_of_rejected {file : File} (h : ¬ WellFormed file)
    (hrejected : ∀ junk n, (verifyMatrixSquared file junk n).1 = 1) : ReadsExactly file where
  accepts junk junk' n C := by
    apply iff_of_false _ h
    intro haccepts
    have hzero := haccepts.1
    rw [hrejected] at hzero
    cases hzero
  fills text size entry hfile hdescribes := absurd ⟨text, size, entry, hfile, hdescribes⟩ h
  rejects _ junk _ n _ := .inl (hrejected junk n)

/-- The reader is right about files that cannot be opened, files that are well formed
and files with two different sizes, and about no others: a text whose sizes come out
equal is accepted, or is when the uninitialised variables happen to hold the right
values. -/
theorem readsExactly_iff (file : File) :
    ReadsExactly file ↔
      file = none ∨ WellFormed file ∨ ∃ text, file = some text ∧ SizesDiffer (tokens text) := by
  constructor
  · intro h
    cases file with
    | none => exact .inl rfl
    | some text =>
        by_cases hdiffer : SizesDiffer (tokens text)
        · exact .inr (.inr ⟨text, rfl, hdiffer⟩)
        · rw [sizesDiffer_iff, not_forall_not] at hdiffer
          obtain ⟨junk, hagree⟩ := hdiffer
          exact .inr (.inl (h.wellFormed hagree))
  · intro h
    rcases h with rfl | hwell | ⟨text, rfl, hdiffer⟩
    · apply readsExactly_of_rejected
      · rintro ⟨text, size, entry, hfile, -⟩
        cases hfile
      · exact fun _ _ => rfl
    · exact hwell.readsExactly
    · rw [sizesDiffer_iff] at hdiffer
      apply readsExactly_of_rejected
      · rintro ⟨text', size, entry, hfile, hdescribes⟩
        rw [Option.some.inj hfile] at hdiffer
        exact hdiffer ⟨0, 0⟩ (hdescribes.sizesAgree _)
      · intro junk n
        apply (verify_zero_or_one (some text) junk n).resolve_left
        rw [verify_eq_zero_iff]
        exact hdiffer junk

/-- A body that ends early and a negative size are accepted. -/
theorem not_readsExactly_truncated :
    ¬ ReadsExactly (some ['2', ' ', '2', ' ', '1']) ∧
      ¬ ReadsExactly (some ['-', '1', ' ', '-', '1']) := by
  constructor
  · intro h
    have hagree : SizesAgree ⟨0, 0⟩ (tokens ['2', ' ', '2', ' ', '1']) := by
      unfold SizesAgree
      decide
    have hsplit : tokens ['2', ' ', '2', ' ', '1'] = [['2'], ['2'], ['1']] := by decide
    obtain ⟨size, entry, hrows, hbody⟩ := h.entries hagree hsplit
    have htwo : intToken ['2'] = some 2 := by decide
    have hsize : size = 2 := by
      have hcast := Option.some.inj (htwo.symm.trans hrows)
      omega
    subst hsize
    cases hbody 1 (by decide)
  · intro h
    have hagree : SizesAgree ⟨0, 0⟩ (tokens ['-', '1', ' ', '-', '1']) := by
      unfold SizesAgree
      decide
    have hsplit : tokens ['-', '1', ' ', '-', '1'] = [['-', '1'], ['-', '1']] := by decide
    obtain ⟨size, entry, hrows, -⟩ := h.entries hagree hsplit
    have hone : intToken ['-', '1'] = some (-1) := by decide
    have hsize := Option.some.inj (hone.symm.trans hrows)
    omega

end UnoApi.TransitiveClosure
