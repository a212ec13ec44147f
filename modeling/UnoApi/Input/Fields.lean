import Mathlib.Data.List.Infix

/-!
# Lines and fields

A text of lines, each of them closed by a newline, and a line of fields between
separators.  A pattern that does not contain the separator occurs in such a line exactly
when it occurs in one of its fields.
-/

namespace UnoApi.Input

variable {α : Type} [DecidableEq α]

/-- The pieces of a list that are closed by the separator; what follows the last separator
is a piece unless it is empty. -/
def closedPieces (separator : α) (l : List α) : List (List α) :=
  if (l.splitOn separator).getLast? = some [] then (l.splitOn separator).dropLast
  else l.splitOn separator

theorem splitOn_append {separator : α} {ls : List (List α)} (h : ∀ l ∈ ls, separator ∉ l)
    (rest : List α) : ((ls.flatMap fun l => l ++ [separator]) ++ rest).splitOn separator =
      ls ++ rest.splitOn separator := by
  induction ls with
  | nil => rfl
  | cons l ls ih =>
      rw [List.flatMap_cons, List.append_assoc, List.append_assoc, List.singleton_append,
        List.splitOn_append_cons_self_of_not_mem (h l List.mem_cons_self),
        ih fun l' hl' => h l' (List.mem_cons_of_mem l hl'), List.cons_append]

theorem closedPieces_append {separator : α} {ls : List (List α)} (h : ∀ l ∈ ls, separator ∉ l)
    (rest : List α) : closedPieces separator ((ls.flatMap fun l => l ++ [separator]) ++ rest) =
      ls ++ closedPieces separator rest := by
  have hne := List.splitOn_ne_nil separator rest
  unfold closedPieces
  rw [splitOn_append h, List.getLast?_append_of_ne_nil _ hne]
  split
  · rw [List.dropLast_append_of_ne_nil hne]
  · rfl

theorem closedPieces_flatMap {separator : α} {ls : List (List α)} (h : ∀ l ∈ ls, separator ∉ l) :
    closedPieces separator (ls.flatMap fun l => l ++ [separator]) = ls := by
  have hnone : closedPieces separator ([] : List α) = [] := by simp [closedPieces]
  rw [← List.append_nil (List.flatMap _ ls), closedPieces_append h, hnone, List.append_nil]

omit [DecidableEq α] in
/-- A pattern cannot reach across a separator. -/
theorem infix_append_cons_iff {separator : α} {p : List α} (hp : separator ∉ p)
    (xs ys : List α) : p <:+: xs ++ separator :: ys ↔ p <:+: xs ∨ p <:+: ys := by
  constructor
  · intro h
    rcases List.infix_append_iff_ne_nil.mp h with h | h | ⟨l₁, l₂, -, hne, rfl, -, hprefix⟩
    · exact .inl h
    · rcases List.infix_cons_iff.mp h with hprefix | h
      · cases p with
        | nil => exact .inr (List.nil_infix)
        | cons a p =>
            rw [(List.cons_prefix_cons.mp hprefix).1] at hp
            exact absurd List.mem_cons_self hp
      · exact .inr h
    · cases l₂ with
      | nil => exact absurd rfl hne
      | cons a l₂ =>
          rw [(List.cons_prefix_cons.mp hprefix).1] at hp
          exact absurd (List.mem_append_right l₁ List.mem_cons_self) hp
  · intro h
    rcases h with h | h
    · exact h.trans (List.prefix_append _ _).isInfix
    · exact h.trans ((List.suffix_cons _ _).trans (List.suffix_append _ _)).isInfix

/-! ## Beginnings and ends -/

/-- What follows the first separator; everything when there is none. -/
def afterFirst (separator : α) (l : List α) : List α :=
  match l.dropWhile (· ≠ separator) with
  | [] => l
  | _ :: rest => rest

/-- What comes before the last separator; everything when there is none. -/
def beforeLast (separator : α) (l : List α) : List α := (afterFirst separator l.reverse).reverse

def removePrefix (p l : List α) : List α := if p <+: l then l.drop p.length else l

def removeSuffix (p l : List α) : List α := (removePrefix p.reverse l.reverse).reverse

theorem afterFirst_append_cons {separator : α} {xs : List α} (h : separator ∉ xs)
    (ys : List α) : afterFirst separator (xs ++ separator :: ys) = ys := by
  have hdrop : (xs ++ separator :: ys).dropWhile (· ≠ separator) = separator :: ys := by
    rw [List.dropWhile_append_of_pos]
    · simp
    · intro x hx
      have hne : x ≠ separator := fun heq => h (heq ▸ hx)
      simpa using hne
  rw [afterFirst, hdrop]

theorem beforeLast_append_cons {separator : α} {ys : List α} (h : separator ∉ ys)
    (xs : List α) : beforeLast separator (xs ++ separator :: ys) = xs := by
  have hreverse : separator ∉ ys.reverse := by simpa using h
  rw [beforeLast, List.reverse_append, List.reverse_cons, List.append_assoc,
    List.singleton_append, afterFirst_append_cons hreverse, List.reverse_reverse]

theorem removePrefix_append (p l : List α) : removePrefix p (p ++ l) = l := by
  rw [removePrefix, if_pos (List.prefix_append p l), List.drop_left]

theorem removeSuffix_append (l p : List α) : removeSuffix p (l ++ p) = l := by
  rw [removeSuffix, List.reverse_append, removePrefix_append, List.reverse_reverse]

end UnoApi.Input
