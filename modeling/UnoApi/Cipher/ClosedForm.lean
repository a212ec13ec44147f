import UnoApi.Cipher.KeyTable

/-!
# The byte maps in closed form

`scramble` lists the key without its repetitions and then every other byte in
increasing order.  `unscramble` gives the position of a byte in that list, which for a
byte outside the key is a count of smaller bytes.
-/

namespace UnoApi.Cipher

open UnoApi.Machine UnoApi.Collections

theorem allBytes_sorted : allBytes.Pairwise (· < ·) := by
  rw [allBytes, List.pairwise_map]
  apply List.Pairwise.imp_of_mem _ List.pairwise_lt_range
  intro i j hi hj hlt
  have hi256 := List.mem_range.mp hi
  have hj256 := List.mem_range.mp hj
  rw [UInt8.lt_iff_toNat_lt]
  simpa [Nat.mod_eq_of_lt hi256, Nat.mod_eq_of_lt hj256] using hlt

/-- The table lists `d` and then every byte that does not occur in `d`, in increasing
order; so it lists every byte once. -/
structure Extends (d table : List UInt8) : Prop where
  split : ∃ rest, table = d ++ rest ∧ rest.Pairwise (· < ·) ∧ ∀ b, b ∈ rest ↔ b ∉ d
  length : table.length = 256
  nodup : table.Nodup
  complete : ∀ b, b ∈ table

/-- The position of `c` in `d`, or behind `d` and the smaller bytes outside `d`. -/
def position (d : List UInt8) (c : UInt8) : Nat :=
  if c ∈ d then d.idxOf c
  else d.length + (allBytes.filter fun b => b < c ∧ b ∉ d).length

def unscrambleBefore (key : List UInt8) (values : List Int) : UnscrambleState :=
  values.foldl (unscrambleStep (removeDuplicates key)) ⟨(removeDuplicates key).length, []⟩

theorem extends_keyListing (key : List UInt8) :
    Extends (removeDuplicates key) (keyListing key).entries where
  split := by
    refine ⟨allBytes.filter (· ∉ removeDuplicates key), rfl, allBytes_sorted.filter _, ?_⟩
    intro b
    simp [mem_allBytes]
  length := keyListing_length key
  nodup := (keyListing key).nodup
  complete := (keyListing key).complete

theorem idxOf_keyListing (key : List UInt8) (c : UInt8) :
    (keyListing key).entries.idxOf c = position (removeDuplicates key) c := by
  unfold position
  split
  · rename_i hc
    exact byteListing.idxOf_prioritize_of_mem (removeDuplicates_nodup key) hc
  · rename_i hc
    exact byteListing.idxOf_prioritize_of_sorted allBytes_sorted (removeDuplicates_nodup key) hc

theorem lookup_unscramble_toNat (key : List UInt8) (c : UInt8) :
    (lookup (unscramble key 0 256) c).toNat = position (removeDuplicates key) c := by
  rw [lookup_unscramble, ← idxOf_keyListing]
  simpa using Nat.mod_eq_of_lt (idxOf_keyListing_lt key c)

theorem counterNot_le (key : List UInt8) {values rest : List Int} {i : Int}
    (hloop : intRange 0 256 = values ++ i :: rest) (hi : toByte i ∉ removeDuplicates key) :
    (unscrambleBefore key values).counterNot ≤ 255 := by
  have hsplit : allBytes = values.map toByte ++ toByte i :: rest.map toByte := by
    rw [← map_toByte_intRange, hloop, List.map_append, List.map_cons]
  have hfold := foldl_unscrambleStep (removeDuplicates_nodup key) values
    (hsplit.trans (List.nil_append _).symm) []
  have hindex := byteListing.idxOf_prioritize_of_notMem (removeDuplicates_nodup key) hi hsplit
  have hcounter : (unscrambleBefore key values).counterNot =
      (keyListing key).entries.idxOf (toByte i) :=
    (congrArg UnscrambleState.counterNot hfold).trans hindex.symm
  rw [hcounter]
  exact Nat.le_of_lt_succ (idxOf_keyListing_lt key (toByte i))

/-- The two byte maps in closed form, for every key; `scramble` never takes the front of
an empty list, and `unscramble` never converts a count that is no byte. -/
theorem byteMaps_closed_form (key : List UInt8) :
    (∃ byteMap, scramble key 0 256 = some byteMap ∧ Extends key.eraseDups byteMap) ∧
    (unscramble key 0 256).length = 256 ∧
    (∀ c, (lookup (unscramble key 0 256) c).toNat = position key.eraseDups c) ∧
    ∀ values i rest, intRange 0 256 = values ++ i :: rest → toByte i ∉ key.eraseDups →
      (unscrambleBefore key values).counterNot ≤ 255 := by
  rw [← removeDuplicates_eq]
  refine ⟨⟨_, scramble_eq key, extends_keyListing key⟩, unscramble_length key,
    lookup_unscramble_toNat key, ?_⟩
  intro values i rest hloop hi
  exact counterNot_le key hloop hi

end UnoApi.Cipher
