import UnoApi.Cipher.Scramble
import UnoApi.Collections.Listing

/-!
# What the byte maps contain

Over the whole byte range `scramble` lists every byte once, the key first, and
`unscramble` gives the position of each byte in that listing.  So the two maps
undo each other, although they are computed in different ways.
-/

namespace UnoApi.Cipher

open UnoApi.Machine UnoApi.Collections

def allBytes : List UInt8 := (List.range 256).map UInt8.ofNat

theorem allBytes_length : allBytes.length = 256 := by simp [allBytes]

theorem getElem_allBytes {i : Nat} (h : i < allBytes.length) :
    allBytes[i] = UInt8.ofNat i := by
  simp [allBytes]

theorem allBytes_nodup : allBytes.Nodup := by
  rw [allBytes, List.nodup_map_iff_inj_on List.nodup_range]
  intro i hi j hj hij
  have hi : i < 256 := List.mem_range.mp hi
  have hj : j < 256 := List.mem_range.mp hj
  have hnat := congrArg UInt8.toNat hij
  simpa [Nat.mod_eq_of_lt hi, Nat.mod_eq_of_lt hj] using hnat

theorem mem_allBytes (b : UInt8) : b ∈ allBytes :=
  List.mem_map.mpr ⟨b.toNat, List.mem_range.mpr b.toNat_lt, by simp⟩

def byteListing : Listing UInt8 := ⟨allBytes, allBytes_nodup, mem_allBytes⟩

theorem map_toByte_intRange : (intRange 0 256).map toByte = allBytes := by
  simp only [intRange, allBytes, List.map_map]
  apply List.map_congr_left
  intro i _
  simpa using toByte_natCast i

def keyListing (key : List UInt8) : Listing UInt8 :=
  byteListing.prioritize (removeDuplicates key) (removeDuplicates_nodup key)

theorem keyListing_length (key : List UInt8) : (keyListing key).entries.length = 256 := by
  rw [(keyListing key).length_eq byteListing]
  exact allBytes_length

/-! ## The encoding map -/

/-- The bytes that `scramble` puts on its list, `decimal_end` of them. -/
def listedBytes (decimalBegin decimalEnd : Int) : List UInt8 :=
  (intRange decimalBegin (decimalEnd + decimalBegin)).map toByte

theorem length_listedBytes (decimalBegin decimalEnd : Int) :
    (listedBytes decimalBegin decimalEnd).length = decimalEnd.toNat := by
  rw [listedBytes, List.length_map, length_intRange, Int.add_sub_cancel]

theorem listedBytes_nodup (decimalBegin : Int) {decimalEnd : Int} (hend : decimalEnd ≤ 256) :
    (listedBytes decimalBegin decimalEnd).Nodup := by
  rw [listedBytes, List.nodup_map_iff_inj_on (intRange_nodup _ _)]
  intro i hi j hj hij
  have hnat := congrArg UInt8.toNat hij
  rw [toByte_toNat, toByte_toNat] at hnat
  rw [mem_intRange] at hi hj
  omega

/-- As long as the list has every byte of the key, `scramble` never runs out of bytes. -/
theorem scramble_eq_append {key : List UInt8} {decimalBegin decimalEnd : Nat}
    (hend : decimalEnd ≤ 256) (hint : decimalBegin + decimalEnd < 2 ^ 31)
    (hkey : removeDuplicates key ⊆ listedBytes decimalBegin decimalEnd) :
    scramble key decimalBegin decimalEnd = some (removeDuplicates key ++
      (listedBytes decimalBegin decimalEnd).filter (· ∉ removeDuplicates key)) := by
  have hperm := append_filter_notMem_perm
    (listedBytes_nodup decimalBegin (show (decimalEnd : Int) ≤ 256 by omega))
    (removeDuplicates_nodup key) hkey
  have hlength := hperm.length_eq
  rw [List.length_append, length_listedBytes, Int.toNat_natCast] at hlength
  have hsize : sub64 (toSizeT ((decimalBegin : Int) + decimalEnd)) (removeDuplicates key).length =
      decimalBegin + decimalEnd - (removeDuplicates key).length := by
    rw [← Int.natCast_add, toSizeT_natCast (by omega), sub64_of_le (by omega) (by omega)]
  have hcounter := @counter_eq_range decimalBegin
    (decimalBegin + decimalEnd - (removeDuplicates key).length) (by omega) (by omega)
  have hpasses : decimalBegin + decimalEnd - (removeDuplicates key).length - decimalBegin =
      ((listedBytes decimalBegin decimalEnd).filter (· ∉ removeDuplicates key)).length := by
    omega
  rw [hpasses] at hcounter
  unfold scramble
  dsimp only
  rw [hsize, hcounter, ← listedBytes, foldl_takeKeyByte, foldlM_takeFront]
  · simp only [List.length_map, List.length_range', List.nil_append, List.take_length]
    rfl
  · rw [List.length_map, List.length_range']

theorem scramble_eq (key : List UInt8) :
    scramble key 0 256 = some (keyListing key).entries := by
  have hlist : listedBytes (0 : Nat) (256 : Nat) = allBytes := map_toByte_intRange
  have happend := @scramble_eq_append key 0 256 (by decide) (by decide) fun b _ => by
    rw [hlist]
    exact mem_allBytes b
  rw [hlist] at happend
  exact happend

example : (scramble [67, 121, 110, 64, 33] 0 256).map (List.take 8) =
    some [67, 121, 110, 64, 33, 0, 1, 2] := by
  rw [scramble_eq]
  decide

/-! ## The decoding map -/

theorem wrap64_count {key pre post : List UInt8} (hkey : key.Nodup)
    (hsplit : allBytes = pre ++ post) :
    wrap64 (key.length + (pre.filter (· ∉ key)).length + 1) =
      key.length + (pre.filter (· ∉ key)).length + 1 := by
  have hkeyle : key.length ≤ 256 := by
    rw [← allBytes_length]
    exact byteListing.length_le key hkey
  have hprele : (pre.filter (· ∉ key)).length ≤ 256 := by
    have hlength := congrArg List.length hsplit
    rw [allBytes_length, List.length_append] at hlength
    exact (List.length_filter_le _ pre).trans (by omega)
  exact wrap64_of_lt (by omega)

/-- The loop of `unscramble` counts the bytes it did not find in the key, so each
byte is mapped to its position in the listing of the key. -/
theorem foldl_unscrambleStep {key : List UInt8} (hkey : key.Nodup) (values : List Int)
    {pre post : List UInt8} (hsplit : allBytes = pre ++ (values.map toByte ++ post))
    (acc : List UInt8) :
    values.foldl (unscrambleStep key) ⟨key.length + (pre.filter (· ∉ key)).length, acc⟩ =
      ⟨key.length + ((pre ++ values.map toByte).filter (· ∉ key)).length,
        acc ++ (values.map toByte).map fun c =>
          UInt8.ofNat ((byteListing.prioritize key hkey).entries.idxOf c)⟩ := by
  induction values generalizing pre acc with
  | nil => simp
  | cons i values ih =>
      have hsplit' : allBytes = (pre ++ [toByte i]) ++ (values.map toByte ++ post) := by
        simpa using hsplit
      have hjoin : pre ++ (i :: values).map toByte = (pre ++ [toByte i]) ++ values.map toByte := by
        simp
      rw [List.foldl_cons, hjoin]
      by_cases hi : toByte i ∈ key
      · have hindex := byteListing.idxOf_prioritize_of_mem hkey hi
        have hcount : ((pre ++ [toByte i]).filter (· ∉ key)).length =
            (pre.filter (· ∉ key)).length := by simp [List.filter_append, hi]
        rw [unscrambleStep_of_mem hi, ← hindex, ← hcount, ih hsplit']
        simp
      · have hindex := byteListing.idxOf_prioritize_of_notMem hkey hi hsplit
        have hcount : wrap64 (key.length + (pre.filter (· ∉ key)).length + 1) =
            key.length + ((pre ++ [toByte i]).filter (· ∉ key)).length := by
          rw [wrap64_count hkey hsplit, List.filter_append, List.length_append,
            List.filter_cons_of_pos (by simpa using hi), List.filter_nil]
          rfl
        rw [unscrambleStep_of_notMem hi, hcount, ih hsplit', ← hindex]
        simp

theorem unscramble_eq (key : List UInt8) :
    unscramble key 0 256 =
      allBytes.map fun c => UInt8.ofNat ((keyListing key).entries.idxOf c) := by
  have hsplit : allBytes = [] ++ ((intRange 0 256).map toByte ++ []) := by
    rw [map_toByte_intRange, List.append_nil, List.nil_append]
  have hfold := foldl_unscrambleStep (removeDuplicates_nodup key) (intRange 0 256) hsplit []
  rw [map_toByte_intRange] at hfold
  exact congrArg UnscrambleState.byteMap hfold

example : (unscramble [67, 121, 110, 64, 33] 0 256).take 3 = [5, 6, 7] := by
  decide +kernel

/-! ## The maps undo each other -/

def lookup (byteMap : List UInt8) (b : UInt8) : UInt8 := byteMap.getD b.toNat 0

theorem lookup_eq_getElem {byteMap : List UInt8} {b : UInt8} (h : b.toNat < byteMap.length) :
    lookup byteMap b = byteMap[b.toNat] := by
  simp [lookup, List.getD_eq_getElem?_getD, h]

theorem unscramble_length (key : List UInt8) : (unscramble key 0 256).length = 256 :=
  length_unscramble key 0 256

theorem lookup_unscramble (key : List UInt8) (c : UInt8) :
    lookup (unscramble key 0 256) c = UInt8.ofNat ((keyListing key).entries.idxOf c) := by
  rw [lookup_eq_getElem (by rw [unscramble_length]; exact c.toNat_lt)]
  simp [unscramble_eq, getElem_allBytes]

theorem idxOf_keyListing_lt (key : List UInt8) (c : UInt8) :
    (keyListing key).entries.idxOf c < 256 := by
  rw [← keyListing_length key]
  exact (keyListing key).idxOf_lt c

theorem lookup_unscramble_lookup (key : List UInt8) (b : UInt8) :
    lookup (unscramble key 0 256) (lookup (keyListing key).entries b) = b := by
  have hb : b.toNat < (keyListing key).entries.length := by
    rw [keyListing_length]
    exact b.toNat_lt
  rw [lookup_unscramble, lookup_eq_getElem hb, (keyListing key).nodup.idxOf_getElem]
  simp

theorem lookup_lookup_unscramble (key : List UInt8) (c : UInt8) :
    lookup (keyListing key).entries (lookup (unscramble key 0 256) c) = c := by
  have hlt := idxOf_keyListing_lt key c
  have hc : (UInt8.ofNat ((keyListing key).entries.idxOf c)).toNat =
      (keyListing key).entries.idxOf c := by
    simpa using Nat.mod_eq_of_lt hlt
  rw [lookup_unscramble, lookup_eq_getElem (by rw [hc, keyListing_length]; exact hlt)]
  simp only [hc, List.getElem_idxOf]

/-- The permutation of the bytes a key stands for: a substitution cipher applies
it to every byte, and its inverse to undo that. -/
def keyPerm (key : List UInt8) : Equiv.Perm UInt8 where
  toFun := lookup (keyListing key).entries
  invFun := lookup (unscramble key 0 256)
  left_inv := lookup_unscramble_lookup key
  right_inv := lookup_lookup_unscramble key

theorem coe_keyPerm (key : List UInt8) : ⇑(keyPerm key) = lookup (keyListing key).entries :=
  Equiv.coe_fn_mk _ _ _ _

theorem coe_keyPerm_symm (key : List UInt8) :
    ⇑(keyPerm key).symm = lookup (unscramble key 0 256) :=
  Equiv.coe_fn_symm_mk _ _ _ _

end UnoApi.Cipher
