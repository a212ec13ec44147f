import UnoApi.Cipher.KeyTable

/-!
# The byte range of the tables

`decimal_begin` and `decimal_end` are the ends of a range for `main`, which sizes the
byte map by their difference.  The loops of `scramble` and `unscramble` begin at the one
and make as many passes as the other says, so they leave the range unless it begins at
zero.
-/

namespace UnoApi.Cipher

open UnoApi.Machine UnoApi.Collections

/-- Both tables have as many entries as the range, and `scramble` lists its bytes. -/
structure RespectsRange (key : List UInt8) (decimalBegin decimalEnd : Int) : Prop where
  scrambled : ∃ byteMap, scramble key decimalBegin decimalEnd = some byteMap ∧
    (byteMap.length : Int) = decimalEnd - decimalBegin ∧ byteMap.Nodup ∧
    ∀ b : UInt8, b ∈ byteMap ↔ decimalBegin ≤ (b.toNat : Int) ∧ (b.toNat : Int) < decimalEnd
  unscrambled : ((unscramble key decimalBegin decimalEnd).length : Int) = decimalEnd - decimalBegin

/-- The list reaches beyond the end of the range when the range begins above zero. -/
theorem mem_listedBytes_of_mem_range {decimalBegin decimalEnd : Int} (hbegin : 0 ≤ decimalBegin)
    {b : UInt8} (hb : decimalBegin ≤ (b.toNat : Int) ∧ (b.toNat : Int) < decimalEnd) :
    b ∈ listedBytes decimalBegin decimalEnd := by
  refine List.mem_map.mpr ⟨(b.toNat : Int), mem_intRange.mpr ?_, ?_⟩
  · omega
  · rw [toByte_natCast, UInt8.ofNat_toNat]

theorem mem_listedBytes_zero {decimalEnd : Int} (hend : decimalEnd ≤ 256) {b : UInt8} :
    b ∈ listedBytes 0 decimalEnd ↔ 0 ≤ (b.toNat : Int) ∧ (b.toNat : Int) < decimalEnd := by
  constructor
  · intro h
    obtain ⟨i, hi, rfl⟩ := List.mem_map.mp h
    rw [mem_intRange] at hi
    rw [toByte_toNat]
    omega
  · exact mem_listedBytes_of_mem_range (Int.le_refl 0)

theorem scramble_perm {key : List UInt8} {decimalBegin decimalEnd : Int}
    (hbegin : 0 ≤ decimalBegin) (hlt : decimalBegin < decimalEnd) (hend : decimalEnd ≤ 256)
    (hkey : ∀ b ∈ key, decimalBegin ≤ (b.toNat : Int) ∧ (b.toNat : Int) < decimalEnd) :
    ∃ byteMap, scramble key decimalBegin decimalEnd = some byteMap ∧
      byteMap.Perm (listedBytes decimalBegin decimalEnd) := by
  have hlisted : removeDuplicates key ⊆ listedBytes decimalBegin decimalEnd := by
    intro b hb
    rw [removeDuplicates_eq, List.mem_eraseDups] at hb
    exact mem_listedBytes_of_mem_range hbegin (hkey b hb)
  have hperm := append_filter_notMem_perm (listedBytes_nodup decimalBegin hend)
    (removeDuplicates_nodup key) hlisted
  obtain ⟨first, rfl⟩ := Int.eq_ofNat_of_zero_le hbegin
  obtain ⟨last, rfl⟩ := Int.eq_ofNat_of_zero_le (hbegin.trans hlt.le)
  exact ⟨_, scramble_eq_append (by omega) (by omega) hlisted, hperm⟩

/-- The tables respect a range exactly when it begins at zero. -/
theorem respectsRange_iff (key : List UInt8) (decimalBegin decimalEnd : Int)
    (hbegin : 0 ≤ decimalBegin) (hlt : decimalBegin < decimalEnd) (hend : decimalEnd ≤ 256)
    (hkey : ∀ b ∈ key, decimalBegin ≤ (b.toNat : Int) ∧ (b.toNat : Int) < decimalEnd) :
    RespectsRange key decimalBegin decimalEnd ↔ decimalBegin = 0 := by
  constructor
  · intro h
    have hlength := h.unscrambled
    rw [length_unscramble] at hlength
    omega
  · intro hzero
    subst hzero
    obtain ⟨byteMap, hmap, hperm⟩ := scramble_perm hbegin hlt hend hkey
    constructor
    · refine ⟨byteMap, hmap, ?_, ?_, ?_⟩
      · rw [hperm.length_eq, length_listedBytes]
        omega
      · exact hperm.nodup_iff.mpr (listedBytes_nodup 0 hend)
      · intro b
        rw [hperm.mem_iff, mem_listedBytes_zero hend]
    · rw [length_unscramble]
      omega

theorem respectsRange_ascii : RespectsRange [99, 97] 0 128 :=
  (respectsRange_iff [99, 97] 0 128 (by decide) (by decide) (by decide) (by simp)).mpr rfl

/-- For the 26 small letters `unscramble` gives 123 entries. -/
theorem not_respectsRange_letters : ¬ RespectsRange [99, 97] 97 123 := by
  intro h
  have hlength := h.unscrambled
  rw [length_unscramble] at hlength
  omega

end UnoApi.Cipher
