import UnoApi.Machine.Counter
import Mathlib.Data.List.Nodup
import Mathlib.Data.Finset.Insert

/-!
# The byte maps of the substitution cipher

`scramble` builds the map that encodes: the key bytes first, then the other
bytes as they come off a linked list.  `unscramble` builds the map that decodes,
by searching the key and counting the bytes that are not in it.
-/

namespace UnoApi.Cipher

open UnoApi.Machine

/-- The `unique_bytes` seen so far and the bytes kept by `std::remove_if`. -/
structure DedupState where
  uniqueBytes : Finset UInt8
  kept : List UInt8

/-- The predicate of `remove_duplicates`, which also inserts the byte it sees. -/
def keepUnseen (s : DedupState) (b : UInt8) : DedupState :=
  if b ∈ s.uniqueBytes then s else ⟨insert b s.uniqueBytes, s.kept ++ [b]⟩

def removeDuplicates (key : List UInt8) : List UInt8 :=
  (key.foldl keepUnseen ⟨∅, []⟩).kept

structure ScrambleState where
  byteMap : List UInt8
  byteList : List UInt8

/-- Step 2 of `scramble` for one key byte; `std::list::remove` drops every copy. -/
def takeKeyByte (s : ScrambleState) (b : UInt8) : ScrambleState :=
  ⟨s.byteMap ++ [b], s.byteList.filter (· ≠ b)⟩

/-- Step 3 of `scramble`; `none` when `front` is called on an empty list. -/
def takeFront (s : ScrambleState) : Option ScrambleState :=
  match s.byteList with
  | [] => none
  | b :: rest => some ⟨s.byteMap ++ [b], rest⟩

/-- `none` stands for undefined behaviour: `front` of an empty list, or a counter
that runs past `INT_MAX`. -/
def scramble (key : List UInt8) (decimalBegin decimalEnd : Int) : Option (List UInt8) :=
  let key := removeDuplicates key
  let keySize := key.length
  let byteList := (intRange decimalBegin (decimalEnd + decimalBegin)).map toByte
  -- no byte is left twice, so the `int` index of this loop is exact
  let afterKey := key.foldl takeKeyByte ⟨[], byteList⟩
  -- the bound is `int + int - size_t`, so it is computed in `size_t`
  let rest := counter decimalBegin (sub64 (toSizeT (decimalBegin + decimalEnd)) keySize)
  if rest.overflows then none
  else (rest.values.foldlM (fun s _ => takeFront s) afterKey).map ScrambleState.byteMap

structure UnscrambleState where
  counterNot : Nat
  byteMap : List UInt8

def unscrambleStep (key : List UInt8) (s : UnscrambleState) (i : Int) : UnscrambleState :=
  let indexByte := toByte i
  match key.findIdx? (· == indexByte) with
  | none => ⟨wrap64 (s.counterNot + 1), s.byteMap ++ [toByte s.counterNot]⟩
  | some found => ⟨s.counterNot, s.byteMap ++ [toByte found]⟩

def unscramble (key : List UInt8) (decimalBegin decimalEnd : Int) : List UInt8 :=
  let key := removeDuplicates key
  ((intRange decimalBegin (decimalEnd + decimalBegin)).foldl (unscrambleStep key)
    ⟨key.length, []⟩).byteMap

/-! ## Removing duplicates -/

theorem foldl_keepUnseen (key : List UInt8) (s : DedupState) :
    (key.foldl keepUnseen s).kept =
      s.kept ++ (key.filter (· ∉ s.uniqueBytes)).eraseDups := by
  induction key generalizing s with
  | nil => simp
  | cons b key ih =>
      rw [List.foldl_cons, ih]
      by_cases hb : b ∈ s.uniqueBytes
      · simp [keepUnseen, hb]
      · simp [keepUnseen, hb, List.eraseDups_cons, beq_eq_decide, List.filter_filter]

theorem removeDuplicates_eq (key : List UInt8) : removeDuplicates key = key.eraseDups := by
  simp [removeDuplicates, foldl_keepUnseen]

structure DedupState.Ok (s : DedupState) : Prop where
  nodup : s.kept.Nodup
  mem_iff : ∀ b, b ∈ s.kept ↔ b ∈ s.uniqueBytes

theorem DedupState.Ok.keepUnseen {s : DedupState} (h : s.Ok) (b : UInt8) :
    (keepUnseen s b).Ok := by
  unfold Cipher.keepUnseen
  split
  · exact h
  · rename_i hb
    constructor
    · rw [List.nodup_append_comm, List.singleton_append, List.nodup_cons]
      exact ⟨fun hmem => hb ((h.mem_iff b).mp hmem), h.nodup⟩
    · intro x
      simp [h.mem_iff, or_comm]

theorem DedupState.Ok.foldl {s : DedupState} (h : s.Ok) (key : List UInt8) :
    (key.foldl Cipher.keepUnseen s).Ok := by
  induction key generalizing s with
  | nil => exact h
  | cons b key ih => exact ih (h.keepUnseen b)

theorem removeDuplicates_nodup (key : List UInt8) : (removeDuplicates key).Nodup := by
  have hstart : (⟨∅, []⟩ : DedupState).Ok := ⟨by simp, by simp⟩
  exact (hstart.foldl key).nodup

/-! ## The steps of `scramble` -/

/-- Step 2 moves the key to the map and takes its bytes off the list. -/
theorem foldl_takeKeyByte (key : List UInt8) (s : ScrambleState) :
    key.foldl takeKeyByte s = ⟨s.byteMap ++ key, s.byteList.filter (· ∉ key)⟩ := by
  induction key generalizing s with
  | nil => simp
  | cons b key ih =>
      rw [List.foldl_cons, ih]
      simp [takeKeyByte, List.filter_filter, Bool.and_comm]

theorem foldlM_takeFront (values : List Int) (s : ScrambleState)
    (h : values.length ≤ s.byteList.length) :
    values.foldlM (fun s _ => takeFront s) s =
      some ⟨s.byteMap ++ s.byteList.take values.length,
        s.byteList.drop values.length⟩ := by
  induction values generalizing s with
  | nil => simp
  | cons i values ih =>
      obtain ⟨byteMap, byteList⟩ := s
      cases byteList with
      | nil => simp at h
      | cons b rest =>
          have hnext := ih ⟨byteMap ++ [b], rest⟩ (by simpa using h)
          simpa [takeFront] using hnext

/-! ## The step of `unscramble` -/

theorem unscrambleStep_of_mem {key : List UInt8} {i : Int} (h : toByte i ∈ key)
    (s : UnscrambleState) :
    unscrambleStep key s i =
      ⟨s.counterNot, s.byteMap ++ [UInt8.ofNat (key.idxOf (toByte i))]⟩ := by
  have hfound : key.findIdx? (· == toByte i) = some (key.idxOf (toByte i)) :=
    List.findIdx?_eq_some_of_exists ⟨_, h, beq_self_eq_true _⟩
  simp [unscrambleStep, hfound, toByte_natCast]

theorem unscrambleStep_of_notMem {key : List UInt8} {i : Int} (h : toByte i ∉ key)
    (s : UnscrambleState) :
    unscrambleStep key s i =
      ⟨wrap64 (s.counterNot + 1), s.byteMap ++ [UInt8.ofNat s.counterNot]⟩ := by
  have hnone : key.findIdx? (· == toByte i) = none := by
    rw [List.findIdx?_eq_none_iff]
    intro b hb
    have hne : b ≠ toByte i := fun heq => h (heq ▸ hb)
    simpa using hne
  simp [unscrambleStep, hnone, toByte_natCast]

theorem length_unscrambleStep (key : List UInt8) (s : UnscrambleState) (i : Int) :
    (unscrambleStep key s i).byteMap.length = s.byteMap.length + 1 := by
  by_cases h : toByte i ∈ key
  · simp [unscrambleStep_of_mem h]
  · simp [unscrambleStep_of_notMem h]

theorem length_foldl_unscrambleStep (key : List UInt8) (values : List Int)
    (s : UnscrambleState) :
    (values.foldl (unscrambleStep key) s).byteMap.length =
      s.byteMap.length + values.length := by
  induction values generalizing s with
  | nil => rfl
  | cons i values ih =>
      rw [List.foldl_cons, ih, length_unscrambleStep, List.length_cons]
      omega

theorem length_unscramble (key : List UInt8) (decimalBegin decimalEnd : Int) :
    (unscramble key decimalBegin decimalEnd).length = decimalEnd.toNat := by
  unfold unscramble
  dsimp only
  rw [length_foldl_unscrambleStep, length_intRange, Int.add_sub_cancel, List.length_nil,
    Nat.zero_add]

end UnoApi.Cipher
