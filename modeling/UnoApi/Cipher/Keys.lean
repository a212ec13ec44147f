import UnoApi.Cipher.Main

/-!
# Interchangeable keys

A second key decodes what the first one encoded exactly when both give the same byte
map.  The longer key then only adds bytes that would have come next anyway.
-/

namespace UnoApi.Cipher

open UnoApi.Collections

/-- The byte map of `k₂` takes every message back that the byte map of `k₁` encodes. -/
def MapsDecode (k₁ k₂ : List UInt8) : Prop :=
  ∃ byteMap, scramble k₁ 0 256 = some byteMap ∧ ∀ message : List UInt8,
    (message.map (lookup byteMap)).map (lookup (unscramble k₂ 0 256)) = message

/-- A run of `main` that decodes with `k₂` what a run encoded with `k₁` outputs the
original message, whichever grain sizes and branches the two runs use. -/
def RunsDecode (k₁ k₂ : List UInt8) : Prop :=
  ∀ (message : List UInt8) (g₁ g₂ : UInt32) (s₁ s₂ : Bool),
    message.length + 1 < 2 ^ 31 → 0 < g₁.toNat → 0 < g₂.toNat → ∃ encoded,
      (∀ out, Main (encodeOptions k₁ message g₁ s₁) out ↔ out = .outputMessage encoded) ∧
      ∀ out, Main (decodeOptions k₂ encoded g₂ s₂) out ↔ out = .outputMessage message

theorem eq_of_lookup {t₁ t₂ : List UInt8} (h₁ : t₁.length = 256) (h₂ : t₂.length = 256)
    (h : ∀ b, lookup t₁ b = lookup t₂ b) : t₁ = t₂ := by
  apply List.ext_getElem
  · rw [h₁, h₂]
  · intro i hi₁ hi₂
    have hb : (UInt8.ofNat i).toNat = i := by
      rw [h₁] at hi₁
      simpa using hi₁
    have hentry := h (UInt8.ofNat i)
    rw [lookup_eq_getElem (by rwa [hb]), lookup_eq_getElem (by rwa [hb])] at hentry
    simpa only [hb] using hentry

section

variable (k₁ k₂ : List UInt8)

theorem keyPerm_eq_iff : keyPerm k₁ = keyPerm k₂ ↔ scramble k₁ 0 256 = scramble k₂ 0 256 := by
  rw [scramble_eq, scramble_eq, Option.some_inj]
  constructor
  · intro h
    apply eq_of_lookup (keyListing_length k₁) (keyListing_length k₂)
    intro b
    rw [← coe_keyPerm, ← coe_keyPerm, h]
  · intro h
    apply Equiv.ext
    intro b
    rw [coe_keyPerm, coe_keyPerm, h]

theorem keyPerm_eq_of_singletons
    (h : ∀ b, [b] = ([b].map (keyPerm k₁)).map (keyPerm k₂).symm) :
    keyPerm k₁ = keyPerm k₂ := by
  apply Equiv.ext
  intro b
  have hbyte : b = (keyPerm k₂).symm (keyPerm k₁ b) := by simpa using h b
  exact ((keyPerm k₂).eq_symm_apply.mp hbyte).symm

theorem mapsDecode_iff : MapsDecode k₁ k₂ ↔ keyPerm k₁ = keyPerm k₂ := by
  constructor
  · intro h
    obtain ⟨byteMap, hmap, hdecode⟩ := h
    rw [scramble_eq, Option.some_inj] at hmap
    rw [← hmap, ← coe_keyPerm, ← coe_keyPerm_symm] at hdecode
    exact keyPerm_eq_of_singletons k₁ k₂ fun b => (hdecode [b]).symm
  · intro h
    refine ⟨_, scramble_eq k₁, ?_⟩
    intro message
    rw [← coe_keyPerm, ← coe_keyPerm_symm, h]
    simp

theorem runsDecode_iff : RunsDecode k₁ k₂ ↔ keyPerm k₁ = keyPerm k₂ := by
  constructor
  · intro h
    apply keyPerm_eq_of_singletons
    intro b
    have hone : ([b] : List UInt8).length + 1 < 2 ^ 31 := by simp
    have hgrain : 0 < (1 : UInt32).toNat := by decide
    obtain ⟨encoded, hencode, hdecode⟩ := h [b] 1 1 true true hone hgrain hgrain
    have hencoded := (encode_iff k₁ true hone hgrain _).mp ((hencode _).mpr rfl)
    rw [Outcome.outputMessage.inj hencoded] at hdecode
    have hmessage := (decode_iff k₂ true (by simp) hgrain _).mp ((hdecode _).mpr rfl)
    exact Outcome.outputMessage.inj hmessage
  · intro h message g₁ g₂ s₁ s₂ hn hg₁ hg₂
    refine ⟨message.map (keyPerm k₁), encode_iff k₁ s₁ hn hg₁, ?_⟩
    intro out
    rw [decode_iff k₂ s₂ (by simpa using hn) hg₂]
    simp [h, Function.comp_def]

end

/-- The keys that decode everything `k₁` encoded: those with the same byte map, that is,
those that extend `k₁` by the smallest bytes it does not contain. -/
theorem interchangeable_iff (k₁ k₂ : List UInt8)
    (hle : k₁.eraseDups.length ≤ k₂.eraseDups.length) :
    (MapsDecode k₁ k₂ ↔ k₂.eraseDups = k₁.eraseDups ++
      (allBytes.filter (· ∉ k₁.eraseDups)).take
        (k₂.eraseDups.length - k₁.eraseDups.length)) ∧
    (RunsDecode k₁ k₂ ↔ MapsDecode k₁ k₂) ∧
    (MapsDecode k₁ k₂ ↔ scramble k₁ 0 256 = scramble k₂ 0 256) := by
  rw [← removeDuplicates_eq, ← removeDuplicates_eq] at hle ⊢
  have htables : scramble k₁ 0 256 = scramble k₂ 0 256 ↔
      removeDuplicates k₂ = removeDuplicates k₁ ++
        (allBytes.filter (· ∉ removeDuplicates k₁)).take
          ((removeDuplicates k₂).length - (removeDuplicates k₁).length) := by
    rw [scramble_eq, scramble_eq, Option.some_inj]
    exact byteListing.prioritize_eq_iff (removeDuplicates_nodup k₁) (removeDuplicates_nodup k₂) hle
  rw [mapsDecode_iff, runsDecode_iff, keyPerm_eq_iff]
  exact ⟨htables, Iff.rfl, Iff.rfl⟩

/-- The key `0, 1, 2` decodes what the empty key encoded. -/
theorem interchangeable_empty : MapsDecode [] [0, 1, 2] :=
  (interchangeable_iff [] [0, 1, 2] (by decide)).1.mpr (by decide)

end UnoApi.Cipher
