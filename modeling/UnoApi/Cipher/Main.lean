import UnoApi.Cipher.Substitute

/-!
# The cipher program

`main` prepares a byte map from the key, `scramble` to encode and `unscramble`
to decode, and substitutes every byte of the message, in a loop or in a kernel.
The log, the timers and the files are left out.
-/

namespace UnoApi.Cipher

open UnoApi.DataParallel

/-- The command line, with its defaults; `-g` accepts positive numbers only. -/
structure Options where
  inputMessage : List UInt8 := [72, 101, 108, 108, 111, 33]
  key : List UInt8 := [67, 121, 110, 100, 121, 33]
  grainSize : UInt32 := 100
  runSequentially : Bool := false
  encode : Bool := false
  decode : Bool := false

inductive Outcome where
  | exitCode (code : Nat)
  | outputMessage (bytes : List UInt8)
  | undefinedBehaviour
  deriving DecidableEq

def prepareByteMap (o : Options) : Option (List UInt8) :=
  if o.encode then scramble o.key 0 256 else some (unscramble o.key 0 256)

/-- The output message is only worth something when every access was in bounds. -/
def outcomeOf (size : Nat) (accesses : List (Access Cell UInt8 Fault)) (m : Cell → UInt8) :
    Outcome :=
  if ∀ a ∈ accesses, InBounds size a then .outputMessage (outputMessage m size)
  else .undefinedBehaviour

/-- The outcomes `main` can have.  The buffers of the parallel branch start with the
byte map and the message; the output buffer has no host data, so it starts with
anything. -/
inductive Main (o : Options) : Outcome → Prop where
  | noDirection (hflags : o.encode = o.decode) : Main o (.exitCode 1)
  | noByteMap (hflags : o.encode ≠ o.decode) (hmap : prepareByteMap o = none) :
      Main o .undefinedBehaviour
  | sequential {byteMap : List UInt8} (hflags : o.encode ≠ o.decode)
      (hmap : prepareByteMap o = some byteMap) (hsequential : o.runSequentially = true) :
      Main o (outcomeOf o.inputMessage.length
        ((substituteLoop o.inputMessage.length o.grainSize).trace
          (hostMemory byteMap o.inputMessage))
        ((substituteLoop o.inputMessage.length o.grainSize).exec
          (hostMemory byteMap o.inputMessage)))
  | parallel {byteMap : List UInt8} {m m' : Cell → UInt8}
      {tr : List (Fin (launchSize o.inputMessage.length o.grainSize) × Access Cell UInt8 Fault)}
      (hflags : o.encode ≠ o.decode) (hmap : prepareByteMap o = some byteMap)
      (hparallel : o.runSequentially = false) (hm : Holds m byteMap o.inputMessage)
      (hrun : Completes (substituteKernel o.inputMessage.length o.grainSize) m tr m') :
      Main o (outcomeOf o.inputMessage.length (tr.map Prod.snd) m')

def Options.perm (o : Options) : Equiv.Perm UInt8 :=
  if o.encode then keyPerm o.key else (keyPerm o.key).symm

theorem prepareByteMap_eq (o : Options) :
    ∃ byteMap, prepareByteMap o = some byteMap ∧ byteMap.length = 256 ∧
      lookup byteMap = o.perm := by
  unfold prepareByteMap Options.perm
  by_cases hencode : o.encode
  · simp only [hencode, if_true]
    exact ⟨_, scramble_eq o.key, keyListing_length o.key, (coe_keyPerm o.key).symm⟩
  · simp only [hencode, Bool.false_eq_true, if_false]
    exact ⟨_, rfl, unscramble_length o.key, (coe_keyPerm_symm o.key).symm⟩

section

variable {byteMap inputMessage : List UInt8} {g : UInt32}

theorem outcomeOf_substituteLoop (hfit : CountersFit inputMessage.length g) (hg : 0 < g.toNat)
    (hmap : byteMap.length = 256) :
    outcomeOf inputMessage.length
        ((substituteLoop inputMessage.length g).trace (hostMemory byteMap inputMessage))
        ((substituteLoop inputMessage.length g).exec (hostMemory byteMap inputMessage)) =
      .outputMessage (inputMessage.map (lookup byteMap)) := by
  rw [outcomeOf, if_pos (substituteLoop_inBounds hfit hg),
    substituteLoop_output hfit hg hmap (holds_hostMemory byteMap inputMessage)]

theorem outcomeOf_substituteKernel (hn : inputMessage.length < 2 ^ 31) (hg : 0 < g.toNat)
    (hmap : byteMap.length = 256) {m m' : Cell → UInt8} (hm : Holds m byteMap inputMessage)
    {tr : List (Fin (launchSize inputMessage.length g) × Access Cell UInt8 Fault)}
    (hrun : Completes (substituteKernel inputMessage.length g) m tr m') :
    outcomeOf inputMessage.length (tr.map Prod.snd) m' =
      .outputMessage (inputMessage.map (lookup byteMap)) := by
  have hbounds : ∀ a ∈ tr.map Prod.snd, InBounds inputMessage.length a := by
    intro a ha
    obtain ⟨l, hl, rfl⟩ := List.mem_map.mp ha
    exact substituteKernel_inBounds hn hg hrun l hl
  rw [outcomeOf, if_pos hbounds, substituteKernel_output hn hg hmap hm hrun]

end

/-- Whichever branch runs, and whatever the schedule, `main` applies the permutation
of the key to every byte. -/
theorem main_iff {o : Options} (hflags : o.encode ≠ o.decode)
    (hn : o.inputMessage.length + 1 < 2 ^ 31) (hg : 0 < o.grainSize.toNat) (out : Outcome) :
    Main o out ↔ out = .outputMessage (o.inputMessage.map o.perm) := by
  obtain ⟨byteMap, hmap, hlength, hperm⟩ := prepareByteMap_eq o
  have hfit := CountersFit.of_lt hn o.grainSize
  rw [← hperm]
  constructor
  · intro hmain
    cases hmain with
    | noDirection h => exact absurd h hflags
    | noByteMap _ h => simp [hmap] at h
    | sequential _ h _ =>
        rcases Option.some.inj (hmap.symm.trans h) with rfl
        exact outcomeOf_substituteLoop hfit hg hlength
    | parallel _ h _ hm hrun =>
        rcases Option.some.inj (hmap.symm.trans h) with rfl
        exact outcomeOf_substituteKernel hfit.size hg hlength hm hrun
  · intro hout
    subst hout
    cases hbranch : o.runSequentially with
    | true =>
        rw [← outcomeOf_substituteLoop hfit hg hlength]
        exact .sequential hflags hmap hbranch
    | false =>
        have hm := holds_hostMemory byteMap o.inputMessage
        obtain ⟨tr, m', hrun⟩ := exists_completes
          (substituteKernel o.inputMessage.length o.grainSize) (hostMemory byteMap o.inputMessage)
        rw [← outcomeOf_substituteKernel hfit.size hg hlength hm hrun]
        exact .parallel hflags hmap hbranch hm hrun

def encodeOptions (key message : List UInt8) (grainSize : UInt32) (runSequentially : Bool) :
    Options :=
  { inputMessage := message, key := key, grainSize := grainSize,
    runSequentially := runSequentially, encode := true }

def decodeOptions (key message : List UInt8) (grainSize : UInt32) (runSequentially : Bool) :
    Options :=
  { inputMessage := message, key := key, grainSize := grainSize,
    runSequentially := runSequentially, decode := true }

section

variable (key : List UInt8) {message : List UInt8} {g : UInt32} (runSequentially : Bool)

theorem encode_iff (hn : message.length + 1 < 2 ^ 31) (hg : 0 < g.toNat) (out : Outcome) :
    Main (encodeOptions key message g runSequentially) out ↔
      out = .outputMessage (message.map (keyPerm key)) :=
  main_iff (by simp [encodeOptions]) hn hg out

theorem decode_iff (hn : message.length + 1 < 2 ^ 31) (hg : 0 < g.toNat) (out : Outcome) :
    Main (decodeOptions key message g runSequentially) out ↔
      out = .outputMessage (message.map (keyPerm key).symm) :=
  main_iff (by simp [decodeOptions]) hn hg out

end

/-- Decoding undoes encoding and encoding undoes decoding, for every key, and
whichever grain sizes and branches the two runs use. -/
theorem main_round_trip (key message : List UInt8) (g₁ g₂ : UInt32) (s₁ s₂ : Bool)
    (hn : message.length + 1 < 2 ^ 31) (hg₁ : 0 < g₁.toNat) (hg₂ : 0 < g₂.toNat) :
    (∃ encoded,
      (∀ out, Main (encodeOptions key message g₁ s₁) out ↔ out = .outputMessage encoded) ∧
      ∀ out, Main (decodeOptions key encoded g₂ s₂) out ↔ out = .outputMessage message) ∧
    ∃ decoded,
      (∀ out, Main (decodeOptions key message g₁ s₁) out ↔ out = .outputMessage decoded) ∧
      ∀ out, Main (encodeOptions key decoded g₂ s₂) out ↔ out = .outputMessage message := by
  have hmap (f : UInt8 → UInt8) : (message.map f).length + 1 < 2 ^ 31 := by
    simpa using hn
  refine ⟨⟨message.map (keyPerm key), encode_iff key s₁ hn hg₁, ?_⟩,
    ⟨message.map (keyPerm key).symm, decode_iff key s₁ hn hg₁, ?_⟩⟩
  · intro out
    rw [decode_iff key s₂ (hmap _) hg₂]
    simp [Function.comp_def]
  · intro out
    rw [encode_iff key s₂ (hmap _) hg₂]
    simp [Function.comp_def]

theorem main_round_trip_three :
    (∃ encoded,
      (∀ out, Main (encodeOptions [67, 121, 67] [72, 105, 33] 2 true) out ↔
        out = .outputMessage encoded) ∧
      ∀ out, Main (decodeOptions [67, 121, 67] encoded 100 false) out ↔
        out = .outputMessage [72, 105, 33]) ∧
    ∃ decoded,
      (∀ out, Main (decodeOptions [67, 121, 67] [72, 105, 33] 2 true) out ↔
        out = .outputMessage decoded) ∧
      ∀ out, Main (encodeOptions [67, 121, 67] decoded 100 false) out ↔
        out = .outputMessage [72, 105, 33] :=
  main_round_trip [67, 121, 67] [72, 105, 33] 2 100 true false (by decide) (by decide)
    (by decide)

end UnoApi.Cipher
