import UnoApi.Cipher.Main

/-!
# Keys and messages in files

`main` takes the key and the message from files when it is given their names, and writes
the output message to a file.  A run changes no other file, and no file at all unless it
returns 0.
-/

namespace UnoApi.Cipher

abbrev Path := String

/-- The regular files, and which of them may be opened. -/
structure FileSystem where
  contents : Path → Option (List UInt8)
  readable : Path → Bool
  writable : Path → Bool

def readFromBinary (fs : FileSystem) (buffer : List UInt8) (pathToFile : Path) :
    Int × List UInt8 :=
  match fs.contents pathToFile with
  | none => (1, buffer)
  | some bytes => if fs.readable pathToFile then (0, bytes) else (1, buffer)

/-- The file holds these bytes and nothing of what it held before. -/
def FileSystem.write (fs : FileSystem) (path : Path) (bytes : List UInt8) : FileSystem :=
  { fs with contents := Function.update fs.contents path (some bytes) }

def writeToBinary (fs : FileSystem) (buffer : List UInt8) (pathToFile : Path) :
    Int × FileSystem :=
  if fs.writable pathToFile then (0, fs.write pathToFile buffer) else (1, fs)

def asBytes (text : String) : List UInt8 := text.toList.map fun c => UInt8.ofNat c.toNat

def printOutputMessage (message : List UInt8) : List UInt8 :=
  asBytes "output_message: " ++ message ++ asBytes "\n"

/-- The command line with its files; the empty string stands for no file. -/
structure FileOptions extends Options where
  keyFilePath : Option Path := none
  inputFilePath : Option Path := none
  outputFilePath : Option Path := none
  printToConsole : Bool := false

inductive Result where
  | usageError
  | exits (code : Int) (console : List UInt8)
  | undefinedBehaviour
  deriving DecidableEq

structure Accepted (o : FileOptions) (fs : FileSystem) : Prop where
  grainSize : 0 < o.grainSize.toNat
  keyFile : ∀ path ∈ o.keyFilePath, (fs.contents path).isSome
  inputFile : ∀ path ∈ o.inputFilePath, (fs.contents path).isSome
  outputFile : ∀ path ∈ o.outputFilePath, (fs.contents path).isSome

/-- `none` when `main` returns because the file cannot be read. -/
def readOptional (fs : FileSystem) (buffer : List UInt8) (path : Option Path) :
    Option (List UInt8) :=
  match path with
  | none => some buffer
  | some path =>
      let (code, buffer) := readFromBinary fs buffer path
      if code = 1 then none else some buffer

def FileOptions.console (o : FileOptions) (message : List UInt8) : List UInt8 :=
  if o.printToConsole then printOutputMessage message else []

def Unreadable (o : FileOptions) (fs : FileSystem) : Prop :=
  readOptional fs o.key o.keyFilePath = none ∨
    readOptional fs o.inputMessage o.inputFilePath = none

structure Loads (o : FileOptions) (fs : FileSystem) (key inputMessage : List UInt8) : Prop where
  accepted : Accepted o fs
  flags : o.encode ≠ o.decode
  key : readOptional fs o.key o.keyFilePath = some key
  inputMessage : readOptional fs o.inputMessage o.inputFilePath = some inputMessage

def FileOptions.loaded (o : FileOptions) (key inputMessage : List UInt8) : Options :=
  { o.toOptions with key := key, inputMessage := inputMessage }

inductive Run (o : FileOptions) (fs : FileSystem) : Result → FileSystem → Prop where
  | rejected (haccepted : ¬ Accepted o fs) : Run o fs .usageError fs
  | noDirection (haccepted : Accepted o fs) (hflags : o.encode = o.decode) :
      Run o fs (.exits 1 []) fs
  | notRead (haccepted : Accepted o fs) (hflags : o.encode ≠ o.decode)
      (hread : Unreadable o fs) : Run o fs (.exits 1 []) fs
  | undefinedBehaviour {key inputMessage : List UInt8} (hloads : Loads o fs key inputMessage)
      (hmain : Main (o.loaded key inputMessage) .undefinedBehaviour) :
      Run o fs .undefinedBehaviour fs
  | notWritten {key inputMessage bytes : List UInt8} {path : Path}
      (hloads : Loads o fs key inputMessage)
      (hmain : Main (o.loaded key inputMessage) (.outputMessage bytes))
      (hpath : o.outputFilePath = some path) (hwrite : (writeToBinary fs bytes path).1 = 1) :
      Run o fs (.exits 1 []) fs
  -- `&buffer[0]` of an empty buffer, once the file is open and empty
  | emptyOutput {key inputMessage : List UInt8} {path : Path}
      (hloads : Loads o fs key inputMessage)
      (hmain : Main (o.loaded key inputMessage) (.outputMessage []))
      (hpath : o.outputFilePath = some path) (hwrite : (writeToBinary fs [] path).1 ≠ 1) :
      Run o fs .undefinedBehaviour (writeToBinary fs [] path).2
  | written {key inputMessage bytes : List UInt8} {path : Path}
      (hloads : Loads o fs key inputMessage)
      (hmain : Main (o.loaded key inputMessage) (.outputMessage bytes)) (hbytes : bytes ≠ [])
      (hpath : o.outputFilePath = some path) (hwrite : (writeToBinary fs bytes path).1 ≠ 1) :
      Run o fs (.exits 0 (o.console bytes)) (writeToBinary fs bytes path).2
  | notKept {key inputMessage bytes : List UInt8} (hloads : Loads o fs key inputMessage)
      (hmain : Main (o.loaded key inputMessage) (.outputMessage bytes))
      (hpath : o.outputFilePath = none) : Run o fs (.exits 0 (o.console bytes)) fs

/-! ## One run -/

def saved (o : FileOptions) (fs : FileSystem) (bytes : List UInt8) : Result × FileSystem :=
  match o.outputFilePath with
  | none => (.exits 0 (o.console bytes), fs)
  | some path =>
      if fs.writable path then
        (if bytes = [] then .undefinedBehaviour else .exits 0 (o.console bytes),
          fs.write path bytes)
      else (.exits 1 [], fs)

theorem saved_of_none {o : FileOptions} (h : o.outputFilePath = none) (fs : FileSystem)
    (bytes : List UInt8) : saved o fs bytes = (.exits 0 (o.console bytes), fs) := by
  unfold saved
  rw [h]

theorem saved_of_some {o : FileOptions} {path : Path} (h : o.outputFilePath = some path)
    (fs : FileSystem) (bytes : List UInt8) :
    saved o fs bytes =
      if (writeToBinary fs bytes path).1 = 1 then (.exits 1 [], fs)
      else (if bytes = [] then .undefinedBehaviour else .exits 0 (o.console bytes),
        (writeToBinary fs bytes path).2) := by
  unfold saved writeToBinary
  rw [h]
  by_cases hopen : fs.writable path <;> simp [hopen]

theorem Loads.unique {o : FileOptions} {fs : FileSystem} {key key' message message' : List UInt8}
    (h : Loads o fs key message) (h' : Loads o fs key' message') :
    key = key' ∧ message = message' :=
  ⟨Option.some.inj (h.key.symm.trans h'.key),
    Option.some.inj (h.inputMessage.symm.trans h'.inputMessage)⟩

theorem Loads.not_unreadable {o : FileOptions} {fs : FileSystem} {key message : List UInt8}
    (h : Loads o fs key message) : ¬ Unreadable o fs := by
  rintro (hkey | hmessage)
  · cases hkey.symm.trans h.key
  · cases hmessage.symm.trans h.inputMessage

theorem exists_loads {o : FileOptions} {fs : FileSystem} (haccepted : Accepted o fs)
    (hflags : o.encode ≠ o.decode) (hread : ¬ Unreadable o fs) :
    ∃ key message, Loads o fs key message := by
  obtain ⟨hkey, hmessage⟩ := not_or.mp hread
  obtain ⟨key, hkey⟩ := Option.ne_none_iff_exists'.mp hkey
  obtain ⟨message, hmessage⟩ := Option.ne_none_iff_exists'.mp hmessage
  exact ⟨key, message, haccepted, hflags, hkey, hmessage⟩

section

variable {o : FileOptions} {fs : FileSystem} {key message : List UInt8}
  (hloads : Loads o fs key message) (hsize : message.length + 1 < 2 ^ 31)

include hloads hsize

theorem Loads.main_iff (out : Outcome) :
    Main (o.loaded key message) out ↔
      out = .outputMessage (message.map (o.loaded key message).perm) := by
  have hflags : (o.loaded key message).encode ≠ (o.loaded key message).decode := hloads.flags
  exact Cipher.main_iff hflags hsize hloads.accepted.grainSize out

theorem Loads.bytes_eq {key' message' bytes : List UInt8} (hloads' : Loads o fs key' message')
    (hmain : Main (o.loaded key' message') (.outputMessage bytes)) :
    bytes = message.map (o.loaded key message).perm := by
  obtain ⟨rfl, rfl⟩ := hloads.unique hloads'
  exact Outcome.outputMessage.inj ((hloads.main_iff hsize _).mp hmain)

theorem Loads.eq_saved {r : Result} {fs' : FileSystem} (hrun : Run o fs r fs') :
    (r, fs') = saved o fs (message.map (o.loaded key message).perm) := by
  cases hrun with
  | rejected haccepted => exact absurd hloads.accepted haccepted
  | noDirection _ hflags => exact absurd hflags hloads.flags
  | notRead _ _ hread => exact absurd hread hloads.not_unreadable
  | undefinedBehaviour hloads' hmain =>
      obtain ⟨rfl, rfl⟩ := hloads.unique hloads'
      cases (hloads.main_iff hsize _).mp hmain
  | notWritten hloads' hmain hpath hwrite =>
      rw [← hloads.bytes_eq hsize hloads' hmain, saved_of_some hpath, if_pos hwrite]
  | emptyOutput hloads' hmain hpath hwrite =>
      rw [← hloads.bytes_eq hsize hloads' hmain, saved_of_some hpath, if_neg hwrite, if_pos rfl]
  | written hloads' hmain hbytes hpath hwrite =>
      rw [← hloads.bytes_eq hsize hloads' hmain, saved_of_some hpath, if_neg hwrite,
        if_neg hbytes]
  | notKept hloads' hmain hpath =>
      rw [← hloads.bytes_eq hsize hloads' hmain, saved_of_none hpath]

theorem Loads.run_saved {r : Result} {fs' : FileSystem}
    (hsaved : (r, fs') = saved o fs (message.map (o.loaded key message).perm)) :
    Run o fs r fs' := by
  have hdone := (hloads.main_iff hsize _).mpr rfl
  cases hpath : o.outputFilePath with
  | none =>
      rw [saved_of_none hpath] at hsaved
      obtain ⟨rfl, rfl⟩ := Prod.mk.inj hsaved
      exact .notKept hloads hdone hpath
  | some path =>
      generalize message.map (o.loaded key message).perm = bytes at hsaved hdone
      rw [saved_of_some hpath] at hsaved
      by_cases hwrite : (writeToBinary fs bytes path).1 = 1
      · rw [if_pos hwrite] at hsaved
        obtain ⟨rfl, rfl⟩ := Prod.mk.inj hsaved
        exact .notWritten hloads hdone hpath hwrite
      · rw [if_neg hwrite] at hsaved
        obtain ⟨rfl, rfl⟩ := Prod.mk.inj hsaved
        by_cases hbytes : bytes = []
        · subst hbytes
          exact .emptyOutput hloads hdone hpath hwrite
        · rw [if_neg hbytes]
          exact .written hloads hdone hbytes hpath hwrite

theorem Loads.run_iff (r : Result) (fs' : FileSystem) :
    Run o fs r fs' ↔ (r, fs') = saved o fs (message.map (o.loaded key message).perm) :=
  ⟨hloads.eq_saved hsize, hloads.run_saved hsize⟩

end

theorem run_iff_of_rejected {o : FileOptions} {fs : FileSystem} (h : ¬ Accepted o fs) (r : Result)
    (fs' : FileSystem) : Run o fs r fs' ↔ r = .usageError ∧ fs' = fs := by
  constructor
  · intro hrun
    cases hrun with
    | rejected => exact ⟨rfl, rfl⟩
    | noDirection haccepted => exact absurd haccepted h
    | notRead haccepted => exact absurd haccepted h
    | undefinedBehaviour hloads => exact absurd hloads.accepted h
    | emptyOutput hloads => exact absurd hloads.accepted h
    | notWritten hloads => exact absurd hloads.accepted h
    | written hloads => exact absurd hloads.accepted h
    | notKept hloads => exact absurd hloads.accepted h
  · rintro ⟨rfl, rfl⟩
    exact .rejected h

theorem Loads.not_early {o : FileOptions} {fs : FileSystem} {key message : List UInt8}
    (h : Loads o fs key message) : ¬ (o.encode = o.decode ∨ Unreadable o fs) :=
  not_or.mpr ⟨h.flags, h.not_unreadable⟩

theorem run_iff_of_early {o : FileOptions} {fs : FileSystem} (haccepted : Accepted o fs)
    (hearly : o.encode = o.decode ∨ Unreadable o fs) (r : Result) (fs' : FileSystem) :
    Run o fs r fs' ↔ r = .exits 1 [] ∧ fs' = fs := by
  constructor
  · intro hrun
    cases hrun with
    | rejected hno => exact absurd haccepted hno
    | noDirection => exact ⟨rfl, rfl⟩
    | notRead => exact ⟨rfl, rfl⟩
    | undefinedBehaviour hloads => exact absurd hearly hloads.not_early
    | emptyOutput hloads => exact absurd hearly hloads.not_early
    | notWritten hloads => exact absurd hearly hloads.not_early
    | written hloads => exact absurd hearly hloads.not_early
    | notKept hloads => exact absurd hearly hloads.not_early
  · rintro ⟨rfl, rfl⟩
    by_cases hflags : o.encode = o.decode
    · exact .noDirection haccepted hflags
    · exact .notRead haccepted hflags (hearly.resolve_left hflags)

/-- Every run, in both branches and under every schedule: a call that is not accepted, has
no direction or names a file that cannot be read leaves the files alone; every other call
substitutes the bytes by the permutation of the key and saves them, which changes no file
but the one they are written to. -/
theorem run_outcomes (o : FileOptions) (fs : FileSystem)
    (hsize : ∀ message, readOptional fs o.inputMessage o.inputFilePath = some message →
      message.length + 1 < 2 ^ 31) (r : Result) (fs' : FileSystem) :
    Run o fs r fs' ↔
      ¬ Accepted o fs ∧ r = .usageError ∧ fs' = fs ∨
      (Accepted o fs ∧ (o.encode = o.decode ∨ Unreadable o fs)) ∧ r = .exits 1 [] ∧ fs' = fs ∨
      ∃ key message, Loads o fs key message ∧
        (r, fs') = saved o fs (message.map (o.loaded key message).perm) := by
  constructor
  · intro hrun
    by_cases haccepted : Accepted o fs
    · by_cases hearly : o.encode = o.decode ∨ Unreadable o fs
      · exact .inr (.inl ⟨⟨haccepted, hearly⟩, (run_iff_of_early haccepted hearly r fs').mp hrun⟩)
      · obtain ⟨hflags, hread⟩ := not_or.mp hearly
        obtain ⟨key, message, hloads⟩ := exists_loads haccepted hflags hread
        have hfits := hsize message hloads.inputMessage
        exact .inr (.inr ⟨key, message, hloads, (hloads.run_iff hfits r fs').mp hrun⟩)
    · exact .inl ⟨haccepted, (run_iff_of_rejected haccepted r fs').mp hrun⟩
  · rintro (⟨hrejected, houtcome⟩ | ⟨⟨haccepted, hearly⟩, houtcome⟩ |
      ⟨key, message, hloads, hsaved⟩)
    · exact (run_iff_of_rejected hrejected r fs').mpr houtcome
    · exact (run_iff_of_early haccepted hearly r fs').mpr houtcome
    · exact (hloads.run_iff (hsize message hloads.inputMessage) r fs').mpr hsaved

theorem run_outcomes_hi :
    let fs : FileSystem := ⟨fun path =>
      if path = "key" then some [67, 121] else if path = "msg" then some [72, 105, 33]
      else if path = "out" then some [1, 2, 3, 4] else none, fun _ => true, fun _ => true⟩
    Run { encode := true, keyFilePath := "key", inputFilePath := "msg", outputFilePath := "out",
          printToConsole := true } fs
      (.exits 0 (asBytes "output_message: " ++ [71, 104, 31, 10]))
      (fs.write "out" [71, 104, 31]) := by
  intro fs
  have hfits : ∀ message, readOptional fs [72, 101, 108, 108, 111, 33] (some "msg") = some message →
      message.length + 1 < 2 ^ 31 := by
    intro message hread
    cases hread
    decide
  apply (run_outcomes _ fs hfits _ _).mpr
  refine .inr (.inr ⟨[67, 121], [72, 105, 33], ⟨⟨by decide, ?_, ?_, ?_⟩, by decide, rfl, rfl⟩, ?_⟩)
  · rintro path ⟨⟩
    rfl
  · rintro path ⟨⟩
    rfl
  · rintro path ⟨⟩
    rfl
  · have hbytes : [72, 105, 33].map (keyPerm [67, 121]) = [71, 104, 31] := by
      rw [coe_keyPerm]
      decide
    change _ = saved _ fs ([72, 105, 33].map (keyPerm [67, 121]))
    rw [hbytes]
    rfl

/-! ## Two runs -/

theorem FileSystem.write_self (fs : FileSystem) (path : Path) (bytes : List UInt8) :
    (fs.write path bytes).contents path = some bytes := Function.update_self _ _ _

theorem FileSystem.write_of_ne (fs : FileSystem) {path path' : Path} (h : path' ≠ path)
    (bytes : List UInt8) : (fs.write path bytes).contents path' = fs.contents path' :=
  Function.update_of_ne h _ _

theorem FileSystem.write_isSome (fs : FileSystem) (path : Path) (bytes : List UInt8)
    {path' : Path} (h : (fs.contents path').isSome) :
    ((fs.write path bytes).contents path').isSome := by
  by_cases heq : path' = path
  · rw [heq, fs.write_self]
    rfl
  · rwa [fs.write_of_ne heq]

theorem readOptional_some {fs : FileSystem} {path : Path} {bytes : List UInt8}
    (hcontents : fs.contents path = some bytes) (hreadable : fs.readable path)
    (buffer : List UInt8) : readOptional fs buffer (some path) = some bytes := by
  unfold readOptional readFromBinary
  simp [hcontents, hreadable]

theorem readOptional_write {fs : FileSystem} {path : Path} {keyFile : Option Path}
    (h : ∀ k ∈ keyFile, k ≠ path) (bytes buffer : List UInt8) :
    readOptional (fs.write path bytes) buffer keyFile = readOptional fs buffer keyFile := by
  cases keyFile with
  | none => rfl
  | some k =>
      have hread : readFromBinary (fs.write path bytes) buffer k = readFromBinary fs buffer k := by
        unfold readFromBinary
        rw [fs.write_of_ne (h k rfl)]
        rfl
      unfold readOptional
      dsimp only
      rw [hread]

structure Call where
  key : List UInt8
  keyFile : Option Path
  encode : Bool
  grainSize : UInt32
  runSequentially : Bool
  printToConsole : Bool

def Call.options (c : Call) (input output : Path) : FileOptions where
  key := c.key
  grainSize := c.grainSize
  runSequentially := c.runSequentially
  encode := c.encode
  decode := !c.encode
  keyFilePath := c.keyFile
  inputFilePath := some input
  outputFilePath := some output
  printToConsole := c.printToConsole

def Call.perm (c : Call) (key : List UInt8) : Equiv.Perm UInt8 :=
  if c.encode then keyPerm key else (keyPerm key).symm

def KeyRead (fs : FileSystem) (c : Call) (key : List UInt8) : Prop :=
  readOptional fs c.key c.keyFile = some key ∧ ∀ k ∈ c.keyFile, (fs.contents k).isSome

theorem Call.run_iff {fs : FileSystem} {c : Call} {key message : List UInt8} {input output : Path}
    (hkey : KeyRead fs c key) (hgrain : 0 < c.grainSize.toNat)
    (hinput : fs.contents input = some message) (hreadable : fs.readable input)
    (houtput : (fs.contents output).isSome) (hwritable : fs.writable output)
    (hn : message.length + 1 < 2 ^ 31) (hne : message ≠ []) (r : Result) (fs' : FileSystem) :
    Run (c.options input output) fs r fs' ↔
      (r, fs') = (.exits 0 ((c.options input output).console (message.map (c.perm key))),
        fs.write output (message.map (c.perm key))) := by
  have hloads : Loads (c.options input output) fs key message := by
    refine ⟨⟨hgrain, hkey.2, ?_, ?_⟩, ?_, hkey.1, readOptional_some hinput hreadable _⟩
    · rintro path ⟨⟩
      rw [hinput]
      rfl
    · rintro path ⟨⟩
      exact houtput
    · simp [Call.options]
  have hsaved : ∀ bytes, bytes ≠ [] → saved (c.options input output) fs bytes =
      (.exits 0 ((c.options input output).console bytes), fs.write output bytes) := by
    intro bytes hbytes
    refine (if_pos hwritable).trans ?_
    rw [if_neg hbytes]
  rw [hloads.run_iff hn, hsaved _ (mt List.map_eq_nil_iff.mp hne)]
  rfl

structure FilesReady (fs : FileSystem) (input output back : Path)
    (message : List UInt8) : Prop where
  hasInput : fs.contents input = some message
  hasOutput : (fs.contents output).isSome
  hasBack : (fs.contents back).isSome
  readsInput : fs.readable input
  readsOutput : fs.readable output
  writesOutput : fs.writable output
  writesBack : fs.writable back

/-- A second run in the other direction, with the key in the same place, restores the
message from the file that the first run has written, whichever of the files are the
same, unless the first run has written over the file of the key.  Together they change
only the two files they write. -/
theorem run_round_trip {fs : FileSystem} {c c' : Call} {key message : List UInt8}
    {input output back : Path} (hfiles : FilesReady fs input output back message)
    (hkey : KeyRead fs c key) (hkeyFile : ∀ k ∈ c.keyFile, k ≠ output)
    (hsame : c'.key = c.key ∧ c'.keyFile = c.keyFile) (hother : c'.encode = !c.encode)
    (hgrain : 0 < c.grainSize.toNat) (hgrain' : 0 < c'.grainSize.toNat)
    (hn : message.length + 1 < 2 ^ 31) (hne : message ≠ []) :
    ∃ console console' fs₁ fs₂,
      (∀ r fs', Run (c.options input output) fs r fs' ↔ (r, fs') = (.exits 0 console, fs₁)) ∧
      (∀ r fs', Run (c'.options output back) fs₁ r fs' ↔
        (r, fs') = (.exits 0 console', fs₂)) ∧
      fs₂.contents back = some message ∧
      ∀ path, path ≠ output → path ≠ back → fs₂.contents path = fs.contents path := by
  let encoded := message.map (c.perm key)
  have hrestore : encoded.map (c'.perm key) = message := by
    have hinverse : ∀ b, c'.perm key (c.perm key b) = b := by
      intro b
      unfold Call.perm
      rw [hother]
      cases c.encode <;> simp
    rw [List.map_map]
    exact (List.map_congr_left fun b _ => hinverse b).trans (List.map_id message)
  have hkey' : KeyRead (fs.write output encoded) c' key := by
    constructor
    · rw [hsame.1, hsame.2, readOptional_write hkeyFile]
      exact hkey.1
    · rw [hsame.2]
      exact fun k hk => fs.write_isSome _ _ (hkey.2 k hk)
  have hfirst := Call.run_iff hkey hgrain hfiles.hasInput hfiles.readsInput hfiles.hasOutput
    hfiles.writesOutput hn hne
  have hsecond := Call.run_iff hkey' hgrain' (fs.write_self output encoded) hfiles.readsOutput
    (fs.write_isSome _ _ hfiles.hasBack) hfiles.writesBack (by simpa [encoded] using hn)
    (by simpa [encoded] using hne)
  rw [hrestore] at hsecond
  refine ⟨_, _, _, _, hfirst, hsecond, FileSystem.write_self _ _ _, ?_⟩
  intro path houtput hback
  rw [FileSystem.write_of_ne _ hback, FileSystem.write_of_ne _ houtput]

theorem run_round_trip_in_place :
    let fs : FileSystem := ⟨fun path => if path = "msg" then some [72, 105, 33] else none,
      fun _ => true, fun _ => true⟩
    let c : Call := ⟨[67, 121], none, true, 2, true, false⟩
    let c' : Call := ⟨[67, 121], none, false, 100, false, true⟩
    ∃ console console' fs₁ fs₂,
      (∀ r fs', Run (c.options "msg" "msg") fs r fs' ↔ (r, fs') = (.exits 0 console, fs₁)) ∧
      (∀ r fs', Run (c'.options "msg" "msg") fs₁ r fs' ↔ (r, fs') = (.exits 0 console', fs₂)) ∧
      fs₂.contents "msg" = some [72, 105, 33] ∧
      ∀ path, path ≠ "msg" → path ≠ "msg" → fs₂.contents path = fs.contents path :=
  run_round_trip ⟨rfl, rfl, rfl, rfl, rfl, rfl, rfl⟩ ⟨rfl, fun _ h => by cases h⟩
    (fun _ h => by cases h) ⟨rfl, rfl⟩ rfl (by decide) (by decide) (by decide) (by decide)

/-! ## The unit tests -/

structure CipherTest where
  plaintext : List UInt8
  ciphertext : List UInt8
  key : List UInt8

/-- The return values are not looked at. -/
def CipherTest.setUp (fs : FileSystem) (plaintextPath ciphertextPath keyPath : Path) :
    CipherTest where
  plaintext := (readFromBinary fs [] plaintextPath).2
  ciphertext := (readFromBinary fs [] ciphertextPath).2
  key := (readFromBinary fs [] keyPath).2

/-- The loop fills a vector of zeros, and every byte of `expected` is compared with it. -/
def ProducesExpected (byteMap message expected : List UInt8) : Prop :=
  ∀ i, (hi : i < expected.length) →
    (substituteLoop message.length 1).exec (hostMemory byteMap message) (.outputMessage, i) =
      expected[i]

def TestScramble (t : CipherTest) : Prop :=
  t.plaintext.length = t.ciphertext.length ∧
    ∃ byteMap, scramble t.key 0 256 = some byteMap ∧
      ProducesExpected byteMap t.plaintext t.ciphertext

def TestUnscramble (t : CipherTest) : Prop :=
  t.plaintext.length = t.ciphertext.length ∧
    ProducesExpected (unscramble t.key 0 256) t.ciphertext t.plaintext

theorem producesExpected_iff {byteMap message expected : List UInt8} (hmap : byteMap.length = 256)
    (hn : message.length + 1 < 2 ^ 31) (hlength : message.length = expected.length) :
    ProducesExpected byteMap message expected ↔ expected = message.map (lookup byteMap) := by
  have hfit := CountersFit.of_lt hn 1
  have hholds := holds_hostMemory byteMap message
  have hbyte : ∀ i, (hi : i < message.length) →
      (substituteLoop message.length 1).exec (hostMemory byteMap message) (.outputMessage, i) =
        lookup byteMap message[i] := by
    intro i hi
    rw [substituteLoop_fills hfit (by decide) hi, hholds.substituted hmap hi]
  constructor
  · intro h
    apply List.ext_getElem
    · rw [List.length_map, hlength]
    · intro i hi hi'
      rw [← h i hi, hbyte i (by omega), List.getElem_map]
  · rintro rfl
    intro i hi
    rw [hbyte i (by omega), List.getElem_map]

section

variable {t : CipherTest} (hn : t.plaintext.length + 1 < 2 ^ 31)

include hn

theorem testScramble_iff :
    TestScramble t ↔ t.ciphertext = t.plaintext.map (keyPerm t.key) := by
  rw [TestScramble, scramble_eq, coe_keyPerm]
  constructor
  · rintro ⟨hlength, byteMap, hmap, hproduces⟩
    rw [Option.some.inj hmap]
    exact (producesExpected_iff (Option.some.inj hmap ▸ keyListing_length t.key) hn hlength).mp
      hproduces
  · intro h
    have hlength : t.plaintext.length = t.ciphertext.length := by rw [h, List.length_map]
    exact ⟨hlength, _, rfl, (producesExpected_iff (keyListing_length t.key) hn hlength).mpr h⟩

theorem testUnscramble_iff :
    TestUnscramble t ↔ t.plaintext = t.ciphertext.map (keyPerm t.key).symm := by
  rw [TestUnscramble, coe_keyPerm_symm]
  constructor
  · rintro ⟨hlength, hproduces⟩
    exact (producesExpected_iff (unscramble_length t.key) (hlength ▸ hn) hlength.symm).mp
      hproduces
  · intro h
    have hlength : t.plaintext.length = t.ciphertext.length :=
      (congrArg List.length h).trans (List.length_map _)
    exact ⟨hlength,
      (producesExpected_iff (unscramble_length t.key) (hlength ▸ hn) hlength.symm).mpr h⟩

end

/-- The two tests accept the same files: those whose ciphertext is the plaintext under the
permutation of the key, where a file that cannot be read counts as empty. -/
theorem tests_iff (t : CipherTest) (hn : t.plaintext.length + 1 < 2 ^ 31) :
    (TestScramble t ↔ t.ciphertext = t.plaintext.map (keyPerm t.key)) ∧
      (TestUnscramble t ↔ TestScramble t) := by
  refine ⟨testScramble_iff hn, ?_⟩
  rw [testUnscramble_iff hn, testScramble_iff hn]
  constructor
  · intro h
    rw [h]
    simp [Function.comp_def]
  · intro h
    rw [h]
    simp [Function.comp_def]

/-- Both tests pass on a message and its substitution, and fail when a byte is wrong. -/
theorem tests_iff_hi :
    let t : CipherTest := ⟨[72, 105, 33], [71, 104, 31], [67, 121]⟩
    let wrong : CipherTest := ⟨[72, 105, 33], [71, 104, 32], [67, 121]⟩
    (TestScramble t ∧ TestUnscramble t) ∧ ¬ TestScramble wrong ∧ ¬ TestUnscramble wrong := by
  intro t wrong
  have hbytes : [72, 105, 33].map (keyPerm [67, 121]) = [71, 104, 31] := by
    rw [coe_keyPerm]
    decide
  have htests := tests_iff t (by decide)
  have hwrong := tests_iff wrong (by decide)
  have hpasses : TestScramble t := htests.1.mpr hbytes.symm
  have hfails : ¬ TestScramble wrong := by
    rw [hwrong.1]
    change [71, 104, 32] ≠ [72, 105, 33].map (keyPerm [67, 121])
    rw [hbytes]
    decide
  exact ⟨⟨hpasses, htests.2.mpr hpasses⟩, hfails, mt hwrong.2.mp hfails⟩

end UnoApi.Cipher
