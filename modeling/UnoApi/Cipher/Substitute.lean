import UnoApi.Machine.Counter
import UnoApi.DataParallel.Kernel
import UnoApi.Collections.Chunks
import UnoApi.Cipher.KeyTable

/-!
# Substituting the bytes of a message in chunks

`substitute` translates the chunk of the message that belongs to one work item.
The kernel of `main` launches one work item for every chunk, and the sequential
branch calls `substitute` for one chunk after the other.
-/

namespace UnoApi.Cipher

open UnoApi.Machine UnoApi.DataParallel UnoApi.Collections

inductive Buffer where
  | byteMap
  | inputMessage
  | outputMessage
  deriving DecidableEq

abbrev Cell := Buffer × Nat

/-- Signed overflow of a loop counter. -/
inductive Fault where
  | counterOverflow
  deriving DecidableEq

def substituteAt (j : Nat) : WorkItem Cell UInt8 Fault :=
  .read (.inputMessage, j) fun x =>
    .read (.byteMap, x.toNat) fun y =>
      .write (.outputMessage, j) y .done

def substitute (inputMessageSize : Nat) (grainSize : UInt32) (i : Nat) :
    WorkItem Cell UInt8 Fault :=
  let start := wrap64 (i * grainSize.toNat)
  let last := wrap64 (wrap64 (i + 1) * grainSize.toNat)
  let stop := if last > inputMessageSize then inputMessageSize else last
  let js := counter (toInt32 start) stop
  .forEach js.values (fun j => substituteAt (toSizeT j))
    (if js.overflows then .note .counterOverflow .done else .done)

def launchSize (inputMessageSize : Nat) (grainSize : UInt32) : Nat :=
  wrap64 (inputMessageSize / grainSize.toNat + 1)

def substituteKernel (inputMessageSize : Nat) (grainSize : UInt32)
    (i : Fin (launchSize inputMessageSize grainSize)) : WorkItem Cell UInt8 Fault :=
  substitute inputMessageSize grainSize i

def substituteLoop (inputMessageSize : Nat) (grainSize : UInt32) : WorkItem Cell UInt8 Fault :=
  let is := counter 0 (launchSize inputMessageSize grainSize)
  .forEach is.values (fun i => substitute inputMessageSize grainSize (toSizeT i))
    (if is.overflows then .note .counterOverflow .done else .done)

def innerCounter (inputMessageSize : Nat) (grainSize : UInt32) (i : Nat) : CounterRun :=
  let last := wrap64 (wrap64 (i + 1) * grainSize.toNat)
  counter (toInt32 (wrap64 (i * grainSize.toNat)))
    (if last > inputMessageSize then inputMessageSize else last)

def outerCounter (inputMessageSize : Nat) (grainSize : UInt32) : CounterRun :=
  counter 0 (launchSize inputMessageSize grainSize)

theorem substitute_eq_forEach (n : Nat) (g : UInt32) (i : Nat) :
    substitute n g i =
      .forEach (innerCounter n g i).values (fun j => substituteAt (toSizeT j))
        (if (innerCounter n g i).overflows then .note .counterOverflow .done else .done) := rfl

theorem substituteLoop_eq_forEach (n : Nat) (g : UInt32) :
    substituteLoop n g =
      .forEach (outerCounter n g).values (fun i => substitute n g (toSizeT i))
        (if (outerCounter n g).overflows then .note .counterOverflow .done else .done) := rfl

structure Holds (m : Cell → UInt8) (byteMap inputMessage : List UInt8) : Prop where
  byteMap : ∀ x, (h : x < byteMap.length) → m (.byteMap, x) = byteMap[x]
  inputMessage : ∀ j, (h : j < inputMessage.length) → m (.inputMessage, j) = inputMessage[j]

def hostMemory (byteMap inputMessage : List UInt8) : Cell → UInt8
  | (.byteMap, x) => byteMap.getD x 0
  | (.inputMessage, j) => inputMessage.getD j 0
  | (.outputMessage, _) => 0

def outputMessage (m : Cell → UInt8) (size : Nat) : List UInt8 :=
  (List.range size).map fun j => m (.outputMessage, j)

/-- The access stays inside a byte map of 256 bytes and messages of `size` bytes. -/
def InBounds (size : Nat) : Access Cell UInt8 Fault → Prop
  | .read (.byteMap, x) _ => x < 256
  | .read (.inputMessage, j) _ => j < size
  | .read (.outputMessage, _) _ => False
  | .write (.outputMessage, j) _ => j < size
  | .write _ _ => False
  | .note _ => False

instance (size : Nat) : DecidablePred (InBounds size)
  | .read (.byteMap, x) _ => inferInstanceAs (Decidable (x < 256))
  | .read (.inputMessage, j) _ => inferInstanceAs (Decidable (j < size))
  | .read (.outputMessage, _) _ => inferInstanceAs (Decidable False)
  | .write (.byteMap, _) _ => inferInstanceAs (Decidable False)
  | .write (.inputMessage, _) _ => inferInstanceAs (Decidable False)
  | .write (.outputMessage, j) _ => inferInstanceAs (Decidable (j < size))
  | .note _ => inferInstanceAs (Decidable False)

theorem holds_hostMemory (byteMap inputMessage : List UInt8) :
    Holds (hostMemory byteMap inputMessage) byteMap inputMessage where
  byteMap x h := by simp [hostMemory, h]
  inputMessage j h := by simp [hostMemory, h]

/-! ## One byte -/

def bytesRead (j : Nat) : Set Cell := {c | c.1 = .byteMap ∨ c = (.inputMessage, j)}

theorem isolated_substituteAt :
    Isolated substituteAt bytesRead fun j => {((.outputMessage, j) : Cell)} := by
  apply Isolated.of_own
  · intro j k h
    simpa using h
  · intro j
    exact ⟨.inr rfl, fun _ => ⟨.inl rfl, fun _ => ⟨rfl, trivial⟩⟩⟩
  · intro j k _ h
    rcases h with h | h
    · simp at h
    · simp at h

def substituted (m : Cell → UInt8) (j : Nat) : UInt8 :=
  m (.byteMap, (m (.inputMessage, j)).toNat)

theorem exec_substituteAt (m : Cell → UInt8) (j : Nat) :
    (substituteAt j).exec m = Function.update m (.outputMessage, j) (substituted m j) := rfl

theorem trace_substituteAt (m : Cell → UInt8) (j : Nat) :
    (substituteAt j).trace m =
      [.read (.inputMessage, j) (m (.inputMessage, j)),
        .read (.byteMap, (m (.inputMessage, j)).toNat) (substituted m j),
        .write (.outputMessage, j) (substituted m j)] := rfl

theorem Holds.substituted {m : Cell → UInt8} {byteMap inputMessage : List UInt8}
    (h : Holds m byteMap inputMessage) (hmap : byteMap.length = 256) {j : Nat}
    (hj : j < inputMessage.length) :
    Cipher.substituted m j = lookup byteMap inputMessage[j] := by
  have hx : (inputMessage[j]).toNat < byteMap.length := by
    rw [hmap]
    exact UInt8.toNat_lt _
  rw [Cipher.substituted, h.inputMessage j hj, h.byteMap _ hx, lookup_eq_getElem hx]

/-! ## One chunk -/

/-- The sizes for which the `int` counters of both loops can count to the end. -/
structure CountersFit (n : Nat) (g : UInt32) : Prop where
  size : n < 2 ^ 31
  chunks : n / g.toNat + 1 < 2 ^ 31

theorem CountersFit.of_lt {n : Nat} (hn : n + 1 < 2 ^ 31) (g : UInt32) : CountersFit n g where
  size := by omega
  chunks := by
    have hdiv : n / g.toNat ≤ n := Nat.div_le_self n g.toNat
    omega

theorem launchSize_eq {n : Nat} (hn : n < 2 ^ 63) (g : UInt32) :
    launchSize n g = n / g.toNat + 1 := by
  have hdiv : n / g.toNat ≤ n := Nat.div_le_self n g.toNat
  exact wrap64_of_lt (by omega)

theorem innerCounter_eq {n : Nat} {g : UInt32} {i : Nat} (hn : n < 2 ^ 63)
    (hi : i < n / g.toNat + 1) :
    innerCounter n g i = counter (toInt32 (i * g.toNat)) (min ((i + 1) * g.toNat) n) := by
  have hstart := chunk_start_le hi
  have hlast : (i + 1) * g.toNat = i * g.toNat + g.toNat := by ring
  have hg32 : g.toNat < 2 ^ 32 := g.toNat_lt
  have hi64 : i + 1 < 2 ^ 64 := by
    have hdiv : n / g.toNat ≤ n := Nat.div_le_self n g.toNat
    omega
  have hstop : (if (i + 1) * g.toNat > n then n else (i + 1) * g.toNat) =
      min ((i + 1) * g.toNat) n := by
    rw [Nat.min_def]
    split_ifs <;> omega
  unfold innerCounter
  dsimp only
  rw [wrap64_of_lt hi64, wrap64_of_lt (by omega), wrap64_of_lt (by omega), hstop]

theorem substitute_eq {n : Nat} {g : UInt32} {i : Nat} (hn : n < 2 ^ 31)
    (hi : i < n / g.toNat + 1) :
    substitute n g i = .forEach (chunk n g.toNat i) substituteAt .done := by
  have hstart := chunk_start_le hi
  have hcounter := counter_eq_range hstart (by omega)
  rw [substitute_eq_forEach, innerCounter_eq (by omega) hi, toInt32_of_lt (by omega), hcounter]
  simp only [WorkItem.forEach_map, Bool.false_eq_true, if_false]
  apply WorkItem.forEach_congr
  intro j hj
  rw [toSizeT_natCast]
  have hmem := (mem_chunk.mp hj).2
  omega

def chunkRead : Set Cell := {c | c.1 ≠ .outputMessage}

def chunkWritten (n g i : Nat) : Set Cell := {c | c.1 = .outputMessage ∧ InChunk n g i c.2}

/-- The spec of `substitute`: it fills its chunk of the output message, byte by byte. -/
structure FillsChunk (n g i : Nat) (w : WorkItem Cell UInt8 Fault) : Prop where
  within : w.Within chunkRead (chunkWritten n g i)
  exec_eq : ∀ m j, InChunk n g i j → w.exec m (.outputMessage, j) = substituted m j
  trace_eq : ∀ m, w.trace m = (chunk n g i).flatMap fun j => (substituteAt j).trace m

theorem fillsChunk_forEach (n g i : Nat) :
    FillsChunk n g i (.forEach (chunk n g i) substituteAt .done) where
  within := by
    apply WorkItem.Within.forEach
    · intro j hj
      apply (isolated_substituteAt.within j).mono
      · intro c hc
        rcases hc with h | rfl
        · simp [chunkRead, h]
        · simp [chunkRead]
      · intro c hc
        rcases hc with rfl
        exact ⟨rfl, mem_chunk.mp hj⟩
    · trivial
  exec_eq m j hj := by
    rw [exec_forEach_done, (isolated_substituteAt.inOrder (chunk_nodup n g i) m).1 j
      (mem_chunk.mpr hj) _ rfl, exec_substituteAt, Function.update_self]
  trace_eq m := by
    rw [trace_forEach_done, (isolated_substituteAt.inOrder (chunk_nodup n g i) m).2.2,
      List.map_flatMap]
    simp [Function.comp_def]

section

variable {n : Nat} {g : UInt32}

theorem fillsChunk_substituteKernel (hn : n < 2 ^ 31) (i : Fin (launchSize n g)) :
    FillsChunk n g.toNat i (substituteKernel n g i) := by
  have hi : (i : Nat) < n / g.toNat + 1 := by
    rw [← launchSize_eq (by omega) g]
    exact i.isLt
  rw [substituteKernel, substitute_eq hn hi]
  exact fillsChunk_forEach n g.toNat i

theorem isolated_substituteKernel (hn : n < 2 ^ 31) (hg : 0 < g.toNat) :
    Isolated (substituteKernel n g) (fun _ => chunkRead) fun i => chunkWritten n g.toNat i where
  within i := (fillsChunk_substituteKernel hn i).within
  apart := by
    intro i k hik c hc
    exact ⟨fun h => h hc.1, fun h => hik (Fin.ext (hc.2.unique hg h.2))⟩

/-- The sequential loop runs the work items of the kernel in increasing order. -/
theorem substituteLoop_eq (hfit : CountersFit n g) :
    substituteLoop n g =
      .forEach (List.finRange (launchSize n g)) (substituteKernel n g) .done := by
  have hsize : launchSize n g < 2 ^ 31 := by
    rw [launchSize_eq (Nat.lt_trans hfit.size (by omega))]
    exact hfit.chunks
  have hcounter := @counter_eq_range 0 (launchSize n g) (Nat.zero_le _) (by omega)
  have hrange : List.range' 0 (launchSize n g) =
      (List.finRange (launchSize n g)).map Fin.val := by
    rw [← List.range_eq_range', List.map_coe_finRange_eq_range]
  rw [substituteLoop_eq_forEach, outerCounter]
  rw [show ((0 : Nat) : Int) = 0 from rfl] at hcounter
  simp only [hcounter, Nat.sub_zero, hrange, WorkItem.forEach_map, Bool.false_eq_true, if_false]
  apply WorkItem.forEach_congr
  intro i _
  rw [toSizeT_natCast (by omega)]
  rfl

end

/-! ## The whole message -/

theorem inBounds_substituteAt {n j : Nat} (hj : j < n) (m : Cell → UInt8) :
    ∀ a ∈ (substituteAt j).trace m, InBounds n a := by
  intro a ha
  simp only [trace_substituteAt, List.mem_cons, List.not_mem_nil, or_false] at ha
  rcases ha with rfl | rfl | rfl
  · exact hj
  · exact (m (.inputMessage, j)).toNat_lt
  · exact hj

theorem FillsChunk.inBounds {n g i : Nat} {w : WorkItem Cell UInt8 Fault}
    (h : FillsChunk n g i w) (m : Cell → UInt8) : ∀ a ∈ w.trace m, InBounds n a := by
  intro a ha
  rw [h.trace_eq m] at ha
  obtain ⟨j, hj, ha⟩ := List.mem_flatMap.mp ha
  have hjn := (mem_chunk.mp hj).2
  exact inBounds_substituteAt (by omega) m a ha

theorem FillsChunk.writes_iff {n g i : Nat} {w : WorkItem Cell UInt8 Fault}
    (h : FillsChunk n g i w) (m : Cell → UInt8) (j : Nat) :
    (∃ v, .write (.outputMessage, j) v ∈ w.trace m) ↔ InChunk n g i j := by
  simp only [h.trace_eq m, List.mem_flatMap, mem_chunk, trace_substituteAt]
  constructor
  · intro h
    obtain ⟨v, k, hk, hw⟩ := h
    have hjk : j = k ∧ v = substituted m k := by simpa using hw
    rw [hjk.1]
    exact hk
  · intro hj
    exact ⟨substituted m j, j, hj, by simp⟩

theorem outputMessage_eq_map {m m' : Cell → UInt8} {byteMap inputMessage : List UInt8}
    (h : Holds m byteMap inputMessage) (hmap : byteMap.length = 256)
    (hout : ∀ j < inputMessage.length, m' (.outputMessage, j) = substituted m j) :
    outputMessage m' inputMessage.length = inputMessage.map (lookup byteMap) := by
  apply List.ext_getElem
  · simp [outputMessage]
  · intro j hj hj'
    have hlt : j < inputMessage.length := by simpa using hj'
    simp [outputMessage, hout j hlt, h.substituted hmap hlt]

section

variable {byteMap inputMessage : List UInt8} {g : UInt32} {m m' : Cell → UInt8}

theorem existsUnique_item {n : Nat} (hn : n < 2 ^ 31) (hg : 0 < g.toNat) {j : Nat}
    (hj : j < n) : ∃! i : Fin (launchSize n g), InChunk n g.toNat i j := by
  obtain ⟨i, ⟨hi, hchunk⟩, hunique⟩ := existsUnique_inChunk hg hj
  rw [← launchSize_eq (by omega)] at hi
  refine ⟨⟨i, hi⟩, hchunk, ?_⟩
  intro k hk
  have hlt : k.val < n / g.toNat + 1 := by
    rw [← launchSize_eq (by omega)]
    exact k.isLt
  exact Fin.ext (hunique k ⟨hlt, hk⟩)

theorem substituteKernel_fills {n : Nat} (hn : n < 2 ^ 31) (hg : 0 < g.toNat)
    {tr : List (Fin (launchSize n g) × Access Cell UInt8 Fault)}
    (hrun : Completes (substituteKernel n g) m tr m') {j : Nat} (hj : j < n) :
    m' (.outputMessage, j) = substituted m j := by
  obtain ⟨i, hchunk⟩ := (existsUnique_item hn hg hj).exists
  rw [(isolated_substituteKernel hn hg).memory_eq hrun i ⟨rfl, hchunk⟩]
  exact (fillsChunk_substituteKernel hn i).exec_eq m j hchunk

theorem substituteKernel_output (hn : inputMessage.length < 2 ^ 31) (hg : 0 < g.toNat)
    (hmap : byteMap.length = 256) (hm : Holds m byteMap inputMessage)
    {tr : List (Fin (launchSize inputMessage.length g) × Access Cell UInt8 Fault)}
    (hrun : Completes (substituteKernel inputMessage.length g) m tr m') :
    outputMessage m' inputMessage.length = inputMessage.map (lookup byteMap) := by
  apply outputMessage_eq_map hm hmap
  intro j hj
  exact substituteKernel_fills hn hg hrun hj

theorem substituteKernel_inBounds {n : Nat} (hn : n < 2 ^ 31) (hg : 0 < g.toNat)
    {tr : List (Fin (launchSize n g) × Access Cell UInt8 Fault)}
    (hrun : Completes (substituteKernel n g) m tr m') : ∀ l ∈ tr, InBounds n l.2 := by
  intro l hl
  obtain ⟨i, a⟩ := l
  have ha := ((isolated_substituteKernel hn hg).mem_iff hrun).mp hl
  exact (fillsChunk_substituteKernel hn i).inBounds m a ha

theorem substituteKernel_existsUnique {n : Nat} (hn : n < 2 ^ 31) (hg : 0 < g.toNat)
    {tr : List (Fin (launchSize n g) × Access Cell UInt8 Fault)}
    (hrun : Completes (substituteKernel n g) m tr m') {j : Nat} (hj : j < n) :
    ∃! i, ∃ v, (i, .write (.outputMessage, j) v) ∈ tr := by
  have hwrites : ∀ i, (∃ v, (i, .write (.outputMessage, j) v) ∈ tr) ↔
      InChunk n g.toNat i j := by
    intro i
    simp only [(isolated_substituteKernel hn hg).mem_iff hrun]
    exact (fillsChunk_substituteKernel hn i).writes_iff m j
  simp only [hwrites]
  exact existsUnique_item hn hg hj

theorem substituteLoop_fills {n : Nat} (hfit : CountersFit n g) (hg : 0 < g.toNat) {j : Nat}
    (hj : j < n) : (substituteLoop n g).exec m (.outputMessage, j) = substituted m j := by
  rw [substituteLoop_eq hfit, exec_forEach_done]
  exact substituteKernel_fills hfit.size hg
    (completes_inOrder _ (List.nodup_finRange _) List.mem_finRange m) hj

theorem substituteLoop_output (hfit : CountersFit inputMessage.length g) (hg : 0 < g.toNat)
    (hmap : byteMap.length = 256) (hm : Holds m byteMap inputMessage) :
    outputMessage ((substituteLoop inputMessage.length g).exec m) inputMessage.length =
      inputMessage.map (lookup byteMap) := by
  apply outputMessage_eq_map hm hmap
  intro j hj
  exact substituteLoop_fills hfit hg hj

theorem substituteLoop_inBounds {n : Nat} (hfit : CountersFit n g) (hg : 0 < g.toNat) :
    ∀ a ∈ (substituteLoop n g).trace m, InBounds n a := by
  intro a ha
  rw [substituteLoop_eq hfit, trace_forEach_done] at ha
  obtain ⟨l, hl, rfl⟩ := List.mem_map.mp ha
  exact substituteKernel_inBounds hfit.size hg
    (completes_inOrder _ (List.nodup_finRange _) List.mem_finRange m) l hl

end

/-- Chunked substitution is the plain map of the byte map over the message: in
every interleaving of the kernel and in the sequential loop, with every index in
bounds and every byte of the output written by one work item. -/
theorem substitute_eq_map (byteMap inputMessage : List UInt8) (g : UInt32) (m : Cell → UInt8)
    (hmap : byteMap.length = 256) (hn : inputMessage.length + 1 < 2 ^ 31)
    (hg : 0 < g.toNat) (hm : Holds m byteMap inputMessage) :
    (∃ tr m', Completes (substituteKernel inputMessage.length g) m tr m') ∧
    (∀ tr m', Completes (substituteKernel inputMessage.length g) m tr m' →
      outputMessage m' inputMessage.length = inputMessage.map (lookup byteMap) ∧
      (∀ j < inputMessage.length, ∃! i, ∃ v, (i, .write (.outputMessage, j) v) ∈ tr) ∧
      ∀ l ∈ tr, InBounds inputMessage.length l.2) ∧
    outputMessage ((substituteLoop inputMessage.length g).exec m) inputMessage.length =
      inputMessage.map (lookup byteMap) ∧
    ∀ a ∈ (substituteLoop inputMessage.length g).trace m, InBounds inputMessage.length a := by
  have hfit := CountersFit.of_lt hn g
  refine ⟨exists_completes _ m, ?_, ?_, ?_⟩
  · intro tr m' hrun
    have hunique : ∀ j < inputMessage.length, ∃! i, ∃ v, (i, .write (.outputMessage, j) v) ∈ tr :=
      fun j hj => substituteKernel_existsUnique hfit.size hg hrun hj
    exact ⟨substituteKernel_output hfit.size hg hmap hm hrun, hunique,
      substituteKernel_inBounds hfit.size hg hrun⟩
  · exact substituteLoop_output hfit hg hmap hm
  · exact substituteLoop_inBounds hfit hg

theorem substitute_eq_map_shift :
    outputMessage
        ((substituteLoop 3 2).exec (hostMemory (allBytes.map (· + 1)) [72, 105, 33])) 3 =
      [73, 106, 34] := by
  have hmap : (allBytes.map (· + 1)).length = 256 := by simp [allBytes]
  have hshift := (substitute_eq_map (allBytes.map (· + 1)) [72, 105, 33] 2 _ hmap
    (by decide) (by decide) (holds_hostMemory _ _)).2.2.1
  exact hshift.trans (by decide)

end UnoApi.Cipher
