import Ticklog.Lib.ByteFifo
import Ticklog.Lib.Machine
import Ticklog.Ring.Basic

/-!
# The rtrb backend (`src/rtrb_backend.rs`)

The two halves of a ring split over a third-party byte FIFO, which is a parameter. The producer
stages records and flushes them as one chunk when `chunk_size` of them are staged; a record that
is a chunk by itself goes straight into the FIFO. `reserve` counts the staged bytes as if they
were in the ring, and that is what the `expect`s of the flush rest on (`Held`): staged bytes and
the reservation fit what the FIFO can still take, whenever they come to be flushed.

A `none` of the producer's operations is a panic.
-/

namespace Ticklog

open Lib

namespace Rtrb

/-- `usize::saturating_add`. -/
def saturatingAdd (a b : Nat) : Nat := min (a + b) (wordSize - 1)

/-- `usize::is_power_of_two`. -/
def isPowerOfTwo (n : Nat) : Bool := decide (2 ^ n.log2 = n)

/-- `RingProducer` and `RingConsumer` with the FIFO between them, and `RingShared`. -/
structure Split (σ : Type) where
  fifo : σ
  capacity : Nat
  live : Bool
  staged : List UInt8
  stagedRecords : Nat
  chunkSize : Nat

section

variable {σ : Type} (F : ByteFifo σ)

/-- `none` is the panic on a capacity that is no power of two; `defaultChunk` is
`DEFAULT_CHUNK_SIZE`. -/
def split (slotSize capacity defaultChunk : Nat) : Option (Split σ) :=
  let effective := if capacity < slotSize then slotSize else capacity
  if isPowerOfTwo effective then
    -- rtrb keeps one slot
    let usable := effective - 1
    some {
      fifo := F.new usable
      capacity := usable
      live := true
      staged := []
      stagedRecords := 0
      chunkSize := max defaultChunk 1 }
  else none

/-- What a round of `reserve` comes to. -/
inductive Reserve where
  | reserved
  | refused
  /-- `backoff.wait()`, and another round. -/
  | waits
deriving DecidableEq, Repr

/-- The occupancy test of `reserve`. -/
def enough (s : Split σ) (totalSize : Nat) : Bool :=
  let needed := saturatingAdd s.staged.length totalSize
  let room := s.capacity
  let occupied := room - F.writable s.fifo
  decide (saturatingAdd occupied needed < room)

/-- One round of `reserve`. -/
def reserve (s : Split σ) (totalSize : Nat) (policy : Backpressure) : Reserve :=
  if enough F s totalSize then .reserved
  else
    match policy with
    | .drop => .refused
    | .nanoLog | .quill | .block => if s.live then .waits else .refused

/-- `dst.copy_from_slice(src)` for a slice of `n` bytes. -/
def copyFromSlice (n : Nat) (src : List UInt8) : Option (List UInt8) :=
  if src.length = n then some src else none

/-- `write_chunk` with its `expect`, the two copies and `commit_all`. -/
def flush (fifo : σ) (bytes : List UInt8) : Option σ := do
  let (a, b) ← F.writeChunk fifo bytes.length
  let first ← copyFromSlice a (bytes.take a)
  let second ← (if b = 0 then some [] else copyFromSlice b (bytes.drop a))
  some (F.commitWrite fifo first second)

/-- The end of both write paths: the staged chunk is flushed once it is complete. -/
def flushStaged (chunkSize : Nat) (s : Split σ) : Option (Split σ) :=
  if chunkSize ≤ s.stagedRecords then
    if s.staged = [] then some s
    else (flush F s.fifo s.staged).map fun fifo =>
      { s with fifo := fifo, staged := [], stagedRecords := 0 }
  else some s

/-- `RingProducer::commit`. -/
def commit (s : Split σ) (bytes : List UInt8) : Option (Split σ) :=
  let chunkSize := max s.chunkSize 1
  if s.staged = [] ∧ chunkSize = 1 then
    if bytes = [] then some s
    else (flush F s.fifo bytes).map fun fifo => { s with fifo := fifo }
  else
    flushStaged F chunkSize { s with
      staged := s.staged ++ bytes
      stagedRecords := wrappingAdd s.stagedRecords 1 }

/-- The direct path of `write_record`: assembled in the chunk itself if it does not wrap, else in
the scratch. -/
def writeDirect (fifo : σ) (bytes : List UInt8) : Option σ := do
  let (a, b) ← F.writeChunk fifo bytes.length
  if b = 0 then some (F.commitWrite fifo bytes [])
  else do
    let scratch := bytes
    let first ← copyFromSlice a (scratch.take a)
    let second ← copyFromSlice b (scratch.drop a)
    some (F.commitWrite fifo first second)

/-- `RingProducer::write_record`, whose `f` writes `bytes`. -/
def writeRecord (s : Split σ) (bytes : List UInt8) : Option (Split σ) :=
  let chunkSize := max s.chunkSize 1
  if s.staged = [] ∧ chunkSize = 1 then
    if bytes = [] then some s
    else (writeDirect F s.fifo bytes).map fun fifo => { s with fifo := fifo }
  else
    -- `f` writes behind `staged`, then `set_len`
    flushStaged F chunkSize { s with
      staged := s.staged ++ bytes
      stagedRecords := wrappingAdd s.stagedRecords 1 }

def setChunkSize (s : Split σ) (n : Nat) : Split σ :=
  if 0 < n then { s with chunkSize := n } else s

def setDead (s : Split σ) : Split σ := { s with live := false }

/-- The loop of `pop_available`, at most `fuel` rounds of it. -/
def popLoop : Nat → σ → Nat → List UInt8 → σ × List UInt8
  | 0, fifo, _, out => (fifo, out)
  | fuel + 1, fifo, remaining, out =>
    if remaining = 0 then (fifo, out)
    else
      match F.readChunk fifo remaining with
      | none => (fifo, out)
      | some (a, b) =>
        let n := a.length + b.length
        popLoop fuel (F.commitRead fifo n) (remaining - n) (out ++ a ++ b)

/-- `pop_available` on an empty `out`. -/
def popAvailable (s : Split σ) : Split σ × List UInt8 :=
  if F.readable s.fifo = 0 then (s, [])
  else
    let available := F.readable s.fifo
    let (fifo, out) := popLoop F (available + 1) s.fifo available []
    ({ s with fifo := fifo }, out)

end

/-! ## Runs -/

/-- The two ways to write a record. -/
inductive Put where
  | commit
  | writeRecord
deriving DecidableEq, Repr

inductive Action where
  | reserve (totalSize : Nat) (policy : Backpressure)
  | put (how : Put) (bytes : List UInt8)
  | setChunkSize (n : Nat)
  | pop
  | setDead
deriving DecidableEq, Repr

/-- A split ring with its history. -/
structure Run (σ : Type) where
  core : Split σ
  /-- The size granted to the write that comes next. -/
  granted : Option Nat
  /-- The records written. -/
  committed : List (List UInt8)
  /-- What each pop gave. -/
  popped : List (List UInt8)
  /-- The producer panicked. -/
  failed : Bool

variable {σ : Type} (F : ByteFifo σ)

def Run.start (s : Split σ) : Run σ := ⟨s, none, [], [], false⟩

def put (how : Put) (s : Split σ) (bytes : List UInt8) : Option (Split σ) :=
  match how with
  | .commit => commit F s bytes
  | .writeRecord => writeRecord F s bytes

/-- A write follows the reservation of its size; the drain pops at any time. -/
def Run.step (s : Run σ) : Action → Option (Run σ)
  | .reserve totalSize policy =>
    if s.granted = none ∧ s.failed = false then
      match reserve F s.core totalSize policy with
      | .reserved => some { s with granted := some totalSize }
      | .refused | .waits => some s
    else none
  | .put how bytes =>
    if s.granted = some bytes.length ∧ s.failed = false then
      match put F how s.core bytes with
      | some core =>
        some { s with core := core, granted := none, committed := s.committed ++ [bytes] }
      | none => some { s with failed := true }
    else none
  | .setChunkSize n => some { s with core := setChunkSize s.core n }
  | .pop =>
    let (core, out) := popAvailable F s.core
    some { s with core := core, popped := s.popped ++ [out] }
  | .setDead => some { s with core := setDead s.core }

/-- The producer and the drain on one ring. -/
def rtrb : Machine (Run σ) Action where
  step := Run.step F

/-! ## The operations on the FIFO -/

variable {F} {s s' : Split σ} {fifo : σ} {bytes : List UInt8}

/-- A chunk that was granted is of the length asked for. -/
theorem writeChunk_add {n a b : Nat} (h : F.writeChunk fifo n = some (a, b)) : a + b = n := by
  rcases Nat.lt_or_ge (F.writable fifo) n with hlt | hle
  · rw [F.writeChunk_none fifo n hlt] at h
    cases h
  · obtain ⟨a', b', hsome, hsum⟩ := F.writeChunk_some fifo n hle
    rw [hsome] at h
    obtain ⟨rfl, rfl⟩ := Prod.mk.inj (Option.some.inj h)
    exact hsum

/-- The copies of a flush, for a chunk of the length asked for. -/
theorem flush_chunk {a b : Nat} (h : F.writeChunk fifo bytes.length = some (a, b)) :
    flush F fifo bytes = some (F.commitWrite fifo (bytes.take a) (bytes.drop a)) := by
  have hsum := writeChunk_add h
  have hfirst : copyFromSlice a (bytes.take a) = some (bytes.take a) :=
    if_pos (List.length_take_of_le (by omega))
  have hsecond : (if b = 0 then some [] else copyFromSlice b (bytes.drop a))
      = some (bytes.drop a) := by
    by_cases hb : b = 0
    · rw [if_pos hb, List.drop_of_length_le (by omega)]
    · rw [if_neg hb]
      refine if_pos ?_
      rw [List.length_drop]
      omega
  unfold flush
  rw [h]
  show (copyFromSlice a (bytes.take a)).bind _ = _
  rw [hfirst]
  show (if b = 0 then some [] else copyFromSlice b (bytes.drop a)).bind _ = _
  rw [hsecond]
  rfl

/-- With room for them the bytes go in behind the others. -/
theorem flush_some (h : bytes.length ≤ F.writable fifo) :
    ∃ fifo', flush F fifo bytes = some fifo' ∧ F.contents fifo' = F.contents fifo ++ bytes ∧
      F.capacity fifo' = F.capacity fifo := by
  obtain ⟨a, b, hchunk, hsum⟩ := F.writeChunk_some fifo bytes.length h
  refine ⟨_, flush_chunk hchunk, ?_, F.commitWrite_capacity _ _ _⟩
  have hlengths : F.writeChunk fifo bytes.length
      = some ((bytes.take a).length, (bytes.drop a).length) := by
    rw [hchunk, List.length_take_of_le (by omega), List.length_drop]
    congr 2
    omega
  rw [F.commitWrite_contents fifo bytes.length _ _ hlengths, List.take_append_drop]

/-- Assembling in the chunk or beside it makes no difference. -/
theorem writeDirect_eq (fifo : σ) (bytes : List UInt8) :
    writeDirect F fifo bytes = flush F fifo bytes := by
  cases hchunk : F.writeChunk fifo bytes.length with
  | none =>
    unfold writeDirect flush
    rw [hchunk]
    rfl
  | some chunk =>
    obtain ⟨a, b⟩ := chunk
    have hsum := writeChunk_add hchunk
    rw [flush_chunk hchunk]
    unfold writeDirect
    rw [hchunk]
    show (if b = 0 then _ else _) = _
    by_cases hb : b = 0
    · rw [if_pos hb, List.take_of_length_le (by omega), List.drop_of_length_le (by omega)]
    · rw [if_neg hb]
      have hfirst : copyFromSlice a (bytes.take a) = some (bytes.take a) :=
        if_pos (List.length_take_of_le (by omega))
      have hsecond : copyFromSlice b (bytes.drop a) = some (bytes.drop a) := by
        refine if_pos ?_
        rw [List.length_drop]
        omega
      rw [hfirst, hsecond]
      rfl

/-- `write_record` is `commit` of the bytes its `f` writes. -/
theorem writeRecord_eq (s : Split σ) (bytes : List UInt8) :
    writeRecord F s bytes = commit F s bytes := by
  unfold writeRecord commit
  rw [writeDirect_eq]

theorem put_eq (how : Put) (s : Split σ) (bytes : List UInt8) :
    put F how s bytes = commit F s bytes := by
  cases how with
  | commit => rfl
  | writeRecord => exact writeRecord_eq s bytes

/-- A pop takes all there is. -/
theorem popAvailable_some (s : Split σ) :
    ∃ fifo, popAvailable F s = ({ s with fifo := fifo }, F.contents s.fifo) ∧
      F.contents fifo = [] ∧ F.capacity fifo = F.capacity s.fifo := by
  by_cases hempty : F.readable s.fifo = 0
  · have hnil : F.contents s.fifo = [] := by
      rw [F.readable_eq] at hempty
      exact List.length_eq_zero_iff.mp hempty
    refine ⟨s.fifo, ?_, hnil, rfl⟩
    unfold popAvailable
    rw [if_pos hempty, hnil]
  · obtain ⟨a, b, hchunk, hbytes⟩ := F.readChunk_some s.fifo _ (Nat.le_refl _)
    have hall : a ++ b = F.contents s.fifo := by
      rw [hbytes, F.readable_eq, List.take_length]
    have hlen : a.length + b.length = F.readable s.fifo := by
      rw [← List.length_append, hall, F.readable_eq]
    have hloop : popLoop F (F.readable s.fifo + 1) s.fifo (F.readable s.fifo) []
        = (F.commitRead s.fifo (F.readable s.fifo), F.contents s.fifo) := by
      rw [popLoop, if_neg hempty, hchunk]
      dsimp only
      rw [hlen, Nat.sub_self, List.nil_append, hall]
      cases F.readable s.fifo with
      | zero => rfl
      | succ n => rfl
    refine ⟨F.commitRead s.fifo (F.readable s.fifo), ?_, ?_, F.commitRead_capacity _ _⟩
    · unfold popAvailable
      rw [if_neg hempty]
      dsimp only
      rw [hloop]
    · rw [F.commitRead_contents _ _ (Nat.le_refl _), F.readable_eq, List.drop_length]

/-! ## What a step does -/

/-- Everything `Run.step` does. -/
inductive Moved (F : ByteFifo σ) (s : Run σ) : Action → Run σ → Prop where
  | granted {totalSize : Nat} {policy : Backpressure} :
      reserve F s.core totalSize policy = .reserved →
      Moved F s (.reserve totalSize policy) { s with granted := some totalSize }
  | notGranted {totalSize : Nat} {policy : Backpressure} :
      Moved F s (.reserve totalSize policy) s
  | written {how : Put} {bytes : List UInt8} {core : Split σ} :
      s.granted = some bytes.length → commit F s.core bytes = some core →
      Moved F s (.put how bytes)
        { s with core := core, granted := none, committed := s.committed ++ [bytes] }
  | panicked {how : Put} {bytes : List UInt8} :
      s.granted = some bytes.length → commit F s.core bytes = none →
      Moved F s (.put how bytes) { s with failed := true }
  | resized (n : Nat) : Moved F s (.setChunkSize n) { s with core := setChunkSize s.core n }
  | popped {fifo : σ} :
      F.contents fifo = [] → F.capacity fifo = F.capacity s.core.fifo →
      Moved F s .pop { s with
        core := { s.core with fifo := fifo }
        popped := s.popped ++ [F.contents s.core.fifo] }
  | died : Moved F s .setDead { s with core := setDead s.core }

theorem step_moved {s s' : Run σ} {a : Action} (h : Run.step F s a = some s') :
    Moved F s a s' := by
  cases a with
  | reserve totalSize policy =>
    unfold Run.step at h
    dsimp only at h
    split_ifs at h with hidle
    split at h
    next hreserve =>
      injection h with h
      rw [← h]
      exact .granted hreserve
    all_goals
      injection h with h
      rw [← h]
      exact .notGranted
  | put how bytes =>
    unfold Run.step at h
    dsimp only at h
    split_ifs at h with hgranted
    rw [put_eq] at h
    cases hcommit : commit F s.core bytes with
    | none =>
      rw [hcommit] at h
      injection h with h
      rw [← h]
      exact .panicked hgranted.1 hcommit
    | some core =>
      rw [hcommit] at h
      injection h with h
      rw [← h]
      exact .written hgranted.1 hcommit
  | setChunkSize n =>
    injection h with h
    rw [← h]
    exact .resized n
  | pop =>
    obtain ⟨fifo, hpop, hempty, hcap⟩ := popAvailable_some (F := F) s.core
    unfold Run.step at h
    dsimp only at h
    rw [hpop] at h
    injection h with h
    rw [← h]
    exact .popped hempty hcap
  | setDead =>
    injection h with h
    rw [← h]
    exact .died

end Rtrb

end Ticklog
