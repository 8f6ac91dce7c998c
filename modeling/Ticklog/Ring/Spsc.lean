import Mathlib.Logic.Function.Basic
import Ticklog.Lib.Machine
import Ticklog.Ring.Basic

/-!
# One producer against one drain, access by access

The two sides of a ring as a machine whose every action is a single shared access:

* the producer runs `reserve` (own `head`, private `tail_cache`, then the `tail`
  loads of `try_ensure_capacity`, then the filler bytes of `write_eob`), stores the
  record's bytes one by one in any order, and publishes or abandons;
* the drain runs one pass of `drain_ring_inner` after the other: the `head` load, the
  prefix bytes and record bytes of each frame one by one, the final store of `tail`.

The storage is a total function on offsets; its initial content is whatever a
recycled segment left there. `published`, `sink`, `written` and `seen` are history:
the records published and handed to the sink, the bytes `head` has advanced by, and
the number of publications the drain's latest `head` load saw.

`fast` is the `fast-tail-cache` feature (the fast path trusts the cached tail);
the default build reloads `tail` there.
-/

namespace Ticklog

open Lib

/-- The shared and side-private control fields of a ring, and its storage. -/
structure RingBuffer where
  data : Nat → UInt8
  head : Nat
  tail : Nat
  tailCache : Nat
  headCache : Nat
  live : Bool

/-- `len` storage bytes from `off`. -/
def slice (data : Nat → UInt8) (off len : Nat) : List UInt8 :=
  (List.range len).map fun i => data (off + i)

/-- The 4-byte `END_OF_BUFFER` header `write_eob` stores for a filler of `span` bytes. -/
def eobBytes (span : Nat) : List UInt8 :=
  [UInt8.ofNat version, UInt8.ofNat endOfBuffer] ++ leBytes 2 span

/-- `bytes` is a `LOG_RECORD` whose header frames exactly `total` bytes. -/
def framed (total : Nat) (bytes : List UInt8) : Bool :=
  decide (bytes.length = total ∧ readPrefix bytes = ⟨version, logRecord, total⟩)

/-- Where the producer stands inside `reserve` or its reservation. -/
inductive ProducerPc where
  | idle
  /-- The cached tail leaves room; about to load `tail` and refresh the cache. -/
  | confirm (head total : Nat)
  /-- The cached tail does not; about to load `tail` and test again. -/
  | refresh (head total : Nat)
  /-- Space granted, `k` bytes of the filler header stored. -/
  | writeEob (head total k : Nat)
  /-- The reservation is handed out; the caller writes the record. -/
  | filling (head total : Nat)
deriving DecidableEq, Repr

/-- Where the drain stands inside `drain_ring_inner`; `tail` is its running tail. -/
inductive DrainPc where
  | idle
  /-- The cached head says caught up; about to load `head`. -/
  | loadHead (tail : Nat)
  /-- Top of `while tail < head_cache`. -/
  | scan (tail headCache : Nat)
  /-- Reading the frame's prefix bytes. -/
  | readPrefix (tail headCache : Nat) (acc : List UInt8)
  /-- The sink is reading the record's bytes. -/
  | readRecord (tail headCache total : Nat) (acc : List UInt8)
  /-- Loop left; about to store `tail`. -/
  | storeTail (tail headCache : Nat)
deriving DecidableEq, Repr

/-- One ring, its two sides, and the history of the run. -/
structure Spsc where
  ring : RingBuffer
  producer : ProducerPc
  drain : DrainPc
  published : List (List UInt8)
  sink : List (List UInt8)
  written : Nat
  seen : Nat

/-- A fresh or recycled ring: indices rewound, storage arbitrary. -/
def Spsc.init (data : Nat → UInt8) : Spsc where
  ring := { data, head := 0, tail := 0, tailCache := 0, headCache := 0, live := true }
  producer := .idle
  drain := .idle
  published := []
  sink := []
  written := 0
  seen := 0

/-- One shared access of one side. -/
inductive SpscAction where
  /-- The producer calls `reserve(total)`. -/
  | reserve (total : Nat)
  /-- The producer's pending load of `tail`. -/
  | loadTail
  /-- The producer's next filler byte. -/
  | eobByte
  /-- The caller stores byte `b` at index `i` of its reservation. -/
  | write (i : Nat) (b : UInt8)
  | publish
  | abandon
  /-- The producer's thread exits, or the guard marks the ring dead. -/
  | setDead
  /-- The drain's next access. -/
  | drain
deriving DecidableEq, Repr

namespace Spsc

variable (g : Geometry)

/-- Space for `[head, head + needed)` is free: write the filler first, if any. -/
def granted (head total : Nat) : ProducerPc :=
  if g.wraps head total then .writeEob head total 0 else .filling head total

/-- `reserve` up to its first load of `tail`: own head, private cache. -/
def reserve (fast : Bool) (total : Nat) (s : Spsc) : Option Spsc :=
  match s.producer with
  | .idle =>
    if headerSize ≤ total ∧ total ≤ maxRecordSize then
      let head := s.ring.head
      if g.fits head (g.needed head total) s.ring.tailCache then
        if fast then some { s with producer := granted g head total }
        else some { s with producer := .confirm head total }
      else some { s with producer := .refresh head total }
    else none
  | _ => none

/-- A load of `tail` in `try_ensure_capacity`, with what the policy does when the
ring is still full. -/
def loadTail (policy : Backpressure) (s : Spsc) : Option Spsc :=
  let tail := s.ring.tail
  let cached := { s with ring.tailCache := tail }
  match s.producer with
  | .confirm head total => some { cached with producer := granted g head total }
  | .refresh head total =>
    if g.fits head (g.needed head total) tail then
      some { cached with producer := granted g head total }
    else
      match policy with
      | .drop | .nanoLog | .quill => some { cached with producer := .idle }
      | .block =>
        if s.ring.live then some cached else some { cached with producer := .idle }
  | _ => none

/-- One byte of `write_eob`. -/
def eobByte (s : Spsc) : Option Spsc :=
  match s.producer with
  | .writeEob head total k =>
    let byte := (eobBytes (g.remainingPhys head)).getD k 0
    let data := Function.update s.ring.data (g.offset head + k) byte
    some { s with
      ring.data := data
      producer := if k + 1 < 4 then .writeEob head total (k + 1) else .filling head total }
  | _ => none

/-- The caller stores one byte of its reserved region. -/
def write (i : Nat) (b : UInt8) (s : Spsc) : Option Spsc :=
  match s.producer with
  | .filling head total =>
    if i < total then
      some { s with ring.data := Function.update s.ring.data (g.dst head total + i) b }
    else none
  | _ => none

/-- `publish`: allowed once the region holds a record that frames it. -/
def publish (s : Spsc) : Option Spsc :=
  match s.producer with
  | .filling head total =>
    let record := slice s.ring.data (g.dst head total) total
    if framed total record then
      some { s with
        ring.head := g.newHead head total
        producer := .idle
        published := s.published ++ [record]
        written := s.written + g.needed head total }
    else none
  | _ => none

/-- The reservation is dropped without a store to `head`. -/
def abandon (s : Spsc) : Option Spsc :=
  match s.producer with
  | .filling _ _ => some { s with producer := .idle }
  | _ => none

/-- The bytes the prefix cursor at `offset` may read, at most four. -/
def prefixLen (offset : Nat) : Nat := min 4 (g.capacity - offset)

/-- The drain's next shared access. -/
def drainStep (s : Spsc) : Spsc :=
  match s.drain with
  | .idle =>
    let tail := s.ring.tail
    if tail = s.ring.headCache then { s with drain := .loadHead tail }
    else { s with drain := .scan tail s.ring.headCache }
  | .loadHead tail =>
    let head := s.ring.head
    let s := { s with seen := s.published.length }
    if tail = head then { s with drain := .idle } else { s with drain := .scan tail head }
  | .scan tail headCache =>
    if tail < headCache then { s with drain := .readPrefix tail headCache [] }
    else { s with drain := .storeTail tail headCache }
  | .readPrefix tail headCache acc =>
    let offset := g.offset tail
    if acc.length < prefixLen g offset then
      { s with drain := .readPrefix tail headCache (acc ++ [s.ring.data (offset + acc.length)]) }
    else
      let p := readPrefix acc
      match verdict g.capacity offset p with
      | .empty => { s with drain := .storeTail tail headCache }
      | .corrupt => { s with drain := .storeTail headCache headCache }
      | .filler =>
        { s with drain := .scan (wrappingAdd tail (g.aligned p.totalSize)) headCache }
      | .record total => { s with drain := .readRecord tail headCache total [] }
  | .readRecord tail headCache total acc =>
    if acc.length < total then
      let byte := s.ring.data (g.offset tail + acc.length)
      { s with drain := .readRecord tail headCache total (acc ++ [byte]) }
    else
      { s with
        sink := s.sink ++ [acc]
        drain := .scan (wrappingAdd tail (g.aligned total)) headCache }
  | .storeTail tail headCache =>
    { s with
      ring.tail := tail
      ring.headCache := headCache
      drain := .idle }

/-- The interleaving: whichever side the action names makes its next access. -/
def step (fast : Bool) (policy : Backpressure) (s : Spsc) : SpscAction → Option Spsc
  | .reserve total => reserve g fast total s
  | .loadTail => loadTail g policy s
  | .eobByte => eobByte g s
  | .write i b => write g i b s
  | .publish => publish g s
  | .abandon => abandon s
  | .setDead => some { s with ring.live := false }
  | .drain => some (drainStep g s)

/-- The storage offset an action stores to, if it stores to the storage at all. -/
def writeAddr (s : Spsc) : SpscAction → Option Nat
  | .eobByte =>
    match s.producer with
    | .writeEob head _ k => some (g.offset head + k)
    | _ => none
  | .write i _ =>
    match s.producer with
    | .filling head total => if i < total then some (g.dst head total + i) else none
    | _ => none
  | _ => none

/-- The storage offset the drain's next access loads, if it loads from the storage at all. -/
def readAddr (s : Spsc) : Option Nat :=
  match s.drain with
  | .readPrefix tail _ acc =>
    let offset := g.offset tail
    if acc.length < prefixLen g offset then some (offset + acc.length) else none
  | .readRecord tail _ total acc =>
    if acc.length < total then some (g.offset tail + acc.length) else none
  | _ => none

/-- The drain moves no producer. -/
theorem drainStep_producer (s : Spsc) : (drainStep g s).producer = s.producer := by
  fun_cases drainStep g s <;> rfl

end Spsc

/-- The machine of one ring under one policy. -/
def spsc (g : Geometry) (fast : Bool) (policy : Backpressure) : Machine Spsc SpscAction where
  step := Spsc.step g fast policy

end Ticklog
