import Mathlib.Logic.Function.Basic
import Ticklog.Arena.Segments
import Ticklog.Codec.Iso8601
import Ticklog.Drain.Modes
import Ticklog.Lib.Boundary
import Ticklog.Lib.Machine
import Ticklog.Rtrb.Backend

/-!
# Starting the logger (`__configure_rt`, `with_thread_buf`, `warm_up`)

Any number of `configure!` calls race for the process-wide statics, each a `OnceLock`, while
threads log for the first time or warm up. One action is one access: a call's next `set`, or a
thread's next `get` on the way to its first ring. What a thread does inside the closure is left
out but for one thing, that it may log again from there.

So a run of this machine is the process up to the first handoff, thread exit or removal: a
closure that hands its segment off registers another ring under the same thread, and an exit and
the drain's `sync_rings` take rings away. Those write the registry and the slot again and are
steps of the machine of `System.Machine`, which begins with the logger started.
-/

namespace Ticklog

open Lib

namespace Startup

/-! ## Configuration -/

/-- The options of a `configure!` call, as `__configure_rt` gets them. -/
structure Options where
  timezoneOffset : Int
  ringCapacity : Nat
  format : String
  backpressure : Backpressure
  /-- `sink.raw_sink().is_some()`. -/
  raw : Bool

inductive TicklogError where
  | notInitialized
  | alreadyInitialized
  | drainSpawnFailed
  | invalidTimezoneOffset (secs : Int)
  | invalidFormatPattern (message : String)
  | invalidRingCapacity (capacity : Nat)
deriving DecidableEq, Repr

/-- What is fixed when the crate is compiled: `SLOT_SIZE`, and whether a `fifo-backend` replaces
the crate's own ring. -/
structure Build where
  slotSize : Nat
  fifo : Bool

/-- `DEFAULT_RING_SIZE`. -/
def defaultRingSize : Nat := 1048576

/-- `DEFAULT_LINE_PATTERN`. -/
def defaultLinePattern : String :=
  "\x7btimestamp\x7d \x7blevel\x7d \x7bfile\x7d:\x7bline\x7d \x7bmessage\x7d"

def Options.patternText (o : Options) : String :=
  if o.format.isEmpty then defaultLinePattern else o.format

/-- The checks of `__configure_rt` that come before any static. -/
def validate (b : Build) (o : Options) : Except TicklogError LinePattern :=
  if ¬ (minTzOffset ≤ o.timezoneOffset ∧ o.timezoneOffset ≤ maxTzOffset) then
    .error (.invalidTimezoneOffset o.timezoneOffset)
  else if Rtrb.isPowerOfTwo o.ringCapacity = false ∨ o.ringCapacity < b.slotSize then
    .error (.invalidRingCapacity o.ringCapacity)
  else
    match h : parseTemplate (strBytes o.patternText) with
    | .ok template => .ok ⟨o.patternText, template, h⟩
    | .error e => .error (.invalidFormatPattern e.message)

/-- `segmented`. -/
def Options.segmented (o : Options) : Bool :=
  match o.backpressure with
  | .nanoLog | .quill => true
  | .drop | .block => false

/-- The policy in force: a FIFO backend has no segments to hand off. -/
def policyOf (b : Build) (o : Options) : Backpressure :=
  if o.segmented && b.fifo then .block else o.backpressure

/-- Whether the pool is built. -/
def pools (b : Build) (o : Options) : Bool := o.segmented && !b.fifo

/-! ## State -/

/-- Where a ring's bytes are: in the pool's part of the arena, elsewhere in it, or allocated by
the thread itself. -/
inductive Storage where
  | pool
  | arena
  | heap
deriving DecidableEq, Repr

/-- A ring as `register_ring` gets it. -/
structure NewRing where
  id : Nat
  capacity : Nat
  storage : Storage
  threadId : Nat
  threadName : List UInt8
deriving DecidableEq, Repr

/-- `Segments`. -/
structure Segments where
  policy : Backpressure
  ringCapacity : Nat
  /-- The pool, its last segment first. -/
  spares : List Nat
  timezoneOffset : Int
  linePattern : LinePattern
  raw : Bool

/-- The drain thread, with the sink of call `sink`. -/
structure DrainThread (ι : Type) where
  sink : ι
  timezoneOffset : Int
  linePattern : LinePattern
  segmented : Bool

/-- The next access of a `configure!` call. -/
inductive CallPc where
  | fresh
  | setBackpressure (pattern : LinePattern)
  | setRegistry (pattern : LinePattern)
  | setSegments (pattern : LinePattern)
  | setRingCapacity (pattern : LinePattern)
  | spawn (pattern : LinePattern)
  | returned (r : Except TicklogError Unit)

/-- The next access of a thread inside `with_thread_buf`. -/
inductive SlotPc where
  /-- Outside. -/
  | idle
  | ringCapacity
  | installed (capacity : Nat)
  | allocate (capacity : Nat) (pooled : Bool)
  | setThreadInfo (ring : NewRing)
  | register (ring : NewRing)
  /-- Inside the closure. -/
  | running
deriving DecidableEq, Repr

/-- `ThreadSlot`, and what became of the thread's calls. -/
structure ThreadSlot where
  active : Bool
  buf : Option NewRing
  pc : SlotPc
  /-- Calls of `with_thread_buf`. -/
  entered : Nat
  /-- Those whose closure ran. -/
  ran : Nat
  /-- Those refused as re-entrant. -/
  refused : Nat
  /-- Those that panicked for want of a registry. -/
  panicked : Nat
  /-- `warm_up` calls that returned `NotInitialized`. -/
  unready : Nat
deriving DecidableEq, Repr

def ThreadSlot.new : ThreadSlot where
  active := false
  buf := none
  pc := .idle
  entered := 0
  ran := 0
  refused := 0
  panicked := 0
  unready := 0

/-- The statics, the calls and the threads. -/
structure State (ι : Type) where
  backpressure : Option Backpressure
  registry : Option (List NewRing)
  segments : Option Segments
  ringCapacity : Option Nat
  nextRing : Nat
  drains : List (DrainThread ι)
  calls : ι → CallPc
  threads : Nat → ThreadSlot

variable {ι : Type}

def State.init : State ι where
  backpressure := none
  registry := none
  segments := none
  ringCapacity := none
  nextRing := 0
  drains := []
  calls := fun _ => .fresh
  threads := fun _ => .new

inductive Action (ι : Type) where
  /-- The next access of call `i`; `spawns` is what the system answers if it is the spawn. -/
  | configure (i : ι) (spawns : Bool)
  /-- Thread `t` logs. -/
  | log (t : Nat)
  | warmUp (t : Nat)
  /-- The next access of thread `t`. -/
  | thread (t : Nat)
  /-- The closure of thread `t` returns, or unwinds. -/
  | leave (t : Nat)
deriving DecidableEq, Repr

variable [DecidableEq ι]

def State.callTo (s : State ι) (i : ι) (pc : CallPc) : State ι :=
  { s with calls := Function.update s.calls i pc }

def State.setThread (s : State ι) (t : Nat) (th : ThreadSlot) : State ι :=
  { s with threads := Function.update s.threads t th }

/-! ## `configure!` -/

/-- `Segments::init` for call `i`: the segments of a NanoLog pool are allocated here. -/
def initSegments (o : Options) (pattern : LinePattern) (s : State ι) : Segments where
  policy := o.backpressure
  ringCapacity := o.ringCapacity
  spares :=
    match o.backpressure with
    | .nanoLog => (List.range' s.nextRing (poolSize o.ringCapacity)).reverse
    | _ => []
  timezoneOffset := o.timezoneOffset
  linePattern := pattern
  raw := o.raw

/-- The next access of call `i`. -/
def configureStep (b : Build) (o : Options) (s : State ι) (i : ι) (spawns : Bool) :
    CallPc → Option (State ι)
  | .fresh =>
    match validate b o with
    | .ok pattern => some (s.callTo i (.setBackpressure pattern))
    | .error e => some (s.callTo i (.returned (.error e)))
  | .setBackpressure pattern =>
    -- the result of the `set` is not looked at
    some { s.callTo i (.setRegistry pattern) with
      backpressure := s.backpressure.or (some (policyOf b o)) }
  | .setRegistry pattern =>
    match s.registry with
    | some _ => some (s.callTo i (.returned (.error .alreadyInitialized)))
    | none =>
      let next := if pools b o then .setSegments pattern else .setRingCapacity pattern
      some { s.callTo i next with registry := some [] }
  | .setSegments pattern =>
    let pool := initSegments o pattern s
    match s.segments with
    | some _ => some (s.callTo i (.returned (.error .alreadyInitialized)))
    | none =>
      some { s.callTo i (.setRingCapacity pattern) with
        segments := some pool
        nextRing := s.nextRing + pool.spares.length }
  | .setRingCapacity pattern =>
    some { s.callTo i (.spawn pattern) with
      ringCapacity := s.ringCapacity.or (some o.ringCapacity) }
  | .spawn pattern =>
    if spawns then
      some { s.callTo i (.returned (.ok ())) with
        drains := s.drains ++ [⟨i, o.timezoneOffset, pattern, pools b o⟩] }
    else some (s.callTo i (.returned (.error .drainSpawnFailed)))
  | .returned _ => none

/-! ## Threads -/

/-- `MAX_THREAD_NAME_LEN`. -/
def maxThreadNameLen : Nat := 256

/-- The `while` of `with_thread_buf`: back to a character boundary. -/
def boundaryAt (name : List UInt8) : Nat → Nat
  | 0 => 0
  | n + 1 =>
    match name[n + 1]? with
    | some byte => if Continues byte then boundaryAt name n else n + 1
    | none => n + 1

def shortName (name : List UInt8) : List UInt8 :=
  if maxThreadNameLen < name.length then name.take (boundaryAt name maxThreadNameLen) else name

/-- The name a thread registers with; the operating system may have none for it. -/
def threadName (name : Option String) : List UInt8 :=
  shortName (strBytes (name.getD "<unnamed>"))

/-- The body of `with_thread_buf` up to the buffer. -/
def enter (s : State ι) (t : Nat) : State ι :=
  let th := s.threads t
  if th.active then
    s.setThread t { th with entered := th.entered + 1, refused := th.refused + 1 }
  else if th.buf.isSome then
    s.setThread t { th with
      entered := th.entered + 1, active := true, pc := .running, ran := th.ran + 1 }
  else s.setThread t { th with entered := th.entered + 1, active := true, pc := .ringCapacity }

/-- `Segments::initial_ring`: a spare, or a fresh segment of the arena. -/
def initialRing (pool : Segments) (s : State ι) : NewRing × State ι :=
  match pool.spares with
  | r :: rest =>
    (⟨r, pool.ringCapacity, .pool, 0, []⟩, { s with segments := some { pool with spares := rest } })
  | [] => (⟨s.nextRing, pool.ringCapacity, .arena, 0, []⟩, { s with nextRing := s.nextRing + 1 })

/-- `register_ring` on the registry's list. -/
def registerRing (rings : List NewRing) (ring : NewRing) : List NewRing :=
  if rings.any (·.id = ring.id) then rings.map fun r => if r.id = ring.id then ring else r
  else rings ++ [ring]

/-- The next access of thread `t`, named `name`. -/
def threadStep (b : Build) (name : Option String) (s : State ι) (t : Nat) :
    SlotPc → Option (State ι)
  | .ringCapacity =>
    let capacity := s.ringCapacity.getD defaultRingSize
    some (s.setThread t { s.threads t with pc := .installed capacity })
  | .installed capacity =>
    -- the pool is not compiled in with a FIFO backend
    some (s.setThread t { s.threads t with
      pc := .allocate capacity (!b.fifo && s.segments.isSome) })
  | .allocate _ true =>
    match s.segments with
    | some pool =>
      let (ring, s') := initialRing pool s
      some (s'.setThread t { s'.threads t with pc := .setThreadInfo ring })
    | none => none
  | .allocate capacity false =>
    let ring : NewRing := ⟨s.nextRing, capacity, .heap, 0, []⟩
    some ({ s with nextRing := s.nextRing + 1 }.setThread t
      { s.threads t with pc := .setThreadInfo ring })
  | .setThreadInfo ring =>
    let ring := { ring with threadId := t, threadName := threadName name }
    some (s.setThread t { s.threads t with pc := .register ring })
  | .register ring =>
    let th := s.threads t
    match s.registry with
    | some rings =>
      some ({ s with registry := some (registerRing rings ring) }.setThread t
        { th with buf := some ring, pc := .running, ran := th.ran + 1 })
    | none =>
      -- `expect` panics, and `ActiveGuard` clears the flag on the way out
      some (s.setThread t { th with
        active := false, pc := .idle, panicked := th.panicked + 1 })
  | .idle | .running => none

/-- A call can be made from outside, or from the closure of one. -/
def mayCall : SlotPc → Bool
  | .idle | .running => true
  | _ => false

def step (b : Build) (options : ι → Options) (names : Nat → Option String) (s : State ι) :
    Action ι → Option (State ι)
  | .configure i spawns => configureStep b (options i) s i spawns (s.calls i)
  | .log t => if mayCall (s.threads t).pc then some (enter s t) else none
  | .warmUp t =>
    if mayCall (s.threads t).pc then
      match s.registry with
      | some _ => some (enter s t)
      | none => some (s.setThread t { s.threads t with unready := (s.threads t).unready + 1 })
    else none
  | .thread t => threadStep b (names t) s t (s.threads t).pc
  | .leave t =>
    match (s.threads t).pc with
    | .running => some (s.setThread t { s.threads t with active := false, pc := .idle })
    | _ => none

end Startup

end Ticklog
