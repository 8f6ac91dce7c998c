import Mathlib.Logic.Function.Basic
import Ticklog.Lib.Machine
import Ticklog.System.Ring

/-!
# The state of the whole logger

Everything the logging threads, the drain thread and the guard share or keep for
themselves: the ring objects (by identity, a number), the registry, the segment pool
and its line queue (`src/segments.rs`), each thread's buffer and position inside a log
call (`src/thread_buf.rs`), the drain's private list and position inside its loop
(`src/drain.rs`), and the guard (`src/guard.rs`). `sink`, `published` and `registered`
are history.

Each position names the shared access its agent makes next.
-/

namespace Ticklog

/-- What `configure!` fixes. -/
structure Config where
  policy : Backpressure
  geometry : Geometry
  /-- Segments the NanoLog pool is preallocated with. -/
  poolSize : Nat

/-- A segmented policy is active. -/
def Config.segmented (cfg : Config) : Bool :=
  match cfg.policy with
  | .nanoLog | .quill => true
  | .drop | .block => false

theorem Config.segmented_of_nanoLog {cfg : Config} (h : cfg.policy = .nanoLog) :
    cfg.segmented = true := by
  unfold Config.segmented
  rw [h]

/-- How a record reached the sink: the final drain of a dead ring in `sync_rings`, the
inline drain of `poll_once`, or the helper queue. -/
inductive Path where
  | final
  | poll
  | queue
deriving DecidableEq, Repr

/-- What the sink sees. -/
inductive Event where
  | accept (path : Path) (x : Rec)
  | flush
deriving DecidableEq, Repr

/-- Why a thread rewinds a segment: the spare it starts with, the spare it switches
to, or the segment it just formatted as a helper. -/
inductive Reset where
  | initial
  | handoff
  | helper
deriving DecidableEq, Repr

/-- Where a thread stands inside a log call. -/
inductive ThreadPc where
  | idle
  /-- First log call: take or make the thread's first ring. -/
  | initRing
  /-- `k` stores of `reset_for_reuse` done. -/
  | reset (why : Reset) (ring k : Nat)
  /-- `set_thread_info`. -/
  | setInfo (ring : Nat)
  /-- `register_ring`. -/
  | register (ring : Nat)
  /-- `tb.ring = new_ring`. -/
  | switch (ring : Nat)
  /-- The capacity check of `reserve`. -/
  | reserve
  /-- `Block` on a full ring: load `live`. -/
  | spin
  /-- Space reserved and the record written: store `head`. -/
  | publish
  | markHandedOff
  /-- NanoLog: `try_take_spare` before blocking. -/
  | takeSpare
  /-- Quill: `alloc_fresh`. -/
  | allocFresh
  | reserveHelper
  /-- `format_segment`: test `draining`. -/
  | formatWait
  /-- The helper inside `drain_ring_inner`, with the payloads collected so far. -/
  | format (p : Pass) (payload : List Rec)
  | pushLines (payload : List Rec)
  /-- The helper returns its segment to the pool. -/
  | recycle
  /-- `take_pooled`: `try_take_spare`. -/
  | poolTake
  /-- `take_pooled`: test `live` of the current ring. -/
  | poolLive
  /-- `take_pooled`: lock the pool and wait on `spare_cv`. -/
  | poolWait
  | asleep
  /-- Awake again, holding the pool lock. -/
  | woken
  | exited
deriving DecidableEq, Repr

/-- A logging thread. -/
structure Thread where
  pc : ThreadPc
  /-- `tb.ring`; `none` before the first log call and after exit. -/
  ring : Option Nat
  /-- `total_size` of the log call in progress. -/
  total : Nat
  /-- Records published so far. -/
  seq : Nat
deriving DecidableEq, Repr

/-- The scans of `sync_rings` under the registry lock. -/
inductive SyncPhase where
  /-- Collect the registry's dead rings. -/
  | scanRegistry (todo : List Nat)
  /-- Collect the local list's dead rings that left the registry. -/
  | scanLocal (todo : List (Nat × Nat))
  /-- Reconcile the local entry `i`. -/
  | reconcile (i : Nat)
  /-- Add newly registered rings. -/
  | addNew (todo : List Nat)
  /-- `registry.retain(keep)`. -/
  | retain (todo kept : List Nat)
deriving DecidableEq, Repr

/-- Which caller a drain pass returns to. -/
inductive PassCtx where
  | final
  | poll (i serial : Nat)
deriving DecidableEq, Repr

/-- The tests of `maybe_retire`, each one load. -/
inductive Retire where
  | handedOff
  | reserved
  | serial
  | head
  | tail (head : Nat)
  /-- The re-check and removal under the registry lock. -/
  | locked
deriving DecidableEq, Repr

/-- Where the drain stands inside `run`. -/
inductive LoopPc where
  /-- Top of the loop: load `shutdown`. -/
  | top
  /-- `sync_rings`: lock the registry. -/
  | lock
  /-- A scan of `sync_rings`; `half` once the pending `keep` has read `live == false`. -/
  | sync (phase : SyncPhase) (half : Bool)
  /-- Next ring of the finalize list. -/
  | finalNext
  /-- `poll_once`: the serial check of entry `i`. -/
  | entry (i : Nat)
  /-- The `helper_reserved` check of entry `i`. -/
  | reserved (i ring serial : Nat)
  | mark (ctx : PassCtx) (ring : Nat)
  | pass (ctx : PassCtx) (ring : Nat) (p : Pass)
  | clear (ctx : PassCtx) (ring : Nat)
  | retire (i ring serial : Nat) (test : Retire)
  /-- `drain_recycle`: `mark_recycled`. -/
  | markRecycled (ctx : PassCtx) (ring : Nat)
  /-- `recycle`: push to the pool and notify. -/
  | recycle (ctx : PassCtx) (ring : Nat)
  | takeLines
  | deliver (todo : List Rec)
  /-- `poll_once` returned. -/
  | decide
  | flush
  /-- End of an iteration that found no work. -/
  | idle
  | stopped
deriving DecidableEq, Repr

/-- The drain thread's private state. -/
structure Drain where
  pc : LoopPc
  /-- `(ring, registration serial)`. -/
  rings : List (Nat × Nat)
  sinceSync : Nat
  dirty : Bool
  hadWork : Bool
  /-- The loop is left: the final sync and poll are under way. -/
  last : Bool
  /-- The dead rings `sync_rings` still has to drain. -/
  finalize : List Nat
deriving DecidableEq, Repr

/-- Where `Guard::drop` stands. -/
inductive GuardPc where
  | alive
  /-- Marking rings dead under the registry lock. -/
  | marking (todo : List Nat)
  /-- About to store `shutdown`. -/
  | signal
  | joining
  | dropped
deriving DecidableEq, Repr

/-- The whole logger. -/
structure Sys where
  rings : Nat → Ring
  nextRing : Nat
  registry : List Nat
  nextSerial : Nat
  /-- The pool, last pushed first. -/
  spares : List Nat
  lines : List Rec
  threads : Nat → Thread
  drain : Drain
  guard : GuardPc
  shutdown : Bool
  /-- What the sink was handed, in order. -/
  sink : List Event
  /-- The records published, in order. -/
  published : List Rec
  /-- The ring objects registered, in order: entry `k` was given serial `k`. -/
  registered : List Nat

/-- A thread that has not logged yet. -/
def Thread.new : Thread where
  pc := .idle
  ring := none
  total := 0
  seq := 0

/-- After `configure!`: the pool preallocated, the drain at the top of its loop. -/
def Sys.init (cfg : Config) : Sys where
  rings := fun _ => Ring.fresh (cfg.policy = .nanoLog)
  nextRing := if cfg.policy = .nanoLog then cfg.poolSize else 0
  registry := []
  nextSerial := 0
  spares := if cfg.policy = .nanoLog then (List.range cfg.poolSize).reverse else []
  lines := []
  threads := fun _ => Thread.new
  drain := ⟨.top, [], 0, false, false, false, []⟩
  guard := .alive
  shutdown := false
  sink := []
  published := []
  registered := []

namespace Sys

def setRing (s : Sys) (r : Nat) (v : Ring) : Sys :=
  { s with rings := Function.update s.rings r v }

def setThread (s : Sys) (t : Nat) (v : Thread) : Sys :=
  { s with threads := Function.update s.threads t v }

/-- Moves thread `t` to another position. -/
def goto (s : Sys) (t : Nat) (pc : ThreadPc) : Sys :=
  s.setThread t { s.threads t with pc := pc }

/-- Moves the drain to another position. -/
def drainTo (s : Sys) (pc : LoopPc) : Sys :=
  { s with drain := { s.drain with pc := pc } }

/-- The registry mutex is held across several accesses. -/
def registryLocked (s : Sys) : Bool :=
  (match s.drain.pc with
    | .sync _ _ => true
    | _ => false) ||
  (match s.guard with
    | .marking _ => true
    | _ => false)

/-- `keep` in `sync_rings`: live, or reserved by a helper. -/
def keep (s : Sys) (r : Nat) : Bool := (s.rings r).live || (s.rings r).helperReserved

/-- `spare_cv.notify_all()`. -/
def notifyAll (s : Sys) : Sys :=
  { s with threads := fun t =>
      if (s.threads t).pc = .asleep then { s.threads t with pc := .woken } else s.threads t }

/-- `Segments::recycle`. -/
def recycle (s : Sys) (r : Nat) : Sys := notifyAll { s with spares := r :: s.spares }

end Sys

end Ticklog
