import Mathlib.Logic.Function.Basic
import Ticklog.Pipeline.Call
import Ticklog.Ring.SpscSafe

/-!
# From logging calls to lines: threads, rings and the drain (`dispatch`, `drain_ring`)

Each thread `i` logs through a ring of its own, byte by byte: the size gate of `dispatch`,
`reserve`, the stores of `assemble` in any order, `publish`. One drain visits the rings, a
whole pass at a time and in any order, reads each frame byte by byte, formats the record and
gives the line to the sink. A formatting panic takes the drain down.

The ring's side of every step is the single-ring machine of `Ring.Spsc`; this machine says
which bytes are stored and what becomes of the bytes that are read. `logged` is history.
-/

namespace Ticklog.Pipeline

open Lib

variable {env : Env}

/-- A thread's ring, with the call the thread is in. -/
structure Feed (env : Env) where
  spsc : Spsc
  call : Option (Call env)
  /-- The indexes of the reserved slot that `assemble` has stored to. -/
  stored : List Nat
  /-- The calls whose records were published. -/
  logged : List (Call env)

/-- One access of a thread to its ring. -/
inductive Move (env : Env) where
  /-- The thread calls `dispatch`. -/
  | log (call : Call env)
  | loadTail
  | eobByte
  /-- `assemble` stores the byte at index `k` of the slot. -/
  | store (k : Nat)
  | publish
  /-- The call unwinds before it publishes. -/
  | unwind
  /-- The thread exits, or the guard marks its ring dead. -/
  | setDead

/-- The call of a thread, up to its first load of `tail`: the size gate, then `reserve`. -/
def log (g : Geometry) (fast : Bool) (call : Call env) (f : Feed env) : Option (Feed env) :=
  if f.spsc.producer = .idle then
    let total := macroTotalSize call.args
    if maxRecordSize < total then some f
    else (Spsc.reserve g fast total f.spsc).map fun spsc =>
      { f with spsc, call := some call, stored := [] }
  else none

/-- The byte `assemble` has at index `k`, given what the slot holds. -/
def assembled (call : Call env) (slot : Nat → UInt8) (k : Nat) : Option UInt8 :=
  match logMacro slot call.level call.timestamp call.site call.args with
  | some (some dst) => some (dst k)
  | _ => none

/-- `assemble` stores one byte of the record. -/
def store (g : Geometry) (k : Nat) (f : Feed env) : Option (Feed env) :=
  match f.spsc.producer, f.call with
  | .filling head total, some call => do
    let byte ← assembled call (fun j => f.spsc.ring.data (g.dst head total + j)) k
    let spsc ← Spsc.write g k byte f.spsc
    some { f with spsc, stored := k :: f.stored }
  | _, _ => none

/-- `publish`, once `assemble` has returned: every byte of the slot is stored. -/
def publish (g : Geometry) (f : Feed env) : Option (Feed env) :=
  match f.spsc.producer, f.call with
  | .filling _ total, some call =>
    if ∀ k < total, k ∈ f.stored then
      (Spsc.publish g f.spsc).map fun spsc =>
        { spsc, call := none, stored := [], logged := f.logged ++ [call] }
    else none
  | _, _ => none

/-- What one access of the thread makes of its feed. -/
def Feed.step (g : Geometry) (fast : Bool) (policy : Backpressure) (f : Feed env) :
    Move env → Option (Feed env)
  | .log call => log g fast call f
  | .loadTail => (Spsc.loadTail g policy f.spsc).map fun spsc => { f with spsc }
  | .eobByte => (Spsc.eobByte g f.spsc).map fun spsc => { f with spsc }
  | .store k => store g k f
  | .publish => publish g f
  | .unwind => (Spsc.abandon f.spsc).map fun spsc => { f with spsc, call := none, stored := [] }
  | .setDead => some { f with spsc := { f.spsc with ring.live := false } }

/-- The record the drain's next access completes, if it does. -/
def completed (s : Spsc) : Option (List UInt8) :=
  match s.drain with
  | .readRecord _ _ total acc => if acc.length < total then none else some acc
  | _ => none

/-- A line as the sink gets it, and the thread whose ring it came from. -/
structure Delivery (ι : Type) where
  ring : ι
  text : List UInt8
  level : Level

/-- Who makes the next access. -/
inductive Action (env : Env) (ι : Type) where
  | thread (i : ι) (move : Move env)
  /-- The drain, to ring `i`. -/
  | drain (i : ι)

/-- All rings, and the drain. -/
structure State (env : Env) (ι : Type) where
  feeds : ι → Feed env
  /-- The ring the drain is in a pass over. -/
  visiting : Option ι
  /-- The drain thread is gone. -/
  panicked : Bool
  lines : List (Delivery ι)

section

variable {ι : Type} [DecidableEq ι]

/-- Fresh rings, each with whatever its storage holds. -/
def State.init (data : ι → Nat → UInt8) : State env ι where
  feeds i := { spsc := .init (data i), call := none, stored := [], logged := [] }
  visiting := none
  panicked := false
  lines := []

/-- The lines that came from ring `i`. -/
def State.linesOf (s : State env ι) (i : ι) : List (List UInt8 × Level) :=
  (s.lines.filter fun d => d.ring = i).map fun d => (d.text, d.level)

variable (g : Geometry) (fast : Bool) (policy : Backpressure) (pattern : LinePattern)
  (thread : ι → ThreadInfo)

/-- The drain's next access to ring `i`, with the formatting and the hand-over of a record it
completes. Another ring's turn comes only between two passes. -/
def drain (i : ι) (s : State env ι) : Option (State env ι) :=
  if s.panicked = false ∧ (s.visiting = none ∨ s.visiting = some i) then
    let f := s.feeds i
    let spsc := Spsc.drainStep g f.spsc
    let moved := { s with
      feeds := Function.update s.feeds i { f with spsc }
      visiting := if spsc.drain = .idle then none else some i }
    match completed f.spsc with
    | none => some moved
    | some record =>
      match decodeAndFormat env pattern.template (thread i).id (thread i).name record [] with
      | none => some { s with panicked := true }
      | some (_, text) =>
        some { moved with lines := s.lines ++ [⟨i, text, levelOf record⟩] }
  else none

/-- One visit to ring `i` that nothing comes between: the accesses of one pass, the last of
which ends it. -/
inductive Visit (i : ι) : State env ι → State env ι → Prop where
  | last {s s' : State env ι} :
      drain g pattern thread i s = some s' → s'.visiting = none → Visit i s s'
  | access {s s₁ s' : State env ι} :
      drain g pattern thread i s = some s₁ → s₁.visiting = some i → Visit i s₁ s' →
      Visit i s s'

/-- The interleaving of all threads and the drain. -/
def step (s : State env ι) : Action env ι → Option (State env ι)
  | .drain i => drain g pattern thread i s
  | .thread i move => (Feed.step g fast policy (s.feeds i) move).map fun f =>
      { s with feeds := Function.update s.feeds i f }

end

end Ticklog.Pipeline

namespace Ticklog

open Lib

/-- The machine of all threads and the drain. -/
def pipeline (g : Geometry) (fast : Bool) (policy : Backpressure) {env : Env}
    (pattern : LinePattern) {ι : Type} [DecidableEq ι] (thread : ι → Pipeline.ThreadInfo) :
    Machine (Pipeline.State env ι) (Pipeline.Action env ι) where
  step := Pipeline.step g fast policy pattern thread

end Ticklog
