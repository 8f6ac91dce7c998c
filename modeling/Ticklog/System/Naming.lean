import Ticklog.System.Once

/-!
# Whose name a line shows (`drain_ring_inner` in `src/drain.rs`)

Records carry no thread. A formatter reads the ring's `thread_id` once, at the start of its
pass, and every line of the pass shows that id. This machine is the logger with these reads as
accesses of their own: a formatter at the start of a pass takes the id before it goes on, and
what it renders is recorded with the id it took. Forgetting the ids gives back the logger.
-/

namespace Ticklog

open Lib

/-- The logger, the ids its formatters took, and what they rendered under them. -/
structure Labelled where
  sys : Sys
  /-- `ring_thread_id` of the drain's pass, once it is read. -/
  drainId : Option Nat
  /-- As `drainId`, of each helper's pass. -/
  helperId : Nat → Option Nat
  /-- Every record rendered so far, with the id its line shows. -/
  rendered : List (Rec × Nat)

inductive LabelAction where
  | move (a : Action)
  /-- The drain reads the id of the ring it begins to drain. -/
  | drainLooks
  /-- Thread `t`, about to format as a helper, reads the id of its ring. -/
  | helperLooks (t : Nat)
deriving DecidableEq, Repr

namespace Labelled

open Sys

def init (cfg : Config) : Labelled where
  sys := Sys.init cfg
  drainId := none
  helperId := fun _ => none
  rendered := []

/-- The record the drain's next access hands over. -/
def drainReads (s : Sys) : Option Rec :=
  match s.drain.pc with
  | .pass _ r p => (Pass.step (s.rings r) p).2.2
  | _ => none

/-- The record the helper's next access collects. -/
def helperReads (s : Sys) (t : Nat) : Option Rec :=
  match formatting (s.threads t) with
  | some (r, p) => (Pass.step (s.rings r) p).2.2
  | none => none

/-- What an access renders. -/
def renders (l : Labelled) : Action → List (Rec × Nat)
  | .drain =>
    match drainReads l.sys, l.drainId with
    | some x, some id => [(x, id)]
    | _, _ => []
  | .thread t =>
    match helperReads l.sys t, l.helperId t with
    | some x, some id => [(x, id)]
    | _, _ => []
  | _ => []

/-- The agent has yet to read the id. -/
def waits (l : Labelled) : Action → Bool
  | .drain =>
    match l.sys.drain.pc, l.drainId with
    | .pass _ _ .loadTail, none => true
    | _, _ => false
  | .thread t =>
    match formatting (l.sys.threads t), l.helperId t with
    | some (_, .loadTail), none => true
    | _, _ => false
  | _ => false

/-- The drain is inside `drain_ring_inner`. -/
def draining : LoopPc → Bool
  | .pass _ _ _ => true
  | _ => false

/-- The state after an access; an id is forgotten with its pass. -/
def after (l : Labelled) (a : Action) (s : Sys) : Labelled where
  sys := s
  drainId := if draining s.drain.pc then l.drainId else none
  helperId := fun t => if (formatting (s.threads t)).isSome then l.helperId t else none
  rendered := l.rendered ++ l.renders a

def step (cfg : Config) (l : Labelled) : LabelAction → Option Labelled
  | .move a => if l.waits a then none else (Sys.step cfg l.sys a).map (l.after a)
  | .drainLooks =>
    match l.sys.drain.pc, l.drainId with
    | .pass _ r .loadTail, none => some { l with drainId := some (l.sys.rings r).threadId }
    | _, _ => none
  | .helperLooks t =>
    match formatting (l.sys.threads t), l.helperId t with
    | some (r, .loadTail), none =>
      some { l with
        helperId := Function.update l.helperId t (some (l.sys.rings r).threadId) }
    | _, _ => none

end Labelled

/-- The logger with the names its lines show. -/
def labelled (cfg : Config) : Machine Labelled LabelAction where
  step := Labelled.step cfg

namespace Labelled

open Sys

variable {cfg : Config} {l l' : Labelled}

/-! ## When a name holds for a pass -/

/-- Nobody renames a ring during the drain's pass over it. -/
def Unrenamed (s : Sys) : Action → Prop
  | .thread t => ∀ r, (s.threads t).pc = .setInfo r → passing s.drain.pc ≠ some r
  | _ => True

/-- Nothing is asked of a step, but under NanoLog, where segments change hands. -/
def NameOk (cfg : Config) (l : Labelled) : LabelAction → Prop
  | .move a => cfg.policy = .nanoLog → FormatOk l.sys a ∧ Unrenamed l.sys a
  | _ => True

/-- The rings' names, in a state of the logger. -/
structure Identified (s : Sys) : Prop where
  /-- A ring's records are its thread's. -/
  cells : ∀ r x, x ∈ (s.rings r).cells → x.thread = (s.rings r).threadId
  /-- Nobody reads what a rewind left in the storage. -/
  reads : ∀ r p x, Reader s r p → (Pass.step (s.rings r) p).2.2 = some x →
    x ∈ (s.rings r).cells
  drain : ∀ ctx r p, s.drain.pc = .pass ctx r p → r < s.nextRing
  /-- A helper's ring is nobody else's to rename. -/
  helper : ∀ t r p, formatting (s.threads t) = some (r, p) →
    r < s.nextRing ∧ ∀ t', (s.threads t').pc ≠ .setInfo r

/-- The ids taken are those of the rings, and everything on its way to the sink, or there, has
been rendered under its thread's id. -/
structure Inv (l : Labelled) : Prop where
  drain : ∀ id, l.drainId = some id →
    ∃ ctx r p, l.sys.drain.pc = .pass ctx r p ∧ id = (l.sys.rings r).threadId
  drainTook : ∀ ctx r p, l.sys.drain.pc = .pass ctx r p → p ≠ .loadTail → l.drainId ≠ none
  helper : ∀ t id, l.helperId t = some id →
    ∃ r p, formatting (l.sys.threads t) = some (r, p) ∧ id = (l.sys.rings r).threadId
  helperTook : ∀ t r p, formatting (l.sys.threads t) = some (r, p) → p ≠ .loadTail →
    l.helperId t ≠ none
  right : ∀ e, e ∈ l.rendered → e.2 = e.1.thread
  delivered : ∀ x, x ∈ l.sys.delivered → ∃ id, (x, id) ∈ l.rendered
  queued : ∀ x, x ∈ l.sys.queued → ∃ id, (x, id) ∈ l.rendered
  collected : ∀ t r payload, loaded (l.sys.threads t) = some (r, payload) →
    ∀ x, x ∈ payload → ∃ id, (x, id) ∈ l.rendered

theorem init_inv : Inv (init cfg) := ⟨nofun, nofun, nofun, nofun, nofun, nofun, nofun, nofun⟩

end Labelled

end Ticklog
