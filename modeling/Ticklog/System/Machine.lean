import Ticklog.System.Producer
import Ticklog.System.DrainLoop

/-!
# The logger as a machine (`src/guard.rs`)

`Guard::drop`, and the interleaving of all agents: an action names the agent that makes
its next access.
-/

namespace Ticklog

open Lib

/-- One agent's next access. -/
inductive Action where
  /-- Thread `t` starts a log call of `total` bytes. -/
  | log (t total : Nat)
  /-- Thread `t` exits. -/
  | exit (t : Nat)
  /-- Thread `t` inside its log call. -/
  | thread (t : Nat)
  /-- Thread `t` wakes from `spare_cv` unasked. -/
  | wake (t : Nat)
  | drain
  | guard
deriving DecidableEq, Repr

namespace Sys

/-- The next access of `Guard::drop`: mark every registered ring dead under the lock,
store `shutdown`, join the drain. -/
def guardStep (s : Sys) : Option Sys :=
  match s.guard with
  | .alive => if s.registryLocked then none else some { s with guard := .marking s.registry }
  | .marking (r :: rest) =>
    some { s.setRing r { s.rings r with live := false } with guard := .marking rest }
  | .marking [] => some { s with guard := .signal }
  | .signal => some { s with shutdown := true, guard := .joining }
  | .joining => if s.drain.pc = .stopped then some { s with guard := .dropped } else none
  | .dropped => none

/-- The interleaving. -/
def step (cfg : Config) (s : Sys) : Action → Option Sys
  | .log t total => log t total s
  | .exit t => exit t s
  | .thread t => threadStep cfg t s
  | .wake t => wake t s
  | .drain => drainStep cfg s
  | .guard => guardStep s

/-- The records handed to the sink, in order. -/
def delivered (s : Sys) : List Rec :=
  s.sink.filterMap fun e =>
    match e with
    | .accept _ x => some x
    | .flush => none

end Sys

/-- The logger. -/
def system (cfg : Config) : Machine Sys Action where
  step := Sys.step cfg

end Ticklog
