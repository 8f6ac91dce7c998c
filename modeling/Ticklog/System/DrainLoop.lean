import Ticklog.System.State

/-!
# The drain thread, access by access (`src/drain.rs`)

`Drain::run`: the loop of `sync_rings` and `poll_once` with its flush, and the final
sync, poll and flush after `shutdown`.
-/

namespace Ticklog

/-- Passes between two registry syncs on the classic path. -/
def syncEvery : Nat := 1024

/-- `Vec::swap_remove`: the last entry takes the place of entry `i`. -/
def swapRemove {α : Type} (l : List α) (i : Nat) : List α :=
  match l.getLast? with
  | some x => (l.set i x).dropLast
  | none => l

namespace Sys

variable (cfg : Config)

/-! ## `sync_rings` -/

/-- The ring the scan is about to evaluate `keep` on, where it evaluates it: the local
scans stop at the registry test when that already decides. -/
def syncSubject (s : Sys) : SyncPhase → Option Nat
  | .scanRegistry todo => todo.head?
  | .scanLocal todo => todo.head?.map Prod.fst
  | .reconcile i => (s.drain.rings[i]?).bind fun e => if e.1 ∈ s.registry then some e.1 else none
  | .addNew todo => todo.head?
  | .retain todo _ => todo.head?

/-- What a scan does with its current ring once `keep` is known. -/
def syncDecide (keep : Bool) (s : Sys) : SyncPhase → Sys
  | .scanRegistry (r :: rest) =>
    let finalize := if keep then s.drain.finalize else s.drain.finalize ++ [r]
    { s with drain := { s.drain with
        finalize := finalize, pc := .sync (.scanRegistry rest) false } }
  | .scanLocal ((r, _) :: rest) =>
    let finalize :=
      if ¬ keep ∧ r ∉ s.registry then s.drain.finalize ++ [r] else s.drain.finalize
    { s with drain := { s.drain with
        finalize := finalize, pc := .sync (.scanLocal rest) false } }
  | .reconcile i =>
    match s.drain.rings[i]? with
    | some (r, _) =>
      if keep then
        { s with drain := { s.drain with
            rings := s.drain.rings.set i (r, (s.rings r).serial),
            pc := .sync (.reconcile (i + 1)) false } }
      else
        { s with drain := { s.drain with
            rings := swapRemove s.drain.rings i, pc := .sync (.reconcile i) false } }
    | none => s
  | .addNew (r :: rest) =>
    let rings :=
      if keep ∧ r ∉ s.drain.rings.map Prod.fst then s.drain.rings ++ [(r, (s.rings r).serial)]
      else s.drain.rings
    { s with drain := { s.drain with rings := rings, pc := .sync (.addNew rest) false } }
  | .retain (r :: rest) kept =>
    let kept' := if keep then kept ++ [r] else kept
    s.drainTo (.sync (.retain rest kept') false)
  | _ => s

/-- A scan with nothing to evaluate: it is over, or the entry left the registry. -/
def syncNext (s : Sys) : SyncPhase → Sys
  | .scanRegistry _ => s.drainTo (.sync (.scanLocal s.drain.rings) false)
  | .scanLocal _ => s.drainTo (.sync (.reconcile 0) false)
  | .reconcile i =>
    if i < s.drain.rings.length then
      { s with drain := { s.drain with
          rings := swapRemove s.drain.rings i, pc := .sync (.reconcile i) false } }
    else s.drainTo (.sync (.addNew s.registry) false)
  | .addNew _ => s.drainTo (.sync (.retain s.registry []) false)
  | .retain _ kept => { s with registry := kept }.drainTo .finalNext

/-- One load of a scan, or its bookkeeping between two. -/
def syncStep (phase : SyncPhase) (half : Bool) (s : Sys) : Sys :=
  match syncSubject s phase with
  | none => syncNext s phase
  | some r =>
    if half then syncDecide (s.rings r).helperReserved s phase
    else if (s.rings r).live then syncDecide true s phase
    else s.drainTo (.sync phase true)

/-! ## `drain_ring` and what follows it -/

/-- Where a drain pass over `ring` goes on. -/
def afterPass (ctx : PassCtx) (ring : Nat) : LoopPc :=
  match ctx with
  | .final => if cfg.segmented then .markRecycled .final ring else .finalNext
  | .poll i serial => .retire i ring serial .handedOff

/-- Where `drain_recycle` returns to. -/
def afterRecycle (ctx : PassCtx) : LoopPc :=
  match ctx with
  | .final => .finalNext
  | .poll i _ => .entry i

/-- The path a pass delivers on. -/
def PassCtx.path : PassCtx → Path
  | .final => .final
  | .poll _ _ => .poll

/-- A delivery by the drain: the record goes to the sink; only `poll_once` notes it
as work. -/
def acceptAll (path : Path) (xs : List Rec) (s : Sys) : Sys :=
  { s with
    sink := s.sink ++ xs.map (Event.accept path)
    drain := { s.drain with
      hadWork := s.drain.hadWork || (decide (path ≠ .final) && !xs.isEmpty) } }

/-- One access of `drain_ring_inner` on the drain's side. -/
def passStep (ctx : PassCtx) (r : Nat) (p : Pass) (s : Sys) : Sys :=
  match p with
  | .finished => s.drainTo (.clear ctx r)
  | p =>
    let (p', ring', x) := Pass.step (s.rings r) p
    (acceptAll (PassCtx.path ctx) x.toList (s.setRing r ring')).drainTo (.pass ctx r p')

/-! ## `maybe_retire` -/

/-- One test of `maybe_retire`, or the removal under the registry lock. -/
def retireStep (i r k : Nat) (test : Retire) (s : Sys) : Option Sys :=
  let ring := s.rings r
  let keepEntry := s.drainTo (.entry (i + 1))
  match test with
  | .handedOff => some (if ring.handedOff then s.drainTo (.retire i r k .reserved) else keepEntry)
  | .reserved =>
    some (if ring.helperReserved then keepEntry else s.drainTo (.retire i r k .serial))
  | .serial => some (if ring.serial = k then s.drainTo (.retire i r k .head) else keepEntry)
  | .head => some (s.drainTo (.retire i r k (.tail ring.head)))
  | .tail head => some (if head = ring.tail then s.drainTo (.retire i r k .locked) else keepEntry)
  | .locked =>
    if s.registryLocked then none
    else if ring.serial ≠ k ∨ r ∉ s.registry then some keepEntry
    else
      some { s with
        registry := s.registry.filter (· ≠ r)
        drain := { s.drain with
          rings := swapRemove s.drain.rings i
          pc := if cfg.segmented then .markRecycled (.poll i k) r else .entry i } }

/-! ## `run` -/

/-- The top of the loop: leave it on `shutdown`, else sync on the cadence and poll. -/
def topStep (s : Sys) : Sys :=
  if s.shutdown then
    { s with drain := { s.drain with last := true, pc := .lock } }
  else
    let every := if cfg.segmented then 1 else syncEvery
    let due := s.drain.sinceSync % every = 0
    { s with drain := { s.drain with
        sinceSync := (s.drain.sinceSync + 1) % 2 ^ 32
        hadWork := false
        pc := if due then .lock else .entry 0 } }

/-- After `poll_once`: the final flush, another round, or the flush of an idle drain. -/
def decideStep (s : Sys) : Sys :=
  if s.drain.last then s.drainTo .flush
  else if s.drain.hadWork then { s with drain := { s.drain with dirty := true, pc := .top } }
  else if s.drain.dirty then s.drainTo .flush
  else s.drainTo .idle

/-- The drain's next access. -/
def drainStep (s : Sys) : Option Sys :=
  match s.drain.pc with
  | .top => some (topStep cfg s)
  | .lock =>
    if s.registryLocked then none
    else
      some { s with drain := { s.drain with
        finalize := [], pc := .sync (.scanRegistry s.registry) false } }
  | .sync phase half => some (syncStep phase half s)
  | .finalNext =>
    match s.drain.finalize with
    | r :: rest => some { s with drain := { s.drain with finalize := rest, pc := .mark .final r } }
    | [] => some { s with drain := { s.drain with hadWork := false, pc := .entry 0 } }
  | .entry i =>
    match s.drain.rings[i]? with
    | some (r, k) =>
      if (s.rings r).serial = k then some (s.drainTo (.reserved i r k))
      else some (s.drainTo (.entry (i + 1)))
    | none => if cfg.segmented then some (s.drainTo .takeLines) else some (s.drainTo .decide)
  | .reserved i r k =>
    if (s.rings r).helperReserved then some (s.drainTo (.entry (i + 1)))
    else some (s.drainTo (.mark (.poll i k) r))
  | .mark ctx r =>
    some ((s.setRing r { s.rings r with draining := true }).drainTo (.pass ctx r .loadTail))
  | .pass ctx r p => some (passStep ctx r p s)
  | .clear ctx r =>
    some ((s.setRing r { s.rings r with draining := false }).drainTo (afterPass cfg ctx r))
  | .retire i r k test => retireStep cfg i r k test s
  | .markRecycled ctx r =>
    if (s.rings r).recyclable && !(s.rings r).recycled then
      some ((s.setRing r { s.rings r with recycled := true }).drainTo (.recycle ctx r))
    else some (s.drainTo (afterRecycle ctx))
  | .recycle ctx r => some ((s.recycle r).drainTo (afterRecycle ctx))
  | .takeLines => some ({ s with lines := [] }.drainTo (.deliver s.lines))
  | .deliver (x :: rest) => some ((acceptAll .queue [x] s).drainTo (.deliver rest))
  | .deliver [] => some (s.drainTo .decide)
  | .decide => some (decideStep s)
  | .flush =>
    let s' := { s with sink := s.sink ++ [Event.flush] }
    if s.drain.last then some (s'.drainTo .stopped)
    else some { s' with drain := { s.drain with dirty := false, pc := .idle } }
  | .idle => some (s.drainTo .top)
  | .stopped => none

end Sys

end Ticklog
