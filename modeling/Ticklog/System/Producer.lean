import Ticklog.System.State

/-!
# A logging thread, access by access (`src/thread_buf.rs`, `src/segments.rs`)

`with_thread_buf` on the first log call, then the loop of `reserve_with_policy`:
reserve, publish, or hand the full segment to the drain and switch to another one. A
NanoLog thread that finds the pool empty reserves its own segment, formats it into the
line queue and recycles it (`take_pooled`, `format_helper_segment`).
-/

namespace Ticklog

namespace Sys

variable (cfg : Config)

/-- A log call of `total` bytes starts. -/
def log (t total : Nat) (s : Sys) : Option Sys :=
  let th := s.threads t
  if th.pc = .idle ∧ headerSize ≤ total ∧ total ≤ maxRecordSize then
    match th.ring with
    | none => some (s.setThread t { th with pc := .initRing, total := total })
    | some _ => some (s.setThread t { th with pc := .reserve, total := total })
  else none

/-- `ThreadBuf::drop` at thread exit: mark the ring dead. No lock is taken. -/
def exit (t : Nat) (s : Sys) : Option Sys :=
  let th := s.threads t
  if th.pc = .idle then
    match th.ring with
    | some r =>
      some ((s.setRing r { s.rings r with live := false }).setThread t
        { th with pc := .exited, ring := none })
    | none => some (s.setThread t { th with pc := .exited })
  else none

/-- A wakeup of `spare_cv` without a notification. -/
def wake (t : Nat) (s : Sys) : Option Sys :=
  if (s.threads t).pc = .asleep then some (s.goto t .woken) else none

/-- Carves a new segment or allocates a new ring. -/
def alloc (t : Nat) (s : Sys) : Sys :=
  let r := s.nextRing
  { s.setRing r (Ring.fresh false) with nextRing := r + 1 }.goto t (.setInfo r)

/-- Pops a pool spare; `none` leaves the pool empty. -/
def popSpare (s : Sys) : Option (Nat × Sys) :=
  match s.spares with
  | [] => none
  | r :: rest => some (r, { s with spares := rest })

/-- `register_ring`: a fresh serial, and an entry in the registry unless the ring
object has one. -/
def registerRing (r : Nat) (s : Sys) : Sys :=
  let s' := s.setRing r { s.rings r with serial := s.nextSerial }
  { s' with
    nextSerial := s.nextSerial + 1
    registered := s.registered ++ [r]
    registry := if r ∈ s.registry then s.registry else s.registry ++ [r] }

/-- Where a thread goes on after `reset_for_reuse`. -/
def afterReset (why : Reset) (r : Nat) : ThreadPc :=
  match why with
  | .initial | .handoff => .setInfo r
  | .helper => .recycle

/-- The capacity check of `reserve` and what the policy does with a full ring. -/
def reserve (t r : Nat) (s : Sys) : Sys :=
  if (s.rings r).hasRoom cfg.geometry (s.threads t).total then s.goto t .publish
  else
    match cfg.policy with
    | .drop => s.goto t .idle
    | .block => s.goto t .spin
    | .nanoLog | .quill => s.goto t .markHandedOff

/-- `publish`: the record becomes visible. -/
def publish (t r : Nat) (s : Sys) : Sys :=
  let th := s.threads t
  let x : Rec := ⟨t, th.seq, r, th.total⟩
  { (s.setRing r { s.rings r with cells := (s.rings r).cells ++ [x] }).setThread t
      { th with pc := .idle, seq := th.seq + 1 } with
    published := s.published ++ [x] }

/-- The next access of a thread whose current ring is `r`. -/
def threadRingStep (t r : Nat) (s : Sys) : ThreadPc → Option Sys
  | .reserve => some (reserve cfg t r s)
  | .spin => if (s.rings r).live then some (s.goto t .reserve) else some (s.goto t .idle)
  | .publish => some (publish t r s)
  | .markHandedOff =>
    let s' := s.setRing r { s.rings r with handedOff := true }
    if cfg.policy = .nanoLog then some (s'.goto t .takeSpare) else some (s'.goto t .allocFresh)
  | .takeSpare =>
    match popSpare s with
    | some (r', s') => some (s'.goto t (.reset .handoff r' 0))
    | none => some (s.goto t .reserveHelper)
  | .allocFresh => some (alloc t s)
  | .reserveHelper =>
    some ((s.setRing r { s.rings r with helperReserved := true }).goto t .formatWait)
  | .formatWait => if (s.rings r).draining then some s else some (s.goto t (.format .loadTail []))
  | .format .finished payload => some (s.goto t (.pushLines payload))
  | .format p payload =>
    let (p', ring', x) := Pass.step (s.rings r) p
    some ((s.setRing r ring').goto t (.format p' (payload ++ x.toList)))
  | .pushLines payload =>
    some ({ s with lines := s.lines ++ payload }.goto t (.reset .helper r 0))
  | .recycle => some ((s.recycle r).goto t .poolTake)
  | .poolTake =>
    match popSpare s with
    | some (r', s') => some (s'.goto t (.reset .handoff r' 0))
    | none => some (s.goto t .poolLive)
  | .poolLive => if (s.rings r).live then some (s.goto t .poolWait) else some (s.goto t .idle)
  | .poolWait => some (s.goto t .asleep)
  | .woken =>
    match popSpare s with
    | some (r', s') => some (s'.goto t (.reset .handoff r' 0))
    | none => some (s.goto t .poolTake)
  | _ => none

/-- The next access of thread `t` inside its log call. -/
def threadStep (t : Nat) (s : Sys) : Option Sys :=
  let th := s.threads t
  match th.pc with
  | .initRing =>
    if cfg.segmented then
      match popSpare s with
      | some (r, s') => some (s'.goto t (.reset .initial r 0))
      | none => some (alloc t s)
    else some (alloc t s)
  | .reset why r k =>
    let s' := s.setRing r ((s.rings r).resetStore k)
    if k + 1 < Ring.resetSteps then some (s'.goto t (.reset why r (k + 1)))
    else some (s'.goto t (afterReset why r))
  | .setInfo r =>
    some ((s.setRing r { s.rings r with threadId := t }).goto t (.register r))
  | .register r =>
    if s.registryLocked then none else some ((s.registerRing r).goto t (.switch r))
  | .switch r => some (s.setThread t { th with pc := .reserve, ring := some r })
  | pc =>
    match th.ring with
    | some r => threadRingStep cfg t r s pc
    | none => none

end Sys

end Ticklog
