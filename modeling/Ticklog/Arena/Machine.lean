import Mathlib.Logic.Function.Basic
import Ticklog.Lib.Machine
import Ticklog.Arena.Regions

/-!
# Threads that share the arena, access by access (`vendor/r3/src/typed_arena.rs`)

`alloc_bytes` takes the thread's primary region, then the spill regions under their lock, then
maps a new one. A region's cursor is moved by a weak compare-exchange, so a thread may lose the
race for a block, or fail for no reason, and try again behind the cursor it read. `given` is
history: the blocks handed out so far.
-/

namespace Ticklog

open Lib

/-- What the arena was made for: `with_regions(regions, elements)` over elements of `elemSize`
bytes aligned to `2^alignBits`. -/
structure ArenaConfig where
  plat : Platform
  regions : Nat
  elements : Nat
  elemSize : Nat
  alignBits : Nat
  align_le : alignBits ≤ 62

namespace ArenaConfig

def align (cfg : ArenaConfig) : Nat := 2 ^ cfg.alignBits

def total (cfg : ArenaConfig) : Nat := totalBytes cfg.regions cfg.elements cfg.elemSize

/-- The size of the mapped buffer. -/
def mapped (cfg : ArenaConfig) : Nat := arenaSize cfg.plat cfg.total

/-- The size of a new spill region. -/
def spillSize (cfg : ArenaConfig) : Nat := Ticklog.spillSize cfg.plat cfg.total cfg.regions

end ArenaConfig

/-- Which region a thread bumps in. -/
inductive Place where
  | primary (i : Nat)
  | spill (j : Nat)
deriving DecidableEq, Repr

/-- Where a thread stands inside `alloc_bytes`. -/
inductive AllocPc where
  | idle
  /-- `thread_slot`: the thread has no region of this arena yet. -/
  | takeSlot (size : Nat)
  /-- `region_alloc`: about to load the cursor. -/
  | load (place : Place) (size : Nat)
  /-- About to exchange the cursor, read as `cur`. -/
  | exchange (place : Place) (size cur : Nat)
  | lockSpill (size : Nat)
  /-- The next spill region, under the lock. -/
  | scanSpill (j size : Nat)
  /-- No spill region has room: about to map one. -/
  | mapSpill (size : Nat)
  /-- The block is found; about to release the lock. -/
  | unlock
  /-- `expect("spill region large enough")` fired. -/
  | panicked
deriving DecidableEq, Repr

/-- A thread: its position, and the thread-local `SLOT`, an arena's key and a region. -/
structure AllocThread where
  pc : AllocPc
  slot : Nat × Nat
deriving DecidableEq, Repr

/-- The arena, the threads that use it, and the blocks handed out. -/
structure Arena where
  primary : List ArenaRegion
  spill : List ArenaRegion
  /-- The thread that holds the lock of `spill`. -/
  lock : Option Nat
  nextSlot : Nat
  threads : Nat → AllocThread
  given : List Span

/-- One thread's next access. -/
inductive ArenaAction where
  /-- Thread `t` asks for `size` bytes. -/
  | alloc (t size : Nat)
  | thread (t : Nat)
  /-- The exchange of thread `t` fails although nobody moved the cursor. -/
  | spurious (t : Nat)
  /-- The system maps a spill region for thread `t` at `ptr`. -/
  | map (t ptr : Nat)
deriving DecidableEq, Repr

namespace Arena

variable (cfg : ArenaConfig)

/-- `with_regions`, the buffer mapped at `base`. -/
def init (base : Nat) : Arena where
  primary := primaryRegions cfg.plat cfg.regions cfg.elements cfg.elemSize base
  spill := []
  lock := none
  nextSlot := 0
  threads := fun _ => ⟨.idle, wordSize - 1, wordSize - 1⟩
  given := []

/-- `arena_key`: the address of the first region. -/
def key (s : Arena) : Nat := (s.primary.head?.map ArenaRegion.ptr).getD 0

def setThread (s : Arena) (t : Nat) (th : AllocThread) : Arena :=
  { s with threads := Function.update s.threads t th }

/-- Moves thread `t` to another position. -/
def goto (s : Arena) (t : Nat) (pc : AllocPc) : Arena :=
  s.setThread t { s.threads t with pc := pc }

def region? (s : Arena) : Place → Option ArenaRegion
  | .primary i => s.primary[i]?
  | .spill j => s.spill[j]?

def setRegion (s : Arena) (place : Place) (r : ArenaRegion) : Arena :=
  match place with
  | .primary i => { s with primary := s.primary.set i r }
  | .spill j => { s with spill := s.spill.set j r }

/-- Where a full region leads to. -/
def afterFull (place : Place) (size : Nat) : AllocPc :=
  match place with
  | .primary _ => .lockSpill size
  | .spill j => .scanSpill (j + 1) size

/-- Where a block leads to: a spill block still holds the lock. -/
def afterBlock (place : Place) : AllocPc :=
  match place with
  | .primary _ => .idle
  | .spill _ => .unlock

/-- The body of the loop of `region_alloc` up to the exchange, the cursor read as `cur`. -/
def tryBump (t : Nat) (place : Place) (size cur : Nat) (r : ArenaRegion) (s : Arena) : Arena :=
  match r.bump cur size cfg.align with
  | some _ => s.goto t (.exchange place size cur)
  | none => s.goto t (afterFull place size)

/-- `alloc_bytes` starts: `thread_slot` trusts the cached region if it is of this arena. -/
def alloc (t size : Nat) (s : Arena) : Option Arena :=
  let th := s.threads t
  if th.pc = .idle ∧ 0 < size then
    if th.slot.1 = s.key ∧ th.slot.2 < max s.primary.length 1 then
      some (s.goto t (.load (.primary th.slot.2) size))
    else some (s.goto t (.takeSlot size))
  else none

/-- The exchange: the block is handed out if nobody moved the cursor. -/
def exchange (t : Nat) (place : Place) (size cur : Nat) (r : ArenaRegion) (s : Arena) :
    Arena :=
  match r.bump cur size cfg.align with
  | some (addr, newCur) =>
    if r.used = cur then
      { (s.setRegion place { r with used := newCur }).goto t (afterBlock place) with
        given := s.given ++ [⟨addr, size⟩] }
    else tryBump cfg t place size r.used r s
  | none => s

/-- The next access of thread `t`. -/
def threadStep (t : Nat) (s : Arena) : Option Arena :=
  match (s.threads t).pc with
  | .idle | .mapSpill _ | .panicked => none
  | .takeSlot size =>
    let idx := s.nextSlot % max s.primary.length 1
    some { s.setThread t ⟨.load (.primary idx) size, s.key, idx⟩ with
      nextSlot := wrappingAdd s.nextSlot 1 }
  | .load place size =>
    match s.region? place with
    | some r => some (tryBump cfg t place size r.used r s)
    | none => none
  | .exchange place size cur =>
    match s.region? place with
    | some r => some (exchange cfg t place size cur r s)
    | none => none
  | .lockSpill size =>
    if s.lock = none then some { s.goto t (.scanSpill 0 size) with lock := some t } else none
  | .scanSpill j size =>
    if j < s.spill.length then some (s.goto t (.load (.spill j) size))
    else some (s.goto t (.mapSpill size))
  | .unlock => some { s.goto t .idle with lock := none }

/-- The exchange of thread `t` fails for no reason. -/
def spurious (t : Nat) (s : Arena) : Option Arena :=
  match (s.threads t).pc with
  | .exchange place size _ =>
    match s.region? place with
    | some r => some (tryBump cfg t place size r.used r s)
    | none => none
  | _ => none

/-- What the system may map: addresses nobody uses, in the lower half of the address space. -/
def Unmapped (s : Arena) (a : Span) : Prop :=
  a.stop ≤ 2 ^ 63 ∧ ∀ r ∈ s.primary ++ s.spill, r.span.Apart a

instance (s : Arena) (a : Span) : Decidable (s.Unmapped a) :=
  inferInstanceAs (Decidable (_ ∧ _))

/-- `take_spill_region`, the first block of the new region, and its `push`. -/
def mapSpill (t ptr : Nat) (s : Arena) : Option Arena :=
  match (s.threads t).pc with
  | .mapSpill size =>
    if s.Unmapped ⟨ptr, cfg.spillSize⟩ then
      let region : ArenaRegion := ⟨ptr, cfg.spillSize, 0⟩
      match region.bump 0 size cfg.align with
      | some (addr, newCur) =>
        some { s.goto t .unlock with
          spill := s.spill ++ [{ region with used := newCur }]
          given := s.given ++ [⟨addr, size⟩] }
      | none => some { s.goto t .panicked with lock := none }
    else none
  | _ => none

def step (s : Arena) : ArenaAction → Option Arena
  | .alloc t size => alloc t size s
  | .thread t => threadStep cfg t s
  | .spurious t => spurious cfg t s
  | .map t ptr => mapSpill cfg t ptr s

end Arena

/-- The arena under any number of threads. -/
def arena (cfg : ArenaConfig) : Machine Arena ArenaAction where
  step := Arena.step cfg

end Ticklog
