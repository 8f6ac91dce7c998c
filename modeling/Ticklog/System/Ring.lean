import Ticklog.Ring.Basic

/-!
# A ring as the whole system sees it (`src/ring.rs`, `src/drain.rs`)

Above the byte level a ring is the list of the records published in its current
incarnation: `head` is their number, `tail` and `head_cache` count records too, and
`bytePos` gives the byte positions the capacity check compares. Next to it stand the
control flags of the segmented policies. `Pass` is `drain_ring_inner` at this level,
one shared access or one delivery at a time; the drain and a helping producer run the
same one.
-/

namespace Ticklog

/-- A published record: the log call it comes from (`seq` numbers a thread's
publications), the ring object it was published in, and its `total_size`. -/
structure Rec where
  thread : Nat
  seq : Nat
  ring : Nat
  size : Nat
deriving DecidableEq, Repr

/-- The byte position after the records `recs` when the first starts at `pos`. -/
def bytePos (g : Geometry) : List Rec → Nat → Nat
  | [], pos => pos
  | x :: rest, pos => bytePos g rest (pos + g.needed pos x.size)

/-- A ring buffer object: the records of its current incarnation and its control
fields. -/
structure Ring where
  /-- The published records since the last rewind; `head` is their number. -/
  cells : List Rec
  /-- What the storage held at the last rewind. -/
  stale : List Rec
  tail : Nat
  headCache : Nat
  live : Bool
  /-- The producer's thread id, set before each registration. -/
  threadId : Nat
  /-- Registration serial. -/
  serial : Nat
  /-- Reserved by a blocked producer for cooperative formatting. -/
  helperReserved : Bool
  /-- A drain pass over this ring is under way. -/
  draining : Bool
  /-- Storage came from the bounded pool. -/
  recyclable : Bool
  /-- The drain moved the ring back to the pool. -/
  recycled : Bool
  /-- The producer switched to a fresh segment. -/
  handedOff : Bool
deriving DecidableEq, Repr

namespace Ring

/-- `from_storage`: a new, empty ring. -/
def fresh (recyclable : Bool) : Ring where
  cells := []
  stale := []
  tail := 0
  headCache := 0
  live := true
  threadId := 0
  serial := 0
  helperReserved := false
  draining := false
  recyclable := recyclable
  recycled := false
  handedOff := false

def head (r : Ring) : Nat := r.cells.length

/-- The records in the storage: behind those of this incarnation, what they have not overwritten
of the last. A pass gets there only if the ring is rewound under it. -/
def storage (r : Ring) : List Rec := r.cells ++ r.stale.drop r.cells.length

/-- The occupancy test of `reserve`, on the byte positions of `head` and `tail`. A `tail` beyond
`head` makes the difference wrap. -/
def hasRoom (g : Geometry) (r : Ring) (total : Nat) : Bool :=
  let head := bytePos g r.cells 0
  g.fits head (g.needed head total) (bytePos g (r.storage.take r.tail) 0)

/-- The stores of `reset_for_reuse`, in program order; `resetSteps` of them. -/
def resetStore (k : Nat) (r : Ring) : Ring :=
  match k with
  | 0 => { r with cells := [], stale := r.storage }
  | 1 => { r with tail := 0 }
  | 2 => { r with headCache := 0 }
  | 3 => { r with helperReserved := false }
  | 4 => { r with draining := false }
  | 5 => { r with recycled := false }
  | 6 => { r with handedOff := false }
  | _ => { r with live := true }

def resetSteps : Nat := 8

/-- Up to `head` the storage holds this incarnation's records. -/
theorem storage_take {r : Ring} {n : Nat} (h : n ≤ r.head) :
    r.storage.take n = r.cells.take n := List.take_append_of_le_length h

theorem storage_getElem? {r : Ring} {i : Nat} (h : i < r.head) :
    r.storage[i]? = r.cells[i]? := List.getElem?_append_left h

/-- A ring that was never rewound. -/
theorem storage_eq {r : Ring} (h : r.stale = []) : r.storage = r.cells := by
  unfold storage
  rw [h, List.drop_nil, List.append_nil]

end Ring

/-! ## `drain_ring_inner`, access by access -/

/-- Where a formatter stands inside `drain_ring_inner`. -/
inductive Pass where
  /-- About to load its own index `tail`. -/
  | loadTail
  /-- About to read the private `head_cache`. -/
  | loadCache (tail : Nat)
  /-- The cache says caught up: about to load `head`. -/
  | loadHead (tail : Nat)
  /-- Top of `while tail < head_cache`. -/
  | scan (tail headCache : Nat)
  /-- Loop left: about to store `tail`. -/
  | storeTail (tail headCache : Nat)
  /-- About to write `head_cache` back. -/
  | storeCache (headCache : Nat)
  | finished
deriving DecidableEq, Repr

/-- One access of `drain_ring_inner`: the next position, the ring after it, and the
record it hands over, if any. -/
def Pass.step (r : Ring) : Pass → Pass × Ring × Option Rec
  | .loadTail => (.loadCache r.tail, r, none)
  | .loadCache tail =>
    if tail = r.headCache then (.loadHead tail, r, none) else (.scan tail r.headCache, r, none)
  | .loadHead tail =>
    if tail = r.head then (.finished, r, none) else (.scan tail r.head, r, none)
  | .scan tail headCache =>
    if tail < headCache then
      match r.storage[tail]? with
      | some x => (.scan (tail + 1) headCache, r, some x)
      | none => (.storeTail tail headCache, r, none)
    else (.storeTail tail headCache, r, none)
  | .storeTail tail headCache => (.storeCache headCache, { r with tail := tail }, none)
  | .storeCache headCache => (.finished, { r with headCache := headCache }, none)
  | .finished => (.finished, r, none)

end Ticklog
