import Ticklog.Ring.SpscSafe

/-!
# The loop of `reserve_with_policy` (`src/thread_buf.rs`)

Under `NanoLog` and `Quill` a segment that has no room for a record is handed off and the
loop tries the next one, which the pool or the allocator supplies empty: `head`, `tail` and
both caches are zero and the storage holds whatever it held. The loop has no bound of its
own; here it is cut after `fuel` segments.

One empty segment is enough exactly when the slot-aligned size stays below the capacity.
`__configure_rt` accepts every power of two from one slot on, and `dispatch` every size up
to `MAX_RECORD_SIZE`, so nothing in front of the loop makes sure of that.
-/

namespace Ticklog

open Lib

/-- `reserve` where the policy does not spin, and nobody interferes: the `head` of the
reservation. -/
def RingBuffer.tryReserve (g : Geometry) (total : Nat) (ring : RingBuffer) : Option Nat :=
  let need := g.needed ring.head total
  -- the cached tail first, then the tail itself
  if g.fits ring.head need ring.tailCache then some (g.newHead ring.head total)
  else if g.fits ring.head need ring.tail then some (g.newHead ring.head total)
  else none

/-- A segment as the loop obtains it. -/
def RingBuffer.rewound (data : Nat → UInt8) : RingBuffer := (Spsc.init data).ring

/-- The loop of `reserve_with_policy`: the number of handoffs and the reservation's `head`.
`storage n` is what the storage of the `n`-th segment it obtains holds. -/
def reserveWithPolicy (g : Geometry) (total : Nat) (storage : Nat → Nat → UInt8) :
    Nat → Nat → RingBuffer → Option (Nat × Nat)
  | 0, _, _ => none
  | fuel + 1, handoffs, ring =>
    match ring.tryReserve g total with
    | some head => some (handoffs, head)
    | none =>
      reserveWithPolicy g total storage fuel (handoffs + 1) (.rewound (storage handoffs))

namespace Spsc

variable {g : Geometry} {fast : Bool} {policy : Backpressure} {s : Spsc} {total : Nat}

/-- In a ring between two accesses the check succeeds exactly when the space is free behind
the real tail: the cached one only trails it. -/
theorem tryReserve_isSome (h : SpscInv g s) (hw : s.written < wordSize)
    (htotal : total ≤ maxRecordSize) :
    (s.ring.tryReserve g total).isSome = true ↔
      s.ring.head + g.needed s.ring.head total ≤ s.ring.tail + g.mask := by
  have hcached := h.fits_iff hw htotal (Nat.le_refl _) h.cache_le
  have hloaded := h.fits_iff hw htotal h.cache_le (Nat.le_refl _)
  have hle := h.cache_le
  unfold RingBuffer.tryReserve
  simp only
  split
  next hfits =>
    have := hcached.mp hfits
    simp only [Option.isSome_some, true_iff]
    omega
  next =>
    split
    next hfits => simp only [Option.isSome_some, hloaded.mp hfits]
    next hfull => simp only [Option.isSome_none, Bool.false_eq_true, ← hloaded, hfull]

/-- Whatever a ring holds, a record as large as its capacity does not fit. -/
theorem aligned_lt_of_tryReserve (h : SpscInv g s) (hw : s.written < wordSize)
    (htotal : total ≤ maxRecordSize) (hsome : (s.ring.tryReserve g total).isSome = true) :
    g.aligned total < g.capacity := by
  have hroom := (tryReserve_isSome h hw htotal).mp hsome
  have htail := h.tail_le
  have hmask := mask_lt g
  rw [g.needed_eq] at hroom
  omega

/-- An empty segment has room for every record that is smaller than it. -/
theorem tryReserve_rewound (data : Nat → UInt8) (htotal : total ≤ maxRecordSize) :
    ((RingBuffer.rewound data).tryReserve g total).isSome = true
      ↔ g.aligned total < g.capacity := by
  have hinv := init_inv g data
  have hword : (Spsc.init data).written < wordSize := by
    show 0 < wordSize
    decide
  refine ⟨aligned_lt_of_tryReserve hinv hword htotal, fun hlt => ?_⟩
  refine (tryReserve_isSome hinv hword htotal).mpr ?_
  -- at offset 0 nothing wraps
  have hrem : g.remainingPhys 0 = g.capacity := by
    unfold Geometry.remainingPhys
    rw [g.offset_eq, Nat.zero_mod, Nat.sub_zero]
  have hwrap : ¬ g.wraps 0 total = true := by
    rw [g.wraps_iff, hrem]
    omega
  show 0 + g.needed 0 total ≤ 0 + g.mask
  rw [needed_eq_of_not_wraps hwrap]
  unfold Geometry.mask
  omega

/-- A record that fits no empty segment is never reserved. -/
theorem reserveWithPolicy_diverges {storage : Nat → Nat → UInt8} (htotal : total ≤ maxRecordSize)
    (hlarge : ¬ g.aligned total < g.capacity) (fuel handoffs : Nat) (data : Nat → UInt8) :
    reserveWithPolicy g total storage fuel handoffs (.rewound data) = none := by
  induction fuel generalizing handoffs data with
  | zero => rfl
  | succ fuel ih =>
    have hnone : (RingBuffer.rewound data).tryReserve g total = none := by
      rw [← Option.not_isSome_iff_eq_none]
      exact fun hsome => hlarge ((tryReserve_rewound data htotal).mp hsome)
    rw [reserveWithPolicy, hnone]
    exact ih _ _

/-- For a ring of any accepted capacity, in any state that its producer and the drain bring
it into before `2^64` bytes are written, and for every size that passes the gate: the loop
reserves with at most one handoff exactly when the slot-aligned size is below the capacity;
else it takes segment after segment. -/
theorem handoff_ends_iff (g : Geometry) (fast : Bool) (policy : Backpressure)
    (data : Nat → UInt8) {s : Spsc} (h : (spsc g fast policy).Reach (Spsc.init data) s)
    (hw : s.written < 2 ^ 64) (total : Nat) (htotal : total ≤ maxRecordSize)
    (storage : Nat → Nat → UInt8) :
    ((∃ fuel n head, n ≤ 1 ∧ reserveWithPolicy g total storage fuel 0 s.ring = some (n, head)) ↔
      g.aligned total < g.capacity) ∧
    (¬ g.aligned total < g.capacity →
      ∀ fuel, reserveWithPolicy g total storage fuel 0 s.ring = none) := by
  have hinv := reach_inv h hw
  have hnever : ¬ g.aligned total < g.capacity →
      ∀ fuel, reserveWithPolicy g total storage fuel 0 s.ring = none := by
    intro hlarge fuel
    cases fuel with
    | zero => rfl
    | succ fuel =>
      have hnone : s.ring.tryReserve g total = none := by
        rw [← Option.not_isSome_iff_eq_none]
        exact fun hsome => hlarge (aligned_lt_of_tryReserve hinv hw htotal hsome)
      rw [reserveWithPolicy, hnone]
      exact reserveWithPolicy_diverges htotal hlarge _ _ _
  refine ⟨⟨fun ⟨fuel, n, head, _, hsome⟩ => ?_, fun hlt => ?_⟩, hnever⟩
  · by_contra hlarge
    rw [hnever hlarge fuel] at hsome
    cases hsome
  · cases hfirst : s.ring.tryReserve g total with
    | some head =>
      refine ⟨1, 0, head, by omega, ?_⟩
      rw [reserveWithPolicy, hfirst]
    | none =>
      -- the segment is full: the next one is empty
      obtain ⟨head, hhead⟩ := Option.isSome_iff_exists.mp
        ((tryReserve_rewound (g := g) (storage 0) htotal).mpr hlt)
      refine ⟨2, 1, head, Nat.le_refl 1, ?_⟩
      rw [reserveWithPolicy, hfirst]
      simp only
      rw [reserveWithPolicy, hhead]

theorem handoff_ends_fresh :
    ∃ fuel n head, n ≤ 1 ∧
      reserveWithPolicy twoSlots 40 (fun _ _ => 0) fuel 0 (RingBuffer.rewound fun _ => 7)
        = some (n, head) := by
  have h := handoff_ends_iff twoSlots false .quill (fun _ => 7) (.refl _) (by decide) 40 (by decide)
    (fun _ _ => 0)
  exact h.1.mpr (by decide)

/-- The smallest ring `configure!` accepts: a single slot. -/
def oneSlot : Geometry where
  slotSize := 64
  capacity := 64
  slot_ok := slot_ok_64
  pow2 := pow2_64
  slot_le := slot_le_64

/-- No record fits one slot: the first log call already takes segment after segment. -/
theorem one_slot_never_ends :
    ¬ ∃ fuel n head, n ≤ 1 ∧ reserveWithPolicy oneSlot baseRecordSize (fun _ _ => 0) fuel 0
      (RingBuffer.rewound fun _ => 0) = some (n, head) := by
  rintro ⟨fuel, n, head, -, hsome⟩
  rw [reserveWithPolicy_diverges (by decide) (by decide)] at hsome
  cases hsome

end Spsc

end Ticklog
