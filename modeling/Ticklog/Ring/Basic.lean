import Ticklog.Lib.Word
import Ticklog.Drain.Cursor

/-!
# The SPSC ring: geometry and reservation arithmetic (`src/ring.rs`)

Everything `reserve` computes before it touches memory: the slot-aligned size, the
physical room left before the end of the buffer, whether a record would straddle it
(`wraps`), how much space that costs (`needed`), and the occupancy test `fits` of
`try_ensure_capacity`. All of it is `u64`/`usize` arithmetic, written with the
wrapping operations the source uses; the lemmas below restate it over plain naturals
for the ranges a ring lives in.
-/

namespace Ticklog

open Lib

/-- What a logging thread does when its buffer is full (`builder.rs`). -/
inductive Backpressure where
  | drop
  | block
  | nanoLog
  | quill
deriving DecidableEq, Repr

/-- A ring's dimensions, as `with_capacity` admits them: `SLOT_SIZE` is the cache
line (128 bytes on Apple aarch64, 64 elsewhere) and the capacity is a power of two
no smaller than a slot that fits a `usize`. -/
structure Geometry where
  slotSize : Nat
  capacity : Nat
  slot_ok : slotSize = 64 ∨ slotSize = 128
  pow2 : ∃ k, k < 64 ∧ capacity = 2 ^ k
  slot_le : slotSize ≤ capacity

theorem slot_ok_64 : 64 = 64 ∨ 64 = 128 := Or.inl rfl

theorem pow2_64 : ∃ k, k < 64 ∧ 64 = 2 ^ k := ⟨6, by decide, rfl⟩

theorem pow2_128 : ∃ k, k < 64 ∧ 128 = 2 ^ k := ⟨7, by decide, rfl⟩

theorem slot_le_64 : 64 ≤ 64 := Nat.le_refl 64

theorem slot_le_128 : 64 ≤ 128 := by decide

/-- Round `n` up to the nearest multiple of `align`, a power of two. -/
def alignUp (n align : Nat) : Nat := wrappingAdd n (align - 1) &&& wordNot (align - 1)

namespace Geometry

variable (g : Geometry)

/-- `capacity - 1`, the index mask. -/
def mask : Nat := g.capacity - 1

/-- Slot-aligned size of a record of `total` bytes. -/
def aligned (total : Nat) : Nat := alignUp total g.slotSize

/-- Physical offset of a monotonic position. -/
def offset (pos : Nat) : Nat := pos &&& g.mask

/-- Bytes between a position and the physical end of the buffer. -/
def remainingPhys (pos : Nat) : Nat := g.capacity - g.offset pos

/-- The record would straddle the physical end. -/
def wraps (head total : Nat) : Bool := decide (g.remainingPhys head < g.aligned total)

/-- Space the write costs: a wrap also pays for the filler. -/
def needed (head total : Nat) : Nat :=
  if g.wraps head total then g.aligned total + g.remainingPhys head else g.aligned total

/-- Where the record lands: the next slot boundary, offset 0 after a wrap. -/
def next (head total : Nat) : Nat :=
  if g.wraps head total then wrappingAdd head (g.remainingPhys head) else head

/-- `Reservation::ptr`, as an offset into the storage. -/
def dst (head total : Nat) : Nat := g.offset (g.next head total)

/-- `Reservation::head`, the value `publish` stores. -/
def newHead (head total : Nat) : Nat := wrappingAdd (g.next head total) (g.aligned total)

/-- The occupancy test of `try_ensure_capacity`. -/
def fits (head need tail : Nat) : Bool :=
  decide (wrappingSub (wrappingAdd head need) tail ≤ g.mask)

/-! ## The same arithmetic over naturals -/

theorem slot_pos : 64 ≤ g.slotSize := by
  rcases g.slot_ok with h | h <;> omega

theorem slot_pow2 : ∃ k, k ≤ 7 ∧ g.slotSize = 2 ^ k := by
  rcases g.slot_ok with h | h
  · exact ⟨6, by decide, h⟩
  · exact ⟨7, by decide, h⟩

theorem slot_dvd_capacity : g.slotSize ∣ g.capacity := by
  obtain ⟨k, -, hk⟩ := g.slot_pow2
  obtain ⟨n, -, hn⟩ := g.pow2
  have hle := g.slot_le
  rw [hk, hn] at hle ⊢
  exact pow_dvd_pow 2 ((Nat.pow_le_pow_iff_right (by decide)).mp hle)

theorem slot_dvd_word : g.slotSize ∣ wordSize := by
  obtain ⟨k, hk7, hk⟩ := g.slot_pow2
  rw [hk]
  exact pow_dvd_pow 2 (by omega)

theorem capacity_pos : 0 < g.capacity := by
  have h1 := g.slot_pos
  have h2 := g.slot_le
  omega

theorem capacity_le : g.capacity ≤ 2 ^ 63 := by
  obtain ⟨k, hk, hc⟩ := g.pow2
  rw [hc]
  exact Nat.pow_le_pow_right (by decide) (by omega)

/-- Masking is the remainder by the capacity. -/
theorem offset_eq (pos : Nat) : g.offset pos = pos % g.capacity := by
  obtain ⟨k, -, hc⟩ := g.pow2
  unfold offset mask
  rw [hc, and_mask]

theorem offset_lt (pos : Nat) : g.offset pos < g.capacity := by
  rw [offset_eq]
  exact Nat.mod_lt _ g.capacity_pos

/-- A word-wrapped position has the same offset. -/
theorem offset_mod_word (pos : Nat) : g.offset (pos % wordSize) = g.offset pos := by
  obtain ⟨k, hk, hc⟩ := g.pow2
  rw [offset_eq, offset_eq, hc, mod_wordSize_mod (by omega)]

/-- Offsets advance with positions until the physical end. -/
theorem offset_add {pos i : Nat} (h : g.offset pos + i < g.capacity) :
    g.offset (pos + i) = g.offset pos + i := by
  rw [offset_eq] at h ⊢
  rw [offset_eq, Nat.add_mod, Nat.mod_eq_of_lt (a := i) (by omega), Nat.mod_eq_of_lt h]

/-- Stepping over the physical remainder lands on offset 0. -/
theorem offset_add_remaining (pos : Nat) : g.offset (pos + g.remainingPhys pos) = 0 := by
  have hlt := g.offset_lt pos
  unfold remainingPhys
  rw [offset_eq] at hlt ⊢
  have hdm := Nat.div_add_mod pos g.capacity
  rw [offset_eq, show pos + (g.capacity - pos % g.capacity)
      = g.capacity * (pos / g.capacity + 1) by rw [Nat.mul_add]; omega]
  exact Nat.mul_mod_right _ _

/-- Two positions less than a capacity apart never share a byte. -/
theorem offset_ne {p q : Nat} (hpq : p < q) (hq : q < p + g.capacity) :
    g.offset p ≠ g.offset q := by
  rw [offset_eq, offset_eq]
  intro h
  have hdvd : g.capacity ∣ q - p :=
    Nat.dvd_of_mod_eq_zero (Nat.sub_mod_eq_zero_of_mod_eq h.symm)
  have := Nat.le_of_dvd (by omega) hdvd
  omega

/-- `align_up` over naturals. -/
theorem aligned_eq {total : Nat} (h : total ≤ 2 ^ 63) :
    g.aligned total = (total + g.slotSize - 1) / g.slotSize * g.slotSize := by
  obtain ⟨k, hk7, hk⟩ := g.slot_pow2
  have hs := g.slot_pos
  have hs' : g.slotSize ≤ 128 := by rcases g.slot_ok with h | h <;> omega
  have hsum : total + (g.slotSize - 1) < wordSize := by
    unfold wordSize
    omega
  unfold aligned alignUp
  rw [wrappingAdd_of_lt hsum]
  rw [hk] at hsum ⊢
  rw [and_wordNot_mask hsum (by omega), Nat.add_sub_assoc (Nat.one_le_two_pow)]

theorem slot_dvd_aligned {total : Nat} (h : total ≤ 2 ^ 63) : g.slotSize ∣ g.aligned total := by
  rw [g.aligned_eq h]
  exact Nat.dvd_mul_left _ _

theorem le_aligned {total : Nat} (h : total ≤ 2 ^ 63) : total ≤ g.aligned total := by
  rw [g.aligned_eq h]
  rcases g.slot_ok with hs | hs <;> rw [hs] <;> omega

theorem aligned_lt {total : Nat} (h : total ≤ 2 ^ 63) :
    g.aligned total < total + g.slotSize := by
  rw [g.aligned_eq h]
  rcases g.slot_ok with hs | hs <;> rw [hs] <;> omega

/-- A slot multiple is already aligned. -/
theorem aligned_of_dvd {total : Nat} (h : total ≤ 2 ^ 63) (hd : g.slotSize ∣ total) :
    g.aligned total = total := by
  obtain ⟨n, hn⟩ := hd
  rw [g.aligned_eq h, hn]
  rcases g.slot_ok with hs | hs <;> rw [hs] <;> omega

theorem slot_dvd_remaining {pos : Nat} (h : g.slotSize ∣ pos) :
    g.slotSize ∣ g.remainingPhys pos := by
  unfold remainingPhys
  rw [offset_eq]
  exact Nat.dvd_sub g.slot_dvd_capacity ((Nat.dvd_mod_iff g.slot_dvd_capacity).mpr h)

theorem remaining_pos (pos : Nat) : 0 < g.remainingPhys pos := by
  have := g.offset_lt pos
  unfold remainingPhys
  omega

/-- At a slot-aligned position there is at least one whole slot left. -/
theorem slot_le_remaining {pos : Nat} (h : g.slotSize ∣ pos) : g.slotSize ≤ g.remainingPhys pos :=
  Nat.le_of_dvd (g.remaining_pos pos) (g.slot_dvd_remaining h)

theorem wraps_iff (head total : Nat) :
    g.wraps head total = true ↔ g.remainingPhys head < g.aligned total := by
  simp [wraps]

/-- The space a write costs, as the distance from `head` to the new head. -/
theorem needed_eq (head total : Nat) :
    g.needed head total
      = (if g.wraps head total then g.remainingPhys head else 0) + g.aligned total := by
  unfold needed
  split <;> omega

/-- A size the `u16` header field can frame. -/
theorem needed_lt {head total : Nat} (h : total ≤ maxRecordSize) :
    g.needed head total < 2 ^ 18 := by
  unfold maxRecordSize at h
  have ha : g.aligned total < total + g.slotSize := g.aligned_lt (by omega)
  have hs' : g.slotSize ≤ 128 := by rcases g.slot_ok with h | h <;> omega
  rw [needed_eq]
  split
  next hw =>
    have := (g.wraps_iff head total).mp hw
    omega
  next => omega

/-- The occupancy test over naturals, for indices a ring can hold. -/
theorem fits_iff {head need tail : Nat} (htail : tail ≤ head) (hhead : head < wordSize)
    (hocc : head ≤ tail + g.capacity) (hneed : need < 2 ^ 18) :
    g.fits head need tail = true ↔ head + need ≤ tail + g.mask := by
  have hcap := g.capacity_le
  have hd : head + need - tail < wordSize := by
    unfold wordSize
    omega
  unfold fits
  rw [wrappingSub_wrappingAdd (by omega) (by omega) hd, decide_eq_true_iff]
  omega

end Geometry

end Ticklog
