import Ticklog.Record

/-!
# The clamped byte parser and the framing check (`src/drain.rs`)

`Cursor` is the drain's only way to read record bytes: a fixed-width read past the
end yields zeros and does not advance, a variable-width read is cut short. A cursor
is the list of the bytes it may still read.

`verdict` is the framing check of `drain_ring_inner` ("Layer A"): what the loop does
with the frame at `offset`, decided from the four prefix bytes alone.
-/

namespace Ticklog

open Lib

/-- The bytes between the cursor's position and the end of its slice. -/
structure Cursor where
  rest : List UInt8

namespace Cursor

/-- Reads the next `n` bytes, or `[0; n]` without advancing when fewer remain. -/
def readArray (n : Nat) (c : Cursor) : List UInt8 × Cursor :=
  if c.rest.length < n then (List.replicate n 0, c)
  else (c.rest.take n, ⟨c.rest.drop n⟩)

def readU8 (c : Cursor) : Nat × Cursor :=
  let r := c.readArray 1
  (ofLe r.1, r.2)

def readU16 (c : Cursor) : Nat × Cursor :=
  let r := c.readArray 2
  (ofLe r.1, r.2)

def readU32 (c : Cursor) : Nat × Cursor :=
  let r := c.readArray 4
  (ofLe r.1, r.2)

def readU64 (c : Cursor) : Nat × Cursor :=
  let r := c.readArray 8
  (ofLe r.1, r.2)

def skip (n : Nat) (c : Cursor) : Cursor := ⟨c.rest.drop n⟩

/-- The next `min(n, remaining)` bytes. -/
def readBytes (n : Nat) (c : Cursor) : List UInt8 × Cursor :=
  (c.rest.take n, ⟨c.rest.drop n⟩)

/-- A `u16` length prefix, then `min(len, remaining)` bytes. -/
def readLenPrefixed (c : Cursor) : (List UInt8 × Nat) × Cursor :=
  let len := c.readU16
  let data := len.2.readBytes len.1
  ((data.1, len.1), data.2)

end Cursor

/-- The four prefix bytes of a frame, decoded. -/
structure Prefix where
  version : Nat
  rectype : Nat
  totalSize : Nat
deriving DecidableEq, Repr

/-- Version, type and size as the drain's bounded cursor reads them. -/
def readPrefix (bytes : List UInt8) : Prefix :=
  let c : Cursor := ⟨bytes⟩
  let version := c.readU8
  let rectype := version.2.readU8
  let totalSize := rectype.2.readU16
  ⟨version.1, rectype.1, totalSize.1⟩

/-- What `drain_ring_inner` does with a frame. -/
inductive Verdict where
  /-- Size 0: an empty slot, leave the loop. -/
  | empty
  /-- Not a frame: resync to the head and leave the loop. -/
  | corrupt
  /-- A wrap filler: step over it. -/
  | filler
  /-- A record of this many bytes to deliver. -/
  | record (totalSize : Nat)
deriving DecidableEq, Repr

/-- The framing check at `offset` of a ring of `capacity` bytes. -/
def verdict (capacity offset : Nat) (p : Prefix) : Verdict :=
  if p.totalSize = 0 then .empty
  else if p.version ≠ version ∨ (p.rectype ≠ logRecord ∧ p.rectype ≠ endOfBuffer)
      ∨ p.totalSize < headerSize ∨ capacity < offset + p.totalSize then .corrupt
  else if p.rectype = endOfBuffer then .filler
  else .record p.totalSize

/-- On at least four bytes the prefix is the plain little-endian decoding. -/
theorem readPrefix_cons (a b c d : UInt8) (rest : List UInt8) :
    readPrefix (a :: b :: c :: d :: rest) = ⟨a.toNat, b.toNat, c.toNat + 256 * d.toNat⟩ := by
  have h2 : ¬ (rest.length + 1 + 1 < 2) := by omega
  simp [readPrefix, Cursor.readU8, Cursor.readU16, Cursor.readArray, ofLe, h2]

/-- Only the first four bytes matter. -/
theorem readPrefix_take {bytes : List UInt8} (h : 4 ≤ bytes.length) :
    readPrefix (bytes.take 4) = readPrefix bytes := by
  match bytes, h with
  | a :: b :: c :: d :: rest, _ =>
    rw [readPrefix_cons, show (a :: b :: c :: d :: rest).take 4 = [a, b, c, d] from rfl,
      readPrefix_cons]

/-- A framed record inside the ring is delivered. -/
theorem verdict_record {capacity offset total : Nat} (hlo : headerSize ≤ total)
    (hfit : offset + total ≤ capacity) :
    verdict capacity offset ⟨version, logRecord, total⟩ = .record total := by
  have hpos : total ≠ 0 := by
    unfold headerSize at hlo
    omega
  have hok : ¬ (total < headerSize ∨ capacity < offset + total) := by omega
  simp [verdict, hpos, logRecord, endOfBuffer, hok]

/-- A filler that ends at or before the end of the ring is skipped. -/
theorem verdict_filler {capacity offset span : Nat} (hlo : headerSize ≤ span)
    (hfit : offset + span ≤ capacity) :
    verdict capacity offset ⟨version, endOfBuffer, span⟩ = .filler := by
  have hpos : span ≠ 0 := by
    unfold headerSize at hlo
    omega
  have hok : ¬ (span < headerSize ∨ capacity < offset + span) := by omega
  simp [verdict, hpos, logRecord, endOfBuffer, hok]

/-- A record the check lets through has the size its prefix gives, header included. -/
theorem verdict_eq_record {capacity offset total : Nat} {p : Prefix}
    (h : verdict capacity offset p = .record total) :
    total = p.totalSize ∧ headerSize ≤ total := by
  unfold verdict at h
  repeat' split at h
  all_goals cases h
  next hnot _ => exact ⟨rfl, by omega⟩

theorem verdict_eq_filler {capacity offset : Nat} {p : Prefix}
    (h : verdict capacity offset p = .filler) : headerSize ≤ p.totalSize := by
  unfold verdict at h
  repeat' split at h
  all_goals cases h
  next hnot _ => omega

/-- A frame's size is that of a `u16`, however many bytes there are to read it from. -/
theorem readPrefix_totalSize_lt (bytes : List UInt8) : (readPrefix bytes).totalSize < 65536 := by
  have hread : ∀ c : Cursor, c.readU16.1 < 65536 := by
    intro c
    have hlen : (c.readArray 2).1.length = 2 := by
      unfold Cursor.readArray
      split
      next => exact List.length_replicate
      next h => exact List.length_take_of_le (Nat.le_of_not_lt h)
    have hlt := ofLe_lt (c.readArray 2).1
    rwa [hlen] at hlt
  exact hread _

end Ticklog
