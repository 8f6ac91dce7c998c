import Mathlib.Data.List.Basic

/-!
# A bounded byte FIFO with chunks

`ByteFifo σ` is a bounded first-in first-out buffer of bytes whose states are `σ`, with its laws
as fields: the writer asks for a chunk of so many bytes and is given two slices that make them up
(the second is empty unless the chunk wraps), fills them and commits; the reader is given the
oldest bytes as two slices and commits that it has read them. How a chunk is cut is left open.
`circular` is the usual one, whose slices follow a circular array of its capacity.
-/

namespace Ticklog.Lib

universe u

structure ByteFifo (σ : Type u) where
  new : Nat → σ
  /-- The bytes held, oldest first. -/
  contents : σ → List UInt8
  capacity : σ → Nat
  /-- The bytes that may be written. -/
  writable : σ → Nat
  /-- The bytes that may be read. -/
  readable : σ → Nat
  /-- The lengths of the two slices of a chunk to write; `none` if there is no room. -/
  writeChunk : σ → Nat → Option (Nat × Nat)
  /-- Commits a chunk whose slices were filled with these bytes. -/
  commitWrite : σ → List UInt8 → List UInt8 → σ
  /-- The two slices of a chunk to read; `none` if there are not so many bytes. -/
  readChunk : σ → Nat → Option (List UInt8 × List UInt8)
  /-- Commits that a chunk of this length was read. -/
  commitRead : σ → Nat → σ
  contents_new : ∀ n, contents (new n) = []
  capacity_new : ∀ n, capacity (new n) = n
  bounded : ∀ s, (contents s).length ≤ capacity s
  writable_eq : ∀ s, writable s = capacity s - (contents s).length
  readable_eq : ∀ s, readable s = (contents s).length
  writeChunk_some : ∀ s n, n ≤ writable s → ∃ a b, writeChunk s n = some (a, b) ∧ a + b = n
  writeChunk_none : ∀ s n, writable s < n → writeChunk s n = none
  commitWrite_contents : ∀ s n xs ys, writeChunk s n = some (xs.length, ys.length) →
    contents (commitWrite s xs ys) = contents s ++ (xs ++ ys)
  commitWrite_capacity : ∀ s xs ys, capacity (commitWrite s xs ys) = capacity s
  readChunk_some : ∀ s n, n ≤ readable s →
    ∃ a b, readChunk s n = some (a, b) ∧ a ++ b = (contents s).take n
  readChunk_none : ∀ s n, readable s < n → readChunk s n = none
  commitRead_contents : ∀ s n, n ≤ readable s → contents (commitRead s n) = (contents s).drop n
  commitRead_capacity : ∀ s n, capacity (commitRead s n) = capacity s

namespace ByteFifo

variable {σ : Type u} (F : ByteFifo σ)

/-- What is held and what may be written make up the capacity. -/
theorem held_add_writable (s : σ) : (F.contents s).length + F.writable s = F.capacity s := by
  have h := F.bounded s
  rw [F.writable_eq]
  omega

end ByteFifo

/-! ## The circular one -/

/-- The bytes held in an array of `capacity` places, the oldest in place `first`. -/
structure Circular where
  capacity : Nat
  first : Nat
  bytes : List UInt8
  fits : bytes.length ≤ capacity

namespace Circular

/-- `n` bytes from the place `offset` behind the oldest: those up to the end of the array, and
those from its start. -/
def cut (s : Circular) (offset n : Nat) : Nat × Nat :=
  let k := min n (s.capacity - (s.first + offset) % s.capacity)
  (k, n - k)

theorem cut_add (s : Circular) (offset n : Nat) : (s.cut offset n).1 + (s.cut offset n).2 = n := by
  show min n _ + (n - min n _) = n
  omega

def commitWrite (s : Circular) (xs ys : List UInt8) : Circular :=
  if h : (s.bytes ++ (xs ++ ys)).length ≤ s.capacity then
    { s with bytes := s.bytes ++ (xs ++ ys), fits := h }
  else s

def commitRead (s : Circular) (n : Nat) : Circular :=
  { s with
    first := (s.first + n) % s.capacity
    bytes := s.bytes.drop n
    fits := by
      have h := s.fits
      rw [List.length_drop]
      omega }

end Circular

def circular : ByteFifo Circular where
  new capacity := ⟨capacity, 0, [], Nat.zero_le _⟩
  contents := Circular.bytes
  capacity := Circular.capacity
  writable s := s.capacity - s.bytes.length
  readable s := s.bytes.length
  writeChunk s n :=
    if n ≤ s.capacity - s.bytes.length then some (s.cut s.bytes.length n) else none
  commitWrite := Circular.commitWrite
  readChunk s n :=
    if n ≤ s.bytes.length then
      some ((s.bytes.take n).take (s.cut 0 n).1, (s.bytes.take n).drop (s.cut 0 n).1)
    else none
  commitRead := Circular.commitRead
  contents_new _ := rfl
  capacity_new _ := rfl
  bounded := Circular.fits
  writable_eq _ := rfl
  readable_eq _ := rfl
  writeChunk_some s n h := ⟨_, _, if_pos h, s.cut_add _ n⟩
  writeChunk_none _ _ h := if_neg (Nat.not_le_of_lt h)
  commitWrite_contents s n xs ys h := by
    split_ifs at h with hroom
    have hsum := s.cut_add s.bytes.length n
    rw [Option.some.inj h] at hsum
    have hfit : (s.bytes ++ (xs ++ ys)).length ≤ s.capacity := by
      have hle := s.fits
      rw [List.length_append, List.length_append]
      change xs.length + ys.length = n at hsum
      omega
    show (Circular.commitWrite s xs ys).bytes = _
    unfold Circular.commitWrite
    rw [dif_pos hfit]
  commitWrite_capacity s xs ys := by
    show (Circular.commitWrite s xs ys).capacity = _
    unfold Circular.commitWrite
    split <;> rfl
  readChunk_some _ _ h := ⟨_, _, if_pos h, List.take_append_drop _ _⟩
  readChunk_none _ _ h := if_neg (Nat.not_le_of_lt h)
  commitRead_contents _ _ _ := rfl
  commitRead_capacity _ _ := rfl

/-- A chunk that runs past the end of the array is given in two slices. -/
example : (circular.writeChunk ⟨8, 6, [1], by decide⟩ 4) = some (1, 3) := by
  decide

end Ticklog.Lib
