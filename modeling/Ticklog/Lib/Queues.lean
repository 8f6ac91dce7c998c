import Mathlib.Data.List.Basic

/-!
# Bounded queues of bytes, by their contracts

Three ways a library hands bytes from a writer to a reader, each a structure whose fields are the
operations and what they promise: `SliceFifo` takes and gives slices and stops at its capacity,
`OverwritingFifo` takes and gives single bytes and drops the oldest one when it is full, and
`TripleBuffer` hands over one value as a whole, the newest. `listFifo`, `listOverwriting` and
`listSlot` keep their promises.
-/

namespace Ticklog.Lib

universe u

structure SliceFifo (σ : Type u) where
  new : Nat → σ
  /-- The bytes held, oldest first. -/
  contents : σ → List UInt8
  capacity : σ → Nat
  occupied : σ → Nat
  /-- Takes as many bytes of the slice as there is room for, and says how many. -/
  pushSlice : σ → List UInt8 → σ × Nat
  /-- Gives at most so many of the oldest bytes. -/
  popSlice : σ → Nat → σ × List UInt8
  contents_new : ∀ n, contents (new n) = []
  capacity_new : ∀ n, capacity (new n) = n
  occupied_eq : ∀ s, occupied s = (contents s).length
  push_contents : ∀ s xs,
    contents (pushSlice s xs).1 = contents s ++ xs.take (capacity s - (contents s).length)
  push_count : ∀ s xs, (pushSlice s xs).2 = min xs.length (capacity s - (contents s).length)
  push_capacity : ∀ s xs, capacity (pushSlice s xs).1 = capacity s
  pop_contents : ∀ s n, contents (popSlice s n).1 = (contents s).drop n
  pop_bytes : ∀ s n, (popSlice s n).2 = (contents s).take n
  pop_capacity : ∀ s n, capacity (popSlice s n).1 = capacity s

/-- The queue as a list beside its capacity. -/
def listFifo : SliceFifo (Nat × List UInt8) where
  new n := (n, [])
  contents s := s.2
  capacity s := s.1
  occupied s := s.2.length
  pushSlice s xs :=
    ((s.1, s.2 ++ xs.take (s.1 - s.2.length)), min xs.length (s.1 - s.2.length))
  popSlice s n := ((s.1, s.2.drop n), s.2.take n)
  contents_new _ := rfl
  capacity_new _ := rfl
  occupied_eq _ := rfl
  push_contents _ _ := rfl
  push_count _ _ := rfl
  push_capacity _ _ := rfl
  pop_contents _ _ := rfl
  pop_bytes _ _ := rfl
  pop_capacity _ _ := rfl

structure OverwritingFifo (σ : Type u) where
  new : Nat → σ
  contents : σ → List UInt8
  capacity : σ → Nat
  len : σ → Nat
  /-- Appends a byte; a full queue loses its oldest one. -/
  enqueue : σ → UInt8 → σ
  dequeue : σ → Option (UInt8 × σ)
  contents_new : ∀ n, contents (new n) = []
  /-- The capacity may be rounded up. -/
  capacity_new : ∀ n, n ≤ capacity (new n)
  len_eq : ∀ s, len s = (contents s).length
  enqueue_contents : ∀ s b, contents (enqueue s b)
    = (if (contents s).length < capacity s then contents s else (contents s).tail) ++ [b]
  enqueue_capacity : ∀ s b, capacity (enqueue s b) = capacity s
  dequeue_nil : ∀ s, contents s = [] → dequeue s = none
  dequeue_cons : ∀ s b rest, contents s = b :: rest →
    ∃ s', dequeue s = some (b, s') ∧ contents s' = rest ∧ capacity s' = capacity s

def listOverwriting : OverwritingFifo (Nat × List UInt8) where
  new n := (n, [])
  contents s := s.2
  capacity s := s.1
  len s := s.2.length
  enqueue s b := (s.1, (if s.2.length < s.1 then s.2 else s.2.tail) ++ [b])
  dequeue s :=
    match s.2 with
    | [] => none
    | b :: rest => some (b, (s.1, rest))
  contents_new _ := rfl
  capacity_new _ := Nat.le_refl _
  len_eq _ := rfl
  enqueue_contents _ _ := rfl
  enqueue_capacity _ _ := rfl
  dequeue_nil s h := by rw [h]
  dequeue_cons s b rest h := by
    rw [h]
    exact ⟨_, rfl, rfl, rfl⟩

/-- A published value replaces one that was not fetched. -/
structure TripleBuffer (σ : Type u) (β : Type) where
  new : β → σ
  /-- The value published and not fetched yet. -/
  outstanding : σ → Option β
  /-- Whether the last published value has been fetched. -/
  consumed : σ → Bool
  /-- Publishes what the input buffer was filled with. -/
  publish : σ → β → σ
  /-- Fetches the newest value, if there is one. -/
  update : σ → σ × Bool
  /-- The value fetched last. -/
  outputBuffer : σ → β
  outstanding_new : ∀ v, outstanding (new v) = none
  consumed_eq : ∀ s, consumed s = (outstanding s).isNone
  publish_outstanding : ∀ s v, outstanding (publish s v) = some v
  publish_output : ∀ s v, outputBuffer (publish s v) = outputBuffer s
  update_outstanding : ∀ s, outstanding (update s).1 = none
  update_fetched : ∀ s, (update s).2 = (outstanding s).isSome
  update_output : ∀ s, outputBuffer (update s).1 = (outstanding s).getD (outputBuffer s)

/-- The value on its way, and the one fetched. -/
def listSlot (β : Type) : TripleBuffer (Option β × β) β where
  new v := (none, v)
  outstanding s := s.1
  consumed s := s.1.isNone
  publish s v := (some v, s.2)
  update s := ((none, s.1.getD s.2), s.1.isSome)
  outputBuffer s := s.2
  outstanding_new _ := rfl
  consumed_eq _ := rfl
  publish_outstanding _ _ := rfl
  publish_output _ _ := rfl
  update_outstanding _ := rfl
  update_fetched _ := rfl
  update_output _ := rfl

end Ticklog.Lib
