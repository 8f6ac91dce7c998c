import Ticklog.Backends.Delivery

/-!
# `backend-ringbuffer` (`src/ringbuffer_backend.rs`)

One lock around the whole queue: a commit enqueues its bytes one by one under it, and a
`pop_available` empties the queue under it. The queue drops its oldest byte when it is full, and
the slack of one byte that `reserve` leaves keeps it from ever being so (`enqueues_contents`).
-/

namespace Ticklog

open Lib

namespace Ringbuffer

/-- `RingBuffer`. -/
structure RingBuffer (σ : Type) where
  fifo : σ
  live : Bool
  capacity : Nat

section

variable {σ : Type} (F : OverwritingFifo σ)

/-- `none` is the panic on the capacity. -/
def withCapacity (slotSize capacity : Nat) : Option (RingBuffer σ) :=
  if Rtrb.isPowerOfTwo capacity ∧ slotSize ≤ capacity then some ⟨F.new capacity, true, capacity⟩
  else none

/-- One round of `reserve`. -/
def reserve (r : RingBuffer σ) (totalSize : Nat) (policy : Backpressure) : Rtrb.Reserve :=
  Backends.reserveRound (F.len r.fifo) r.capacity totalSize r.live policy

/-- The loop of `commit`. -/
def enqueues (fifo : σ) (bytes : List UInt8) : σ := bytes.foldl F.enqueue fifo

def commit (r : RingBuffer σ) (bytes : List UInt8) : RingBuffer σ :=
  { r with fifo := enqueues F r.fifo bytes }

def setDead (r : RingBuffer σ) : RingBuffer σ := { r with live := false }

/-- The loop of `pop_available`, at most `fuel` rounds of it. -/
def popLoop : Nat → σ → List UInt8 → σ × List UInt8
  | 0, fifo, out => (fifo, out)
  | fuel + 1, fifo, out =>
    match F.dequeue fifo with
    | some (b, fifo') => popLoop fuel fifo' (out ++ [b])
    | none => (fifo, out)

def popAvailable (r : RingBuffer σ) : RingBuffer σ × List UInt8 :=
  let (fifo, out) := popLoop F (F.len r.fifo + 1) r.fifo []
  ({ r with fifo := fifo }, out)

def channel : Channel (RingBuffer σ) Backpressure Unit UInt8 where
  grants r totalSize policy := decide (reserve F r totalSize policy = .reserved)
  push := commit F
  close := setDead
  pull r _ :=
    let (r', out) := popAvailable F r
    (r', (), out)

end

variable {σ : Type} {F : OverwritingFifo σ}

/-- The queue holds the records. -/
structure Holds (F : OverwritingFifo σ) (capacity : Nat) (r : RingBuffer σ)
    (ps : List (List UInt8)) : Prop where
  contents : F.contents r.fifo = ps.flatten
  nonempty : ∀ payload ∈ ps, payload ≠ []
  capacity_le : capacity ≤ F.capacity r.fifo
  declared : r.capacity = capacity

/-- Where there is room nothing is overwritten. -/
theorem enqueues_contents {fifo : σ} {bytes : List UInt8}
    (hroom : (F.contents fifo).length + bytes.length ≤ F.capacity fifo) :
    F.contents (enqueues F fifo bytes) = F.contents fifo ++ bytes ∧
      F.capacity (enqueues F fifo bytes) = F.capacity fifo := by
  unfold enqueues
  induction bytes generalizing fifo with
  | nil => exact ⟨(List.append_nil _).symm, rfl⟩
  | cons b bytes ih =>
    rw [List.length_cons] at hroom
    have hone : F.contents (F.enqueue fifo b) = F.contents fifo ++ [b] := by
      rw [F.enqueue_contents, if_pos (by omega)]
    have hcap := F.enqueue_capacity fifo b
    obtain ⟨hcontents, hcapacity⟩ := @ih (F.enqueue fifo b) (by
      rw [hone, hcap, List.length_append, List.length_singleton]
      omega)
    rw [List.foldl_cons, hcontents, hone, List.append_assoc]
    exact ⟨rfl, hcapacity.trans hcap⟩

/-- The loop ends with nothing left. -/
theorem popLoop_contents {fifo : σ} {fuel : Nat} (out : List UInt8)
    (hfuel : (F.contents fifo).length < fuel) :
    ∃ fifo', popLoop F fuel fifo out = (fifo', out ++ F.contents fifo) ∧
      F.contents fifo' = [] ∧ F.capacity fifo' = F.capacity fifo := by
  induction fuel generalizing fifo out with
  | zero => omega
  | succ fuel ih =>
    unfold popLoop
    cases hc : F.contents fifo with
    | nil =>
      rw [F.dequeue_nil fifo hc]
      exact ⟨fifo, by rw [List.append_nil], hc, rfl⟩
    | cons b rest =>
      obtain ⟨fifo₁, hdequeue, hrest, hcap⟩ := F.dequeue_cons fifo b rest hc
      rw [hc, List.length_cons] at hfuel
      obtain ⟨fifo', hloop, hempty, hcapacity⟩ := @ih fifo₁ (out ++ [b]) (by
        rw [hrest]
        omega)
      rw [hdequeue]
      refine ⟨fifo', ?_, hempty, hcapacity.trans hcap⟩
      show popLoop F fuel fifo₁ (out ++ [b]) = _
      rw [hloop, hrest, List.append_assoc]
      rfl

theorem popAvailable_contents (r : RingBuffer σ) :
    ∃ fifo, popAvailable F r = ({ r with fifo := fifo }, F.contents r.fifo) ∧
      F.contents fifo = [] ∧ F.capacity fifo = F.capacity r.fifo := by
  have hfuel : (F.contents r.fifo).length < F.len r.fifo + 1 := by
    rw [F.len_eq]
    omega
  obtain ⟨fifo, hloop, hempty, hcapacity⟩ := popLoop_contents [] hfuel
  refine ⟨fifo, ?_, hempty, hcapacity⟩
  unfold popAvailable
  rw [hloop]
  rfl

theorem reserve_iff {capacity : Nat} {r : RingBuffer σ} {ps : List (List UInt8)}
    (hcap : capacity < wordSize) (h : Holds F capacity r ps) (totalSize : Nat)
    (policy : Backpressure) :
    reserve F r totalSize policy = .reserved ↔
      (F.contents r.fifo).length + totalSize < capacity := by
  unfold reserve
  rw [h.declared, Backends.reserveRound_reserved hcap, F.len_eq]

theorem commit_holds {capacity : Nat} {r : RingBuffer σ} {ps : List (List UInt8)}
    {bytes : List UInt8} (h : Holds F capacity r ps) (hne : bytes ≠ [])
    (hroom : (F.contents r.fifo).length + bytes.length < capacity) :
    Holds F capacity (commit F r bytes) (ps ++ [bytes]) := by
  have hle := h.capacity_le
  have hfits : (F.contents r.fifo).length + bytes.length ≤ F.capacity r.fifo := by
    omega
  obtain ⟨hcontents, hcapacity⟩ := enqueues_contents hfits
  refine ⟨?_, ?_, ?_, h.declared⟩
  · show F.contents (enqueues F r.fifo bytes) = _
    rw [hcontents, h.contents, List.flatten_append, List.flatten_singleton]
  · intro payload hp
    rcases List.mem_append.mp hp with hp | hp
    · exact h.nonempty payload hp
    · rw [List.mem_singleton.mp hp]
      exact hne
  · show capacity ≤ F.capacity (enqueues F r.fifo bytes)
    rw [hcapacity]
    exact hle

/-- The queue loses nothing. -/
def lossless (F : OverwritingFifo σ) {capacity : Nat} (hcap : capacity < wordSize) :
    Lossless (channel F) where
  Holds r _ ps := Holds F capacity r ps
  Room r n := (F.contents r.fifo).length + n < capacity
  left _ _ := 1
  ask h hgrants := (reserve_iff hcap h _ _).mp (of_decide_eq_true hgrants)
  push := commit_holds
  close h := ⟨h.contents, h.nonempty, h.capacity_le, h.declared⟩
  close_room h := h
  pull := by
    intro r _ ps h
    obtain ⟨fifo, hpop, hempty, hcapacity⟩ := popAvailable_contents (F := F) r
    refine ⟨ps, [], (List.append_nil ps).symm, ?_, ?_, fun hne => absurd rfl hne⟩
    · show (popAvailable F r).2 = _
      rw [hpop]
      exact h.contents
    · show Holds F capacity (popAvailable F r).1 []
      rw [hpop]
      exact ⟨hempty, nofun, hcapacity ▸ h.capacity_le, h.declared⟩
  pull_room := by
    intro r _ ps n h hroom
    obtain ⟨fifo, hpop, hempty, -⟩ := popAvailable_contents (F := F) r
    show (F.contents (popAvailable F r).1.fifo).length + n < capacity
    rw [hpop]
    show (F.contents fifo).length + n < capacity
    rw [hempty, List.length_nil]
    omega
  left_pos _ _ := Nat.zero_lt_one

theorem withCapacity_holds {slotSize capacity : Nat} {r : RingBuffer σ}
    (h : withCapacity F slotSize capacity = some r) : Holds F capacity r [] := by
  unfold withCapacity at h
  split at h
  next =>
    cases h
    exact ⟨F.contents_new _, nofun, F.capacity_new _, rfl⟩
  next => cases h

/-- A ring of any capacity over a queue that overwrites: nothing is ever overwritten. The
committed records are those delivered, in order and whole, and those whose bytes are in the queue;
`reserve` grants exactly what leaves a byte free beside them, under each policy; and one pass of
the drain behind the producer's exit delivers everything. -/
theorem ringbuffer_delivers (F : OverwritingFifo σ) {slotSize capacity : Nat}
    (hcap : capacity < wordSize) {r : RingBuffer σ}
    (h : withCapacity F slotSize capacity = some r)
    {s : Channel.Run (RingBuffer σ) Unit UInt8}
    (hruns : (Channel.machine (channel F)).Runs Backends.CommitsRecords
      (Channel.Run.start r ()) s) :
    (∃ ps, F.contents s.chan.fifo = ps.flatten ∧ s.pushed = Backends.delivered s ++ ps) ∧
      (∀ totalSize policy, reserve F s.chan totalSize policy = .reserved ↔
        (F.contents s.chan.fifo).length + totalSize < capacity) ∧
      ∀ n, 1 ≤ n →
        ∃ t, (Channel.machine (channel F)).run s (.close :: List.replicate n .pull) = some t ∧
          t.pushed = s.pushed ∧ Backends.delivered t = s.pushed := by
  obtain ⟨ps, hholds, hpushed, hrest⟩ :=
    Backends.delivers (lossless F hcap) (withCapacity_holds h) hruns
  exact ⟨⟨ps, hholds.contents, hpushed⟩, reserve_iff hcap hholds, hrest⟩

/-- Three records of 16 bytes leave 16: a fourth would leave no byte free. -/
theorem ringbuffer_delivers_full :
    ∃ s t, withCapacity listOverwriting 64 64 = some ⟨(64, []), true, 64⟩ ∧
      (Channel.machine (channel listOverwriting)).runWhile Backends.CommitsRecords
        (Channel.Run.start ⟨(64, []), true, 64⟩ ())
        [.ask 16 .drop, .push Streams.headerRecord, .ask 16 .block, .push Streams.headerRecord,
          .ask 16 .drop, .push Streams.headerRecord, .ask 16 .drop] = some s ∧
      s.grant = none ∧ reserve listOverwriting s.chan 16 .drop ≠ .reserved ∧
      (Channel.machine (channel listOverwriting)).run s [.close, .pull] = some t ∧
      Backends.delivered t
        = [Streams.headerRecord, Streams.headerRecord, Streams.headerRecord] := by
  have hcapacity : withCapacity listOverwriting 64 64 = some ⟨(64, []), true, 64⟩ := rfl
  obtain ⟨s, hs⟩ := Option.isSome_iff_exists.mp
    (show ((Channel.machine (channel listOverwriting)).runWhile Backends.CommitsRecords
      (Channel.Run.start ⟨(64, []), true, 64⟩ ())
      [.ask 16 .drop, .push Streams.headerRecord, .ask 16 .block, .push Streams.headerRecord,
        .ask 16 .drop, .push Streams.headerRecord, .ask 16 .drop]).isSome = true by decide +kernel)
  have hread : ((Channel.machine (channel listOverwriting)).runWhile Backends.CommitsRecords
      (Channel.Run.start ⟨(64, []), true, 64⟩ ())
      [.ask 16 .drop, .push Streams.headerRecord, .ask 16 .block, .push Streams.headerRecord,
        .ask 16 .drop, .push Streams.headerRecord, .ask 16 .drop]).map
      (fun s => (s.pushed, s.grant, s.chan.fifo.2.length))
      = some ([Streams.headerRecord, Streams.headerRecord, Streams.headerRecord], none, 48) := by
    decide +kernel
  rw [hs, Option.map_some, Option.some.injEq, Prod.mk.injEq, Prod.mk.injEq] at hread
  obtain ⟨hpushed, hgrant, hlen⟩ := hread
  obtain ⟨-, hreserve, hrest⟩ :=
    ringbuffer_delivers listOverwriting (by decide) hcapacity (Machine.runWhile_runs hs)
  obtain ⟨t, ht, -, hdelivered⟩ := hrest 1 (Nat.le_refl 1)
  refine ⟨s, t, hcapacity, hs, hgrant, ?_, ht, hdelivered.trans hpushed⟩
  intro hgranted
  have hfits : s.chan.fifo.2.length + 16 < 64 := (hreserve 16 .drop).mp hgranted
  omega

end Ringbuffer

end Ticklog
