import Ticklog.Backends.Delivery

/-!
# `backend-ringbuf` (`src/ringbuf_backend.rs`)

The two halves of the third-party queue are under locks of their own, so the producer may commit
between any two accesses of a `pop_available`: the test for emptiness, the read of
`occupied_len`, and the pop of that many bytes. The pop then takes what was there at the read. A
commit is one `push_slice`, hence that is a number of whole records (`Holds`).
-/

namespace Ticklog

open Lib

namespace Ringbuf

/-- `RingBuffer`, the two halves of its queue as one. -/
structure RingBuffer (σ : Type) where
  fifo : σ
  live : Bool
  capacity : Nat
  /-- A `debug_assert` of `commit` has failed. -/
  short : Bool

/-- Where the drain stands inside `pop_available`. -/
inductive Pop where
  /-- About to test `is_empty`. -/
  | isEmpty
  | occupiedLen
  | popSlice (avail : Nat)
deriving DecidableEq, Repr

section

variable {σ : Type} (F : SliceFifo σ)

/-- `none` is the panic on the capacity. -/
def withCapacity (slotSize capacity : Nat) : Option (RingBuffer σ) :=
  if Rtrb.isPowerOfTwo capacity ∧ slotSize ≤ capacity then
    some ⟨F.new capacity, true, capacity, false⟩
  else none

/-- One round of `reserve`. -/
def reserve (r : RingBuffer σ) (totalSize : Nat) (policy : Backpressure) : Rtrb.Reserve :=
  Backends.reserveRound (F.occupied r.fifo) r.capacity totalSize r.live policy

def commit (r : RingBuffer σ) (bytes : List UInt8) : RingBuffer σ :=
  let (fifo, pushed) := F.pushSlice r.fifo bytes
  { r with fifo := fifo, short := r.short || decide (pushed ≠ bytes.length) }

def setDead (r : RingBuffer σ) : RingBuffer σ := { r with live := false }

/-- `pop_available`, access by access. -/
def popAvailable (r : RingBuffer σ) : Pop → RingBuffer σ × Pop × List UInt8
  | .isEmpty => if F.occupied r.fifo = 0 then (r, .isEmpty, []) else (r, .occupiedLen, [])
  | .occupiedLen =>
    let avail := F.occupied r.fifo
    if avail = 0 then (r, .isEmpty, []) else (r, .popSlice avail, [])
  | .popSlice avail =>
    let (fifo, popped) := F.popSlice r.fifo avail
    ({ r with fifo := fifo }, .isEmpty, popped)

def channel : Channel (RingBuffer σ) Backpressure Pop UInt8 where
  grants r totalSize policy := decide (reserve F r totalSize policy = .reserved)
  push := commit F
  close := setDead
  pull := popAvailable F

end

variable {σ : Type} {F : SliceFifo σ}

/-- The queue holds the records, and the drain knows of the first ones. -/
structure Holds (F : SliceFifo σ) (capacity : Nat) (r : RingBuffer σ) (p : Pop)
    (ps : List (List UInt8)) : Prop where
  contents : F.contents r.fifo = ps.flatten
  nonempty : ∀ payload ∈ ps, payload ≠ []
  capacity_eq : F.capacity r.fifo = capacity
  declared : r.capacity = capacity
  short : r.short = false
  known : ∀ avail, p = .popSlice avail →
    ∃ taken rest, ps = taken ++ rest ∧ avail = taken.flatten.length

/-- The accesses a drain on its own makes until it has everything. -/
def accessesLeft (F : SliceFifo σ) (r : RingBuffer σ) : Pop → Nat
  | .isEmpty => 3
  | .occupiedLen => 2
  | .popSlice avail => if avail = (F.contents r.fifo).length then 1 else 4

theorem Holds.occupied_ne {capacity : Nat} {r : RingBuffer σ} {p : Pop} {ps : List (List UInt8)}
    (h : Holds F capacity r p ps) (hne : ps ≠ []) : F.occupied r.fifo ≠ 0 := by
  intro hzero
  rw [F.occupied_eq, h.contents] at hzero
  cases ps with
  | nil => exact hne rfl
  | cons payload ps =>
    have hnil := List.length_eq_zero_iff.mp hzero
    rw [List.flatten_cons] at hnil
    exact h.nonempty payload List.mem_cons_self (List.append_eq_nil_iff.mp hnil).1

theorem commit_holds {capacity : Nat} {r : RingBuffer σ} {p : Pop} {ps : List (List UInt8)}
    {bytes : List UInt8} (h : Holds F capacity r p ps) (hne : bytes ≠ [])
    (hroom : (F.contents r.fifo).length + bytes.length < capacity) :
    Holds F capacity (commit F r bytes) p (ps ++ [bytes]) := by
  have hall : bytes.length ≤ F.capacity r.fifo - (F.contents r.fifo).length := by
    rw [h.capacity_eq]
    omega
  refine ⟨?_, ?_, ?_, h.declared, ?_, ?_⟩
  · show F.contents (F.pushSlice r.fifo bytes).1 = _
    rw [F.push_contents, List.take_of_length_le hall, h.contents, List.flatten_append,
      List.flatten_singleton]
  · intro payload hp
    rcases List.mem_append.mp hp with hp | hp
    · exact h.nonempty payload hp
    · rw [List.mem_singleton.mp hp]
      exact hne
  · show F.capacity (F.pushSlice r.fifo bytes).1 = _
    rw [F.push_capacity]
    exact h.capacity_eq
  · show (r.short || decide ((F.pushSlice r.fifo bytes).2 ≠ bytes.length)) = false
    rw [F.push_count, Nat.min_eq_left hall, h.short]
    simp
  · intro avail hp
    obtain ⟨taken, rest, hps, havail⟩ := h.known avail hp
    refine ⟨taken, rest ++ [bytes], ?_, havail⟩
    rw [hps, List.append_assoc]

theorem popAvailable_holds {capacity : Nat} {r : RingBuffer σ} {p : Pop} {ps : List (List UInt8)}
    (h : Holds F capacity r p ps) : ∃ taken rest, ps = taken ++ rest ∧
      (popAvailable F r p).2.2 = taken.flatten ∧
      Holds F capacity (popAvailable F r p).1 (popAvailable F r p).2.1 rest ∧
      (rest ≠ [] → accessesLeft F (popAvailable F r p).1 (popAvailable F r p).2.1
        < accessesLeft F r p) := by
  -- an access that takes nothing only moves the drain
  have hmove : ∀ {q : Pop}, (∀ avail, q = .popSlice avail →
      ∃ taken rest, ps = taken ++ rest ∧ avail = taken.flatten.length) →
      Holds F capacity r q ps := by
    intro q hq
    exact ⟨h.contents, h.nonempty, h.capacity_eq, h.declared, h.short, hq⟩
  cases p with
  | isEmpty =>
    refine ⟨[], ps, rfl, ?_⟩
    unfold popAvailable
    dsimp only
    split
    next hzero => exact ⟨rfl, h, fun hne => absurd hzero (h.occupied_ne hne)⟩
    next =>
      refine ⟨rfl, hmove ?_, fun _ => Nat.lt_succ_self 2⟩
      intro avail havail
      cases havail
  | occupiedLen =>
    refine ⟨[], ps, rfl, ?_⟩
    unfold popAvailable
    dsimp only
    split
    next hzero =>
      refine ⟨rfl, hmove ?_, fun hne => absurd hzero (h.occupied_ne hne)⟩
      intro avail havail
      cases havail
    next =>
      refine ⟨rfl, hmove ?_, fun _ => ?_⟩
      · intro avail havail
        cases havail
        refine ⟨ps, [], (List.append_nil ps).symm, ?_⟩
        rw [F.occupied_eq, h.contents]
      · show (if F.occupied r.fifo = _ then 1 else 4) < 2
        rw [if_pos (F.occupied_eq _)]
        exact Nat.lt_succ_self 1
  | popSlice avail =>
    obtain ⟨taken, rest, rfl, rfl⟩ := h.known avail rfl
    have hcontents := h.contents
    rw [List.flatten_append] at hcontents
    have hin : ∀ payload ∈ rest, payload ≠ [] :=
      fun payload hp => h.nonempty payload (List.mem_append_right _ hp)
    have hafter : Holds F capacity { r with fifo := (F.popSlice r.fifo taken.flatten.length).1 }
        .isEmpty rest := by
      refine ⟨?_, hin, ?_, h.declared, h.short, ?_⟩
      · show F.contents (F.popSlice r.fifo taken.flatten.length).1 = _
        rw [F.pop_contents, hcontents, List.drop_left]
      · show F.capacity (F.popSlice r.fifo taken.flatten.length).1 = _
        rw [F.pop_capacity]
        exact h.capacity_eq
      · intro avail havail
        cases havail
    refine ⟨taken, rest, rfl, ?_, hafter, ?_⟩
    · show (F.popSlice r.fifo taken.flatten.length).2 = _
      rw [F.pop_bytes, hcontents, List.take_left]
    · -- more came behind what the drain knew of
      intro hne
      have hmore := hafter.occupied_ne hne
      rw [F.occupied_eq, hafter.contents] at hmore
      show 3 < if taken.flatten.length = (F.contents r.fifo).length then 1 else 4
      rw [if_neg]
      · exact Nat.lt_succ_self 3
      · rw [hcontents, List.length_append]
        omega

theorem reserve_iff {capacity : Nat} {r : RingBuffer σ} {p : Pop} {ps : List (List UInt8)}
    (hcap : capacity < wordSize) (h : Holds F capacity r p ps) (totalSize : Nat)
    (policy : Backpressure) :
    reserve F r totalSize policy = .reserved ↔
      (F.contents r.fifo).length + totalSize < capacity := by
  unfold reserve
  rw [h.declared, Backends.reserveRound_reserved hcap, F.occupied_eq]

/-- The queue loses nothing. -/
def lossless (F : SliceFifo σ) {capacity : Nat} (hcap : capacity < wordSize) :
    Lossless (channel F) where
  Holds := Holds F capacity
  Room r n := (F.contents r.fifo).length + n < capacity
  left := accessesLeft F
  ask h hgrants := (reserve_iff hcap h _ _).mp (of_decide_eq_true hgrants)
  push := commit_holds
  close h := ⟨h.contents, h.nonempty, h.capacity_eq, h.declared, h.short, h.known⟩
  close_room h := h
  pull := popAvailable_holds
  pull_room := by
    intro r p ps n h hroom
    obtain ⟨taken, rest, rfl, -, hafter, -⟩ := popAvailable_holds h
    rw [h.contents, List.flatten_append, List.length_append] at hroom
    show (F.contents (popAvailable F r p).1.fifo).length + n < capacity
    rw [hafter.contents]
    omega
  left_pos := by
    intro r p ps h hne
    cases p with
    | isEmpty => exact Nat.zero_lt_succ 2
    | occupiedLen => exact Nat.zero_lt_succ 1
    | popSlice avail =>
      show 0 < if avail = (F.contents r.fifo).length then 1 else 4
      split
      · exact Nat.zero_lt_one
      · exact Nat.zero_lt_succ 3

theorem accessesLeft_le (F : SliceFifo σ) (r : RingBuffer σ) (p : Pop) :
    accessesLeft F r p ≤ 4 := by
  unfold accessesLeft
  repeat' split
  all_goals omega

theorem withCapacity_holds {slotSize capacity : Nat} {r : RingBuffer σ}
    (h : withCapacity F slotSize capacity = some r) : Holds F capacity r .isEmpty [] := by
  unfold withCapacity at h
  split at h
  next =>
    cases h
    refine ⟨F.contents_new _, nofun, F.capacity_new _, rfl, rfl, ?_⟩
    intro avail havail
    cases havail
  next => cases h

/-- A ring of any capacity over any such queue, in every interleaving of the producer with the
drain's single accesses: no `push_slice` is short; the committed records are those delivered, in
order and whole, and those whose bytes are in the queue; `reserve` grants exactly what leaves a
byte free beside them, under each policy; and when the producer has exited, four accesses of the
drain, or more, deliver everything. -/
theorem ringbuf_delivers (F : SliceFifo σ) {slotSize capacity : Nat} (hcap : capacity < wordSize)
    {r : RingBuffer σ} (h : withCapacity F slotSize capacity = some r)
    {s : Channel.Run (RingBuffer σ) Pop UInt8}
    (hruns : (Channel.machine (channel F)).Runs Backends.CommitsRecords
      (Channel.Run.start r .isEmpty) s) :
    s.chan.short = false ∧
      (∃ ps, F.contents s.chan.fifo = ps.flatten ∧ s.pushed = Backends.delivered s ++ ps) ∧
      (∀ totalSize policy, reserve F s.chan totalSize policy = .reserved ↔
        (F.contents s.chan.fifo).length + totalSize < capacity) ∧
      ∀ n, 4 ≤ n →
        ∃ t, (Channel.machine (channel F)).run s (.close :: List.replicate n .pull) = some t ∧
          t.pushed = s.pushed ∧ Backends.delivered t = s.pushed := by
  obtain ⟨ps, hholds, hpushed, hrest⟩ :=
    Backends.delivers (lossless F hcap) (withCapacity_holds h) hruns
  refine ⟨hholds.short, ⟨ps, hholds.contents, hpushed⟩, reserve_iff hcap hholds, ?_⟩
  intro n hn
  exact hrest n (Nat.le_trans (accessesLeft_le F _ _) hn)

/-- A commit between the drain's read of the length and its pop stays for the next pass. -/
theorem ringbuf_delivers_between :
    ∃ s t, withCapacity listFifo 64 64 = some ⟨(64, []), true, 64, false⟩ ∧
      (Channel.machine (channel listFifo)).runWhile Backends.CommitsRecords
        (Channel.Run.start ⟨(64, []), true, 64, false⟩ .isEmpty)
        [.ask 16 .drop, .push Streams.headerRecord, .pull, .pull, .ask 16 .block,
          .push Streams.headerRecord, .pull] = some s ∧
      Backends.delivered s = [Streams.headerRecord] ∧ s.chan.short = false ∧
      (Channel.machine (channel listFifo)).run s [.close, .pull, .pull, .pull, .pull] = some t ∧
      Backends.delivered t = [Streams.headerRecord, Streams.headerRecord] := by
  have hcapacity : withCapacity listFifo 64 64 = some ⟨(64, []), true, 64, false⟩ := rfl
  obtain ⟨s, hs⟩ := Option.isSome_iff_exists.mp
    (show ((Channel.machine (channel listFifo)).runWhile Backends.CommitsRecords
      (Channel.Run.start ⟨(64, []), true, 64, false⟩ .isEmpty)
      [.ask 16 .drop, .push Streams.headerRecord, .pull, .pull, .ask 16 .block,
        .push Streams.headerRecord, .pull]).isSome = true by decide +kernel)
  have hread : ((Channel.machine (channel listFifo)).runWhile Backends.CommitsRecords
      (Channel.Run.start ⟨(64, []), true, 64, false⟩ .isEmpty)
      [.ask 16 .drop, .push Streams.headerRecord, .pull, .pull, .ask 16 .block,
        .push Streams.headerRecord, .pull]).map (fun s => (s.pushed, Backends.delivered s))
      = some ([Streams.headerRecord, Streams.headerRecord], [Streams.headerRecord]) := by
    decide +kernel
  rw [hs, Option.map_some, Option.some.injEq, Prod.mk.injEq] at hread
  obtain ⟨hshort, -, -, hrest⟩ :=
    ringbuf_delivers listFifo (by decide) hcapacity (Machine.runWhile_runs hs)
  obtain ⟨t, ht, -, hdelivered⟩ := hrest 4 (Nat.le_refl 4)
  exact ⟨s, t, hcapacity, hs, hread.2, hshort, ht, hdelivered.trans hread.1⟩

end Ringbuf

end Ticklog
