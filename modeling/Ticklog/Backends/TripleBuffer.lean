import Ticklog.Backends.Delivery

/-!
# `backend-triple-buffer` (`src/triple_buffer_backend.rs`)

The third-party exchange holds one value, and publishing replaces one that was not fetched.
`reserve` therefore waits for the fetch, whatever the policy: `Drop` degrades to `Block`. The
drain's `pop_available` first fetches the value and then copies it, and the producer may publish
the next one in between, so two records at most are on their way (`Holds`).
-/

namespace Ticklog

open Lib

namespace TripleBuffer

/-- `RingBuffer`: the input half, the output half and `live`. -/
structure RingBuffer (σ : Type) where
  exchange : σ
  live : Bool

/-- Where the drain stands inside `pop_available`. -/
inductive Pop where
  /-- About to `update`. -/
  | update
  /-- About to copy the output buffer. -/
  | copy
deriving DecidableEq, Repr

section

variable {σ : Type} (T : Lib.TripleBuffer σ (List UInt8))

/-- `with_capacity`, whose capacity has no effect beyond its debug assertion (a power of two):
the buffers start at the largest record. -/
def withCapacity : RingBuffer σ := ⟨T.new (List.replicate maxRecordSize 0), true⟩

/-- One round of `reserve`, behind its debug assertion that the size is a record's. -/
def reserve (r : RingBuffer σ) (_totalSize : Nat) (_policy : Backpressure) : Rtrb.Reserve :=
  if T.consumed r.exchange then .reserved else if r.live then .waits else .refused

def commit (r : RingBuffer σ) (bytes : List UInt8) : RingBuffer σ :=
  { r with exchange := T.publish r.exchange bytes }

def setDead (r : RingBuffer σ) : RingBuffer σ := { r with live := false }

/-- `pop_available`, access by access. -/
def popAvailable (r : RingBuffer σ) : Pop → RingBuffer σ × Pop × List UInt8
  | .update =>
    let (exchange, updated) := T.update r.exchange
    if updated then ({ r with exchange := exchange }, .copy, [])
    else ({ r with exchange := exchange }, .update, [])
  | .copy => (r, .update, T.outputBuffer r.exchange)

def channel : Channel (RingBuffer σ) Backpressure Pop UInt8 where
  grants r totalSize policy := decide (reserve T r totalSize policy = .reserved)
  push := commit T
  close := setDead
  pull := popAvailable T

end

variable {σ : Type} {T : Lib.TripleBuffer σ (List UInt8)}

/-- The record the drain is about to copy. -/
def fetched (T : Lib.TripleBuffer σ (List UInt8)) (r : RingBuffer σ) : Pop → List (List UInt8)
  | .update => []
  | .copy => [T.outputBuffer r.exchange]

/-- The records on their way: the one fetched, and the one published. -/
def Holds (T : Lib.TripleBuffer σ (List UInt8)) (r : RingBuffer σ) (p : Pop)
    (ps : List (List UInt8)) : Prop :=
  ps = fetched T r p ++ (T.outstanding r.exchange).toList

/-- The accesses a drain on its own makes until it has everything. -/
def accessesLeft (T : Lib.TripleBuffer σ (List UInt8)) (r : RingBuffer σ) : Pop → Nat
  | .update => 2
  | .copy => if (T.outstanding r.exchange).isSome then 3 else 1

theorem reserve_iff (r : RingBuffer σ) (totalSize : Nat) (policy : Backpressure) :
    (reserve T r totalSize policy = .reserved ↔ T.outstanding r.exchange = none) ∧
      (reserve T r totalSize policy = .refused ↔
        T.outstanding r.exchange ≠ none ∧ r.live = false) := by
  unfold reserve
  rw [T.consumed_eq]
  cases T.outstanding r.exchange with
  | none =>
    rw [if_pos Option.isNone_none]
    exact ⟨iff_of_true rfl rfl, iff_of_false nofun fun h => h.1 rfl⟩
  | some bytes =>
    rw [if_neg nofun]
    cases r.live with
    | false => exact ⟨iff_of_false nofun nofun, iff_of_true rfl ⟨nofun, rfl⟩⟩
    | true => exact ⟨iff_of_false nofun nofun, iff_of_false nofun fun h => nomatch h.2⟩

theorem commit_holds {r : RingBuffer σ} {p : Pop} {ps : List (List UInt8)} {bytes : List UInt8}
    (h : Holds T r p ps) (hroom : T.outstanding r.exchange = none) :
    Holds T (commit T r bytes) p (ps ++ [bytes]) := by
  unfold Holds at h ⊢
  rw [hroom] at h
  show ps ++ [bytes] = fetched T (commit T r bytes) p ++ (T.outstanding (T.publish _ _)).toList
  rw [T.publish_outstanding, h]
  cases p with
  | update => rfl
  | copy =>
    show [_] ++ [] ++ [bytes] = [T.outputBuffer (T.publish r.exchange bytes)] ++ [bytes]
    rw [T.publish_output]
    rfl

theorem popAvailable_holds {r : RingBuffer σ} {p : Pop} {ps : List (List UInt8)}
    (h : Holds T r p ps) : ∃ taken rest, ps = taken ++ rest ∧
      (popAvailable T r p).2.2 = taken.flatten ∧
      Holds T (popAvailable T r p).1 (popAvailable T r p).2.1 rest ∧
      (rest ≠ [] → accessesLeft T (popAvailable T r p).1 (popAvailable T r p).2.1
        < accessesLeft T r p) := by
  unfold Holds at h ⊢
  cases p with
  | update =>
    have hnone := T.update_outstanding r.exchange
    have hfetched := T.update_fetched r.exchange
    have houtput := T.update_output r.exchange
    refine ⟨[], ps, rfl, ?_⟩
    unfold popAvailable
    dsimp only
    cases hout : T.outstanding r.exchange with
    | none =>
      rw [hout] at h hfetched
      rw [hfetched, if_neg nofun, hnone]
      exact ⟨rfl, h, fun hne => absurd h hne⟩
    | some bytes =>
      rw [hout] at h hfetched houtput
      rw [hfetched, if_pos Option.isSome_some]
      refine ⟨rfl, ?_, fun _ => ?_⟩
      · show ps = [T.outputBuffer (T.update r.exchange).1]
          ++ (T.outstanding (T.update r.exchange).1).toList
        rw [houtput, hnone]
        exact h
      · show (if (T.outstanding (T.update r.exchange).1).isSome then 3 else 1) < 2
        rw [hnone]
        exact Nat.lt_succ_self 1
  | copy =>
    refine ⟨[T.outputBuffer r.exchange], (T.outstanding r.exchange).toList, h, ?_, rfl, ?_⟩
    · exact List.flatten_singleton.symm
    · intro hne
      show 2 < if (T.outstanding r.exchange).isSome then 3 else 1
      cases hout : T.outstanding r.exchange with
      | none =>
        rw [hout] at hne
        exact absurd rfl hne
      | some bytes => exact Nat.lt_succ_self 2

/-- The exchange loses nothing. -/
def lossless (T : Lib.TripleBuffer σ (List UInt8)) : Lossless (channel T) where
  Holds := Holds T
  Room r _ := T.outstanding r.exchange = none
  left := accessesLeft T
  ask _ hgrants := (reserve_iff _ _ _).1.mp (of_decide_eq_true hgrants)
  push h _ hroom := commit_holds h hroom
  close := by
    intro r p ps h
    cases p <;> exact h
  close_room h := h
  pull := popAvailable_holds
  pull_room := by
    intro r p ps n _ hroom
    cases p with
    | update =>
      show T.outstanding (popAvailable T r .update).1.exchange = none
      unfold popAvailable
      dsimp only
      split <;> exact T.update_outstanding _
    | copy => exact hroom
  left_pos := by
    intro r p ps _ _
    cases p with
    | update => exact Nat.zero_lt_succ 1
    | copy =>
      show 0 < if (T.outstanding r.exchange).isSome then 3 else 1
      split
      · exact Nat.zero_lt_succ 2
      · exact Nat.zero_lt_one

theorem accessesLeft_le (r : RingBuffer σ) (p : Pop) : accessesLeft T r p ≤ 3 := by
  unfold accessesLeft
  repeat' split
  all_goals omega

/-- The exchange in every interleaving of the producer with the drain's single accesses: nothing
published is ever replaced before it is fetched. The committed records are those delivered, in
order and whole, and at most two more; `reserve` grants exactly when the last one was fetched and
gives up only on a dead ring, whatever the size the assertion lets pass and the policy; and when
the producer has exited, three accesses of the drain, or more, deliver everything. -/
theorem tripleBuffer_delivers (T : Lib.TripleBuffer σ (List UInt8))
    {s : Channel.Run (RingBuffer σ) Pop UInt8}
    (hruns : (Channel.machine (channel T)).Runs Backends.CommitsRecords
      (Channel.Run.start (withCapacity T) .update) s) :
    (∃ ps, s.pushed = Backends.delivered s ++ ps ∧ ps.length ≤ 2) ∧
      (∀ totalSize policy,
        (reserve T s.chan totalSize policy = .reserved ↔ T.outstanding s.chan.exchange = none) ∧
        (reserve T s.chan totalSize policy = .refused ↔
          T.outstanding s.chan.exchange ≠ none ∧ s.chan.live = false)) ∧
      ∀ n, 3 ≤ n →
        ∃ t, (Channel.machine (channel T)).run s (.close :: List.replicate n .pull) = some t ∧
          t.pushed = s.pushed ∧ Backends.delivered t = s.pushed := by
  have hstart : Holds T (withCapacity T) .update [] := by
    show [] = [] ++ (T.outstanding (T.new _)).toList
    rw [T.outstanding_new]
    rfl
  obtain ⟨ps, hholds, hpushed, hrest⟩ := Backends.delivers (lossless T) hstart hruns
  refine ⟨⟨ps, hpushed, ?_⟩, reserve_iff s.chan, ?_⟩
  · have hps : ps = fetched T s.chan s.reader ++ (T.outstanding s.chan.exchange).toList := hholds
    have hone : (fetched T s.chan s.reader).length ≤ 1 := by
      cases s.reader with
      | update => exact Nat.zero_le 1
      | copy => exact Nat.le_refl 1
    have htwo : (T.outstanding s.chan.exchange).toList.length ≤ 1 := by
      cases T.outstanding s.chan.exchange with
      | none => exact Nat.zero_le 1
      | some bytes => exact Nat.le_refl 1
    rw [hps, List.length_append]
    omega
  · intro n hn
    exact hrest n (Nat.le_trans (accessesLeft_le _ _) hn)

/-- The second record is published between the drain's fetch of the first and its copy. -/
theorem tripleBuffer_delivers_two :
    ∃ s t, (Channel.machine (channel (listSlot (List UInt8)))).runWhile Backends.CommitsRecords
        (Channel.Run.start (withCapacity (listSlot (List UInt8))) .update)
        [.ask 16 .drop, .push Streams.headerRecord, .ask 16 .drop, .pull, .ask 16 .drop,
          .push Streams.headerRecord] = some s ∧
      s.pushed = [Streams.headerRecord, Streams.headerRecord] ∧
      (Channel.machine (channel (listSlot (List UInt8)))).run s [.close, .pull, .pull, .pull]
        = some t ∧
      Backends.delivered t = s.pushed := by
  obtain ⟨s, hs⟩ := Option.isSome_iff_exists.mp
    (show ((Channel.machine (channel (listSlot (List UInt8)))).runWhile Backends.CommitsRecords
      (Channel.Run.start (withCapacity (listSlot (List UInt8))) .update)
      [.ask 16 .drop, .push Streams.headerRecord, .ask 16 .drop, .pull, .ask 16 .drop,
        .push Streams.headerRecord]).isSome = true by decide +kernel)
  have hread : ((Channel.machine (channel (listSlot (List UInt8)))).runWhile
      Backends.CommitsRecords (Channel.Run.start (withCapacity (listSlot (List UInt8))) .update)
      [.ask 16 .drop, .push Streams.headerRecord, .ask 16 .drop, .pull, .ask 16 .drop,
        .push Streams.headerRecord]).map Channel.Run.pushed
      = some [Streams.headerRecord, Streams.headerRecord] := by
    decide +kernel
  rw [hs, Option.map_some, Option.some.injEq] at hread
  obtain ⟨-, -, hrest⟩ :=
    tripleBuffer_delivers (listSlot (List UInt8)) (Machine.runWhile_runs hs)
  obtain ⟨t, ht, -, hdelivered⟩ := hrest 3 (Nat.le_refl 3)
  exact ⟨s, t, hs, hread, ht, hdelivered⟩

end TripleBuffer

end Ticklog
