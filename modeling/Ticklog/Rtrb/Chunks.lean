import Ticklog.Record
import Ticklog.Rtrb.Conserve

/-!
# Incomplete chunks (`src/rtrb_backend.rs`)

On the logging path records have a header and at most `maxRecordSize` bytes, and the chunk size
is what the ring was made with. A write then either completes a chunk and flushes it, or adds
one record to it (`commit_cases`), so that an incomplete chunk has fewer than `chunk_size`
records and never none with bytes of theirs (`Partial`).
-/

namespace Ticklog

open Lib

namespace Rtrb

variable {σ : Type} {F : ByteFifo σ} {s s' : Run σ}

/-- The calls of the logging path. -/
def Logs (_ : Run σ) : Action → Prop
  | .reserve totalSize _ => headerSize ≤ totalSize ∧ totalSize ≤ maxRecordSize
  | .setChunkSize _ => False
  | .put _ _ | .pop | .setDead => True

instance (s : Run σ) (a : Action) : Decidable (Logs s a) := by
  cases a <;> unfold Logs <;> infer_instance

/-- What a write of some bytes does, where it has room. -/
theorem commit_cases {core : Split σ} {bytes : List UInt8} (hne : bytes ≠ [])
    (hrecords : core.stagedRecords ≤ core.staged.length)
    (hword : core.stagedRecords + 1 < wordSize)
    (hroom : core.staged.length + bytes.length ≤ F.writable core.fifo) :
    (max core.chunkSize 1 ≤ core.stagedRecords + 1 ∧
      ∃ fifo, F.contents fifo = F.contents core.fifo ++ (core.staged ++ bytes) ∧
        commit F core bytes
          = some { core with fifo := fifo, staged := [], stagedRecords := 0 }) ∨
    (core.stagedRecords + 1 < max core.chunkSize 1 ∧
      commit F core bytes = some { core with
        staged := core.staged ++ bytes, stagedRecords := core.stagedRecords + 1 }) := by
  have hcount : wrappingAdd core.stagedRecords 1 = core.stagedRecords + 1 :=
    wrappingAdd_of_lt hword
  unfold commit
  dsimp only
  rw [hcount]
  by_cases hdirect : core.staged = [] ∧ max core.chunkSize 1 = 1
  · -- nothing staged: the record is a chunk by itself
    have hfits : bytes.length ≤ F.writable core.fifo := by omega
    obtain ⟨fifo, hflush, hcontents, -⟩ := flush_some hfits
    have hzero : core.stagedRecords = 0 := by
      rw [hdirect.1] at hrecords
      exact Nat.le_zero.mp hrecords
    left
    refine ⟨by omega, fifo, by rw [hcontents, hdirect.1, List.nil_append], ?_⟩
    rw [if_pos hdirect, if_neg hne, hflush]
    show some { core with fifo := fifo } = _
    rw [← hdirect.1, ← hzero]
  · rw [if_neg hdirect]
    unfold flushStaged
    dsimp only
    by_cases hfull : max core.chunkSize 1 ≤ core.stagedRecords + 1
    · have hsome : core.staged ++ bytes ≠ [] := fun h => hne (List.append_eq_nil_iff.mp h).2
      rw [← List.length_append] at hroom
      obtain ⟨fifo, hflush, hcontents, -⟩ := flush_some hroom
      left
      refine ⟨hfull, fifo, hcontents, ?_⟩
      rw [if_pos hfull, if_neg hsome, hflush]
      rfl
    · right
      exact ⟨Nat.lt_of_not_le hfull, if_neg hfull⟩

/-- How much an incomplete chunk holds, in a ring made with these settings. -/
structure Partial (chunk room : Nat) (s : Run σ) : Prop where
  chunk_eq : max s.core.chunkSize 1 = chunk
  room_eq : s.core.capacity = room
  below : s.core.stagedRecords < chunk
  size : s.core.staged.length ≤ s.core.stagedRecords * maxRecordSize
  records : s.core.stagedRecords ≤ s.core.staged.length
  granted : ∀ n, s.granted = some n → headerSize ≤ n ∧ n ≤ maxRecordSize

/-- The room a granted write has. -/
theorem Held.put_room {bytes : List UInt8} (h : Held F s)
    (hgranted : s.granted = some bytes.length) :
    s.core.staged.length + bytes.length ≤ F.writable s.core.fifo ∧
      s.core.staged.length + bytes.length < wordSize := by
  have hfull := F.held_add_writable s.core.fifo
  have hcap := h.capacity_eq
  have hlt := h.capacity_lt
  have hroom := h.room
  rw [hgranted] at hroom
  change _ + (_ + bytes.length) ≤ _ at hroom
  omega

theorem step_incomplete {chunk room : Nat} {a : Action} (hh : Held F s) (h : Partial chunk room s)
    (hlogs : Logs s a) (hst : Run.step F s a = some s') : Partial chunk room s' := by
  obtain ⟨hchunk, hcap, hbelow, hsize, hrecords, hsizes⟩ := h
  cases step_moved hst with
  | granted hreserve =>
    refine ⟨hchunk, hcap, hbelow, hsize, hrecords, ?_⟩
    intro n hn
    rw [← Option.some.inj hn]
    exact hlogs
  | notGranted => exact ⟨hchunk, hcap, hbelow, hsize, hrecords, hsizes⟩
  | @written how bytes core hgranted hcommit =>
    obtain ⟨hroom, hword⟩ := hh.put_room hgranted
    obtain ⟨hlo, hhi⟩ := hsizes _ hgranted
    have hheader : headerSize = 16 := rfl
    have hne : bytes ≠ [] := by
      intro hnil
      rw [hnil] at hlo
      exact absurd hlo (by decide)
    have hnone : ∀ n, (none : Option Nat) = some n → headerSize ≤ n ∧ n ≤ maxRecordSize := by
      intro n hn
      cases hn
    rcases commit_cases hne hrecords (by omega) hroom with
      ⟨-, fifo, -, hcommit'⟩ | ⟨hmore, hcommit'⟩
    · rw [hcommit] at hcommit'
      injection hcommit' with hcore
      rw [hcore]
      exact ⟨hchunk, hcap, Nat.lt_of_le_of_lt (Nat.zero_le _) hbelow, Nat.zero_le _,
        Nat.zero_le _, hnone⟩
    · rw [hcommit] at hcommit'
      injection hcommit' with hcore
      rw [hcore]
      refine ⟨hchunk, hcap, hchunk ▸ hmore, ?_, ?_, hnone⟩
      · show (s.core.staged ++ bytes).length ≤ (s.core.stagedRecords + 1) * maxRecordSize
        rw [List.length_append, Nat.succ_mul]
        exact Nat.add_le_add hsize hhi
      · show s.core.stagedRecords + 1 ≤ (s.core.staged ++ bytes).length
        rw [List.length_append]
        omega
  | panicked hgranted hcommit => exact ⟨hchunk, hcap, hbelow, hsize, hrecords, hsizes⟩
  | resized n => exact absurd hlogs id
  | popped hempty hfifo => exact ⟨hchunk, hcap, hbelow, hsize, hrecords, hsizes⟩
  | died => exact ⟨hchunk, hcap, hbelow, hsize, hrecords, hsizes⟩

/-- Along the runs of the logging path. -/
theorem runs_incomplete {slotSize capacity defaultChunk : Nat} {s₀ : Split σ}
    (hslot : slotSize = 64 ∨ slotSize = 128) (hcap : capacity < wordSize)
    (h : split F slotSize capacity defaultChunk = some s₀)
    (hruns : (rtrb F).Runs Logs (Run.start s₀) s) :
    Held F s ∧ Partial s₀.chunkSize s₀.capacity s := by
  have hheld := split_held hslot hcap h
  obtain ⟨effective, -, rfl⟩ := split_inv h
  refine Machine.Runs.invariant (I := fun s => Held F s ∧ Partial _ _ s) ?_ hruns ⟨hheld, ?_⟩
  · intro s a s' ⟨hh, hp⟩ hlogs hst
    exact ⟨step_held hh hst, step_incomplete hh hp hlogs hst⟩
  · refine ⟨Nat.max_eq_left (Nat.le_max_right _ _), rfl, Nat.le_max_right _ _, ?_, ?_, nofun⟩
    · exact Nat.zero_le _
    · exact Nat.le_refl 0

end Rtrb

end Ticklog
