import Ticklog.Rtrb.Backend

/-!
# Every byte of the rtrb backend is in one place (`src/rtrb_backend.rs`)

The bytes popped, those in the FIFO and those staged are the committed records one behind the
other, whatever the order of calls and however `chunk_size` changes. The invariant (`Held`) has
the room beside it: what is staged and what is granted fit the FIFO, so a flush never meets a
full one.
-/

namespace Ticklog

open Lib

namespace Rtrb

variable {σ : Type} {F : ByteFifo σ} {s s' : Run σ}

/-- Where the bytes are, and that those still to be written have room. -/
structure Held (F : ByteFifo σ) (s : Run σ) : Prop where
  failed : s.failed = false
  capacity_eq : F.capacity s.core.fifo = s.core.capacity
  capacity_lt : s.core.capacity < wordSize
  bytes : s.popped.flatten ++ (F.contents s.core.fifo ++ s.core.staged) = s.committed.flatten
  room : (F.contents s.core.fifo).length + (s.core.staged.length + s.granted.getD 0)
    ≤ s.core.capacity

/-- A size that `reserve` grants fits behind what is staged. -/
theorem enough_room {core : Split σ} (hcap : F.capacity core.fifo = core.capacity)
    (hlt : core.capacity < wordSize) {totalSize : Nat} :
    enough F core totalSize = true ↔
      (F.contents core.fifo).length + (core.staged.length + totalSize) < core.capacity := by
  have hfull := F.held_add_writable core.fifo
  have hoccupied : core.capacity - F.writable core.fifo = (F.contents core.fifo).length := by
    omega
  unfold enough
  dsimp only
  rw [hoccupied, decide_eq_true_eq]
  unfold saturatingAdd
  omega

theorem reserve_reserved {core : Split σ} {totalSize : Nat} {policy : Backpressure} :
    reserve F core totalSize policy = .reserved ↔ enough F core totalSize = true := by
  unfold reserve
  by_cases h : enough F core totalSize = true
  · rw [if_pos h]
    exact iff_of_true rfl h
  · rw [if_neg h]
    refine iff_of_false ?_ h
    cases policy with
    | drop => exact nofun
    | block | nanoLog | quill =>
      show ¬ (if core.live = true then Reserve.waits else .refused) = .reserved
      split <;> exact nofun

/-- What a flush of the staged chunk leaves. -/
theorem flushStaged_some {core : Split σ} (chunkSize : Nat)
    (hroom : core.staged.length ≤ F.writable core.fifo) :
    ∃ core', flushStaged F chunkSize core = some core' ∧ core'.capacity = core.capacity ∧
      F.capacity core'.fifo = F.capacity core.fifo ∧
      F.contents core'.fifo ++ core'.staged = F.contents core.fifo ++ core.staged := by
  unfold flushStaged
  by_cases hfull : chunkSize ≤ core.stagedRecords
  · rw [if_pos hfull]
    by_cases hnil : core.staged = []
    · rw [if_pos hnil]
      exact ⟨core, rfl, rfl, rfl, rfl⟩
    · obtain ⟨fifo, hflush, hcontents, hcap⟩ := flush_some hroom
      rw [if_neg hnil, hflush]
      refine ⟨_, rfl, rfl, hcap, ?_⟩
      show F.contents fifo ++ [] = _
      rw [List.append_nil, hcontents]
  · rw [if_neg hfull]
    exact ⟨core, rfl, rfl, rfl, rfl⟩

/-- A write with room for it goes behind what is in the FIFO and staged. -/
theorem commit_some {core : Split σ} {bytes : List UInt8}
    (hroom : core.staged.length + bytes.length ≤ F.writable core.fifo) :
    ∃ core', commit F core bytes = some core' ∧ core'.capacity = core.capacity ∧
      F.capacity core'.fifo = F.capacity core.fifo ∧
      F.contents core'.fifo ++ core'.staged
        = F.contents core.fifo ++ core.staged ++ bytes := by
  unfold commit
  dsimp only
  by_cases hdirect : core.staged = [] ∧ max core.chunkSize 1 = 1
  · rw [if_pos hdirect]
    by_cases hnil : bytes = []
    · rw [if_pos hnil, hnil]
      exact ⟨core, rfl, rfl, rfl, (List.append_nil _).symm⟩
    · have hbytes : bytes.length ≤ F.writable core.fifo := by omega
      obtain ⟨fifo, hflush, hcontents, hcap⟩ := flush_some hbytes
      rw [if_neg hnil, hflush]
      refine ⟨_, rfl, rfl, hcap, ?_⟩
      show F.contents fifo ++ core.staged = _
      rw [hcontents, hdirect.1, List.append_nil, List.append_nil]
  · rw [if_neg hdirect]
    rw [← List.length_append] at hroom
    obtain ⟨core', hflush, hcap, hfifo, hbytes⟩ := flushStaged_some (max core.chunkSize 1)
      (show ({ core with
        staged := core.staged ++ bytes
        stagedRecords := wrappingAdd core.stagedRecords 1 } : Split σ).staged.length
          ≤ F.writable core.fifo from hroom)
    refine ⟨core', hflush, hcap, hfifo, ?_⟩
    rw [hbytes, List.append_assoc]

theorem step_held {a : Action} (h : Held F s) (hst : Run.step F s a = some s') : Held F s' := by
  obtain ⟨hfailed, hcap, hlt, hbytes, hroom⟩ := h
  have hfull := F.held_add_writable s.core.fifo
  have hfits : ∀ {bytes : List UInt8}, s.granted = some bytes.length →
      s.core.staged.length + bytes.length ≤ F.writable s.core.fifo := by
    intro bytes hgranted
    rw [hgranted] at hroom
    change _ + (_ + bytes.length) ≤ _ at hroom
    omega
  cases step_moved hst with
  | granted hreserve =>
    refine ⟨hfailed, hcap, hlt, hbytes, ?_⟩
    exact Nat.le_of_lt ((enough_room hcap hlt).mp (reserve_reserved.mp hreserve))
  | notGranted => exact ⟨hfailed, hcap, hlt, hbytes, hroom⟩
  | @written how bytes core hgranted hcommit =>
    obtain ⟨core', hcommit', hcap', hfifo, hplace⟩ := commit_some (hfits hgranted)
    rw [hcommit] at hcommit'
    injection hcommit' with hcore
    subst hcore
    refine ⟨hfailed, ?_, ?_, ?_, ?_⟩
    · show F.capacity core.fifo = core.capacity
      rw [hfifo, hcap', hcap]
    · show core.capacity < wordSize
      rw [hcap']
      exact hlt
    · show s.popped.flatten ++ (F.contents core.fifo ++ core.staged)
        = (s.committed ++ [bytes]).flatten
      rw [hplace, ← List.append_assoc, hbytes, List.flatten_append]
      exact congrArg _ (List.append_nil bytes).symm
    · show (F.contents core.fifo).length + (core.staged.length + 0) ≤ core.capacity
      have hroom' := hfits hgranted
      have hlen := congrArg List.length hplace
      simp only [List.length_append] at hlen
      rw [hcap']
      omega
  | panicked hgranted hcommit =>
    -- a granted write has room, and the `expect` of its flush does not fire
    obtain ⟨core', hcommit', -⟩ := commit_some (hfits hgranted)
    rw [hcommit] at hcommit'
    cases hcommit'
  | resized n =>
    show Held F { s with core := setChunkSize s.core n }
    unfold setChunkSize
    split
    next => exact ⟨hfailed, hcap, hlt, hbytes, hroom⟩
    next => exact ⟨hfailed, hcap, hlt, hbytes, hroom⟩
  | @popped fifo hempty hfifo =>
    refine ⟨hfailed, hfifo.trans hcap, hlt, ?_, ?_⟩
    · show (s.popped ++ [F.contents s.core.fifo]).flatten ++ (F.contents fifo ++ s.core.staged) = _
      rw [List.flatten_append, hempty, ← hbytes, List.append_assoc, List.nil_append]
      exact congrArg (fun bytes => s.popped.flatten ++ (bytes ++ s.core.staged))
        (List.append_nil (F.contents s.core.fifo))
    · show (F.contents fifo).length + (s.core.staged.length + s.granted.getD 0) ≤ s.core.capacity
      rw [hempty, List.length_nil]
      omega
  | died => exact ⟨hfailed, hcap, hlt, hbytes, hroom⟩

/-- What `split` makes. -/
theorem split_inv {slotSize capacity defaultChunk : Nat} {s₀ : Split σ}
    (h : split F slotSize capacity defaultChunk = some s₀) :
    ∃ effective, effective = (if capacity < slotSize then slotSize else capacity) ∧
      s₀ = ⟨F.new (effective - 1), effective - 1, true, [], 0, max defaultChunk 1⟩ := by
  by_cases hpow : isPowerOfTwo (if capacity < slotSize then slotSize else capacity) = true
  · have hsome : split F slotSize capacity defaultChunk = some _ := if_pos hpow
    rw [hsome] at h
    exact ⟨_, rfl, (Option.some.inj h).symm⟩
  · have hnone : split F slotSize capacity defaultChunk = none := if_neg hpow
    rw [hnone] at h
    cases h

theorem split_held {slotSize capacity defaultChunk : Nat} {s₀ : Split σ}
    (hslot : slotSize = 64 ∨ slotSize = 128) (hcap : capacity < wordSize)
    (h : split F slotSize capacity defaultChunk = some s₀) : Held F (Run.start s₀) := by
  obtain ⟨effective, heffective, rfl⟩ := split_inv h
  have hword : wordSize = 2 ^ 64 := rfl
  have hlt : effective < wordSize := by
    rw [heffective]
    split <;> omega
  refine ⟨rfl, F.capacity_new _, ?_, ?_, ?_⟩
  · show effective - 1 < wordSize
    omega
  · show [] ++ (F.contents (F.new (effective - 1)) ++ []) = []
    rw [F.contents_new]
    rfl
  · show (F.contents (F.new (effective - 1))).length + (0 + 0) ≤ effective - 1
    rw [F.contents_new]
    exact Nat.zero_le _

/-- A call, and what it may be replaced by. -/
inductive Replaces : Action → Action → Prop where
  | same (a : Action) : Replaces a a
  | write (bytes : List UInt8) : Replaces (.put .writeRecord bytes) (.put .commit bytes)

theorem step_replaces {a b : Action} (h : Replaces a b) (s : Run σ) :
    Run.step F s a = Run.step F s b := by
  cases h with
  | same => rfl
  | write bytes =>
    unfold Run.step
    dsimp only
    rw [put_eq, put_eq]

theorem run_replaces {as bs : List Action} (h : List.Forall₂ Replaces as bs) (s : Run σ) :
    (rtrb F).run s as = (rtrb F).run s bs := by
  induction h generalizing s with
  | nil => rfl
  | cons hab _ ih =>
    have hst : (rtrb F).step s _ = (rtrb F).step s _ := step_replaces hab s
    unfold Machine.run
    rw [hst]
    split
    next s' _ => exact ih s'
    next => rfl

/-- A split ring of any capacity over any bounded byte FIFO, in any order of calls: no `expect`
of the producer fires; what was popped, what is in the FIFO and what is staged are the committed
records; and `commit` in the place of `write_record` is no different, at any time. -/
theorem rtrb_conserves (F : ByteFifo σ) {slotSize capacity defaultChunk : Nat} {s₀ : Split σ}
    (hslot : slotSize = 64 ∨ slotSize = 128) (hcap : capacity < wordSize)
    (h : split F slotSize capacity defaultChunk = some s₀) :
    (∀ s, (rtrb F).Reach (Run.start s₀) s → s.failed = false ∧
      s.popped.flatten ++ (F.contents s.core.fifo ++ s.core.staged) = s.committed.flatten) ∧
    ∀ as bs, List.Forall₂ Replaces as bs →
      (rtrb F).run (Run.start s₀) as = (rtrb F).run (Run.start s₀) bs := by
  refine ⟨?_, fun as bs hab => run_replaces hab _⟩
  intro s hreach
  have hheld := Machine.Runs.invariant (I := Held F) (fun _ _ _ hi _ hst => step_held hi hst)
    hreach (split_held hslot hcap h)
  exact ⟨hheld.failed, hheld.bytes⟩

/-- The smallest ring. -/
def oneSlot (chunkSize : Nat) : Split Circular :=
  ⟨circular.new 63, 63, true, [], 0, chunkSize⟩

/-- Its second record wraps. -/
theorem rtrb_conserves_wrapped :
    ∃ s, (rtrb circular).run (Run.start (oneSlot 1))
        [.reserve 40 .drop, .put .writeRecord (List.replicate 40 1), .pop,
          .reserve 40 .drop, .put .writeRecord (List.replicate 40 2)] = some s ∧
      s.failed = false ∧
      s.popped.flatten ++ (circular.contents s.core.fifo ++ s.core.staged)
        = s.committed.flatten := by
  obtain ⟨s, hs⟩ := Option.isSome_iff_exists.mp
    (show ((rtrb circular).run (Run.start (oneSlot 1))
      [.reserve 40 .drop, .put .writeRecord (List.replicate 40 1), .pop,
        .reserve 40 .drop, .put .writeRecord (List.replicate 40 2)]).isSome = true by
      decide +kernel)
  have hsplit : split circular 64 64 1 = some (oneSlot 1) := rfl
  exact ⟨s, hs, (rtrb_conserves circular (Or.inl rfl) (by decide) hsplit).1 s
    (Machine.run_runs hs)⟩

end Rtrb

end Ticklog
