import Ticklog.Rtrb.Chunks

/-!
# A producer in its own way (`RingProducer::reserve`, `src/rtrb_backend.rs`)

`reserve` counts the staged bytes against the capacity, and only the write that completes a
chunk flushes them. Where the records of an incomplete chunk leave less room than the next one
needs, no pop can help: the drain does not see the staged bytes, so the producer waits for it
forever, or drops every such record. An incomplete chunk has at most `chunk_size - 1` records of
`maxRecordSize` bytes, and any number up to that can be staged (`stage_run`), which settles for
which rings it can happen.
-/

namespace Ticklog

open Lib

namespace Rtrb

variable {σ : Type} {F : ByteFifo σ} {s₀ : Split σ}

/-- A granted reservation and the write of its bytes into an incomplete chunk. -/
theorem stage_step {s : Run σ} {len : Nat} (hh : Held F s) (hidle : s.granted = none)
    (hlo : headerSize ≤ len) (hhi : len ≤ maxRecordSize)
    (hrecords : s.core.stagedRecords ≤ s.core.staged.length)
    (hfits : (F.contents s.core.fifo).length + (s.core.staged.length + len) < s.core.capacity)
    (hmore : s.core.stagedRecords + 1 < max s.core.chunkSize 1) :
    ∃ s', (rtrb F).Runs Logs s s' ∧ s'.granted = none ∧ s'.core = { s.core with
      staged := s.core.staged ++ List.replicate len 0
      stagedRecords := s.core.stagedRecords + 1 } := by
  have hlen : (List.replicate len (0 : UInt8)).length = len := List.length_replicate
  have hne : List.replicate len (0 : UInt8) ≠ [] := by
    intro hnil
    rw [hnil] at hlen
    rw [← hlen] at hlo
    exact absurd hlo (by decide)
  have hreserve : Run.step F s (.reserve len .block) = some { s with granted := some len } := by
    unfold Run.step
    dsimp only
    rw [if_pos ⟨hidle, hh.failed⟩,
      reserve_reserved.mpr ((enough_room hh.capacity_eq hh.capacity_lt).mpr hfits)]
  have hgranted : ({ s with granted := some len } : Run σ).granted
      = some (List.replicate len (0 : UInt8)).length := by rw [hlen]
  have hroom : s.core.staged.length + (List.replicate len (0 : UInt8)).length
      ≤ F.writable s.core.fifo := ((step_held hh hreserve).put_room hgranted).1
  have hword : s.core.stagedRecords + 1 < wordSize := by
    have hlt := hh.capacity_lt
    have hheader : headerSize = 16 := rfl
    omega
  have hcommit : commit F s.core (List.replicate len 0) = some { s.core with
      staged := s.core.staged ++ List.replicate len 0
      stagedRecords := s.core.stagedRecords + 1 } := by
    rcases commit_cases hne hrecords hword hroom with ⟨hfull, -⟩ | ⟨-, hcommit⟩
    · omega
    · exact hcommit
  have hput : Run.step F { s with granted := some len }
      (.put .writeRecord (List.replicate len 0)) = some { s with
        core := { s.core with
          staged := s.core.staged ++ List.replicate len 0
          stagedRecords := s.core.stagedRecords + 1 }
        granted := none
        committed := s.committed ++ [List.replicate len 0] } := by
    unfold Run.step
    dsimp only
    rw [if_pos ⟨hgranted, hh.failed⟩, put_eq, hcommit]
  have hsizes : Logs s (.reserve len .block) := ⟨hlo, hhi⟩
  have hwrite : Logs ({ s with granted := some len } : Run σ)
      (.put .writeRecord (List.replicate len 0)) := trivial
  have hruns : (rtrb F).Runs Logs s _ := .tail (.tail (.refl s) hsizes hreserve) hwrite hput
  exact ⟨_, hruns, rfl, rfl⟩

/-- Records of one size, as many as a chunk leaves incomplete and the ring has room for. -/
theorem stage_run {slotSize capacity defaultChunk : Nat} (hslot : slotSize = 64 ∨ slotSize = 128)
    (hcap : capacity < wordSize) (h : split F slotSize capacity defaultChunk = some s₀)
    {len : Nat} (hlo : headerSize ≤ len) (hhi : len ≤ maxRecordSize) (k : Nat)
    (hchunk : k < s₀.chunkSize) (hfits : k * len < s₀.capacity) :
    ∃ s, (rtrb F).Runs Logs (Run.start s₀) s ∧ s.granted = none ∧ s.core = { s₀ with
      staged := List.replicate (k * len) 0, stagedRecords := k } := by
  induction k with
  | zero =>
    obtain ⟨effective, -, rfl⟩ := split_inv h
    refine ⟨Run.start _, .refl _, rfl, ?_⟩
    rw [Nat.zero_mul]
    rfl
  | succ k ih =>
    rw [Nat.succ_mul] at hfits
    obtain ⟨s, hruns, hidle, hcore⟩ := ih (by omega) (by omega)
    obtain ⟨hheld, hpart⟩ := runs_incomplete hslot hcap h hruns
    have hstaged : s.core.staged = List.replicate (k * len) 0 := by rw [hcore]
    have hcount : s.core.stagedRecords = k := by rw [hcore]
    have hnil : F.contents s.core.fifo = [] := by
      obtain ⟨effective, -, rfl⟩ := split_inv h
      rw [hcore]
      exact F.contents_new _
    obtain ⟨s', hmore, hidle', hcore'⟩ := stage_step hheld hidle hlo hhi hpart.records
      (by rw [hnil, hstaged, hpart.room_eq, List.length_replicate, List.length_nil]; omega)
      (by rw [hcount, hpart.chunk_eq]; exact hchunk)
    refine ⟨s', hruns.trans hmore, hidle', ?_⟩
    rw [hcore', hstaged, hcount, Nat.succ_mul, List.replicate_append_replicate, hcore]

/-- The size a ring grants when nothing is in it and nothing staged. -/
theorem reserve_fresh {slotSize capacity defaultChunk : Nat}
    (hslot : slotSize = 64 ∨ slotSize = 128) (hcap : capacity < wordSize)
    (h : split F slotSize capacity defaultChunk = some s₀) {totalSize : Nat}
    {policy : Backpressure} :
    reserve F s₀ totalSize policy = .reserved ↔ totalSize < s₀.capacity := by
  have hheld := split_held hslot hcap h
  have hfifo : F.capacity s₀.fifo = s₀.capacity := hheld.capacity_eq
  have hlt : s₀.capacity < wordSize := hheld.capacity_lt
  rw [reserve_reserved, enough_room hfifo hlt]
  obtain ⟨effective, -, rfl⟩ := split_inv h
  show (F.contents (F.new _)).length + (0 + totalSize) < _ ↔ _
  rw [F.contents_new, List.length_nil, Nat.zero_add, Nat.zero_add]

/-- Staged records and a new one that a ring of this chunk size does not take together. -/
theorem exists_overfull {chunk room : Nat} (hchunk : 2 ≤ chunk) (hroom : 63 ≤ room)
    (hover : room ≤ chunk * maxRecordSize) :
    ∃ k len totalSize, k < chunk ∧ k * len < room ∧ headerSize ≤ len ∧ len ≤ maxRecordSize ∧
      headerSize ≤ totalSize ∧ totalSize ≤ maxRecordSize ∧ totalSize < room ∧
      room ≤ k * len + totalSize := by
  have hheader : headerSize = 16 := rfl
  have hmax : maxRecordSize = 65535 := rfl
  rw [hmax] at hover
  rw [hheader, hmax]
  by_cases hsmall : room ≤ 65536
  · exact ⟨1, 16, room - 1, by omega⟩
  · -- as many of the largest as there is room for
    refine ⟨(room - 1) / 65535, 65535, 65535, ?_⟩
    omega

/-- In a split ring, whatever its capacity and chunk size: every record that fits the ring when
nothing is staged is granted whenever the drain has emptied it, exactly if a chunk is one record
or a whole chunk of the largest records leaves the ring a byte. -/
theorem self_block_iff (F : ByteFifo σ) {slotSize capacity defaultChunk : Nat} {s₀ : Split σ}
    (hslot : slotSize = 64 ∨ slotSize = 128) (hcap : capacity < wordSize)
    (h : split F slotSize capacity defaultChunk = some s₀) :
    (∀ s, (rtrb F).Runs Logs (Run.start s₀) s → F.contents s.core.fifo = [] →
      s.core.live = true → s.granted = none → ∀ totalSize policy,
        headerSize ≤ totalSize → totalSize ≤ maxRecordSize →
        reserve F s₀ totalSize policy = .reserved →
        reserve F s.core totalSize policy = .reserved) ↔
      s₀.chunkSize = 1 ∨ s₀.chunkSize * maxRecordSize < s₀.capacity := by
  constructor
  · intro hall
    by_contra hnot
    have hsize : 63 ≤ s₀.capacity ∧ 1 ≤ s₀.chunkSize ∧ s₀.live = true ∧
        F.contents s₀.fifo = [] := by
      obtain ⟨effective, heffective, rfl⟩ := split_inv h
      refine ⟨?_, Nat.le_max_right _ _, rfl, F.contents_new _⟩
      show 63 ≤ effective - 1
      rw [heffective]
      split <;> omega
    obtain ⟨hroom, hpos, hlive, hnil⟩ := hsize
    obtain ⟨k, len, totalSize, hchunk, hfits, hlo, hhi, htlo, hthi, hempty, hover⟩ :=
      exists_overfull (show 2 ≤ s₀.chunkSize by omega) hroom (by omega)
    obtain ⟨s, hruns, hidle, hcore⟩ := stage_run hslot hcap h hlo hhi k hchunk hfits
    have hheld := (runs_incomplete hslot hcap h hruns).1
    have hgrant := hall s hruns (by rw [hcore]; exact hnil) (by rw [hcore]; exact hlive) hidle
      totalSize .block htlo hthi ((reserve_fresh hslot hcap h).mpr hempty)
    rw [reserve_reserved, enough_room hheld.capacity_eq hheld.capacity_lt, hcore] at hgrant
    simp only [hnil, List.length_nil, List.length_replicate] at hgrant
    omega
  · intro hchunk s hruns hnil _ _ totalSize policy _ hhi hfresh
    obtain ⟨hheld, hpart⟩ := runs_incomplete hslot hcap h hruns
    have hfits := (reserve_fresh hslot hcap h).mp hfresh
    have hbelow := hpart.below
    have hsize := hpart.size
    rw [reserve_reserved, enough_room hheld.capacity_eq hheld.capacity_lt, hnil,
      hpart.room_eq, List.length_nil]
    rcases hchunk with hone | hmany
    · -- one record a chunk: nothing is ever staged
      have hzero : s.core.stagedRecords = 0 := by omega
      rw [hzero, Nat.zero_mul] at hsize
      omega
    · have hwhole : (s.core.stagedRecords + 1) * maxRecordSize ≤ s₀.chunkSize * maxRecordSize :=
        Nat.mul_le_mul_right _ hbelow
      rw [Nat.succ_mul] at hwhole
      omega

/-- A ring whose records go in one at a time. -/
theorem self_block_iff_direct :
    split circular 64 64 1 = some (oneSlot 1) ∧
    ∀ s, (rtrb circular).Runs Logs (Run.start (oneSlot 1)) s →
      circular.contents s.core.fifo = [] → s.core.live = true → s.granted = none →
      ∀ totalSize policy, headerSize ≤ totalSize → totalSize ≤ maxRecordSize →
        reserve circular (oneSlot 1) totalSize policy = .reserved →
        reserve circular s.core totalSize policy = .reserved := by
  have hsplit : split circular 64 64 1 = some (oneSlot 1) := rfl
  exact ⟨hsplit, (self_block_iff circular (Or.inl rfl) (by decide) hsplit).mpr (Or.inl rfl)⟩

/-- Pops of an empty FIFO. -/
theorem pops_idle {s : Run σ} (h : F.contents s.core.fifo = []) (n : Nat) :
    ∃ t, (rtrb F).run s (List.replicate n .pop) = some t ∧ t.core = s.core := by
  induction n generalizing s with
  | zero => exact ⟨s, rfl, rfl⟩
  | succ n ih =>
    have hempty : F.readable s.core.fifo = 0 := by
      rw [F.readable_eq, h]
      rfl
    have hpop : Run.step F s .pop = some { s with popped := s.popped ++ [[]] } := by
      unfold Run.step popAvailable
      dsimp only
      rw [if_pos hempty]
    obtain ⟨t, hrun, hcore⟩ := ih (s := { s with popped := s.popped ++ [[]] }) h
    refine ⟨t, ?_, hcore⟩
    rw [List.replicate_succ]
    exact Machine.run_cons hpop hrun

/-- A ring of 128 bytes and eight records a chunk. -/
def eightRecords : Split Circular := ⟨circular.new 127, 127, true, [], 0, 8⟩

/-- Two records of 60 bytes staged there keep the third out for good, with the FIFO empty. -/
theorem self_block_stuck :
    split circular 64 128 8 = some eightRecords ∧
    reserve circular eightRecords 60 .block = .reserved ∧
    ∃ s, (rtrb circular).runWhile Logs (Run.start eightRecords)
        [.reserve 60 .block, .put .writeRecord (List.replicate 60 0),
          .reserve 60 .block, .put .writeRecord (List.replicate 60 0)] = some s ∧
      circular.contents s.core.fifo = [] ∧ s.core.live = true ∧ s.granted = none ∧
      ∀ n, ∃ t, (rtrb circular).run s (List.replicate n .pop) = some t ∧
        reserve circular t.core 60 .block = .waits := by
  refine ⟨rfl, by decide, ?_⟩
  obtain ⟨s, hs⟩ := Option.isSome_iff_exists.mp
    (show ((rtrb circular).runWhile Logs (Run.start eightRecords)
      [.reserve 60 .block, .put .writeRecord (List.replicate 60 0),
        .reserve 60 .block, .put .writeRecord (List.replicate 60 0)]).isSome = true by
      decide +kernel)
  have hend : ((rtrb circular).runWhile Logs (Run.start eightRecords)
      [.reserve 60 .block, .put .writeRecord (List.replicate 60 0),
        .reserve 60 .block, .put .writeRecord (List.replicate 60 0)]).map
      (fun s => (circular.contents s.core.fifo, s.core.live, s.granted,
        reserve circular s.core 60 .block)) = some ([], true, none, .waits) := by
    decide +kernel
  rw [hs, Option.map_some, Option.some.injEq, Prod.mk.injEq, Prod.mk.injEq, Prod.mk.injEq] at hend
  obtain ⟨hnil, hlive, hidle, hwaits⟩ := hend
  refine ⟨s, hs, hnil, hlive, hidle, ?_⟩
  intro n
  obtain ⟨t, hrun, hcore⟩ := pops_idle hnil n
  exact ⟨t, hrun, by rw [hcore]; exact hwaits⟩

end Rtrb

end Ticklog
