import Ticklog.Drain.Streams
import Ticklog.Rtrb.SelfBlock

/-!
# The last records of an exiting producer (`ThreadBuf::drop`, `src/rtrb_backend.rs`)

`ThreadBuf::drop` stores `live` and nothing else, and the drain then gives the ring its final
pass. Whole records go through the FIFO, so a pass delivers all that it pops; but an incomplete
chunk is in the producer's own `staged`, where no pass looks, and is dropped with it. That the
final drain "captures every record it published before exiting" (`sync_rings`) holds if the
records are a whole number of chunks.
-/

namespace Ticklog

open Lib

namespace Rtrb

variable {σ : Type} {F : ByteFifo σ} {s s' : Run σ} {s₀ : Split σ}

/-- The logging path, writing records. -/
def LogsRecords (s : Run σ) (a : Action) : Prop :=
  Logs s a ∧ match a with
    | .put _ bytes => Fifo.IsRecord bytes
    | _ => True

instance (s : Run σ) (a : Action) : Decidable (LogsRecords s a) :=
  match a with
  | .put how bytes => inferInstanceAs (Decidable (Logs s (.put how bytes) ∧ Fifo.IsRecord bytes))
  | .reserve totalSize policy =>
    inferInstanceAs (Decidable (Logs s (.reserve totalSize policy) ∧ True))
  | .setChunkSize n => inferInstanceAs (Decidable (Logs s (.setChunkSize n) ∧ True))
  | .pop => inferInstanceAs (Decidable (Logs s .pop ∧ True))
  | .setDead => inferInstanceAs (Decidable (Logs s .setDead ∧ True))

/-- The sink of a ring's passes. -/
def accept (record : List UInt8) (_ : Level) (log : List (List UInt8)) : List (List UInt8) :=
  log ++ [record]

/-- What `drain_ring` delivers of the bytes it pops into a cleared `staging`. -/
def pass (popped : List UInt8) : List (List UInt8) :=
  match Fifo.drainRing (Fifo.raw accept) popped (popped.length + 1) [] with
  | some (_, _, log) => log
  | none => []

/-- The records delivered. -/
def Run.delivered (s : Run σ) : List (List UInt8) := s.popped.flatMap pass

theorem deliverAll_accept (records log : List (List UInt8)) :
    Fifo.deliverAll accept records log = log ++ records := by
  unfold Fifo.deliverAll
  induction records generalizing log with
  | nil => exact (List.append_nil log).symm
  | cons record records ih =>
    rw [List.foldl_cons, ih]
    exact List.append_assoc log [record] records

/-- Of whole records it delivers each. -/
theorem pass_records {records : List (List UInt8)}
    (h : ∀ record ∈ records, Fifo.IsRecord record) : pass records.flatten = records := by
  have hfuel : records.length < records.flatten.length + 1 :=
    Nat.lt_succ_of_le (length_le_flatten fun record hr => (h record hr).ne_nil)
  have hend : ([] : List UInt8) = [] ∨ Fifo.IsRecord [] ∧ ([] : List UInt8) <+: [] ∧
      ([] : List UInt8).length < ([] : List UInt8).length := Or.inl rfl
  obtain ⟨hadWork, hdrain⟩ := Fifo.drainRing_records accept h hend hfuel []
  rw [List.append_nil, deliverAll_accept] at hdrain
  unfold pass
  rw [hdrain]
  rfl

/-- The committed records: those delivered, those in the FIFO and those staged; the first two
make up whole chunks. -/
structure Chunked (F : ByteFifo σ) (chunk : Nat) (s : Run σ) (ring staged : List (List UInt8)) :
    Prop where
  committed : s.committed = s.delivered ++ (ring ++ staged)
  ring_eq : F.contents s.core.fifo = ring.flatten
  staged_eq : s.core.staged = staged.flatten
  count : staged.length = s.core.stagedRecords
  chunks : chunk ∣ (s.delivered ++ ring).length
  records : ∀ record ∈ s.committed, Fifo.IsRecord record

theorem step_chunked {chunk room : Nat} {a : Action} {ring staged : List (List UInt8)}
    (hh : Held F s) (hp : Partial chunk room s) (h : Chunked F chunk s ring staged)
    (hlogs : LogsRecords s a) (hst : Run.step F s a = some s') :
    ∃ ring' staged', Chunked F chunk s' ring' staged' := by
  obtain ⟨hcommitted, hring, hstaged, hcount, hchunks, hrecords⟩ := h
  cases step_moved hst with
  | granted hreserve => exact ⟨ring, staged, hcommitted, hring, hstaged, hcount, hchunks, hrecords⟩
  | notGranted => exact ⟨ring, staged, hcommitted, hring, hstaged, hcount, hchunks, hrecords⟩
  | @written how bytes core hgranted hcommit =>
    obtain ⟨hroom, hword⟩ := hh.put_room hgranted
    have hrecord : Fifo.IsRecord bytes := hlogs.2
    have hlen : headerSize ≤ bytes.length := hrecord.1
    have hheader : headerSize = 16 := rfl
    have hbelow := hp.below
    have hchunk := hp.chunk_eq
    have hcounted := hp.records
    have hrecords' : ∀ record ∈ s.committed ++ [bytes], Fifo.IsRecord record := by
      intro record hr
      rcases List.mem_append.mp hr with hr | hr
      · exact hrecords record hr
      · rw [List.mem_singleton.mp hr]
        exact hrecord
    have hflat : (staged ++ [bytes]).flatten = staged.flatten ++ bytes := by
      rw [List.flatten_append]
      exact congrArg _ (List.append_nil bytes)
    have hmore : s.committed ++ [bytes] = s.delivered ++ (ring ++ (staged ++ [bytes])) := by
      rw [hcommitted, List.append_assoc, List.append_assoc]
    rcases commit_cases hrecord.ne_nil hcounted (by omega) hroom with
      ⟨hfull, fifo, hcontents, hcommit'⟩ | ⟨-, hcommit'⟩
    · -- the chunk is complete, and goes into the FIFO
      rw [hcommit] at hcommit'
      injection hcommit' with hcore
      rw [hcore]
      refine ⟨ring ++ (staged ++ [bytes]), [], ?_, ?_, rfl, rfl, ?_, hrecords'⟩
      · show s.committed ++ [bytes] = s.delivered ++ (ring ++ (staged ++ [bytes]) ++ [])
        rw [List.append_nil]
        exact hmore
      · show F.contents fifo = _
        rw [hcontents, hring, hstaged, List.flatten_append, hflat]
      · show chunk ∣ (s.delivered ++ (ring ++ (staged ++ [bytes]))).length
        have hsize : (staged ++ [bytes]).length = chunk := by
          rw [List.length_append, List.length_singleton]
          omega
        rw [← List.append_assoc, List.length_append, hsize]
        exact Nat.dvd_add hchunks (Nat.dvd_refl chunk)
    · rw [hcommit] at hcommit'
      injection hcommit' with hcore
      rw [hcore]
      refine ⟨ring, staged ++ [bytes], hmore, hring, ?_, ?_, hchunks, hrecords'⟩
      · show s.core.staged ++ bytes = _
        rw [hflat, hstaged]
      · show (staged ++ [bytes]).length = s.core.stagedRecords + 1
        rw [List.length_append, hcount]
        rfl
  | panicked hgranted hcommit =>
    exact ⟨ring, staged, hcommitted, hring, hstaged, hcount, hchunks, hrecords⟩
  | resized n => exact absurd hlogs.1 id
  | @popped fifo hempty hfifo =>
    have hpass : (s.popped ++ [F.contents s.core.fifo]).flatMap pass = s.delivered ++ ring := by
      have hin : ∀ record ∈ ring, Fifo.IsRecord record := by
        intro record hr
        refine hrecords record ?_
        rw [hcommitted]
        exact List.mem_append_right _ (List.mem_append_left _ hr)
      rw [List.flatMap_append, List.flatMap_singleton, hring, pass_records hin]
      rfl
    refine ⟨[], staged, ?_, hempty, hstaged, hcount, ?_, hrecords⟩
    · show s.committed = (s.popped ++ [F.contents s.core.fifo]).flatMap pass ++ ([] ++ staged)
      rw [hpass, hcommitted, List.append_assoc, List.nil_append]
    · show chunk ∣ ((s.popped ++ [F.contents s.core.fifo]).flatMap pass ++ []).length
      rw [hpass, List.append_nil]
      exact hchunks
  | died => exact ⟨ring, staged, hcommitted, hring, hstaged, hcount, hchunks, hrecords⟩

/-- Along the runs of the logging path. -/
theorem runs_chunked {slotSize capacity defaultChunk : Nat}
    (hslot : slotSize = 64 ∨ slotSize = 128) (hcap : capacity < wordSize)
    (h : split F slotSize capacity defaultChunk = some s₀)
    (hruns : (rtrb F).Runs LogsRecords (Run.start s₀) s) :
    ∃ ring staged, Chunked F s₀.chunkSize s ring staged := by
  have hstart := split_held hslot hcap h
  have hpart := (runs_incomplete hslot hcap h (.refl _)).2
  have hfirst : Chunked F s₀.chunkSize (Run.start s₀) [] [] := by
    obtain ⟨effective, -, rfl⟩ := split_inv h
    exact ⟨rfl, F.contents_new _, rfl, rfl, Nat.dvd_zero _, nofun⟩
  have hall : (Held F s ∧ Partial s₀.chunkSize s₀.capacity s) ∧
      ∃ ring staged, Chunked F s₀.chunkSize s ring staged := by
    refine Machine.Runs.invariant (I := fun s => (Held F s ∧ Partial _ _ s) ∧
      ∃ ring staged, Chunked F _ s ring staged) ?_ hruns ⟨⟨hstart, hpart⟩, [], [], hfirst⟩
    rintro s a s' ⟨⟨hh, hp⟩, ring, staged, hc⟩ hlogs hst
    exact ⟨⟨step_held hh hst, step_incomplete hh hp hlogs.1 hst⟩, step_chunked hh hp hc hlogs hst⟩
  exact hall.2

/-- Nothing is in the FIFO behind a pop. -/
theorem pop_some (s : Run σ) :
    ∃ t, Run.step F s .pop = some t ∧ t.committed = s.committed ∧
      t.core.live = s.core.live ∧ F.contents t.core.fifo = [] := by
  obtain ⟨fifo, hpop, hempty, -⟩ := popAvailable_some (F := F) s.core
  refine ⟨{ s with
    core := { s.core with fifo := fifo }
    popped := s.popped ++ [F.contents s.core.fifo] }, ?_, rfl, rfl, hempty⟩
  unfold Run.step
  dsimp only
  rw [hpop]

theorem pops_some (s : Run σ) (n : Nat) :
    ∃ t, (rtrb F).run s (List.replicate n .pop) = some t ∧ t.committed = s.committed ∧
      t.core.live = s.core.live ∧ (rtrb F).Runs LogsRecords s t := by
  induction n generalizing s with
  | zero => exact ⟨s, rfl, rfl, rfl, .refl s⟩
  | succ n ih =>
    obtain ⟨s', hpop, hcommitted, hlive, -⟩ := pop_some (F := F) s
    obtain ⟨t, hrun, hcommitted', hlive', hruns⟩ := ih s'
    have hlogs : LogsRecords s .pop := ⟨trivial, trivial⟩
    have hall : (rtrb F).run s (List.replicate (n + 1) .pop) = some t := by
      rw [List.replicate_succ]
      exact Machine.run_cons hpop hrun
    exact ⟨t, hall, hcommitted'.trans hcommitted, hlive'.trans hlive,
      (Machine.Runs.single hlogs hpop).trans hruns⟩

/-- What is left out behind a pop is the incomplete chunk. -/
theorem Chunked.delivered_iff {chunk room : Nat} {ring staged : List (List UInt8)}
    (h : Chunked F chunk s ring staged) (hp : Partial chunk room s)
    (hempty : F.contents s.core.fifo = []) :
    s.delivered <+: s.committed ∧ (s.delivered = s.committed ↔ chunk ∣ s.committed.length) := by
  have hnone : ring = [] := by
    cases ring with
    | nil => rfl
    | cons record ring =>
      have hne : record ≠ [] := by
        refine (h.records record ?_).ne_nil
        rw [h.committed]
        exact List.mem_append_right _ List.mem_cons_self
      have hflat := h.ring_eq
      rw [hempty, List.flatten_cons] at hflat
      exact absurd (List.append_eq_nil_iff.mp hflat.symm).1 hne
  have hcommitted := h.committed
  have hchunks := h.chunks
  rw [hnone, List.nil_append] at hcommitted
  rw [hnone, List.append_nil] at hchunks
  have hbelow : staged.length < chunk := by
    rw [h.count]
    exact hp.below
  refine ⟨⟨staged, hcommitted.symm⟩, ?_⟩
  rw [hcommitted, List.length_append]
  constructor
  · intro hall
    have hlen := congrArg List.length hall
    rw [List.length_append] at hlen
    rw [← hlen]
    exact hchunks
  · intro hdvd
    have hstaged : chunk ∣ staged.length := (Nat.dvd_add_right hchunks).mp hdvd
    have hzero : staged = [] :=
      List.length_eq_zero_iff.mp (Nat.eq_zero_of_dvd_of_lt hstaged hbelow)
    rw [hzero, List.append_nil]

/-- A producer that has logged in any way, with drain passes in between, exits, and the drain
passes over its ring again, at least once: what was delivered is what was committed, or the
beginning of it, and all of it exactly if the records are a whole number of chunks. -/
theorem exit_delivered_iff (F : ByteFifo σ) {slotSize capacity defaultChunk : Nat} {s₀ : Split σ}
    (hslot : slotSize = 64 ∨ slotSize = 128) (hcap : capacity < wordSize)
    (h : split F slotSize capacity defaultChunk = some s₀) {s : Run σ}
    (hruns : (rtrb F).Runs LogsRecords (Run.start s₀) s) (n : Nat) :
    ∃ t, (rtrb F).run s (.setDead :: List.replicate (n + 1) .pop) = some t ∧
      t.core.live = false ∧ t.committed = s.committed ∧ t.delivered <+: t.committed ∧
      (t.delivered = t.committed ↔ s₀.chunkSize ∣ s.committed.length) := by
  have hdead : (rtrb F).step s .setDead = some { s with core := setDead s.core } := rfl
  obtain ⟨s₁, hpops, hcommitted₁, hlive₁, hruns₁⟩ :=
    pops_some (F := F) { s with core := setDead s.core } n
  obtain ⟨t, hpop, hcommitted, hlive, hempty⟩ := pop_some (F := F) s₁
  have hlogs : LogsRecords s .setDead := ⟨trivial, trivial⟩
  have hlast : LogsRecords s₁ .pop := ⟨trivial, trivial⟩
  have hall : (rtrb F).Runs LogsRecords (Run.start s₀) t :=
    .tail ((hruns.tail hlogs hdead).trans hruns₁) hlast hpop
  have hpart := (runs_incomplete hslot hcap h (hall.mono fun _ _ hl => hl.1)).2
  obtain ⟨ring, staged, hchunked⟩ := runs_chunked hslot hcap h hall
  obtain ⟨hbegins, hiff⟩ := hchunked.delivered_iff hpart hempty
  have hsame : t.committed = s.committed := hcommitted.trans hcommitted₁
  refine ⟨t, ?_, hlive.trans hlive₁, hsame, hbegins, hsame ▸ hiff⟩
  rw [List.replicate_succ']
  refine Machine.run_cons hdead ?_
  rw [Machine.run_append hpops]
  exact Machine.run_cons hpop rfl

/-- Two records in chunks of two. -/
theorem exit_delivered_iff_two :
    ∃ s t, (rtrb circular).runWhile LogsRecords (Run.start (oneSlot 2))
        [.reserve 16 .block, .put .writeRecord Streams.headerRecord,
          .reserve 16 .block, .put .writeRecord Streams.headerRecord] = some s ∧
      (rtrb circular).run s [.setDead, .pop] = some t ∧ t.core.live = false ∧
      t.committed = s.committed ∧ t.delivered <+: t.committed ∧
      (t.delivered = t.committed ↔ 2 ∣ s.committed.length) := by
  obtain ⟨s, hs⟩ := Option.isSome_iff_exists.mp
    (show ((rtrb circular).runWhile LogsRecords (Run.start (oneSlot 2))
      [.reserve 16 .block, .put .writeRecord Streams.headerRecord,
        .reserve 16 .block, .put .writeRecord Streams.headerRecord]).isSome = true by
      decide +kernel)
  have hsplit : split circular 64 64 2 = some (oneSlot 2) := rfl
  obtain ⟨t, ht⟩ := exit_delivered_iff circular (Or.inl rfl) (by decide) hsplit
    (Machine.runWhile_runs hs) 0
  exact ⟨s, t, hs, ht⟩

/-- One record in chunks of two is never delivered. -/
theorem exit_delivered_lost :
    split circular 64 64 2 = some (oneSlot 2) ∧
    ∃ s, (rtrb circular).runWhile LogsRecords (Run.start (oneSlot 2))
        [.reserve 16 .block, .put .writeRecord Streams.headerRecord, .setDead, .pop] = some s ∧
      s.core.live = false ∧ s.committed = [Streams.headerRecord] ∧ s.delivered = [] := by
  refine ⟨rfl, ?_⟩
  obtain ⟨s, hs⟩ := Option.isSome_iff_exists.mp
    (show ((rtrb circular).runWhile LogsRecords (Run.start (oneSlot 2))
      [.reserve 16 .block, .put .writeRecord Streams.headerRecord, .setDead, .pop]).isSome = true by
      decide +kernel)
  have hend : ((rtrb circular).runWhile LogsRecords (Run.start (oneSlot 2))
      [.reserve 16 .block, .put .writeRecord Streams.headerRecord, .setDead, .pop]).map
      (fun s => (s.core.live, s.committed, s.delivered))
      = some (false, [Streams.headerRecord], []) := by
    decide +kernel
  rw [hs, Option.map_some, Option.some.injEq, Prod.mk.injEq, Prod.mk.injEq] at hend
  exact ⟨s, hs, hend⟩

end Rtrb

end Ticklog
