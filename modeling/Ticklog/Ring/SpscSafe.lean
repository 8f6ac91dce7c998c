import Ticklog.Ring.SpscDrain

/-!
# What one producer and one drain guarantee

The ring invariant over whole runs, and its three readings: the region the drain has
not released is never written, the sink holds a prefix of what was published, and a
pass that saw the last publication delivers everything.
-/

namespace Ticklog

open Lib

namespace Spsc

variable {g : Geometry} {fast : Bool} {policy : Backpressure} {s s' : Spsc}

/-- Every access keeps the invariant while fewer than `2^64` bytes are written. -/
theorem step_inv {a : SpscAction} (h : SpscInv g s) (hw : s.written < wordSize)
    (hw' : s'.written < wordSize) (hstep : step g fast policy s a = some s') :
    SpscInv g s' := by
  cases a with
  | reserve total => exact reserve_inv h hw hstep
  | loadTail => exact loadTail_inv h hw hstep
  | eobByte => exact eobByte_inv h hstep
  | write i b => exact write_inv h hstep
  | publish => exact publish_inv h hstep hw'
  | abandon => exact abandon_inv h hstep
  | setDead =>
    cases hstep
    exact setDead_inv h
  | drain =>
    cases hstep
    exact drainStep_inv h hw

/-- A drain access leaves the producer's history alone. -/
@[simp] theorem drainStep_published : (drainStep g s).published = s.published := by
  fun_cases drainStep g s <;> rfl

@[simp] theorem drainStep_written : (drainStep g s).written = s.written := by
  fun_cases drainStep g s <;> rfl

/-- Only a publication touches the producer's history, and it appends one framed
record. -/
theorem step_history {a : SpscAction} (hstep : step g fast policy s a = some s') :
    (s'.published = s.published ∧ s'.written = s.written) ∨
    ∃ rec n, framed rec.length rec = true ∧ s'.published = s.published ++ [rec] ∧
      s'.written = s.written + n := by
  cases a with
  | reserve total =>
    simp only [step, reserve] at hstep
    repeat' split at hstep
    all_goals cases hstep <;> exact Or.inl ⟨rfl, rfl⟩
  | loadTail =>
    simp only [step, loadTail] at hstep
    repeat' split at hstep
    all_goals cases hstep <;> exact Or.inl ⟨rfl, rfl⟩
  | eobByte =>
    simp only [step, eobByte] at hstep
    split at hstep
    all_goals cases hstep <;> exact Or.inl ⟨rfl, rfl⟩
  | write i b =>
    simp only [step, write] at hstep
    repeat' split at hstep
    all_goals cases hstep <;> exact Or.inl ⟨rfl, rfl⟩
  | publish =>
    simp only [step, publish] at hstep
    split at hstep
    next head total hpc =>
      split at hstep
      next hfr =>
        cases hstep
        refine Or.inr ⟨_, _, ?_, rfl, rfl⟩
        rw [slice_length]
        exact hfr
      next => cases hstep
    next => cases hstep
  | abandon =>
    simp only [step, abandon] at hstep
    split at hstep
    all_goals cases hstep <;> exact Or.inl ⟨rfl, rfl⟩
  | setDead =>
    cases hstep
    exact Or.inl ⟨rfl, rfl⟩
  | drain =>
    cases hstep
    exact Or.inl ⟨drainStep_published, drainStep_written⟩

/-- `head` only advances. -/
theorem step_written_le {a : SpscAction} (hstep : step g fast policy s a = some s') :
    s.written ≤ s'.written := by
  rcases step_history hstep with ⟨-, hw⟩ | ⟨rec, n, -, -, hw⟩ <;> omega

/-- The invariant holds along every run that writes fewer than `2^64` bytes. -/
theorem reach_inv {data : Nat → UInt8} (h : (spsc g fast policy).Reach (Spsc.init data) s)
    (hw : s.written < wordSize) : SpscInv g s := by
  refine Machine.Runs.invariant_of_bounded (f := Spsc.written) (b := wordSize)
    (fun _ _ _ _ hst => step_written_le hst) ?_ h (init_inv g data) hw
  intro s₁ a s₂ hinv hlt _ hst
  exact step_inv hinv (Nat.lt_of_le_of_lt (step_written_le hst) hlt) hlt hst

/-! ## Reading the invariant -/

/-- No storage byte of `[tail, head)` is the target of a producer store, and every
store stays inside the buffer. -/
theorem writeAddr_free {a : SpscAction} {addr : Nat} (h : SpscInv g s)
    (haddr : writeAddr g s a = some addr) :
    addr < g.capacity ∧ ∀ p, s.ring.tail ≤ p → p < s.ring.head → g.offset p ≠ addr := by
  have hprod := h.producer
  unfold ProducerInv at hprod
  have htail := h.tail_le
  -- every store goes to the offset of a position in `[head, tail + capacity)`
  have hfree : ∀ q, addr = g.offset q → s.ring.head ≤ q → q < s.ring.tail + g.capacity →
      addr < g.capacity ∧ ∀ p, s.ring.tail ≤ p → p < s.ring.head → g.offset p ≠ addr := by
    intro q hq hlo hhi
    subst hq
    exact ⟨g.offset_lt q, fun p hp hp' => g.offset_ne (by omega) (by omega)⟩
  unfold writeAddr at haddr
  split at haddr
  next =>
    split at haddr
    next head total k hpc =>
      rw [hpc] at hprod
      obtain ⟨hg, hwr, hk, -⟩ := hprod
      have hhead : head = s.ring.head := hg.1
      have hdvd : g.slotSize ∣ head := hhead ▸ h.head_dvd
      cases haddr
      exact hfree _ (eob_addr hdvd hk).1 (by omega)
        (hg.lt_of_lt h (eob_lt_needed hdvd hwr hk))
    next => cases haddr
  next i b =>
    split at haddr
    next head total hpc =>
      rw [hpc] at hprod
      obtain ⟨hg, -⟩ := hprod
      have hhead : head = s.ring.head := hg.1
      split at haddr
      next hi =>
        cases haddr
        obtain ⟨q, hdst, hlo, hhi, -⟩ := dst_add_eq (g := g) hg.2.2.1 (hg.aligned_le h) hi
        exact hfree q hdst (by omega) (hg.lt_of_lt h hhi)
      next => cases haddr
    next => cases haddr
  next => cases haddr

/-- Every storage byte the drain loads is one of `[tail, head)`. -/
theorem readAddr_published {addr : Nat} (h : SpscInv g s) (haddr : readAddr g s = some addr) :
    ∃ p, s.ring.tail ≤ p ∧ p < s.ring.head ∧ g.offset p = addr := by
  have hd := h.drain
  unfold DrainInv at hd
  unfold readAddr at haddr
  split at haddr
  next t hc acc hpc =>
    simp only [hpc] at hd
    obtain ⟨ht, hdvd, hlt, ⟨recs, recs', -, -, h2, -⟩, -, -⟩ := hd
    have hle := h2.le
    -- both are slot boundaries, so a whole slot is between them
    have hslot : g.slotSize ≤ s.ring.head - t :=
      Nat.le_of_dvd (by omega) (Nat.dvd_sub h.head_dvd hdvd)
    have hpos := g.slot_pos
    have hrem := g.slot_le_remaining hdvd
    unfold Geometry.remainingPhys at hrem
    dsimp only at haddr
    rw [prefixLen_eq hdvd] at haddr
    split at haddr
    next hfour =>
      cases haddr
      exact ⟨t + acc.length, by omega, by omega, g.offset_add (by omega)⟩
    next => cases haddr
  next t hc total acc hpc =>
    simp only [hpc] at hd
    obtain ⟨ht, hdvd, rec, ⟨recs, recs', -, hrec, h1, h2, -⟩, rfl, -, -⟩ := hd
    have hle := h1.le
    have hle' := h2.le
    have hrem := hrec.le_remaining
    have hal := le_aligned_rec (g := g) hrec.size_ok.2
    unfold Geometry.remainingPhys at hrem
    split at haddr
    next hmore =>
      cases haddr
      exact ⟨t + acc.length, by omega, by omega, g.offset_add (by omega)⟩
    next => cases haddr
  next => cases haddr

/-- The sink has been handed published records only, in order, from the first on. -/
theorem sink_le_published (h : SpscInv g s) : s.sink <+: s.published := by
  have hpend : ∀ {t hc : Nat}, Pending g s t hc → s.sink <+: s.published := by
    intro t hc hp
    obtain ⟨recs, recs', hpub, -⟩ := hp
    exact ⟨recs ++ recs', by rw [hpub, List.append_assoc]⟩
  have hd := h.drain
  unfold DrainInv at hd
  cases hpc : s.drain with
  | idle => simp only [hpc] at hd; exact hpend hd.2
  | loadHead t => simp only [hpc] at hd; exact hpend hd.2.2
  | scan t hc => simp only [hpc] at hd; exact hpend hd.2.2
  | readPrefix t hc acc => simp only [hpc] at hd; exact hpend hd.2.2.2.1
  | readRecord t hc total acc =>
    simp only [hpc] at hd
    obtain ⟨-, -, rec, ⟨recs, recs', hpub, -⟩, -⟩ := hd
    exact ⟨(rec :: recs) ++ recs', by rw [hpub, List.append_assoc]⟩
  | storeTail t hc => simp only [hpc] at hd; exact hpend hd.2.2.2

/-- Between two passes the sink holds what the latest head load saw. -/
theorem sink_of_idle (h : SpscInv g s) (hpc : s.drain = .idle) :
    s.sink = s.published.take s.seen := by
  have hd := h.drain
  unfold DrainInv at hd
  simp only [hpc] at hd
  obtain ⟨recs', hpub, -, hseen⟩ := hd.2.at_end
  rw [hpub, hseen, List.take_left]

/-- A published record is a `LOG_RECORD` that frames itself: never a filler. -/
theorem published_framed {data : Nat → UInt8}
    (h : (spsc g fast policy).Reach (Spsc.init data) s) :
    ∀ rec, rec ∈ s.published → framed rec.length rec = true := by
  refine Machine.Runs.invariant
    (I := fun s => ∀ rec, rec ∈ s.published → framed rec.length rec = true) ?_ h
    (fun rec hrec => absurd hrec (by simp [Spsc.init]))
  intro s₁ a s₂ hinv _ hstep rec hrec
  rcases step_history hstep with ⟨hpub, -⟩ | ⟨new, n, hfr, hpub, -⟩
  · rw [hpub] at hrec
    exact hinv rec hrec
  · rw [hpub] at hrec
    rcases List.mem_append.mp hrec with hrec | hrec
    · exact hinv rec hrec
    · rw [List.mem_singleton.mp hrec]
      exact hfr

/-! ## A pass runs to its end -/

/-- After the head load the drain only leaves a pass by finishing it. -/
theorem drainStep_not_load (hidle : s.drain ≠ .idle) :
    ∀ t, (drainStep g s).drain ≠ .loadHead t := by
  intro t
  fun_cases drainStep g s <;> simp_all

theorem drainStep_seen (hload : ∀ t, s.drain ≠ .loadHead t) :
    (drainStep g s).seen = s.seen := by
  fun_cases drainStep g s <;> simp_all

/-- A pass that goes on behind its first access. -/
theorem iterate_inside {n : Nat} (hidle : s.drain ≠ .idle)
    (hin : ∀ k < n, ((drainStep g)^[k] (drainStep g s)).drain ≠ .idle) :
    ∀ k < n + 1, ((drainStep g)^[k] s).drain ≠ .idle := by
  intro k hk
  cases k with
  | zero => exact hidle
  | succ k => exact hin k (by omega)

/-- By its own accesses alone the drain finishes the pass it is in: `n` of them, and until
then it is in that pass. -/
theorem pass_ends (h : SpscInv g s) (hw : s.written < wordSize)
    (hload : ∀ t, s.drain ≠ .loadHead t) :
    ∃ n, (∀ k < n, ((drainStep g)^[k] s).drain ≠ .idle) ∧
      ((drainStep g)^[n] s).drain = .idle ∧
      ((drainStep g)^[n] s).sink = s.published.take s.seen := by
  induction hn : passLeft s using Nat.strongRecOn generalizing s with
  | ind k ih =>
    by_cases hidle : s.drain = .idle
    · exact ⟨0, nofun, hidle, sink_of_idle h hidle⟩
    · have hlt := passLeft_lt h hw hidle hload
      obtain ⟨n, hin, hend, hsink⟩ := ih _ (hn ▸ hlt) (drainStep_inv h hw)
        (by rw [drainStep_written]; exact hw) (drainStep_not_load hidle) rfl
      rw [drainStep_published, drainStep_seen hload] at hsink
      exact ⟨n + 1, iterate_inside hidle hin, hend, hsink⟩

/-- The pass whose head load comes next delivers everything published before it. -/
theorem pass_delivers {t : Nat} (h : SpscInv g s) (hw : s.written < wordSize)
    (hpc : s.drain = .loadHead t) :
    ∃ n, (∀ k < n, ((drainStep g)^[k] s).drain ≠ .idle) ∧
      ((drainStep g)^[n] s).drain = .idle ∧ ((drainStep g)^[n] s).sink = s.published := by
  have hidle : s.drain ≠ .idle := by
    rw [hpc]
    exact fun h => nomatch h
  have hseen : (drainStep g s).seen = s.published.length := by
    unfold drainStep
    simp only [hpc]
    split <;> rfl
  obtain ⟨n, hin, hend, hsink⟩ := pass_ends (drainStep_inv h hw)
    (by rw [drainStep_written]; exact hw) (drainStep_not_load hidle)
  rw [drainStep_published, hseen, List.take_length] at hsink
  exact ⟨n + 1, iterate_inside hidle hin, hend, hsink⟩

/-! ## The contract of the ring -/

/-- **The single-producer ring is safe.** In every state that any interleaving of
producer and drain accesses reaches, on any initial storage, before `2^64` bytes are
written:

* `tail <= head <= tail + capacity - SLOT_SIZE`, and no store of the producer, filler
  headers included, hits a byte of `[tail, head)`;
* the sink holds a prefix of the published records, byte for byte and no fillers;
* a finished pass has delivered all its head load saw, and a pass about to load `head`
  does finish and delivers all that is published. -/
theorem ring_safe (g : Geometry) (fast : Bool) (policy : Backpressure) (data : Nat → UInt8)
    {s : Spsc} (h : (spsc g fast policy).Reach (Spsc.init data) s) (hw : s.written < 2 ^ 64) :
    (s.ring.tail ≤ s.ring.head ∧ s.ring.head + g.slotSize ≤ s.ring.tail + g.capacity ∧
      ∀ a addr, writeAddr g s a = some addr →
        addr < g.capacity ∧ ∀ p, s.ring.tail ≤ p → p < s.ring.head → g.offset p ≠ addr) ∧
    (s.sink <+: s.published ∧ ∀ rec, rec ∈ s.sink → framed rec.length rec = true) ∧
    (s.drain = .idle → s.seen = s.published.length → s.sink = s.published) ∧
    (∀ t, s.drain = .loadHead t →
      ∃ n, ((drainStep g)^[n] s).drain = .idle ∧ ((drainStep g)^[n] s).sink = s.published) := by
  have hinv := reach_inv h hw
  refine ⟨⟨hinv.tail_le, ?_, fun a addr ha => writeAddr_free hinv ha⟩,
    ⟨sink_le_published hinv, fun rec hrec => ?_⟩, fun hpc hseen => ?_, fun t hpc => ?_⟩
  · exact Nat.le_trans hinv.room (Nat.add_le_add_right hinv.cache_le _)
  · exact published_framed h rec ((sink_le_published hinv).subset hrec)
  · rw [sink_of_idle hinv hpc, hseen, List.take_length]
  · obtain ⟨n, -, hend, hsink⟩ := pass_delivers hinv hw hpc
    exact ⟨n, hend, hsink⟩

/-- A ring of two slots. -/
def twoSlots : Geometry where
  slotSize := 64
  capacity := 128
  slot_ok := slot_ok_64
  pow2 := pow2_128
  slot_le := slot_le_128

/-- One record of `headerSize` bytes, written, published and drained. -/
def oneRecord : List SpscAction :=
  let header := [UInt8.ofNat version, UInt8.ofNat logRecord] ++ leBytes 2 headerSize
  [.reserve headerSize, .loadTail] ++ (header.zipIdx.map fun b => .write b.2 b.1) ++
    [.publish] ++ List.replicate 27 .drain

/-- A ring of four slots. -/
def fourSlots : Geometry where
  slotSize := 64
  capacity := 256
  slot_ok := slot_ok_64
  pow2 := ⟨8, by decide, rfl⟩
  slot_le := by decide

/-- A record of `total` bytes with only its header's prefix stored, published and drained by
`n` accesses. -/
def recordOf (total n : Nat) (fillers : List SpscAction) : List SpscAction :=
  let header := [UInt8.ofNat version, UInt8.ofNat logRecord] ++ leBytes 2 total
  [.reserve total, .loadTail] ++ fillers ++ (header.zipIdx.map fun b => .write b.2 b.1) ++
    [.publish] ++ List.replicate n .drain

/-- Three slots, and two more that do not fit before the physical end: a filler takes the last
slot. -/
def aroundTheEnd : List SpscAction :=
  recordOf 129 140 [] ++ recordOf 65 82 (List.replicate 4 .eobByte)

/-- Two records through a four-slot ring, the second behind a filler. -/
theorem ring_safe_wrapped :
    ∃ s, (spsc fourSlots false .drop).run (Spsc.init fun _ => 7) aroundTheEnd = some s ∧
      s.sink = s.published ∧ s.published.length = 2 ∧ s.ring.head = 384 ∧
      s.ring.tail ≤ s.ring.head := by
  have hread : ((spsc fourSlots false .drop).run (Spsc.init fun _ => 7) aroundTheEnd).map
      (fun s => (s.written, s.drain, s.seen, s.published.length, s.ring.head))
        = some (384, .idle, 2, 2, 384) := by
    decide +kernel
  obtain ⟨s, hs, hfields⟩ := Option.map_eq_some_iff.mp hread
  simp only [Prod.mk.injEq] at hfields
  obtain ⟨hwritten, hidle, hseen, hpub, hhead⟩ := hfields
  obtain ⟨⟨htail, -⟩, -, hall, -⟩ := ring_safe fourSlots false .drop (fun _ => 7)
    (Machine.run_runs hs) (by rw [hwritten]; decide)
  exact ⟨s, hs, hall hidle (hseen.trans hpub.symm), hpub, hhead, htail⟩

end Spsc

end Ticklog
