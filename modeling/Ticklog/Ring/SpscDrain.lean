import Ticklog.Ring.SpscSteps

/-!
# The drain's side of the ring invariant, and the length of a pass

Each access of `drain_ring_inner` keeps the invariant, and each one but the `head`
load brings the pass closer to its end: `passLeft` counts the accesses a pass may
still make.
-/

namespace Ticklog

open Lib

namespace Spsc

variable {g : Geometry} {s s' : Spsc}

/-- Moving the drain alone only asks for its own part of the invariant again. -/
theorem SpscInv.withDrain (h : SpscInv g s) {pc : DrainPc} (sink : List (List UInt8))
    (seen : Nat) (hd : DrainInv g { s with drain := pc, sink := sink, seen := seen }) :
    SpscInv g { s with drain := pc, sink := sink, seen := seen } where
  head_eq := h.head_eq
  head_dvd := h.head_dvd
  tail_dvd := h.tail_dvd
  cache_le := h.cache_le
  cache_dvd := h.cache_dvd
  room := h.room
  tail_le := h.tail_le
  producer := h.producer
  drain := hd

/-- The bytes of a frame's prefix are readable: a whole slot remains. -/
theorem prefixLen_eq {pos : Nat} (hdvd : g.slotSize ∣ pos) : prefixLen g (g.offset pos) = 4 := by
  have hrem := g.slot_le_remaining hdvd
  have hslot := g.slot_pos
  unfold Geometry.remainingPhys at hrem
  unfold prefixLen
  omega

/-- A caught-up position holds no pending record up to the drain's head. -/
theorem Pending.at_end {pos : Nat} (h : Pending g s pos pos) :
    ∃ recs', s.published = s.sink ++ recs' ∧ Layout g s.ring.data pos recs' s.ring.head ∧
      s.seen = s.sink.length := by
  obtain ⟨recs, recs', hpub, h1, h2, hseen⟩ := h
  have hnil := h1.eq_nil
  subst hnil
  exact ⟨recs', by simpa using hpub, h2, by simpa using hseen⟩

/-- The head load hands the drain everything published so far. -/
theorem Pending.load {pos : Nat} (h : Pending g s pos pos) (pc : DrainPc) :
    Pending g { s with drain := pc, seen := s.published.length } pos s.ring.head := by
  obtain ⟨recs', hpub, hlay, -⟩ := h.at_end
  refine ⟨recs', [], ?_, hlay, .nil _, ?_⟩
  · show s.published = _
    rw [hpub, List.append_nil]
  · show s.published.length = _
    rw [hpub]

/-- A frame size from the layout, as the wrapping addition of the running tail. -/
theorem advance_eq {t n : Nat} (hn : t + n ≤ s.ring.head) (hhead : s.ring.head < wordSize) :
    wrappingAdd t n = t + n := wrappingAdd_of_lt (by omega)

theorem drainStep_idle (h : SpscInv g s) (hpc : s.drain = .idle) :
    SpscInv g (drainStep g s) := by
  have hd := h.drain
  unfold DrainInv at hd
  simp only [hpc] at hd
  obtain ⟨hcache, hpend⟩ := hd
  unfold drainStep
  simp only [hpc]
  rw [if_pos hcache.symm]
  exact h.withDrain s.sink s.seen ⟨rfl, hcache, hpend⟩

theorem drainStep_loadHead {t : Nat} (h : SpscInv g s) (hpc : s.drain = .loadHead t) :
    SpscInv g (drainStep g s) := by
  have hd := h.drain
  unfold DrainInv at hd
  simp only [hpc] at hd
  obtain ⟨rfl, hcache, hpend⟩ := hd
  unfold drainStep
  simp only [hpc]
  by_cases heq : s.ring.tail = s.ring.head
  · rw [if_pos heq]
    have hload := hpend.load .idle
    rw [← heq] at hload
    exact h.withDrain s.sink _ ⟨hcache, hload⟩
  · rw [if_neg heq]
    exact h.withDrain s.sink _ ⟨Nat.le_refl _, h.tail_dvd, hpend.load _⟩

theorem drainStep_scan {t hc : Nat} (h : SpscInv g s) (hpc : s.drain = .scan t hc) :
    SpscInv g (drainStep g s) := by
  have hd := h.drain
  unfold DrainInv at hd
  simp only [hpc] at hd
  obtain ⟨ht, hdvd, hpend⟩ := hd
  unfold drainStep
  simp only [hpc]
  by_cases hlt : t < hc
  · rw [if_pos hlt]
    exact h.withDrain s.sink s.seen
      ⟨ht, hdvd, hlt, hpend, Nat.zero_le _, rfl⟩
  · rw [if_neg hlt]
    have hle : t ≤ hc := by
      obtain ⟨recs, recs', -, h1, -⟩ := hpend
      exact h1.le
    exact h.withDrain s.sink s.seen ⟨ht, hdvd, by omega, hpend⟩

theorem drainStep_readPrefix {t hc : Nat} {acc : List UInt8} (h : SpscInv g s)
    (hw : s.written < wordSize) (hpc : s.drain = .readPrefix t hc acc) :
    SpscInv g (drainStep g s) := by
  have hd := h.drain
  unfold DrainInv at hd
  simp only [hpc] at hd
  obtain ⟨ht, hdvd, hlt, hpend, hlen, hacc⟩ := hd
  have hhead : s.ring.head < wordSize := by rw [h.head_eq]; exact hw
  unfold drainStep
  simp only [hpc, prefixLen_eq hdvd]
  by_cases hmore : acc.length < 4
  · rw [if_pos hmore]
    refine h.withDrain s.sink s.seen ⟨ht, hdvd, hlt, hpend, ?_, ?_⟩
    · rw [List.length_append, List.length_singleton]
      omega
    · show acc ++ [_] = slice s.ring.data (g.offset t) (acc ++ [_]).length
      rw [List.length_append, List.length_singleton, slice_succ, ← hacc]
  · rw [if_neg hmore]
    have hfour : acc.length = 4 := by omega
    rw [hfour] at hacc
    obtain ⟨recs, recs', hpub, h1, h2, hseen⟩ := hpend
    rcases h1.head_cases hlt with ⟨rec, rest, rfl, hrec, hrest⟩ | ⟨hfill, hrest⟩
    · -- a record: its bytes are read next
      rw [hacc, hrec.verdict_eq]
      exact h.withDrain s.sink s.seen
        ⟨ht, hdvd, rec, ⟨rest, recs', hpub, hrec, hrest, h2, hseen⟩, rfl, Nat.zero_le _, rfl⟩
    · -- a filler: the same records follow it
      obtain ⟨hverdict, hspan⟩ := hfill.verdict_eq hdvd
      have hle := hrest.le
      have hle' := h2.le
      rw [hacc, hverdict]
      simp only [hspan]
      have hspan_lt := hfill.span_lt
      rw [g.aligned_of_dvd (by omega) (g.slot_dvd_remaining hdvd), advance_eq (by omega) hhead]
      exact h.withDrain s.sink s.seen
        ⟨Nat.le_trans ht (Nat.le_add_right _ _), Nat.dvd_add hdvd (g.slot_dvd_remaining hdvd),
          recs, recs', hpub, hrest, h2, hseen⟩

theorem drainStep_readRecord {t hc total : Nat} {acc : List UInt8} (h : SpscInv g s)
    (hw : s.written < wordSize) (hpc : s.drain = .readRecord t hc total acc) :
    SpscInv g (drainStep g s) := by
  have hd := h.drain
  unfold DrainInv at hd
  simp only [hpc] at hd
  obtain ⟨ht, hdvd, rec, ⟨recs, recs', hpub, hrec, h1, h2, hseen⟩, rfl, hlen, hacc⟩ := hd
  have hhead : s.ring.head < wordSize := by rw [h.head_eq]; exact hw
  unfold drainStep
  simp only [hpc]
  by_cases hmore : acc.length < rec.length
  · rw [if_pos hmore]
    refine h.withDrain s.sink s.seen
      ⟨ht, hdvd, rec, ⟨recs, recs', hpub, hrec, h1, h2, hseen⟩, rfl, ?_, ?_⟩
    · rw [List.length_append, List.length_singleton]
      omega
    · show acc ++ [_] = slice s.ring.data (g.offset t) (acc ++ [_]).length
      rw [List.length_append, List.length_singleton, slice_succ, ← hacc]
  · rw [if_neg hmore]
    have hall : acc.length = rec.length := by omega
    rw [hall, hrec.bytes] at hacc
    subst hacc
    have hle := h1.le
    have hle' := h2.le
    rw [advance_eq (by omega) hhead]
    refine h.withDrain _ s.seen ⟨Nat.le_trans ht (Nat.le_add_right _ _),
      Nat.dvd_add hdvd (slot_dvd_aligned_rec hrec.size_ok.2), recs, recs', ?_, h1, h2, ?_⟩
    · show s.published = (s.sink ++ [acc]) ++ recs ++ recs'
      rw [hpub]
      simp
    · show s.seen = ((s.sink ++ [acc]) ++ recs).length
      rw [hseen]
      simp

theorem drainStep_storeTail {t hc : Nat} (h : SpscInv g s) (hpc : s.drain = .storeTail t hc) :
    SpscInv g (drainStep g s) := by
  have hd := h.drain
  unfold DrainInv at hd
  simp only [hpc] at hd
  obtain ⟨ht, hdvd, rfl, hpend⟩ := hd
  have hle : t ≤ s.ring.head := by
    obtain ⟨recs', -, hlay, -⟩ := hpend.at_end
    exact hlay.le
  unfold drainStep
  simp only [hpc]
  have hcache := h.cache_le
  exact
    { head_eq := h.head_eq, head_dvd := h.head_dvd, tail_dvd := hdvd,
      cache_le := by show s.ring.tailCache ≤ t; omega,
      cache_dvd := h.cache_dvd, room := h.room, tail_le := hle, producer := h.producer,
      drain := ⟨rfl, hpend⟩ }

/-- Every drain access keeps the invariant. -/
theorem drainStep_inv (h : SpscInv g s) (hw : s.written < wordSize) :
    SpscInv g (drainStep g s) := by
  cases hpc : s.drain with
  | idle => exact drainStep_idle h hpc
  | loadHead t => exact drainStep_loadHead h hpc
  | scan t hc => exact drainStep_scan h hpc
  | readPrefix t hc acc => exact drainStep_readPrefix h hw hpc
  | readRecord t hc total acc => exact drainStep_readRecord h hw hpc
  | storeTail t hc => exact drainStep_storeTail h hpc

/-! ## A pass ends -/

/-- A bound on the accesses one frame costs the drain. -/
def frameCost : Nat := maxRecordSize + 10

/-- A bound on the accesses the drain's current pass still makes after its head load. -/
def passLeft (s : Spsc) : Nat :=
  match s.drain with
  | .idle => 0
  | .loadHead _ => 0
  | .scan t hc => (hc - t) * frameCost + 2
  | .readPrefix t hc acc => (hc - t) * frameCost + 1 - acc.length
  | .readRecord t hc _ acc => (hc - t) * frameCost - 4 - acc.length
  | .storeTail _ _ => 1

/-- One frame's accesses fit its cost: past a frame of `n` bytes at least `total + 6`
of them are still unspent. -/
theorem frameCost_le {t hc n : Nat} (hn : 0 < n) (hle : t + n ≤ hc) :
    (hc - (t + n)) * frameCost + frameCost ≤ (hc - t) * frameCost := by
  rw [← Nat.succ_mul]
  exact Nat.mul_le_mul_right _ (by omega)

/-- Outside the head load, each drain access shortens the pass. -/
theorem passLeft_lt (h : SpscInv g s) (hw : s.written < wordSize) (hidle : s.drain ≠ .idle)
    (hload : ∀ t, s.drain ≠ .loadHead t) : passLeft (drainStep g s) < passLeft s := by
  have hhead : s.ring.head < wordSize := by rw [h.head_eq]; exact hw
  have hd := h.drain
  unfold DrainInv at hd
  cases hpc : s.drain with
  | idle => exact absurd hpc hidle
  | loadHead t => exact absurd hpc (hload t)
  | scan t hc =>
    unfold drainStep
    simp only [hpc]
    by_cases hlt : t < hc
    · rw [if_pos hlt]
      simp only [passLeft, hpc, List.length_nil]
      omega
    · rw [if_neg hlt]
      simp only [passLeft, hpc]
      omega
  | readPrefix t hc acc =>
    simp only [hpc] at hd
    obtain ⟨-, hdvd, hlt, ⟨recs, recs', -, h1, h2, -⟩, hlen, hacc⟩ := hd
    have hframe : (hc - (t + 1)) * frameCost + frameCost ≤ (hc - t) * frameCost :=
      frameCost_le (by omega) (by omega)
    have hcost : frameCost = 65545 := rfl
    have hle' := h2.le
    unfold drainStep
    simp only [hpc, prefixLen_eq hdvd]
    by_cases hmore : acc.length < 4
    · rw [if_pos hmore]
      simp only [passLeft, hpc, List.length_append, List.length_singleton]
      omega
    · rw [if_neg hmore]
      have hfour : acc.length = 4 := by omega
      rw [hfour] at hacc
      rcases h1.head_cases hlt with ⟨rec, rest, rfl, hrec, hrest⟩ | ⟨hfill, hrest⟩
      · rw [hacc, hrec.verdict_eq]
        simp only [passLeft, hpc, List.length_nil]
        omega
      · obtain ⟨hverdict, hspan⟩ := hfill.verdict_eq hdvd
        have hspan_lt := hfill.span_lt
        have hle := hrest.le
        have hskip := frameCost_le (g.remaining_pos t) hle
        rw [hacc, hverdict]
        simp only [hspan]
        rw [g.aligned_of_dvd (by omega) (g.slot_dvd_remaining hdvd), advance_eq (by omega) hhead]
        simp only [passLeft, hpc]
        omega
  | readRecord t hc total acc =>
    simp only [hpc] at hd
    obtain ⟨-, -, rec, ⟨recs, recs', -, hrec, h1, h2, -⟩, rfl, hlen, -⟩ := hd
    have hle := h1.le
    have hle' := h2.le
    have hframe := frameCost_le (aligned_pos (g := g) hrec.size_ok) hle
    have hcost : frameCost = 65545 := rfl
    have hmax : rec.length ≤ 65535 := hrec.size_ok.2
    unfold drainStep
    simp only [hpc]
    by_cases hmore : acc.length < rec.length
    · rw [if_pos hmore]
      simp only [passLeft, hpc, List.length_append, List.length_singleton]
      omega
    · rw [if_neg hmore, advance_eq (by omega) hhead]
      simp only [passLeft, hpc]
      omega
  | storeTail t hc =>
    unfold drainStep
    simp only [hpc, passLeft]
    omega

end Spsc

end Ticklog
