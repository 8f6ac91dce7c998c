import Ticklog.Ring.SpscInv

/-!
# The ring invariant survives every access

One lemma per action of `spsc`, each under the standing assumption that the bytes
written so far, this step's included, number fewer than `2^64`.
-/

namespace Ticklog

open Lib

namespace Spsc

variable {g : Geometry} {s s' : Spsc}

/-! ## The producer's side -/

/-- Moving the producer alone only asks for its own part of the invariant again. -/
theorem SpscInv.withProducer (h : SpscInv g s) {p : ProducerPc}
    (hp : ProducerInv g { s with producer := p }) :
    SpscInv g { s with producer := p } where
  head_eq := h.head_eq
  head_dvd := h.head_dvd
  tail_dvd := h.tail_dvd
  cache_le := h.cache_le
  cache_dvd := h.cache_dvd
  room := h.room
  tail_le := h.tail_le
  producer := hp
  drain := h.drain

/-- Refreshing the cached tail only gains room. -/
theorem SpscInv.refreshCache (h : SpscInv g s) {p : ProducerPc}
    (hp : ProducerInv g { s with ring.tailCache := s.ring.tail, producer := p }) :
    SpscInv g { s with ring.tailCache := s.ring.tail, producer := p } where
  head_eq := h.head_eq
  head_dvd := h.head_dvd
  tail_dvd := h.tail_dvd
  cache_le := Nat.le_refl _
  cache_dvd := h.tail_dvd
  room := Nat.le_trans h.room (Nat.add_le_add_right h.cache_le _)
  tail_le := h.tail_le
  producer := hp
  drain := h.drain

/-- A granted space starts with the filler exactly when the record wraps. -/
theorem granted_inv {head total : Nat} (hpc : s.producer = granted g head total)
    (hg : Granted g s head total) : ProducerInv g s := by
  unfold ProducerInv
  rw [hpc]
  unfold granted
  by_cases hw : g.wraps head total = true
  · rw [if_pos hw]
    exact ⟨hg, hw, by omega, fun j hj => absurd hj (Nat.not_lt_zero j)⟩
  · rw [if_neg hw]
    exact ⟨hg, fun hw' => absurd hw' hw⟩

theorem reserve_inv {fast : Bool} {total : Nat} (h : SpscInv g s) (hw : s.written < wordSize)
    (hstep : reserve g fast total s = some s') : SpscInv g s' := by
  unfold reserve at hstep
  split at hstep
  next hpc =>
    split at hstep
    next hsize =>
      simp only at hstep
      split at hstep
      next hfit =>
        have hroom := (h.fits_iff hw hsize.2 (Nat.le_refl _) h.cache_le).mp hfit
        have hg : Granted g s s.ring.head total := ⟨rfl, hsize.1, hsize.2, hroom⟩
        split at hstep
        next =>
          cases hstep
          exact h.withProducer (granted_inv rfl hg)
        next =>
          cases hstep
          exact h.withProducer hg
      next =>
        cases hstep
        exact h.withProducer ⟨rfl, hsize.1, hsize.2⟩
    next => cases hstep
  next => cases hstep

theorem loadTail_inv {policy : Backpressure} (h : SpscInv g s) (hw : s.written < wordSize)
    (hstep : loadTail g policy s = some s') : SpscInv g s' := by
  have hprod := h.producer
  unfold ProducerInv at hprod
  unfold loadTail at hstep
  simp only at hstep
  split at hstep
  next head total hpc =>
    rw [hpc] at hprod
    cases hstep
    obtain ⟨hhead, hlo, hhi, hroom⟩ := hprod
    -- the space was there against an older tail already
    exact h.refreshCache (granted_inv rfl ⟨hhead, hlo, hhi,
      Nat.le_trans hroom (Nat.add_le_add_right h.cache_le _)⟩)
  next head total hpc =>
    rw [hpc] at hprod
    obtain ⟨rfl, hlo, hhi⟩ := hprod
    split at hstep
    next hfit =>
      cases hstep
      have hroom := (h.fits_iff hw hhi h.cache_le (Nat.le_refl _)).mp hfit
      exact h.refreshCache (granted_inv rfl ⟨rfl, hlo, hhi, hroom⟩)
    next =>
      cases policy with
      | drop | nanoLog | quill =>
        cases hstep
        exact h.refreshCache trivial
      | block =>
        simp only at hstep
        split at hstep
        next =>
          cases hstep
          have hcached : ProducerInv g
              { s with ring.tailCache := s.ring.tail, producer := s.producer } := by
            unfold ProducerInv
            rw [hpc]
            exact ⟨rfl, hlo, hhi⟩
          exact h.refreshCache hcached
        next =>
          cases hstep
          exact h.refreshCache trivial
  next => cases hstep

/-- A store to the offset of a position past the head and less than a capacity past
the tail keeps the invariant, given the producer's own part. -/
theorem SpscInv.store (h : SpscInv g s) {q : Nat} {b : UInt8} {p : ProducerPc}
    (hq : s.ring.head ≤ q) (hq' : q < s.ring.tail + g.capacity)
    (hp : ProducerInv g { s with
      ring.data := Function.update s.ring.data (g.offset q) b, producer := p }) :
    SpscInv g { s with
      ring.data := Function.update s.ring.data (g.offset q) b, producer := p } where
  head_eq := h.head_eq
  head_dvd := h.head_dvd
  tail_dvd := h.tail_dvd
  cache_le := h.cache_le
  cache_dvd := h.cache_dvd
  room := h.room
  tail_le := h.tail_le
  producer := hp
  drain := h.drain.congr (store_agree hq hq') h.tail_dvd h.head_dvd

/-- Positions of the granted space are at most a mask past the tail. -/
theorem Granted.lt_of_lt {head total q : Nat} (hg : Granted g s head total) (h : SpscInv g s)
    (hq : q < head + g.needed head total) : q < s.ring.tail + g.capacity := by
  have hroom := hg.2.2.2
  have hcache := h.cache_le
  have hm := mask_lt g
  omega

/-- The `k`-th filler byte goes to the offset of position `head + k`. -/
theorem eob_addr {head k : Nat} (hdvd : g.slotSize ∣ head) (hk : k < 4) :
    g.offset head + k = g.offset (head + k) ∧ g.offset head + k < g.capacity := by
  have hrem := g.slot_le_remaining hdvd
  have hslot := g.slot_pos
  unfold Geometry.remainingPhys at hrem
  exact ⟨(g.offset_add (by omega)).symm, by omega⟩

/-- The filler's header lies in the granted space. -/
theorem eob_lt_needed {head total k : Nat} (hdvd : g.slotSize ∣ head)
    (hwr : g.wraps head total = true) (hk : k < 4) : head + k < head + g.needed head total := by
  have hrem := g.slot_le_remaining hdvd
  have hslot := g.slot_pos
  rw [needed_eq_of_wraps hwr]
  omega

theorem eobByte_inv (h : SpscInv g s) (hstep : eobByte g s = some s') : SpscInv g s' := by
  have hprod := h.producer
  unfold ProducerInv at hprod
  unfold eobByte at hstep
  split at hstep
  next head total k hpc =>
    rw [hpc] at hprod
    obtain ⟨hg, hwr, hk, hdone⟩ := hprod
    have hhead : head = s.ring.head := hg.1
    have hdvd : g.slotSize ∣ head := hhead ▸ h.head_dvd
    simp only [Option.some.injEq] at hstep
    rw [(eob_addr hdvd hk).1] at hstep
    subst hstep
    refine h.store (by omega) (hg.lt_of_lt h (eob_lt_needed hdvd hwr hk)) ?_
    -- the bytes stored so far, the new one included
    have hbytes : ∀ j, j < k + 1 →
        Function.update s.ring.data (g.offset (head + k))
          ((eobBytes (g.remainingPhys head)).getD k 0) (g.offset head + j)
          = (eobBytes (g.remainingPhys head)).getD j 0 := by
      intro j hj
      rw [← (eob_addr hdvd hk).1]
      by_cases hjk : j = k
      · rw [hjk, Function.update_self]
      · rw [Function.update_of_ne (by omega)]
        exact hdone j (by omega)
    by_cases hlast : k + 1 < 4
    · simp only [if_pos hlast]
      exact ⟨hg, hwr, hlast, hbytes⟩
    · simp only [if_neg hlast]
      refine ⟨hg, fun _ => ⟨?_, span_lt_of_wraps hdvd hg.2.2.1 hwr⟩⟩
      exact slice_eq_of_getD fun i hi => hbytes i (by rw [eobBytes_length] at hi; omega)
  next => cases hstep

theorem write_inv {i : Nat} {b : UInt8} (h : SpscInv g s)
    (hstep : write g i b s = some s') : SpscInv g s' := by
  have hprod := h.producer
  unfold ProducerInv at hprod
  unfold write at hstep
  split at hstep
  next head total hpc =>
    rw [hpc] at hprod
    obtain ⟨hg, hfill⟩ := hprod
    have hhead : head = s.ring.head := hg.1
    have hdvd : g.slotSize ∣ head := hhead ▸ h.head_dvd
    split at hstep
    next hi =>
      simp only [Option.some.injEq] at hstep
      obtain ⟨q, hdst, hlo, hhi, hpast⟩ := dst_add_eq (g := g) hg.2.2.1 (hg.aligned_le h) hi
      have hq := hg.lt_of_lt h hhi
      have htail := h.tail_le
      rw [hdst] at hstep
      subst hstep
      have hkeep : s.producer = ProducerPc.filling head total := hpc
      have hnew : ProducerInv g { s with
          ring.data := Function.update s.ring.data (g.offset q) b,
          producer := s.producer } := by
        unfold ProducerInv
        rw [hkeep]
        refine ⟨hg, fun hwr => (hfill hwr).congr hdvd fun p hp hp' => ?_⟩
        -- the record starts past the filler, which ends at the physical end
        have hrem := g.slot_le_remaining hdvd
        have hslot := g.slot_pos
        have hqp := hpast hwr
        exact Function.update_of_ne (g.offset_ne (by omega) (by omega)) _ _
      exact h.store (by omega) hq hnew
    next => cases hstep
  next => cases hstep

/-- The published frame, as a layout of one record. -/
theorem publish_layout {head total : Nat} (h : SpscInv g s) (hg : Granted g s head total)
    (hfill : g.wraps head total = true → FillerAt g s.ring.data head)
    (hfr : framed total (slice s.ring.data (g.dst head total) total) = true) :
    Layout g s.ring.data head [slice s.ring.data (g.dst head total) total]
      (head + g.needed head total) := by
  have hcap := hg.aligned_le h
  obtain ⟨-, hlo, hhi, -⟩ := hg
  have hrec : ∀ pos, g.offset pos = g.dst head total → g.aligned total ≤ g.remainingPhys pos →
      RecordAt g s.ring.data pos (slice s.ring.data (g.dst head total) total) := by
    intro pos hpos hin
    refine ⟨?_, ?_, ?_, ?_⟩
    · rw [slice_length, hpos]
    · rw [slice_length]
      exact hfr
    · rw [slice_length]
      exact ⟨hlo, hhi⟩
    · rw [slice_length]
      exact hin
  have hdst := dst_eq (g := g) head total
  by_cases hwr : g.wraps head total = true
  · rw [if_pos hwr] at hdst
    rw [needed_eq_of_wraps hwr, ← Nat.add_assoc]
    have hroom : g.aligned total ≤ g.remainingPhys (head + g.remainingPhys head) := by
      have hzero := g.offset_add_remaining head
      show g.aligned total ≤ g.capacity - g.offset (head + g.remainingPhys head)
      omega
    have hlast : Layout g s.ring.data
        (head + g.remainingPhys head + g.aligned total) [] _ := .nil _
    refine .wrapped (hfill hwr) (hrec _ hdst.symm hroom) ?_
    rw [slice_length]
    exact hlast
  · rw [if_neg hwr, Nat.add_zero] at hdst
    rw [needed_eq_of_not_wraps hwr]
    have hroom : g.aligned total ≤ g.remainingPhys head :=
      Nat.le_of_not_lt fun hlt => hwr ((g.wraps_iff head total).mpr hlt)
    have hlast : Layout g s.ring.data (head + g.aligned total) [] _ := .nil _
    refine .direct (hrec _ hdst.symm hroom) ?_
    rw [slice_length]
    exact hlast

/-- `Reservation::head` is the old head plus the space the write cost. -/
theorem newHead_eq {head total : Nat} (h : head + g.needed head total < wordSize) :
    g.newHead head total = head + g.needed head total := by
  have hneed := g.needed_eq head total
  unfold Geometry.newHead Geometry.next
  by_cases hwr : g.wraps head total = true
  · rw [if_pos hwr] at hneed ⊢
    rw [wrappingAdd_of_lt (a := head) (by omega), wrappingAdd_of_lt (by omega)]
    omega
  · rw [if_neg hwr] at hneed ⊢
    rw [wrappingAdd_of_lt (by omega)]
    omega

/-- One more published frame behind the drain's head. -/
theorem DrainInv.publish (h : DrainInv g s) {rec : List UInt8} {head' written' : Nat}
    {pc : ProducerPc} (hlay : Layout g s.ring.data s.ring.head [rec] head') :
    DrainInv g { s with
      ring.head := head', producer := pc, published := s.published ++ [rec],
      written := written' } := by
  have hpend : ∀ {t hc : Nat}, Pending g s t hc → Pending g { s with
      ring.head := head', producer := pc, published := s.published ++ [rec],
      written := written' } t hc := by
    intro t hc hp
    obtain ⟨recs, recs', hpub, h1, h2, hseen⟩ := hp
    refine ⟨recs, recs' ++ [rec], ?_, h1, h2.append hlay, hseen⟩
    show s.published ++ [rec] = _
    rw [hpub, List.append_assoc]
  unfold DrainInv at h ⊢
  cases hpc : s.drain with
  | idle =>
    simp only [hpc] at h ⊢
    exact ⟨h.1, hpend h.2⟩
  | loadHead t =>
    simp only [hpc] at h ⊢
    exact ⟨h.1, h.2.1, hpend h.2.2⟩
  | scan t hc =>
    simp only [hpc] at h ⊢
    exact ⟨h.1, h.2.1, hpend h.2.2⟩
  | readPrefix t hc acc =>
    simp only [hpc] at h ⊢
    exact ⟨h.1, h.2.1, h.2.2.1, hpend h.2.2.2.1, h.2.2.2.2⟩
  | readRecord t hc total acc =>
    simp only [hpc] at h ⊢
    obtain ⟨ht, hdvd, rec₀, ⟨recs, recs', hpub, hr, h1, h2, hseen⟩, hrest⟩ := h
    refine ⟨ht, hdvd, rec₀, ⟨recs, recs' ++ [rec], ?_, hr, h1, h2.append hlay, hseen⟩, hrest⟩
    show s.published ++ [rec] = _
    rw [hpub, List.append_assoc]
  | storeTail t hc =>
    simp only [hpc] at h ⊢
    exact ⟨h.1, h.2.1, h.2.2.1, hpend h.2.2.2⟩

theorem publish_inv (h : SpscInv g s) (hstep : publish g s = some s')
    (hw : s'.written < wordSize) : SpscInv g s' := by
  have hprod := h.producer
  unfold ProducerInv at hprod
  unfold publish at hstep
  split at hstep
  next head total hpc =>
    rw [hpc] at hprod
    obtain ⟨hg, hfill⟩ := hprod
    simp only at hstep
    split at hstep
    next hfr =>
      cases hstep
      have hlay := publish_layout h hg hfill hfr
      obtain ⟨rfl, hlo, hhi, hroom⟩ := hg
      have hnew : g.newHead s.ring.head total = s.ring.head + g.needed s.ring.head total := by
        refine newHead_eq ?_
        rw [h.head_eq] at hw ⊢
        exact hw
      have hdvd : g.slotSize ∣ s.ring.head + g.needed s.ring.head total := hlay.slot_dvd h.head_dvd
      refine
        { head_eq := ?_, head_dvd := ?_, tail_dvd := h.tail_dvd, cache_le := h.cache_le,
          cache_dvd := h.cache_dvd, room := ?_, tail_le := ?_, producer := trivial,
          drain := ?_ }
      · show g.newHead s.ring.head total = s.written + g.needed s.ring.head total
        rw [hnew, h.head_eq]
      · show g.slotSize ∣ g.newHead s.ring.head total
        rw [hnew]
        exact hdvd
      · show g.newHead s.ring.head total + g.slotSize ≤ s.ring.tailCache + g.capacity
        -- both sides are slot multiples, so below means a whole slot below
        have hlim : g.slotSize ∣ s.ring.tailCache + g.capacity :=
          Nat.dvd_add h.cache_dvd g.slot_dvd_capacity
        have hm := mask_lt g
        have hle := Nat.le_of_dvd (by omega) (Nat.dvd_sub hlim hdvd)
        omega
      · show s.ring.tail ≤ g.newHead s.ring.head total
        have := h.tail_le
        omega
      · rw [hnew]
        exact h.drain.publish hlay
    next => cases hstep
  next => cases hstep

theorem abandon_inv (h : SpscInv g s) (hstep : abandon s = some s') : SpscInv g s' := by
  unfold abandon at hstep
  split at hstep
  next =>
    cases hstep
    exact h.withProducer trivial
  next => cases hstep

theorem setDead_inv (h : SpscInv g s) : SpscInv g { s with ring.live := false } where
  head_eq := h.head_eq
  head_dvd := h.head_dvd
  tail_dvd := h.tail_dvd
  cache_le := h.cache_le
  cache_dvd := h.cache_dvd
  room := h.room
  tail_le := h.tail_le
  producer := h.producer
  drain := h.drain

end Spsc

end Ticklog
