import Ticklog.Ring.Spsc

/-!
# What the published bytes look like

`Layout g data pos recs stop` says that the storage, read from position `pos`, holds
exactly the records `recs` up to position `stop`: each one at a slot boundary inside
the buffer, preceded by a filler where it would have straddled the physical end.
This is the meaning of the region `[tail, head)`; the drain's loop peels it off
frame by frame (`Layout.head_cases`), a publication extends it at the end
(`Layout.append`), and a store outside the region leaves it alone (`Layout.congr`).
-/

namespace Ticklog

open Lib

/-! ## Slices -/

@[simp] theorem slice_length (data : Nat → UInt8) (off len : Nat) :
    (slice data off len).length = len := by
  simp [slice]

theorem slice_succ (data : Nat → UInt8) (off len : Nat) :
    slice data off (len + 1) = slice data off len ++ [data (off + len)] := by
  simp [slice, List.range_succ]

theorem slice_congr {data data' : Nat → UInt8} {off len : Nat}
    (h : ∀ i, i < len → data' (off + i) = data (off + i)) :
    slice data' off len = slice data off len := by
  unfold slice
  exact List.map_congr_left fun i hi => h i (List.mem_range.mp hi)

theorem slice_take (data : Nat → UInt8) (off : Nat) {n len : Nat} (h : n ≤ len) :
    (slice data off len).take n = slice data off n := by
  unfold slice
  rw [← List.map_take, List.take_range, Nat.min_eq_left h]

/-- A slice is determined byte by byte. -/
theorem slice_eq_of_getD {data : Nat → UInt8} {off : Nat} {bs : List UInt8}
    (h : ∀ i, i < bs.length → data (off + i) = bs.getD i 0) : slice data off bs.length = bs := by
  refine List.ext_getElem (by simp) fun i hi hi' => ?_
  rw [slice_length] at hi
  have hbyte := h i hi
  rw [List.getD_eq_getElem?_getD, List.getElem?_eq_getElem hi, Option.getD_some] at hbyte
  simpa [slice] using hbyte

/-! ## Framed records and fillers -/

theorem framed_header {total : Nat} {bytes : List UInt8} (h : framed total bytes = true) :
    readPrefix bytes = ⟨version, logRecord, total⟩ := (of_decide_eq_true h).2

@[simp] theorem eobBytes_length (span : Nat) : (eobBytes span).length = 4 := rfl

/-- The filler header decodes to its span when the span fits the `u16`. -/
theorem readPrefix_eobBytes {span : Nat} (h : span < 65536) :
    readPrefix (eobBytes span) = ⟨version, endOfBuffer, span⟩ := by
  have hb : eobBytes span = [UInt8.ofNat version, UInt8.ofNat endOfBuffer,
      UInt8.ofNat span, UInt8.ofNat (span / 256)] := rfl
  have h0 : (UInt8.ofNat span).toNat = span % 256 := by simp
  have h1 : (UInt8.ofNat (span / 256)).toNat = span / 256 := by
    rw [UInt8.toNat_ofNat', Nat.mod_eq_of_lt (by omega)]
  rw [hb, readPrefix_cons, h0, h1]
  congr 1
  omega

/-! ## The layout of the published region -/

/-- A record at `pos`: its bytes are there, frame themselves and do not straddle the
physical end. -/
structure RecordAt (g : Geometry) (data : Nat → UInt8) (pos : Nat) (rec : List UInt8) : Prop where
  bytes : slice data (g.offset pos) rec.length = rec
  framed : framed rec.length rec = true
  size_ok : headerSize ≤ rec.length ∧ rec.length ≤ maxRecordSize
  inside : g.aligned rec.length ≤ g.remainingPhys pos

/-- A filler at `pos` running to the physical end. -/
structure FillerAt (g : Geometry) (data : Nat → UInt8) (pos : Nat) : Prop where
  bytes : slice data (g.offset pos) 4 = eobBytes (g.remainingPhys pos)
  span_lt : g.remainingPhys pos < 65536

/-- The records between two positions. -/
inductive Layout (g : Geometry) (data : Nat → UInt8) : Nat → List (List UInt8) → Nat → Prop where
  | nil (pos : Nat) : Layout g data pos [] pos
  | direct {pos stop : Nat} {rec : List UInt8} {recs : List (List UInt8)} :
      RecordAt g data pos rec →
      Layout g data (pos + g.aligned rec.length) recs stop →
      Layout g data pos (rec :: recs) stop
  | wrapped {pos stop : Nat} {rec : List UInt8} {recs : List (List UInt8)} :
      FillerAt g data pos →
      RecordAt g data (pos + g.remainingPhys pos) rec →
      Layout g data (pos + g.remainingPhys pos + g.aligned rec.length) recs stop →
      Layout g data pos (rec :: recs) stop

section

variable {g : Geometry} {data data' : Nat → UInt8}

theorem RecordAt.le_remaining {pos : Nat} {rec : List UInt8} (h : RecordAt g data pos rec) :
    rec.length ≤ g.remainingPhys pos := by
  have hmax := h.size_ok.2
  unfold maxRecordSize at hmax
  exact Nat.le_trans (g.le_aligned (by omega)) h.inside

/-- The bytes of a record keep it in place. -/
theorem RecordAt.congr {pos : Nat} {rec : List UInt8} (h : RecordAt g data pos rec)
    (heq : ∀ p, pos ≤ p → p < pos + rec.length → data' (g.offset p) = data (g.offset p)) :
    RecordAt g data' pos rec := by
  refine ⟨?_, h.framed, h.size_ok, h.inside⟩
  refine (slice_congr fun i hi => ?_).trans h.bytes
  have hrem := h.le_remaining
  unfold Geometry.remainingPhys at hrem
  rw [← g.offset_add (by omega)]
  exact heq _ (by omega) (by omega)

theorem FillerAt.congr {pos : Nat} (hpos : g.slotSize ∣ pos) (h : FillerAt g data pos)
    (heq : ∀ p, pos ≤ p → p < pos + 4 → data' (g.offset p) = data (g.offset p)) :
    FillerAt g data' pos := by
  refine ⟨?_, h.span_lt⟩
  refine (slice_congr fun i hi => ?_).trans h.bytes
  have hrem := g.slot_le_remaining hpos
  have hslot := g.slot_pos
  unfold Geometry.remainingPhys at hrem
  rw [← g.offset_add (by omega)]
  exact heq _ (by omega) (by omega)

theorem Layout.le {pos stop : Nat} {recs : List (List UInt8)}
    (h : Layout g data pos recs stop) : pos ≤ stop := by
  induction h with
  | nil => exact Nat.le_refl _
  | direct _ _ ih => omega
  | wrapped _ _ _ ih => omega

theorem aligned_pos {rec : List UInt8} (h : headerSize ≤ rec.length ∧ rec.length ≤ maxRecordSize) :
    0 < g.aligned rec.length := by
  have hlo := h.1
  have hhi := h.2
  unfold headerSize at hlo
  unfold maxRecordSize at hhi
  have : rec.length ≤ g.aligned rec.length := g.le_aligned (by omega)
  omega

theorem slot_dvd_aligned_rec {rec : List UInt8} (h : rec.length ≤ maxRecordSize) :
    g.slotSize ∣ g.aligned rec.length := by
  unfold maxRecordSize at h
  exact g.slot_dvd_aligned (by omega)

theorem le_aligned_rec {rec : List UInt8} (h : rec.length ≤ maxRecordSize) :
    rec.length ≤ g.aligned rec.length := by
  unfold maxRecordSize at h
  exact g.le_aligned (by omega)

/-- Slot alignment survives along a layout. -/
theorem Layout.slot_dvd {pos stop : Nat} {recs : List (List UInt8)}
    (h : Layout g data pos recs stop) (hpos : g.slotSize ∣ pos) : g.slotSize ∣ stop := by
  induction h with
  | nil => exact hpos
  | direct hr _ ih => exact ih (Nat.dvd_add hpos (slot_dvd_aligned_rec hr.size_ok.2))
  | wrapped _ hr _ ih =>
    exact ih (Nat.dvd_add (Nat.dvd_add hpos (g.slot_dvd_remaining hpos))
      (slot_dvd_aligned_rec hr.size_ok.2))

/-- A store that misses `[pos, stop)` does not disturb the layout. -/
theorem Layout.congr {pos stop : Nat} {recs : List (List UInt8)}
    (h : Layout g data pos recs stop) (hpos : g.slotSize ∣ pos)
    (heq : ∀ p, pos ≤ p → p < stop → data' (g.offset p) = data (g.offset p)) :
    Layout g data' pos recs stop := by
  induction h with
  | nil => exact .nil _
  | @direct pos stop rec recs hr htail ih =>
    have hle := htail.le
    have hlen := le_aligned_rec (g := g) hr.size_ok.2
    have hdvd := slot_dvd_aligned_rec (g := g) hr.size_ok.2
    exact .direct (hr.congr fun p h1 h2 => heq p h1 (by omega))
      (ih (Nat.dvd_add hpos hdvd) fun p h1 h2 => heq p (by omega) h2)
  | @wrapped pos stop rec recs hf hr htail ih =>
    have hle := htail.le
    have hlen := le_aligned_rec (g := g) hr.size_ok.2
    have hdvd := slot_dvd_aligned_rec (g := g) hr.size_ok.2
    have hrem := g.slot_le_remaining hpos
    have hslot := g.slot_pos
    have hpos' := Nat.dvd_add hpos (g.slot_dvd_remaining hpos)
    exact .wrapped (hf.congr hpos fun p h1 h2 => heq p h1 (by omega))
      (hr.congr fun p h1 h2 => heq p (by omega) (by omega))
      (ih (Nat.dvd_add hpos' hdvd) fun p h1 h2 => heq p (by omega) h2)

/-- Layouts compose. -/
theorem Layout.append {pos mid stop : Nat} {recs recs' : List (List UInt8)}
    (h : Layout g data pos recs mid) (h' : Layout g data mid recs' stop) :
    Layout g data pos (recs ++ recs') stop := by
  induction h with
  | nil => exact h'
  | direct hr _ ih => exact .direct hr (ih h')
  | wrapped hf hr _ ih => exact .wrapped hf hr (ih h')

/-- An empty stretch holds no records: every frame has positive size. -/
theorem Layout.eq_nil {pos : Nat} {recs : List (List UInt8)}
    (h : Layout g data pos recs pos) : recs = [] := by
  generalize hstop : pos = stop at h
  cases h with
  | nil => rfl
  | direct hr ht =>
    have := ht.le
    have := aligned_pos (g := g) hr.size_ok
    omega
  | wrapped _ hr ht =>
    have := ht.le
    have := aligned_pos (g := g) hr.size_ok
    omega

/-- The first frame of a nonempty layout: a record, or a filler in front of one. After
the filler the same records follow, now directly. -/
theorem Layout.head_cases {pos stop : Nat} {recs : List (List UInt8)}
    (h : Layout g data pos recs stop) (hlt : pos < stop) :
    (∃ rec recs', recs = rec :: recs' ∧ RecordAt g data pos rec ∧
      Layout g data (pos + g.aligned rec.length) recs' stop) ∨
    (FillerAt g data pos ∧ Layout g data (pos + g.remainingPhys pos) recs stop) := by
  cases h with
  | nil => exact absurd hlt (Nat.lt_irrefl _)
  | direct hr ht => exact Or.inl ⟨_, _, rfl, hr, ht⟩
  | wrapped hf hr ht => exact Or.inr ⟨hf, .direct hr ht⟩

/-- The drain's check of a record's prefix delivers it whole. -/
theorem RecordAt.verdict_eq {pos : Nat} {rec : List UInt8} (h : RecordAt g data pos rec) :
    verdict g.capacity (g.offset pos) (readPrefix (slice data (g.offset pos) 4))
      = .record rec.length := by
  have hlo := h.size_ok.1
  unfold headerSize at hlo
  have hpre : slice data (g.offset pos) 4 = rec.take 4 := by
    rw [← slice_take data (g.offset pos) (show 4 ≤ rec.length by omega), h.bytes]
  have hrem := h.le_remaining
  have hoff := g.offset_lt pos
  unfold Geometry.remainingPhys at hrem
  rw [hpre, readPrefix_take (by omega), framed_header h.framed]
  exact verdict_record h.size_ok.1 (by omega)

/-- The drain's check of a filler's prefix steps over it. -/
theorem FillerAt.verdict_eq {pos : Nat} (hpos : g.slotSize ∣ pos) (h : FillerAt g data pos) :
    verdict g.capacity (g.offset pos) (readPrefix (slice data (g.offset pos) 4)) = .filler ∧
    (readPrefix (slice data (g.offset pos) 4)).totalSize = g.remainingPhys pos := by
  have hrem := g.slot_le_remaining hpos
  have hslot := g.slot_pos
  have hoff := g.offset_lt pos
  rw [h.bytes, readPrefix_eobBytes h.span_lt]
  refine ⟨verdict_filler ?_ ?_, rfl⟩
  · unfold headerSize
    omega
  · unfold Geometry.remainingPhys
    omega

end

end Ticklog
