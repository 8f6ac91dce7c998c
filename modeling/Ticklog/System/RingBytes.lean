import Ticklog.System.Ring
import Ticklog.Ring.SpscSafe

/-!
# The byte ring under the record ring (`src/ring.rs`, `src/drain.rs`)

The system counts a ring in records and asks `Ring.hasRoom` and `Pass.step` what the producer and
a drain pass do. Here that is connected to the ring's bytes: `RecordRing` is one producer and one
drain on such a record ring, and every run of `Spsc`, where both sides work byte by byte, is one
of its runs (`Refines`). What a byte access does between two events of the record ring (a load, a
filler byte, a byte written or read) the record ring does not see.

Positions are what the two levels differ in. `head` is `bytePos` of all records and `tail` that of
the records behind the last stored tail, fillers included; the running tail of a pass, which may
stand behind a filler and before its record, has no counterpart but the number of records handed
over.
-/

namespace Ticklog

open Lib

/-- Where the producer of a record ring stands. -/
inductive Writer where
  | idle
  /-- About to compare the position against `tail`. -/
  | reserve (total : Nat)
  | publish (total : Nat)
deriving DecidableEq, Repr

/-- One producer and one drain on a ring of records. -/
structure RecordRing where
  ring : Ring
  writer : Writer
  pass : Pass
  delivered : List Rec

inductive RecordRingAction where
  | reserve (total : Nat)
  | check
  | publish
  | abandon
  | setDead
  | pass
deriving DecidableEq, Repr

namespace RecordRing

variable (g : Geometry) (policy : Backpressure)

def init : RecordRing := ⟨Ring.fresh false, .idle, .finished, []⟩

/-- `Sys.reserve`, for a producer on its own. -/
def check (total : Nat) (s : RecordRing) : RecordRing :=
  if s.ring.hasRoom g total then { s with writer := .publish total }
  else
    match policy with
    | .drop | .nanoLog | .quill => { s with writer := .idle }
    | .block => if s.ring.live then s else { s with writer := .idle }

/-- `Sys.publish`. -/
def publish (total : Nat) (s : RecordRing) : RecordRing :=
  { s with
    ring.cells := s.ring.cells ++ [⟨0, s.ring.head, 0, total⟩]
    writer := .idle }

/-- The next access of the drain, which begins a pass behind the last one. -/
def passStep (s : RecordRing) : RecordRing :=
  match s.pass with
  | .finished => { s with pass := .loadTail }
  | pass =>
    let (pass', ring', x) := Pass.step s.ring pass
    { s with ring := ring', pass := pass', delivered := s.delivered ++ x.toList }

def step (s : RecordRing) : RecordRingAction → Option RecordRing
  | .reserve total =>
    match s.writer with
    | .idle =>
      if headerSize ≤ total ∧ total ≤ maxRecordSize then some { s with writer := .reserve total }
      else none
    | _ => none
  | .check =>
    match s.writer with
    | .reserve total => some (check g policy total s)
    | _ => none
  | .publish =>
    match s.writer with
    | .publish total => some (publish total s)
    | _ => none
  | .abandon =>
    match s.writer with
    | .publish _ => some { s with writer := .idle }
    | _ => none
  | .setDead => some { s with ring.live := false }
  | .pass => some (passStep s)

end RecordRing

/-- The record ring of one producer and one drain. -/
def recordRing (g : Geometry) (policy : Backpressure) : Machine RecordRing RecordRingAction where
  step := RecordRing.step g policy

/-! ## The relation -/

/-- The records of one ring as the system numbers them. -/
def recsOf (published : List (List UInt8)) : List Rec :=
  published.mapIdx fun i bytes => ⟨0, i, 0, bytes.length⟩

/-- What of the producer's position the record ring sees. -/
def ProducerPc.writer : ProducerPc → Writer
  | .idle => .idle
  | .refresh _ total => .reserve total
  | .confirm _ total | .writeEob _ total _ | .filling _ total => .publish total

/-- What of the drain's position the record ring sees. -/
def DrainSees (g : Geometry) (s : Spsc) (t : RecordRing) : Prop :=
  match s.drain with
  | .idle => t.pass = .finished ∧ t.ring.tail = s.sink.length ∧ t.ring.headCache = s.sink.length
  | .loadHead _ =>
    t.pass = .loadHead s.sink.length ∧ t.ring.tail = s.sink.length ∧
      t.ring.headCache = s.sink.length
  | .scan _ hc | .readPrefix _ hc _ | .readRecord _ hc _ _ =>
    t.pass = .scan s.sink.length s.seen ∧ hc = bytePos g (t.ring.cells.take s.seen) 0
  | .storeTail _ hc =>
    t.pass = .storeTail s.sink.length s.seen ∧ s.sink.length = s.seen ∧
      hc = bytePos g (t.ring.cells.take s.seen) 0

/-- `t` is what the system sees of the ring `s`. -/
structure Refines (g : Geometry) (s : Spsc) (t : RecordRing) : Prop where
  cells : t.ring.cells = recsOf s.published
  stale : t.ring.stale = []
  live : t.ring.live = s.ring.live
  head : s.ring.head = bytePos g t.ring.cells 0
  tail : s.ring.tail = bytePos g (t.ring.cells.take t.ring.tail) 0
  tail_le : t.ring.tail ≤ s.sink.length
  delivered : t.delivered = recsOf s.sink
  writer : t.writer = s.producer.writer
  pass : DrainSees g s t

theorem recsOf_length (published : List (List UInt8)) :
    (recsOf published).length = published.length := List.length_mapIdx

theorem recsOf_append (published : List (List UInt8)) (bytes : List UInt8) :
    recsOf (published ++ [bytes]) = recsOf published ++ [⟨0, published.length, 0, bytes.length⟩] :=
  List.mapIdx_concat

theorem bytePos_append (g : Geometry) (xs : List Rec) (x : Rec) (pos : Nat) :
    bytePos g (xs ++ [x]) pos = bytePos g xs pos + g.needed (bytePos g xs pos) x.size := by
  induction xs generalizing pos with
  | nil => rfl
  | cons y xs ih => exact ih _

/-- Without records there is no filler. -/
theorem Layout.stop_eq {g : Geometry} {data : Nat → UInt8} {pos stop : Nat}
    (h : Layout g data pos [] stop) : stop = pos := by
  cases h
  rfl

/-- The occupancy tests of the two levels are one. -/
theorem Refines.hasRoom_eq {g : Geometry} {s : Spsc} {t : RecordRing} (h : Refines g s t)
    (total : Nat) :
    t.ring.hasRoom g total = g.fits s.ring.head (g.needed s.ring.head total) s.ring.tail := by
  unfold Ring.hasRoom
  rw [h.head, h.tail, Ring.storage_eq h.stale]

/-! ## The producer's accesses -/

section

variable {g : Geometry} {s : Spsc} {t : RecordRing}

/-- The record ring sees nothing of the storage and of the cached tail. -/
theorem Refines.moved (h : Refines g s t) (p : ProducerPc) (data : Nat → UInt8) (cache : Nat) :
    Refines g { s with ring.data := data, ring.tailCache := cache, producer := p }
      { t with writer := p.writer } where
  cells := h.cells
  stale := h.stale
  live := h.live
  head := h.head
  tail := h.tail
  tail_le := h.tail_le
  delivered := h.delivered
  writer := rfl
  pass := h.pass

end

namespace Spsc

variable {g : Geometry} {fast : Bool} {policy : Backpressure} {s s' : Spsc} {t : RecordRing}

theorem granted_writer (g : Geometry) (head total : Nat) :
    (granted g head total).writer = .publish total := by
  unfold granted
  split <;> rfl

/-- An access that leaves the writer where it is. -/
theorem refines_stay (h : Refines g s t) {p : ProducerPc} (data : Nat → UInt8) (cache : Nat)
    (hp : p.writer = s.producer.writer) :
    ∃ t', (recordRing g policy).Reach t t' ∧
      Refines g { s with ring.data := data, ring.tailCache := cache, producer := p } t' := by
  have hmoved := h.moved p data cache
  rw [hp, ← h.writer] at hmoved
  exact ⟨t, .refl t, hmoved⟩

/-- The check that grants. -/
theorem check_granted {total : Nat} (hw : t.writer = .reserve total)
    (hroom : t.ring.hasRoom g total = true) :
    (recordRing g policy).step t .check = some { t with writer := .publish total } := by
  show RecordRing.step g policy t .check = _
  unfold RecordRing.step
  dsimp only
  rw [hw]
  dsimp only
  unfold RecordRing.check
  rw [if_pos hroom]

theorem reserve_refines {total : Nat} (hi : SpscInv g s) (hw : s.written < wordSize)
    (h : Refines g s t) (hstep : reserve g fast total s = some s') :
    ∃ t', (recordRing g policy).Reach t t' ∧ Refines g s' t' := by
  unfold reserve at hstep
  split at hstep
  next hpc =>
    have hidle : t.writer = .idle := by
      rw [h.writer, hpc]
      rfl
    split at hstep
    next hsize =>
      have hasks : (recordRing g policy).step t (.reserve total)
          = some { t with writer := .reserve total } := by
        show RecordRing.step g policy t (.reserve total) = _
        unfold RecordRing.step
        dsimp only
        rw [hidle]
        exact if_pos hsize
      dsimp only at hstep
      split at hstep
      next hfit =>
        -- what the cached tail leaves free the tail leaves free
        have hcached := (hi.fits_iff hw hsize.2 (Nat.le_refl _) hi.cache_le).mp hfit
        have hcache := hi.cache_le
        have hroom : t.ring.hasRoom g total = true := by
          rw [h.hasRoom_eq]
          apply (hi.fits_iff hw hsize.2 hi.cache_le (Nat.le_refl _)).mpr
          omega
        have hchecks : (recordRing g policy).step { t with writer := .reserve total } .check
            = some { t with writer := .publish total } := check_granted rfl hroom
        refine ⟨{ t with writer := .publish total },
          .tail (.single trivial hasks) trivial hchecks, ?_⟩
        split at hstep
        next =>
          cases hstep
          have hmoved := h.moved (granted g s.ring.head total) s.ring.data s.ring.tailCache
          rw [granted_writer] at hmoved
          exact hmoved
        next =>
          cases hstep
          exact h.moved (.confirm s.ring.head total) s.ring.data s.ring.tailCache
      next =>
        cases hstep
        exact ⟨_, .single trivial hasks,
          h.moved (.refresh s.ring.head total) s.ring.data s.ring.tailCache⟩
    next => cases hstep
  next => cases hstep

theorem loadTail_refines (hi : SpscInv g s) (h : Refines g s t)
    (hstep : loadTail g policy s = some s') :
    ∃ t', (recordRing g policy).Reach t t' ∧ Refines g s' t' := by
  have hprod := hi.producer
  unfold ProducerInv at hprod
  unfold loadTail at hstep
  dsimp only at hstep
  split at hstep
  next head total hpc =>
    cases hstep
    apply refines_stay h
    rw [granted_writer, hpc]
    rfl
  next head total hpc =>
    rw [hpc] at hprod
    obtain ⟨rfl, -, -⟩ := hprod
    have hw : t.writer = .reserve total := by
      rw [h.writer, hpc]
      rfl
    have hroom := h.hasRoom_eq total
    split at hstep
    next hfit =>
      cases hstep
      rw [hfit] at hroom
      have hmoved := h.moved (granted g s.ring.head total) s.ring.data s.ring.tail
      rw [granted_writer] at hmoved
      exact ⟨_, .single trivial (check_granted hw hroom), hmoved⟩
    next hfull =>
      -- both levels refuse, and do what the policy says
      have hfalse : ¬ t.ring.hasRoom g total = true := by
        rw [hroom]
        exact hfull
      have hchecks : (recordRing g policy).step t .check
          = some (RecordRing.check g policy total t) := by
        show RecordRing.step g policy t .check = _
        unfold RecordRing.step
        dsimp only
        rw [hw]
      have hrefused := h.moved .idle s.ring.data s.ring.tail
      unfold RecordRing.check at hchecks
      rw [if_neg hfalse] at hchecks
      cases policy with
      | drop | nanoLog | quill =>
        cases hstep
        exact ⟨_, .single trivial hchecks, hrefused⟩
      | block =>
        dsimp only at hstep hchecks
        rw [h.live] at hchecks
        split at hstep
        next hlive =>
          cases hstep
          exact refines_stay h s.ring.data s.ring.tail rfl
        next hdead =>
          cases hstep
          rw [if_neg hdead] at hchecks
          exact ⟨_, .single trivial hchecks, hrefused⟩
  next => cases hstep

theorem eobByte_refines (h : Refines g s t) (hstep : eobByte g s = some s') :
    ∃ t', (recordRing g policy).Reach t t' ∧ Refines g s' t' := by
  unfold eobByte at hstep
  split at hstep
  next head total k hpc =>
    cases hstep
    apply refines_stay h
    rw [hpc]
    split <;> rfl
  next => cases hstep

theorem write_refines {i : Nat} {b : UInt8} (h : Refines g s t)
    (hstep : write g i b s = some s') :
    ∃ t', (recordRing g policy).Reach t t' ∧ Refines g s' t' := by
  unfold write at hstep
  split at hstep
  next head total hpc =>
    split at hstep
    next =>
      cases hstep
      exact refines_stay h _ s.ring.tailCache rfl
    next => cases hstep
  next => cases hstep

/-- The drain's head is one it has loaded. -/
theorem seen_le (hi : SpscInv g s) : s.seen ≤ s.published.length := by
  have hpend : ∀ {pos hc : Nat}, Pending g s pos hc → s.seen ≤ s.published.length := by
    intro pos hc hp
    obtain ⟨recs, recs', hpub, -, -, hseen⟩ := hp
    rw [hseen, hpub]
    exact (List.prefix_append _ recs').length_le
  have hd := hi.drain
  unfold DrainInv at hd
  split at hd
  next => exact hpend hd.2
  next => exact hpend hd.2.2
  next => exact hpend hd.2.2
  next => exact hpend hd.2.2.2.1
  next =>
    obtain ⟨-, -, rec, ⟨recs, recs', hpub, -, -, -, hseen⟩, -⟩ := hd
    rw [hseen, hpub]
    exact (List.prefix_append _ recs').length_le
  next => exact hpend hd.2.2.2

theorem publish_refines (hi : SpscInv g s) (h : Refines g s t) (hw' : s'.written < wordSize)
    (hstep : publish g s = some s') :
    ∃ t', (recordRing g policy).Reach t t' ∧ Refines g s' t' := by
  have hprod := hi.producer
  unfold ProducerInv at hprod
  unfold publish at hstep
  split at hstep
  next head total hpc =>
    rw [hpc] at hprod
    obtain ⟨⟨rfl, -, -, -⟩, -⟩ := hprod
    dsimp only at hstep
    split at hstep
    next hfr =>
      cases hstep
      have hw : t.writer = .publish total := by
        rw [h.writer, hpc]
        rfl
      have hpublish : (recordRing g policy).step t .publish
          = some (RecordRing.publish total t) := by
        show RecordRing.step g policy t .publish = _
        unfold RecordRing.step
        dsimp only
        rw [hw]
      have hlen : t.ring.cells.length = s.published.length := by
        rw [h.cells, recsOf_length]
      have hsink := (sink_le_published hi).length_le
      have hseen := seen_le hi
      have htail := h.tail_le
      have htake : ∀ {n : Nat}, n ≤ s.published.length → ∀ x : Rec,
          (t.ring.cells ++ [x]).take n = t.ring.cells.take n := by
        intro n hn x
        exact List.take_append_of_le_length (by omega)
      refine ⟨_, .single trivial hpublish, ?_⟩
      unfold RecordRing.publish
      refine ⟨?_, h.stale, h.live, ?_, ?_, h.tail_le, h.delivered, rfl, ?_⟩
      · show t.ring.cells ++ [⟨0, t.ring.cells.length, 0, total⟩] = recsOf (_ ++ [_])
        rw [recsOf_append, slice_length, hlen, h.cells]
      · show g.newHead s.ring.head total = bytePos g (_ ++ [_]) 0
        rw [bytePos_append, ← h.head]
        apply newHead_eq
        rw [hi.head_eq] at hw' ⊢
        exact hw'
      · show s.ring.tail = bytePos g ((_ ++ [_]).take t.ring.tail) 0
        rw [htake (by omega)]
        exact h.tail
      · -- the drain's head is one of before
        have hpass := h.pass
        unfold DrainSees at hpass ⊢
        dsimp only
        rw [htake hseen]
        exact hpass
    next => cases hstep
  next => cases hstep

theorem abandon_refines (h : Refines g s t) (hstep : abandon s = some s') :
    ∃ t', (recordRing g policy).Reach t t' ∧ Refines g s' t' := by
  unfold abandon at hstep
  split at hstep
  next head total hpc =>
    cases hstep
    have hw : t.writer = .publish total := by
      rw [h.writer, hpc]
      rfl
    have habandon : (recordRing g policy).step t .abandon
        = some { t with writer := .idle } := by
      show RecordRing.step g policy t .abandon = _
      unfold RecordRing.step
      dsimp only
      rw [hw]
    exact ⟨_, .single trivial habandon, h.moved .idle s.ring.data s.ring.tailCache⟩
  next => cases hstep

/-! ## The drain's accesses -/

/-- An access of a pass that hands nothing over. -/
theorem pass_quiet {p p' : Pass} {ring' : Ring} (hp : t.pass = p) (hne : p ≠ .finished)
    (hstep : Pass.step t.ring p = (p', ring', none)) :
    (recordRing g policy).step t .pass = some { t with ring := ring', pass := p' } := by
  have hgo : RecordRing.passStep t = { t with ring := ring', pass := p' } := by
    unfold RecordRing.passStep
    split
    next hdone => exact absurd (hp.symm.trans hdone) hne
    next =>
      rw [hp, hstep]
      show RecordRing.mk ring' t.writer p' (t.delivered ++ []) = _
      rw [List.append_nil]
  show some (RecordRing.passStep t) = _
  rw [hgo]

/-- Moving the drain between two events of the record ring. -/
theorem refines_drain (h : Refines g s t) {pc : DrainPc}
    (hpass : DrainSees g { s with drain := pc } t) : Refines g { s with drain := pc } t where
  cells := h.cells
  stale := h.stale
  live := h.live
  head := h.head
  tail := h.tail
  tail_le := h.tail_le
  delivered := h.delivered
  writer := h.writer
  pass := hpass

theorem idle_refines (hi : SpscInv g s) (h : Refines g s t) (hpc : s.drain = .idle) :
    ∃ t', (recordRing g policy).Reach t t' ∧ Refines g (drainStep g s) t' := by
  have hd := hi.drain
  have hpass := h.pass
  unfold DrainInv at hd
  unfold DrainSees at hpass
  rw [hpc] at hd hpass
  obtain ⟨hdone, htail, hcache⟩ := hpass
  have hbegin : (recordRing g policy).step t .pass = some { t with pass := .loadTail } := by
    show some (RecordRing.passStep t) = _
    unfold RecordRing.passStep
    rw [hdone]
  have hload : (recordRing g policy).step { t with pass := .loadTail } .pass
      = some { t with pass := .loadCache t.ring.tail } := pass_quiet rfl nofun rfl
  have hcached : (recordRing g policy).step { t with pass := .loadCache t.ring.tail } .pass
      = some { t with pass := .loadHead t.ring.tail } :=
    pass_quiet rfl nofun (if_pos (htail.trans hcache.symm))
  refine ⟨_, .tail (.tail (.single trivial hbegin) trivial hload) trivial hcached, ?_⟩
  unfold drainStep
  rw [hpc]
  dsimp only
  rw [if_pos hd.1.symm, htail]
  exact ⟨h.cells, h.stale, h.live, h.head, h.tail, h.tail_le, h.delivered, h.writer, rfl, htail,
    hcache⟩

theorem loadHead_refines {pos : Nat} (hi : SpscInv g s) (h : Refines g s t)
    (hpc : s.drain = .loadHead pos) :
    ∃ t', (recordRing g policy).Reach t t' ∧ Refines g (drainStep g s) t' := by
  have hd := hi.drain
  have hpass := h.pass
  unfold DrainInv at hd
  unfold DrainSees at hpass
  rw [hpc] at hd hpass
  obtain ⟨rfl, -, hpend⟩ := hd
  obtain ⟨hload, htail, hcache⟩ := hpass
  obtain ⟨recs', hpub, hlay, -⟩ := hpend.at_end
  have hhead : t.ring.head = s.published.length := by
    show t.ring.cells.length = _
    rw [h.cells, recsOf_length]
  unfold drainStep
  rw [hpc]
  dsimp only
  by_cases hend : s.ring.tail = s.ring.head
  · -- nothing is behind the tail, in bytes or in records
    rw [← hend] at hlay
    rw [hlay.eq_nil, List.append_nil] at hpub
    have hquiet : (recordRing g policy).step t .pass = some { t with pass := .finished } :=
      pass_quiet hload nofun (if_pos (by rw [hhead, hpub]))
    refine ⟨_, .single trivial hquiet, ?_⟩
    rw [if_pos hend]
    exact ⟨h.cells, h.stale, h.live, h.head, h.tail, h.tail_le, h.delivered, h.writer, rfl, htail,
      hcache⟩
  · have hne : s.sink.length ≠ t.ring.head := by
      intro heq
      rw [hhead, hpub, List.length_append] at heq
      have hnil : recs' = [] := List.length_eq_zero_iff.mp (by omega)
      rw [hnil] at hlay
      exact hend hlay.stop_eq.symm
    have hquiet : (recordRing g policy).step t .pass
        = some { t with pass := .scan s.sink.length t.ring.head } :=
      pass_quiet hload nofun (if_neg hne)
    refine ⟨_, .single trivial hquiet, ?_⟩
    rw [if_neg hend]
    refine ⟨h.cells, h.stale, h.live, h.head, h.tail, h.tail_le, h.delivered, h.writer, ?_, ?_⟩
    · show Pass.scan s.sink.length t.ring.head = .scan s.sink.length s.published.length
      rw [hhead]
    · show s.ring.head = bytePos g (t.ring.cells.take s.published.length) 0
      rw [← hhead]
      show _ = bytePos g (t.ring.cells.take t.ring.cells.length) 0
      rw [List.take_length]
      exact h.head

theorem scan_refines {pos hc : Nat} (hi : SpscInv g s) (h : Refines g s t)
    (hpc : s.drain = .scan pos hc) :
    ∃ t', (recordRing g policy).Reach t t' ∧ Refines g (drainStep g s) t' := by
  have hd := hi.drain
  have hpass := h.pass
  unfold DrainInv at hd
  unfold DrainSees at hpass
  rw [hpc] at hd hpass
  obtain ⟨-, -, recs, recs', -, hlay, -, hseen⟩ := hd
  obtain ⟨hscan, hhc⟩ := hpass
  unfold drainStep
  rw [hpc]
  dsimp only
  by_cases hlt : pos < hc
  · rw [if_pos hlt]
    exact ⟨t, .refl t, refines_drain h ⟨hscan, hhc⟩⟩
  · -- no record is left up to the drain's head
    have hle := hlay.le
    obtain rfl : pos = hc := by omega
    rw [hlay.eq_nil, List.append_nil] at hseen
    have hquiet : (recordRing g policy).step t .pass
        = some { t with pass := .storeTail s.sink.length s.seen } :=
      pass_quiet hscan nofun (if_neg (by omega))
    refine ⟨_, .single trivial hquiet, ?_⟩
    rw [if_neg hlt]
    exact ⟨h.cells, h.stale, h.live, h.head, h.tail, h.tail_le, h.delivered, h.writer, rfl,
      hseen.symm, hhc⟩

/-- A frame's prefix is that of a record or of a filler, and the record ring sees neither. -/
theorem readPrefix_refines {pos hc : Nat} {acc : List UInt8} (hi : SpscInv g s)
    (h : Refines g s t) (hpc : s.drain = .readPrefix pos hc acc) :
    ∃ t', (recordRing g policy).Reach t t' ∧ Refines g (drainStep g s) t' := by
  have hd := hi.drain
  have hpass := h.pass
  unfold DrainInv at hd
  unfold DrainSees at hpass
  rw [hpc] at hd hpass
  obtain ⟨-, hdvd, hlt, ⟨recs, recs', -, hlay, -⟩, hlen, hacc⟩ := hd
  refine ⟨t, .refl t, ?_⟩
  unfold drainStep
  rw [hpc]
  dsimp only
  rw [prefixLen_eq hdvd]
  by_cases hmore : acc.length < 4
  · rw [if_pos hmore]
    exact refines_drain h hpass
  · rw [if_neg hmore]
    have hfour : acc.length = 4 := by omega
    rw [hfour] at hacc
    rcases hlay.head_cases hlt with ⟨rec, rest, rfl, hrec, -⟩ | ⟨hfill, -⟩
    · rw [hacc, hrec.verdict_eq]
      exact refines_drain h hpass
    · rw [hacc, (hfill.verdict_eq hdvd).1]
      exact refines_drain h hpass

theorem readRecord_refines {pos hc total : Nat} {acc : List UInt8} (hi : SpscInv g s)
    (h : Refines g s t) (hpc : s.drain = .readRecord pos hc total acc) :
    ∃ t', (recordRing g policy).Reach t t' ∧ Refines g (drainStep g s) t' := by
  have hd := hi.drain
  have hpass := h.pass
  unfold DrainInv at hd
  unfold DrainSees at hpass
  rw [hpc] at hd hpass
  obtain ⟨-, -, rec, ⟨recs, recs', hpub, hrec, -, -, hseen⟩, rfl, hlen, hacc⟩ := hd
  obtain ⟨hscan, hhc⟩ := hpass
  unfold drainStep
  rw [hpc]
  dsimp only
  by_cases hmore : acc.length < rec.length
  · rw [if_pos hmore]
    exact ⟨t, .refl t, refines_drain h ⟨hscan, hhc⟩⟩
  · rw [if_neg hmore]
    have hall : acc.length = rec.length := by omega
    rw [hall, hrec.bytes] at hacc
    subst hacc
    -- the record is handed over at both levels
    have hlt : s.sink.length < s.seen := by
      rw [hseen, List.length_append, List.length_cons]
      omega
    have hcell : t.ring.cells[s.sink.length]? = some ⟨0, s.sink.length, 0, acc.length⟩ := by
      have hget : s.published[s.sink.length]? = some acc := by
        rw [hpub, List.append_assoc, List.getElem?_append_right (Nat.le_refl _), Nat.sub_self]
        rfl
      rw [h.cells]
      show (List.mapIdx _ _)[_]? = _
      rw [List.getElem?_mapIdx, hget]
      rfl
    have hpassed : Pass.step t.ring (.scan s.sink.length s.seen)
        = (.scan (s.sink.length + 1) s.seen, t.ring, some ⟨0, s.sink.length, 0, acc.length⟩) := by
      unfold Pass.step
      dsimp only
      rw [if_pos hlt, Ring.storage_eq h.stale, hcell]
    have hover : (recordRing g policy).step t .pass = some { t with
        pass := .scan (s.sink.length + 1) s.seen
        delivered := t.delivered ++ [⟨0, s.sink.length, 0, acc.length⟩] } := by
      show some (RecordRing.passStep t) = _
      unfold RecordRing.passStep
      rw [hscan]
      dsimp only
      rw [hpassed]
      rfl
    refine ⟨_, .single trivial hover, ?_⟩
    have hsink : (s.sink ++ [acc]).length = s.sink.length + 1 := List.length_append
    refine ⟨h.cells, h.stale, h.live, h.head, h.tail, ?_, ?_, h.writer, ?_, hhc⟩
    · show t.ring.tail ≤ (s.sink ++ [acc]).length
      have htail := h.tail_le
      omega
    · show t.delivered ++ _ = recsOf (s.sink ++ [acc])
      rw [recsOf_append, h.delivered]
    · show Pass.scan _ _ = .scan (s.sink ++ [acc]).length s.seen
      rw [hsink]

theorem storeTail_refines {pos hc : Nat} (hi : SpscInv g s) (h : Refines g s t)
    (hpc : s.drain = .storeTail pos hc) :
    ∃ t', (recordRing g policy).Reach t t' ∧ Refines g (drainStep g s) t' := by
  have hd := hi.drain
  have hpass := h.pass
  unfold DrainInv at hd
  unfold DrainSees at hpass
  rw [hpc] at hd hpass
  obtain ⟨-, -, rfl, -⟩ := hd
  obtain ⟨hstore, hseen, hhc⟩ := hpass
  let stored : RecordRing :=
    { t with ring := { t.ring with tail := s.sink.length }, pass := .storeCache s.seen }
  have htail : (recordRing g policy).step t .pass = some stored := pass_quiet hstore nofun rfl
  have hcache : (recordRing g policy).step stored .pass = _ := pass_quiet rfl nofun rfl
  refine ⟨_, .tail (.single trivial htail) trivial hcache, ?_⟩
  unfold drainStep
  rw [hpc]
  dsimp only
  refine ⟨h.cells, h.stale, h.live, h.head, ?_, Nat.le_refl _, h.delivered, h.writer, rfl, rfl,
    hseen.symm⟩
  show pos = bytePos g (t.ring.cells.take s.sink.length) 0
  rw [hseen]
  exact hhc

/-! ## Whole runs -/

/-- **One access of the byte ring** is some accesses of the record ring, or none. -/
theorem step_refines {a : SpscAction} (hi : SpscInv g s) (hw : s.written < wordSize)
    (hw' : s'.written < wordSize) (h : Refines g s t)
    (hstep : step g fast policy s a = some s') :
    ∃ t', (recordRing g policy).Reach t t' ∧ Refines g s' t' := by
  cases a with
  | reserve total => exact reserve_refines hi hw h hstep
  | loadTail => exact loadTail_refines hi h hstep
  | eobByte => exact eobByte_refines h hstep
  | write i b => exact write_refines h hstep
  | publish => exact publish_refines hi h hw' hstep
  | abandon => exact abandon_refines h hstep
  | setDead =>
    cases hstep
    have hdead : (recordRing g policy).step t .setDead
        = some { t with ring.live := false } := rfl
    exact ⟨_, .single trivial hdead,
      h.cells, h.stale, rfl, h.head, h.tail, h.tail_le, h.delivered, h.writer, h.pass⟩
  | drain =>
    cases hstep
    cases hpc : s.drain with
    | idle => exact idle_refines hi h hpc
    | loadHead pos => exact loadHead_refines hi h hpc
    | scan pos hc => exact scan_refines hi h hpc
    | readPrefix pos hc acc => exact readPrefix_refines hi h hpc
    | readRecord pos hc total acc => exact readRecord_refines hi h hpc
    | storeTail pos hc => exact storeTail_refines hi h hpc

theorem init_refines (g : Geometry) (data : Nat → UInt8) :
    Refines g (Spsc.init data) RecordRing.init :=
  ⟨rfl, rfl, rfl, rfl, rfl, Nat.le_refl _, rfl, rfl, rfl, rfl, rfl⟩

theorem runs_refine {data : Nat → UInt8} (h : (spsc g fast policy).Reach (Spsc.init data) s)
    (hw : s.written < wordSize) :
    ∃ t, (recordRing g policy).Reach RecordRing.init t ∧ Refines g s t := by
  have hall : SpscInv g s ∧
      ∃ t, (recordRing g policy).Reach RecordRing.init t ∧ Refines g s t := by
    refine Machine.Runs.invariant_of_bounded (f := Spsc.written) (b := wordSize)
      (I := fun s => SpscInv g s ∧
        ∃ t, (recordRing g policy).Reach RecordRing.init t ∧ Refines g s t)
      (fun _ _ _ _ hst => step_written_le hst) ?_ h
      ⟨init_inv g data, _, .refl _, init_refines g data⟩ hw
    rintro s₁ a s₂ ⟨hi, t, hrun, href⟩ hlt - hst
    have hw₁ := Nat.lt_of_le_of_lt (step_written_le hst) hlt
    obtain ⟨t', hrun', href'⟩ := step_refines hi hw₁ hlt href hst
    exact ⟨step_inv hi hw₁ hlt hst, t', hrun.trans hrun', href'⟩
  exact hall.2

theorem recsOf_prefix {delivered published : List (List UInt8)} (h : delivered <+: published) :
    recsOf delivered = (recsOf published).take delivered.length := by
  obtain ⟨rest, rfl⟩ := h
  have happ : recsOf (delivered ++ rest) = recsOf delivered ++ _ := List.mapIdx_append
  rw [happ, List.take_left' (recsOf_length delivered)]

/-- **The byte ring is a record ring.** Every interleaving of the byte accesses of a producer and
a drain, on any initial storage, is one of the same two on a ring of records, in which the
published records are the ring's cells, those handed to the sink are delivered, the producer
stands where it does, `head` and `tail` are the byte positions of the record counts, and the
capacity check grants and refuses alike. -/
theorem spsc_is_recordRing (g : Geometry) (fast : Bool) (policy : Backpressure)
    (data : Nat → UInt8) {s : Spsc} (h : (spsc g fast policy).Reach (Spsc.init data) s)
    (hw : s.written < 2 ^ 64) :
    ∃ t, (recordRing g policy).Reach RecordRing.init t ∧
      t.ring.cells = recsOf s.published ∧ t.delivered = t.ring.cells.take s.sink.length ∧
      s.sink <+: s.published ∧ t.writer = s.producer.writer ∧
      s.ring.head = bytePos g t.ring.cells 0 ∧
      s.ring.tail = bytePos g (t.ring.cells.take t.ring.tail) 0 ∧
      t.ring.tail ≤ s.sink.length ∧
      ∀ total, t.ring.hasRoom g total
        = g.fits s.ring.head (g.needed s.ring.head total) s.ring.tail := by
  obtain ⟨t, hrun, href⟩ := runs_refine h hw
  have hsink := sink_le_published (reach_inv h hw)
  refine ⟨t, hrun, href.cells, ?_, hsink, href.writer, href.head, href.tail, href.tail_le,
    href.hasRoom_eq⟩
  rw [href.delivered, href.cells]
  exact recsOf_prefix hsink

/-- One record through a two-slot ring. -/
theorem spsc_is_recordRing_one :
    ∃ s t, (spsc twoSlots true .block).run (Spsc.init fun _ => 7)
        (oneRecord.filter (· ≠ .loadTail)) = some s ∧
      (recordRing twoSlots .block).Reach RecordRing.init t ∧
      t.delivered = [⟨0, 0, 0, 16⟩] ∧ s.ring.head = 64 ∧
      s.ring.head = bytePos twoSlots t.ring.cells 0 := by
  obtain ⟨s, hs⟩ := Option.isSome_iff_exists.mp
    (show ((spsc twoSlots true .block).run (Spsc.init fun _ => 7)
      (oneRecord.filter (· ≠ .loadTail))).isSome = true by decide +kernel)
  have hread : ((spsc twoSlots true .block).run (Spsc.init fun _ => 7)
      (oneRecord.filter (· ≠ .loadTail))).map
      (fun s => (s.written, s.ring.head, s.sink.length, s.published.map List.length))
      = some (64, 64, 1, [16]) := by
    decide +kernel
  rw [hs, Option.map_some, Option.some.injEq, Prod.mk.injEq, Prod.mk.injEq, Prod.mk.injEq] at hread
  obtain ⟨hwritten, hhead, hsink, hpub⟩ := hread
  obtain ⟨t, hrun, hcells, hdelivered, -, -, hpos, -⟩ :=
    spsc_is_recordRing twoSlots true .block (fun _ => 7) (Machine.run_runs hs)
      (by rw [hwritten]; decide)
  refine ⟨s, t, hs, hrun, ?_, hhead, hpos⟩
  obtain ⟨rec, hone⟩ : ∃ rec, s.published = [rec] := by
    apply List.length_eq_one_iff.mp
    rw [← List.length_map, hpub]
    rfl
  rw [hone] at hpub hcells
  obtain ⟨hlen, -⟩ := List.cons.inj hpub
  rw [hdelivered, hcells, hsink, show recsOf [rec] = [⟨0, 0, 0, rec.length⟩] from rfl, hlen]
  rfl

end Spsc

end Ticklog
