import Ticklog.Ring.Block

/-!
# The lagging head (`watermark-head` in `src/ring.rs`)

Under `watermark-head` the producer keeps its position to itself (`local_head`) and stores it to
the shared `head` once per `WATERMARK_HEAD_RECORDS` publications, or when `flush_watermark` is
called; the drain works with the shared `head`. Everything else is the code of the default
build, so a lagging ring is a `Spsc` whose `ring.head` is the producer's position, next to the
watermark: the drain's load of `head` is the only access that differs, and a publication the
only one that moves the watermark.

The invariant of `Spsc` holds for the producer's position, and the watermark cuts the records in
front of it between two frames (`Cut`). A ring whose drain has caught up with the watermark
holds what the producer has not flushed, and that alone may fill it: neither the drain nor a
failed reserve moves the watermark (`watermark_reserve_iff`).
-/

namespace Ticklog

open Lib
open Spsc (SpscInv)

/-- `WATERMARK_HEAD_RECORDS`. -/
def watermarkHeadRecords : Nat := 1000

/-- A ring with a lagging head. -/
structure Lagging where
  /-- The ring with both sides; its `ring.head` is the producer's `local_head`. -/
  core : Spsc
  /-- The shared `head`, the latest watermark. -/
  head : Nat
  sinceWatermark : Nat
  /-- History: the publications the watermark covers. -/
  flushed : Nat

inductive LaggingAction where
  | access (a : SpscAction)
  | flushWatermark
deriving DecidableEq, Repr

namespace Lagging

def init (data : Nat → UInt8) : Lagging := ⟨Spsc.init data, 0, 0, 0⟩

/-- `flush_watermark`. -/
def flushWatermark (s : Lagging) : Lagging :=
  { s with head := s.core.ring.head, sinceWatermark := 0, flushed := s.core.published.length }

section

variable (g : Geometry)

/-- `publish`: the position is private, the watermark is stored once per batch. -/
def publish (s : Lagging) : Option Lagging :=
  (Spsc.publish g s.core).map fun core =>
    let s := { s with core, sinceWatermark := s.sinceWatermark + 1 }
    if watermarkHeadRecords ≤ s.sinceWatermark then flushWatermark s else s

/-- The drain's next access. A pass over a dead ring starts with a flush; the load of `head` is
that of the watermark. -/
def drainStep (s : Lagging) : Lagging :=
  match s.core.drain with
  | .idle =>
    let s := if s.core.ring.live then s else flushWatermark s
    { s with core := Spsc.drainStep g s.core }
  | .loadHead tail =>
    let core := { s.core with seen := s.flushed }
    if tail = s.head then { s with core := { core with drain := .idle } }
    else { s with core := { core with drain := .scan tail s.head } }
  | _ => { s with core := Spsc.drainStep g s.core }

def step (fast : Bool) (policy : Backpressure) (s : Lagging) : LaggingAction → Option Lagging
  | .flushWatermark => some (flushWatermark s)
  | .access .publish => publish g s
  | .access .drain => some (drainStep g s)
  | .access a => (Spsc.step g fast policy s.core a).map fun core => { s with core }

end

end Lagging

/-- The machine of one lagging ring under one policy. -/
def laggingRing (g : Geometry) (fast : Bool) (policy : Backpressure) :
    Machine Lagging LaggingAction where
  step := Lagging.step g fast policy

namespace Lagging

variable {g : Geometry} {fast : Bool} {policy : Backpressure} {s s' : Lagging}

/-! ## The watermark between two frames -/

/-- The head the drain works with. -/
def passHead (c : Spsc) : Nat :=
  match c.drain with
  | .idle | .loadHead _ => c.ring.tail
  | .scan _ headCache | .readPrefix _ headCache _ | .readRecord _ headCache _ _
  | .storeTail _ headCache => headCache

/-- The records behind the drain's working head are those up to the watermark, then those the
producer has not flushed. -/
def Cut (g : Geometry) (c : Spsc) (mark flushed : Nat) : Prop :=
  ∃ recs recs', c.published.drop c.seen = recs ++ recs' ∧
    Layout g c.ring.data (passHead c) recs mark ∧ Layout g c.ring.data mark recs' c.ring.head ∧
    c.seen + recs.length = flushed

/-- The invariant of a lagging ring. -/
structure LaggingInv (g : Geometry) (s : Lagging) : Prop where
  core : SpscInv g s.core
  cut : Cut g s.core s.head s.flushed

theorem init_inv (g : Geometry) (data : Nat → UInt8) : LaggingInv g (init data) :=
  ⟨Spsc.init_inv g data, [], [], rfl, .nil 0, .nil 0, rfl⟩

/-- What the drain's part of the invariant says of its working head. -/
theorem passHead_spec {c : Spsc} (h : SpscInv g c) :
    c.ring.tail ≤ passHead c ∧ g.slotSize ∣ passHead c ∧ c.seen ≤ c.published.length := by
  have hpend : ∀ {t hc : Nat}, c.ring.tail ≤ t → g.slotSize ∣ t → Spsc.Pending g c t hc →
      c.ring.tail ≤ hc ∧ g.slotSize ∣ hc ∧ c.seen ≤ c.published.length := by
    rintro t hc ht hdvd ⟨recs, recs', hpub, h1, -, hseen⟩
    refine ⟨Nat.le_trans ht h1.le, h1.slot_dvd hdvd, ?_⟩
    rw [hpub, hseen, @List.length_append _ (c.sink ++ recs)]
    exact Nat.le_add_right _ _
  have hd := h.drain
  unfold Spsc.DrainInv at hd
  unfold passHead
  cases hpc : c.drain with
  | idle => simp only [hpc] at hd ⊢; exact hpend (Nat.le_refl _) h.tail_dvd hd.2
  | loadHead t => simp only [hpc] at hd ⊢; exact hpend (Nat.le_refl _) h.tail_dvd hd.2.2
  | scan t hc => simp only [hpc] at hd ⊢; exact hpend hd.1 hd.2.1 hd.2.2
  | readPrefix t hc acc => simp only [hpc] at hd ⊢; exact hpend hd.1 hd.2.1 hd.2.2.2.1
  | readRecord t hc total acc =>
    simp only [hpc] at hd ⊢
    obtain ⟨ht, hdvd, rec, ⟨recs, recs', hpub, hr, h1, -, hseen⟩, -⟩ := hd
    have hdvd' := Nat.dvd_add hdvd (slot_dvd_aligned_rec (g := g) hr.size_ok.2)
    refine ⟨?_, h1.slot_dvd hdvd', ?_⟩
    · have := h1.le
      omega
    · rw [hpub, hseen, @List.length_append _ (c.sink ++ rec :: recs)]
      exact Nat.le_add_right _ _
  | storeTail t hc => simp only [hpc] at hd ⊢; exact hpend hd.1 hd.2.1 hd.2.2.2

/-- The watermark lies between `tail` and the producer's position. -/
theorem LaggingInv.bounds (h : LaggingInv g s) :
    s.core.ring.tail ≤ s.head ∧ s.head ≤ s.core.ring.head := by
  obtain ⟨recs, recs', -, h1, h2, -⟩ := h.cut
  exact ⟨Nat.le_trans (passHead_spec h.core).1 h1.le, h2.le⟩

/-! ## The producer's accesses -/

/-- What the producer's accesses other than `publish` leave alone. -/
structure SameRegion (c c' : Spsc) (g : Geometry) : Prop where
  tail : c'.ring.tail = c.ring.tail
  head : c'.ring.head = c.ring.head
  live : c.ring.live = false → c'.ring.live = false
  drain : c'.drain = c.drain
  published : c'.published = c.published
  written : c'.written = c.written
  seen : c'.seen = c.seen
  data : ∀ p, c.ring.tail ≤ p → p < c.ring.head →
    c'.ring.data (g.offset p) = c.ring.data (g.offset p)

theorem producer_sameRegion {c c' : Spsc} {a : SpscAction} (h : SpscInv g c)
    (hpublish : a ≠ .publish) (hdrain : a ≠ .drain)
    (hstep : Spsc.step g fast policy c a = some c') : SameRegion c c' g := by
  have hfree := fun addr => @Spsc.writeAddr_free _ _ a addr h
  cases a with
  | reserve total =>
    simp only [Spsc.step, Spsc.reserve] at hstep
    repeat' split at hstep
    all_goals cases hstep
    all_goals exact ⟨rfl, rfl, id, rfl, rfl, rfl, rfl, fun _ _ _ => rfl⟩
  | loadTail =>
    simp only [Spsc.step, Spsc.loadTail] at hstep
    repeat' split at hstep
    all_goals cases hstep
    all_goals exact ⟨rfl, rfl, id, rfl, rfl, rfl, rfl, fun _ _ _ => rfl⟩
  | eobByte =>
    simp only [Spsc.step, Spsc.eobByte] at hstep
    split at hstep
    next head total k hpc =>
      cases hstep
      refine ⟨rfl, rfl, id, rfl, rfl, rfl, rfl, fun p hp hp' => ?_⟩
      have haddr := (hfree (g.offset head + k) (by simp only [Spsc.writeAddr, hpc])).2 p hp hp'
      exact Function.update_of_ne haddr _ _
    next => cases hstep
  | write i b =>
    simp only [Spsc.step, Spsc.write] at hstep
    split at hstep
    next head total hpc =>
      split at hstep
      next hi =>
        cases hstep
        refine ⟨rfl, rfl, id, rfl, rfl, rfl, rfl, fun p hp hp' => ?_⟩
        have haddr := (hfree (g.dst head total + i)
          (by simp only [Spsc.writeAddr, hpc, if_pos hi])).2 p hp hp'
        exact Function.update_of_ne haddr _ _
      next => cases hstep
    next => cases hstep
  | publish => exact absurd rfl hpublish
  | abandon =>
    simp only [Spsc.step, Spsc.abandon] at hstep
    split at hstep
    all_goals cases hstep
    exact ⟨rfl, rfl, id, rfl, rfl, rfl, rfl, fun _ _ _ => rfl⟩
  | setDead =>
    cases hstep
    exact ⟨rfl, rfl, fun _ => rfl, rfl, rfl, rfl, rfl, fun _ _ _ => rfl⟩
  | drain => exact absurd rfl hdrain

theorem Cut.sameRegion {c c' : Spsc} {mark flushed : Nat} (hcut : Cut g c mark flushed)
    (h : SpscInv g c) (hsame : SameRegion c c' g) : Cut g c' mark flushed := by
  obtain ⟨recs, recs', hdrop, h1, h2, hcount⟩ := hcut
  obtain ⟨htail, hdvd, -⟩ := passHead_spec h
  have hpass : passHead c' = passHead c := by
    unfold passHead
    rw [hsame.drain, hsame.tail]
  have hle := h1.le
  have hle' := h2.le
  refine ⟨recs, recs', ?_, ?_, ?_, ?_⟩
  · rw [hsame.published, hsame.seen]
    exact hdrop
  · rw [hpass]
    exact h1.congr hdvd fun p hp hp' => hsame.data p (by omega) (by omega)
  · rw [hsame.head]
    exact h2.congr (h1.slot_dvd hdvd) fun p hp hp' => hsame.data p (by omega) (by omega)
  · rw [hsame.seen]
    exact hcount

/-- A flush takes every published record over to the drain's side of the watermark. -/
theorem Cut.flush {c : Spsc} {mark flushed : Nat} (hcut : Cut g c mark flushed)
    (h : SpscInv g c) : Cut g c c.ring.head c.published.length := by
  obtain ⟨recs, recs', hdrop, h1, h2, -⟩ := hcut
  refine ⟨recs ++ recs', [], by rw [hdrop, List.append_nil], h1.append h2, .nil _, ?_⟩
  rw [← hdrop, List.length_drop]
  have := (passHead_spec h).2.2
  omega

/-- A publication is one more frame that is not flushed. -/
theorem Cut.publish {c c' : Spsc} {mark flushed : Nat} (hcut : Cut g c mark flushed)
    (h : SpscInv g c) (hw : c'.written < wordSize) (hstep : Spsc.publish g c = some c') :
    Cut g c' mark flushed := by
  have hprod := h.producer
  unfold Spsc.ProducerInv at hprod
  unfold Spsc.publish at hstep
  split at hstep
  next head total hpc =>
    rw [hpc] at hprod
    obtain ⟨hg, hfill⟩ := hprod
    simp only at hstep
    split at hstep
    next hfr =>
      cases hstep
      obtain ⟨recs, recs', hdrop, h1, h2, hcount⟩ := hcut
      have hlay := Spsc.publish_layout h hg hfill hfr
      have hhead : head = c.ring.head := hg.1
      have hnew : g.newHead head total = head + g.needed head total := by
        refine Spsc.newHead_eq ?_
        rw [hhead, h.head_eq] at hw ⊢
        exact hw
      refine ⟨recs, recs' ++ [slice c.ring.data (g.dst head total) total], ?_, h1, ?_, hcount⟩
      · show (c.published ++ [_]).drop c.seen = _
        rw [List.drop_append_of_le_length (passHead_spec h).2.2, hdrop, List.append_assoc]
      · show Layout g c.ring.data mark _ (g.newHead head total)
        rw [hnew]
        rw [hhead] at hlay ⊢
        exact h2.append hlay
    next => cases hstep
  next => cases hstep

/-! ## The drain's accesses -/

/-- A drain access other than the load of `head` keeps to the head it works with. -/
theorem drainStep_passHead {c : Spsc} (h : SpscInv g c) (hload : ∀ t, c.drain ≠ .loadHead t) :
    passHead (Spsc.drainStep g c) = passHead c ∧
      (Spsc.drainStep g c).ring.data = c.ring.data ∧
      (Spsc.drainStep g c).ring.head = c.ring.head ∧
      (Spsc.drainStep g c).published = c.published ∧ (Spsc.drainStep g c).seen = c.seen := by
  have hd := h.drain
  unfold Spsc.DrainInv at hd
  refine ⟨?_, ?_, ?_, Spsc.drainStep_published, Spsc.drainStep_seen hload⟩
  · fun_cases Spsc.drainStep g c
    case case2 hpc _ hne =>
      simp only [hpc] at hd
      exact absurd hd.1.symm hne
    case case3 hpc => exact absurd hpc (hload _)
    case case4 t hpc _ _ _ => exact absurd hpc (hload t)
    case case14 t hc hpc =>
      simp only [hpc] at hd
      simp only [passHead, hpc]
      exact hd.2.2.1
    all_goals simp only [passHead, *]
  · fun_cases Spsc.drainStep g c <;> rfl
  · fun_cases Spsc.drainStep g c <;> rfl

theorem LaggingInv.drainCore (h : LaggingInv g s) (hw : s.core.written < wordSize)
    (hload : ∀ t, s.core.drain ≠ .loadHead t) :
    LaggingInv g { s with core := Spsc.drainStep g s.core } := by
  obtain ⟨recs, recs', hdrop, h1, h2, hcount⟩ := h.cut
  obtain ⟨hpass, hdata, hhead, hpub, hseen⟩ := drainStep_passHead h.core hload
  refine ⟨Spsc.drainStep_inv h.core hw, recs, recs', ?_, ?_, ?_, ?_⟩
  · show (Spsc.drainStep g s.core).published.drop (Spsc.drainStep g s.core).seen = _
    rw [hpub, hseen]
    exact hdrop
  · show Layout g (Spsc.drainStep g s.core).ring.data _ _ _
    rw [hdata, hpass]
    exact h1
  · show Layout g (Spsc.drainStep g s.core).ring.data _ _ (Spsc.drainStep g s.core).ring.head
    rw [hdata, hhead]
    exact h2
  · show (Spsc.drainStep g s.core).seen + _ = _
    rw [hseen]
    exact hcount

/-- The load of the watermark splits what is pending there. -/
theorem LaggingInv.loadHead {t : Nat} (h : LaggingInv g s) (hpc : s.core.drain = .loadHead t) :
    LaggingInv g (drainStep g s) := by
  have hd := h.core.drain
  unfold Spsc.DrainInv at hd
  simp only [hpc] at hd
  obtain ⟨rfl, hcache, hpend⟩ := hd
  obtain ⟨recs, recs', hdrop, h1, h2, hcount⟩ := h.cut
  obtain ⟨pending, hpub, -, hseen⟩ := hpend.at_end
  have hpending : pending = recs ++ recs' := by
    rw [← hdrop, hpub, hseen, List.drop_left]
  have hbehind : s.core.published.drop s.flushed = recs' := by
    rw [← hcount, ← List.drop_drop, hdrop, List.drop_left]
  have hstart : Layout g s.core.ring.data s.core.ring.tail recs s.head := by
    have hpass : passHead s.core = s.core.ring.tail := by
      unfold passHead
      rw [hpc]
    rw [← hpass]
    exact h1
  have hsplit : ∀ pc : DrainPc, Spsc.Pending g
      { s.core with seen := s.flushed, drain := pc } s.core.ring.tail s.head := by
    refine fun pc => ⟨recs, recs', ?_, hstart, h2, ?_⟩
    · show s.core.published = _
      rw [hpub, hpending, List.append_assoc]
    · show s.flushed = _
      rw [← hcount, hseen, List.length_append]
  unfold drainStep
  simp only [hpc]
  by_cases heq : s.core.ring.tail = s.head
  · rw [if_pos heq]
    refine ⟨h.core.withDrain s.core.sink s.flushed ⟨hcache, ?_⟩, [], recs', hbehind, ?_, h2, rfl⟩
    · have hload := hsplit .idle
      rw [← heq] at hload
      exact hload
    · show Layout g _ s.core.ring.tail [] s.head
      rw [heq]
      exact .nil _
  · rw [if_neg heq]
    exact ⟨h.core.withDrain s.core.sink s.flushed ⟨Nat.le_refl _, h.core.tail_dvd, hsplit _⟩,
      [], recs', hbehind, .nil _, h2, rfl⟩

/-! ## Every access keeps the invariant -/

theorem LaggingInv.flush (h : LaggingInv g s) : LaggingInv g (flushWatermark s) :=
  ⟨h.core, h.cut.flush h.core⟩

theorem publish_inv (h : LaggingInv g s) (hw : s'.core.written < wordSize)
    (hstep : publish g s = some s') : LaggingInv g s' := by
  unfold publish at hstep
  obtain ⟨core, hcore, hs'⟩ := Option.map_eq_some_iff.mp hstep
  have hwritten : s'.core = core := by
    rw [← hs']
    simp only
    split <;> rfl
  rw [hwritten] at hw
  have hinv : LaggingInv g { s with core, sinceWatermark := s.sinceWatermark + 1 } :=
    ⟨Spsc.publish_inv h.core hcore hw, h.cut.publish h.core hw hcore⟩
  rw [← hs']
  simp only
  split
  · exact hinv.flush
  · exact hinv

/-- Inside a pass the drain's accesses are those of the default build. -/
theorem drainStep_core (hidle : s.core.drain ≠ .idle) (hload : ∀ t, s.core.drain ≠ .loadHead t) :
    drainStep g s = { s with core := Spsc.drainStep g s.core } := by
  unfold drainStep
  split
  next hpc => exact absurd hpc hidle
  next t hpc => exact absurd hpc (hload t)
  next => rfl

theorem drainStep_inv (h : LaggingInv g s) (hw : s.core.written < wordSize) :
    LaggingInv g (drainStep g s) := by
  by_cases hload : ∃ t, s.core.drain = .loadHead t
  · obtain ⟨t, ht⟩ := hload
    exact h.loadHead ht
  have hload : ∀ t, s.core.drain ≠ .loadHead t := fun t ht => hload ⟨t, ht⟩
  by_cases hidle : s.core.drain = .idle
  · unfold drainStep
    simp only [hidle]
    split
    · exact h.drainCore hw hload
    · exact h.flush.drainCore hw hload
  · rw [drainStep_core hidle hload]
    exact h.drainCore hw hload

/-- `local_head` only advances. -/
theorem step_written_le {a : LaggingAction} (hstep : step g fast policy s a = some s') :
    s.core.written ≤ s'.core.written := by
  have hcore : ∀ {a : SpscAction} {f : Spsc → Lagging}, (∀ c, (f c).core = c) →
      (Spsc.step g fast policy s.core a).map f = some s' →
      s.core.written ≤ s'.core.written := by
    intro a f hf hmap
    obtain ⟨c, hc, rfl⟩ := Option.map_eq_some_iff.mp hmap
    rw [hf]
    exact Spsc.step_written_le hc
  cases a with
  | flushWatermark =>
    cases hstep
    exact Nat.le_refl _
  | access a =>
    cases a with
    | publish =>
      refine hcore (a := .publish) (fun c => ?_) hstep
      simp only
      split <;> rfl
    | drain =>
      cases hstep
      unfold drainStep
      split
      · simp only [Spsc.drainStep_written]
        split <;> exact Nat.le_refl _
      · split <;> exact Nat.le_refl _
      · simp only [Spsc.drainStep_written, Nat.le_refl]
    | reserve total => exact hcore (fun _ => rfl) hstep
    | loadTail => exact hcore (fun _ => rfl) hstep
    | eobByte => exact hcore (fun _ => rfl) hstep
    | write i b => exact hcore (fun _ => rfl) hstep
    | abandon => exact hcore (fun _ => rfl) hstep
    | setDead => exact hcore (a := .setDead) (f := fun core => { s with core }) (fun _ => rfl) hstep

theorem access_inv {a : SpscAction} (h : LaggingInv g s) (hw : s.core.written < wordSize)
    (hpublish : a ≠ .publish) (hdrain : a ≠ .drain)
    (hstep : (Spsc.step g fast policy s.core a).map (fun core => { s with core }) = some s') :
    LaggingInv g s' := by
  obtain ⟨c, hc, rfl⟩ := Option.map_eq_some_iff.mp hstep
  have hsame := producer_sameRegion h.core hpublish hdrain hc
  have hw' : c.written < wordSize := by
    rw [hsame.written]
    exact hw
  exact ⟨Spsc.step_inv h.core hw hw' hc, h.cut.sameRegion h.core hsame⟩

/-- Every access and every flush keeps the invariant while fewer than `2^64` bytes are
written. -/
theorem step_inv {a : LaggingAction} (h : LaggingInv g s) (hw : s.core.written < wordSize)
    (hw' : s'.core.written < wordSize) (hstep : step g fast policy s a = some s') :
    LaggingInv g s' := by
  cases a with
  | flushWatermark =>
    cases hstep
    exact h.flush
  | access a =>
    cases a with
    | publish => exact publish_inv h hw' hstep
    | drain =>
      cases hstep
      exact drainStep_inv h hw
    | reserve total => exact access_inv (a := .reserve total) h hw nofun nofun hstep
    | loadTail => exact access_inv (a := .loadTail) h hw nofun nofun hstep
    | eobByte => exact access_inv (a := .eobByte) h hw nofun nofun hstep
    | write i b => exact access_inv (a := .write i b) h hw nofun nofun hstep
    | abandon => exact access_inv (a := .abandon) h hw nofun nofun hstep
    | setDead => exact @access_inv g fast policy s s' .setDead h hw nofun nofun hstep

theorem reach_inv {data : Nat → UInt8} (h : (laggingRing g fast policy).Reach (init data) s)
    (hw : s.core.written < wordSize) : LaggingInv g s := by
  refine Machine.Runs.invariant_of_bounded (f := fun s : Lagging => s.core.written)
    (b := wordSize) (fun _ _ _ _ hst => step_written_le hst) ?_ h (init_inv g data) hw
  intro s₁ a s₂ hinv hlt _ hst
  exact step_inv hinv (Nat.lt_of_le_of_lt (step_written_le hst) hlt) hlt hst

/-! ## What the producer has not flushed -/

/-- The bytes between the watermark and the producer's position. -/
def lag (s : Lagging) : Nat := s.core.ring.head - s.head

/-- A record of at most one slot never wraps. -/
theorem needed_oneSlot {head total : Nat} (hdvd : g.slotSize ∣ head) (hpos : 0 < total)
    (hone : total ≤ g.slotSize) : g.needed head total = g.slotSize := by
  have hslot : g.slotSize ≤ 128 := by rcases g.slot_ok with h | h <;> omega
  have haligned : g.aligned total = g.slotSize := by
    rw [g.aligned_eq (by omega)]
    rcases g.slot_ok with h | h <;> rw [h] at hone ⊢ <;> omega
  have hrem := g.slot_le_remaining hdvd
  have hwrap : g.wraps head total = false := by
    rw [Bool.eq_false_iff]
    intro hwrap
    have := (g.wraps_iff head total).mp hwrap
    omega
  rw [g.needed_eq, hwrap, haligned]
  exact Nat.zero_add _

/-- The call `reserve(total)`, made now or already spinning, has its space after at most one load
of `tail`. -/
def ReservesAtOnce (g : Geometry) (fast : Bool) (policy : Backpressure) (s : Lagging)
    (total : Nat) : Prop :=
  ∃ s₁, (step g fast policy s (.access (.reserve total)) = some s₁ ∨
      Spsc.Spinning s.core total ∧ s₁ = s) ∧
    (s₁.core.producer = Spsc.granted g s.core.ring.head total ∨
      ∃ s₂, step g fast policy s₁ (.access .loadTail) = some s₂ ∧
        s₂.core.producer = Spsc.granted g s.core.ring.head total)

/-- A reserve only looks at the producer's side of the ring. -/
theorem reservesAtOnce_core {total : Nat} (h : Spsc.ReservesAtOnce g fast policy s.core total) :
    ReservesAtOnce g fast policy s total := by
  obtain ⟨c₁, hcall, hgrant⟩ := h
  refine ⟨{ s with core := c₁ }, ?_, ?_⟩
  · rcases hcall with hstep | ⟨hspin, rfl⟩
    · exact Or.inl (by simp only [step, hstep, Option.map_some])
    · exact Or.inr ⟨hspin, rfl⟩
  · rcases hgrant with hgrant | ⟨c₂, hload, hgrant⟩
    · exact Or.inl hgrant
    · exact Or.inr ⟨{ s with core := c₂ }, by simp only [step, hload, Option.map_some], hgrant⟩

/-- What another try, or an access of the drain, does. -/
def tries (total : Nat) (a : LaggingAction) : Prop :=
  a = .access (.reserve total) ∨ a = .access .loadTail ∨ a = .access .drain

/-- A live ring whose drain has caught up with the watermark and which the producer's own
unflushed records fill, between two tries for `total` bytes or in one. -/
structure Full (g : Geometry) (total : Nat) (s : Lagging) : Prop where
  inv : LaggingInv g s
  word : s.core.written < wordSize
  caughtUp : s.core.ring.tail = s.head
  live : s.core.ring.live = true
  size : headerSize ≤ total ∧ total ≤ g.slotSize
  full : ¬ lag s + g.slotSize < g.capacity
  producer : s.core.producer = .idle ∨ Spsc.Spinning s.core total

variable {total : Nat}

/-- On a ring whose drain has caught up with the watermark the occupancy test for one slot looks
at the lag. -/
theorem fits_caughtUp (h : LaggingInv g s) (hw : s.core.written < wordSize)
    (hcaught : s.core.ring.tail = s.head) (hsize : headerSize ≤ total ∧ total ≤ g.slotSize) :
    g.fits s.core.ring.head (g.needed s.core.ring.head total) s.core.ring.tail = true ↔
      lag s + g.slotSize < g.capacity := by
  have hslot : g.slotSize ≤ 128 := by rcases g.slot_ok with h | h <;> omega
  have hlo := hsize.1
  have hle := h.bounds.2
  have hcap := g.capacity_pos
  unfold headerSize at hlo
  rw [h.core.fits_iff hw (by unfold maxRecordSize; omega) h.core.cache_le (Nat.le_refl _),
    needed_oneSlot h.core.head_dvd (by omega) hsize.2]
  unfold lag Geometry.mask
  omega

theorem Full.not_fits (h : Full g total s) :
    ¬ g.fits s.core.ring.head (g.needed s.core.ring.head total) s.core.ring.tail = true :=
  fun hfits => h.full ((fits_caughtUp h.inv h.word h.caughtUp h.size).mp hfits)

theorem Full.framable (h : Full g total s) : headerSize ≤ total ∧ total ≤ maxRecordSize := by
  have hslot : g.slotSize ≤ 128 := by rcases g.slot_ok with h | h <;> omega
  have hsize := h.size
  unfold maxRecordSize
  omega

/-- A try of the producer on a full ring fails, and leaves it full. -/
theorem Full.access {a : SpscAction} (h : Full g total s) (ha : a = .reserve total ∨ a = .loadTail)
    {c : Spsc} (hstep : Spsc.step g fast policy s.core a = some c) :
    (c.producer = .idle ∨ Spsc.Spinning c total) ∧ c.ring.live = true ∧
      (policy = .block → Spsc.Spinning s.core total → Spsc.Spinning c total) := by
  rcases ha with rfl | rfl
  · rcases h.producer with hpc | hpc
    · rw [Spsc.reserve_spins h.inv.core h.word hpc h.framable h.not_fits] at hstep
      cases hstep
      exact ⟨Or.inr rfl, h.live, fun _ _ => rfl⟩
    · unfold Spsc.Spinning at hpc
      dsimp only [Spsc.step, Spsc.reserve] at hstep
      simp only [hpc] at hstep
      cases hstep
  · rcases h.producer with hpc | hpc
    · dsimp only [Spsc.step, Spsc.loadTail] at hstep
      simp only [hpc] at hstep
      cases hstep
    · have hsame := producer_sameRegion (a := .loadTail) h.inv.core nofun nofun hstep
      have hlive : c.ring.live = true := by
        unfold Spsc.Spinning at hpc
        dsimp only [Spsc.step, Spsc.loadTail] at hstep
        simp only [hpc] at hstep
        repeat' split at hstep
        all_goals cases hstep; exact h.live
      have hfail := Spsc.loadTail_full hpc h.not_fits hstep
      have hspin : c.producer = .refresh s.core.ring.head total → Spsc.Spinning c total := by
        intro hc
        unfold Spsc.Spinning
        rw [hsame.head]
        exact hc
      refine ⟨hfail.imp And.left hspin, hlive, fun hblock _ => ?_⟩
      rcases hfail with ⟨-, hdead⟩ | hc
      · have hdead := hdead hblock
        rw [h.live] at hdead
        cases hdead
      · exact hspin hc

/-- A pass over a full ring finds the watermark where it left it. -/
theorem Full.drain (h : Full g total s) :
    (drainStep g s).head = s.head ∧ (drainStep g s).core.ring.head = s.core.ring.head ∧
      s.core.ring.tail ≤ (drainStep g s).core.ring.tail ∧
      (drainStep g s).core.ring.live = s.core.ring.live ∧
      (drainStep g s).core.producer = s.core.producer ∧
      (drainStep g s).core.written = s.core.written := by
  have hside : (Spsc.drainStep g s.core).ring.head = s.core.ring.head ∧
      s.core.ring.tail ≤ (Spsc.drainStep g s.core).ring.tail ∧
      (Spsc.drainStep g s.core).ring.live = s.core.ring.live ∧
      (Spsc.drainStep g s.core).producer = s.core.producer ∧
      (Spsc.drainStep g s.core).written = s.core.written := by
    refine ⟨?_, Spsc.tail_le_drainStep h.inv.core, ?_, ?_, Spsc.drainStep_written⟩
    all_goals fun_cases Spsc.drainStep g s.core <;> rfl
  unfold drainStep
  split
  · rw [if_pos h.live]
    exact ⟨rfl, hside⟩
  · split <;> exact ⟨rfl, rfl, Nat.le_refl _, rfl, rfl, rfl⟩
  · exact ⟨rfl, hside⟩

theorem Full.step {a : LaggingAction} (h : Full g total s) (ha : tries total a)
    (hstep : Lagging.step g fast policy s a = some s') :
    Full g total s' ∧
      (policy = .block → Spsc.Spinning s.core total → Spsc.Spinning s'.core total) := by
  have htry : ∀ a : SpscAction, a = .reserve total ∨ a = .loadTail →
      (Spsc.step g fast policy s.core a).map (fun core => { s with core }) = some s' →
      Full g total s' ∧
        (policy = .block → Spsc.Spinning s.core total → Spsc.Spinning s'.core total) := by
    intro a ha hmap
    have hne : a ≠ .publish ∧ a ≠ .drain := by rcases ha with rfl | rfl <;> exact ⟨nofun, nofun⟩
    obtain ⟨c, hc, hs'⟩ := Option.map_eq_some_iff.mp hmap
    have hsame := producer_sameRegion h.inv.core hne.1 hne.2 hc
    have hinv := access_inv h.inv h.word hne.1 hne.2 hmap
    obtain ⟨hpc, hlive, hspin⟩ := h.access ha hc
    subst hs'
    refine ⟨⟨hinv, ?_, hsame.tail.trans h.caughtUp, hlive, h.size, ?_, hpc⟩, hspin⟩
    · show c.written < wordSize
      rw [hsame.written]
      exact h.word
    · show ¬ c.ring.head - s.head + g.slotSize < g.capacity
      rw [hsame.head]
      exact h.full
  rcases ha with rfl | rfl | rfl
  · exact htry _ (Or.inl rfl) hstep
  · exact htry _ (Or.inr rfl) hstep
  · cases hstep
    obtain ⟨hmark, hhead, htail, hlive, hpc, hwritten⟩ := h.drain
    have hinv := drainStep_inv h.inv h.word
    have hspin : Spsc.Spinning s.core total → Spsc.Spinning (drainStep g s).core total := by
      unfold Spsc.Spinning
      rw [hpc, hhead]
      exact id
    refine ⟨⟨hinv, ?_, ?_, hlive.trans h.live, h.size, ?_, ?_⟩, fun _ => hspin⟩
    · rw [hwritten]
      exact h.word
    · have hle := hinv.bounds.1
      have hcaught := h.caughtUp
      rw [hmark] at hle ⊢
      omega
    · unfold lag
      rw [hhead, hmark]
      exact h.full
    · exact h.producer.imp hpc.trans hspin

theorem Full.not_reservesAtOnce (h : Full g total s) :
    ¬ ReservesAtOnce g fast policy s total := by
  rintro ⟨s₁, hcall, hgrant⟩
  have hs₁ : Full g total s₁ ∧ s₁.core.ring.head = s.core.ring.head := by
    rcases hcall with hstep | ⟨-, rfl⟩
    · refine ⟨(h.step (Or.inl rfl) hstep).1, ?_⟩
      obtain ⟨c, hc, rfl⟩ := Option.map_eq_some_iff.mp hstep
      exact (producer_sameRegion (a := .reserve total) h.inv.core nofun nofun hc).head
    · exact ⟨h, rfl⟩
  have hno : ∀ {s₂ : Lagging}, Full g total s₂ →
      s₂.core.producer ≠ Spsc.granted g s.core.ring.head total := by
    intro s₂ hs₂ heq
    rcases hs₂.producer with hidle | hspin
    · exact Spsc.granted_ne_idle (heq.symm.trans hidle)
    · exact Spsc.granted_ne_refresh (heq.symm.trans hspin)
  rcases hgrant with hgrant | ⟨s₂, hload, hgrant⟩
  · exact hno hs₁.1 hgrant
  · exact hno (hs₁.1.step (Or.inr (Or.inl rfl)) hload).1 hgrant

/-- For a live ring of any accepted capacity, brought to a state where the drain has caught up
with the shared head before `2^64` bytes are written: a record of one slot has its space at the
next check exactly when what the producer has not flushed leaves a slot and a byte. Where it
does not, each later try fails whatever the drain does, and a `Block` producer goes on
spinning. -/
theorem watermark_reserve_iff (g : Geometry) (fast : Bool) (policy : Backpressure)
    (data : Nat → UInt8) {s : Lagging} (h : (laggingRing g fast policy).Reach (init data) s)
    (hw : s.core.written < 2 ^ 64) (hcaught : s.core.ring.tail = s.head)
    (hlive : s.core.ring.live = true) (total : Nat)
    (hpc : s.core.producer = .idle ∨ Spsc.Spinning s.core total)
    (hsize : headerSize ≤ total ∧ total ≤ g.slotSize) :
    (ReservesAtOnce g fast policy s total ↔ lag s + g.slotSize < g.capacity) ∧
    (¬ lag s + g.slotSize < g.capacity → ∀ s',
      (laggingRing g fast policy).Runs (fun _ a => tries total a) s s' →
        (s'.core.producer = .idle ∨ Spsc.Spinning s'.core total) ∧
        (policy = .block → Spsc.Spinning s.core total → Spsc.Spinning s'.core total)) := by
  have hinv := reach_inv h hw
  have hfits := fits_caughtUp hinv hw hcaught hsize
  have hfull : ¬ lag s + g.slotSize < g.capacity → Full g total s :=
    fun hno => ⟨hinv, hw, hcaught, hlive, hsize, hno, hpc⟩
  refine ⟨⟨fun hnow => ?_, fun hroom => ?_⟩, fun hno s' hrun => ?_⟩
  · by_contra hno
    exact (hfull hno).not_reservesAtOnce hnow
  · have hslot : g.slotSize ≤ 128 := by rcases g.slot_ok with h | h <;> omega
    have hframable : headerSize ≤ total ∧ total ≤ maxRecordSize := by
      unfold maxRecordSize
      omega
    exact reservesAtOnce_core (Spsc.reservesAtOnce_of_fits hpc hframable (hfits.mpr hroom))
  · have hkept : Full g total s' ∧
        (policy = .block → Spsc.Spinning s.core total → Spsc.Spinning s'.core total) := by
      refine hrun.invariant (I := fun s' => Full g total s' ∧
        (policy = .block → Spsc.Spinning s.core total → Spsc.Spinning s'.core total)) ?_
        ⟨hfull hno, fun _ hs => hs⟩
      rintro s₁ a s₂ ⟨hs₁, hspin⟩ ha hstep
      obtain ⟨hs₂, hspin₂⟩ := hs₁.step ha hstep
      exact ⟨hs₂, fun hblock hs => hspin₂ hblock (hspin hblock hs)⟩
    exact ⟨hkept.1.producer, hkept.2⟩

/-- A fresh ring of two slots takes a record. -/
theorem watermark_reserve_fresh :
    ReservesAtOnce Spsc.twoSlots false .block (init fun _ => 7) 16 :=
  (watermark_reserve_iff Spsc.twoSlots false .block (fun _ => 7) (.refl _) (by decide) rfl rfl 16
    (Or.inl rfl) (by decide)).1.mpr (by decide)

/-- One record written and published but not flushed, and a pass over the ring. -/
def unflushed : List LaggingAction := Spsc.oneRecord.map .access

/-- A ring of two slots with one unflushed record: the drain sees an empty ring, the producer a
full one. -/
theorem full_of_unflushed :
    ∃ s, (laggingRing Spsc.twoSlots false .block).Reach (init fun _ => 7) s ∧
      s.core.ring.tail = s.head ∧ s.core.ring.live = true ∧ s.core.producer = .idle ∧
      ¬ ReservesAtOnce Spsc.twoSlots false .block s 16 := by
  obtain ⟨s, hs⟩ := Option.isSome_iff_exists.mp
    (show ((laggingRing Spsc.twoSlots false .block).run (init fun _ => 7) unflushed).isSome = true
      by decide +kernel)
  have hread : ((laggingRing Spsc.twoSlots false .block).run (init fun _ => 7) unflushed).map
      (fun s => (s.core.written, s.core.ring.tail, s.head, s.core.ring.live, s.core.producer,
        lag s)) = some (64, 0, 0, true, .idle, 64) := by
    decide +kernel
  rw [hs] at hread
  simp only [Option.map_some, Option.some.injEq, Prod.mk.injEq] at hread
  obtain ⟨hwritten, htail, hhead, hlive, hidle, hlag⟩ := hread
  have hword : s.core.written < wordSize := by
    rw [hwritten]
    decide
  have hreach := Machine.run_runs hs
  refine ⟨s, hreach, htail.trans hhead.symm, hlive, hidle, ?_⟩
  refine Full.not_reservesAtOnce ⟨reach_inv hreach hword, hword, htail.trans hhead.symm, hlive,
    by decide, ?_, Or.inl hidle⟩
  rw [hlag]
  decide

end Lagging

end Ticklog
