import Mathlib.Data.List.Sort
import Ticklog.System.Turns

/-!
# Per-thread order under `Backpressure::Quill` (`src/segments.rs`)

"Strict per-thread record order is guaranteed for the Quill policy." It is, in the runs that
keep the local list in order (`OrderOk`): a record is delivered only after everything its
thread logged before it, across all the thread's segments. Elsewhere it is not: three
segments filled between two passes are delivered first, third, second, since retiring the
first moves the third into its place.
-/

namespace Ticklog

open Lib

/-- The log calls of a thread are numbered upwards. -/
def Ascending (l : List Rec) : Prop := l.Pairwise fun x y => x.seq < y.seq

/-- Ascending records taken from an ascending list stand there in the same order. -/
theorem Ascending.sublist {l p : List Rec} (hl : Ascending l) (hp : Ascending p) (hsub : l ⊆ p) :
    l.Sublist p := by
  have : Std.Antisymm fun x y : Rec => x.seq < y.seq :=
    ⟨fun _ _ hxy hyx => absurd hxy (Nat.lt_asymm hyx)⟩
  have hnodup : l.Nodup := hl.imp fun hlt heq => Nat.ne_of_lt hlt (congrArg Rec.seq heq)
  exact List.sublist_of_subperm_of_pairwise (List.subperm_of_subset hnodup hsub) hl hp

/-- A prefix grows by the next record: the one whose predecessors it has. -/
theorem Ascending.prefix_next {l p : List Rec} {y : Rec} (hp : Ascending p) (hpre : l <+: p)
    (hy : y ∈ p) (hnew : y ∉ l) (hall : ∀ z, z ∈ p → z.seq < y.seq → z ∈ l) : l ++ [y] <+: p := by
  obtain ⟨rest, rfl⟩ := hpre
  have hrest : y ∈ rest := (List.mem_append.mp hy).resolve_left hnew
  obtain ⟨-, hback, hcross⟩ := List.pairwise_append.mp hp
  cases rest with
  | nil => cases hrest
  | cons z rest =>
    rcases List.mem_cons.mp hrest with rfl | hlater
    · exact ⟨rest, by rw [List.append_assoc]; rfl⟩
    · -- the record in between would be in the prefix already
      have hlt := (List.pairwise_cons.mp hback).1 y hlater
      have hin := hall z (List.mem_append_right _ List.mem_cons_self) hlt
      exact absurd (hcross z hin z List.mem_cons_self) (Nat.lt_irrefl _)

namespace Sys

variable {cfg : Config} {s s' : Sys}

/-- What a thread published is numbered upwards. -/
theorem Numbered.ascending (h : Numbered s) (t : Nat) : Ascending (s.publishedBy t) := by
  have hpair : ((s.publishedBy t).map Rec.seq).Pairwise (· < ·) := by
    rw [h t]
    exact List.pairwise_lt_range
  exact List.pairwise_map.mp hpair

/-- So are the records of each ring. -/
theorem SegmentRun.cells_ascending (h : SegmentRun s) (r : Nat) :
    Ascending (s.rings r).cells := by
  have hcells := (h.plain.2 r).history
  have hthread : s.published.filter (·.ring = r)
      = (s.publishedBy (s.rings r).threadId).filter (·.ring = r) := by
    unfold publishedBy
    rw [List.filter_filter]
    refine List.filter_congr fun x hx => ?_
    by_cases hring : x.ring = r
    · have hid := (h.authored x hx).2
      rw [hring] at hid
      simp [hring, hid]
    · simp [hring]
  rw [← hcells, hthread]
  exact List.Pairwise.sublist List.filter_sublist (h.numbered.ascending _)

/-- A published record lies in its ring, a registered one of its thread. -/
theorem SegmentRun.located (h : SegmentRun s) {x : Rec} (hx : x ∈ s.published) :
    x ∈ (s.rings x.ring).cells ∧ x.ring ∈ s.registered ∧
      (s.rings x.ring).threadId = x.thread := by
  refine ⟨?_, h.authored x hx⟩
  rw [← (h.plain.2 x.ring).history]
  exact List.mem_filter.mpr ⟨hx, by simp⟩

/-- Two rings of one thread: the same one, or one is older. -/
theorem PlainInv.older_cases (h : PlainInv s) {r r' : Nat} (hr : r ∈ s.registered)
    (hr' : r' ∈ s.registered) (hid : (s.rings r).threadId = (s.rings r').threadId) :
    r = r' ∨ Older s r r' ∨ Older s r' r := by
  obtain ⟨k, hk⟩ := List.mem_iff_getElem?.mp hr
  obtain ⟨k', hk'⟩ := List.mem_iff_getElem?.mp hr'
  have hs := h.serials k r hk
  have hs' := h.serials k' r' hk'
  rcases Nat.lt_trichotomy k k' with hlt | heq | hgt
  · refine Or.inr (Or.inl ⟨hr, hr', hid, ?_⟩)
    unfold Earlier
    rwa [hs, hs']
  · rw [heq, hk'] at hk
    exact Or.inl (Option.some.inj hk).symm
  · refine Or.inr (Or.inr ⟨hr', hr, hid.symm, ?_⟩)
    unfold Earlier
    rwa [hs, hs']

/-! ## One delivery -/

/-- The drain delivers nothing, or the next record of the ring it is in. -/
theorem drain_delivers (hp : PlainInv s) (hdel : DeliveryInv s) (hm : DrainMove cfg s s') :
    s'.delivered = s.delivered ∨
    ∃ ctx r p y, s.drain.pc = .pass ctx r p ∧ (s.rings r).cells[done s r]? = some y ∧
      s'.delivered = s.delivered ++ [y] := by
  cases hm with
  | @pass ctx r p p' ring' x hpc hp' hst =>
    have hread := (hdel r).reader
    rw [hpc, reading_pass] at hread
    rcases Pass.step_at hread (hdel r).done_le hp' hst with ⟨rfl, -⟩ | ⟨y, rfl, hy, -⟩
    · exact Or.inl ((delivered_acceptAll _ _).trans (List.append_nil _))
    · exact Or.inr ⟨ctx, r, p, y, hpc, hy, delivered_acceptAll _ _⟩
  | deliver hpc => exact absurd (hp.queue _ hpc) (List.cons_ne_nil _ _)
  | lastFlush => exact Or.inl (by simp [delivered])
  | flush => exact Or.inl (by simp [delivered])
  | syncNext hpc hsub =>
    refine Or.inl ?_
    unfold delivered
    rw [(syncNext_frame _).sink]
  | syncLive hpc hsub hl =>
    refine Or.inl ?_
    unfold delivered
    rw [(syncDecide_frame _ _).sink]
  | syncDead hpc hsub =>
    refine Or.inl ?_
    unfold delivered
    rw [(syncDecide_frame _ _).sink]
  | _ => exact Or.inl rfl

/-- The rings older than the one a pass is in are over. -/
theorem pass_turn (hr : SegmentRun s) (hw : WalkInv s) (hpass : PassInv s) {ctx : PassCtx}
    {r : Nat} {p : Pass} (hpc : s.drain.pc = .pass ctx r p) (m : Nat) (hold : Older s m r) :
    Over s m := by
  cases ctx with
  | final =>
    unfold PassInv at hpass
    simp only [hpc] at hpass
    exact hpass m hold
  | poll i k => exact hw.turn hr (by rw [hpc]; rfl) m hold

/-- What the drain has begun to deliver, it delivers in turn. -/
structure OrderInv (s : Sys) : Prop where
  /-- A segment is begun when the older ones are over. -/
  begun : ∀ r r', Older s r r' → 0 < done s r' → Over s r
  ascending : ∀ t, Ascending (s.delivered.filter (·.thread = t))
  /-- Before the guard drops, only a thread's last segment can be dead. -/
  live : s.guard = .alive → ∀ r r', Older s r r' → (s.rings r).live = true
  complete : s.guard = .alive → ∀ t, s.delivered.filter (·.thread = t) <+: s.publishedBy t

theorem init_orderInv : OrderInv (Sys.init cfg) :=
  ⟨nofun, fun _ => .nil, fun _ _ _ h => (List.not_mem_nil h.left).elim, fun _ _ => List.nil_prefix⟩

/-- A record of ring `r` is delivered or still to come: it stands before or from `done`. -/
theorem RingDelivery.delivered_of_lt {r : Nat} (h : RingDelivery s r) {k : Nat} {x : Rec}
    (hx : (s.rings r).cells[k]? = some x) (hk : k < done s r) : x ∈ s.delivered := by
  obtain ⟨rest, hrest⟩ := h.inOrder
  rw [← hrest, List.getElem?_append_left hk] at hx
  exact (List.mem_filter.mp (List.mem_of_getElem? hx)).1

/-- The record about to be delivered follows all delivered ones of its thread. -/
theorem OrderInv.follows (h : OrderInv s) (hr : SegmentRun s) {r : Nat} {y : Rec}
    (hknown : Known s r) (hy : (s.rings r).cells[done s r]? = some y) {x : Rec}
    (hx : x ∈ s.delivered) (ht : x.thread = y.thread) : x.seq < y.seq := by
  obtain ⟨hxin, hxreg, hxid⟩ := hr.located (hr.plain.2.published hx)
  have hyin := List.mem_of_getElem? hy
  have hyid := (cells_numbered hr.numbered hr.authored hr.plain.2 hyin).1
  have hreg := hr.plain.1.1.known r hknown
  have hlt : done s r < (s.rings r).head := (List.getElem?_eq_some_iff.mp hy).1
  have hpos : 0 < done s x.ring :=
    List.length_pos_of_mem (List.mem_filter.mpr ⟨hx, by simp⟩)
  rcases hr.plain.1.1.older_cases hxreg hreg (by rw [hxid, ht, hyid]) with heq | hold | hold
  · -- the same ring: the delivered records are the first ones
    have hfrom : x ∈ s.deliveredFrom r := List.mem_filter.mpr ⟨hx, by simp [heq]⟩
    obtain ⟨rest, hrest⟩ := (hr.plain.2 r).inOrder
    have hasc := hr.cells_ascending r
    have hlen : (s.deliveredFrom r).length ≤ done s r := Nat.le_refl _
    rw [← hrest] at hasc hy
    rw [List.getElem?_append_right hlen] at hy
    exact (List.pairwise_append.mp hasc).2.2 x hfrom y (List.mem_of_getElem? hy)
  · exact hr.segments.inOrder _ _ hold x y hxin hyin
  · -- a later ring was begun: then this one has nothing left
    rcases h.begun _ _ hold hpos with hret | hun
    · have := hret.drained
      omega
    · exact absurd hknown hun

/-- Before the guard drops, the record about to be delivered is the thread's next one. -/
theorem OrderInv.next (h : OrderInv s) (hr : SegmentRun s) (hguard : s.guard = .alive) {r : Nat}
    {y : Rec} (hknown : Known s r) (hturn : ∀ m, Older s m r → Over s m)
    (hy : (s.rings r).cells[done s r]? = some y) {z : Rec} (hz : z ∈ s.published)
    (ht : z.thread = y.thread) (hlt : z.seq < y.seq) : z ∈ s.delivered := by
  obtain ⟨hzin, hzreg, hzid⟩ := hr.located hz
  have hyin := List.mem_of_getElem? hy
  have hyid := (cells_numbered hr.numbered hr.authored hr.plain.2 hyin).1
  have hreg := hr.plain.1.1.known r hknown
  obtain ⟨k, hk⟩ := List.mem_iff_getElem?.mp hzin
  rcases hr.plain.1.1.older_cases hzreg hreg (by rw [hzid, ht, hyid]) with heq | hold | hold
  · rw [heq] at hk
    refine (hr.plain.2 r).delivered_of_lt hk ?_
    -- the ring's records ascend
    by_contra hge
    obtain ⟨hki, hkz⟩ := List.getElem?_eq_some_iff.mp hk
    obtain ⟨hdi, hdy⟩ := List.getElem?_eq_some_iff.mp hy
    rcases Nat.lt_or_eq_of_le (Nat.le_of_not_lt hge) with hgt | heq'
    · have hasc := List.pairwise_iff_getElem.mp (hr.cells_ascending r) _ _ hdi hki hgt
      rw [hkz, hdy] at hasc
      omega
    · subst heq'
      rw [hkz] at hdy
      rw [hdy] at hlt
      exact Nat.lt_irrefl _ hlt
  · have hret : Retired s z.ring := by
      rcases hturn _ hold with hret | hun
      · exact hret
      · -- an older ring is live, and known until it is retired
        rcases hr.registry.live _ hzreg (h.live hguard _ _ hold) with hlist | hret
        · refine absurd ?_ hun
          unfold listed at hlist
          split at hlist
          next todo kept half hpc =>
            refine Or.inr (Or.inr (Or.inr ?_))
            rw [hpc]
            exact hlist
          next => exact Or.inl hlist
        · exact hret
    refine (hr.plain.2 z.ring).delivered_of_lt hk ?_
    rw [hret.drained]
    exact (List.getElem?_eq_some_iff.mp hk).1
  · have hafter := hr.segments.inOrder _ _ hold y z hyin hzin
    omega

/-! ## Every run -/

/-- Steps of the other agents deliver nothing. -/
theorem step_delivers {a : Action} (hr : SegmentRun s) (hstep : step cfg s a = some s') :
    s'.delivered = s.delivered ∨
    a = .drain ∧ ∃ ctx r p y, s.drain.pc = .pass ctx r p ∧
      (s.rings r).cells[done s r]? = some y ∧ s'.delivered = s.delivered ++ [y] := by
  by_cases ha : a = .drain
  · subst ha
    exact (drain_delivers hr.plain.1.1 hr.plain.2 (drainStep_move hstep)).imp id
      fun h => ⟨rfl, h⟩
  · left
    unfold delivered
    rw [(step_drain_frame ha hstep).2]

theorem published_mono {a : Action} (hstep : step cfg s a = some s') (t : Nat) :
    s.publishedBy t <+: s'.publishedBy t := by
  rcases step_publishes hstep with ⟨t', r, rfl, -, -, rfl⟩ | ⟨hpub, -⟩
  · rw [publishedBy_publish]
    exact List.prefix_append _ _
  · unfold publishedBy
    rw [hpub]

theorem step_orderInv {a : Action} (h : OrderInv s) (hr : SegmentRun s) (hr' : SegmentRun s')
    (hw : WalkInv s) (hpass : PassInv s) (hstep : step cfg s a = some s') : OrderInv s' := by
  have hp := hr.plain.1.1
  have hdel' := hr'.plain.2
  have hmention : ∀ {ctx : PassCtx} {r : Nat} {p : Pass}, s.drain.pc = .pass ctx r p →
      Known s r := by
    intro ctx r p hpc
    refine Or.inr (Or.inr (Or.inr ?_))
    rw [hpc]
    exact List.mem_singleton.mpr rfl
  refine ⟨?_, ?_, ?_, ?_⟩
  · intro r r' hold hpos
    by_cases hreg' : r' ∈ s.registered
    · have hback := hold.back hp hstep hreg'
      refine Over.after ?_ hp hdel' hstep hback.left
      rcases step_delivers hr hstep with hsame | ⟨rfl, ctx, x, p, y, hpc, hy, hnew⟩
      · refine h.begun r r' hback ?_
        rwa [done, deliveredFrom, hsame] at hpos
      · by_cases hx : x = r'
        · subst hx
          exact pass_turn hr hw hpass hpc r hback
        · refine h.begun r r' hback ?_
          have hring := (hr.plain.2 x).ring_eq (List.mem_of_getElem? hy)
          have hno : [y].filter (fun z => decide (z.ring = r')) = [] := by simp [hring, hx]
          rw [done, deliveredFrom, hnew, List.filter_append, hno, List.append_nil] at hpos
          exact hpos
    · -- a ring just registered has no records
      have hnone := (hr'.plain.2 r').done_le
      rcases step_registers hstep with ⟨hregd, -⟩ | ⟨t, r₀, rfl, hpc, hl, rfl⟩
      · exact absurd (hregd ▸ hold.right) hreg'
      · rcases step_cells hr.plain.2 hdel' hstep r' with hc | ⟨t', -, hpc', hr₀, -⟩
        · unfold Ring.head at hnone
          rw [hc, (hp.blank r' hreg').cells, List.length_nil] at hnone
          omega
        · exact absurd (hp.ring_mine hr₀).1 hreg'
  · intro t
    rcases step_delivers hr hstep with hsame | ⟨rfl, ctx, x, p, y, hpc, hy, hnew⟩
    · rw [hsame]
      exact h.ascending t
    · rw [hnew, List.filter_append]
      refine List.pairwise_append.mpr ⟨h.ascending t, ?_, fun z hz w hw => ?_⟩
      · exact List.Pairwise.sublist List.filter_sublist (List.pairwise_singleton _ _)
      · obtain ⟨hz, hzt⟩ := List.mem_filter.mp hz
        obtain ⟨hw, hwt⟩ := List.mem_filter.mp hw
        have hwy := List.mem_singleton.mp hw
        subst hwy
        refine h.follows hr (hmention hpc) hy hz ?_
        rw [of_decide_eq_true hzt, of_decide_eq_true hwt]
  · intro hguard r r' hold
    have hguard₀ := alive_before hstep hguard
    by_cases hreg' : r' ∈ s.registered
    · have hback := hold.back hp hstep hreg'
      rw [older_live hr.segments hp hstep (by rw [hguard₀]; nofun) hback]
      exact h.live hguard₀ r r' hback
    · -- the thread that registers has not exited
      rcases step_registers hstep with ⟨hregd, -⟩ | ⟨t, r₀, rfl, hpc, hl, rfl⟩
      · exact absurd (hregd ▸ hold.right) hreg'
      · have heq : r' = r₀ := by
          rcases List.mem_append.mp hold.right with hin | hin
          · exact absurd hin hreg'
          · exact List.mem_singleton.mp hin
        subst heq
        refine Bool.not_eq_false _ ▸ fun hdead => ?_
        have hex := hr'.guard.dead hguard r hold.left hdead
        rw [hold.thread] at hex
        have ht := hp.threads t
        unfold ThreadOk at ht
        simp only [hpc] at ht
        have hself : (((s.registerRing r').goto t (.switch r')).rings r').threadId = t := by
          rw [show ((s.registerRing r').goto t (.switch r')).rings
            = Function.update s.rings r' { s.rings r' with serial := s.nextSerial } from rfl,
            Function.update_self]
          exact ht.2.2.1
        rw [hself, goto_eq, setThread_threads, Function.update_self] at hex
        cases hex
  · intro hguard t
    have hguard₀ := alive_before hstep hguard
    refine List.IsPrefix.trans ?_ (published_mono hstep t)
    rcases step_delivers hr hstep with hsame | ⟨rfl, ctx, r, p, y, hpc, hy, hnew⟩
    · rw [hsame]
      exact h.complete hguard₀ t
    · rw [hnew, List.filter_append]
      by_cases hyt : y.thread = t
      · subst hyt
        have hyp : y ∈ s.published := by
          have hcells := List.mem_of_getElem? hy
          rw [← (hr.plain.2 r).history] at hcells
          exact (List.mem_filter.mp hcells).1
        have hself : [y].filter (fun x => decide (x.thread = y.thread)) = [y] := by simp
        rw [hself]
        refine (hr.numbered.ascending _).prefix_next (h.complete hguard₀ _)
          (List.mem_filter.mpr ⟨hyp, by simp⟩) (fun hin => ?_) fun z hz hlt => ?_
        · obtain ⟨hin, -⟩ := List.mem_filter.mp hin
          exact Nat.lt_irrefl _ (h.follows hr (hmention hpc) hy hin rfl)
        · obtain ⟨hz, hzt⟩ := List.mem_filter.mp hz
          refine List.mem_filter.mpr ⟨?_, hzt⟩
          exact h.next hr hguard₀ (hmention hpc) (pass_turn hr hw hpass hpc) hy hz
            (of_decide_eq_true hzt) hlt
      · have hno : [y].filter (fun x => decide (x.thread = t)) = [] := by simp [hyt]
        rw [hno, List.append_nil]
        exact h.complete hguard₀ t

/-- Everything a run carries that keeps the local list in order. -/
structure OrderRun (s : Sys) : Prop where
  run : SegmentRun s
  walk : WalkInv s
  pass : PassInv s
  order : OrderInv s

theorem runs_order (hpol : cfg.policy = .quill)
    (h : (system cfg).Runs OrderOk (Sys.init cfg) s) : OrderRun s := by
  have hne : cfg.policy ≠ .nanoLog := by simp [hpol]
  have hseg : cfg.segmented = true := by simp [Config.segmented, hpol]
  refine Machine.Runs.invariant (I := OrderRun) ?_ h
    ⟨init_segmentRun hne, init_walk, trivial, init_orderInv⟩
  rintro s₁ a s₂ ⟨hrun, hwalk, hpass, horder⟩ hok hstep
  have hrun' := step_segmentRun hne hrun hstep
  exact ⟨hrun', step_walk hseg hwalk hrun hrun' hpass hok hstep,
    step_pass hpass hrun hok hrun'.plain.2 hstep,
    step_orderInv horder hrun hrun' hwalk hpass hstep⟩

/-- **A thread's records are delivered in the order it logged them**, across all its segments,
in every run of the logger under `Quill` in which `swap_remove` moves no segment past an older
one that holds records, and no dead ring gets its final drain before the older segments are
drained (`OrderOk`). While the guard is alive nothing is skipped either: what is delivered of a
thread is a prefix of what it logged. -/
theorem quill_in_order (hpol : cfg.policy = .quill)
    (h : (system cfg).Runs OrderOk (Sys.init cfg) s) (t : Nat) :
    (s.delivered.filter (·.thread = t)).Sublist (s.publishedBy t) ∧
      (s.guard = .alive → s.delivered.filter (·.thread = t) <+: s.publishedBy t) := by
  obtain ⟨hrun, -, -, horder⟩ := runs_order hpol h
  refine ⟨(horder.ascending t).sublist (hrun.numbered.ascending t) fun x hx => ?_,
    fun hguard => horder.complete hguard t⟩
  obtain ⟨hx, ht⟩ := List.mem_filter.mp hx
  exact List.mem_filter.mpr ⟨hrun.plain.2.published hx, ht⟩

/-- A later log call of thread `t` that fills another segment, up to its publication. -/
def nextLog (t total : Nat) : List Action := .log t total :: List.replicate 8 (.thread t)

/-- Two segments, walked and retired in order. -/
theorem quill_in_order_twoSegments :
    ∃ s, (system (smallConfig .quill)).runWhile OrderOk (Sys.init (smallConfig .quill))
        (firstLog 0 64 ++ nextLog 0 64 ++ List.replicate 45 .drain) = some s ∧
      s.delivered = [⟨0, 0, 0, 64⟩, ⟨0, 1, 1, 64⟩] ∧
      (s.delivered.filter (·.thread = 0)).Sublist (s.publishedBy 0) := by
  obtain ⟨s, hs⟩ := Option.isSome_iff_exists.mp
    (show ((system (smallConfig .quill)).runWhile OrderOk (Sys.init (smallConfig .quill))
      (firstLog 0 64 ++ nextLog 0 64 ++ List.replicate 45 .drain)).isSome = true by
      decide +kernel)
  have hend : ((system (smallConfig .quill)).runWhile OrderOk (Sys.init (smallConfig .quill))
      (firstLog 0 64 ++ nextLog 0 64 ++ List.replicate 45 .drain)).map (·.delivered)
      = some [⟨0, 0, 0, 64⟩, ⟨0, 1, 1, 64⟩] := by decide +kernel
  rw [hs, Option.map_some, Option.some.injEq] at hend
  exact ⟨s, hs, hend, (quill_in_order rfl (Machine.runWhile_runs hs) 0).1⟩

/-- Three segments filled before the first pass: retiring the first puts the third in its
place, and its record overtakes the second's. -/
theorem retired_out_of_order :
    ¬ ∀ s, (system (smallConfig .quill)).Reach (Sys.init (smallConfig .quill)) s → ∀ t,
      (s.delivered.filter (·.thread = t)).Sublist (s.publishedBy t) := by
  intro h
  have hend : ((system (smallConfig .quill)).run (Sys.init (smallConfig .quill))
      (firstLog 0 64 ++ nextLog 0 64 ++ nextLog 0 64 ++ List.replicate 60 .drain)).map
        (fun s => (s.delivered.filter (·.thread = 0), s.publishedBy 0))
      = some ([⟨0, 0, 0, 64⟩, ⟨0, 2, 2, 64⟩, ⟨0, 1, 1, 64⟩],
          [⟨0, 0, 0, 64⟩, ⟨0, 1, 1, 64⟩, ⟨0, 2, 2, 64⟩]) := by decide +kernel
  obtain ⟨s, hs, hlists⟩ := Option.map_eq_some_iff.mp hend
  have hsub := h s (Machine.run_runs hs) 0
  rw [Prod.mk.injEq] at hlists
  rw [hlists.1, hlists.2] at hsub
  revert hsub
  decide

end Sys

end Ticklog
