import Mathlib.Data.List.Infix
import Ticklog.System.Plain

/-!
# Each record is handed over once

`done s r` counts the records of ring `r` the sink has; the delivery invariant says
they are the first ones published in it, that whoever is inside `drain_ring_inner` on
the ring stands exactly there, and that between two passes `tail` and the cached head
do. No record is skipped or delivered twice, whatever interleaving published it.
-/

namespace Ticklog

open Lib

/-- A formatter that has handed over the first `d` records of a ring, at each position
inside `drain_ring_inner`. -/
def PassAt (ring : Ring) (d : Nat) : Pass → Prop
  | .loadTail => ring.tail = d ∧ ring.headCache = d
  | .loadCache t => t = d ∧ ring.tail = d ∧ ring.headCache = d
  | .loadHead t => t = d ∧ ring.tail = d ∧ ring.headCache = d
  | .scan t hc => t = d ∧ t ≤ hc ∧ hc ≤ ring.head
  | .storeTail t hc => t = d ∧ hc = d
  | .storeCache hc => ring.tail = d ∧ hc = d
  | .finished => ring.tail = d ∧ ring.headCache = d

/-- As `PassAt`, with nobody inside for `none`. -/
def ReadAt (ring : Ring) (d : Nat) : Option Pass → Prop
  | none => ring.tail = d ∧ ring.headCache = d
  | some p => PassAt ring d p

/-- More records behind the head do not disturb a reader. -/
theorem PassAt.mono {a b : Ring} {d : Nat} {p : Pass} (h : PassAt a d p)
    (htail : b.tail = a.tail) (hcache : b.headCache = a.headCache) (hhead : a.head ≤ b.head) :
    PassAt b d p := by
  cases p with
  | loadTail => exact ⟨htail.trans h.1, hcache.trans h.2⟩
  | loadCache t => exact ⟨h.1, htail.trans h.2.1, hcache.trans h.2.2⟩
  | loadHead t => exact ⟨h.1, htail.trans h.2.1, hcache.trans h.2.2⟩
  | scan t hc => exact ⟨h.1, h.2.1, Nat.le_trans h.2.2 hhead⟩
  | storeTail t hc => exact h
  | storeCache hc => exact ⟨htail.trans h.1, h.2⟩
  | finished => exact ⟨htail.trans h.1, hcache.trans h.2⟩

theorem ReadAt.mono {a b : Ring} {d : Nat} {p : Option Pass} (h : ReadAt a d p)
    (htail : b.tail = a.tail) (hcache : b.headCache = a.headCache) (hhead : a.head ≤ b.head) :
    ReadAt b d p := by
  cases p with
  | none => exact ⟨htail.trans h.1, hcache.trans h.2⟩
  | some p => exact PassAt.mono h htail hcache hhead

/-- One access of `drain_ring_inner`: it hands over nothing, or exactly the next
record. -/
theorem Pass.step_at {ring ring' : Ring} {d : Nat} {p p' : Pass} {x : Option Rec}
    (h : PassAt ring d p) (hd : d ≤ ring.head) (hp : p ≠ .finished)
    (hstep : Pass.step ring p = (p', ring', x)) :
    (x = none ∧ PassAt ring' d p') ∨
    ∃ y, x = some y ∧ ring.cells[d]? = some y ∧ PassAt ring' (d + 1) p' := by
  cases p with
  | loadTail =>
    cases hstep
    exact Or.inl ⟨rfl, h.1, h.1, h.2⟩
  | loadCache t =>
    obtain ⟨rfl, ht, hc⟩ := h
    simp only [Pass.step, hc, if_true] at hstep
    cases hstep
    exact Or.inl ⟨rfl, rfl, ht, hc⟩
  | loadHead t =>
    obtain ⟨rfl, ht, hc⟩ := h
    simp only [Pass.step] at hstep
    split at hstep
    next heq =>
      cases hstep
      exact Or.inl ⟨rfl, ht, hc⟩
    next hne =>
      cases hstep
      exact Or.inl ⟨rfl, rfl, hd, Nat.le_refl _⟩
  | scan t hc =>
    obtain ⟨rfl, hle, hhead⟩ := h
    simp only [Pass.step] at hstep
    split at hstep
    next hlt =>
      have hlen : t < ring.cells.length := Nat.lt_of_lt_of_le hlt hhead
      rw [Ring.storage_getElem? hlen, List.getElem?_eq_getElem hlen] at hstep
      cases hstep
      exact Or.inr ⟨_, rfl, List.getElem?_eq_getElem hlen, rfl, hlt, hhead⟩
    next hge =>
      cases hstep
      exact Or.inl ⟨rfl, rfl, by omega⟩
  | storeTail t hc =>
    obtain ⟨rfl, rfl⟩ := h
    cases hstep
    exact Or.inl ⟨rfl, rfl, rfl⟩
  | storeCache hc =>
    obtain ⟨ht, rfl⟩ := h
    cases hstep
    exact Or.inl ⟨rfl, ht, rfl⟩
  | finished => exact absurd rfl hp

/-- What a pass hands over is a record of the ring's present incarnation. -/
theorem PassAt.reads {ring : Ring} {d : Nat} {p : Pass} {x : Rec} (h : PassAt ring d p)
    (hd : d ≤ ring.head) (hx : (Pass.step ring p).2.2 = some x) : x ∈ ring.cells := by
  have hp : p ≠ .finished := by
    rintro rfl
    cases hx
  obtain ⟨⟨p', ring', y⟩, hst⟩ : ∃ q, Pass.step ring p = q := ⟨_, rfl⟩
  rw [hst] at hx
  rcases Pass.step_at h hd hp hst with ⟨rfl, -⟩ | ⟨y, rfl, hcell, -⟩
  · cases hx
  · cases hx
    exact List.mem_of_getElem? hcell

/-- A reader stores where it stands as the new `tail`, or leaves it. -/
theorem Pass.step_tail {ring ring' : Ring} {d : Nat} {p p' : Pass} {x : Option Rec}
    (hat : PassAt ring d p) (hst : Pass.step ring p = (p', ring', x)) :
    ring'.tail = ring.tail ∨ ring'.tail = d := by
  cases p with
  | storeTail tail headCache =>
    cases hst
    exact Or.inr hat.1
  | loadTail | storeCache | finished =>
    cases hst
    exact Or.inl rfl
  | loadCache | loadHead | scan =>
    simp only [Pass.step] at hst
    repeat' split at hst
    all_goals
      cases hst
      exact Or.inl rfl

/-- A pass changes its ring in `tail` and the cached head only. -/
theorem Pass.step_cells {ring ring' : Ring} {p p' : Pass} {x : Option Rec}
    (hstep : Pass.step ring p = (p', ring', x)) : ring'.cells = ring.cells :=
  (Sys.Pass.step_frame hstep).cells

namespace Sys

variable {cfg : Config} {s s' : Sys}

/-- The delivered records of ring `r`, in order. -/
def deliveredFrom (s : Sys) (r : Nat) : List Rec := s.delivered.filter (·.ring = r)

/-- How many records of ring `r` the sink has been handed. -/
def done (s : Sys) (r : Nat) : Nat := (s.deliveredFrom r).length

/-- The drain's position inside `drain_ring_inner` on ring `r`. -/
def reading (pc : LoopPc) (r : Nat) : Option Pass :=
  match pc with
  | .pass _ r' p => if r' = r then some p else none
  | _ => none

/-- The accounting of one ring: what was published, what was delivered, where a reader
stands. -/
structure RingDelivery (s : Sys) (r : Nat) : Prop where
  history : s.published.filter (·.ring = r) = (s.rings r).cells
  inOrder : s.deliveredFrom r <+: (s.rings r).cells
  reader : ReadAt (s.rings r) (done s r) (reading s.drain.pc r)
  behind : (s.rings r).tail ≤ done s r

/-- The accounting of all rings. -/
def DeliveryInv (s : Sys) : Prop := ∀ r, RingDelivery s r

theorem init_delivery : DeliveryInv (Sys.init cfg) := 
  fun _ => ⟨rfl, List.nil_prefix, ⟨rfl, rfl⟩, Nat.le_refl _⟩

theorem RingDelivery.done_le {r : Nat} (h : RingDelivery s r) : done s r ≤ (s.rings r).head :=
  h.inOrder.length_le

/-- The records of a ring name it. -/
theorem RingDelivery.ring_eq {r : Nat} (h : RingDelivery s r) {x : Rec}
    (hx : x ∈ (s.rings r).cells) : x.ring = r := by
  rw [← h.history] at hx
  exact of_decide_eq_true (List.mem_filter.mp hx).2

/-- Delivered and to come: the ring's records up to and from `done`. -/
theorem RingDelivery.split {r : Nat} (h : RingDelivery s r) :
    s.deliveredFrom r ++ (s.rings r).cells.drop (done s r) = (s.rings r).cells := by
  obtain ⟨rest, hrest⟩ := h.inOrder
  have hd : (s.rings r).cells.drop (done s r) = rest := by
    rw [← hrest]
    exact List.drop_left
  rw [hd, hrest]

/-! ## The drain's steps -/

/-- A step that hands nothing over and leaves the reader of `r` where it is. -/
theorem RingDelivery.frame {r : Nat} (h : RingDelivery s r)
    (hpub : s'.published.filter (·.ring = r) = (s'.rings r).cells)
    (hcells : (s.rings r).cells <+: (s'.rings r).cells)
    (htail : (s'.rings r).tail = (s.rings r).tail)
    (hcache : (s'.rings r).headCache = (s.rings r).headCache)
    (hdel : s'.deliveredFrom r = s.deliveredFrom r)
    (hread : reading s'.drain.pc r = reading s.drain.pc r) : RingDelivery s' r where
  history := hpub
  inOrder := hdel ▸ h.inOrder.trans hcells
  reader := by
    have hdone : done s' r = done s r := congrArg List.length hdel
    rw [hdone, hread]
    exact h.reader.mono htail hcache hcells.length_le
  behind := by
    have hdone : done s' r = done s r := congrArg List.length hdel
    rw [hdone, htail]
    exact h.behind

theorem reading_pass {ctx : PassCtx} {r : Nat} {p : Pass} : reading (.pass ctx r p) r = some p :=
  if_pos rfl

theorem reading_pass_ne {ctx : PassCtx} {r r' : Nat} {p : Pass} (h : r' ≠ r) :
    reading (.pass ctx r' p) r = none := if_neg h

/-- Which ring a position of the drain is inside `drain_ring_inner` of, if any. -/
def inside (pc : LoopPc) : Bool :=
  match pc with
  | .pass _ _ _ => true
  | _ => false

theorem reading_of_not_inside {pc : LoopPc} (h : inside pc = false) (r : Nat) :
    reading pc r = none := by
  cases pc <;> first | rfl | cases h

/-- The accesses that enter, leave or advance a pass; every other one keeps clear of the
rings' indices and of the sink's records. -/
theorem drain_clear (hm : DrainMove cfg s s') :
    (∃ ctx r, s.drain.pc = .mark ctx r) ∨ (∃ ctx r p, s.drain.pc = .pass ctx r p) ∨
    (∃ x rest, s.drain.pc = .deliver (x :: rest)) ∨
    (inside s.drain.pc = false ∧ inside s'.drain.pc = false ∧ s'.delivered = s.delivered ∧
      ∀ r, (s'.rings r).tail = (s.rings r).tail ∧
        (s'.rings r).headCache = (s.rings r).headCache) := by
  have hscan : ∀ {s₁ : Sys} {phase : SyncPhase} {half : Bool}, s.drain.pc = .sync phase half →
      ScanFrame s s₁ → syncing s₁.drain.pc = true →
      inside s.drain.pc = false ∧ inside s₁.drain.pc = false ∧ s₁.delivered = s.delivered ∧
        ∀ r, (s₁.rings r).tail = (s.rings r).tail ∧
          (s₁.rings r).headCache = (s.rings r).headCache := by
    intro s₁ phase half hpc hf hs
    refine ⟨by rw [hpc]; rfl, ?_, ?_, fun r => by rw [hf.rings]; exact ⟨rfl, rfl⟩⟩
    · cases hpc' : s₁.drain.pc <;> first | rfl | (rw [hpc'] at hs; cases hs)
    · unfold delivered
      rw [hf.sink]
  have hflag : ∀ {r₀ : Nat} {v : Ring}, v.tail = (s.rings r₀).tail →
      v.headCache = (s.rings r₀).headCache → ∀ r,
      (Function.update s.rings r₀ v r).tail = (s.rings r).tail ∧
        (Function.update s.rings r₀ v r).headCache = (s.rings r).headCache := by
    intro r₀ v ht hc r
    by_cases hr : r = r₀
    · rw [hr, Function.update_self]
      exact ⟨ht, hc⟩
    · rw [Function.update_of_ne hr]
      exact ⟨rfl, rfl⟩
  have hafter : ∀ {ctx : PassCtx}, inside (afterRecycle ctx) = false := by
    intro ctx
    cases ctx <;> rfl
  cases hm with
  | mark hpc => exact Or.inl ⟨_, _, hpc⟩
  | passDone hpc => exact Or.inr (Or.inl ⟨_, _, _, hpc⟩)
  | pass hpc hp hstep => exact Or.inr (Or.inl ⟨_, _, _, hpc⟩)
  | deliver hpc => exact Or.inr (Or.inr (Or.inl ⟨_, _, hpc⟩))
  | syncNext hpc hsub =>
    exact Or.inr (Or.inr (Or.inr (hscan hpc (syncNext_frame _) (syncNext_syncing _))))
  | syncLive hpc hsub hl =>
    exact Or.inr (Or.inr (Or.inr (hscan hpc (syncDecide_frame _ _) (syncDecide_syncing hpc))))
  | syncDead hpc hsub =>
    exact Or.inr (Or.inr (Or.inr (hscan hpc (syncDecide_frame _ _) (syncDecide_syncing hpc))))
  | enter hpc hsh hnext =>
    refine Or.inr (Or.inr (Or.inr ⟨by rw [hpc]; rfl, ?_, rfl, fun _ => ⟨rfl, rfl⟩⟩))
    rcases hnext with rfl | ⟨-, rfl⟩ <;> rfl
  | pollDone hpc he hnext =>
    refine Or.inr (Or.inr (Or.inr ⟨by rw [hpc]; rfl, ?_, rfl, fun _ => ⟨rfl, rfl⟩⟩))
    rcases hnext with ⟨-, rfl⟩ | ⟨-, rfl⟩ <;> rfl
  | @clear ctx r hpc =>
    refine Or.inr (Or.inr (Or.inr ⟨by rw [hpc]; rfl, ?_, rfl, hflag rfl rfl⟩))
    cases ctx with
    | final =>
      simp only [drainTo_drain, afterPass]
      cases cfg.segmented <;> rfl
    | poll i k => rfl
  | retired hpc hl hk hr =>
    refine Or.inr (Or.inr (Or.inr ⟨by rw [hpc]; rfl, ?_, rfl, fun _ => ⟨rfl, rfl⟩⟩))
    simp only
    cases cfg.segmented <;> rfl
  | markRecycled hpc h1 h2 =>
    exact Or.inr (Or.inr (Or.inr ⟨by rw [hpc]; rfl, rfl, rfl, hflag rfl rfl⟩))
  | notRecycled hpc h1 =>
    exact Or.inr (Or.inr (Or.inr ⟨by rw [hpc]; rfl, hafter, rfl, fun _ => ⟨rfl, rfl⟩⟩))
  | recycle hpc =>
    exact Or.inr (Or.inr (Or.inr ⟨by rw [hpc]; rfl, hafter, rfl, fun _ => ⟨rfl, rfl⟩⟩))
  | lastFlush hpc hl =>
    refine Or.inr (Or.inr (Or.inr ⟨by rw [hpc]; rfl, rfl, ?_, fun _ => ⟨rfl, rfl⟩⟩))
    simp [delivered]
  | flush hpc hl =>
    refine Or.inr (Or.inr (Or.inr ⟨by rw [hpc]; rfl, rfl, ?_, fun _ => ⟨rfl, rfl⟩⟩))
    simp [delivered]
  | leave hpc | lock hpc | syncHalf hpc | finalRing hpc | finalDone hpc | entry hpc | stale hpc
  | skip hpc | unreserved hpc | keepEntry hpc | handedOff hpc | notReserved hpc
  | sameSerial hpc | loadHead hpc | drained hpc | takeLines hpc | delivered hpc | lastPoll hpc
  | worked hpc | idleDirty hpc | idleClean hpc | again hpc =>
    exact Or.inr (Or.inr (Or.inr ⟨by rw [hpc]; rfl, rfl, rfl, fun _ => ⟨rfl, rfl⟩⟩))

/-- An access of a pass on ring `r`, seen from any ring. -/
theorem pass_delivery (h : DeliveryInv s) {ctx : PassCtx} {r : Nat} {p p' : Pass}
    {ring' : Ring} {x : Option Rec} (hpc : s.drain.pc = .pass ctx r p) (hp : p ≠ .finished)
    (hstep : Pass.step (s.rings r) p = (p', ring', x)) :
    DeliveryInv ((acceptAll (PassCtx.path ctx) x.toList (s.setRing r ring')).drainTo
      (.pass ctx r p')) := by
  have hcells := Pass.step_cells hstep
  have hself := h r
  have hread := hself.reader
  rw [hpc, reading_pass] at hread
  have hat := Pass.step_at hread hself.done_le hp hstep
  have hdel : ∀ r', deliveredFrom ((acceptAll (PassCtx.path ctx) x.toList
      (s.setRing r ring')).drainTo (.pass ctx r p')) r'
      = s.deliveredFrom r' ++ x.toList.filter (·.ring = r') := by
    intro r'
    unfold deliveredFrom
    rw [show ((acceptAll (PassCtx.path ctx) x.toList (s.setRing r ring')).drainTo
      (.pass ctx r p')).delivered = s.delivered ++ x.toList from delivered_acceptAll _ _,
      List.filter_append]
  intro r'
  by_cases hr : r' = r
  · subst hr
    refine ⟨?_, ?_, ?_, ?_⟩
    · rw [drainTo_rings, acceptAll_rings, setRing_rings, Function.update_self, hcells]
      exact hself.history
    · rw [drainTo_rings, acceptAll_rings, setRing_rings, Function.update_self, hcells, hdel]
      rcases hat with ⟨rfl, -⟩ | ⟨y, rfl, hy, -⟩
      · simpa using hself.inOrder
      · -- the record handed over is the next one of the ring
        have hring := hself.ring_eq (List.mem_of_getElem? hy)
        have hfil : (some y).toList.filter (fun z => decide (z.ring = r')) = [y] := by
          simp [hring]
        rw [hfil]
        obtain ⟨rest, hrest⟩ := hself.inOrder
        have hlen : (s.deliveredFrom r').length = done s r' := rfl
        rw [← hrest, List.getElem?_append_right (Nat.le_of_eq hlen), hlen, Nat.sub_self] at hy
        cases rest with
        | nil => cases hy
        | cons z rest =>
          cases hy
          exact ⟨rest, by rw [← hrest, List.append_assoc]; rfl⟩
    · rw [drainTo_drain, reading_pass, drainTo_rings, acceptAll_rings, setRing_rings,
        Function.update_self]
      rcases hat with ⟨rfl, hat⟩ | ⟨y, rfl, hy, hat⟩
      · have hdone : done ((acceptAll (PassCtx.path ctx) (none : Option Rec).toList
            (s.setRing r' ring')).drainTo (.pass ctx r' p')) r' = done s r' := by
          unfold done
          rw [hdel]
          simp
        rw [hdone]
        exact hat
      · have hring := hself.ring_eq (List.mem_of_getElem? hy)
        have hdone : done ((acceptAll (PassCtx.path ctx) (some y).toList
            (s.setRing r' ring')).drainTo (.pass ctx r' p')) r' = done s r' + 1 := by
          unfold done
          rw [hdel]
          simp [hring]
        rw [hdone]
        exact hat
    · rw [drainTo_rings, acceptAll_rings, setRing_rings, Function.update_self]
      have hmono : done s r' ≤ done ((acceptAll (PassCtx.path ctx) x.toList
          (s.setRing r' ring')).drainTo (.pass ctx r' p')) r' := by
        unfold done
        rw [hdel, List.length_append]
        exact Nat.le_add_right _ _
      have hbehind := hself.behind
      rcases Pass.step_tail hread hstep with heq | heq <;> omega
  · have hx : x.toList.filter (fun z => decide (z.ring = r')) = [] := by
      rcases hat with ⟨rfl, -⟩ | ⟨y, rfl, hy, -⟩
      · rfl
      · have hring := hself.ring_eq (List.mem_of_getElem? hy)
        simp [hring, Ne.symm hr]
    refine (h r').frame ?_ ?_ ?_ ?_ ?_ ?_
    · rw [drainTo_rings, acceptAll_rings, setRing_rings, Function.update_of_ne hr]
      exact (h r').history
    · rw [drainTo_rings, acceptAll_rings, setRing_rings, Function.update_of_ne hr]
    · rw [drainTo_rings, acceptAll_rings, setRing_rings, Function.update_of_ne hr]
    · rw [drainTo_rings, acceptAll_rings, setRing_rings, Function.update_of_ne hr]
    · rw [hdel, hx, List.append_nil]
    · rw [drainTo_drain, hpc, reading_pass_ne (Ne.symm hr), reading_pass_ne (Ne.symm hr)]

/-- Only a flag of the ring under `r₀` changes, and the position of its reader. -/
theorem flag_delivery (h : DeliveryInv s) {r₀ : Nat} {v : Ring} {pc : LoopPc}
    (hcells : v.cells = (s.rings r₀).cells) (htail : v.tail = (s.rings r₀).tail)
    (hcache : v.headCache = (s.rings r₀).headCache)
    (hread : ∀ r, ReadAt (s.rings r) (done s r) (reading s.drain.pc r) →
      ReadAt (s.rings r) (done s r) (reading pc r)) :
    DeliveryInv ((s.setRing r₀ v).drainTo pc) := by
  intro r
  have hr := h r
  have heq : ((s.setRing r₀ v).rings r).cells = (s.rings r).cells ∧
      ((s.setRing r₀ v).rings r).tail = (s.rings r).tail ∧
      ((s.setRing r₀ v).rings r).headCache = (s.rings r).headCache := by
    rw [setRing_rings]
    by_cases hne : r = r₀
    · rw [hne, Function.update_self]
      exact ⟨hcells, htail, hcache⟩
    · rw [Function.update_of_ne hne]
      exact ⟨rfl, rfl, rfl⟩
  refine ⟨?_, ?_, ?_, ?_⟩
  · rw [drainTo_rings, heq.1]
    exact hr.history
  · rw [drainTo_rings, heq.1]
    exact hr.inOrder
  · exact (hread r hr.reader).mono heq.2.1 heq.2.2 (Nat.le_of_eq (congrArg List.length heq.1.symm))
  · rw [drainTo_rings, heq.2.1]
    exact hr.behind

theorem drain_delivery (hq : ∀ todo, s.drain.pc = .deliver todo → todo = []) (h : DeliveryInv s)
    (hm : DrainMove cfg s s') : DeliveryInv s' := by
  rcases drain_clear hm with
    ⟨ctx, r, hpc⟩ | ⟨ctx, r, p, hpc⟩ | ⟨x, rest, hpc⟩ | ⟨hin, hin', hdel, hr⟩
  · cases hm with
    | mark hpc' =>
      -- entering a pass: the reader starts at the ring's own index
      refine flag_delivery h rfl rfl rfl fun r' hread => ?_
      rw [reading_of_not_inside (by rw [hpc']; rfl)] at hread
      unfold reading
      simp only
      split
      next => exact hread
      next => exact hread
    | pass hpc' | passDone hpc' | deliver hpc' | clear hpc' | syncNext hpc' | syncHalf hpc'
    | syncLive hpc' | syncDead hpc' | leave hpc' | enter hpc' | lock hpc' | finalRing hpc'
    | finalDone hpc' | entry hpc' | stale hpc' | pollDone hpc' | skip hpc' | unreserved hpc'
    | keepEntry hpc' | handedOff hpc' | notReserved hpc' | sameSerial hpc' | loadHead hpc'
    | drained hpc' | retired hpc' | markRecycled hpc' | notRecycled hpc' | recycle hpc'
    | takeLines hpc' | delivered hpc' | lastPoll hpc' | worked hpc' | idleDirty hpc'
    | idleClean hpc' | lastFlush hpc' | flush hpc' | again hpc' =>
      rw [hpc] at hpc'
      cases hpc'
  · cases hm with
    | pass hpc' hp hstep => exact pass_delivery h hpc' hp hstep
    | @passDone ctx' r₀ hpc' =>
      intro r'
      refine ⟨(h r').history, (h r').inOrder, ?_, (h r').behind⟩
      have hread := (h r').reader
      rw [hpc'] at hread
      show ReadAt (s.rings r') (done s r') none
      by_cases hne : r₀ = r'
      · rw [hne, reading_pass] at hread
        exact hread
      · rw [reading_pass_ne hne] at hread
        exact hread
    | mark hpc' | deliver hpc' | clear hpc' | syncNext hpc' | syncHalf hpc'
    | syncLive hpc' | syncDead hpc' | leave hpc' | enter hpc' | lock hpc' | finalRing hpc'
    | finalDone hpc' | entry hpc' | stale hpc' | pollDone hpc' | skip hpc' | unreserved hpc'
    | keepEntry hpc' | handedOff hpc' | notReserved hpc' | sameSerial hpc' | loadHead hpc'
    | drained hpc' | retired hpc' | markRecycled hpc' | notRecycled hpc' | recycle hpc'
    | takeLines hpc' | delivered hpc' | lastPoll hpc' | worked hpc' | idleDirty hpc'
    | idleClean hpc' | lastFlush hpc' | flush hpc' | again hpc' =>
      rw [hpc] at hpc'
      cases hpc'
  · exact absurd (hq _ hpc) (List.cons_ne_nil _ _)
  · intro r
    have hcells := (drain_ring_frame hm r).cells
    refine (h r).frame ?_ ?_ (hr r).1 (hr r).2 ?_ ?_
    · rw [(drain_keeps hm).published, hcells]
      exact (h r).history
    · rw [hcells]
    · unfold deliveredFrom
      rw [hdel]
    · rw [reading_of_not_inside hin, reading_of_not_inside hin']

/-! ## The other agents' steps -/

/-- Steps of other agents hand nothing over; a publication extends its own ring. -/
theorem DeliveryInv.other (h : DeliveryInv s) (hdrain : s'.drain = s.drain)
    (hsink : s'.sink = s.sink)
    (hrings : ∀ r, (s'.rings r).tail = (s.rings r).tail ∧
      (s'.rings r).headCache = (s.rings r).headCache ∧
      ∃ xs, (s'.rings r).cells = (s.rings r).cells ++ xs ∧
        s'.published.filter (·.ring = r) = s.published.filter (·.ring = r) ++ xs) :
    DeliveryInv s' := by
  intro r
  obtain ⟨htail, hcache, xs, hcells, hpub⟩ := hrings r
  refine (h r).frame ?_ ?_ htail hcache ?_ ?_
  · rw [hpub, hcells, (h r).history]
  · rw [hcells]
    exact List.prefix_append _ _
  · unfold deliveredFrom delivered
    rw [hsink]
  · rw [hdrain]

/-- A ring replaced by one with the same records and indices. -/
theorem update_same {r₀ : Nat} {v : Ring} (hrings : s'.rings = Function.update s.rings r₀ v)
    (hcells : v.cells = (s.rings r₀).cells) (htail : v.tail = (s.rings r₀).tail)
    (hcache : v.headCache = (s.rings r₀).headCache) (hpub : s'.published = s.published)
    (r : Nat) :
    (s'.rings r).tail = (s.rings r).tail ∧ (s'.rings r).headCache = (s.rings r).headCache ∧
      ∃ xs, (s'.rings r).cells = (s.rings r).cells ++ xs ∧
        s'.published.filter (·.ring = r) = s.published.filter (·.ring = r) ++ xs := by
  rw [hrings, hpub]
  by_cases hr : r = r₀
  · rw [hr, Function.update_self]
    exact ⟨htail, hcache, [], by simpa using hcells, by simp⟩
  · rw [Function.update_of_ne hr]
    exact ⟨rfl, rfl, [], by simp, by simp⟩

/-- No ring changes at all. -/
theorem rings_same (hpub : s'.published = s.published) (hrings : s'.rings = s.rings) (r : Nat) :
    (s'.rings r).tail = (s.rings r).tail ∧ (s'.rings r).headCache = (s.rings r).headCache ∧
      ∃ xs, (s'.rings r).cells = (s.rings r).cells ++ xs ∧
        s'.published.filter (·.ring = r) = s.published.filter (·.ring = r) ++ xs := by
  rw [hrings, hpub]
  exact ⟨rfl, rfl, [], by simp, by simp⟩

theorem thread_delivery (hp : PlainInv s) (h : DeliveryInv s)
    {t : Nat} (hm : ThreadMove cfg t s s') : DeliveryInv s' := by
  have hframe := hm.frame
  refine h.other hframe.1 hframe.2.2.2 ?_
  have ht := hp.threads t
  unfold ThreadOk at ht
  have hblank : ∀ {r : Nat}, r = s.nextRing → Blank (s.rings r) := by
    rintro r rfl
    exact hp.blank _ fun hr => absurd (hp.born _ hr) (Nat.lt_irrefl _)
  have halloc : ∀ r, ((alloc t s).rings r).tail = (s.rings r).tail ∧
      ((alloc t s).rings r).headCache = (s.rings r).headCache ∧
      ∃ xs, ((alloc t s).rings r).cells = (s.rings r).cells ++ xs ∧
        (alloc t s).published.filter (·.ring = r) = s.published.filter (·.ring = r) ++ xs := by
    have hb := hblank (r := s.nextRing) rfl
    exact update_same rfl hb.cells.symm hb.tail.symm hb.headCache.symm rfl
  cases hm with
  | takeFirst hpc hseg hsp =>
    rw [hp.spares] at hsp
    cases hsp
  | allocFirst hpc hsp => exact halloc
  | allocFresh hpc hr => exact halloc
  | setInfo hpc => exact update_same rfl rfl rfl rfl rfl
  | register hpc hl => exact update_same rfl rfl rfl rfl rfl
  | switch hpc => exact rings_same rfl rfl
  | granted hpc hr hroom => exact rings_same rfl rfl
  | full hpc hr hroom hnext => exact rings_same rfl rfl
  | spin hpc hr => exact rings_same rfl rfl
  | @publish r hpc hr =>
    intro r'
    have hrings : (publish t r s).rings = Function.update s.rings r
        { s.rings r with
          cells := (s.rings r).cells ++ [⟨t, (s.threads t).seq, r, (s.threads t).total⟩] } := rfl
    have hpub : (publish t r s).published
        = s.published ++ [⟨t, (s.threads t).seq, r, (s.threads t).total⟩] := rfl
    rw [hrings, hpub, List.filter_append]
    by_cases hne : r' = r
    · rw [hne, Function.update_self]
      exact ⟨rfl, rfl, _, rfl, by simp⟩
    · rw [Function.update_of_ne hne]
      exact ⟨rfl, rfl, [], by simp, by simp [Ne.symm hne]⟩
  | markHandedOff hpc hr => exact update_same rfl rfl rfl rfl rfl
  | takeSpare hpc hr hsp =>
    rw [hp.spares] at hsp
    cases hsp
  | noSpare hpc hr hsp => exact rings_same rfl rfl
  | formatSpin hpc hr hd => exact rings_same rfl rfl
  | reset hpc | resetLast hpc | reserveHelper hpc | formatEnter hpc | formatDone hpc | format hpc
  | pushLines hpc | recycle hpc | poolLive hpc | poolWait hpc => simp only [hpc] at ht

/-- What a plain run carries, deliveries included. -/
def PlainDelivery (s : Sys) : Prop := PlainRun s ∧ DeliveryInv s

theorem step_delivery (hpol : cfg.policy ≠ .nanoLog) {a : Action} (h : PlainDelivery s)
    (hstep : step cfg s a = some s') : PlainDelivery s' := by
  obtain ⟨hrun, hdel⟩ := h
  refine ⟨step_plain hpol hrun hstep, ?_⟩
  cases a with
  | log t total =>
    obtain ⟨-, pc, -, rfl⟩ := log_inv hstep
    exact hdel.other rfl rfl (rings_same rfl rfl)
  | exit t =>
    obtain ⟨-, ⟨r, -, rfl⟩ | ⟨-, rfl⟩⟩ := exit_inv hstep
    · exact hdel.other rfl rfl (update_same rfl rfl rfl rfl rfl)
    · exact hdel.other rfl rfl (rings_same rfl rfl)
  | thread t => exact thread_delivery hrun.1 hdel (threadStep_move hstep)
  | wake t =>
    exact absurd (wake_inv hstep).1 (hrun.1.not_asleep t)
  | drain => exact drain_delivery hrun.1.queue hdel (drainStep_move hstep)
  | guard =>
    have hm : GuardMove s s' := guardStep_move hstep
    cases hm with
    | mark hg => exact hdel.other rfl rfl (update_same rfl rfl rfl rfl rfl)
    | _ => exact hdel.other rfl rfl (rings_same rfl rfl)

theorem init_plainDelivery (hpol : cfg.policy ≠ .nanoLog) : PlainDelivery (Sys.init cfg) :=
  ⟨⟨init_plain hpol, nofun⟩, init_delivery⟩

end Sys

end Ticklog
