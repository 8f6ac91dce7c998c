import Ticklog.System.Segments
import Ticklog.System.Shutdown

/-!
# The drain's walk over a thread's segments (`src/drain.rs`, `Backpressure::Quill`)

`poll_once` visits the local list front to back, and `sync_rings` appends to it in
registration order, so a thread's segments are drained oldest first, as long as nothing
reorders the list. `swap_remove` does: the last entry takes the place of the removed one, in
front of everything between them. And the final drain of a dead ring in `sync_rings` runs
before the poll that would have reached the segments in front of it. `OrderOk` leaves out
exactly these two; `WalkInv` is what the scans and removals then keep of the list.
-/

namespace Ticklog

open Lib

namespace Sys

variable {cfg : Config} {s s' : Sys}

/-- The local list, as ring objects. -/
def walked (s : Sys) : List Nat := s.drain.rings.map Prod.fst

/-! ## The steps that keep the order -/

/-- Ring `m` was registered by the thread of ring `r`, before it. -/
def precedes (s : Sys) (m r : Nat) : Bool :=
  decide ((s.rings m).threadId = (s.rings r).threadId) &&
    decide ((s.rings m).serial < (s.rings r).serial)

/-- `[tail, head)` is empty. -/
def drainedRing (s : Sys) (r : Nat) : Bool := decide ((s.rings r).tail = (s.rings r).head)

/-- The local entry the drain takes out by `swap_remove` in its next access. -/
def vacated (s : Sys) : Option Nat :=
  match s.drain.pc with
  | .sync (.reconcile i) half =>
    match s.drain.rings[i]? with
    | some (r, _) =>
      if r ∈ s.registry ∧ (half = false ∨ (s.rings r).helperReserved = true) then none else some i
    | none => none
  | .retire i r k .locked => if (s.rings r).serial = k ∧ r ∈ s.registry then some i else none
  | _ => none

/-- `sync_rings` will take ring `r` out of the local list as well. -/
def dropping (s : Sys) (r : Nat) : Bool :=
  match s.drain.pc with
  | .sync (.reconcile _) _ => !(decide (r ∈ s.registry) && s.keep r)
  | _ => false

/-- Taking out entry `i` moves the last entry past an older segment of its thread that holds
records, and both stay in the list. -/
def Overtakes (s : Sys) (i : Nat) : Prop :=
  ∃ last ∈ (walked s).getLast?, ∃ m ∈ ((walked s).drop (i + 1)).dropLast,
    precedes s m last ∧ dropping s m = false ∧ dropping s last = false ∧ drainedRing s m = false

/-- The rings in the lists of the drain and in the registry. -/
def atHand (s : Sys) : List Nat := s.registry ++ walked s ++ s.drain.finalize

/-- `swap_remove` moves no segment past an older one with records, and the final drain of a
dead ring finds the older segments of its thread drained. -/
def OrderOk (s : Sys) (a : Action) : Prop :=
  match a with
  | .drain =>
    (∀ i ∈ vacated s, ¬ Overtakes s i) ∧
    match s.drain.pc with
    | .mark .final r => ∀ m ∈ atHand s, precedes s m r → drainedRing s m
    | _ => True
  | _ => True

instance (s : Sys) (i : Nat) : Decidable (Overtakes s i) := by
  unfold Overtakes
  infer_instance

/-- The ring whose final drain comes next. -/
def finalMark : LoopPc → Option Nat
  | .mark .final r => some r
  | _ => none

theorem orderOk_drain {s : Sys} : OrderOk s .drain ↔ (∀ i ∈ vacated s, ¬ Overtakes s i) ∧
    ∀ r ∈ finalMark s.drain.pc, ∀ m ∈ atHand s, precedes s m r → drainedRing s m := by
  unfold OrderOk finalMark
  dsimp only
  cases s.drain.pc with
  | mark ctx r => cases ctx <;> simp
  | _ => simp

instance (s : Sys) (a : Action) : Decidable (OrderOk s a) :=
  match a with
  | .drain => decidable_of_iff' _ orderOk_drain
  | .log _ _ | .thread _ | .wake _ | .exit _ | .guard => inferInstanceAs (Decidable True)

/-! ## A list that loses an entry -/

/-- An order of the entries that stay outlives a removal, if the moved entry respects it. -/
theorem swapRemove_pairwise {α : Type} {R : α → α → Prop} {p : α → Bool} {l : List α} {i : Nat}
    (hi : i < l.length) (h : (l.take i ++ (l.drop (i + 1)).filter p).Pairwise R)
    (hmove : ∀ x, l.getLast? = some x → ∀ m, m ∈ (l.drop (i + 1)).dropLast → p m = true →
      p x = true → R x m) :
    ((swapRemove l i).take i ++ ((swapRemove l i).drop i).filter p).Pairwise R := by
  have hlen : (l.take i).length = i := List.length_take_of_le (Nat.le_of_lt hi)
  rw [swapRemove_take l hi]
  by_cases hlast : i + 1 = l.length
  · have hnil : (l.take i).drop i = [] := List.drop_eq_nil_of_le (Nat.le_of_eq hlen)
    rw [swapRemove_last hlast, hnil, List.filter_nil, List.append_nil]
    exact (List.pairwise_append.mp h).1
  · obtain ⟨x, hx⟩ : ∃ x, l.getLast? = some x :=
      Option.isSome_iff_exists.mp (by rw [List.getLast?_isSome]; rintro rfl; cases hi)
    have hdrop : l.drop (i + 1) = (l.drop (i + 1)).dropLast ++ [x] := by
      refine (List.dropLast_append_getLast? x ?_).symm
      rw [List.getLast?_drop, if_neg (by omega)]
      exact hx
    rw [swapRemove_eq (by omega) hx, List.drop_left' hlen]
    rw [hdrop, List.filter_append] at h
    obtain ⟨hfront, hback, hcross⟩ := List.pairwise_append.mp h
    obtain ⟨hmid, -, -⟩ := List.pairwise_append.mp hback
    cases hpx : p x with
    | false =>
      rw [List.filter_cons_of_neg (by simp [hpx])]
      exact List.pairwise_append.mpr ⟨hfront, hmid, fun a ha b hb =>
        hcross a ha b (List.mem_append_left _ hb)⟩
    | true =>
      rw [List.filter_cons_of_pos hpx]
      refine List.pairwise_append.mpr ⟨hfront, List.pairwise_cons.mpr ⟨fun m hm => ?_, hmid⟩,
        fun a ha b hb => ?_⟩
      · obtain ⟨hm, hpm⟩ := List.mem_filter.mp hm
        exact hmove x hx m hm hpm hpx
      · rcases List.mem_cons.mp hb with rfl | hb
        · exact hcross a ha b (List.mem_append_right _ (by simp [hpx]))
        · exact hcross a ha b (List.mem_append_left _ hb)

/-! ## What every run carries -/

/-- The invariants of the single parts. -/
structure SegmentRun (s : Sys) : Prop where
  plain : PlainDelivery s
  retire : RetireInv s
  registry : RegistryInv s
  entry : EntryInv s
  authored : Authored s
  guard : GuardInv s
  segments : SegmentInv s
  numbered : Numbered s

theorem init_segmentRun (hpol : cfg.policy ≠ .nanoLog) : SegmentRun (Sys.init cfg) :=
  ⟨init_plainDelivery hpol, trivial, init_registry, init_entry, init_authored, init_guard,
    init_segments, init_numbered⟩

theorem step_segmentRun (hpol : cfg.policy ≠ .nanoLog) {a : Action} (h : SegmentRun s)
    (hstep : step cfg s a = some s') : SegmentRun s' := by
  have hp := h.plain.1.1
  have hplain := step_delivery hpol h.plain hstep
  exact ⟨hplain, step_retire h.retire hp h.plain.2 hplain.2 hstep,
    step_registry h.registry h.retire hp hplain.2 hstep, step_entry h.entry hstep,
    step_authored h.authored hp hstep, step_guard h.guard hp hstep,
    step_segments h.segments hp hplain.1.1 h.numbered h.authored h.plain.2 hplain.2 hstep,
    step_numbered h.numbered hstep⟩

theorem precedes_iff {m r : Nat} (hm : m ∈ s.registered) (hr : r ∈ s.registered) :
    precedes s m r = true ↔ Older s m r := by
  unfold precedes
  rw [Bool.and_eq_true, decide_eq_true_eq, decide_eq_true_eq]
  exact ⟨fun ⟨hid, hlt⟩ => ⟨hm, hr, hid, hlt⟩, fun h => ⟨h.thread, h.earlier⟩⟩

theorem SegmentRun.walked (h : SegmentRun s) {r : Nat} (hr : r ∈ walked s) : r ∈ s.registered :=
  h.plain.1.1.known r (Or.inr (Or.inl hr))

/-- With nobody in `drain_ring_inner`, an older segment without pending records is over. -/
theorem SegmentRun.drained (h : SegmentRun s) (hin : inside s.drain.pc = false) {m r : Nat}
    (hold : Older s m r) (hd : drainedRing s m = true) : Retired s m := by
  have hread := (h.plain.2 m).reader
  rw [reading_of_not_inside hin] at hread
  exact ⟨h.segments.final m r hold, hread.1.symm.trans (of_decide_eq_true hd)⟩

/-- Ring `a`, in front of ring `b`, does not keep an older one waiting. -/
def InFront (s : Sys) (a b : Nat) : Prop := Older s b a → Over s b

/-- Once in front, always in front. -/
theorem InFront.after {a : Action} {x y : Nat} (h : InFront s x y) (hr : SegmentRun s)
    (hdel' : DeliveryInv s') (hstep : step cfg s a = some s') (hx : x ∈ s.registered) :
    InFront s' x y := by
  intro hold
  have hback := hold.back hr.plain.1.1 hstep hx
  exact (h hback).after hr.plain.1.1 hdel' hstep hback.left

/-! ## The list between and during the walks -/

/-- The local list, without what the reconciliation under way will still take out. -/
def staying (s : Sys) : List Nat :=
  match s.drain.pc with
  | .sync (.reconcile i) _ =>
    (walked s).take i ++ ((walked s).drop i).filter fun r => !dropping s r
  | _ => walked s

/-- The entry `poll_once` is at. -/
def pollAt (pc : LoopPc) : Option Nat :=
  match pc with
  | .entry i | .markRecycled (.poll i _) _ | .recycle (.poll i _) _ => some i
  | pc => (workingOn pc).map Prod.fst

/-- Positions of `sync_rings` from the first scan to the last final drain. -/
def finishing (pc : LoopPc) : Bool :=
  match pc with
  | .sync _ _ | .finalNext | .mark .final _ | .pass .final _ _ | .clear .final _
  | .markRecycled .final _ | .recycle .final _ => true
  | _ => false

/-- A dead ring the reconciliation took out and `retain` has still to forget. -/
def Leaving (s : Sys) (r : Nat) : Prop :=
  match s.drain.pc with
  | .sync (.reconcile _) _ | .sync (.addNew _) _ => (s.rings r).live = false
  | .sync (.retain _ kept) _ => (s.rings r).live = false ∧ r ∉ kept
  | _ => False

structure WalkInv (s : Sys) : Prop where
  inFront : (staying s).Pairwise (InFront s)
  /-- What the walk has passed is over, if the thread has a later segment in the list. -/
  passed : ∀ i, pollAt s.drain.pc = some i → ∀ r, r ∈ (walked s).take i → ∀ r', r' ∈ walked s →
    Older s r r' → Over s r
  /-- A later segment is not in the list without the earlier ones. -/
  together : ∀ r, r ∈ s.registry → ∀ r', r' ∈ walked s → Older s r r' →
    r ∈ walked s ∨ Leaving s r
  adding : ∀ todo half, s.drain.pc = .sync (.addNew todo) half →
    ∃ past, s.registry = past ++ todo ∧
      ∀ r, r ∈ past → (s.rings r).live = true → r ∈ walked s
  finalized : finishing s.drain.pc = false → s.drain.finalize = []

theorem init_walk : WalkInv (Sys.init cfg) :=
  ⟨.nil, nofun, nofun, nofun, fun _ => rfl⟩

theorem staying_eq (h : ∀ i half, s.drain.pc ≠ .sync (.reconcile i) half) :
    staying s = walked s := by
  unfold staying
  split
  next hpc => exact absurd hpc (h _ _)
  next => rfl

theorem mem_staying {r : Nat} (h : r ∈ staying s) : r ∈ walked s := by
  unfold staying at h
  split at h
  · rcases List.mem_append.mp h with h | h
    · exact List.mem_of_mem_take h
    · exact List.mem_of_mem_drop (List.mem_filter.mp h).1
  · exact h

/-- No step revives a ring. -/
theorem live_back {a : Action} (hp : PlainInv s) (hstep : step cfg s a = some s') {r : Nat}
    (hl : (s'.rings r).live = true) : (s.rings r).live = true := by
  by_cases hr : r ∈ s.registered
  · exact (step_grows hp hstep hr).live hl
  · exact (hp.blank r hr).live

theorem other_walk {a : Action} (ha : a ≠ .drain) (h : WalkInv s) (hr : SegmentRun s)
    (hr' : SegmentRun s') (hstep : step cfg s a = some s') : WalkInv s' := by
  have hp := hr.plain.1.1
  have hdel' := hr'.plain.2
  obtain ⟨hd, -⟩ := step_drain_frame ha hstep
  have hw : walked s' = walked s := by
    unfold walked
    rw [hd]
  -- in a scan nobody registers
  have hscan : ∀ phase half, s.drain.pc = .sync phase half → s'.registry = s.registry := by
    intro phase half hpc
    rcases step_registers hstep with ⟨-, hreg⟩ | ⟨t, r₀, -, -, hl, -⟩
    · exact hreg ha
    · exact absurd hpc (unlocked_not_sync hl _ _)
  have hdead : ∀ {r : Nat}, (s.rings r).live = false → (s'.rings r).live = false := fun hl =>
    Bool.eq_false_iff.mpr fun hl' => Bool.eq_false_iff.mp hl (live_back hp hstep hl')
  have hstay : (staying s').Sublist (staying s) := by
    unfold staying
    rw [hd]
    split
    next i half hpc =>
      rw [hw]
      refine List.Sublist.append_left (List.monotone_filter_right _ fun r hd' => ?_) _
      -- what stays now stayed before
      unfold dropping at hd' ⊢
      rw [hd] at hd'
      simp only [hpc, hscan _ _ hpc, keep, hp.noHelper, hr'.plain.1.1.noHelper, Bool.or_false,
        Bool.not_not, Bool.and_eq_true] at hd' ⊢
      exact ⟨hd'.1, live_back hp hstep hd'.2⟩
    next => rw [hw]
  refine ⟨?_, ?_, ?_, ?_, ?_⟩
  · refine (h.inFront.sublist hstay).imp_of_mem fun {x y} hx _ hxy => ?_
    exact hxy.after hr hdel' hstep (hr.walked (mem_staying (hstay.subset hx)))
  · intro i hpc r hmem r' hmem' hold
    rw [hd] at hpc
    rw [hw] at hmem hmem'
    have hback := hold.back hp hstep (hr.walked hmem')
    exact (h.passed i hpc r hmem r' hmem' hback).after hp hdel' hstep hback.left
  · intro r hreg r' hmem' hold
    rw [hw] at hmem' ⊢
    have hback := hold.back hp hstep (hr.walked hmem')
    have hreg₀ : r ∈ s.registry := by
      rcases step_registers hstep with ⟨-, heq⟩ | ⟨t, r₀, rfl, hpc, hl, rfl⟩
      · exact heq ha ▸ hreg
      · -- the ring being registered has no later one
        have ht := hp.threads t
        unfold ThreadOk at ht
        simp only [hpc] at ht
        change r ∈ (if r₀ ∈ s.registry then s.registry else s.registry ++ [r₀]) at hreg
        split at hreg
        · exact hreg
        · refine (List.mem_append.mp hreg).resolve_right fun heq => ?_
          rw [List.mem_singleton.mp heq] at hback
          exact ht.2.1 hback.left
    refine (h.together r hreg₀ r' hmem' hback).imp id fun hl => ?_
    unfold Leaving at hl ⊢
    rw [hd]
    split at hl
    · exact hdead hl
    · exact hdead hl
    · exact ⟨hdead hl.1, hl.2⟩
    · exact hl
  · intro todo half hpc
    rw [hd] at hpc
    obtain ⟨past, heq, hpast⟩ := h.adding todo half hpc
    rw [hw, hscan _ _ hpc]
    exact ⟨past, heq, fun r hmem hl => hpast r hmem (live_back hp hstep hl)⟩
  · rw [hd]
    exact h.finalized

/-! ## Removals -/

/-- Where an entry is taken out, and what stands there. -/
theorem vacated_cases {i : Nat} (h : vacated s = some i) :
    (∃ half r k, s.drain.pc = .sync (.reconcile i) half ∧ s.drain.rings[i]? = some (r, k)) ∨
    ∃ r k, s.drain.pc = .retire i r k .locked := by
  unfold vacated at h
  split at h
  next j half hpc =>
    split at h
    next r k he =>
      split at h
      · cases h
      · cases h
        exact Or.inl ⟨half, r, k, hpc, he⟩
    next => cases h
  next j r k hpc =>
    split at h
    · cases h
      exact Or.inr ⟨r, k, hpc⟩
    · cases h
  next => cases h

/-- A removal that overtakes nobody keeps the order of what stays. -/
theorem WalkInv.removed (h : WalkInv s) (hr : SegmentRun s) {i : Nat} (hv : vacated s = some i)
    (hok : OrderOk s .drain) (hi : i < (walked s).length) :
    ((swapRemove (walked s) i).take i ++
      ((swapRemove (walked s) i).drop i).filter fun r => !dropping s r).Pairwise (InFront s) := by
  have hdrop : ((walked s).drop (i + 1)).Sublist ((walked s).drop i) :=
    List.drop_sublist_drop_left _ (Nat.le_succ i)
  have hsub : ((walked s).take i ++ ((walked s).drop (i + 1)).filter fun r => !dropping s r).Sublist
      (staying s) := by
    unfold staying
    rcases vacated_cases hv with ⟨half, r, k, hpc, -⟩ | ⟨r, k, hpc⟩
    · simp only [hpc]
      exact List.Sublist.append_left (hdrop.filter _) _
    · simp only [hpc]
      refine (List.Sublist.append_left (List.filter_sublist.trans hdrop) _).trans ?_
      rw [List.take_append_drop]
  have hin : inside s.drain.pc = false := by
    rcases vacated_cases hv with ⟨half, r, k, hpc, -⟩ | ⟨r, k, hpc⟩ <;> rw [hpc] <;> rfl
  refine swapRemove_pairwise hi (h.inFront.sublist hsub) fun last hlast m hm hpm hpl hold => ?_
  -- otherwise the removal would overtake `m`
  by_contra hover
  refine hok.1 i hv ⟨last, hlast, m, hm, ?_, by simpa using hpm, by simpa using hpl, ?_⟩
  · exact (precedes_iff hold.left hold.right).mpr hold
  · exact Bool.eq_false_iff.mpr fun hd => hover (Or.inl (hr.drained hin hold hd))

/-- Another entry of a list without duplicates outlives the removal. -/
theorem swapRemove_mem {α : Type} {l : List α} {i : Nat} {x y : α} (hy : l[i]? = some y)
    (hx : x ∈ l) (hne : x ≠ y) : x ∈ swapRemove l i := by
  have hmem := (swapRemove_perm hy).mem_iff.mpr hx
  exact (List.mem_cons.mp hmem).resolve_left hne

theorem walked_getElem {i r k : Nat} (h : s.drain.rings[i]? = some (r, k)) :
    (walked s)[i]? = some r := by
  unfold walked
  rw [List.getElem?_map, h]
  rfl

/-- The reconciliation takes out entry `i`: a ring that is dead or not in the registry. -/
theorem WalkInv.dropped (h : WalkInv s) (hr : SegmentRun s) {i r k : Nat} {half : Bool}
    (hpc : s.drain.pc = .sync (.reconcile i) half) (he : s.drain.rings[i]? = some (r, k))
    (hv : vacated s = some i) (hgone : r ∈ s.registry → (s.rings r).live = false)
    (hok : OrderOk s .drain)
    (hs' : s' = { s with drain := { s.drain with
      rings := swapRemove s.drain.rings i, pc := .sync (.reconcile i) false } })
    (hdel' : DeliveryInv s') (hstep : step cfg s .drain = some s') : WalkInv s' := by
  have hw : walked s' = swapRemove (walked s) i := by
    rw [hs']
    exact swapRemove_map _ _ _
  have hwi := walked_getElem he
  have hstay : staying s' = (swapRemove (walked s) i).take i ++
      ((swapRemove (walked s) i).drop i).filter fun r => !dropping s r := by
    have hdr : dropping s' = dropping s := by
      funext x
      unfold dropping
      rw [hpc, hs']
      rfl
    rw [← hw, ← hdr]
    unfold staying
    rw [hs']
  refine ⟨?_, ?_, ?_, ?_, ?_⟩
  · rw [hstay]
    have hpair := h.removed hr hv hok (List.getElem?_eq_some_iff.mp hwi).1
    refine hpair.imp_of_mem fun {x y} hx _ hxy => hxy.after hr hdel' hstep (hr.walked ?_)
    rcases List.mem_append.mp hx with hx | hx
    · exact mem_swapRemove (List.mem_of_mem_take hx)
    · exact mem_swapRemove (List.mem_of_mem_drop (List.mem_filter.mp hx).1)
  · rw [hs']
    exact nofun
  · intro x hx y hy hold
    rw [hw] at hy ⊢
    rw [hs'] at hx
    have hback := hold.back hr.plain.1.1 hstep (hr.walked (mem_swapRemove hy))
    rcases h.together x hx y (mem_swapRemove hy) hback with hmem | hl
    · by_cases hne : x = r
      · right
        rw [hs']
        exact hne ▸ hgone (hne ▸ hx)
      · exact Or.inl (swapRemove_mem hwi hmem hne)
    · right
      unfold Leaving at hl
      simp only [hpc] at hl
      rw [hs']
      exact hl
  · rw [hs']
    exact nofun
  · rw [hs']
    exact nofun

/-! ## The scans -/

/-- A step that leaves the local list and the registry alone, outside the reconciliation. -/
theorem WalkInv.listed (h : WalkInv s) (hr : SegmentRun s) (hdel' : DeliveryInv s')
    (hstep : step cfg s .drain = some s') (hstay : staying s = walked s)
    (hstay' : staying s' = walked s') (hw : walked s' = walked s) :
    (staying s').Pairwise (InFront s') := by
  rw [hstay', hw, ← hstay]
  refine h.inFront.imp_of_mem fun {x y} hx _ hxy => hxy.after hr hdel' hstep (hr.walked ?_)
  exact hstay ▸ hx

/-- Later segments keep their older ones beside them while the list stays as it is. -/
theorem WalkInv.alongside (h : WalkInv s) (hr : SegmentRun s) {a : Action}
    (hstep : step cfg s a = some s') (hw : walked s' = walked s)
    (hreg : ∀ r, r ∈ s'.registry → r ∈ s.registry)
    (hleave : ∀ r, r ∈ s'.registry → Leaving s r → Leaving s' r) :
    ∀ r, r ∈ s'.registry → ∀ r', r' ∈ walked s' → Older s' r r' →
      r ∈ walked s' ∨ Leaving s' r := by
  intro r hmem r' hmem' hold
  rw [hw] at hmem' ⊢
  have hback := hold.back hr.plain.1.1 hstep (hr.walked hmem')
  exact (h.together r (hreg r hmem) r' hmem' hback).imp id (hleave r hmem)

theorem syncNext_walk (h : WalkInv s) (hr : SegmentRun s) {phase : SyncPhase} {half : Bool}
    (hpc : s.drain.pc = .sync phase half) (hsub : s.syncSubject phase = none)
    (hok : OrderOk s .drain) (hdel' : DeliveryInv (syncNext s phase))
    (hstep : step cfg s .drain = some (syncNext s phase)) : WalkInv (syncNext s phase) := by
  cases phase with
  | scanRegistry todo =>
    have hstay : staying s = walked s := staying_eq (by rw [hpc]; nofun)
    refine ⟨h.listed hr hdel' hstep hstay (staying_eq nofun) rfl, nofun, ?_, nofun, nofun⟩
    refine h.alongside hr hstep rfl (fun _ hreg => hreg) fun r _ hl => ?_
    unfold Leaving at hl
    simp only [hpc] at hl
  | scanLocal todo =>
    have hstay : staying s = walked s := staying_eq (by rw [hpc]; nofun)
    refine ⟨?_, nofun, ?_, nofun, nofun⟩
    · have hall := h.inFront
      rw [hstay] at hall
      refine (hall.imp_of_mem fun {x y} hx _ hxy =>
        hxy.after hr hdel' hstep (hr.walked hx)).sublist ?_
      exact List.filter_sublist
    · refine h.alongside hr hstep rfl (fun _ hreg => hreg) fun r _ hl => ?_
      unfold Leaving at hl
      simp only [hpc] at hl
  | reconcile i =>
    by_cases hi : i < s.drain.rings.length
    · -- the entry's ring left the registry
      obtain ⟨⟨r, k⟩, he⟩ : ∃ e, s.drain.rings[i]? = some e :=
        ⟨_, List.getElem?_eq_getElem hi⟩
      have hgone : r ∉ s.registry := by
        intro hreg
        dsimp only [syncSubject] at hsub
        simp only [he, Option.bind_some, if_pos hreg] at hsub
        cases hsub
      refine h.dropped hr hpc he ?_ (fun hreg => absurd hreg hgone) hok ?_ hdel' hstep
      · unfold vacated
        simp only [hpc, he, if_neg fun hk : _ ∧ _ => hgone hk.1]
      · dsimp only [syncNext]
        simp only [if_pos hi]
    · have hs' : syncNext s (.reconcile i) = s.drainTo (.sync (.addNew s.registry) false) := by
        dsimp only [syncNext]
        simp only [if_neg hi]
      rw [hs'] at hdel' hstep ⊢
      have hlen : (walked s).length ≤ i := by
        unfold walked
        rw [List.length_map]
        exact Nat.le_of_not_lt hi
      refine ⟨?_, nofun, ?_, ?_, nofun⟩
      · have hstay : staying s = walked s := by
          unfold staying
          simp only [hpc, List.take_of_length_le hlen, List.drop_eq_nil_of_le hlen,
            List.filter_nil, List.append_nil]
        exact h.listed hr hdel' hstep hstay (staying_eq nofun) rfl
      · refine h.alongside hr hstep rfl (fun _ hreg => hreg) fun r _ hl => ?_
        unfold Leaving at hl
        simp only [hpc] at hl
        exact hl
      · intro todo half' hpc'
        cases hpc'
        exact ⟨[], rfl, nofun⟩
  | addNew todo =>
    have hstay : staying s = walked s := staying_eq (by rw [hpc]; nofun)
    refine ⟨h.listed hr hdel' hstep hstay (staying_eq nofun) rfl, nofun, ?_, nofun, nofun⟩
    refine h.alongside hr hstep rfl (fun _ hreg => hreg) fun r _ hl => ?_
    unfold Leaving at hl
    simp only [hpc] at hl
    exact ⟨hl, List.not_mem_nil⟩
  | retain todo kept =>
    have hstay : staying s = walked s := staying_eq (by rw [hpc]; nofun)
    have htodo : todo = [] := List.head?_eq_none_iff.mp hsub
    refine ⟨h.listed hr hdel' hstep hstay (staying_eq nofun) rfl, nofun, ?_, nofun, nofun⟩
    refine h.alongside hr hstep rfl (fun r hkept => ?_) fun r hkept hl => ?_
    · refine (hr.registry.kept _ _ _ hpc).subset ?_
      rw [htodo, List.append_nil]
      exact hkept
    · unfold Leaving at hl
      simp only [hpc] at hl
      exact absurd hkept hl.2

/-- The reconciliation keeps entry `i`: a live ring of the registry. -/
theorem WalkInv.kept (h : WalkInv s) (hr : SegmentRun s) {i r k : Nat} {half : Bool}
    (hpc : s.drain.pc = .sync (.reconcile i) half) (he : s.drain.rings[i]? = some (r, k))
    (hreg : r ∈ s.registry) (hlive : (s.rings r).live = true)
    (hdel' : DeliveryInv (syncDecide true s (.reconcile i)))
    (hstep : step cfg s .drain = some (syncDecide true s (.reconcile i))) :
    WalkInv (syncDecide true s (.reconcile i)) := by
  have hs' : syncDecide true s (.reconcile i) = { s with drain := { s.drain with
      rings := s.drain.rings.set i (r, (s.rings r).serial),
      pc := .sync (.reconcile (i + 1)) false } } := by
    simp only [syncDecide, he]
    rfl
  have hwi := walked_getElem he
  obtain ⟨hlt, hget⟩ := List.getElem?_eq_some_iff.mp hwi
  have hw : walked (syncDecide true s (.reconcile i)) = walked s := by
    rw [hs']
    change (s.drain.rings.set i (r, (s.rings r).serial)).map Prod.fst = walked s
    rw [List.map_set]
    have hself := List.set_getElem_self hlt
    rwa [hget] at hself
  -- the entry stays
  have hstay : staying (syncDecide true s (.reconcile i)) = staying s := by
    have hdr : dropping (syncDecide true s (.reconcile i)) = dropping s := by
      funext x
      unfold dropping
      rw [hpc, hs']
      rfl
    have hstays : dropping s r = false := by
      unfold dropping
      simp only [hpc, hreg, Sys.keep, hlive]
      rfl
    have hnext : staying (syncDecide true s (.reconcile i)) = (walked s).take (i + 1) ++
        ((walked s).drop (i + 1)).filter fun x => !dropping s x := by
      rw [← hw, ← hdr]
      unfold staying
      rw [hs']
    rw [hnext]
    unfold staying
    simp only [hpc]
    rw [List.drop_eq_getElem_cons hlt, List.take_succ_eq_append_getElem hlt, hget,
      List.filter_cons_of_pos (by simp [hstays]), List.append_assoc]
    rfl
  refine ⟨?_, by rw [hs']; nofun, ?_, by rw [hs']; nofun, by rw [hs']; nofun⟩
  · rw [hstay]
    exact h.inFront.imp_of_mem fun {x y} hx _ hxy =>
      hxy.after hr hdel' hstep (hr.walked (mem_staying hx))
  · refine h.alongside hr hstep hw (by rw [hs']; exact fun _ hreg => hreg) fun r _ hl => ?_
    unfold Leaving at hl
    simp only [hpc] at hl
    rw [hs']
    exact hl

/-- `sync_rings` goes over ring `r` of the registry and appends it if it is live and new. -/
theorem WalkInv.added (h : WalkInv s) (hr : SegmentRun s) {r : Nat} {rest : List Nat}
    {half keep : Bool} (hpc : s.drain.pc = .sync (.addNew (r :: rest)) half)
    (hkeep : (s.rings r).live = keep)
    (hdel' : DeliveryInv (syncDecide keep s (.addNew (r :: rest))))
    (hstep : step cfg s .drain = some (syncDecide keep s (.addNew (r :: rest)))) :
    WalkInv (syncDecide keep s (.addNew (r :: rest))) := by
  have hp := hr.plain.1.1
  have hstay : staying s = walked s := staying_eq (by rw [hpc]; nofun)
  obtain ⟨past, hreg, hpast⟩ := h.adding _ _ hpc
  have hmem : r ∈ s.registry := by
    rw [hreg]
    exact List.mem_append_right _ List.mem_cons_self
  have hleft : ∀ {x y : Nat}, x ∈ s.registry → y ∈ walked s → Older s x y →
      x ∈ walked s ∨ (s.rings x).live = false := by
    intro x y hx hy hold
    refine (h.together x hx y hy hold).imp id fun hl => ?_
    unfold Leaving at hl
    simp only [hpc] at hl
    exact hl
  by_cases hadd : keep = true ∧ r ∉ walked s
  · have hw : walked (syncDecide keep s (.addNew (r :: rest))) = walked s ++ [r] := by
      unfold walked at hadd ⊢
      simp only [syncDecide, if_pos hadd]
      rw [List.map_append]
      rfl
    have hlive : (s.rings r).live = true := hkeep.trans hadd.1
    have hstay' : staying (syncDecide keep s (.addNew (r :: rest)))
        = walked (syncDecide keep s (.addNew (r :: rest))) := staying_eq nofun
    refine ⟨?_, nofun, ?_, ?_, nofun⟩
    · rw [hstay', hw]
      have hall := h.inFront
      rw [hstay] at hall
      refine List.pairwise_append.mpr ⟨hall.imp_of_mem fun {x y} hx _ hxy =>
        hxy.after hr hdel' hstep (hr.walked hx), List.pairwise_singleton _ _, ?_⟩
      -- a live ring older than one in the list would be there already
      intro x hx y hy hold
      rw [List.mem_singleton.mp hy] at hold
      rcases hleft hmem hx (hold.back hp hstep (hr.walked hx)) with hin | hdead
      · exact absurd hin hadd.2
      · rw [hlive] at hdead
        cases hdead
    · intro x hx y hy hold
      rw [hw] at hy ⊢
      rcases List.mem_append.mp hy with hy | hy
      · have hback := hold.back hp hstep (hr.walked hy)
        exact (hleft hx hy hback).imp (List.mem_append_left _) id
      · rw [List.mem_singleton.mp hy] at hold
        have hold₀ := hold.back hp hstep (hp.known r (Or.inl hmem))
        -- the registry is in registration order
        have hsorted := hr.registry.sorted
        rw [hreg] at hsorted
        have hx : x ∈ past ++ r :: rest := hreg ▸ hx
        rcases List.mem_append.mp hx with hx | hx
        · cases hl : (s.rings x).live with
          | true => exact Or.inl (List.mem_append_left _ (hpast x hx hl))
          | false => exact Or.inr hl
        · rcases List.mem_cons.mp hx with rfl | hx
          · exact absurd hold₀ Older.irrefl
          · have hlater := (List.pairwise_cons.mp (List.pairwise_append.mp hsorted).2.1).1 x hx
            exact absurd hold₀.earlier (Nat.lt_asymm hlater)
    · intro todo half' hpc'
      cases hpc'
      rw [hw]
      refine ⟨past ++ [r], ?_, fun x hx hl => ?_⟩
      · rw [List.append_assoc]
        exact hreg
      · rcases List.mem_append.mp hx with hx | hx
        · exact List.mem_append_left _ (hpast x hx hl)
        · exact List.mem_append_right _ hx
  · have hw : walked (syncDecide keep s (.addNew (r :: rest))) = walked s := by
      unfold walked at hadd ⊢
      simp only [syncDecide, if_neg hadd]
    refine ⟨h.listed hr hdel' hstep hstay (staying_eq nofun) hw, nofun, ?_, ?_, nofun⟩
    · refine h.alongside hr hstep hw (fun _ hin => hin) fun x _ hl => ?_
      unfold Leaving at hl
      simp only [hpc] at hl
      exact hl
    · intro todo half' hpc'
      cases hpc'
      rw [hw]
      refine ⟨past ++ [r], ?_, fun x hx hl => ?_⟩
      · rw [List.append_assoc]
        exact hreg
      · rcases List.mem_append.mp hx with hx | hx
        · exact hpast x hx hl
        · rw [List.mem_singleton.mp hx] at hl ⊢
          by_contra hin
          exact hadd ⟨hkeep.symm.trans hl, hin⟩

/-- A verdict on one ring: `keep` is its `live` flag. -/
theorem syncDecide_walk (h : WalkInv s) (hr : SegmentRun s) {phase : SyncPhase} {half keep : Bool}
    {r₀ : Nat} (hpc : s.drain.pc = .sync phase half) (hsub : s.syncSubject phase = some r₀)
    (hkeep : (s.rings r₀).live = keep) (hhalf : keep = false → half = true)
    (hok : OrderOk s .drain) (hdel' : DeliveryInv (syncDecide keep s phase))
    (hstep : step cfg s .drain = some (syncDecide keep s phase)) :
    WalkInv (syncDecide keep s phase) := by
  have hp := hr.plain.1.1
  cases phase with
  | scanRegistry todo =>
    have hstay : staying s = walked s := staying_eq (by rw [hpc]; nofun)
    cases todo with
    | nil => cases hsub
    | cons r₁ rest =>
      refine ⟨h.listed hr hdel' hstep hstay (staying_eq nofun) rfl, nofun, ?_, nofun, nofun⟩
      refine h.alongside hr hstep rfl (fun _ hreg => hreg) fun r _ hl => ?_
      unfold Leaving at hl
      simp only [hpc] at hl
  | scanLocal todo =>
    have hstay : staying s = walked s := staying_eq (by rw [hpc]; nofun)
    cases todo with
    | nil => cases hsub
    | cons e rest =>
      refine ⟨h.listed hr hdel' hstep hstay (staying_eq nofun) rfl, nofun, ?_, nofun, nofun⟩
      refine h.alongside hr hstep rfl (fun _ hreg => hreg) fun r _ hl => ?_
      unfold Leaving at hl
      simp only [hpc] at hl
  | reconcile i =>
    dsimp only [syncSubject] at hsub
    obtain ⟨⟨r, k⟩, he, hsub⟩ := Option.bind_eq_some_iff.mp hsub
    split at hsub
    next hreg =>
      have hr₀ : r = r₀ := Option.some.inj hsub
      subst hr₀
      cases keep with
      | false =>
        refine h.dropped hr hpc he ?_ (fun _ => hkeep) hok ?_ hdel' hstep
        · unfold vacated
          simp only [hpc, he, hhalf rfl, hp.noHelper]
          simp
        · dsimp only [syncDecide]
          simp only [he]
          rfl
      | true => exact h.kept hr hpc he hreg hkeep hdel' hstep
    next => cases hsub
  | addNew todo =>
    have hstay : staying s = walked s := staying_eq (by rw [hpc]; nofun)
    cases todo with
    | nil => cases hsub
    | cons r rest =>
      have hr₀ : r = r₀ := Option.some.inj hsub
      exact h.added hr hpc (hr₀ ▸ hkeep) hdel' hstep
  | retain todo kept =>
    have hstay : staying s = walked s := staying_eq (by rw [hpc]; nofun)
    cases todo with
    | nil => cases hsub
    | cons r rest =>
      have hr₀ : r = r₀ := Option.some.inj hsub
      subst hr₀
      refine ⟨h.listed hr hdel' hstep hstay (staying_eq nofun) rfl, nofun, ?_, nofun, nofun⟩
      refine h.alongside hr hstep rfl (fun _ hreg => hreg) fun x _ hl => ?_
      unfold Leaving at hl
      simp only [hpc] at hl
      refine ⟨hl.1, fun hkept => ?_⟩
      cases keep with
      | false => exact hl.2 hkept
      | true =>
        rcases List.mem_append.mp hkept with hkept | hkept
        · exact hl.2 hkept
        · have hdead := hl.1
          rw [List.mem_singleton.mp hkept, hkeep] at hdead
          cases hdead

end Sys

end Ticklog
