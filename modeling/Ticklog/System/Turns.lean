import Ticklog.System.Walk

/-!
# Whose turn it is (`src/drain.rs`, `Backpressure::Quill`)

The passes of the walk. While `poll_once` works on a ring, the older segments of its thread
are over (`WalkInv.turn`): those in front of it in the list were passed over with nothing
left, those behind it have nothing to deliver either. A pass over a segment with a successor
drains it, since its head is final.
-/

namespace Ticklog

open Lib

namespace Sys

variable {cfg : Config} {s s' : Sys}

/-! ## The passes -/

/-- The thread of ring `r` has a later segment in the local list. -/
def Followed (s : Sys) (r : Nat) : Prop := ∃ r', r' ∈ walked s ∧ Older s r r'

/-- A pass of `poll_once` over a segment with a successor drains it; a final drain finds the
older segments over. -/
def PassInv (s : Sys) : Prop :=
  match s.drain.pc with
  | .pass (.poll _ _) r p =>
    Followed s r → done s r < (s.rings r).head → PassDue (s.rings r).head p
  | .clear (.poll _ _) r | .retire _ r _ _ => Followed s r → Retired s r
  | .pass .final r _ => ∀ m, Older s m r → Over s m
  | _ => True

theorem workingOn_pollAt {pc : LoopPc} {i r k : Nat} (h : workingOn pc = some (i, r, k)) :
    pollAt pc = some i := by
  unfold pollAt
  split
  next => cases h
  next => cases h
  next => cases h
  next => rw [h]; rfl

/-- **In a walk the older segments come first**: while `poll_once` works on a ring, the older
ones of its thread are over. -/
theorem WalkInv.turn (h : WalkInv s) (hr : SegmentRun s) {i r k : Nat}
    (hpc : workingOn s.drain.pc = some (i, r, k)) (m : Nat) (hold : Older s m r) : Over s m := by
  have hwi := walked_getElem (hr.entry i r k hpc)
  obtain ⟨hi, hget⟩ := List.getElem?_eq_some_iff.mp hwi
  have hmem : r ∈ walked s := List.mem_of_getElem? hwi
  have hat := workingOn_pollAt hpc
  have hsplit : walked s = (walked s).take i ++ r :: (walked s).drop (i + 1) := by
    rw [← hget, List.getElem_cons_drop, List.take_append_drop]
  have hlisted : m ∈ walked s → Over s m := by
    intro hm
    rw [hsplit] at hm
    rcases List.mem_append.mp hm with hm | hm
    · exact h.passed i hat m hm r hmem hold
    · rcases List.mem_cons.mp hm with rfl | hm
      · exact absurd hold Older.irrefl
      · have hall := h.inFront
        rw [staying_eq (fun j half hs => by rw [hs] at hpc; cases hpc), hsplit] at hall
        exact (List.pairwise_cons.mp (List.pairwise_append.mp hall).2.1).1 m hm hold
  by_cases hknown : Known s m
  · rcases hknown with hreg | hw | hf | hment
    · refine (h.together m hreg r hmem hold).elim hlisted fun hl => ?_
      unfold Leaving at hl
      split at hl
      next hs => rw [hs] at hpc; cases hpc
      next hs => rw [hs] at hpc; cases hpc
      next hs => rw [hs] at hpc; cases hpc
      next => exact hl.elim
    · exact hlisted hw
    · rw [h.finalized] at hf
      · cases hf
      · unfold finishing
        split
        all_goals first
          | rfl
          | (rename_i hs; rw [hs] at hpc; cases hpc)
    · -- the position names no other ring
      have hment : mentions s.drain.pc = [r] := by
        cases hd : s.drain.pc with
        | reserved | retire =>
          rw [hd] at hpc
          cases hpc
          rfl
        | mark ctx r' | pass ctx r' p | clear ctx r' =>
          rw [hd] at hpc
          cases ctx with
          | final => cases hpc
          | poll =>
            cases hpc
            rfl
        | _ =>
          rw [hd] at hpc
          cases hpc
      rename_i hin
      rw [hment] at hin
      rw [List.mem_singleton.mp hin] at hold
      exact absurd hold Older.irrefl
  · exact Or.inr hknown

/-- A move of the drain outside the scans that leaves both lists alone. -/
theorem WalkInv.quiet (h : WalkInv s) (hr : SegmentRun s) (hdel' : DeliveryInv s')
    (hstep : step cfg s .drain = some s') (hreg : s'.registry = s.registry)
    (hrings : s'.drain.rings = s.drain.rings)
    (hs : ∀ phase half, s.drain.pc ≠ .sync phase half)
    (hs' : ∀ phase half, s'.drain.pc = .sync phase half → ∃ todo, phase = .scanRegistry todo)
    (hfin : finishing s'.drain.pc = false → s'.drain.finalize = [])
    (hat : ∀ i, pollAt s'.drain.pc = some i → i = 0 ∨ pollAt s.drain.pc = some i ∨
      ∃ j r k, i = j + 1 ∧ workingOn s.drain.pc = some (j, r, k) ∧ (Followed s r → Over s r)) :
    WalkInv s' := by
  have hp := hr.plain.1.1
  have hw : walked s' = walked s := congrArg (List.map Prod.fst) hrings
  have hstay : staying s = walked s := staying_eq fun i half => hs _ _
  have hstay' : staying s' = walked s' := by
    refine staying_eq fun i half hpc => ?_
    obtain ⟨todo, ht⟩ := hs' _ _ hpc
    cases ht
  refine ⟨h.listed hr hdel' hstep hstay hstay' hw, ?_, ?_, ?_, hfin⟩
  · intro i hi r hmem r' hmem' hold
    rw [hw] at hmem hmem'
    have hback := hold.back hp hstep (hr.walked hmem')
    rcases hat i hi with rfl | hi | ⟨j, x, k, rfl, hwork, hover⟩
    · cases hmem
    · exact (h.passed i hi r hmem r' hmem' hback).after hp hdel' hstep hback.left
    · -- one entry further
      obtain ⟨hlt, hget⟩ := List.getElem?_eq_some_iff.mp (walked_getElem (hr.entry _ _ _ hwork))
      rw [List.take_succ_eq_append_getElem hlt, hget] at hmem
      refine Over.after ?_ hp hdel' hstep hback.left
      rcases List.mem_append.mp hmem with hmem | hmem
      · exact h.passed j (workingOn_pollAt hwork) r hmem r' hmem' hback
      · have heq := List.mem_singleton.mp hmem
        subst heq
        exact hover ⟨r', hmem', hback⟩
  · refine h.alongside hr hstep hw (fun _ hin => hreg ▸ hin) fun r _ hl => ?_
    unfold Leaving at hl
    split at hl
    next hpc => exact absurd hpc (hs _ _)
    next hpc => exact absurd hpc (hs _ _)
    next hpc => exact absurd hpc (hs _ _)
    next => exact hl.elim
  · intro todo half hpc
    obtain ⟨todo', ht⟩ := hs' _ _ hpc
    cases ht

/-- `maybe_retire` takes out entry `i`. -/
theorem WalkInv.retired (h : WalkInv s) (hr : SegmentRun s) {i r k : Nat}
    (hpc : s.drain.pc = .retire i r k .locked) (hk : (s.rings r).serial = k) (hreg : r ∈ s.registry)
    (hok : OrderOk s .drain) (hrings : s'.drain.rings = swapRemove s.drain.rings i)
    (hreg' : s'.registry = s.registry.filter (· ≠ r))
    (hs' : ∀ phase half, s'.drain.pc ≠ .sync phase half)
    (hat : ∀ j, pollAt s'.drain.pc = some j → j = i)
    (hfin : s'.drain.finalize = s.drain.finalize)
    (hdel' : DeliveryInv s') (hstep : step cfg s .drain = some s') : WalkInv s' := by
  have hp := hr.plain.1.1
  have hw : walked s' = swapRemove (walked s) i := by
    unfold walked
    rw [hrings]
    exact swapRemove_map _ _ _
  have hwork : workingOn s.drain.pc = some (i, r, k) := by rw [hpc]; rfl
  have hwi := walked_getElem (hr.entry i r k hwork)
  have hi := (List.getElem?_eq_some_iff.mp hwi).1
  have hback : ∀ {x y : Nat}, y ∈ walked s' → Older s' x y → y ∈ walked s ∧ Older s x y := by
    intro x y hy hold
    rw [hw] at hy
    exact ⟨mem_swapRemove hy, hold.back hp hstep (hr.walked (mem_swapRemove hy))⟩
  refine ⟨?_, ?_, ?_, ?_, ?_⟩
  · rw [staying_eq fun j half => hs' _ _, hw]
    have hv : vacated s = some i := by
      unfold vacated
      simp only [hpc, if_pos (And.intro hk hreg)]
    have hpair := h.removed hr hv hok hi
    have hnone : (fun x => !dropping s x) = fun _ => true := by
      funext x
      unfold dropping
      rw [hpc]
      rfl
    rw [hnone, List.filter_true, List.take_append_drop] at hpair
    exact hpair.imp_of_mem fun {x y} hx _ hxy =>
      hxy.after hr hdel' hstep (hr.walked (mem_swapRemove hx))
  · intro j hj x hx y hy hold
    obtain ⟨hy, hold⟩ := hback hy hold
    rw [hat j hj, hw, swapRemove_take _ hi] at hx
    exact (h.passed i (by rw [hpc]; rfl) x hx y hy hold).after hp hdel' hstep hold.left
  · intro x hx y hy hold
    obtain ⟨hy, hold⟩ := hback hy hold
    rw [hreg'] at hx
    obtain ⟨hx, hne⟩ := List.mem_filter.mp hx
    rcases h.together x hx y hy hold with hin | hl
    · rw [hw]
      exact Or.inl (swapRemove_mem hwi hin (by simpa using hne))
    · unfold Leaving at hl
      simp only [hpc] at hl
  · exact fun todo half hpc' => absurd hpc' (hs' _ _)
  · intro _
    rw [hfin]
    exact h.finalized (by rw [hpc]; rfl)

theorem drain_walk (hseg : cfg.segmented = true) (h : WalkInv s) (hr : SegmentRun s)
    (hpass : PassInv s) (hok : OrderOk s .drain) (hdel' : DeliveryInv s')
    (hstep : step cfg s .drain = some s') : WalkInv s' := by
  have hp := hr.plain.1.1
  have hm : DrainMove cfg s s' := drainStep_move hstep
  have hquiet := fun hreg hrings => h.quiet hr hdel' hstep hreg hrings
  -- the walk stays at its entry
  have hsame : ∀ {pc' : LoopPc}, (∀ i, pollAt pc' = some i → pollAt s.drain.pc = some i) →
      ∀ i, pollAt pc' = some i → i = 0 ∨ pollAt s.drain.pc = some i ∨
        ∃ j r k, i = j + 1 ∧ workingOn s.drain.pc = some (j, r, k) ∧ (Followed s r → Over s r) :=
    fun hall i hi => Or.inr (Or.inl (hall i hi))
  unfold PassInv at hpass
  cases hm with
  | syncNext hpc hsub => exact syncNext_walk h hr hpc hsub hok hdel' hstep
  | syncLive hpc hsub hl => exact syncDecide_walk h hr hpc hsub hl nofun hok hdel' hstep
  | @syncDead phase r hpc hsub =>
    have hres := hp.noHelper r
    rw [hres] at hdel' hstep ⊢
    exact syncDecide_walk h hr hpc hsub (hr.registry.half _ _ hpc hsub) (fun _ => rfl) hok hdel'
      hstep
  | @syncHalf phase r hpc hsub hl =>
    have hw : walked (s.drainTo (.sync phase true)) = walked s := rfl
    have hstay : staying (s.drainTo (.sync phase true)) = staying s := by
      have hdr : dropping (s.drainTo (.sync phase true)) = dropping s := by
        unfold dropping
        rw [hpc, drainTo_drain]
        cases phase <;> rfl
      unfold staying
      rw [hdr, hpc, drainTo_drain]
      cases phase <;> rfl
    refine ⟨?_, nofun, ?_, ?_, nofun⟩
    · rw [hstay]
      exact h.inFront.imp_of_mem fun {x y} hx _ hxy =>
        hxy.after hr hdel' hstep (hr.walked (mem_staying hx))
    · refine h.alongside hr hstep rfl (fun _ hin => hin) fun x _ hleft => ?_
      unfold Leaving at hleft ⊢
      rw [hpc] at hleft
      cases phase <;> exact hleft
    · intro todo half hpc'
      cases hpc'
      exact h.adding _ _ hpc
  | leave hpc hsh =>
    exact hquiet rfl rfl (by rw [hpc]; nofun) nofun (fun _ => h.finalized (by rw [hpc]; rfl)) nofun
  | enter hpc hsh hnext =>
    rcases hnext with rfl | ⟨hns, -⟩
    · exact hquiet rfl rfl (by rw [hpc]; nofun) nofun (fun _ => h.finalized (by rw [hpc]; rfl))
        nofun
    · rw [hseg] at hns
      cases hns
  | lock hpc hl =>
    exact hquiet rfl rfl (by rw [hpc]; nofun)
      (fun phase half hpc' => by cases hpc'; exact ⟨_, rfl⟩) nofun nofun
  | finalRing hpc hf => exact hquiet rfl rfl (by rw [hpc]; nofun) nofun nofun nofun
  | finalDone hpc hf =>
    exact hquiet rfl rfl (by rw [hpc]; nofun) nofun (fun _ => hf)
      fun i hi => Or.inl (Option.some.inj hi).symm
  | entry hpc he hk =>
    exact hquiet rfl rfl (by rw [hpc]; nofun) nofun (fun _ => h.finalized (by rw [hpc]; rfl))
      (hsame (by rw [hpc]; exact fun _ hi => hi))
  | stale hpc he hk => exact absurd (hp.entries _ (List.mem_of_getElem? he)).symm hk
  | pollDone hpc he hnext =>
    rcases hnext with ⟨-, rfl⟩ | ⟨-, rfl⟩
    all_goals
      exact hquiet rfl rfl (by rw [hpc]; nofun) nofun (fun _ => h.finalized (by rw [hpc]; rfl))
        nofun
  | skip hpc hres =>
    rw [hp.noHelper] at hres
    cases hres
  | unreserved hpc hres =>
    exact hquiet rfl rfl (by rw [hpc]; nofun) nofun (fun _ => h.finalized (by rw [hpc]; rfl))
      (hsame (by rw [hpc]; exact fun _ hi => hi))
  | @mark ctx r hpc =>
    cases ctx with
    | final => exact hquiet rfl rfl (by rw [hpc]; nofun) nofun nofun nofun
    | poll i k =>
      exact hquiet rfl rfl (by rw [hpc]; nofun) nofun (fun _ => h.finalized (by rw [hpc]; rfl))
        (hsame (by rw [hpc]; exact fun _ hi => hi))
  | @passDone ctx r hpc =>
    cases ctx with
    | final => exact hquiet rfl rfl (by rw [hpc]; nofun) nofun nofun nofun
    | poll i k =>
      exact hquiet rfl rfl (by rw [hpc]; nofun) nofun (fun _ => h.finalized (by rw [hpc]; rfl))
        (hsame (by rw [hpc]; exact fun _ hi => hi))
  | @pass ctx r p p' ring' x hpc hp' hst =>
    cases ctx with
    | final => exact hquiet rfl rfl (by rw [hpc]; nofun) nofun nofun nofun
    | poll i k =>
      exact hquiet rfl rfl (by rw [hpc]; nofun) nofun (fun _ => h.finalized (by rw [hpc]; rfl))
        (hsame (by rw [hpc]; exact fun _ hi => hi))
  | @clear ctx r hpc =>
    cases ctx with
    | final =>
      have hafter : afterPass cfg .final r = .markRecycled .final r := by
        unfold afterPass
        rw [hseg]
        rfl
      rw [hafter] at hdel' hstep ⊢
      exact h.quiet hr hdel' hstep rfl rfl (by rw [hpc]; nofun) nofun nofun nofun
    | poll i k =>
      exact hquiet rfl rfl (by rw [hpc]; nofun) nofun (fun _ => h.finalized (by rw [hpc]; rfl))
        (hsame (by rw [hpc]; exact fun _ hi => hi))
  | @keepEntry i r k test hpc =>
    refine hquiet rfl rfl (by rw [hpc]; nofun) nofun (fun _ => h.finalized (by rw [hpc]; rfl))
      fun j hj => Or.inr (Or.inr
        ⟨i, r, k, (Option.some.inj hj).symm, by rw [hpc]; rfl, fun hf => ?_⟩)
    simp only [hpc] at hpass
    exact Or.inl (hpass hf)
  | handedOff hpc | notReserved hpc | sameSerial hpc | loadHead hpc | drained hpc =>
    exact hquiet rfl rfl (by rw [hpc]; nofun) nofun (fun _ => h.finalized (by rw [hpc]; rfl))
      (hsame (by rw [hpc]; exact fun _ hi => hi))
  | @retired i r k hpc hl hk hreg =>
    refine h.retired hr hpc hk hreg hok rfl rfl ?_ ?_ rfl hdel' hstep
    · intro phase half
      cases cfg.segmented <;> nofun
    · intro j hj
      cases hsg : cfg.segmented <;> rw [hsg] at hj <;> exact (Option.some.inj hj).symm
  | markRecycled hpc hrec =>
    rw [hp.notPooled] at hrec
    cases hrec
  | @notRecycled ctx r hpc hrec =>
    cases ctx with
    | final => exact hquiet rfl rfl (by rw [hpc]; nofun) nofun nofun nofun
    | poll i k =>
      exact hquiet rfl rfl (by rw [hpc]; nofun) nofun (fun _ => h.finalized (by rw [hpc]; rfl))
        (hsame (by rw [hpc]; exact fun _ hi => hi))
  | recycle hpc => exact absurd hpc (hp.noRecycle _ _)
  | takeLines hpc | deliver hpc | delivered hpc | lastPoll hpc | worked hpc | idleDirty hpc
  | idleClean hpc | lastFlush hpc | flush hpc | again hpc =>
    exact hquiet rfl rfl (by rw [hpc]; nofun) nofun (fun _ => h.finalized (by rw [hpc]; rfl)) nofun

/-- A segment with a successor has its final records. -/
theorem Followed.frozen {a : Action} {r : Nat} (h : Followed s r) (hr : SegmentRun s)
    (hstep : step cfg s a = some s') : (s'.rings r).cells = (s.rings r).cells := by
  obtain ⟨r', -, hold⟩ := h
  exact (step_grows hr.plain.1.1 hstep hold.left).final (hr.segments.final r r' hold)

theorem Followed.back {a : Action} {r : Nat} (h : Followed s' r) (hr : SegmentRun s)
    (hw : ∀ r', r' ∈ walked s' → r' ∈ walked s) (hstep : step cfg s a = some s') :
    Followed s r := by
  obtain ⟨r', hmem, hold⟩ := h
  exact ⟨r', hw r' hmem, hold.back hr.plain.1.1 hstep (hr.walked (hw r' hmem))⟩

/-- A position outside the passes knows nothing. -/
theorem PassInv.of_pc (hpass : ∀ ctx r p, s.drain.pc ≠ .pass ctx r p)
    (hclear : ∀ i k r, s.drain.pc ≠ .clear (.poll i k) r)
    (hretire : ∀ i r k test, s.drain.pc ≠ .retire i r k test) : PassInv s := by
  unfold PassInv
  split
  next hpc => exact absurd hpc (hpass _ _ _)
  next hpc => exact absurd hpc (hclear _ _ _)
  next hpc => exact absurd hpc (hretire _ _ _ _)
  next hpc => exact absurd hpc (hpass _ _ _)
  next => trivial

theorem drain_pass (h : PassInv s) (hr : SegmentRun s) (hok : OrderOk s .drain)
    (hdel' : DeliveryInv s') (hstep : step cfg s .drain = some s') : PassInv s' := by
  have hp := hr.plain.1.1
  have hm : DrainMove cfg s s' := drainStep_move hstep
  -- what is retired stays so, with the local list as it was
  have hkeep : ∀ {r : Nat}, walked s' = walked s → (Followed s r → Retired s r) →
      Followed s' r → Retired s' r := by
    intro r hw hret hf
    obtain ⟨r', hmem, hold⟩ := hf.back hr (fun r' hmem => hw ▸ hmem) hstep
    exact (hret ⟨r', hmem, hold⟩).step hp hdel' hstep hold.left
  have hscan : syncing s'.drain.pc = true → PassInv s' := by
    intro hs
    refine .of_pc (fun _ _ _ hpc => ?_) (fun _ _ _ hpc => ?_) fun _ _ _ _ hpc => ?_
    all_goals
      rw [hpc] at hs
      cases hs
  unfold PassInv at h
  cases hm with
  | syncNext hpc hsub => exact hscan (syncNext_syncing _)
  | syncLive hpc hsub hl => exact hscan (syncDecide_syncing hpc)
  | syncDead hpc hsub => exact hscan (syncDecide_syncing hpc)
  | @mark ctx r hpc =>
    cases ctx with
    | poll i k => exact fun _ _ => trivial
    | final =>
      intro m hold
      have hback := hold.back hp hstep (hp.known r (Or.inr (Or.inr (Or.inr (by
        rw [hpc]
        exact List.mem_singleton.mpr rfl)))))
      refine Over.after ?_ hp hdel' hstep hback.left
      by_cases hknown : Known s m
      · have hhand : m ∈ atHand s := by
          unfold atHand
          rcases hknown with hin | hin | hin | hin
          · exact List.mem_append_left _ (List.mem_append_left _ hin)
          · exact List.mem_append_left _ (List.mem_append_right _ hin)
          · exact List.mem_append_right _ hin
          · rw [hpc] at hin
            rw [List.mem_singleton.mp hin] at hback
            exact absurd hback Older.irrefl
        have hfinal := hok.2
        simp only [hpc] at hfinal
        refine Or.inl (hr.drained (by rw [hpc]; rfl) hback (hfinal m hhand ?_))
        exact (precedes_iff hback.left hback.right).mpr hback
      · exact Or.inr hknown
  | @pass ctx r p p' ring' x hpc hp' hst =>
    simp only [hpc] at h
    have hreg : r ∈ s.registered := hp.known r (Or.inr (Or.inr (Or.inr (by
      rw [hpc]
      exact List.mem_singleton.mpr rfl))))
    cases ctx with
    | final =>
      intro m hold
      have hback := hold.back hp hstep hreg
      exact (h m hback).after hp hdel' hstep hback.left
    | poll i k =>
      intro hf hlt
      have hf₀ := hf.back hr (fun r' hmem => hmem) hstep
      have hlt₀ : done s r < (s.rings r).head := by
        have hhead := congrArg List.length (hf₀.frozen hr hstep)
        have hmono := done_mono hstep r
        unfold Ring.head at hlt ⊢
        omega
      have hread := (hr.plain.2 r).reader
      rw [hpc, reading_pass] at hread
      have hdue := Pass.step_due hread (h hf₀ hlt₀) (Nat.le_refl _) hlt₀ hst
      rwa [Ring.head, hf₀.frozen hr hstep]
  | @passDone ctx r hpc =>
    cases ctx with
    | final => trivial
    | poll i k =>
      simp only [hpc] at h
      refine hkeep rfl fun hf => ?_
      obtain ⟨r', hmem, hold⟩ := hf
      refine ⟨hr.segments.final r r' hold, ?_⟩
      -- a pass that owes records has not finished
      by_contra hne
      have hle := (hr.plain.2 r).done_le
      exact h ⟨r', hmem, hold⟩ (by omega)
  | @clear ctx r hpc =>
    cases ctx with
    | final =>
      refine .of_pc ?_ ?_ ?_
      all_goals
        dsimp only [drainTo_drain, afterPass]
        cases cfg.segmented <;> nofun
    | poll i k =>
      simp only [hpc] at h
      exact hkeep rfl h
  | handedOff hpc | notReserved hpc | sameSerial hpc | loadHead hpc | drained hpc =>
    simp only [hpc] at h
    exact hkeep rfl h
  | enter hpc hsh hnext => rcases hnext with rfl | ⟨-, rfl⟩ <;> trivial
  | pollDone hpc he hnext => rcases hnext with ⟨-, rfl⟩ | ⟨-, rfl⟩ <;> trivial
  | retired hpc hl hk hreg =>
    refine .of_pc ?_ ?_ ?_
    all_goals
      simp only
      cases cfg.segmented <;> nofun
  | @notRecycled ctx r hpc hrec => cases ctx <;> trivial
  | @recycle ctx r hpc => cases ctx <;> trivial
  | leave | lock | syncHalf | finalRing | finalDone | entry | stale | skip | unreserved
  | keepEntry | markRecycled | takeLines | deliver | delivered | lastPoll | worked | idleDirty
  | idleClean | lastFlush | flush | again => trivial

theorem step_pass {a : Action} (h : PassInv s) (hr : SegmentRun s) (hok : OrderOk s a)
    (hdel' : DeliveryInv s') (hstep : step cfg s a = some s') : PassInv s' := by
  by_cases ha : a = .drain
  · subst ha
    exact drain_pass h hr hok hdel' hstep
  · have hp := hr.plain.1.1
    obtain ⟨hd, hsink⟩ := step_drain_frame ha hstep
    have hback : ∀ {r : Nat}, Followed s' r → Followed s r := by
      intro r hf
      refine hf.back hr (fun r' hmem => ?_) hstep
      unfold walked at hmem ⊢
      rwa [hd] at hmem
    have hdone : ∀ r, done s' r = done s r := by
      intro r
      unfold done deliveredFrom delivered
      rw [hsink]
    unfold PassInv at h ⊢
    rw [hd]
    split
    next i k r p hpc =>
      simp only [hpc] at h
      intro hf hlt
      have hhead := (hback hf).frozen hr hstep
      unfold Ring.head at h hlt ⊢
      rw [hdone, hhead] at hlt
      rw [hhead]
      exact h (hback hf) hlt
    next i k r hpc =>
      simp only [hpc] at h
      intro hf
      obtain ⟨r', -, hold⟩ := hback hf
      exact (h (hback hf)).step hp hdel' hstep hold.left
    next i r k test hpc =>
      simp only [hpc] at h
      intro hf
      obtain ⟨r', -, hold⟩ := hback hf
      exact (h (hback hf)).step hp hdel' hstep hold.left
    next r p hpc =>
      simp only [hpc] at h
      intro m hold
      have hreg : r ∈ s.registered := hp.known r (Or.inr (Or.inr (Or.inr (by
        rw [hpc]
        exact List.mem_singleton.mpr rfl))))
      have hold₀ := hold.back hp hstep hreg
      exact (h m hold₀).after hp hdel' hstep hold₀.left
    next => trivial

theorem step_walk (hseg : cfg.segmented = true) {a : Action} (h : WalkInv s) (hr : SegmentRun s)
    (hr' : SegmentRun s') (hpass : PassInv s) (hok : OrderOk s a)
    (hstep : step cfg s a = some s') : WalkInv s' := by
  by_cases ha : a = .drain
  · subst ha
    exact drain_walk hseg h hr hpass hok hr'.plain.2 hstep
  · exact other_walk ha h hr hr' hstep

end Sys

end Ticklog
