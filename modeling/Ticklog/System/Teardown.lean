import Ticklog.System.Flush
import Ticklog.System.Holders

/-!
# Producers in `take_pooled` when the drain stops (`src/segments.rs`, `src/guard.rs`)

A producer that found the pool empty leaves the loop of `take_pooled` with a spare, or with
`None` once it reads its ring's `live` flag false; asleep on `spare_cv` it must first be
woken. `Guard::drop` marks the registered rings dead, and the drain's last sync recycles
the dead ones, which notifies the sleepers.

The flag belongs to the ring, though, and the ring may be back in the pool, claimed by
another producer and live again. `TeardownOk` is the condition under which nobody is left
behind: from the moment the guard locks the registry, no producer takes the last spare,
puts a rewound segment back into service or reserves one for helping while another is
stranded, unless the drain is bound to recycle some other segment. `Recovering` says what
the drain is bound to recycle, and carries the proof.
-/

namespace Ticklog

open Lib

namespace Sys

variable {cfg : Config} {s s' : Sys}

/-- The loop of `take_pooled`, with no helper segment in hand. -/
def inTakePooled : ThreadPc → Bool
  | .poolTake | .poolLive | .poolWait | .asleep | .woken => true
  | _ => false

/-- The `live` flag has been read and the thread waits, or is about to. -/
def pastTest : ThreadPc → Bool
  | .poolWait | .asleep => true
  | _ => false

/-- Thread `t` is in the loop of `take_pooled` with ring `r`. -/
def PooledOn (s : Sys) (t r : Nat) : Prop :=
  (s.threads t).ring = some r ∧ inTakePooled (s.threads t).pc = true

/-- With the pool empty, no access of `t`'s own makes `take_pooled` return: its ring is
live, or it does not look any more. -/
def Stranded (s : Sys) (t : Nat) : Prop :=
  ∃ r, PooledOn s t r ∧ (pastTest (s.threads t).pc = true ∨ (s.rings r).live = true)

/-! ## What the drain is bound to recycle -/

/-- The dead rings the drain has collected, and the ring it has retired. -/
def slated (d : Drain) : List Nat :=
  match d.pc with
  | .sync _ _ | .finalNext | .recycle .final _ => d.finalize
  | .mark .final r | .pass .final r _ | .clear .final r | .markRecycled .final r =>
    r :: d.finalize
  | .markRecycled (.poll _ _) r => [r]
  | _ => []

/-- The pool's own storage, not recycled since its last rewind. -/
def Returnable (s : Sys) (r : Nat) : Prop :=
  (s.rings r).recyclable = true ∧ (s.rings r).recycled = false

/-- Whatever the producers do, the drain pushes `r` to the pool. -/
def Committed (s : Sys) (r : Nat) : Prop :=
  (∃ ctx, s.drain.pc = .recycle ctx r) ∨ (Returnable s r ∧ r ∈ slated s.drain)

theorem slated_known {r : Nat} (h : r ∈ slated s.drain) : Known s r := by
  unfold slated at h
  split at h
  case h_1 => exact Or.inr (Or.inr (Or.inl h))
  case h_2 => exact Or.inr (Or.inr (Or.inl h))
  case h_3 => exact Or.inr (Or.inr (Or.inl h))
  case h_8 r' hpc =>
    refine Or.inr (Or.inr (Or.inr ?_))
    rw [hpc]
    exact h
  case h_9 => cases h
  all_goals
    next r' hpc =>
      rcases List.mem_cons.mp h with rfl | h
      · refine Or.inr (Or.inr (Or.inr ?_))
        rw [hpc]
        exact List.mem_singleton_self _
      · exact Or.inr (Or.inr (Or.inl h))

theorem Committed.known {r : Nat} (h : Committed s r) : Known s r := by
  rcases h with ⟨ctx, hpc⟩ | ⟨-, h⟩
  · refine Or.inr (Or.inr (Or.inr ?_))
    rw [hpc]
    exact List.mem_singleton_self _
  · exact slated_known h

/-- The drain will go through the registry again, or has yet to come to `r`. -/
def unscanned (d : Drain) (r : Nat) : Prop :=
  match d.pc with
  | .sync (.scanRegistry todo) _ => r ∈ todo
  | .sync _ _ => False
  | .lock => True
  | _ => d.last = false

/-- A registered segment that the drain will find dead and unreserved, unless a producer
revives or reserves it. -/
structure Awaiting (s : Sys) (r : Nat) : Prop where
  registered : r ∈ s.registry
  returnable : Returnable s r
  unreserved : (s.rings r).helperReserved = false
  dead : s.guard = .alive ∨ (s.rings r).live = false ∨ r ∈ toMark s
  unscanned : unscanned s.drain r

/-- The drain will push a segment to the pool. -/
def Recovering (s : Sys) : Prop := ∃ r, Committed s r ∨ Awaiting s r

/-- As `Recovering`, without counting on ring `r` being found dead. -/
def RecoveringBut (s : Sys) (r : Nat) : Prop := ∃ q, Committed s q ∨ (q ≠ r ∧ Awaiting s q)

/-- Nobody is stranded on an empty pool for good. -/
def Rescued (s : Sys) : Prop := s.spares = [] → ∀ t, Stranded s t → Recovering s

/-- No producer is left behind: `Guard::drop` starts with everybody rescued, and after that
a producer that takes the last spare, makes a rewound segment live or reserves its own for
helping leaves no other one stranded without a segment to come. -/
def TeardownOk (s : Sys) : Action → Prop
  | .guard => s.guard = .alive → Rescued s
  | .thread t =>
    s.guard ≠ .alive →
      match (s.threads t).pc with
      | .initRing | .takeSpare | .poolTake | .woken =>
        ∀ r, s.spares = [r] → ∀ t', t' ≠ t → Stranded s t' → Recovering s
      | .reset _ r k =>
        Ring.resetSteps ≤ k + 1 → s.spares = [] →
          ∀ t', (Stranded s t' ∨ PooledOn s t' r) → RecoveringBut s r
      | .reserveHelper =>
        s.spares = [] → ∀ r, (s.threads t).ring = some r → ∀ t', Stranded s t' → RecoveringBut s r
      | _ => True
  | _ => True

/-! ## What keeps a segment coming -/

/-- Nothing that would keep the drain from recycling a ring was raised on it. -/
structure Calm (a b : Ring) : Prop where
  live : a.live = false → b.live = false
  helperReserved : a.helperReserved = false → b.helperReserved = false
  recyclable : a.recyclable = true → b.recyclable = true
  recycled : a.recycled = false → b.recycled = false

theorem Calm.refl (a : Ring) : Calm a a := ⟨id, id, id, id⟩

/-- One ring replaced by a calm successor of itself. -/
theorem Calm.update {r : Nat} {v : Ring} (h : Calm (s.rings r) v) (q : Nat) :
    Calm (s.rings q) (Function.update s.rings r v q) := by
  by_cases hq : q = r
  · subst hq
    rw [Function.update_self]
    exact h
  · rw [Function.update_of_ne hq]
    exact .refl _

theorem Pass.step_calm {ring ring' : Ring} {p p' : Pass} {x : Option Rec}
    (h : Pass.step ring p = (p', ring', x)) : Calm ring ring' := by
  cases p with
  | loadTail | finished =>
    cases h
    exact .refl _
  | loadCache t =>
    simp only [Pass.step] at h
    split at h
    all_goals
      cases h
      exact .refl _
  | loadHead t =>
    simp only [Pass.step] at h
    split at h
    all_goals
      cases h
      exact .refl _
  | scan t hc =>
    simp only [Pass.step] at h
    repeat' split at h
    all_goals
      cases h
      exact .refl _
  | storeTail t hc =>
    cases h
    exact ⟨id, id, id, id⟩
  | storeCache hc =>
    cases h
    exact ⟨id, id, id, id⟩

/-- The stores of a rewind before the last one. -/
theorem resetStore_calm {k : Nat} (hk : k + 1 < Ring.resetSteps) {r : Ring} :
    Calm r (r.resetStore k) := by
  unfold Ring.resetSteps at hk
  match k, hk with
  | 0, _ => exact ⟨id, id, id, id⟩
  | 1, _ => exact ⟨id, id, id, id⟩
  | 2, _ => exact ⟨id, id, id, id⟩
  | 3, _ => exact ⟨id, fun _ => rfl, id, id⟩
  | 4, _ => exact ⟨id, id, id, id⟩
  | 5, _ => exact ⟨id, id, id, fun _ => rfl⟩
  | 6, _ => exact ⟨id, id, id, id⟩
  | k + 7, hk => omega

theorem Returnable.calm {r : Nat} (h : Returnable s r) (hc : Calm (s.rings r) (s'.rings r)) :
    Returnable s' r :=
  ⟨hc.recyclable h.1, hc.recycled h.2⟩

theorem Committed.keep {r : Nat} (h : Committed s r) (hd : s'.drain = s.drain)
    (hret : Returnable s r → Returnable s' r) : Committed s' r := by
  unfold Committed at *
  rw [hd]
  exact h.imp id fun h => ⟨hret h.1, h.2⟩

theorem Awaiting.keep {r : Nat} (h : Awaiting s r) (hd : s'.drain = s.drain)
    (hg : s'.guard = s.guard) (hreg : r ∈ s.registry → r ∈ s'.registry)
    (hc : Calm (s.rings r) (s'.rings r)) : Awaiting s' r where
  registered := hreg h.registered
  returnable := h.returnable.calm hc
  unreserved := hc.helperReserved h.unreserved
  dead := by
    unfold toMark
    rw [hg]
    exact h.dead.imp id (Or.imp hc.live id)
  unscanned := hd ▸ h.unscanned

/-- A step away from the drain and the guard that raises no flag of a known ring. -/
theorem Recovering.keep (h : Recovering s) (hb : Bounded s) (hd : s'.drain = s.drain)
    (hg : s'.guard = s.guard) (hreg : ∀ r, r ∈ s.registry → r ∈ s'.registry)
    (hc : ∀ r, r < s.nextRing → Calm (s.rings r) (s'.rings r)) : Recovering s' := by
  obtain ⟨r, h | h⟩ := h
  · exact ⟨r, Or.inl (h.keep hd fun hret => hret.calm (hc r (hb r (Or.inl h.known))))⟩
  · exact ⟨r, Or.inr (h.keep hd hg (hreg r) (hc r (hb r (Or.inl (Or.inl h.registered)))))⟩

/-! ## A thread's step -/

/-- Only the last store of a rewind and a reservation raise a flag of a known ring. -/
theorem thread_calm {t : Nat} (hm : ThreadMove cfg t s s') {q : Nat} (hq : q < s.nextRing)
    (hreset : ∀ why k, (s.threads t).pc = .reset why q k → k + 1 < Ring.resetSteps)
    (hhelp : (s.threads t).pc = .reserveHelper → (s.threads t).ring ≠ some q) :
    Calm (s.rings q) (s'.rings q) := by
  have hset : ∀ {r : Nat} {v : Ring}, (r = q → Calm (s.rings r) v) →
      Calm (s.rings q) (Function.update s.rings r v q) := by
    intro r v h
    by_cases hr : q = r
    · subst hr
      exact Calm.update (h rfl) q
    · rw [Function.update_of_ne hr]
      exact .refl _
  cases hm with
  | reset hpc hk => exact hset fun _ => resetStore_calm hk
  | @resetLast why r k hpc hk => exact hset fun hr => absurd (hreset why k (hr ▸ hpc)) hk
  | reserveHelper hpc hr => exact hset fun hq => absurd (hq ▸ hr) (hhelp hpc)
  | allocFirst => exact hset fun hr => absurd hr (Nat.ne_of_gt hq)
  | allocFresh => exact hset fun hr => absurd hr (Nat.ne_of_gt hq)
  | setInfo => exact hset fun _ => ⟨id, id, id, id⟩
  | register => exact hset fun _ => ⟨id, id, id, id⟩
  | publish => exact hset fun _ => ⟨id, id, id, id⟩
  | markHandedOff => exact hset fun _ => ⟨id, id, id, id⟩
  | format hpc hr hp hst => exact hset fun _ => Pass.step_calm hst
  | _ => exact .refl _

/-- A store that leaves `recyclable` and `recycled` alone. -/
theorem RecoveringBut.set {t r : Nat} {v : Ring} {pc : ThreadPc} (h : RecoveringBut s r)
    (hrecyclable : v.recyclable = (s.rings r).recyclable)
    (hrecycled : v.recycled = (s.rings r).recycled) : Recovering ((s.setRing r v).goto t pc) := by
  obtain ⟨q, h | ⟨hne, h⟩⟩ := h
  · refine ⟨q, Or.inl (h.keep rfl fun hret => ?_)⟩
    unfold Returnable at *
    rw [goto_eq, setThread_rings, setRing_rings]
    by_cases hq : q = r
    · subst hq
      rwa [Function.update_self, hrecyclable, hrecycled]
    · rwa [Function.update_of_ne hq]
  · refine ⟨q, Or.inr (h.keep rfl rfl id ?_)⟩
    rw [goto_eq, setThread_rings, setRing_rings, Function.update_of_ne hne]
    exact .refl _

/-- Away from a rewind's last store no ring that a thread has comes back to life. -/
theorem thread_live {t : Nat} (hm : ThreadMove cfg t s s') {q : Nat} (hq : q < s.nextRing)
    (hl : (s'.rings q).live = true) :
    (s.rings q).live = true ∨
      ∃ why k, (s.threads t).pc = .reset why q k ∧ ¬ k + 1 < Ring.resetSteps := by
  by_cases hreset : ∃ why k, (s.threads t).pc = .reset why q k ∧ ¬ k + 1 < Ring.resetSteps
  · exact Or.inr hreset
  · refine Or.inl ?_
    push Not at hreset
    by_cases hhelp : (s.threads t).pc = .reserveHelper ∧ (s.threads t).ring = some q
    · cases hm with
      | @reserveHelper r hpc hr =>
        rw [hr, Option.some.injEq] at hhelp
        rw [goto_eq, setThread_rings, setRing_rings, hhelp.2, Function.update_self] at hl
        exact hl
      | _ => simp_all
    · have hcalm := thread_calm hm hq hreset fun hpc hr => hhelp ⟨hpc, hr⟩
      by_contra hne
      rw [hcalm.live (Bool.eq_false_iff.mpr hne)] at hl
      cases hl

/-- Who is stranded after a thread's step was so before, or waits on a ring that the step
brought back to life. -/
theorem thread_stranded {t t' : Nat} (hb : Bounded s) (hm : ThreadMove cfg t s s')
    (hstep : step cfg s (.thread t) = some s') (hsp : s'.spares = []) (h : Stranded s' t') :
    Stranded s t' ∨ ∃ why r k, (s.threads t).pc = .reset why r k ∧
      ¬ k + 1 < Ring.resetSteps ∧ PooledOn s t' r := by
  obtain ⟨r, ⟨hr, hin⟩, hlive⟩ := h
  by_cases ht : t' = t
  · subst ht
    -- the moves that end inside the loop
    cases hm with
    | noSpare hpc hr₀ hsp₀ =>
      rw [threads_goto] at hr hin hlive
      rcases hpc with ⟨-, rfl⟩ | ⟨hpc, rfl⟩ | ⟨hpc, rfl⟩
      · cases hin
      · exact Or.inl ⟨r, ⟨hr, by rw [hpc]; rfl⟩, Or.inr (hlive.resolve_left nofun)⟩
      · exact Or.inl ⟨r, ⟨hr, by rw [hpc]; rfl⟩, Or.inr (hlive.resolve_left nofun)⟩
    | @poolLive r₀ hpc hr₀ =>
      rw [threads_goto] at hr hin
      refine Or.inl ⟨r, ⟨hr, by rw [hpc]; rfl⟩, Or.inr ?_⟩
      split at hin
      next hl =>
        rw [hr₀, Option.some.injEq] at hr
        exact hr ▸ hl
      next => cases hin
    | poolWait hpc hr₀ =>
      rw [threads_goto] at hr
      exact Or.inl ⟨r, ⟨hr, by rw [hpc]; rfl⟩, Or.inl (by rw [hpc]; rfl)⟩
    | recycle => exact absurd hsp (List.cons_ne_nil _ _)
    | formatSpin hpc =>
      rw [hpc] at hin
      cases hin
    | switch =>
      rw [threads_self] at hin
      cases hin
    | publish =>
      change inTakePooled (((s.setRing _ _).setThread t' _).threads t').pc = true at hin
      rw [threads_self] at hin
      cases hin
    | full hpc hr₀ hroom hpol =>
      rw [threads_goto] at hin
      rcases hpol with ⟨-, rfl⟩ | ⟨-, rfl⟩ | ⟨-, rfl⟩ <;> cases hin
    | spin | markHandedOff =>
      rw [threads_goto] at hin
      split at hin <;> cases hin
    | @resetLast why =>
      rw [threads_goto] at hin
      cases why <;> cases hin
    | allocFirst | allocFresh =>
      unfold alloc at hin
      rw [threads_goto] at hin
      cases hin
    | _ =>
      rw [threads_goto] at hin
      cases hin
  · have hact : (Action.thread t).actor ≠ some t' := fun h => ht (Option.some.inj h).symm
    rcases step_wakes hact hstep with hth | ⟨-, -, hne⟩
    · rw [hth] at hr hin hlive
      rcases hlive with hlive | hlive
      · exact Or.inl ⟨r, ⟨hr, hin⟩, Or.inl hlive⟩
      · have hq : r < s.nextRing := hb r (Or.inr (Or.inr ⟨t', Or.inl hr⟩))
        rcases thread_live hm hq hlive with hlive | ⟨why, k, hpc, hk⟩
        · exact Or.inl ⟨r, ⟨hr, hin⟩, Or.inr hlive⟩
        · exact Or.inr ⟨why, r, k, hpc, hk, hr, hin⟩
    · exact absurd hsp hne

theorem thread_registry {t : Nat} (hm : ThreadMove cfg t s s') {r : Nat} (h : r ∈ s.registry) :
    r ∈ s'.registry := by
  cases hm with
  | @register r₀ hpc hl =>
    change r ∈ (if r₀ ∈ s.registry then s.registry else s.registry ++ [r₀])
    split
    · exact h
    · exact List.mem_append_left _ h
  | _ => exact h

/-- The condition keeps everybody rescued through a thread's step. -/
theorem thread_rescued {t : Nat} (hok : TeardownOk s (.thread t)) (hg : s.guard ≠ .alive)
    (hb : Bounded s) (h : Rescued s) (hstep : step cfg s (.thread t) = some s') : Rescued s' := by
  intro hsp t' hst
  have hm : ThreadMove cfg t s s' := threadStep_move hstep
  obtain ⟨hd, hgu, -, -⟩ := hm.frame
  have hback := thread_stranded hb hm hstep hsp hst
  have hok := hok hg
  have hplain : (∀ why r k, (s.threads t).pc = .reset why r k → k + 1 < Ring.resetSteps) →
      Stranded s t' := by
    intro hno
    refine hback.resolve_right ?_
    rintro ⟨why, r, k, hpc, hk, -⟩
    exact hk (hno why r k hpc)
  have hcalm : s.spares = [] →
      (∀ why r k, (s.threads t).pc = .reset why r k → k + 1 < Ring.resetSteps) →
      (s.threads t).pc ≠ .reserveHelper → Recovering s' := by
    intro hsp₀ hno hhelp
    refine (h hsp₀ t' (hplain hno)).keep hb hd hgu (fun r => thread_registry hm) fun r hr => ?_
    exact thread_calm hm hr (fun why k => hno why r k) fun hpc => absurd hpc hhelp
  -- a thread that popped a segment is out of the loop itself
  have hself : ∀ {s₁ : Sys} {why : Reset} {r : Nat}, s' = s₁.goto t (.reset why r 0) →
      t' ≠ t := by
    rintro s₁ why r rfl rfl
    obtain ⟨r', ⟨-, hin⟩, -⟩ := hst
    rw [threads_goto] at hin
    cases hin
  cases hm with
  | @takeFirst r rest hpc hseg hrest =>
    simp only [hpc] at hok
    have hone : s.spares = [r] := by rw [hrest, show rest = [] from hsp]
    have hrec : Recovering s := hok r hone t' (hself rfl) (hplain (by rw [hpc]; nofun))
    exact hrec.keep hb rfl rfl (fun _ => id) fun _ _ => .refl _
  | @takeSpare r r' rest hpc hr hrest =>
    have hone : s.spares = [r'] := by rw [hrest, show rest = [] from hsp]
    rcases hpc with hpc | hpc | hpc
    all_goals
      simp only [hpc] at hok
      have hrec : Recovering s := hok r' hone t' (hself rfl) (hplain (by rw [hpc]; nofun))
      exact hrec.keep hb rfl rfl (fun _ => id) fun _ _ => .refl _
  | recycle hpc hr => exact absurd hsp (List.cons_ne_nil _ _)
  | @resetLast why r k hpc hk =>
    simp only [hpc] at hok
    have hcase : Stranded s t' ∨ PooledOn s t' r := by
      refine hback.imp id ?_
      rintro ⟨why', r', k', hpc', -, hp⟩
      rw [hpc, ThreadPc.reset.injEq] at hpc'
      exact hpc'.2.1 ▸ hp
    have hbut : RecoveringBut s r := hok (Nat.not_lt.mp hk) hsp t' hcase
    rw [resetStore_last hk]
    exact hbut.set rfl rfl
  | @reserveHelper r hpc hr =>
    simp only [hpc] at hok
    have hbut : RecoveringBut s r := hok hsp r hr t' (hplain (by rw [hpc]; nofun))
    exact hbut.set rfl rfl
  | reset hpc hk =>
    refine hcalm hsp (fun why' r' k' hpc' => ?_) (by rw [hpc]; nofun)
    rw [hpc, ThreadPc.reset.injEq] at hpc'
    exact hpc'.2.2 ▸ hk
  | noSpare hpc hr hsp₀ =>
    rcases hpc with ⟨hpc, -⟩ | ⟨hpc, -⟩ | ⟨hpc, -⟩
    all_goals exact hcalm hsp₀ (by rw [hpc]; nofun) (by rw [hpc]; nofun)
  | allocFirst hpc | setInfo hpc | register hpc | switch hpc | granted hpc | full hpc | spin hpc
  | publish hpc | markHandedOff hpc | allocFresh hpc | formatSpin hpc | formatEnter hpc
  | formatDone hpc | format hpc | pushLines hpc | poolLive hpc | poolWait hpc =>
    exact hcalm hsp (by rw [hpc]; nofun) (by rw [hpc]; nofun)

/-! ## The drain's step -/

theorem drain_returnable (hm : DrainMove cfg s s') {r : Nat} (h : Returnable s r) :
    Returnable s' r ∨ ∃ ctx, s'.drain.pc = .recycle ctx r := by
  by_cases hpush : ∃ ctx, s'.drain.pc = .recycle ctx r
  · exact Or.inr hpush
  · refine Or.inl (h.calm ⟨?_, ?_, ?_, ?_⟩)
    · exact fun hl => (drain_ring_frame hm r).live ▸ hl
    · exact fun hl => (drain_ring_frame hm r).helperReserved ▸ hl
    · exact fun hl => (drain_ring_frame hm r).recyclable ▸ hl
    · intro hl
      cases hm with
      | syncNext hpc hsub =>
        rw [(syncNext_frame _).rings]
        exact hl
      | syncLive hpc hsub hl' =>
        rw [(syncDecide_frame _ _).rings]
        exact hl
      | syncDead hpc hsub =>
        rw [(syncDecide_frame _ _).rings]
        exact hl
      | mark hpc | clear hpc =>
        rw [drainTo_rings, setRing_rings]
        refine (Calm.update ?_ r).recycled hl
        exact ⟨id, id, id, id⟩
      | pass hpc hp hst => exact (Calm.update (Pass.step_calm hst) r).recycled hl
      | @markRecycled ctx r₀ hpc h1 h2 =>
        have hne : r ≠ r₀ := fun heq => hpush ⟨ctx, by rw [heq]; rfl⟩
        rw [drainTo_rings, setRing_rings, Function.update_of_ne hne]
        exact hl
      | _ => exact hl

theorem slated_syncing {d : Drain} (h : syncing d.pc = true) : slated d = d.finalize := by
  unfold syncing at h
  unfold slated
  split at h
  next phase half hpc => rw [hpc]
  next hpc => rw [hpc]
  next => cases h

theorem syncNext_finalize (phase : SyncPhase) :
    (syncNext s phase).drain.finalize = s.drain.finalize := by
  cases phase with
  | reconcile i =>
    simp only [syncNext]
    split <;> rfl
  | scanRegistry | scanLocal | addNew | retain => rfl

theorem syncDecide_finalize (keep : Bool) (phase : SyncPhase) {r : Nat}
    (h : r ∈ s.drain.finalize) : r ∈ (syncDecide keep s phase).drain.finalize := by
  unfold syncDecide
  repeat' split
  all_goals first | exact h | exact List.mem_append_left _ h

/-- What the drain has collected it recycles. -/
theorem slated_step (hseg : cfg.segmented = true) (hstep : step cfg s .drain = some s') {r : Nat}
    (hret : Returnable s r) (h : r ∈ slated s.drain) (hsp : s'.spares = []) :
    r ∈ slated s'.drain ∨ ∃ ctx, s'.drain.pc = .recycle ctx r := by
  have hm : DrainMove cfg s s' := drainStep_move hstep
  simp only [step, drainStep] at hstep
  unfold slated at h
  split at h
  next phase half hpc =>
    refine Or.inl ?_
    simp only [hpc, Option.some.injEq] at hstep
    subst hstep
    unfold syncStep
    split
    next hsub =>
      rw [slated_syncing (syncNext_syncing _), syncNext_finalize]
      exact h
    next r₀ hsub =>
      split
      next hh =>
        rw [slated_syncing (syncDecide_syncing hpc)]
        exact syncDecide_finalize _ _ h
      next hh =>
        split
        next =>
          rw [slated_syncing (syncDecide_syncing hpc)]
          exact syncDecide_finalize _ _ h
        next => exact h
  next hpc =>
    simp only [hpc] at hstep
    split at hstep
    next r₀ rest hf =>
      cases hstep
      rw [hf] at h
      exact Or.inl h
    next hf =>
      rw [hf] at h
      cases h
  next r₀ hpc =>
    simp only [hpc, Option.some.injEq] at hstep
    subst hstep
    cases hsp
  next r₀ hpc =>
    simp only [hpc, Option.some.injEq] at hstep
    subst hstep
    exact Or.inl h
  next r₀ p hpc =>
    simp only [hpc, Option.some.injEq] at hstep
    subst hstep
    unfold passStep
    split
    all_goals exact Or.inl h
  next r₀ hpc =>
    simp only [hpc, Option.some.injEq, afterPass, hseg, if_true] at hstep
    subst hstep
    exact Or.inl h
  next r₀ hpc =>
    simp only [hpc] at hstep
    split at hstep
    next hrec =>
      cases hstep
      rcases List.mem_cons.mp h with rfl | h
      · exact Or.inr ⟨_, rfl⟩
      · exact Or.inl h
    next hrec =>
      cases hstep
      rcases List.mem_cons.mp h with rfl | h
      · rw [hret.1, hret.2] at hrec
        exact absurd rfl hrec
      · exact Or.inl h
  next i k r₀ hpc =>
    simp only [hpc] at hstep
    have heq := List.mem_singleton.mp h
    subst heq
    rw [if_pos (by rw [hret.1, hret.2]; rfl)] at hstep
    cases hstep
    exact Or.inr ⟨_, rfl⟩
  next => cases h

theorem committed_step (hseg : cfg.segmented = true) (hstep : step cfg s .drain = some s')
    {r : Nat} (h : Committed s r) (hsp : s'.spares = []) : Committed s' r := by
  rcases h with ⟨ctx, hpc⟩ | ⟨hret, hsl⟩
  · simp only [step, drainStep, hpc, Option.some.injEq] at hstep
    subst hstep
    cases hsp
  · rcases slated_step hseg hstep hret hsl hsp with hsl' | hpush
    · rcases drain_returnable (drainStep_move hstep) hret with hret' | hpush
      · exact Or.inr ⟨hret', hsl'⟩
      · exact Or.inl hpush
    · exact Or.inl hpush

/-- While the drain is outside its scans it will scan again, or it has retired the ring. -/
theorem unscanned_step (hseg : cfg.segmented = true) (hm : DrainMove cfg s s') {r : Nat}
    (hpc : ∀ phase half, s.drain.pc ≠ .sync phase half) (hreg : r ∈ s.registry)
    (hun : unscanned s.drain r) :
    (unscanned s'.drain r ∧ r ∈ s'.registry) ∨
      ∃ i k, s'.drain.pc = .markRecycled (.poll i k) r := by
  by_cases hlock : s.drain.pc = .lock
  · cases hm with
    | lock => exact Or.inl ⟨hreg, hreg⟩
    | _ => simp_all
  · have hlast : s.drain.last = false := by
      unfold unscanned at hun
      split at hun
      next hpc' => exact absurd hpc' (hpc _ _)
      next hpc' => exact absurd hpc' (hpc _ _)
      next hpc' => exact absurd hpc' hlock
      next => exact hun
    cases hm with
    | syncNext hpc' | syncHalf hpc' | syncLive hpc' | syncDead hpc' => exact absurd hpc' (hpc _ _)
    | lock hpc' => exact absurd hpc' hlock
    | leave => exact Or.inl ⟨trivial, hreg⟩
    | enter hpc' hsh hnext =>
      rcases hnext with rfl | ⟨hno, -⟩
      · exact Or.inl ⟨trivial, hreg⟩
      · rw [hseg] at hno
        cases hno
    | pollDone hpc' he hnext =>
      rcases hnext with ⟨-, rfl⟩ | ⟨-, rfl⟩
      all_goals exact Or.inl ⟨hlast, hreg⟩
    | @clear ctx r₀ hpc' =>
      simp only [drainTo_drain, afterPass, hseg, if_true]
      cases ctx
      all_goals exact Or.inl ⟨hlast, hreg⟩
    | @retired i r₀ k hpc' hl hk hr₀ =>
      simp only [hseg, if_true]
      by_cases hr : r = r₀
      · exact Or.inr ⟨i, k, by rw [hr]⟩
      · exact Or.inl ⟨hlast, List.mem_filter.mpr ⟨hreg, decide_eq_true hr⟩⟩
    | @notRecycled ctx r₀ hpc' =>
      cases ctx
      all_goals exact Or.inl ⟨hlast, hreg⟩
    | @recycle ctx r₀ hpc' =>
      cases ctx
      all_goals exact Or.inl ⟨hlast, hreg⟩
    | _ => exact Or.inl ⟨hlast, hreg⟩

/-- A dead registered segment stays in line, or the drain collects it. -/
theorem awaiting_step (ho : GuardOrder s) (hseg : cfg.segmented = true) (hg : s.guard ≠ .alive)
    (hstep : step cfg s .drain = some s') {r : Nat} (h : Awaiting s r) :
    Committed s' r ∨ Awaiting s' r := by
  have hm : DrainMove cfg s s' := drainStep_move hstep
  have hframe := drain_ring_frame hm r
  have hkeeps := drain_keeps hm
  rcases drain_returnable hm h.returnable with hret' | hpush
  case inr => exact Or.inl (Or.inl hpush)
  have hdead' : s'.guard = .alive ∨ (s'.rings r).live = false ∨ r ∈ toMark s' := by
    unfold toMark
    rw [hkeeps.guard, hframe.live]
    exact h.dead
  have hunres' : (s'.rings r).helperReserved = false := by
    rw [hframe.helperReserved]
    exact h.unreserved
  by_cases hsync : ∃ phase half, s.drain.pc = .sync phase half
  · obtain ⟨phase, half, hpc⟩ := hsync
    have hun := h.unscanned
    unfold unscanned at hun
    rw [hpc] at hun
    -- nothing is left to mark while a scan is under way
    have hdead : (s.rings r).live = false := by
      rcases h.dead with hd | hd | hd
      · exact absurd hd hg
      · exact hd
      · unfold toMark at hd
        split at hd
        next todo hmark => exact absurd hpc (ho.excluded todo hmark _ _)
        next => cases hd
    cases phase with
    | scanLocal | reconcile | addNew | retain => exact hun.elim
    | scanRegistry todo =>
      cases todo with
      | nil => cases hun
      | cons r₀ rest =>
        have hstay : r ≠ r₀ → ∀ {l : List Nat}, s'.registry = s.registry →
            s'.drain = { s.drain with
              finalize := l, pc := .sync (.scanRegistry rest) false } → Awaiting s' r := by
          intro hne l hreg hd
          refine ⟨hreg ▸ h.registered, hret', hunres', hdead', ?_⟩
          rw [hd]
          exact (List.mem_cons.mp hun).resolve_left hne
        simp only [step, drainStep, hpc, syncStep, syncSubject, List.head?_cons,
          Option.some.injEq] at hstep
        split at hstep
        next hh =>
          subst hstep
          by_cases hr : r = r₀
          · subst hr
            refine Or.inl (Or.inr ⟨hret', ?_⟩)
            simp only [syncDecide, h.unreserved, Bool.false_eq_true, if_false, slated]
            exact List.mem_append_right _ (List.mem_singleton_self _)
          · exact Or.inr (hstay hr rfl rfl)
        next hh =>
          split at hstep
          next hl =>
            subst hstep
            have hr : r ≠ r₀ := by
              rintro rfl
              rw [hdead] at hl
              cases hl
            exact Or.inr (hstay hr rfl rfl)
          next hl =>
            subst hstep
            exact Or.inr ⟨h.registered, hret', hunres', hdead', hun⟩
  · push Not at hsync
    rcases unscanned_step hseg hm hsync h.registered h.unscanned with ⟨hun, hreg⟩ | ⟨i, k, hpc'⟩
    · exact Or.inr ⟨hreg, hret', hunres', hdead', hun⟩
    · refine Or.inl (Or.inr ⟨hret', ?_⟩)
      unfold slated
      rw [hpc']
      exact List.mem_singleton_self _

/-- The drain rescues whom it can. -/
theorem drain_rescued (ho : GuardOrder s) (hseg : cfg.segmented = true) (hg : s.guard ≠ .alive)
    (h : Rescued s) (hstep : step cfg s .drain = some s') : Rescued s' := by
  intro hsp t hst
  have hm : DrainMove cfg s s' := drainStep_move hstep
  have hsp₀ : s.spares = [] := by
    refine List.eq_nil_iff_forall_not_mem.mpr fun r hr => ?_
    have hin : r ∈ s'.spares := drain_pool hm hr
    rw [hsp] at hin
    cases hin
  have hst₀ : Stranded s t := by
    obtain ⟨r, ⟨hr, hin⟩, hlive⟩ := hst
    have hact : Action.drain.actor ≠ some t := nofun
    rcases step_wakes hact hstep with hth | ⟨-, -, hne⟩
    · rw [hth] at hr hin hlive
      rw [(drain_ring_frame hm r).live] at hlive
      exact ⟨r, ⟨hr, hin⟩, hlive⟩
    · exact absurd hsp hne
  obtain ⟨r, hr | hr⟩ := h hsp₀ t hst₀
  · exact ⟨r, Or.inl (committed_step hseg hstep hr hsp)⟩
  · exact ⟨r, awaiting_step ho hseg hg hstep hr⟩

/-! ## The guard's step, and the others -/

/-- The guard touches the rings' `live` flags only, and only to clear them. -/
theorem guard_calm (hm : GuardMove s s') :
    s'.threads = s.threads ∧ s'.drain = s.drain ∧ s'.registry = s.registry ∧
      s'.spares = s.spares ∧ ∀ r, Calm (s.rings r) (s'.rings r) := by
  cases hm with
  | @mark r₀ rest hg =>
    refine ⟨rfl, rfl, rfl, rfl, fun r => ?_⟩
    change Calm (s.rings r) (Function.update s.rings r₀ _ r)
    refine Calm.update ?_ r
    exact ⟨fun _ => rfl, id, id, id⟩
  | lock | unlock | signal | joined => exact ⟨rfl, rfl, rfl, rfl, fun _ => .refl _⟩

/-- A registered ring that is dead or about to be marked stays so. -/
theorem guard_dead (hm : GuardMove s s') {r : Nat} (hreg : r ∈ s.registry)
    (h : s.guard = .alive ∨ (s.rings r).live = false ∨ r ∈ toMark s) :
    s'.guard = .alive ∨ (s'.rings r).live = false ∨ r ∈ toMark s' := by
  have hnot : ∀ {gp : GuardPc}, s.guard = gp → gp ≠ .alive → (∀ todo, gp = .marking todo →
      r ∉ todo) → (s.rings r).live = false := by
    intro gp hg hne htodo
    rcases h with h | h | h
    · exact absurd (hg ▸ h) hne
    · exact h
    · unfold toMark at h
      split at h
      next todo hg' => exact absurd h (htodo todo (hg ▸ hg'))
      next => cases h
  cases hm with
  | lock hg hl => exact Or.inr (Or.inr hreg)
  | @mark r₀ rest hg =>
    change _ ∨ (Function.update s.rings r₀ _ r).live = false ∨ r ∈ rest
    by_cases hr : r = r₀
    · subst hr
      rw [Function.update_self]
      exact Or.inr (Or.inl rfl)
    · rw [Function.update_of_ne hr]
      rcases h with h | h | h
      · rw [hg] at h
        cases h
      · exact Or.inr (Or.inl h)
      · rw [toMark_eq hg] at h
        exact Or.inr (Or.inr ((List.mem_cons.mp h).resolve_left hr))
  | unlock hg =>
    refine Or.inr (Or.inl (hnot hg nofun fun todo htodo => ?_))
    rw [← GuardPc.marking.inj htodo]
    exact List.not_mem_nil
  | signal hg => exact Or.inr (Or.inl (hnot hg nofun nofun))
  | joined hg hst => exact Or.inr (Or.inl (hnot hg nofun nofun))

theorem guard_rescued (hok : TeardownOk s .guard) (h : s.guard ≠ .alive → Rescued s)
    (hstep : step cfg s .guard = some s') : Rescued s' := by
  have hm : GuardMove s s' := guardStep_move hstep
  obtain ⟨hth, hd, hreg, hspares, hcalm⟩ := guard_calm hm
  have hres : Rescued s := by
    by_cases hg : s.guard = .alive
    · exact hok hg
    · exact h hg
  intro hsp t hst
  have hst₀ : Stranded s t := by
    obtain ⟨r, ⟨hr, hin⟩, hlive⟩ := hst
    rw [hth] at hr hin hlive
    refine ⟨r, ⟨hr, hin⟩, hlive.imp id fun hl => ?_⟩
    by_contra hne
    rw [(hcalm r).live (Bool.eq_false_iff.mpr hne)] at hl
    cases hl
  obtain ⟨r, hr | hr⟩ := hres (hspares ▸ hsp) t hst₀
  · exact ⟨r, Or.inl (hr.keep hd fun hret => hret.calm (hcalm r))⟩
  · refine ⟨r, Or.inr ⟨hreg ▸ hr.registered, hr.returnable.calm (hcalm r),
      (hcalm r).helperReserved hr.unreserved, guard_dead hm hr.registered hr.dead,
      hd ▸ hr.unscanned⟩⟩

/-- Starting a call, exiting and waking strand nobody. -/
theorem other_rescued {a : Action} (hb : Bounded s) (h : Rescued s)
    (ha : (∃ t total, a = .log t total) ∨ (∃ t, a = .exit t) ∨ ∃ t, a = .wake t)
    (hstep : step cfg s a = some s') : Rescued s' := by
  have hdone : ∀ {s₁ : Sys} {t : Nat} {th : Thread}, s' = s₁.setThread t th →
      (∀ r, Calm (s.rings r) (s₁.rings r)) → s₁.threads = s.threads → s₁.drain = s.drain →
      s₁.guard = s.guard → s₁.registry = s.registry → s₁.spares = s.spares →
      (inTakePooled th.pc = true → th.ring = (s.threads t).ring ∧ (s.threads t).pc = .asleep) →
      Rescued s' := by
    rintro s₁ t th rfl hcalm hth hd hg hreg hspares hin' hsp t' ⟨r, ⟨hr, hin⟩, hlive⟩
    have hback : (s₁.rings r).live = true → (s.rings r).live = true := by
      intro hl
      by_contra hne
      rw [(hcalm r).live (Bool.eq_false_iff.mpr hne)] at hl
      cases hl
    have hst₀ : Stranded s t' := by
      by_cases ht : t' = t
      · subst ht
        rw [threads_self] at hr hin
        obtain ⟨hring, hpc⟩ := hin' hin
        exact ⟨r, ⟨hring ▸ hr, by rw [hpc]; rfl⟩, Or.inl (by rw [hpc]; rfl)⟩
      · rw [setThread_threads, Function.update_of_ne ht, hth] at hr hin hlive
        exact ⟨r, ⟨hr, hin⟩, hlive.imp id hback⟩
    exact (h (hspares ▸ hsp) t' hst₀).keep hb hd hg (fun r hr => hreg.symm ▸ hr) fun r _ => hcalm r
  rcases ha with ⟨t, total, rfl⟩ | ⟨t, rfl⟩ | ⟨t, rfl⟩
  · obtain ⟨-, pc, hpc, heq⟩ := log_inv hstep
    refine hdone heq (fun _ => .refl _) rfl rfl rfl rfl rfl ?_
    rcases hpc with rfl | rfl <;> exact nofun
  · obtain ⟨-, ⟨r, -, heq⟩ | ⟨-, heq⟩⟩ := exit_inv hstep
    · refine hdone heq (fun q => Calm.update ?_ q) rfl rfl rfl rfl rfl nofun
      exact ⟨fun _ => rfl, id, id, id⟩
    · exact hdone heq (fun _ => .refl _) rfl rfl rfl rfl rfl nofun
  · obtain ⟨hpc, heq⟩ := wake_inv hstep
    exact hdone heq (fun _ => .refl _) rfl rfl rfl rfl rfl fun _ => ⟨rfl, hpc⟩

/-! ## Runs -/

structure TeardownInv (s : Sys) : Prop where
  bounded : Bounded s
  order : GuardOrder s
  drainMarked : DrainMarked s
  rescued : s.guard ≠ .alive → Rescued s

theorem init_teardown : TeardownInv (Sys.init cfg) :=
  ⟨init_bounded, init_order, init_drainMarked, fun hg => absurd rfl hg⟩

theorem step_teardown (hseg : cfg.segmented = true) {a : Action} (h : TeardownInv s)
    (hok : TeardownOk s a) (hstep : step cfg s a = some s') : TeardownInv s' := by
  refine ⟨step_bounded h.bounded hstep, step_order h.order hstep,
    step_drainMarked h.drainMarked hstep, fun hg' => ?_⟩
  by_cases ha : a = .guard
  · subst ha
    exact guard_rescued hok h.rescued hstep
  have hg : s.guard ≠ .alive := (step_guard_frame ha hstep).1 ▸ hg'
  have hres := h.rescued hg
  cases a with
  | thread t => exact thread_rescued hok hg h.bounded hres hstep
  | drain => exact drain_rescued h.order hseg hg hres hstep
  | guard => exact absurd rfl ha
  | log t total => exact other_rescued h.bounded hres (Or.inl ⟨t, total, rfl⟩) hstep
  | exit t => exact other_rescued h.bounded hres (Or.inr (Or.inl ⟨t, rfl⟩)) hstep
  | wake t => exact other_rescued h.bounded hres (Or.inr (Or.inr ⟨t, rfl⟩)) hstep

/-- Once the drain has stopped it recycles nothing more. -/
theorem not_recovering (hpc : s.drain.pc = .stopped) (hlast : s.drain.last = true) :
    ¬ Recovering s := by
  rintro ⟨r, (⟨ctx, h⟩ | ⟨-, h⟩) | h⟩
  · rw [hpc] at h
    cases h
  · unfold slated at h
    rw [hpc] at h
    exact absurd h List.not_mem_nil
  · have hun := h.unscanned
    unfold unscanned at hun
    rw [hpc, hlast] at hun
    cases hun

/-- From the test of a dead ring's flag. -/
theorem poolLive_none {t r : Nat} (hpc : (s.threads t).pc = .poolLive)
    (hr : (s.threads t).ring = some r) (hdead : (s.rings r).live = false) :
    (system cfg).run s [.thread t] = some (s.goto t .idle) := by
  have hlive : (system cfg).step s (.thread t) = some (s.goto t .idle) := by
    simp [system, step, threadStep, hpc, hr, threadRingStep, hdead]
  exact Machine.run_cons hlive rfl

/-- From the pop before it. -/
theorem poolTake_none {t r : Nat} (hpc : (s.threads t).pc = .poolTake)
    (hr : (s.threads t).ring = some r) (hsp : s.spares = []) (hdead : (s.rings r).live = false) :
    (system cfg).run s [.thread t, .thread t] = some ((s.goto t .poolLive).goto t .idle) := by
  have hpop : (system cfg).step s (.thread t) = some (s.goto t .poolLive) := by
    simp [system, step, threadStep, hpc, hr, threadRingStep, popSpare, hsp]
  refine Machine.run_cons hpop (poolLive_none ?_ ?_ hdead)
  · rw [threads_goto]
  · rw [threads_goto]
    exact hr

/-- From the wakeup before that. -/
theorem woken_none {t r : Nat} (hpc : (s.threads t).pc = .woken)
    (hr : (s.threads t).ring = some r) (hsp : s.spares = []) (hdead : (s.rings r).live = false) :
    (system cfg).run s [.thread t, .thread t, .thread t]
      = some (((s.goto t .poolTake).goto t .poolLive).goto t .idle) := by
  have hpop : (system cfg).step s (.thread t) = some (s.goto t .poolTake) := by
    simp [system, step, threadStep, hpc, hr, threadRingStep, popSpare, hsp]
  refine Machine.run_cons hpop (poolTake_none ?_ ?_ hsp hdead)
  · rw [threads_goto]
  · rw [threads_goto]
    exact hr

/-- In the loop of `take_pooled` with a dead ring and the pool empty, a thread that still
looks at `live` returns `None`. -/
theorem returns_none {t r : Nat} (hsp : s.spares = []) (hon : PooledOn s t r)
    (hpast : pastTest (s.threads t).pc = false) (hdead : (s.rings r).live = false) :
    ∃ n s', n ≤ 3 ∧ (system cfg).run s (List.replicate n (.thread t)) = some s' ∧
      (s'.threads t).pc = .idle := by
  obtain ⟨hr, hin⟩ := hon
  cases hpc : (s.threads t).pc with
  | poolLive => exact ⟨1, _, by omega, poolLive_none hpc hr hdead, by rw [threads_goto]⟩
  | poolTake => exact ⟨2, _, by omega, poolTake_none hpc hr hsp hdead, by rw [threads_goto]⟩
  | woken => exact ⟨3, _, by omega, woken_none hpc hr hsp hdead, by rw [threads_goto]⟩
  | poolWait | asleep =>
    rw [hpc] at hpast
    cases hpast
  | _ =>
    rw [hpc] at hin
    cases hin

/-- Nobody is left in `take_pooled` on an empty pool: whoever is there reads `live` false,
does not sleep, and gets `None` by its own next accesses; and no helper waits for a pass. -/
def Released (cfg : Config) (s : Sys) : Prop :=
  ∀ t r, (s.threads t).ring = some r →
    ((s.threads t).pc = .formatWait → (s.rings r).draining = false) ∧
    (s.spares = [] → inTakePooled (s.threads t).pc = true →
      (s.rings r).live = false ∧ pastTest (s.threads t).pc = false ∧
      ∃ n s', n ≤ 3 ∧ (system cfg).run s (List.replicate n (.thread t)) = some s' ∧
        (s'.threads t).pc = .idle)

/-- **Teardown.** In every run that keeps `TeardownOk`, nobody is left in `take_pooled` once
the drain has stopped. -/
theorem teardown_releases (cfg : Config) (hpol : cfg.policy = .nanoLog) :
    ∀ s, (system cfg).Runs TeardownOk (Sys.init cfg) s → s.drain.pc = .stopped →
      Released cfg s := by
  intro s h hstop
  have hseg := Config.segmented_of_nanoLog hpol
  have hinv : TeardownInv s :=
    h.invariant (fun s a s' hi hok hst => step_teardown hseg hi hok hst) init_teardown
  have hlast := hinv.order.stopped hstop
  have hguard : s.guard ≠ .alive := by
    intro hg
    rw [hinv.order.running hg] at hlast
    cases hlast
  intro t r hr
  refine ⟨fun _ => ?_, fun hsp hin => ?_⟩
  · refine Bool.eq_false_iff.mpr fun hd => ?_
    obtain ⟨ctx, hpc | ⟨p, hpc⟩⟩ := hinv.drainMarked r hd
    all_goals
      rw [hstop] at hpc
      cases hpc
  · have hno : ¬ Stranded s t := fun hst =>
      not_recovering hstop hlast (hinv.rescued hguard hsp t hst)
    have hdead : (s.rings r).live = false :=
      Bool.eq_false_iff.mpr fun hl => hno ⟨r, ⟨hr, hin⟩, Or.inr hl⟩
    have hpast : pastTest (s.threads t).pc = false :=
      Bool.eq_false_iff.mpr fun hp => hno ⟨r, ⟨hr, hin⟩, Or.inl hp⟩
    exact ⟨hdead, hpast, returns_none hsp ⟨hr, hin⟩ hpast hdead⟩

/-- A pool of one small segment. -/
def onePool : Config := { smallConfig .nanoLog with poolSize := 1 }

/-- Thread `t`'s first log call on a pool segment, up to its publication. -/
def firstPooled (t total : Nat) : List Action := .log t total :: List.replicate 14 (.thread t)

/-- Thread 0 fills its segment twice over and formats and recycles it. -/
def helpFirst : List Action :=
  firstPooled 0 64 ++ .log 0 64 :: List.replicate 23 (.thread 0)

/-- No step after the guard's lock that `TeardownOk` asks anything of. -/
def Unguarded (s : Sys) : Action → Prop
  | .guard => s.guard ≠ .alive
  | .thread t => s.guard = .alive ∨ (s.threads t).pc = .reserve ∨ (s.threads t).pc = .publish ∨
      (s.threads t).pc = .markHandedOff
  | _ => True

instance (s : Sys) (a : Action) : Decidable (Unguarded s a) :=
  match a with
  | .guard => inferInstanceAs (Decidable (s.guard ≠ .alive))
  | .thread _ => inferInstanceAs (Decidable (_ ∨ _))
  | .log _ _ | .wake _ | .exit _ | .drain => inferInstanceAs (Decidable True)

theorem Unguarded.ok {a : Action} (h : Unguarded s a) : TeardownOk s a := by
  cases a with
  | guard => exact fun hg => absurd hg h
  | thread t =>
    intro hg
    rcases h with h | h | h | h
    · exact absurd h hg
    · simp only [h]
    · simp only [h]
    · simp only [h]
  | log | exit | wake | drain => trivial

/-- Thread 1 claims the segment thread 0 recycled, and thread 0 is about to test `live`. -/
def claimed : List Action := helpFirst ++ firstPooled 1 64 ++ [.thread 0]

/-- From the guard's lock on: the drain recycles the dead segment and stops, and thread 1
fills it once more and hands it off. -/
def handedBack : List Action :=
  List.replicate 3 .guard ++ List.replicate 33 .drain ++
    .log 1 64 :: List.replicate 2 (.thread 1) ++ .log 1 64 :: List.replicate 2 (.thread 1)

/-- The guard is dropped while thread 0 is about to test `live`; thread 1 takes the segment
the drain gave back, and thread 0 gets `None`. -/
theorem teardown_releases_marked :
    ∃ s, (system onePool).Runs TeardownOk (Sys.init onePool) s ∧ s.drain.pc = .stopped ∧
      s.spares = [] ∧ (s.threads 0).pc = .poolLive ∧ Released onePool s := by
  have hclaim : ((system onePool).runWhile Unguarded (Sys.init onePool) claimed).map
      (fun s => (s.guard, s.drain.pc, s.drain.last, s.registry, s.rings 0))
      = some (.alive, .top, false, [0], { Ring.fresh true with
          cells := [⟨1, 0, 0, 64⟩], stale := [⟨0, 0, 0, 64⟩], threadId := 1, serial := 1 }) := by
    decide +kernel
  obtain ⟨s₁, hs₁, hclaim⟩ := Option.map_eq_some_iff.mp hclaim
  simp only [Prod.mk.injEq] at hclaim
  obtain ⟨halive, htop, hlast, hreg, hring⟩ := hclaim
  have hok₁ : TeardownOk s₁ .guard := by
    intro _ _ _ _
    refine ⟨0, Or.inr ⟨by rw [hreg]; exact List.mem_singleton_self _, ?_, ?_, Or.inl halive, ?_⟩⟩
    · unfold Returnable
      rw [hring]
      exact ⟨rfl, rfl⟩
    · rw [hring]
      rfl
    · unfold unscanned
      rw [htop]
      exact hlast
  have hhand : ((((system onePool).runWhile Unguarded (Sys.init onePool) claimed).bind
      fun s => (system onePool).step s .guard).bind fun s =>
        (system onePool).runWhile Unguarded s handedBack).map
          (fun s => (((s.threads 0).pc, (s.threads 0).ring, (s.rings 0).live),
            ((s.threads 1).pc, s.spares)))
      = some ((.poolLive, some 0, false), (.takeSpare, [0])) := by decide +kernel
  have hlaststep : ((((system onePool).runWhile Unguarded (Sys.init onePool) claimed).bind
      fun s => (system onePool).step s .guard).bind fun s =>
        (system onePool).runWhile Unguarded s handedBack).bind
          (fun s => ((system onePool).step s (.thread 1)).map fun s =>
            (s.drain.pc, s.spares, (s.threads 0).pc))
      = some (.stopped, [], .poolLive) := by decide +kernel
  obtain ⟨s₃, hs₃, hhand⟩ := Option.map_eq_some_iff.mp hhand
  rw [hs₃, Option.bind_some] at hlaststep
  simp only [Prod.mk.injEq] at hhand
  obtain ⟨⟨hpc₀, hr₀, hdead⟩, hpc₁, hsp⟩ := hhand
  obtain ⟨s₂, hs₂, hs₃⟩ := Option.bind_eq_some_iff.mp hs₃
  rw [hs₁, Option.bind_some] at hs₂
  obtain ⟨s, hs, hend⟩ := Option.map_eq_some_iff.mp hlaststep
  simp only [Prod.mk.injEq] at hend
  obtain ⟨hstop, hempty, hpc⟩ := hend
  have hidle : ∀ t, t ≠ 0 → t ≠ 1 → s₃.threads t = Thread.new := by
    intro t h₀ h₁
    have hrun := Machine.run_append (Machine.runWhile_run hs₁) (.guard :: handedBack)
    rw [Machine.run_cons hs₂ (Machine.runWhile_run hs₃)] at hrun
    have hnew : ((Sys.init onePool).threads t).pc ≠ .asleep := nofun
    refine run_others (fun a ha hact => ?_) hnew hrun
    have hwho : ∀ a, a ∈ claimed ++ .guard :: handedBack →
        a.actor = some 0 ∨ a.actor = some 1 ∨ a.actor = none := by decide
    rcases hwho a ha with hw | hw | hw
    all_goals
      rw [hact] at hw
    · exact h₀ (Option.some.inj hw)
    · exact h₁ (Option.some.inj hw)
    · cases hw
  have hok₃ : TeardownOk s₃ (.thread 1) := by
    intro _
    simp only [hpc₁]
    rintro r - t hne ⟨r', ⟨hr', hin⟩, hlive⟩
    by_cases ht : t = 0
    · subst ht
      rw [hr₀, Option.some.injEq] at hr'
      subst hr'
      rw [hpc₀, hdead] at hlive
      rcases hlive with hlive | hlive <;> cases hlive
    · rw [hidle t ht hne] at hr'
      cases hr'
  have hruns : (system onePool).Runs TeardownOk (Sys.init onePool) s :=
    Machine.Runs.trans ((Machine.runWhile_runs hs₁).mono fun _ _ => Unguarded.ok)
      (Machine.Runs.trans (.single hok₁ hs₂)
        (Machine.Runs.trans ((Machine.runWhile_runs hs₃).mono fun _ _ => Unguarded.ok)
          (.single hok₃ hs)))
  exact ⟨s, hruns, hstop, hempty, hpc, teardown_releases onePool rfl s hruns hstop⟩

/-- Thread 1 claims the segment thread 0 recycled; thread 0 reads `live` and sleeps. The
guard marks the segment before thread 1's rewind makes it live again, so the drain leaves it
where it is: thread 0 sleeps on for ever. -/
theorem teardown_strands :
    ¬ ∀ s, (system onePool).Reach (Sys.init onePool) s → s.drain.pc = .stopped →
      Released onePool s := by
  intro hall
  have hend : ((system onePool).run (Sys.init onePool) (helpFirst ++ [.log 1 64, .thread 1] ++
      List.replicate 3 (.thread 0) ++ List.replicate 4 .guard ++ List.replicate 13 (.thread 1) ++
      List.replicate 30 .drain)).map
        (fun s => (s.drain.pc, s.spares, (s.threads 0).pc, (s.threads 0).ring))
      = some (.stopped, [], .asleep, some 0) := by decide +kernel
  obtain ⟨s, hs, hend⟩ := Option.map_eq_some_iff.mp hend
  simp only [Prod.mk.injEq] at hend
  obtain ⟨hstop, hsp, hpc, hr⟩ := hend
  have hpast := ((hall s (Machine.run_runs hs) hstop 0 0 hr).2 hsp (by rw [hpc]; rfl)).2.1
  rw [hpc] at hpast
  cases hpast

end Sys

end Ticklog
