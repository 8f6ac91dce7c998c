import Ticklog.System.Ownership
import Ticklog.System.Retire

/-!
# Segments between their producer, the pool and the drain (`src/segments.rs`, `src/drain.rs`)

The ownership invariant of the pool: a segment in the pool is there once and nobody's, and a
segment has one holder at most. Two parties give segments back, the drain after retiring
one and a producer after helping, and neither asks the other: `OwnOk` lists the accesses
that must not meet for the invariant to survive. A producer reserves its handed-off segment
only while the drain has neither retired it nor come so far in `maybe_retire` that it will;
the drain's test of the reservation does not read the `false` that a helper's own rewind has
just stored; and no producer's segment is marked dead under its feet.
-/

namespace Ticklog

open Lib

namespace Sys

variable {cfg : Config} {s s' : Sys}

/-! ## The condition -/

/-- The drain has seen ring `r` handed off and unreserved and is on its way to retire it. -/
def Retiring (s : Sys) (r : Nat) : Prop :=
  match s.drain.pc with
  | .retire _ r' k .serial | .retire _ r' k .head | .retire _ r' k (.tail _)
  | .retire _ r' k .locked => r' = r ∧ (s.rings r).serial = k
  | _ => False

/-- The thread is about to leave its current ring for another. -/
def leaving : ThreadPc → Bool
  | .reset .initial _ _ | .reset .handoff _ _ | .setInfo _ | .register _ | .switch _ => true
  | _ => false

/-- No two parties work on one pooled segment without knowing. -/
def OwnOk (s : Sys) : Action → Prop
  | .thread t =>
    match (s.threads t).pc with
    | .reserveHelper =>
      ∀ r, (s.threads t).ring = some r → (s.rings r).recyclable = true →
        r ∈ s.registry ∧ (s.rings r).threadId = t ∧ ¬ Retiring s r
    | .poolLive => ∀ r, (s.threads t).ring = some r → (s.rings r).live = true
    | _ => True
  | .drain =>
    match s.drain.pc with
    | .retire _ r k .reserved =>
      (s.rings r).recyclable = true → r ∈ s.registry → (s.rings r).serial = k →
        (s.rings r).helperReserved = false →
          r ∉ s.spares ∧ ∀ t, inHand (s.threads t).pc ≠ some r ∧
            ¬ ((s.threads t).pc = .recycle ∧ (s.threads t).ring = some r)
    | _ => True
  | .guard =>
    match s.guard with
    | .marking (r :: _) =>
      (s.rings r).recyclable = true → r ∉ s.spares ∧ ∀ t, inHand (s.threads t).pc ≠ some r ∧
        ((s.threads t).ring = some r → leaving (s.threads t).pc = true)
    | _ => True
  | _ => True

/-! ## The producers' side -/

/-- A pooled segment's flag: nobody has marked it dead. -/
def LiveIf (s : Sys) (r : Nat) : Prop :=
  (s.rings r).recyclable = true → (s.rings r).live = true

/-- What a thread's position says about the ring it works on. -/
def Fit (s : Sys) (t : Nat) : Prop :=
  match (s.threads t).pc with
  | .reset .helper r k =>
    (s.threads t).ring = some r ∧ (k ≤ 3 → (s.rings r).helperReserved = true) ∧
      (7 ≤ k → (s.rings r).handedOff = false) ∧ LiveIf s r
  | .reset _ r k => 7 ≤ k → (s.rings r).handedOff = false
  | .setInfo r => (s.rings r).handedOff = false ∧ LiveIf s r
  | .register r | .switch r =>
    (s.rings r).threadId = t ∧ (s.rings r).handedOff = false ∧ LiveIf s r
  | .idle | .reserve | .spin | .publish | .markHandedOff =>
    ∀ r, (s.threads t).ring = some r →
      (s.rings r).threadId = t ∧ (s.rings r).handedOff = false ∧ LiveIf s r
  | .formatWait | .format _ _ | .pushLines _ =>
    ∀ r, (s.threads t).ring = some r → (s.rings r).helperReserved = true ∧ LiveIf s r
  | .recycle => ∀ r, (s.threads t).ring = some r → LiveIf s r
  | .takeSpare | .reserveHelper =>
    -- as long as the registry has this very incarnation, it is nobody else's
    ∀ r, (s.threads t).ring = some r → (s.rings r).recyclable = true → r ∈ s.registry →
      (s.rings r).threadId = t → Free s r ∧ (s.rings r).live = true
  | _ => True

/-- The pool and the threads. -/
structure HoldInv (s : Sys) : Prop where
  bounded : Bounded s
  nodup : s.spares.Nodup
  pooled : ∀ r, r ∈ s.spares → ∀ t, ¬ Holds s t r
  alone : ∀ r t t', Holds s t r → Holds s t' r → t = t'
  fit : ∀ t, Fit s t

theorem HoldInv.helpersOwn (h : HoldInv s) : HelpersOwn s := by
  intro t r k hpc
  have hf := h.fit t
  unfold Fit at hf
  simp only [hpc] at hf
  exact hf.1

/-- Whoever reserves a pooled segment under the condition finds it free and live. -/
theorem HoldInv.reserve (h : HoldInv s) {t r : Nat} (hok : OwnOk s (.thread t))
    (hpc : (s.threads t).pc = .reserveHelper) (hr : (s.threads t).ring = some r)
    (hrec : (s.rings r).recyclable = true) :
    Free s r ∧ (s.rings r).live = true ∧ r ∈ s.registry ∧ (s.rings r).threadId = t ∧
      ¬ Retiring s r := by
  unfold OwnOk at hok
  simp only [hpc] at hok
  obtain ⟨hreg, hid, hno⟩ := hok r hr hrec
  have hf := h.fit t
  unfold Fit at hf
  simp only [hpc] at hf
  obtain ⟨hfree, hlive⟩ := hf r hr hrec hreg hid
  exact ⟨hfree, hlive, hreg, hid, hno⟩

/-- What its holder relies on stays as it is. -/
structure Undisturbed (a b : Ring) : Prop where
  threadId : b.threadId = a.threadId
  handedOff : b.handedOff = a.handedOff
  helperReserved : b.helperReserved = a.helperReserved
  recyclable : b.recyclable = a.recyclable
  live : a.recyclable = true → b.live = a.live

theorem Undisturbed.refl (a : Ring) : Undisturbed a a := ⟨rfl, rfl, rfl, rfl, fun _ => rfl⟩

theorem LiveIf.of_undisturbed {r : Nat} (h : LiveIf s r)
    (hu : Undisturbed (s.rings r) (s'.rings r)) : LiveIf s' r := by
  intro hrec
  rw [hu.recyclable] at hrec
  rw [hu.live hrec]
  exact h hrec

/-- No other thread writes what a thread holds. -/
theorem held_same (h : HoldInv s) {a : Action} (hok : OwnOk s a) (ha : a ≠ .drain)
    (hg : a ≠ .guard) (hstep : step cfg s a = some s') {t r : Nat} (hact : a.actor ≠ some t)
    (hold : Holds s t r) : s'.rings r = s.rings r := by
  have hne : ∀ {t'}, a = .thread t' → Holds s t' r → False := by
    rintro t' rfl hold'
    exact hact (congrArg some (h.alone r t' t hold' hold))
  have hcur : ∀ {t'}, a = .thread t' → (s.threads t').ring = some r →
      (writing (s.threads t').pc = true ∨ helping (s.threads t').pc = true) → False := by
    intro t' ha hr hpc
    exact hne ha (Or.inl ⟨hr, hpc.imp id Or.inl⟩)
  have hw := step_writes ha hstep (h.bounded r hold.inUse)
  generalize s'.rings r = v at hw ⊢
  cases hw with
  | same => rfl
  | reset hpc => exact (hne rfl (Or.inr (by rw [hpc]; rfl))).elim
  | setInfo hpc => exact (hne rfl (Or.inr (by rw [hpc]; rfl))).elim
  | register hpc => exact (hne rfl (Or.inr (by rw [hpc]; rfl))).elim
  | publish hpc hr => exact (hcur rfl hr (Or.inl (by rw [hpc]; rfl))).elim
  | markHandedOff hpc hr => exact (hcur rfl hr (Or.inl (by rw [hpc]; rfl))).elim
  | format hpc hr => exact (hcur rfl hr (Or.inr (by rw [hpc]; rfl))).elim
  | @reserveHelper t' hpc hr =>
    refine (hne rfl ?_).elim
    cases hrec : (s.rings r).recyclable with
    | true => exact absurd hold ((h.reserve hok hpc hr hrec).1.2 t)
    | false => exact Or.inl ⟨hr, Or.inr (Or.inr ⟨by rw [hpc]; rfl, hrec⟩)⟩
  | @exit t' hw => exact absurd (congrArg some (h.alone r t' t hw.holds hold)) hact
  | mark => exact absurd rfl hg

/-- Nobody touches what another thread holds. -/
theorem held_undisturbed (h : HoldInv s) {a : Action} (hok : OwnOk s a)
    (hstep : step cfg s a = some s') {t r : Nat} (hact : a.actor ≠ some t) (hold : Holds s t r) :
    Undisturbed (s.rings r) (s'.rings r) := by
  by_cases ha : a = .drain
  · subst ha
    have hf := drain_ring_frame (drainStep_move hstep) r
    exact ⟨hf.threadId, hf.handedOff, hf.helperReserved, hf.recyclable, fun _ => hf.live⟩
  by_cases hg : a = .guard
  · subst hg
    have hw := step_writes ha hstep (h.bounded r hold.inUse)
    generalize s'.rings r = v at hw ⊢
    cases hw with
    | same => exact .refl _
    | mark hg =>
      refine ⟨rfl, rfl, rfl, rfl, fun hrec => ?_⟩
      unfold OwnOk at hok
      simp only [hg] at hok
      obtain ⟨hin, hleave⟩ := (hok hrec).2 t
      rcases hold with ⟨hr, hpc⟩ | hr
      · have hl := hleave hr
        cases hpc' : (s.threads t).pc <;>
          simp_all [leaving, writing, helping, offering]
      · exact absurd hr hin
  · rw [held_same h hok ha hg hstep hact hold]
    exact .refl _

/-- What the producers' side needs of the drain. -/
structure DrainFair (s : Sys) : Prop where
  /-- A segment on its way to the pool has left the registry and is free. -/
  pushed : ∀ ctx r, s.drain.pc = .recycle ctx r → r ∉ s.registry ∧ Free s r
  /-- `retain` keeps registered rings. -/
  kept : ∀ todo kept half, s.drain.pc = .sync (.retain todo kept) half →
    ∀ r, r ∈ kept ++ todo → r ∈ s.registry

/-- A ring comes into the registry by `register_ring` only. -/
theorem step_registry_mem {a : Action} (hd : DrainFair s) (hstep : step cfg s a = some s')
    {r : Nat} (h : r ∈ s'.registry) :
    r ∈ s.registry ∨ ∃ t, a = .thread t ∧ (s.threads t).pc = .register r := by
  cases a with
  | log t total =>
    obtain ⟨-, pc, -, rfl⟩ := log_inv hstep
    exact Or.inl h
  | exit t =>
    obtain ⟨-, ⟨r, -, rfl⟩ | ⟨-, rfl⟩⟩ := exit_inv hstep
    · exact Or.inl h
    · exact Or.inl h
  | wake t =>
    obtain ⟨-, rfl⟩ := wake_inv hstep
    exact Or.inl h
  | guard =>
    have hm : GuardMove s s' := guardStep_move hstep
    cases hm <;> exact Or.inl h
  | thread t =>
    have hm : ThreadMove cfg t s s' := threadStep_move hstep
    cases hm with
    | @register r₀ hpc hl =>
      change r ∈ (if r₀ ∈ s.registry then s.registry else s.registry ++ [r₀]) at h
      split at h
      · exact Or.inl h
      · rcases List.mem_append.mp h with h | h
        · exact Or.inl h
        · exact Or.inr ⟨t, rfl, (List.mem_singleton.mp h).symm ▸ hpc⟩
    | _ => exact Or.inl h
  | drain =>
    refine Or.inl ?_
    have hm : DrainMove cfg s s' := drainStep_move hstep
    cases hm with
    | @syncNext phase half hpc hsub =>
      cases phase with
      | retain todo kept => exact hd.kept _ _ _ hpc r (List.mem_append_left _ h)
      | reconcile i =>
        simp only [syncNext] at h
        split at h <;> exact h
      | scanRegistry | scanLocal | addNew => exact h
    | syncLive hpc hsub hl =>
      unfold syncDecide at h
      repeat' split at h
      all_goals exact h
    | syncDead hpc hsub =>
      unfold syncDecide at h
      repeat' split at h
      all_goals exact h
    | retired => exact List.mem_of_mem_filter h
    | _ => exact h

theorem Fit.offered {t r : Nat} (h : Fit s t) (hpc : offering (s.threads t).pc = true)
    (hr : (s.threads t).ring = some r) (hrec : (s.rings r).recyclable = true)
    (hreg : r ∈ s.registry) (hid : (s.rings r).threadId = t) :
    Free s r ∧ (s.rings r).live = true := by
  unfold Fit at h
  cases hpc' : (s.threads t).pc with
  | takeSpare | reserveHelper =>
    simp only [hpc'] at h
    exact h r hr hrec hreg hid
  | _ =>
    rw [hpc'] at hpc
    cases hpc

/-- A handed-off segment whose producer may yet reserve it is left alone until the drain
retires it. -/
theorem offered_step (h : HoldInv s) (hd : DrainFair s) {a : Action} (hok : OwnOk s a)
    (hstep : step cfg s a = some s') {t r : Nat} (hact : a.actor ≠ some t)
    (hpc : offering (s.threads t).pc = true) (hr : (s.threads t).ring = some r)
    (hrec : (s.rings r).recyclable = true) (hreg : r ∈ s'.registry)
    (hid : (s'.rings r).threadId = t) : Free s' r ∧ (s'.rings r).live = true := by
  have hlt : r < s.nextRing := h.bounded r (Or.inr (Or.inr ⟨t, Or.inl hr⟩))
  have hnot : ∀ {t'}, a = .thread t' → t' ≠ t := by
    rintro t' rfl rfl
    exact hact rfl
  -- the incarnation is the one that was there before
  have hid₀ : (s.rings r).threadId = t := by
    rcases step_threadId hstep hlt with heq | ⟨t', ha, -, heq⟩
    · rw [← heq, hid]
    · exact absurd (heq.symm.trans hid) (hnot ha)
  have hreg₀ : r ∈ s.registry := by
    rcases step_registry_mem hd hstep hreg with hreg | ⟨t', ha, hpc'⟩
    · exact hreg
    · have hf := h.fit t'
      unfold Fit at hf
      simp only [hpc'] at hf
      exact absurd (hf.1.symm.trans hid₀) (hnot ha)
  obtain ⟨hfree, hlive⟩ := (h.fit t).offered hpc hr hrec hreg₀ hid₀
  refine ⟨hfree.step h.bounded h.helpersOwn hstep hlt (fun t' ha hr' => ⟨fun hpc' => ?_,
    fun hpc' => ?_⟩) fun _ ctx hpc' => (hd.pushed ctx r hpc').1 hreg₀, ?_⟩
  · -- another producer's stale reservation
    subst ha
    have hid' := (h.reserve hok hpc' hr' hrec).2.2.2.1
    exact hnot rfl (hid'.symm.trans hid₀)
  · subst ha
    unfold OwnOk at hok
    simp only [hpc'] at hok
    exact hok r hr'
  · by_contra hdead
    rcases step_dies hstep hlt (Bool.eq_false_iff.mpr hdead) with hdead | ⟨t', -, hw⟩ |
      ⟨ha, rest, hg⟩
    · rw [hlive] at hdead
      cases hdead
    · exact hfree.2 t' hw.holds
    · subst ha
      unfold OwnOk at hok
      simp only [hg] at hok
      have hleave := ((hok hrec).2 t).2 hr
      cases hpc' : (s.threads t).pc with
      | takeSpare | reserveHelper =>
        rw [hpc'] at hleave
        cases hleave
      | _ =>
        rw [hpc'] at hpc
        cases hpc

/-- Other agents leave a thread's position right. -/
theorem fit_others (h : HoldInv s) (hd : DrainFair s) {a : Action} (hok : OwnOk s a)
    (hstep : step cfg s a = some s') {t : Nat} (hact : a.actor ≠ some t) : Fit s' t := by
  rcases step_wakes hact hstep with hth | ⟨-, hth, -⟩
  case inr =>
    unfold Fit
    rw [hth]
    trivial
  have hf := h.fit t
  have hhand : ∀ {r}, inHand (s.threads t).pc = some r →
      Undisturbed (s.rings r) (s'.rings r) := fun hr =>
    held_undisturbed h hok hstep hact (Or.inr hr)
  have hcur : ∀ {r}, (s.threads t).ring = some r →
      (writing (s.threads t).pc = true ∨ helping (s.threads t).pc = true) →
      Undisturbed (s.rings r) (s'.rings r) := fun hr hpc =>
    held_undisturbed h hok hstep hact (Or.inl ⟨hr, hpc.imp id Or.inl⟩)
  unfold Fit at hf ⊢
  rw [hth]
  cases hpc : (s.threads t).pc with
  | reset why r k =>
    have hu := hhand (r := r) (by rw [hpc]; rfl)
    simp only [hpc] at hf
    cases why with
    | helper =>
      refine ⟨hf.1, fun hk => ?_, fun hk => ?_, hf.2.2.2.of_undisturbed hu⟩
      · rw [hu.helperReserved]
        exact hf.2.1 hk
      · rw [hu.handedOff]
        exact hf.2.2.1 hk
    | initial | handoff =>
      intro hk
      rw [hu.handedOff]
      exact hf hk
  | setInfo r =>
    have hu := hhand (r := r) (by rw [hpc]; rfl)
    simp only [hpc] at hf
    exact ⟨hu.handedOff.trans hf.1, hf.2.of_undisturbed hu⟩
  | register r | switch r =>
    have hu := hhand (r := r) (by rw [hpc]; rfl)
    simp only [hpc] at hf
    exact ⟨hu.threadId.trans hf.1, hu.handedOff.trans hf.2.1, hf.2.2.of_undisturbed hu⟩
  | idle | reserve | spin | publish | markHandedOff =>
    intro r hr
    have hu := hcur hr (Or.inl (by rw [hpc]; rfl))
    simp only [hpc] at hf
    obtain ⟨h₁, h₂, h₃⟩ := hf r hr
    exact ⟨hu.threadId.trans h₁, hu.handedOff.trans h₂, h₃.of_undisturbed hu⟩
  | formatWait | format | pushLines =>
    intro r hr
    have hu := hcur hr (Or.inr (by rw [hpc]; rfl))
    simp only [hpc] at hf
    obtain ⟨h₁, h₂⟩ := hf r hr
    exact ⟨hu.helperReserved.trans h₁, h₂.of_undisturbed hu⟩
  | recycle =>
    intro r hr
    have hu := hcur hr (Or.inr (by rw [hpc]; rfl))
    simp only [hpc] at hf
    exact (hf r hr).of_undisturbed hu
  | takeSpare | reserveHelper =>
    intro r hr hrec hreg hid
    have hlt : r < s.nextRing := h.bounded r (Or.inr (Or.inr ⟨t, Or.inl hr⟩))
    rw [step_recyclable hstep hlt] at hrec
    exact offered_step h hd hok hstep hact (by rw [hpc]; rfl) hr hrec hreg hid
  | initRing | allocFresh | poolTake | poolLive | poolWait | asleep | woken | exited => trivial

theorem resetStore_names (k : Nat) (r : Ring) :
    (r.resetStore k).recyclable = r.recyclable ∧ (r.resetStore k).threadId = r.threadId := by
  unfold Ring.resetStore
  split <;> exact ⟨rfl, rfl⟩

/-- A rewind clears `handed_off` with its seventh store. -/
theorem resetStore_handedOff {k : Nat} {r : Ring} (h : 7 ≤ k → r.handedOff = false)
    (hk : 7 ≤ k + 1) : (r.resetStore k).handedOff = false := by
  match k with
  | 0 | 1 | 2 | 3 | 4 | 5 => omega
  | 6 => rfl
  | k + 7 => exact h (by omega)

/-- It clears the reservation with its fourth. -/
theorem resetStore_reserved {k : Nat} {r : Ring} (h : k ≤ 3 → r.helperReserved = true)
    (hk : k + 1 ≤ 3) : (r.resetStore k).helperReserved = true := by
  match k with
  | 0 | 1 | 2 => exact h (by omega)
  | k + 3 => omega

/-- It never marks a segment dead. -/
theorem resetStore_live {k : Nat} {r : Ring} (h : r.live = true) :
    (r.resetStore k).live = true := by
  unfold Ring.resetStore
  split <;> first | exact h | rfl

theorem LiveIf.congr {r : Nat} (h : LiveIf s r)
    (hrec : (s'.rings r).recyclable = (s.rings r).recyclable)
    (hlive : (s.rings r).live = true → (s'.rings r).live = true) : LiveIf s' r := by
  intro hr
  rw [hrec] at hr
  exact hlive (h hr)

/-- The ring a step replaced. -/
theorem rings_self (s : Sys) (r t : Nat) (v : Ring) (pc : ThreadPc) :
    ((s.setRing r v).goto t pc).rings r = v := by
  rw [goto_eq, setThread_rings, setRing_rings, Function.update_self]

/-- A producer that marks its pooled segment as handed off leaves it to nobody else. -/
theorem handedOff_free (h : HoldInv s) {t r : Nat} (hstep : step cfg s (.thread t) = some s')
    (hw : Writes s t r) (hsp : r ∉ s'.spares) (hno : ¬ Holds s' t r) : Free s' r := by
  refine ⟨hsp, fun t' hold => ?_⟩
  by_cases ht : t' = t
  · exact hno (ht ▸ hold)
  · rcases step_gains h.bounded h.helpersOwn hstep hold with hold | ⟨ha, -⟩
    · exact ht (h.alone r t' t hold hw.holds)
    · exact ht (Action.thread.inj ha).symm

/-- A thread's own step puts it in a position that is right. -/
theorem thread_fit (h : HoldInv s) {t : Nat} (hok : OwnOk s (.thread t))
    (hstep : step cfg s (.thread t) = some s') : Fit s' t := by
  have hm : ThreadMove cfg t s s' := threadStep_move hstep
  have hf := h.fit t
  unfold Fit at hf
  cases hm with
  | takeFirst hpc hseg hsp | takeSpare hpc hr hsp =>
    unfold Fit
    rw [threads_goto]
    intro hk
    omega
  | allocFirst | allocFresh =>
    have hnew : (alloc t s).rings s.nextRing = Ring.fresh false := Function.update_self _ _ _
    unfold Fit
    rw [show (alloc t s).threads t = { s.threads t with pc := .setInfo s.nextRing } from
      threads_goto _ _ _]
    dsimp only
    unfold LiveIf
    rw [hnew]
    exact ⟨rfl, nofun⟩
  | @reset why r k hpc hk =>
    simp only [hpc] at hf
    have hrec := (resetStore_names k (s.rings r)).1
    unfold Fit
    rw [threads_goto]
    cases why with
    | helper =>
      obtain ⟨hring, hres, hoff, hlive⟩ := hf
      refine ⟨hring, fun hk => ?_, fun hk => ?_, hlive.congr ?_ ?_⟩
      · rw [rings_self]
        exact resetStore_reserved hres hk
      · rw [rings_self]
        exact resetStore_handedOff hoff hk
      · rw [rings_self, hrec]
      · rw [rings_self]
        exact resetStore_live
    | initial | handoff =>
      intro hk
      rw [rings_self]
      exact resetStore_handedOff hf hk
  | @resetLast why r k hpc hk =>
    simp only [hpc] at hf
    have hk' : 7 ≤ k := by
      unfold Ring.resetSteps at hk
      omega
    have hlast := resetStore_last hk (s.rings r)
    unfold Fit
    rw [threads_goto]
    cases why with
    | helper =>
      intro r' hr'
      rw [setRing_threads, hf.1, Option.some.injEq] at hr'
      subst hr'
      intro _
      rw [rings_self, hlast]
    | initial | handoff =>
      refine ⟨?_, fun _ => ?_⟩
      · rw [rings_self, hlast]
        exact hf hk'
      · rw [rings_self, hlast]
  | @setInfo r hpc =>
    simp only [hpc] at hf
    unfold Fit
    rw [threads_goto]
    dsimp only
    refine ⟨by rw [rings_self], by rw [rings_self]; exact hf.1, hf.2.congr ?_ ?_⟩
    · rw [rings_self]
    · rw [rings_self]
      exact id
  | @register r hpc hl =>
    simp only [hpc] at hf
    have hself : ((s.registerRing r).goto t (.switch r)).rings r
        = { s.rings r with serial := s.nextSerial } := Function.update_self _ _ _
    unfold Fit
    rw [threads_goto]
    dsimp only
    refine ⟨by rw [hself]; exact hf.1, by rw [hself]; exact hf.2.1, hf.2.2.congr ?_ ?_⟩
    · rw [hself]
    · rw [hself]
      exact id
  | @switch r hpc =>
    simp only [hpc] at hf
    unfold Fit
    rw [threads_self]
    intro r' hr'
    cases hr'
    exact hf
  | granted hpc | formatEnter hpc | formatDone hpc =>
    simp only [hpc] at hf
    unfold Fit
    rw [threads_goto]
    exact hf
  | full hpc hr hroom hpol =>
    simp only [hpc] at hf
    unfold Fit
    rw [threads_goto]
    rcases hpol with ⟨-, rfl⟩ | ⟨-, rfl⟩ | ⟨-, rfl⟩
    all_goals exact hf
  | @spin r hpc hr =>
    simp only [hpc] at hf
    unfold Fit
    rw [threads_goto]
    cases (s.rings r).live with
    | true => exact hf
    | false => exact hf
  | @publish r hpc hr =>
    simp only [hpc] at hf
    obtain ⟨h₁, h₂, h₃⟩ := hf r hr
    have hself : (publish t r s).rings r = { s.rings r with cells := (s.rings r).cells ++
        [⟨t, (s.threads t).seq, r, (s.threads t).total⟩] } := Function.update_self _ _ _
    unfold Fit
    rw [show (publish t r s).threads t = { s.threads t with
      pc := .idle, seq := (s.threads t).seq + 1 } from threads_self _ _ _]
    intro r' hr'
    have hr'' : r' = r := Option.some.inj (hr'.symm.trans hr)
    subst hr''
    refine ⟨by rw [hself]; exact h₁, by rw [hself]; exact h₂, h₃.congr ?_ ?_⟩
    · rw [hself]
    · rw [hself]
      exact id
  | @markHandedOff r hpc hr =>
    simp only [hpc] at hf
    have hw : Writes s t r := ⟨hr, by rw [hpc]; rfl⟩
    by_cases hpol : cfg.policy = .nanoLog
    · rw [if_pos hpol] at hstep ⊢
      unfold Fit
      rw [threads_goto]
      intro r' hr' hrec hreg hid
      have hr'' : r' = r := Option.some.inj (hr'.symm.trans hr)
      subst hr''
      rw [rings_self] at hrec ⊢
      refine ⟨handedOff_free h hstep hw (fun hin => h.pooled r' hin t hw.holds) fun hold => ?_,
        (hf r' hr).2.2 hrec⟩
      rcases hold.goto with ⟨-, hold⟩ | hold
      · dsimp only [writing, helping] at hold
        simp only [Bool.false_eq_true, false_or] at hold
        rw [setRing_rings, Function.update_self] at hold
        rw [show (s.rings r').recyclable = true from hrec] at hold
        cases hold.2
      · cases hold
    · rw [if_neg hpol]
      unfold Fit
      rw [threads_goto]
      trivial
  | @noSpare r pc hpc hr hsp =>
    unfold Fit
    rw [threads_goto]
    rcases hpc with ⟨hpc, rfl⟩ | ⟨hpc, rfl⟩ | ⟨hpc, rfl⟩
    · simp only [hpc] at hf
      intro r' hr' hrec hreg hid
      obtain ⟨hfree, hlive⟩ := hf r' hr' hrec hreg hid
      refine ⟨hfree.step h.bounded h.helpersOwn hstep (h.bounded r'
        (Or.inr (Or.inr ⟨t, Or.inl hr'⟩))) (fun t' ha _ => ?_) nofun, hlive⟩
      rw [← Action.thread.inj ha, hpc]
      exact ⟨nofun, nofun⟩
    · trivial
    · trivial
  | @reserveHelper r hpc hr =>
    unfold Fit
    rw [threads_goto]
    intro r' hr'
    have hr'' : r' = r := Option.some.inj (hr'.symm.trans hr)
    subst hr''
    refine ⟨by rw [rings_self], fun hrec => ?_⟩
    rw [rings_self] at hrec ⊢
    exact (h.reserve hok hpc hr hrec).2.1
  | formatSpin hpc =>
    unfold Fit
    exact hf
  | @format r p p' payload ring' x hpc hr hp hst =>
    simp only [hpc] at hf
    obtain ⟨h₁, h₂⟩ := hf r hr
    have hfr := Pass.step_frame hst
    unfold Fit
    rw [threads_goto]
    intro r' hr'
    have hr'' : r' = r := Option.some.inj (hr'.symm.trans hr)
    subst hr''
    refine ⟨by rw [rings_self, hfr.helperReserved]; exact h₁, h₂.congr ?_ ?_⟩
    · rw [rings_self, hfr.recyclable]
    · rw [rings_self, hfr.live]
      exact id
  | @pushLines r payload hpc hr =>
    simp only [hpc] at hf
    obtain ⟨h₁, h₂⟩ := hf r hr
    unfold Fit
    rw [threads_goto]
    exact ⟨hr, fun _ => h₁, fun hk => by omega, h₂⟩
  | recycle hpc hr =>
    unfold Fit
    rw [threads_goto]
    trivial
  | @poolLive r hpc hr =>
    unfold OwnOk at hok
    simp only [hpc] at hok
    unfold Fit
    rw [threads_goto]
    dsimp only
    rw [if_pos (hok r hr)]
    trivial
  | poolWait hpc hr =>
    unfold Fit
    rw [threads_goto]
    trivial

/-- Starting a call, exiting and waking put a thread in a position that is right. -/
theorem own_fit (h : HoldInv s) {a : Action} (hok : OwnOk s a) (hstep : step cfg s a = some s')
    {t : Nat} (hact : a.actor = some t) : Fit s' t := by
  have hf := h.fit t
  cases a with
  | thread t' =>
    obtain rfl : t' = t := Option.some.inj hact
    exact thread_fit h hok hstep
  | log t' total =>
    obtain rfl : t' = t := Option.some.inj hact
    obtain ⟨hpc, pc, hpc', rfl⟩ := log_inv hstep
    unfold Fit at hf ⊢
    rw [threads_self]
    simp only [hpc] at hf
    rcases hpc' with rfl | rfl
    · trivial
    · exact hf
  | exit t' =>
    obtain rfl : t' = t := Option.some.inj hact
    obtain ⟨-, ⟨r, -, rfl⟩ | ⟨-, rfl⟩⟩ := exit_inv hstep
    all_goals
      unfold Fit
      rw [threads_self]
      trivial
  | wake t' =>
    obtain rfl : t' = t := Option.some.inj hact
    obtain ⟨-, rfl⟩ := wake_inv hstep
    unfold Fit
    rw [threads_goto]
    trivial
  | drain | guard => cases hact

theorem thread_nodup {t : Nat} (h : HoldInv s) (hm : ThreadMove cfg t s s') :
    s'.spares.Nodup := by
  have hn := h.nodup
  cases hm with
  | takeFirst hpc hseg hsp =>
    rw [hsp] at hn
    exact (List.nodup_cons.mp hn).2
  | takeSpare hpc hr hsp =>
    rw [hsp] at hn
    exact (List.nodup_cons.mp hn).2
  | @recycle r hpc hr =>
    refine List.nodup_cons.mpr ⟨fun hin => ?_, hn⟩
    exact h.pooled r hin t (Or.inl ⟨hr, Or.inr (Or.inl (by rw [hpc]; rfl))⟩)
  | _ => exact hn

theorem drain_nodup (h : HoldInv s) (hd : DrainFair s) (hm : DrainMove cfg s s') :
    s'.spares.Nodup := by
  have hn := h.nodup
  cases hm with
  | syncNext hpc hsub =>
    rw [(syncNext_frame _).spares]
    exact hn
  | syncLive hpc hsub hl =>
    rw [(syncDecide_frame _ _).spares]
    exact hn
  | syncDead hpc hsub =>
    rw [(syncDecide_frame _ _).spares]
    exact hn
  | recycle hpc => exact List.nodup_cons.mpr ⟨(hd.pushed _ _ hpc).2.1, hn⟩
  | _ => exact hn

theorem step_nodup {a : Action} (h : HoldInv s) (hd : DrainFair s)
    (hstep : step cfg s a = some s') : s'.spares.Nodup := by
  have hn := h.nodup
  cases a with
  | log t total =>
    obtain ⟨-, pc, -, rfl⟩ := log_inv hstep
    exact hn
  | exit t =>
    obtain ⟨-, ⟨r, -, rfl⟩ | ⟨-, rfl⟩⟩ := exit_inv hstep
    · exact hn
    · exact hn
  | thread t => exact thread_nodup h (threadStep_move hstep)
  | wake t =>
    obtain ⟨-, rfl⟩ := wake_inv hstep
    exact hn
  | drain => exact drain_nodup h hd (drainStep_move hstep)
  | guard =>
    have hm : GuardMove s s' := guardStep_move hstep
    cases hm <;> exact hn

/-- A ring a thread comes to hold was nobody's. -/
theorem gains_alone (h : HoldInv s) {t t' r : Nat} (hok : OwnOk s (.thread t))
    (hg : Gains s s' t r) : ¬ Holds s t' r := by
  intro hold
  cases hg with
  | popped hsp hsp' => exact h.pooled r (by rw [hsp]; exact List.mem_cons_self) t' hold
  | made hr => exact absurd (h.bounded r hold.inUse) (by rw [hr]; exact Nat.lt_irrefl _)
  | reserved hpc hr hrec => exact (h.reserve hok hpc hr hrec).1.2 t' hold
  | bailed hpc hr hl =>
    unfold OwnOk at hok
    simp only [hpc] at hok
    rw [hok r hr] at hl
    cases hl

/-- A ring a thread comes to hold is not in the pool afterwards. -/
theorem gains_pool (h : HoldInv s) {t r : Nat} (hok : OwnOk s (.thread t))
    (hstep : step cfg s (.thread t) = some s') (hg : Gains s s' t r) : r ∉ s'.spares := by
  have hback : r ∉ s.spares → (s.threads t).pc ≠ .recycle → r ∉ s'.spares := by
    intro hno hpc hin
    rcases step_pool hstep hin with hin | ⟨t', ha, hpc', -⟩ | ⟨ha, -⟩
    · exact hno hin
    · exact hpc (Action.thread.inj ha ▸ hpc')
    · cases ha
  cases hg with
  | popped hsp hsp' =>
    have hn := h.nodup
    rw [hsp] at hn
    rw [hsp']
    exact (List.nodup_cons.mp hn).1
  | made hr =>
    intro hin
    have hm : ThreadMove cfg t s s' := threadStep_move hstep
    have hsp : r ∉ s.spares := fun hin =>
      absurd (h.bounded r (Or.inr (Or.inl hin))) (by rw [hr]; exact Nat.lt_irrefl _)
    rcases thread_pool hm hin with hin | ⟨-, hr'⟩
    · exact hsp hin
    · exact absurd (h.bounded r (Or.inr (Or.inr ⟨t, Or.inl hr'⟩)))
        (by rw [hr]; exact Nat.lt_irrefl _)
  | reserved hpc hr hrec =>
    exact hback (h.reserve hok hpc hr hrec).1.1 (by rw [hpc]; nofun)
  | bailed hpc hr hl =>
    unfold OwnOk at hok
    simp only [hpc] at hok
    rw [hok r hr] at hl
    cases hl

theorem step_hold {a : Action} (h : HoldInv s) (hd : DrainFair s) (hok : OwnOk s a)
    (hstep : step cfg s a = some s') : HoldInv s' where
  bounded := step_bounded h.bounded hstep
  nodup := step_nodup h hd hstep
  pooled := by
    intro r hin t hold
    rcases step_gains h.bounded h.helpersOwn hstep hold with hold₀ | ⟨rfl, hg⟩
    · rcases step_pool hstep hin with hin | ⟨t', ha, hpc, hr⟩ | ⟨-, ctx, hpc⟩
      · exact h.pooled r hin t hold₀
      · -- the helper that pushed the segment holds it no more
        subst ha
        have ht := h.alone r t' t (Or.inl ⟨hr, Or.inr (Or.inl (by rw [hpc]; rfl))⟩) hold₀
        subst ht
        have hnew : s' = (s.recycle r).goto t' .poolTake := by
          simp only [step, threadStep, hpc, hr, threadRingStep, Option.some.injEq] at hstep
          exact hstep.symm
        subst hnew
        rcases hold.goto with ⟨-, hold⟩ | hold
        · simp [writing, helping, offering] at hold
        · cases hold
      · exact (hd.pushed ctx r hpc).2.2 t hold₀
    · exact gains_pool h hok hstep hg hin
  alone := by
    intro r t t' hold hold'
    rcases step_gains h.bounded h.helpersOwn hstep hold with hold₀ | ⟨ha, hg⟩
    · rcases step_gains h.bounded h.helpersOwn hstep hold' with hold₁ | ⟨ha, hg⟩
      · exact h.alone r t t' hold₀ hold₁
      · subst ha
        exact absurd hold₀ (gains_alone h hok hg)
    · rcases step_gains h.bounded h.helpersOwn hstep hold' with hold₁ | ⟨ha', -⟩
      · subst ha
        exact absurd hold₁ (gains_alone h hok hg)
      · rw [ha] at ha'
        exact Action.thread.inj ha'
  fit := by
    intro t
    by_cases hact : a.actor = some t
    · exact own_fit h hok hstep hact
    · exact fit_others h hd hok hstep hact

end Sys

end Ticklog
