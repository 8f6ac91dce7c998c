import Ticklog.System.Formatters

/-!
# Where a ring's records come in and when they are gone

Records come in by `publish` only, into a registered ring, and go by the first store of a
rewind only. `maybe_retire` compares `head` and `tail` in two loads, after seeing the ring
handed off: from then on nobody writes this incarnation, so the two agree when it is
removed. A reservation lasts until the helper's own rewind clears it.
-/

namespace Ticklog

open Lib

namespace Sys

variable {cfg : Config} {s s' : Sys}

/-! ## The records of a ring -/

/-- A ring not made yet is as `configure!` left it. -/
def Unmade (s : Sys) : Prop :=
  ∀ r, s.nextRing ≤ r → ∃ recyclable, s.rings r = Ring.fresh recyclable

theorem init_unmade : Unmade (Sys.init cfg) := fun _ _ => ⟨_, rfl⟩

/-- Nobody touches a ring that is not made yet but to make it. -/
theorem step_unused {a : Action} (hb : Bounded s) (hok : Undying s a)
    (hstep : step cfg s a = some s') {r : Nat} (hr : s.nextRing ≤ r) :
    s'.rings r = s.rings r ∨ (r = s.nextRing ∧ s'.rings r = Ring.fresh false) := by
  have hset : ∀ {r₀ : Nat} {v : Ring}, InUse s r₀ →
      Function.update s.rings r₀ v r = s.rings r := by
    intro r₀ v hin
    have hlt := hb r₀ hin
    exact Function.update_of_ne (by omega) _ _
  have hcur : ∀ {t r₀ : Nat}, (s.threads t).ring = some r₀ → InUse s r₀ := fun h =>
    Or.inr (Or.inr ⟨_, Or.inl h⟩)
  have hhand : ∀ {t r₀ : Nat}, inHand (s.threads t).pc = some r₀ → InUse s r₀ := fun h =>
    Or.inr (Or.inr ⟨_, Or.inr h⟩)
  have hment : ∀ {r₀ : Nat}, r₀ ∈ mentions s.drain.pc → InUse s r₀ := fun h =>
    Or.inl (Or.inr (Or.inr (Or.inr h)))
  have halloc : ∀ {t : Nat}, (alloc t s).rings r = s.rings r ∨
      (r = s.nextRing ∧ (alloc t s).rings r = Ring.fresh false) := by
    intro t
    change Function.update s.rings s.nextRing (Ring.fresh false) r = _ ∨ _
    by_cases heq : r = s.nextRing
    · refine Or.inr ⟨heq, ?_⟩
      rw [heq]
      exact Function.update_self ..
    · exact Or.inl (Function.update_of_ne heq _ _)
  cases a with
  | log t total =>
    obtain ⟨-, pc, -, rfl⟩ := log_inv hstep
    exact Or.inl rfl
  | wake t =>
    obtain ⟨-, rfl⟩ := wake_inv hstep
    exact Or.inl rfl
  | exit | guard => exact hok.elim
  | thread t =>
    have hm : ThreadMove cfg t s s' := threadStep_move hstep
    cases hm with
    | allocFirst => exact halloc
    | allocFresh => exact halloc
    | reset hpc => exact Or.inl (hset (hhand (by rw [hpc]; rfl)))
    | resetLast hpc => exact Or.inl (hset (hhand (by rw [hpc]; rfl)))
    | setInfo hpc => exact Or.inl (hset (hhand (by rw [hpc]; rfl)))
    | register hpc => exact Or.inl (hset (hhand (by rw [hpc]; rfl)))
    | publish hpc hr₀ => exact Or.inl (hset (hcur hr₀))
    | markHandedOff hpc hr₀ => exact Or.inl (hset (hcur hr₀))
    | reserveHelper hpc hr₀ => exact Or.inl (hset (hcur hr₀))
    | format hpc hr₀ => exact Or.inl (hset (hcur hr₀))
    | _ => exact Or.inl rfl
  | drain =>
    have hm : DrainMove cfg s s' := drainStep_move hstep
    refine Or.inl ?_
    cases hm with
    | syncNext => rw [(syncNext_frame _).rings]
    | syncLive | syncDead => rw [(syncDecide_frame _ _).rings]
    | mark hpc => exact hset (hment (by rw [hpc]; exact List.mem_singleton_self _))
    | pass hpc => exact hset (hment (by rw [hpc]; exact List.mem_singleton_self _))
    | clear hpc => exact hset (hment (by rw [hpc]; exact List.mem_singleton_self _))
    | markRecycled hpc => exact hset (hment (by rw [hpc]; exact List.mem_singleton_self _))
    | _ => rfl

theorem step_unmade {a : Action} (hb : Bounded s) (h : Unmade s) (hok : Undying s a)
    (hstep : step cfg s a = some s') : Unmade s' := by
  intro r hr
  have hle := step_nextRing hstep
  rcases step_unused hb hok hstep (Nat.le_trans hle hr) with heq | ⟨-, heq⟩
  · rw [heq]
    exact h r (Nat.le_trans hle hr)
  · exact ⟨false, heq⟩

theorem RingWrite.cells {a : Action} {r : Nat} {v : Ring} (h : RingWrite s r a v) :
    v.cells = (s.rings r).cells ∨
      (v.cells = [] ∧ ∃ t why, a = .thread t ∧ (s.threads t).pc = .reset why r 0) ∨
      ∃ t x, a = .thread t ∧ (s.threads t).pc = .publish ∧ (s.threads t).ring = some r ∧
        v.cells = (s.rings r).cells ++ [x] := by
  cases h with
  | @reset t k why hpc =>
    match k with
    | 0 => exact Or.inr (Or.inl ⟨rfl, t, why, rfl, hpc⟩)
    | 1 | 2 | 3 | 4 | 5 | 6 => exact Or.inl rfl
    | k + 7 => exact Or.inl rfl
  | format hpc hr hst => exact Or.inl (Pass.step_cells hst)
  | publish hpc hr => exact Or.inr (Or.inr ⟨_, _, rfl, hpc, hr, rfl⟩)
  | _ => exact Or.inl rfl

/-- What a step does to the records of a ring that is made. -/
theorem step_content {a : Action} (hstep : step cfg s a = some s') {r : Nat}
    (hr : r < s.nextRing) :
    (s'.rings r).cells = (s.rings r).cells ∨
      ((s'.rings r).cells = [] ∧ ∃ t why, a = .thread t ∧ (s.threads t).pc = .reset why r 0) ∨
      ∃ t x, a = .thread t ∧ (s.threads t).pc = .publish ∧ (s.threads t).ring = some r ∧
        (s'.rings r).cells = (s.rings r).cells ++ [x] := by
  by_cases ha : a = .drain
  · subst ha
    exact Or.inl (drain_ring_frame (drainStep_move hstep) r).cells
  · exact (step_writes ha hstep hr).cells

/-! ## Retirement -/

/-- Past its first test `maybe_retire` works on a ring nobody writes, unless it is
re-registered. -/
def Unwritten (s : Sys) : Prop :=
  ∀ i r k test, s.drain.pc = .retire i r k test → test ≠ .handedOff → r ∈ s.registry →
    (s.rings r).serial = k → ∀ t, ¬ Settles s t r

/-- The `head` that `maybe_retire` compares is still the ring's, or the ring is rewound. -/
def Sized (s : Sys) : Prop :=
  ∀ i r k head, s.drain.pc = .retire i r k (.tail head) → r ∈ s.registry →
    (s.rings r).serial = k → (s.rings r).cells.length = head ∨ (s.rings r).cells = []

/-- A ring written to is registered. -/
def Enlisted (s : Sys) : Prop := ∀ t r, Settles s t r → r ∈ s.registry

theorem init_enlisted : Enlisted (Sys.init cfg) := by
  rintro t r (⟨h, -⟩ | h) <;> cases h

/-- A position of `maybe_retire` is reached from the one before it. -/
theorem drain_retires (hm : DrainMove cfg s s') {i r k : Nat} {test : Retire}
    (h : s'.drain.pc = .retire i r k test) :
    test = .handedOff ∨ (s'.registry = s.registry ∧ s'.rings = s.rings ∧
      ∃ test', s.drain.pc = .retire i r k test' ∧
        (test' = .handedOff → (s.rings r).handedOff = true) ∧
        (∀ head, test = .tail head → head = (s.rings r).head) ∧
        (test = .locked → test' = .tail (s.rings r).tail)) := by
  have hscan : syncing s'.drain.pc = true → False := by
    intro hs
    rw [h] at hs
    cases hs
  cases hm with
  | handedOff hpc hoff =>
    cases h
    exact Or.inr ⟨rfl, rfl, _, hpc, fun _ => hoff, nofun, nofun⟩
  | notReserved hpc hres =>
    cases h
    exact Or.inr ⟨rfl, rfl, _, hpc, nofun, nofun, nofun⟩
  | sameSerial hpc hk =>
    cases h
    exact Or.inr ⟨rfl, rfl, _, hpc, nofun, nofun, nofun⟩
  | loadHead hpc =>
    cases h
    refine Or.inr ⟨rfl, rfl, _, hpc, nofun, fun head heq => ?_, nofun⟩
    cases heq
    rfl
  | drained hpc =>
    cases h
    exact Or.inr ⟨rfl, rfl, _, hpc, nofun, nofun, fun _ => rfl⟩
  | @clear ctx r₀ hpc =>
    cases ctx with
    | final =>
      simp only [drainTo_drain, afterPass] at h
      split at h <;> cases h
    | poll i k =>
      cases h
      exact Or.inl rfl
  | syncNext hpc hsub => exact (hscan (syncNext_syncing _)).elim
  | syncLive hpc hsub hl => exact (hscan (syncDecide_syncing hpc)).elim
  | syncDead hpc hsub => exact (hscan (syncDecide_syncing hpc)).elim
  | enter hpc hsh hnext => rcases hnext with rfl | ⟨-, rfl⟩ <;> cases h
  | pollDone hpc he hnext => rcases hnext with ⟨-, rfl⟩ | ⟨-, rfl⟩ <;> cases h
  | retired =>
    dsimp only at h
    split at h <;> cases h
  | @notRecycled ctx r₀ hpc hno => cases ctx <;> cases h
  | @recycle ctx r₀ hpc => cases ctx <;> cases h
  | _ => cases h

/-- The entry under test, while other agents act. -/
theorem OwnInv.tested_same (h : OwnInv s) {a : Action} (ha : a ≠ .drain)
    (hstep : step cfg s a = some s') {i r k : Nat} {test : Retire}
    (hpc : s'.drain.pc = .retire i r k test) (hreg : r ∈ s'.registry)
    (hser : (s'.rings r).serial = k) :
    s.drain.pc = .retire i r k test ∧ r < s.nextRing ∧ r ∈ s.registry ∧
      (s.rings r).serial = k ∧ ∀ t, a = .thread t → (s.threads t).pc ≠ .register r := by
  rw [(step_drain_frame ha hstep).1] at hpc
  have he := h.drain.entry i r k (by rw [hpc]; rfl)
  have hk := h.drain.localNumbered _ (List.mem_of_getElem? he)
  have hr : r < s.nextRing := by
    refine h.hold.bounded r (Or.inl (Or.inr (Or.inl ?_)))
    exact List.mem_map.mpr ⟨_, List.mem_of_getElem? he, rfl⟩
  exact ⟨hpc, hr, same_incarnation h.drain hstep hk hr hreg hser⟩

theorem step_unwritten (h : OwnInv s) (hu : Unwritten s) {a : Action} (hok : OwnOk s a)
    (hstep : step cfg s a = some s') : Unwritten s' := by
  intro i r k test hpc htest hreg hser t hset
  by_cases ha : a = .drain
  · subst ha
    rcases drain_retires (drainStep_move hstep) hpc with heq |
      ⟨hreg', hrings, test', hpc', hoff, -, -⟩
    · exact htest heq
    · rcases step_settles hok hstep hset with hset | ⟨ha, -⟩
      · by_cases htest' : test' = .handedOff
        · exact handedOff_unsettled h.hold (hoff htest') t hset
        · rw [hreg'] at hreg
          rw [hrings] at hser
          exact hu i r k test' hpc' htest' hreg hser t hset
      · cases ha
  · obtain ⟨hpc', -, hreg', hser', hno⟩ := h.tested_same ha hstep hpc hreg hser
    rcases step_settles hok hstep hset with hset | ⟨rfl, hpc''⟩
    · exact hu i r k test hpc' htest hreg' hser' t hset
    · exact hno t rfl hpc''

theorem step_sized (h : OwnInv s) (hu : Unwritten s) (hs : Sized s) {a : Action}
    (hstep : step cfg s a = some s') : Sized s' := by
  intro i r k head hpc hreg hser
  by_cases ha : a = .drain
  · subst ha
    rcases drain_retires (drainStep_move hstep) hpc with heq | ⟨-, hrings, -, -, -, hhead, -⟩
    · cases heq
    · rw [hrings, hhead head rfl]
      exact Or.inl rfl
  · obtain ⟨hpc', hr, hreg', hser', -⟩ := h.tested_same ha hstep hpc hreg hser
    rcases step_content hstep hr with heq | ⟨hnil, -⟩ | ⟨t, x, rfl, hpub, hring, -⟩
    · rw [heq]
      exact hs i r k head hpc' hreg' hser'
    · exact Or.inr hnil
    · -- nobody publishes in it
      refine absurd (Or.inl ⟨hring, ?_⟩) (hu i r k _ hpc' nofun hreg' hser' t)
      rw [hpub]
      rfl

theorem step_enlisted (h : FormatInv s) (hu : Unwritten s) (he : Enlisted s) {a : Action}
    (hok : FormatOk s a) (hstep : step cfg s a = some s') : Enlisted s' := by
  intro t r hset
  rcases step_settles hok.own hstep hset with hset | ⟨rfl, hpc⟩
  · rcases keeps_registered h.intact hstep (he t r hset) with hreg | ⟨-, i, k, hpc, hk⟩
    · exact hreg
    · exact absurd hset (hu i r k _ hpc nofun (he t r hset) hk t)
  · dsimp only [step, threadStep] at hstep
    simp only [hpc] at hstep
    split at hstep
    next => cases hstep
    next =>
      cases hstep
      change r ∈ if r ∈ s.registry then s.registry else s.registry ++ [r]
      split
      next hin => exact hin
      next => exact List.mem_append_right _ (List.mem_singleton_self r)

/-! ## Rewinds and reservations -/

/-- What the stores of a rewind have done so far. -/
def Wiped (s : Sys) (t : Nat) : Prop :=
  match (s.threads t).pc with
  | .reset _ r k => (1 ≤ k → (s.rings r).cells = []) ∧ (2 ≤ k → (s.rings r).tail = 0) ∧
      (3 ≤ k → (s.rings r).headCache = 0)
  | .setInfo r | .register r | .switch r => (s.rings r).cells = []
  | .recycle => ∀ r, (s.threads t).ring = some r → (s.rings r).cells = []
  | _ => True

/-- The ring a thread has reserved and not yet given up. -/
def reserving (th : Thread) : Option Nat :=
  match th.pc with
  | .formatWait | .format _ _ | .pushLines _ => th.ring
  | .reset .helper r k => if k ≤ 3 then some r else none
  | _ => none

/-- A reservation is some helper's. -/
def Leased (s : Sys) : Prop :=
  ∀ r, (s.rings r).helperReserved = true → ∃ t, reserving (s.threads t) = some r

theorem init_wiped (t : Nat) : Wiped (Sys.init cfg) t := trivial

theorem init_leased : Leased (Sys.init cfg) := nofun

/-- The drain writes the indices of the ring it passes over and of no other. -/
theorem drain_indices (hm : DrainMove cfg s s') {r : Nat} (h : passing s.drain.pc ≠ some r) :
    (s'.rings r).tail = (s.rings r).tail ∧ (s'.rings r).headCache = (s.rings r).headCache := by
  have hflag : ∀ {r₀ : Nat} {v : Ring}, v.tail = (s.rings r₀).tail →
      v.headCache = (s.rings r₀).headCache →
      (Function.update s.rings r₀ v r).tail = (s.rings r).tail ∧
        (Function.update s.rings r₀ v r).headCache = (s.rings r).headCache := by
    intro r₀ v ht hc
    by_cases hr : r = r₀
    · rw [hr, Function.update_self]
      exact ⟨ht, hc⟩
    · rw [Function.update_of_ne hr]
      exact ⟨rfl, rfl⟩
  cases hm with
  | syncNext =>
    rw [(syncNext_frame _).rings]
    exact ⟨rfl, rfl⟩
  | syncLive | syncDead =>
    rw [(syncDecide_frame _ _).rings]
    exact ⟨rfl, rfl⟩
  | mark => exact hflag rfl rfl
  | clear => exact hflag rfl rfl
  | markRecycled => exact hflag rfl rfl
  | @pass ctx r₀ p p' ring' x hpc hp hst =>
    have hne : r ≠ r₀ := by
      rintro rfl
      exact h (by rw [hpc]; rfl)
    rw [drainTo_rings, acceptAll_rings, setRing_rings, Function.update_of_ne hne]
    exact ⟨rfl, rfl⟩
  | _ => exact ⟨rfl, rfl⟩

/-- A rewind clears what its stores so far say. -/
theorem resetStore_wipes {k : Nat} {r : Ring} (h₁ : 1 ≤ k → r.cells = [])
    (h₂ : 2 ≤ k → r.tail = 0) (h₃ : 3 ≤ k → r.headCache = 0) :
    (r.resetStore k).cells = [] ∧ (1 ≤ k → (r.resetStore k).tail = 0) ∧
      (2 ≤ k → (r.resetStore k).headCache = 0) := by
  match k with
  | 0 => exact ⟨rfl, nofun, nofun⟩
  | 1 => exact ⟨h₁ (by omega), fun _ => rfl, nofun⟩
  | 2 => exact ⟨h₁ (by omega), fun _ => h₂ (by omega), fun _ => rfl⟩
  | 3 | 4 | 5 | 6 =>
    exact ⟨h₁ (by omega), fun _ => h₂ (by omega), fun _ => h₃ (by omega)⟩
  | k + 7 => exact ⟨h₁ (by omega), fun _ => h₂ (by omega), fun _ => h₃ (by omega)⟩

theorem thread_wiped {t : Nat} (hhelp : HelpersOwn s) (ht : Wiped s t)
    (hm : ThreadMove cfg t s s') : Wiped s' t := by
  unfold Wiped at ht ⊢
  cases hm with
  | takeFirst | takeSpare | pushLines =>
    rw [threads_goto]
    exact ⟨by omega, by omega, by omega⟩
  | @reset why r k hpc hk =>
    simp only [hpc] at ht
    obtain ⟨h₁, h₂, h₃⟩ := resetStore_wipes ht.1 ht.2.1 ht.2.2
    rw [threads_goto]
    dsimp only
    rw [rings_self]
    exact ⟨fun _ => h₁, fun hk => h₂ (by omega), fun hk => h₃ (by omega)⟩
  | @resetLast why r k hpc hk =>
    simp only [hpc] at ht
    have h₁ := (resetStore_wipes ht.1 ht.2.1 ht.2.2).1
    rw [threads_goto]
    cases why with
    | initial | handoff =>
      dsimp only [afterReset]
      rw [rings_self]
      exact h₁
    | helper =>
      intro r' hr'
      obtain rfl : r = r' := Option.some.inj ((hhelp t r k hpc).symm.trans hr')
      rw [rings_self]
      exact h₁
  | @setInfo r hpc =>
    simp only [hpc] at ht
    rw [threads_goto]
    dsimp only
    rw [rings_self]
    exact ht
  | @register r hpc hl =>
    simp only [hpc] at ht
    rw [threads_goto]
    change (Function.update s.rings r _ r).cells = []
    rw [Function.update_self]
    exact ht
  | allocFirst | allocFresh =>
    rw [show (alloc t s).threads t = _ from threads_goto _ _ _]
    change (Function.update s.rings _ _ _).cells = []
    rw [Function.update_self]
    rfl
  | formatSpin hpc =>
    rw [hpc]
    trivial
  | full hpc hr hroom hnext =>
    rw [threads_goto]
    rcases hnext with ⟨-, rfl⟩ | ⟨-, rfl⟩ | ⟨-, rfl⟩ <;> trivial
  | noSpare hpc =>
    rw [threads_goto]
    rcases hpc with ⟨-, rfl⟩ | ⟨-, rfl⟩ | ⟨-, rfl⟩ <;> trivial
  | spin hpc hr | poolLive hpc hr =>
    rw [threads_goto]
    cases (s.rings _).live <;> trivial
  | markHandedOff hpc hr =>
    rw [threads_goto]
    by_cases hp : cfg.policy = .nanoLog
    · rw [if_pos hp]
      trivial
    · rw [if_neg hp]
      trivial
  | switch =>
    rw [threads_self]
    trivial
  | publish =>
    rw [show (publish t _ s).threads t = _ from threads_self _ _ _]
    trivial
  | _ =>
    rw [threads_goto]
    trivial

theorem step_wiped (h : FormatInv s) (hw : ∀ t, Wiped s t) {a : Action} (hok : FormatOk s a)
    (hstep : step cfg s a = some s') (t : Nat) : Wiped s' t := by
  by_cases hact : a.actor = some t
  · cases a with
    | log t' total =>
      obtain rfl : t' = t := Option.some.inj hact
      obtain ⟨-, pc, hpc, rfl⟩ := log_inv hstep
      unfold Wiped
      rw [threads_self]
      rcases hpc with rfl | rfl <;> trivial
    | wake t' =>
      obtain rfl : t' = t := Option.some.inj hact
      obtain ⟨-, rfl⟩ := wake_inv hstep
      unfold Wiped
      rw [threads_goto]
      trivial
    | thread t' =>
      obtain rfl : t' = t := Option.some.inj hact
      exact thread_wiped h.own.hold.helpersOwn (hw t') (threadStep_move hstep)
    | exit | guard => exact hok.elim
    | drain => cases hact
  have hw := hw t
  -- a ring the thread holds keeps its records, and its indices while they are rewound
  have hkeep : ∀ {r : Nat}, Holds s t r → (s'.rings r).cells = (s.rings r).cells ∧
      ((∃ why k, (s.threads t).pc = .reset why r k ∧ 1 ≤ k) →
        (s'.rings r).tail = (s.rings r).tail ∧
          (s'.rings r).headCache = (s.rings r).headCache) := by
    intro r hold
    by_cases ha : a = .drain
    · subst ha
      have hm : DrainMove cfg s s' := drainStep_move hstep
      refine ⟨(drain_ring_frame hm r).cells, fun ⟨why, k, hpc, hk⟩ => ?_⟩
      refine drain_indices hm fun hp => ?_
      have hzero := h.apart.unrewound r hp t why k hpc
      omega
    · have hg : a ≠ .guard := by
        rintro rfl
        exact hok
      rw [held_same h.own.hold hok.own ha hg hstep hact hold]
      exact ⟨rfl, fun _ => ⟨rfl, rfl⟩⟩
  unfold Wiped at hw ⊢
  rcases step_wakes hact hstep with hth | ⟨-, hth, -⟩
  · rw [hth]
    cases hpc : (s.threads t).pc with
    | reset why r k =>
      simp only [hpc] at hw ⊢
      obtain ⟨hcells, hind⟩ := hkeep (r := r) (Or.inr (by rw [hpc]; rfl))
      refine ⟨fun hk => hcells.trans (hw.1 hk), fun hk => ?_, fun hk => ?_⟩
      · exact (hind ⟨why, k, hpc, by omega⟩).1.trans (hw.2.1 hk)
      · exact (hind ⟨why, k, hpc, by omega⟩).2.trans (hw.2.2 hk)
    | setInfo r | register r | switch r =>
      simp only [hpc] at hw ⊢
      exact (hkeep (Or.inr (by rw [hpc]; rfl))).1.trans hw
    | recycle =>
      simp only [hpc] at hw ⊢
      intro r hr
      exact (hkeep (Or.inl ⟨hr, Or.inr (Or.inl (by rw [hpc]; rfl))⟩)).1.trans (hw r hr)
    | _ => trivial
  · rw [hth]
    trivial

/-- A helper's reservation lasts until its rewind clears it. -/
theorem thread_leased {t r : Nat} (hm : ThreadMove cfg t s s')
    (h : reserving (s.threads t) = some r) (hres : (s'.rings r).helperReserved = true) :
    reserving (s'.threads t) = some r := by
  unfold reserving at h ⊢
  cases hm with
  | @reset why r₀ k hpc hk =>
    rw [threads_goto]
    cases why with
    | initial | handoff =>
      rw [hpc] at h
      cases h
    | helper =>
      simp only [hpc] at h
      split at h
      next hk3 =>
        obtain rfl := Option.some.inj h
        rw [rings_self] at hres
        dsimp only
        rw [if_pos]
        by_contra hlast
        obtain rfl : k = 3 := by omega
        cases hres
      next => cases h
  | @resetLast why r₀ k hpc hk =>
    cases why with
    | initial | handoff =>
      rw [hpc] at h
      cases h
    | helper =>
      unfold Ring.resetSteps at hk
      simp only [hpc] at h
      rw [if_neg (by omega)] at h
      cases h
  | formatSpin hpc hr hd => exact h
  | formatEnter hpc hr | formatDone hpc hr | format hpc hr =>
    rw [threads_goto]
    rw [hpc] at h
    exact h
  | pushLines hpc hr =>
    rw [threads_goto]
    rw [hpc] at h
    dsimp only at h
    rw [h] at hr
    obtain rfl := Option.some.inj hr
    rfl
  | takeSpare hpc =>
    rcases hpc with hpc | hpc | hpc
    all_goals
      rw [hpc] at h
      cases h
  | noSpare hpc =>
    rcases hpc with ⟨hpc, -⟩ | ⟨hpc, -⟩ | ⟨hpc, -⟩
    all_goals
      rw [hpc] at h
      cases h
  | takeFirst hpc | allocFirst hpc | setInfo hpc | register hpc | switch hpc | granted hpc
  | full hpc | spin hpc | publish hpc | markHandedOff hpc | allocFresh hpc | reserveHelper hpc
  | recycle hpc | poolLive hpc | poolWait hpc =>
    rw [hpc] at h
    cases h

theorem step_leased (hb : Bounded s) (h : Leased s) {a : Action} (hok : Undying s a)
    (hstep : step cfg s a = some s') : Leased s' := by
  intro r hres
  have hbefore : (s.rings r).helperReserved = true ∨ ∃ t, a = .thread t ∧
      (s.threads t).pc = .reserveHelper ∧ (s.threads t).ring = some r := by
    by_cases hr : r < s.nextRing
    · exact step_reserves hstep hr hres
    · rcases step_unused hb hok hstep (Nat.le_of_not_lt hr) with heq | ⟨-, heq⟩
      · exact Or.inl (heq ▸ hres)
      · rw [heq] at hres
        cases hres
  rcases hbefore with hres₀ | ⟨t, rfl, hpc, hr⟩
  · obtain ⟨t, ht⟩ := h r hres₀
    refine ⟨t, ?_⟩
    by_cases hact : a.actor = some t
    · cases a with
      | thread t' =>
        obtain rfl : t' = t := Option.some.inj hact
        exact thread_leased (threadStep_move hstep) ht hres
      | log t' total =>
        obtain rfl : t' = t := Option.some.inj hact
        unfold reserving at ht
        rw [(log_inv hstep).1] at ht
        cases ht
      | wake t' =>
        obtain rfl : t' = t := Option.some.inj hact
        unfold reserving at ht
        rw [(wake_inv hstep).1] at ht
        cases ht
      | exit | guard => exact hok.elim
      | drain => cases hact
    · rcases step_wakes hact hstep with hth | ⟨hpc, -, -⟩
      · rw [hth]
        exact ht
      · unfold reserving at ht
        rw [hpc] at ht
        cases ht
  · refine ⟨t, ?_⟩
    dsimp only [step, threadStep, threadRingStep] at hstep
    simp only [hpc, hr, Option.some.injEq] at hstep
    rw [← hstep]
    unfold reserving
    rw [threads_goto]
    exact hr

/-! ## What each record names -/

/-- The records a helper has formatted and not yet pushed, with their ring. -/
def loaded (th : Thread) : Option (Nat × List Rec) :=
  match th.pc, th.ring with
  | .format _ payload, some r | .pushLines payload, some r => some (r, payload)
  | _, _ => none

/-- A ring's records name it, in its storage and in its helper's hands. -/
structure Named (s : Sys) : Prop where
  storage : ∀ r x, x ∈ (s.rings r).storage → x.ring = r
  loaded : ∀ t r payload x, loaded (s.threads t) = some (r, payload) → x ∈ payload → x.ring = r

theorem init_named : Named (Sys.init cfg) := ⟨nofun, nofun⟩

theorem loaded_format {th : Thread} {p : Pass} {payload : List Rec} {r : Nat}
    (hpc : th.pc = .format p payload) (hr : th.ring = some r) : loaded th = some (r, payload) := by
  unfold loaded
  rw [hpc, hr]

theorem loaded_pushLines {th : Thread} {payload : List Rec} {r : Nat}
    (hpc : th.pc = .pushLines payload) (hr : th.ring = some r) :
    loaded th = some (r, payload) := by
  unfold loaded
  rw [hpc, hr]

/-- What a thread's access does to the records it has formatted. -/
theorem thread_loaded {t r : Nat} {payload : List Rec} (hm : ThreadMove cfg t s s')
    (h : loaded (s'.threads t) = some (r, payload)) :
    loaded (s.threads t) = some (r, payload) ∨
      (payload = [] ∧ (s.threads t).pc = .formatWait ∧ (s.threads t).ring = some r) ∨
      ∃ p p' payload₀ ring' x, (s.threads t).pc = .format p payload₀ ∧ p ≠ .finished ∧
        (s.threads t).ring = some r ∧ Pass.step (s.rings r) p = (p', ring', x) ∧
        payload = payload₀ ++ x.toList ∧
        s' = (s.setRing r ring').goto t (.format p' payload) := by
  cases hm with
  | formatSpin => exact Or.inl h
  | @formatEnter r₀ hpc hr hd =>
    simp only [threads_goto, loaded, hr, Option.some.injEq, Prod.mk.injEq] at h
    obtain ⟨rfl, rfl⟩ := h
    exact Or.inr (Or.inl ⟨rfl, hpc, hr⟩)
  | @formatDone r₀ payload₀ hpc hr =>
    simp only [threads_goto, loaded, hr, Option.some.injEq, Prod.mk.injEq] at h
    obtain ⟨rfl, rfl⟩ := h
    exact Or.inl (loaded_format hpc hr)
  | @format r₀ p p' payload₀ ring' x hpc hr hp hst =>
    simp only [threads_goto, setRing_threads, loaded, hr, Option.some.injEq, Prod.mk.injEq] at h
    obtain ⟨rfl, rfl⟩ := h
    exact Or.inr (Or.inr ⟨p, p', payload₀, ring', x, hpc, hp, hr, hst, rfl, rfl⟩)
  | full hpc hr hroom hnext =>
    rw [threads_goto] at h
    rcases hnext with ⟨-, rfl⟩ | ⟨-, rfl⟩ | ⟨-, rfl⟩ <;> cases h
  | noSpare hpc =>
    rw [threads_goto] at h
    rcases hpc with ⟨-, rfl⟩ | ⟨-, rfl⟩ | ⟨-, rfl⟩ <;> cases h
  | @resetLast why r₀ k hpc hk =>
    rw [threads_goto] at h
    cases why <;> cases h
  | spin hpc hr | poolLive hpc hr =>
    rw [threads_goto] at h
    cases hl : (s.rings _).live
    all_goals
      rw [hl] at h
      cases h
  | markHandedOff hpc hr =>
    rw [threads_goto] at h
    by_cases hp : cfg.policy = .nanoLog
    · rw [if_pos hp] at h
      cases h
    · rw [if_neg hp] at h
      cases h
  | switch =>
    rw [threads_self] at h
    cases h
  | publish =>
    rw [show (publish t _ s).threads t = _ from threads_self _ _ _] at h
    cases h
  | allocFirst | allocFresh =>
    rw [show (alloc t s).threads t = _ from threads_goto _ _ _] at h
    cases h
  | _ =>
    rw [threads_goto] at h
    cases h

/-- A published record covers at most one that was there. -/
theorem RingWrite.storage {a : Action} {r : Nat} {v : Ring} (h : RingWrite s r a v) {x : Rec}
    (hx : x ∈ v.storage) : x ∈ (s.rings r).storage ∨
      ∃ t, a = .thread t ∧ (s.threads t).pc = .publish ∧ (s.threads t).ring = some r ∧
        v.cells = (s.rings r).cells ++ [x] := by
  cases h with
  | @reset t k why hpc =>
    match k with
    | 0 =>
      -- what was there is stale now
      have hx : x ∈ (s.rings r).storage := hx
      exact Or.inl hx
    | 1 | 2 | 3 | 4 | 5 | 6 => exact Or.inl hx
    | k + 7 => exact Or.inl hx
  | format hpc hr hst => exact Or.inl ((Pass.step_frame hst).storage ▸ hx)
  | @publish t y hpc hr =>
    rcases List.mem_append.mp hx with hx | hx
    · rcases List.mem_append.mp hx with hx | hx
      · exact Or.inl (List.mem_append_left _ hx)
      · obtain rfl := List.mem_singleton.mp hx
        exact Or.inr ⟨t, rfl, hpc, hr, rfl⟩
    · rw [List.length_append, ← List.drop_drop] at hx
      exact Or.inl (List.mem_append_right _ (List.mem_of_mem_drop hx))
  | _ => exact Or.inl hx

/-- Where a record of a ring's storage comes from. -/
theorem step_storage_mem {a : Action} (hb : Bounded s) (hok : Undying s a)
    (hstep : step cfg s a = some s') {r : Nat} {x : Rec} (hx : x ∈ (s'.rings r).storage) :
    x ∈ (s.rings r).storage ∨ x.ring = r := by
  by_cases hr : r < s.nextRing
  · by_cases ha : a = .drain
    · subst ha
      exact Or.inl ((drain_ring_frame (drainStep_move hstep) r).storage ▸ hx)
    · rcases (step_writes ha hstep hr).storage hx with hx | ⟨t, rfl, hpc, hring, hcells⟩
      · exact Or.inl hx
      · dsimp only [step, threadStep, threadRingStep] at hstep
        simp only [hpc, hring, Option.some.injEq] at hstep
        rw [← hstep] at hcells
        change (Function.update s.rings r _ r).cells = _ at hcells
        rw [Function.update_self] at hcells
        obtain rfl := List.singleton_inj.mp (List.append_cancel_left hcells)
        exact Or.inr rfl
  · rcases step_unused hb hok hstep (Nat.le_of_not_lt hr) with heq | ⟨-, heq⟩
    · exact Or.inl (heq ▸ hx)
    · rw [heq] at hx
      cases hx

theorem step_named (hb : Bounded s) (h : Named s) {a : Action} (hok : Undying s a)
    (hstep : step cfg s a = some s') : Named s' where
  storage := fun r x hx => (step_storage_mem hb hok hstep hx).elim (h.storage r x) id
  loaded := by
    intro t r payload x hl hx
    by_cases hact : a.actor = some t
    · cases a with
      | thread t' =>
        obtain rfl : t' = t := Option.some.inj hact
        rcases thread_loaded (threadStep_move hstep) hl with hl | ⟨rfl, -⟩ |
          ⟨p, p', payload₀, ring', y, hpc, -, hr, hst, rfl, -⟩
        · exact h.loaded t' r payload x hl hx
        · cases hx
        · rcases List.mem_append.mp hx with hx | hx
          · exact h.loaded t' r payload₀ x (loaded_format hpc hr) hx
          · -- a record just formatted is one of the ring's
            refine h.storage r x ?_
            obtain rfl : y = some x := by simpa using hx
            cases p with
            | scan tail headCache =>
              simp only [Pass.step] at hst
              split at hst
              · split at hst
                next z hz =>
                  cases hst
                  exact List.mem_of_getElem? hz
                next => cases hst
              · cases hst
            | loadTail | storeTail | storeCache | finished => cases hst
            | loadCache tail | loadHead tail =>
              simp only [Pass.step] at hst
              split at hst <;> cases hst
      | log t' total =>
        obtain rfl : t' = t := Option.some.inj hact
        obtain ⟨-, pc, hpc, rfl⟩ := log_inv hstep
        rw [threads_self] at hl
        rcases hpc with rfl | rfl <;> cases hl
      | wake t' =>
        obtain rfl : t' = t := Option.some.inj hact
        obtain ⟨-, rfl⟩ := wake_inv hstep
        rw [threads_goto] at hl
        cases hl
      | exit | guard => exact hok.elim
      | drain => cases hact
    · rcases step_wakes hact hstep with hth | ⟨-, hth, -⟩
      · rw [hth] at hl
        exact h.loaded t r payload x hl hx
      · rw [hth] at hl
        cases hl

/-- What is known of the rings' records beside who owns them. -/
structure BacklogInv (s : Sys) : Prop where
  format : FormatInv s
  unmade : Unmade s
  unwritten : Unwritten s
  sized : Sized s
  enlisted : Enlisted s
  wiped : ∀ t, Wiped s t
  leased : Leased s
  named : Named s

theorem init_backlog : BacklogInv (Sys.init cfg) where
  format := init_format
  unmade := init_unmade
  unwritten := nofun
  sized := nofun
  enlisted := init_enlisted
  wiped := init_wiped
  leased := init_leased
  named := init_named

theorem step_backlog {a : Action} (h : BacklogInv s) (hok : FormatOk s a)
    (hstep : step cfg s a = some s') : BacklogInv s' :=
  have hb := h.format.own.hold.bounded
  { format := step_format h.format hok hstep
    unmade := step_unmade hb h.unmade hok.undying hstep
    unwritten := step_unwritten h.format.own h.unwritten hok.own hstep
    sized := step_sized h.format.own h.unwritten h.sized hstep
    enlisted := step_enlisted h.format h.unwritten h.enlisted hok hstep
    wiped := step_wiped h.format h.wiped hok hstep
    leased := step_leased hb h.leased hok.undying hstep
    named := step_named hb h.named hok.undying hstep }

end Sys

end Ticklog
