import Ticklog.System.Holders

/-!
# Who owns a segment (`src/segments.rs`, `src/thread_buf.rs`)

A thread holds a ring while it writes or formats it or prepares it for use; a ring in the
pool is nobody's, and a handed-off one is the drain's unless its producer reserves it for
helping. Each step is described once: what it writes to a ring (`RingWrite`), whom it makes
a holder (`Gains`) and what it puts into the pool. The invariants of the later files use
these three lemmas and do not look at the steps again.
-/

namespace Ticklog

open Lib

namespace Sys

variable {cfg : Config} {s s' : Sys}

/-- The positions of a thread that publishes to its current ring. -/
def writing : ThreadPc → Bool
  | .idle | .reserve | .spin | .publish | .markHandedOff => true
  | _ => false

/-- The positions of a helper, from the reservation of its current ring to its push. -/
def helping : ThreadPc → Bool
  | .formatWait | .format _ _ | .pushLines _ | .recycle => true
  | _ => false

/-- The current ring is handed off and may yet be reserved. -/
def offering : ThreadPc → Bool
  | .takeSpare | .reserveHelper => true
  | _ => false

/-- Ring `r` is the current ring of a producer that can still write to it. -/
def Writes (s : Sys) (t r : Nat) : Prop :=
  (s.threads t).ring = some r ∧ writing (s.threads t).pc = true

/-- Thread `t` has ring `r` to itself. A handed-off segment that the drain does not push to
the pool stays with its producer. -/
def Holds (s : Sys) (t r : Nat) : Prop :=
  ((s.threads t).ring = some r ∧ (writing (s.threads t).pc = true ∨
    helping (s.threads t).pc = true ∨
    (offering (s.threads t).pc = true ∧ (s.rings r).recyclable = false))) ∨
  inHand (s.threads t).pc = some r

theorem Writes.holds {t r : Nat} (h : Writes s t r) : Holds s t r := Or.inl ⟨h.1, Or.inl h.2⟩

theorem Holds.inUse {t r : Nat} (h : Holds s t r) : InUse s r :=
  Or.inr (Or.inr ⟨t, h.imp And.left id⟩)

/-- Ring `r` is in no thread's hands and not in the pool. -/
def Free (s : Sys) (r : Nat) : Prop := r ∉ s.spares ∧ ∀ t, ¬ Holds s t r

/-! ## What a step writes to a ring -/

/-- What an agent other than the drain stores to ring `r`. -/
inductive RingWrite (s : Sys) (r : Nat) : Action → Ring → Prop where
  | same {a : Action} : RingWrite s r a (s.rings r)
  | reset {t k : Nat} {why : Reset} :
      (s.threads t).pc = .reset why r k →
      RingWrite s r (.thread t) ((s.rings r).resetStore k)
  | setInfo {t : Nat} :
      (s.threads t).pc = .setInfo r →
      RingWrite s r (.thread t) { s.rings r with threadId := t }
  | register {t : Nat} :
      (s.threads t).pc = .register r → s.registryLocked = false →
      RingWrite s r (.thread t) { s.rings r with serial := s.nextSerial }
  | publish {t : Nat} {x : Rec} :
      (s.threads t).pc = .publish → (s.threads t).ring = some r →
      RingWrite s r (.thread t) { s.rings r with cells := (s.rings r).cells ++ [x] }
  | markHandedOff {t : Nat} :
      (s.threads t).pc = .markHandedOff → (s.threads t).ring = some r →
      RingWrite s r (.thread t) { s.rings r with handedOff := true }
  | reserveHelper {t : Nat} :
      (s.threads t).pc = .reserveHelper → (s.threads t).ring = some r →
      RingWrite s r (.thread t) { s.rings r with helperReserved := true }
  | format {t : Nat} {p p' : Pass} {payload : List Rec} {ring' : Ring} {x : Option Rec} :
      (s.threads t).pc = .format p payload → (s.threads t).ring = some r →
      Pass.step (s.rings r) p = (p', ring', x) → RingWrite s r (.thread t) ring'
  | exit {t : Nat} :
      Writes s t r → RingWrite s r (.exit t) { s.rings r with live := false }
  | mark {rest : List Nat} :
      s.guard = .marking (r :: rest) →
      RingWrite s r .guard { s.rings r with live := false }

/-- One ring replaced. -/
theorem RingWrite.update {a : Action} {r₀ r : Nat} {v : Ring}
    (h : r = r₀ → RingWrite s r a v) : RingWrite s r a (Function.update s.rings r₀ v r) := by
  by_cases hr : r = r₀
  · have h := h hr
    subst hr
    rwa [Function.update_self]
  · rw [Function.update_of_ne hr]
    exact .same

theorem thread_writes {t : Nat} (hm : ThreadMove cfg t s s') {r : Nat} (hr : r < s.nextRing) :
    RingWrite s r (.thread t) (s'.rings r) := by
  cases hm with
  | reset hpc hk => exact .update fun h => h ▸ .reset (h ▸ hpc)
  | resetLast hpc hk => exact .update fun h => h ▸ .reset (h ▸ hpc)
  | setInfo hpc => exact .update fun h => h ▸ .setInfo (h ▸ hpc)
  | register hpc hl => exact .update fun h => h ▸ .register (h ▸ hpc) hl
  | publish hpc hring => exact .update fun h => h ▸ .publish hpc (h ▸ hring)
  | markHandedOff hpc hring => exact .update fun h => h ▸ .markHandedOff hpc (h ▸ hring)
  | reserveHelper hpc hring => exact .update fun h => h ▸ .reserveHelper hpc (h ▸ hring)
  | format hpc hring hp hst => exact .update fun h => h ▸ .format hpc (h ▸ hring) hst
  | allocFirst => exact .update fun h => absurd h (Nat.ne_of_lt hr)
  | allocFresh => exact .update fun h => absurd h (Nat.ne_of_lt hr)
  | _ => exact .same

theorem step_writes {a : Action} (ha : a ≠ .drain) (hstep : step cfg s a = some s') {r : Nat}
    (hr : r < s.nextRing) : RingWrite s r a (s'.rings r) := by
  cases a with
  | log t total =>
    obtain ⟨-, pc, -, rfl⟩ := log_inv hstep
    exact .same
  | exit t =>
    obtain ⟨hpc, ⟨r₀, hring, rfl⟩ | ⟨-, rfl⟩⟩ := exit_inv hstep
    · exact .update fun h => h ▸ .exit ⟨h ▸ hring, by rw [hpc]; rfl⟩
    · exact .same
  | thread t => exact thread_writes (threadStep_move hstep) hr
  | wake t =>
    obtain ⟨-, rfl⟩ := wake_inv hstep
    exact .same
  | drain => exact absurd rfl ha
  | guard =>
    have hm : GuardMove s s' := guardStep_move hstep
    cases hm with
    | mark hg => exact .update fun h => h ▸ .mark (h ▸ hg)
    | lock | unlock | signal | joined => exact .same

theorem RingWrite.recyclable {a : Action} {r : Nat} {v : Ring} (h : RingWrite s r a v) :
    v.recyclable = (s.rings r).recyclable := by
  cases h with
  | reset hpc =>
    unfold Ring.resetStore
    split <;> rfl
  | @format t p p' payload ring' x hpc hring hst =>
    cases p with
    | loadTail | finished | storeTail | storeCache =>
      cases hst
      rfl
    | loadCache | loadHead | scan =>
      simp only [Pass.step] at hst
      repeat' split at hst
      all_goals
        cases hst
        rfl
  | _ => rfl

/-- `drain_ring_inner` touches neither the flags nor the names of a ring. -/
theorem Pass.step_names {ring ring' : Ring} {p p' : Pass} {x : Option Rec}
    (h : Pass.step ring p = (p', ring', x)) :
    ring'.threadId = ring.threadId ∧ ring'.live = ring.live ∧ ring'.serial = ring.serial ∧
      ring'.helperReserved = ring.helperReserved ∧ ring'.recycled = ring.recycled ∧
      ring'.handedOff = ring.handedOff := by
  cases p with
  | loadTail | finished | storeTail | storeCache =>
    cases h
    exact ⟨rfl, rfl, rfl, rfl, rfl, rfl⟩
  | loadCache | loadHead | scan =>
    simp only [Pass.step] at h
    repeat' split at h
    all_goals
      cases h
      exact ⟨rfl, rfl, rfl, rfl, rfl, rfl⟩

theorem RingWrite.threadId {a : Action} {r : Nat} {v : Ring} (h : RingWrite s r a v) :
    v.threadId = (s.rings r).threadId ∨
      ∃ t, a = .thread t ∧ (s.threads t).pc = .setInfo r ∧ v.threadId = t := by
  cases h with
  | reset hpc =>
    refine Or.inl ?_
    unfold Ring.resetStore
    split <;> rfl
  | format hpc hring hst => exact Or.inl (Pass.step_names hst).1
  | @setInfo t hpc => exact Or.inr ⟨t, rfl, hpc, rfl⟩
  | _ => exact Or.inl rfl

theorem step_threadId {a : Action} (hstep : step cfg s a = some s') {r : Nat}
    (hr : r < s.nextRing) : (s'.rings r).threadId = (s.rings r).threadId ∨
      ∃ t, a = .thread t ∧ (s.threads t).pc = .setInfo r ∧ (s'.rings r).threadId = t := by
  by_cases ha : a = .drain
  · subst ha
    exact Or.inl (drain_ring_frame (drainStep_move hstep) r).threadId
  · exact (step_writes ha hstep hr).threadId

theorem RingWrite.dies {a : Action} {r : Nat} {v : Ring} (h : RingWrite s r a v)
    (hd : v.live = false) :
    (s.rings r).live = false ∨ (∃ t, a = .exit t ∧ Writes s t r) ∨
      (a = .guard ∧ ∃ rest, s.guard = .marking (r :: rest)) := by
  cases h with
  | reset hpc =>
    unfold Ring.resetStore at hd
    split at hd
    all_goals first | exact Or.inl hd | cases hd
  | format hpc hring hst => exact Or.inl ((Pass.step_names hst).2.1 ▸ hd)
  | @exit t hw => exact Or.inr (Or.inl ⟨t, rfl, hw⟩)
  | @mark rest hg => exact Or.inr (Or.inr ⟨rfl, rest, hg⟩)
  | _ => exact Or.inl hd

/-- A ring dies with its thread or by the guard's mark. -/
theorem step_dies {a : Action} (hstep : step cfg s a = some s') {r : Nat}
    (hr : r < s.nextRing) (hd : (s'.rings r).live = false) :
    (s.rings r).live = false ∨ (∃ t, a = .exit t ∧ Writes s t r) ∨
      (a = .guard ∧ ∃ rest, s.guard = .marking (r :: rest)) := by
  by_cases ha : a = .drain
  · subst ha
    exact Or.inl ((drain_ring_frame (drainStep_move hstep) r).live ▸ hd)
  · exact (step_writes ha hstep hr).dies hd

theorem RingWrite.revives {a : Action} {r : Nat} {v : Ring} (h : RingWrite s r a v)
    (hd : v.live = true) : (s.rings r).live = true ∨
      ∃ t why k, a = .thread t ∧ (s.threads t).pc = .reset why r k := by
  cases h with
  | @reset t k why hpc => exact Or.inr ⟨t, why, k, rfl, hpc⟩
  | format hpc hring hst => exact Or.inl ((Pass.step_names hst).2.1 ▸ hd)
  | exit | mark => cases hd
  | _ => exact Or.inl hd

/-- A dead ring comes back to life by a rewind only. -/
theorem step_revives {a : Action} (hstep : step cfg s a = some s') {r : Nat}
    (hr : r < s.nextRing) (hl : (s'.rings r).live = true) : (s.rings r).live = true ∨
      ∃ t why k, a = .thread t ∧ (s.threads t).pc = .reset why r k := by
  by_cases ha : a = .drain
  · subst ha
    exact Or.inl ((drain_ring_frame (drainStep_move hstep) r).live ▸ hl)
  · exact (step_writes ha hstep hr).revives hl

theorem RingWrite.reserves {a : Action} {r : Nat} {v : Ring} (h : RingWrite s r a v)
    (hv : v.helperReserved = true) : (s.rings r).helperReserved = true ∨
      ∃ t, a = .thread t ∧ (s.threads t).pc = .reserveHelper ∧ (s.threads t).ring = some r := by
  cases h with
  | @reset t k why hpc =>
    refine Or.inl ?_
    unfold Ring.resetStore at hv
    split at hv
    all_goals first | exact hv | cases hv
  | format hpc hring hst => exact Or.inl ((Pass.step_names hst).2.2.2.1 ▸ hv)
  | @reserveHelper t hpc hring => exact Or.inr ⟨t, rfl, hpc, hring⟩
  | _ => exact Or.inl hv

/-- A ring is reserved by its producer's `reserve_for_helper` only. -/
theorem step_reserves {a : Action} (hstep : step cfg s a = some s') {r : Nat}
    (hr : r < s.nextRing) (hv : (s'.rings r).helperReserved = true) :
    (s.rings r).helperReserved = true ∨
      ∃ t, a = .thread t ∧ (s.threads t).pc = .reserveHelper ∧ (s.threads t).ring = some r := by
  by_cases ha : a = .drain
  · subst ha
    exact Or.inl ((drain_ring_frame (drainStep_move hstep) r).helperReserved ▸ hv)
  · exact (step_writes ha hstep hr).reserves hv

theorem RingWrite.serial {a : Action} {r : Nat} {v : Ring} (h : RingWrite s r a v) :
    v.serial = (s.rings r).serial ∨ ∃ t, a = .thread t ∧ (s.threads t).pc = .register r ∧
      s.registryLocked = false ∧ v.serial = s.nextSerial := by
  cases h with
  | reset hpc =>
    refine Or.inl ?_
    unfold Ring.resetStore
    split <;> rfl
  | format hpc hring hst => exact Or.inl (Pass.step_names hst).2.2.1
  | @register t hpc hl => exact Or.inr ⟨t, rfl, hpc, hl, rfl⟩
  | _ => exact Or.inl rfl

/-- A ring gets its serial when it is registered. -/
theorem step_serial {a : Action} (hstep : step cfg s a = some s') {r : Nat}
    (hr : r < s.nextRing) : (s'.rings r).serial = (s.rings r).serial ∨
      ∃ t, a = .thread t ∧ (s.threads t).pc = .register r ∧ s.registryLocked = false ∧
        (s'.rings r).serial = s.nextSerial := by
  by_cases ha : a = .drain
  · subst ha
    exact Or.inl (drain_ring_frame (drainStep_move hstep) r).serial
  · exact (step_writes ha hstep hr).serial

theorem step_recyclable {a : Action} (hstep : step cfg s a = some s') {r : Nat}
    (hr : r < s.nextRing) : (s'.rings r).recyclable = (s.rings r).recyclable := by
  by_cases ha : a = .drain
  · subst ha
    exact (drain_ring_frame (drainStep_move hstep) r).recyclable
  · exact (step_writes ha hstep hr).recyclable

theorem RingWrite.handsOff {a : Action} {r : Nat} {v : Ring} (h : RingWrite s r a v)
    (hv : v.handedOff = true) : (s.rings r).handedOff = true ∨
      ∃ t, a = .thread t ∧ (s.threads t).pc = .markHandedOff ∧ (s.threads t).ring = some r := by
  cases h with
  | @reset t k why hpc =>
    refine Or.inl ?_
    unfold Ring.resetStore at hv
    split at hv
    all_goals first | exact hv | cases hv
  | format hpc hring hst => exact Or.inl ((Pass.step_names hst).2.2.2.2.2 ▸ hv)
  | @markHandedOff t hpc hring => exact Or.inr ⟨t, rfl, hpc, hring⟩
  | _ => exact Or.inl hv

/-- A ring is handed off by its producer. -/
theorem step_handsOff {a : Action} (hstep : step cfg s a = some s') {r : Nat}
    (hr : r < s.nextRing) (hv : (s'.rings r).handedOff = true) :
    (s.rings r).handedOff = true ∨
      ∃ t, a = .thread t ∧ (s.threads t).pc = .markHandedOff ∧ (s.threads t).ring = some r := by
  by_cases ha : a = .drain
  · subst ha
    exact Or.inl ((drain_ring_frame (drainStep_move hstep) r).handedOff ▸ hv)
  · exact (step_writes ha hstep hr).handsOff hv

theorem RingWrite.takesBack {a : Action} {r : Nat} {v : Ring} (h : RingWrite s r a v)
    (hv : (s.rings r).handedOff = true) : v.handedOff = true ∨
      ∃ t why, a = .thread t ∧ (s.threads t).pc = .reset why r 6 := by
  cases h with
  | @reset t k why hpc =>
    match k with
    | 0 | 1 | 2 | 3 | 4 | 5 => exact Or.inl hv
    | 6 => exact Or.inr ⟨t, why, rfl, hpc⟩
    | k + 7 => exact Or.inl hv
  | format hpc hring hst => exact Or.inl ((Pass.step_names hst).2.2.2.2.2.trans hv)
  | markHandedOff => exact Or.inl rfl
  | _ => exact Or.inl hv

/-- The mark is cleared by a rewind only. -/
theorem step_takesBack {a : Action} (hstep : step cfg s a = some s') {r : Nat}
    (hr : r < s.nextRing) (hv : (s.rings r).handedOff = true) :
    (s'.rings r).handedOff = true ∨
      ∃ t why, a = .thread t ∧ (s.threads t).pc = .reset why r 6 := by
  by_cases ha : a = .drain
  · subst ha
    exact Or.inl ((drain_ring_frame (drainStep_move hstep) r).handedOff.trans hv)
  · exact (step_writes ha hstep hr).takesBack hv

theorem RingWrite.recycled {a : Action} {r : Nat} {v : Ring} (h : RingWrite s r a v)
    (hv : v.recycled = true) : (s.rings r).recycled = true := by
  cases h with
  | reset hpc =>
    unfold Ring.resetStore at hv
    split at hv
    all_goals first | exact hv | cases hv
  | format hpc hring hst => exact (Pass.step_names hst).2.2.2.2.1 ▸ hv
  | _ => exact hv

theorem drain_recycled (hm : DrainMove cfg s s') {r : Nat} (hv : (s'.rings r).recycled = true) :
    (s.rings r).recycled = true ∨
      ((∃ ctx, s.drain.pc = .markRecycled ctx r) ∧ (s.rings r).recyclable = true) := by
  have hset : ∀ {r₀ : Nat} {v : Ring}, (Function.update s.rings r₀ v r).recycled = true →
      v.recycled = (s.rings r₀).recycled → (s.rings r).recycled = true := by
    intro r₀ v h hv
    by_cases hr : r = r₀
    · subst hr
      rwa [Function.update_self, hv] at h
    · rwa [Function.update_of_ne hr] at h
  cases hm with
  | syncNext hpc hsub =>
    rw [(syncNext_frame _).rings] at hv
    exact Or.inl hv
  | syncLive hpc | syncDead hpc =>
    rw [(syncDecide_frame _ _).rings] at hv
    exact Or.inl hv
  | mark hpc => exact Or.inl (hset hv rfl)
  | clear hpc => exact Or.inl (hset hv rfl)
  | pass hpc hp hst => exact Or.inl (hset hv (Pass.step_names hst).2.2.2.2.1)
  | @markRecycled ctx r₀ hpc hrec =>
    by_cases hr : r = r₀
    · exact Or.inr ⟨⟨ctx, hr ▸ hpc⟩, hr ▸ hrec⟩
    · change (Function.update s.rings r₀ _ r).recycled = true at hv
      rw [Function.update_of_ne hr] at hv
      exact Or.inl hv
  | _ => exact Or.inl hv

/-- Only the drain marks a ring as recycled, and the pool's own segments only. -/
theorem step_recycled {a : Action} (hstep : step cfg s a = some s') {r : Nat}
    (hr : r < s.nextRing) (hv : (s'.rings r).recycled = true) :
    (s.rings r).recycled = true ∨ (a = .drain ∧ (∃ ctx, s.drain.pc = .markRecycled ctx r) ∧
      (s.rings r).recyclable = true) := by
  by_cases ha : a = .drain
  · subst ha
    exact (drain_recycled (drainStep_move hstep) hv).imp id fun h => ⟨rfl, h⟩
  · exact Or.inl ((step_writes ha hstep hr).recycled hv)

/-! ## Whom a step makes a holder -/

/-- How thread `t` comes to hold ring `r`. -/
inductive Gains (s s' : Sys) (t r : Nat) : Prop where
  | popped {rest : List Nat} : s.spares = r :: rest → s'.spares = rest → Gains s s' t r
  | made : r = s.nextRing → Gains s s' t r
  | reserved :
      (s.threads t).pc = .reserveHelper → (s.threads t).ring = some r →
      (s.rings r).recyclable = true → Gains s s' t r
  | bailed :
      (s.threads t).pc = .poolLive → (s.threads t).ring = some r →
      (s.rings r).live = false → Gains s s' t r

/-- What a position of a thread holds, given its current ring. -/
theorem Holds.goto {s₁ : Sys} {t q : Nat} {pc : ThreadPc} (h : Holds (s₁.goto t pc) t q) :
    ((s₁.threads t).ring = some q ∧ (writing pc = true ∨ helping pc = true ∨
      (offering pc = true ∧ (s₁.rings q).recyclable = false))) ∨ inHand pc = some q := by
  unfold Holds at h
  rw [threads_goto] at h
  exact h

/-- A rewinding helper rewinds its current ring. -/
def HelpersOwn (s : Sys) : Prop :=
  ∀ t r k, (s.threads t).pc = .reset .helper r k → (s.threads t).ring = some r

theorem thread_gains {t q : Nat} (hhelp : HelpersOwn s) (hm : ThreadMove cfg t s s')
    (h : Holds s' t q) : Holds s t q ∨ Gains s s' t q := by
  -- a thread that wrote or formatted its current ring holds that one, if any
  have hcur : ∀ {s₁ : Sys} {pc : ThreadPc}, Holds (s₁.goto t pc) t q →
      s₁.threads = s.threads →
      (writing (s.threads t).pc = true ∨ helping (s.threads t).pc = true) →
      inHand pc ≠ some q → Holds s t q := by
    intro s₁ pc h hth hpc hno
    rcases h.goto with ⟨hring, -⟩ | h
    · rw [hth] at hring
      exact Or.inl ⟨hring, hpc.imp id Or.inl⟩
    · exact absurd h hno
  have hhand : ∀ {s₁ : Sys} {pc : ThreadPc}, Holds (s₁.goto t pc) t q →
      (writing pc = false ∧ helping pc = false ∧ offering pc = false) →
      (inHand pc = some q → inHand (s.threads t).pc = some q) → Holds s t q := by
    intro s₁ pc h hpc hin
    rcases h.goto with ⟨-, h⟩ | h
    · rw [hpc.1, hpc.2.1, hpc.2.2] at h
      simp at h
    · exact Or.inr (hin h)
  have hpop : ∀ {why : Reset} {r : Nat} {s₁ : Sys},
      Holds (s₁.goto t (.reset why r 0)) t q → r = q := by
    intro why r s₁ h
    rcases h.goto with ⟨-, h⟩ | h
    · simp [writing, helping, offering] at h
    · exact Option.some.inj h
  have halloc : Holds (alloc t s) t q → q = s.nextRing := by
    intro h
    unfold alloc at h
    rcases h.goto with ⟨-, h⟩ | h
    · simp [writing, helping, offering] at h
    · exact (Option.some.inj h).symm
  cases hm with
  | @takeFirst r rest hpc hseg hsp =>
    have hr : r = q := hpop h
    exact Or.inr (.popped (hr ▸ hsp) rfl)
  | @takeSpare r r' rest hpc hr hsp =>
    have hr : r' = q := hpop h
    exact Or.inr (.popped (hr ▸ hsp) rfl)
  | allocFirst => exact Or.inr (.made (halloc h))
  | allocFresh => exact Or.inr (.made (halloc h))
  | reset hpc hk => exact Or.inl (hhand h ⟨rfl, rfl, rfl⟩ fun h => by rw [hpc]; exact h)
  | @resetLast why r k hpc hk =>
    cases why with
    | initial => exact Or.inl (hhand h ⟨rfl, rfl, rfl⟩ fun h => by rw [hpc]; exact h)
    | handoff => exact Or.inl (hhand h ⟨rfl, rfl, rfl⟩ fun h => by rw [hpc]; exact h)
    | helper =>
      -- the pool push comes next: the segment is still the helper's
      have hring := hhelp t r k hpc
      rcases h.goto with ⟨hring', -⟩ | h
      · rw [setRing_threads, hring] at hring'
        exact Or.inl (Or.inr (by rw [hpc]; exact hring'))
      · cases h
  | setInfo hpc => exact Or.inl (hhand h ⟨rfl, rfl, rfl⟩ fun h => by rw [hpc]; exact h)
  | register hpc => exact Or.inl (hhand h ⟨rfl, rfl, rfl⟩ fun h => by rw [hpc]; exact h)
  | @switch r hpc =>
    refine Or.inl (Or.inr ?_)
    rw [hpc]
    unfold Holds at h
    rw [threads_self] at h
    rcases h with ⟨hring, -⟩ | h
    · exact hring
    · cases h
  | granted hpc => exact Or.inl (hcur h rfl (Or.inl (by rw [hpc]; rfl)) nofun)
  | full hpc hr hroom hpol =>
    refine Or.inl (hcur h rfl (Or.inl (by rw [hpc]; rfl)) ?_)
    rcases hpol with ⟨-, rfl⟩ | ⟨-, rfl⟩ | ⟨-, rfl⟩ <;> exact nofun
  | spin hpc =>
    refine Or.inl (hcur h rfl (Or.inl (by rw [hpc]; rfl)) ?_)
    split <;> exact nofun
  | publish hpc hr =>
    refine Or.inl (Or.inl ⟨?_, Or.inl (by rw [hpc]; rfl)⟩)
    change Holds ((s.setRing _ _).setThread t _) t q at h
    unfold Holds at h
    rw [threads_self] at h
    rcases h with ⟨hring, -⟩ | h
    · exact hring
    · cases h
  | markHandedOff hpc =>
    refine Or.inl (hcur h rfl (Or.inl (by rw [hpc]; rfl)) ?_)
    split <;> exact nofun
  | noSpare hpc hr hsp =>
    rcases hpc with ⟨hpc, rfl⟩ | ⟨hpc, rfl⟩ | ⟨hpc, rfl⟩
    · rcases h.goto with ⟨hring, h⟩ | h
      · simp only [writing, helping, offering, Bool.false_eq_true, false_or, true_and] at h
        exact Or.inl (Or.inl ⟨hring, Or.inr (Or.inr ⟨by rw [hpc]; rfl, h⟩)⟩)
      · cases h
    · exact Or.inl (hhand h ⟨rfl, rfl, rfl⟩ nofun)
    · exact Or.inl (hhand h ⟨rfl, rfl, rfl⟩ nofun)
  | @reserveHelper r hpc hr =>
    rcases h.goto with ⟨hring, -⟩ | h
    · cases hrcy : (s.rings q).recyclable with
      | true => exact Or.inr (.reserved hpc hring hrcy)
      | false =>
        exact Or.inl (Or.inl ⟨hring, Or.inr (Or.inr ⟨by rw [hpc]; rfl, hrcy⟩)⟩)
    · cases h
  | formatSpin => exact Or.inl h
  | formatEnter hpc => exact Or.inl (hcur h rfl (Or.inr (by rw [hpc]; rfl)) nofun)
  | formatDone hpc => exact Or.inl (hcur h rfl (Or.inr (by rw [hpc]; rfl)) nofun)
  | format hpc => exact Or.inl (hcur h rfl (Or.inr (by rw [hpc]; rfl)) nofun)
  | @pushLines r payload hpc hr =>
    have hq : r = q := hpop h
    exact Or.inl (Or.inl ⟨hq ▸ hr, Or.inr (Or.inl (by rw [hpc]; rfl))⟩)
  | recycle hpc hr => exact Or.inl (hhand h ⟨rfl, rfl, rfl⟩ nofun)
  | @poolLive r hpc hr =>
    rcases h.goto with ⟨hring, h⟩ | h
    · split at h
      next => simp [writing, helping, offering] at h
      next hl =>
        rw [hr, Option.some.injEq] at hring
        exact Or.inr (.bailed hpc (hring ▸ hr) (hring ▸ Bool.eq_false_iff.mpr hl))
    · split at h <;> cases h
  | poolWait hpc hr => exact Or.inl (hhand h ⟨rfl, rfl, rfl⟩ nofun)

/-- A step makes at most its own thread a holder, in one of four ways. -/
theorem step_gains {a : Action} {t q : Nat} (hb : Bounded s) (hhelp : HelpersOwn s)
    (hstep : step cfg s a = some s') (h : Holds s' t q) :
    Holds s t q ∨ (a = .thread t ∧ Gains s s' t q) := by
  -- a thread that stays where it is, or is woken
  have hother : s'.threads t = s.threads t ∨ ((s.threads t).pc = .asleep ∧
      s'.threads t = { s.threads t with pc := .woken } ∧ s'.spares ≠ []) → Holds s t q := by
    rintro (hth | ⟨-, hth, -⟩)
    · unfold Holds at h ⊢
      rw [hth] at h
      refine h.imp (fun ⟨hring, h⟩ => ⟨hring, h.imp id (Or.imp id fun ⟨ho, hr⟩ => ⟨ho, ?_⟩)⟩) id
      rwa [step_recyclable hstep (hb q (Or.inr (Or.inr ⟨t, Or.inl hring⟩)))] at hr
    · unfold Holds at h
      rw [hth] at h
      simp [writing, helping, offering, inHand] at h
  by_cases hact : a.actor = some t
  · cases a with
    | thread t' =>
      obtain rfl : t' = t := Option.some.inj hact
      have hm : ThreadMove cfg t' s s' := threadStep_move hstep
      exact (thread_gains hhelp hm h).imp id fun hg => ⟨rfl, hg⟩
    | log t' total =>
      obtain rfl : t' = t := Option.some.inj hact
      obtain ⟨hpc, pc, hpc', rfl⟩ := log_inv hstep
      unfold Holds at h
      rw [threads_self] at h
      refine Or.inl ?_
      rcases h with ⟨hring, -⟩ | h
      · exact Or.inl ⟨hring, Or.inl (by rw [hpc]; rfl)⟩
      · rcases hpc' with rfl | rfl <;> cases h
    | exit t' =>
      obtain rfl : t' = t := Option.some.inj hact
      obtain ⟨-, ⟨r, -, rfl⟩ | ⟨-, rfl⟩⟩ := exit_inv hstep
      all_goals
        unfold Holds at h
        rw [threads_self] at h
        simp [writing, helping, offering, inHand] at h
    | wake t' =>
      obtain rfl : t' = t := Option.some.inj hact
      obtain ⟨-, rfl⟩ := wake_inv hstep
      unfold Holds at h
      rw [threads_goto] at h
      simp [writing, helping, offering, inHand] at h
    | drain | guard => cases hact
  · exact Or.inl (hother (step_wakes hact hstep))

/-! ## What a step puts into the pool -/

theorem thread_pool {t q : Nat} (hm : ThreadMove cfg t s s') (h : q ∈ s'.spares) :
    q ∈ s.spares ∨ ((s.threads t).pc = .recycle ∧ (s.threads t).ring = some q) := by
  cases hm with
  | takeFirst hpc hseg hsp =>
    rw [hsp]
    exact Or.inl (List.mem_cons_of_mem _ h)
  | takeSpare hpc hr hsp =>
    rw [hsp]
    exact Or.inl (List.mem_cons_of_mem _ h)
  | recycle hpc hr =>
    rcases List.mem_cons.mp h with rfl | h
    · exact Or.inr ⟨hpc, hr⟩
    · exact Or.inl h
  | _ => exact Or.inl h

theorem step_pool {a : Action} {q : Nat} (hstep : step cfg s a = some s') (h : q ∈ s'.spares) :
    q ∈ s.spares ∨
      (∃ t, a = .thread t ∧ (s.threads t).pc = .recycle ∧ (s.threads t).ring = some q) ∨
      (a = .drain ∧ ∃ ctx, s.drain.pc = .recycle ctx q) := by
  cases a with
  | log t total =>
    obtain ⟨-, pc, -, rfl⟩ := log_inv hstep
    exact Or.inl h
  | exit t =>
    obtain ⟨-, ⟨r, -, rfl⟩ | ⟨-, rfl⟩⟩ := exit_inv hstep
    · exact Or.inl h
    · exact Or.inl h
  | thread t =>
    have hm : ThreadMove cfg t s s' := threadStep_move hstep
    exact (thread_pool hm h).imp id fun h => Or.inl ⟨t, rfl, h⟩
  | wake t =>
    obtain ⟨-, rfl⟩ := wake_inv hstep
    exact Or.inl h
  | drain => exact (drain_push (drainStep_move hstep) h).imp id fun h => Or.inr ⟨rfl, h⟩
  | guard =>
    have hm : GuardMove s s' := guardStep_move hstep
    cases hm <;> exact Or.inl h

/-! ## Free rings -/

/-- A free ring stays free unless a thread reserves it or bails out on it, or the drain
pushes it. -/
theorem Free.step {a : Action} {q : Nat} (hb : Bounded s) (hhelp : HelpersOwn s)
    (hstep : step cfg s a = some s') (h : Free s q) (hq : q < s.nextRing)
    (hno : ∀ t, a = .thread t → (s.threads t).ring = some q →
      (s.threads t).pc ≠ .reserveHelper ∧
        ((s.threads t).pc = .poolLive → (s.rings q).live = true))
    (hdrain : a = .drain → ∀ ctx, s.drain.pc ≠ .recycle ctx q) : Free s' q := by
  refine ⟨fun hin => ?_, fun t hold => ?_⟩
  · rcases step_pool hstep hin with hin | ⟨t, -, hpc, hr⟩ | ⟨ha, ctx, hpc⟩
    · exact h.1 hin
    · exact h.2 t (Or.inl ⟨hr, Or.inr (Or.inl (by rw [hpc]; rfl))⟩)
    · exact hdrain ha ctx hpc
  · rcases step_gains hb hhelp hstep hold with hold | ⟨ha, hg⟩
    · exact h.2 t hold
    · cases hg with
      | popped hsp hsp' => exact h.1 (by rw [hsp]; exact List.mem_cons_self)
      | made hr => exact absurd hr (Nat.ne_of_lt hq)
      | reserved hpc hr hrec => exact (hno t ha hr).1 hpc
      | bailed hpc hr hl =>
        rw [(hno t ha hr).2 hpc] at hl
        cases hl

end Sys

end Ticklog
