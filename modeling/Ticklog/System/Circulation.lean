import Mathlib.Data.Set.Card
import Ticklog.System.Ledger

/-!
# The pool's segments go round (`src/segments.rs`, `src/drain.rs`)

While no thread exits and the guard is alive, every segment of the logger is in the pool, with
a thread that writes or prepares it, or handed off and owed to the pool; a handed-off segment
is owed until the drain, after retiring it, or a helping producer pushes it, and one of them
does so once. The drain drops a segment that did not come from the pool, one a thread carved
when it started on an empty pool: such a segment goes round through the helper, and not at all
where its thread leaves it for a spare (`CircOk`).
-/

namespace Ticklog

open Lib

namespace Sys

variable {cfg : Config} {s s' : Sys}

/-- Nobody dies, those that return, format and rewind segments keep apart, and no thread leaves a
carved segment for a spare. -/
def CircOk (s : Sys) : Action → Prop
  | .thread t => FormatOk s (.thread t) ∧ ((s.threads t).pc = .takeSpare →
      ∀ r, (s.threads t).ring = some r → (s.rings r).recyclable = false → s.spares = [])
  | a => FormatOk s a

theorem CircOk.format {a : Action} (h : CircOk s a) : FormatOk s a := by
  cases a with
  | thread t => exact h.1
  | log | wake | drain | exit | guard => exact h

theorem CircOk.own {a : Action} (h : CircOk s a) : OwnOk s a := h.format.own

theorem CircOk.undying {a : Action} (h : CircOk s a) : Undying s a := h.format.undying

/-- The segment a thread writes, or prepares for its own use. -/
def ownRing (th : Thread) : Option Nat :=
  match th.pc with
  | .idle | .reserve | .spin | .publish | .markHandedOff => th.ring
  | .reset .initial r _ | .reset .handoff r _ | .setInfo r | .register r | .switch r => some r
  | _ => none

/-- The segment a thread formats, or rewinds before pushing it to the pool. -/
def onLoan (th : Thread) : Option Nat :=
  match th.pc with
  | .formatWait | .format _ _ | .pushLines _ | .recycle => th.ring
  | .reset .helper r _ => some r
  | _ => none

def Uses (s : Sys) (t r : Nat) : Prop := ownRing (s.threads t) = some r

def Helps (s : Sys) (t r : Nat) : Prop := onLoan (s.threads t) = some r

/-- Thread `t` has handed off ring `r`, a carved one, and has not left it yet. -/
def Retains (s : Sys) (t r : Nat) : Prop :=
  offering (s.threads t).pc = true ∧ (s.threads t).ring = some r ∧ (s.rings r).recyclable = false

/-- Ring `r` has been handed off and not yet given back to the pool: the drain is to retire it or
to push it, or its thread is to format it or does. -/
def Owed (s : Sys) (r : Nat) : Prop :=
  ((s.rings r).recyclable = true ∧
    (r ∈ due s.drain ∨ (r ∈ s.registry ∧ (s.rings r).handedOff = true))) ∨
  ∃ t, Helps s t r ∨ Retains s t r

/-- Ring `r` is in the pool, in use, or handed off and not yet given back. -/
def Circulates (s : Sys) (r : Nat) : Prop :=
  r ∈ s.spares ∨ (∃ t, Uses s t r) ∨ Owed s r

theorem Uses.holds {t r : Nat} (h : Uses s t r) : Holds s t r := by
  unfold Uses ownRing at h
  unfold Holds
  cases hpc : (s.threads t).pc with
  | idle | reserve | spin | publish | markHandedOff =>
    rw [hpc] at h
    exact Or.inl ⟨h, Or.inl rfl⟩
  | reset why r' k =>
    rw [hpc] at h
    cases why with
    | initial | handoff => exact Or.inr h
    | helper => cases h
  | setInfo | register | switch =>
    rw [hpc] at h
    exact Or.inr h
  | _ =>
    rw [hpc] at h
    cases h

theorem Helps.holds {t r : Nat} (h : Helps s t r) : Holds s t r := by
  unfold Helps onLoan at h
  unfold Holds
  cases hpc : (s.threads t).pc with
  | formatWait | format | pushLines | recycle =>
    rw [hpc] at h
    exact Or.inl ⟨h, Or.inr (Or.inl rfl)⟩
  | reset why r' k =>
    rw [hpc] at h
    cases why with
    | initial | handoff => cases h
    | helper => exact Or.inr h
  | _ =>
    rw [hpc] at h
    cases h

/-! ## The invariant -/

theorem Retains.holds {t r : Nat} (h : Retains s t r) : Holds s t r :=
  Or.inl ⟨h.2.1, Or.inr (Or.inr ⟨h.1, h.2.2⟩)⟩

/-- What is known of a ring at its thread's position, beside `Fit`. -/
def Hands (s : Sys) (t : Nat) : Prop :=
  match (s.threads t).pc with
  | .reset .initial r k | .reset .handoff r k =>
    (6 ≤ k → (s.rings r).recycled = false) ∧ (r ∈ s.registry → (s.rings r).handedOff = false)
  | .setInfo r | .register r => (s.rings r).recycled = false
  | .recycle => ∀ r, (s.threads t).ring = some r → (s.rings r).handedOff = false
  | .takeSpare | .reserveHelper =>
    ∀ r, (s.threads t).ring = some r → (s.rings r).recyclable = true → r ∈ s.registry →
      (s.rings r).threadId = t → (s.rings r).handedOff = true
  | _ => True

/-- The ring under the tests of `maybe_retire` was seen handed off; only a helper takes the
mark back, on the ring's way to the pool. -/
def Seen (s : Sys) : Prop :=
  match s.drain.pc with
  | .retire _ r k .reserved =>
    r ∈ s.registry → (s.rings r).serial = k → (s.rings r).handedOff = true ∨
      r ∈ s.spares ∨ ∃ t, Helps s t r ∨ Uses s t r
  | .retire _ r k .serial | .retire _ r k .head | .retire _ r k (.tail _)
  | .retire _ r k .locked =>
    (s.rings r).recyclable = true → r ∈ s.registry → (s.rings r).serial = k →
      (s.rings r).handedOff = true
  | _ => True

/-- What runs without deaths keep. -/
structure CircInv (s : Sys) : Prop where
  ledger : LedgerInv s
  clean : ∀ r, r ∈ s.registry → (s.rings r).recycled = false
  unmarked : ∀ ctx r, s.drain.pc = .markRecycled ctx r → (s.rings r).recyclable = true →
    (s.rings r).recycled = false
  hands : ∀ t, Hands s t
  /-- A segment a helper gave back may still be registered, its mark cleared. -/
  stale : ∀ r, r ∈ s.spares → r ∈ s.registry → (s.rings r).handedOff = false
  seen : Seen s
  all : ∀ r, r < s.nextRing → Circulates s r

theorem init_circ (hpol : cfg.policy = .nanoLog) : CircInv (Sys.init cfg) where
  ledger := init_ledger
  clean := nofun
  unmarked := nofun
  hands := fun _ => trivial
  stale := nofun
  seen := trivial
  all := by
    intro r hr
    refine Or.inl ?_
    unfold Sys.init at hr ⊢
    simp only [if_pos hpol] at hr ⊢
    exact List.mem_reverse.mpr (List.mem_range.mpr hr)

theorem CircInv.own (h : CircInv s) : OwnInv s := h.ledger.backlog.format.own

theorem CircInv.intact (h : CircInv s) : Intact s := h.ledger.backlog.format.intact

theorem CircInv.due_free (h : CircInv s) {r : Nat} (hr : r ∈ Sys.due s.drain)
    (hrec : (s.rings r).recyclable = true) : Free s r ∧ r ∉ s.registry := by
  obtain ⟨i, k, hpc⟩ := h.intact.due hr
  refine ⟨h.own.drain.dueFree r hr hrec, (h.own.drain.dueGone ?_ r hr hrec).1⟩
  rcases hpc with hpc | hpc
  all_goals
    rw [hpc]
    rfl

theorem Owed.inUse {r : Nat} (h : Owed s r) : InUse s r := by
  rcases h with ⟨-, hdue | ⟨hreg, -⟩⟩ | ⟨t, hhelp | hkeep⟩
  · exact Or.inl (due_known hdue)
  · exact Or.inl (Or.inl hreg)
  · exact hhelp.holds.inUse
  · exact hkeep.holds.inUse

/-! ## Who helps -/

theorem helps_other {a : Action} {t r : Nat} (hact : a.actor ≠ some t)
    (hstep : step cfg s a = some s') : Helps s' t r ↔ Helps s t r := by
  unfold Helps
  rcases step_wakes hact hstep with hth | ⟨hpc, hth, -⟩
  · rw [hth]
  · rw [hth]
    simp [onLoan, hpc]

theorem uses_other {a : Action} {t r : Nat} (hact : a.actor ≠ some t)
    (hstep : step cfg s a = some s') : Uses s' t r ↔ Uses s t r := by
  unfold Uses
  rcases step_wakes hact hstep with hth | ⟨hpc, hth, -⟩
  · rw [hth]
  · rw [hth]
    simp [ownRing, hpc]

theorem retains_other (hb : Bounded s) {a : Action} {t r : Nat} (hact : a.actor ≠ some t)
    (hstep : step cfg s a = some s') : Retains s' t r ↔ Retains s t r := by
  have hrec : (s.threads t).ring = some r → (s'.rings r).recyclable = (s.rings r).recyclable :=
    fun hr => step_recyclable hstep (hb r (Or.inr (Or.inr ⟨t, Or.inl hr⟩)))
  unfold Retains
  rcases step_wakes hact hstep with hth | ⟨hpc, hth, -⟩
  · rw [hth]
    exact and_congr_right fun _ => and_congr_right fun hr => by rw [hrec hr]
  · rw [hth]
    simp [offering, hpc]

/-- A helper helps on until it has pushed its segment. -/
theorem thread_helps (hhelp : HelpersOwn s) {t q : Nat} (hm : ThreadMove cfg t s s') :
    Helps s' t q ↔ (Helps s t q ∧ (s.threads t).pc ≠ .recycle) ∨
      ((s.threads t).pc = .reserveHelper ∧ (s.threads t).ring = some q) := by
  unfold Helps
  cases hm with
  | @resetLast why r k hpc hk =>
    rw [threads_goto]
    cases why with
    | initial | handoff => simp [onLoan, afterReset, hpc]
    | helper => simp [onLoan, afterReset, hpc, hhelp t r k hpc]
  | @reset why r k hpc hk =>
    rw [threads_goto]
    cases why <;> simp [onLoan, hpc]
  | full hpc hr hroom hpol =>
    rw [threads_goto]
    rcases hpol with ⟨-, rfl⟩ | ⟨-, rfl⟩ | ⟨-, rfl⟩ <;> simp [onLoan, hpc]
  | noSpare hpc hr hsp =>
    rw [threads_goto]
    rcases hpc with ⟨hpc, rfl⟩ | ⟨hpc, rfl⟩ | ⟨hpc, rfl⟩ <;> simp [onLoan, hpc]
  | takeSpare hpc hr hsp =>
    rw [threads_goto]
    rcases hpc with hpc | hpc | hpc <;> simp [onLoan, hpc]
  | spin hpc hr | markHandedOff hpc hr | poolLive hpc hr =>
    rw [threads_goto]
    split <;> simp [onLoan, hpc]
  | publish hpc hr =>
    rw [show (publish t _ s).threads t = _ from threads_self _ _ _]
    simp [onLoan, hpc]
  | switch hpc =>
    rw [threads_self]
    simp [onLoan, hpc]
  | formatSpin hpc hr => simp [onLoan, hpc]
  | allocFirst hpc | allocFresh hpc =>
    rw [show (alloc t s).threads t = _ from threads_goto _ _ _]
    simp [onLoan, hpc]
  | takeFirst hpc | setInfo hpc | register hpc | granted hpc | reserveHelper hpc
  | formatEnter hpc | formatDone hpc | format hpc | recycle hpc | poolWait hpc =>
    rw [threads_goto]
    simp [onLoan, hpc]
  | pushLines hpc hr =>
    rw [threads_goto]
    simp [onLoan, hpc, hr]

/-- A thread that has not left its carved segment stays with it, and formats it. -/
theorem thread_retains {t q : Nat} (hok : CircOk s (.thread t)) (hm : ThreadMove cfg t s s')
    (h : Retains s t q) : Retains s' t q ∨ Helps s' t q := by
  obtain ⟨hpc, hr, hrec⟩ := h
  cases hm with
  | takeSpare hpc' hr' hsp =>
    rcases hpc' with hpc' | hpc' | hpc'
    · rw [hok.2 hpc' q hr hrec] at hsp
      cases hsp
    all_goals
      rw [hpc'] at hpc
      cases hpc
  | noSpare hpc' hr' hsp =>
    rcases hpc' with ⟨-, rfl⟩ | ⟨hpc', -⟩ | ⟨hpc', -⟩
    · refine Or.inl ⟨?_, ?_, hrec⟩
      all_goals rw [threads_goto]
      · rfl
      · exact hr
    all_goals
      rw [hpc'] at hpc
      cases hpc
  | reserveHelper hpc' hr' =>
    refine Or.inr ?_
    unfold Helps
    rw [threads_goto]
    exact hr
  | takeFirst hpc' | allocFirst hpc' | reset hpc' | resetLast hpc' | setInfo hpc' | register hpc'
  | switch hpc' | granted hpc' | full hpc' | spin hpc' | publish hpc' | markHandedOff hpc'
  | allocFresh hpc' | formatSpin hpc' | formatEnter hpc' | formatDone hpc' | format hpc'
  | pushLines hpc' | recycle hpc' | poolLive hpc' | poolWait hpc' =>
    rw [hpc'] at hpc
    cases hpc

/-- Such a segment has just been handed off, or was the thread's before. -/
theorem retains_thread {t q : Nat} (hm : ThreadMove cfg t s s') (h : Retains s' t q) :
    Retains s t q ∨ ((s.threads t).pc = .markHandedOff ∧ (s.threads t).ring = some q) := by
  obtain ⟨hpc, hr, hrec⟩ := h
  cases hm with
  | noSpare hpc' hr' hsp =>
    rw [threads_goto] at hpc hr
    rcases hpc' with ⟨hpc', rfl⟩ | ⟨-, rfl⟩ | ⟨-, rfl⟩
    · refine Or.inl ⟨?_, hr, hrec⟩
      rw [hpc']
      rfl
    all_goals cases hpc
  | markHandedOff hpc' hr' =>
    rw [threads_goto] at hr
    exact Or.inr ⟨hpc', hr⟩
  | formatSpin => exact Or.inl ⟨hpc, hr, hrec⟩
  | resetLast =>
    rw [threads_goto] at hpc
    rename_i why r k _ _
    cases why <;> cases hpc
  | full hpc' hr' hroom hpol =>
    rw [threads_goto] at hpc
    rcases hpol with ⟨-, rfl⟩ | ⟨-, rfl⟩ | ⟨-, rfl⟩ <;> cases hpc
  | spin | poolLive =>
    rw [threads_goto] at hpc
    dsimp only at hpc
    split at hpc <;> cases hpc
  | switch =>
    rw [threads_self] at hpc
    cases hpc
  | publish =>
    rw [show (publish t _ s).threads t = _ from threads_self _ _ _] at hpc
    cases hpc
  | allocFirst | allocFresh =>
    rw [show (alloc t s).threads t = _ from threads_goto _ _ _] at hpc
    cases hpc
  | _ =>
    rw [threads_goto] at hpc
    cases hpc

/-- A thread keeps the segment it writes or prepares until it hands it off. -/
theorem thread_uses {t q : Nat} (hm : ThreadMove cfg t s s') (h : Uses s t q) :
    Uses s' t q ∨ ((s.threads t).pc = .markHandedOff ∧ (s.threads t).ring = some q) := by
  unfold Uses at h ⊢
  cases hm with
  | @resetLast why r k hpc hk =>
    rw [threads_goto]
    cases why <;> simp_all [ownRing, afterReset]
  | @reset why r k hpc hk =>
    rw [threads_goto]
    cases why <;> simp_all [ownRing]
  | full hpc hr hroom hpol =>
    rw [threads_goto]
    rcases hpol with ⟨-, rfl⟩ | ⟨-, rfl⟩ | ⟨-, rfl⟩ <;> simp_all [ownRing]
  | noSpare hpc hr hsp =>
    rcases hpc with ⟨hpc, rfl⟩ | ⟨hpc, rfl⟩ | ⟨hpc, rfl⟩ <;> simp [ownRing, hpc] at h
  | takeSpare hpc hr hsp =>
    rcases hpc with hpc | hpc | hpc <;> simp [ownRing, hpc] at h
  | spin hpc hr =>
    rw [threads_goto]
    split <;> simp_all [ownRing]
  | markHandedOff hpc hr =>
    refine Or.inr ⟨hpc, ?_⟩
    simpa [ownRing, hpc] using h
  | publish hpc hr =>
    rw [show (publish t _ s).threads t = _ from threads_self _ _ _]
    simp_all [ownRing]
  | switch hpc =>
    rw [threads_self]
    simp_all [ownRing]
  | setInfo hpc | register hpc | granted hpc =>
    rw [threads_goto]
    simp_all [ownRing]
  | takeFirst hpc | allocFirst hpc | allocFresh hpc | reserveHelper hpc | formatSpin hpc
  | formatEnter hpc | formatDone hpc | format hpc | recycle hpc | poolWait hpc | pushLines hpc
  | poolLive hpc => simp [ownRing, hpc] at h

/-- A spare stays in the pool until a thread takes it. -/
theorem step_takes {a : Action} {q : Nat} (hstep : step cfg s a = some s') (h : q ∈ s.spares) :
    q ∈ s'.spares ∨ ∃ t, Uses s' t q := by
  have hpop : ∀ {t r : Nat} {rest : List Nat} {why : Reset}, s.spares = r :: rest →
      why ≠ .helper →
      q ∈ rest ∨ ∃ t', Uses ({ s with spares := rest }.goto t (.reset why r 0)) t' q := by
    intro t r rest why hsp hwhy
    rw [hsp] at h
    rcases List.mem_cons.mp h with rfl | h
    · refine Or.inr ⟨t, ?_⟩
      unfold Uses
      rw [threads_goto]
      cases why with
      | initial | handoff => rfl
      | helper => exact absurd rfl hwhy
    · exact Or.inl h
  cases a with
  | log t total =>
    obtain ⟨-, pc, -, rfl⟩ := log_inv hstep
    exact Or.inl h
  | exit t =>
    obtain ⟨-, ⟨r, -, rfl⟩ | ⟨-, rfl⟩⟩ := exit_inv hstep
    · exact Or.inl h
    · exact Or.inl h
  | wake t =>
    obtain ⟨-, rfl⟩ := wake_inv hstep
    exact Or.inl h
  | drain => exact Or.inl (drain_pool (drainStep_move hstep) h)
  | guard =>
    have hm : GuardMove s s' := guardStep_move hstep
    cases hm <;> exact Or.inl h
  | thread t =>
    have hm : ThreadMove cfg t s s' := threadStep_move hstep
    cases hm with
    | takeFirst hpc hseg hsp => exact hpop hsp nofun
    | takeSpare hpc hr hsp => exact hpop hsp nofun
    | recycle => exact Or.inl (List.mem_cons_of_mem _ h)
    | _ => exact Or.inl h

/-! ## What is owed -/

/-- The ring an access hands off. -/
def handsOff (s : Sys) : Action → Option Nat
  | .thread t => if (s.threads t).pc = .markHandedOff then (s.threads t).ring else none
  | _ => none

/-- The ring an access gives back to the pool. -/
def givesBack (s : Sys) : Action → Option Nat
  | .thread t => if (s.threads t).pc = .recycle then (s.threads t).ring else none
  | .drain =>
    match s.drain.pc with
    | .recycle _ r => some r
    | _ => none
  | _ => none

theorem handsOff_some {a : Action} {r : Nat} (h : handsOff s a = some r) :
    ∃ t, a = .thread t ∧ (s.threads t).pc = .markHandedOff ∧ (s.threads t).ring = some r := by
  cases a with
  | thread t =>
    unfold handsOff at h
    simp only at h
    split at h
    next hpc => exact ⟨t, rfl, hpc, h⟩
    next => cases h
  | _ => cases h

theorem givesBack_some {a : Action} {r : Nat} (h : givesBack s a = some r) :
    (∃ t, a = .thread t ∧ (s.threads t).pc = .recycle ∧ (s.threads t).ring = some r) ∨
      (a = .drain ∧ ∃ ctx, s.drain.pc = .recycle ctx r) := by
  cases a with
  | thread t =>
    unfold givesBack at h
    simp only at h
    split at h
    next hpc => exact Or.inl ⟨t, rfl, hpc, h⟩
    next => cases h
  | drain =>
    unfold givesBack at h
    simp only at h
    split at h
    next ctx r' hpc =>
      cases h
      exact Or.inr ⟨rfl, ctx, hpc⟩
    next => cases h
  | _ => cases h

theorem givesBack_pool {a : Action} {r : Nat} (h : givesBack s a = some r)
    (hstep : step cfg s a = some s') : r ∈ s'.spares := by
  rcases givesBack_some h with ⟨t, rfl, hpc, hr⟩ | ⟨rfl, ctx, hpc⟩
  · simp only [step, threadStep, hpc, hr, threadRingStep, Option.some.injEq] at hstep
    rw [← hstep]
    exact List.mem_cons_self
  · simp only [step, drainStep, hpc, Option.some.injEq] at hstep
    rw [← hstep]
    exact List.mem_cons_self

/-- A ring is owed to the pool before it is given back, and not when it is handed off. -/
theorem givesBack_owed (h : CircInv s) {a : Action} {r : Nat} (hg : givesBack s a = some r) :
    Owed s r := by
  rcases givesBack_some hg with ⟨t, rfl, hpc, hr⟩ | ⟨rfl, ctx, hpc⟩
  · refine Or.inr ⟨t, Or.inl ?_⟩
    unfold Helps onLoan
    rw [hpc]
    exact hr
  · exact Or.inl ⟨h.own.drain.pushes ctx r hpc, Or.inl (h.intact.returning (Or.inr hpc))⟩

theorem handsOff_fresh (h : CircInv s) {a : Action} {r : Nat} (hh : handsOff s a = some r) :
    ¬ Owed s r := by
  obtain ⟨t, rfl, hpc, hr⟩ := handsOff_some hh
  have hold : Holds s t r := Or.inl ⟨hr, Or.inl (by rw [hpc]; rfl)⟩
  have hf := h.own.hold.fit t
  unfold Fit at hf
  simp only [hpc] at hf
  rintro (⟨hrec, hdue | ⟨-, hoff⟩⟩ | ⟨t', hhelp | hkeep⟩)
  · exact (h.due_free hdue hrec).1.2 t hold
  · rw [(hf r hr).2.1] at hoff
    cases hoff
  · obtain rfl := h.own.hold.alone r t' t hhelp.holds hold
    unfold Helps onLoan at hhelp
    rw [hpc] at hhelp
    cases hhelp
  · obtain rfl := h.own.hold.alone r t' t hkeep.holds hold
    have hoffer := hkeep.1
    rw [hpc] at hoffer
    cases hoffer

/-- What is given back is owed no longer. -/
theorem givesBack_settled (h : CircInv s) {a : Action} {r : Nat} (hg : givesBack s a = some r) :
    ¬ (r ∈ s.registry ∧ (s.rings r).handedOff = true) ∧ (∀ t, ¬ Retains s t r) ∧
      ∀ t, Helps s t r → a = .thread t ∧ (s.threads t).pc = .recycle := by
  rcases givesBack_some hg with ⟨t, rfl, hpc, hr⟩ | ⟨rfl, ctx, hpc⟩
  · have hold : Holds s t r := Or.inl ⟨hr, Or.inr (Or.inl (by rw [hpc]; rfl))⟩
    have hhands := h.hands t
    unfold Hands at hhands
    simp only [hpc] at hhands
    refine ⟨fun hoff => ?_, fun t' hkeep => ?_, fun t' hhelp => ?_⟩
    · rw [hhands r hr] at hoff
      cases hoff.2
    · obtain rfl := h.own.hold.alone r t' t hkeep.holds hold
      have hoffer := hkeep.1
      rw [hpc] at hoffer
      cases hoffer
    · obtain rfl := h.own.hold.alone r t' t hhelp.holds hold
      exact ⟨rfl, hpc⟩
  · obtain ⟨hreg, hfree⟩ := h.own.drain.fair.pushed ctx r hpc
    exact ⟨fun hoff => hreg hoff.1, fun t hkeep => hfree.2 t hkeep.holds,
      fun t hhelp => absurd hhelp.holds (hfree.2 t)⟩

/-- The drain keeps in hand what it retired until it has pushed it. -/
theorem due_keeps (h : CircInv s) (hm : DrainMove cfg s s') {r : Nat}
    (hr : r ∈ Sys.due s.drain) (hrec : (s.rings r).recyclable = true)
    (hpc : ∀ ctx, s.drain.pc ≠ .recycle ctx r) : r ∈ Sys.due s'.drain := by
  obtain ⟨i, k, hpc₁ | hpc₁⟩ := h.intact.due hr
  · have hun := h.unmarked _ _ hpc₁ hrec
    cases hm with
    | markRecycled hpc₂ =>
      rw [hpc₁] at hpc₂
      cases hpc₂
      exact List.mem_singleton_self r
    | notRecycled hpc₂ hno =>
      rw [hpc₁] at hpc₂
      cases hpc₂
      rw [hrec, hun] at hno
      rcases hno with hno | hno <;> cases hno
    | _ => simp_all
  · exact absurd hpc₁ (hpc _)

/-- A pooled ring `maybe_retire` removes was handed off. -/
theorem CircInv.retired (h : CircInv s) {i r k : Nat} (hpc : s.drain.pc = .retire i r k .locked)
    (hk : (s.rings r).serial = k) (hreg : r ∈ s.registry)
    (hrec : (s.rings r).recyclable = true) : (s.rings r).handedOff = true := by
  have hseen := h.seen
  unfold Seen at hseen
  simp only [hpc] at hseen
  exact hseen hrec hreg hk

/-- After a step a ring is owed that was, or has just been handed off. -/
theorem owed_before (h : CircInv s) {a : Action} (hok : CircOk s a) (h' : Intact s')
    (hstep : step cfg s a = some s') {r : Nat} (ho : Owed s' r) :
    (Owed s r ∧ givesBack s a ≠ some r) ∨ handsOff s a = some r := by
  have hhold := h.own.hold
  rcases ho with ⟨hrec, ho⟩ | ⟨t, ho⟩
  · have hmem : (r ∈ Sys.due s'.drain ∨ r ∈ s'.registry) := ho.imp id And.left
    have hlt : r < s.nextRing := by
      refine hhold.bounded r ?_
      rcases hmem with hdue | hreg
      · by_cases ha : a = .drain
        · subst ha
          rcases due_step h' (drainStep_move hstep) hdue with ⟨hdue, -⟩ | ⟨-, -, -, -, hreg⟩
          · exact Or.inl (due_known hdue)
          · exact Or.inl (Or.inl hreg)
        · rw [(step_drain_frame ha hstep).1] at hdue
          exact Or.inl (due_known hdue)
      · rcases step_registry_mem h.own.drain.fair hstep hreg with hreg | ⟨t, rfl, hpc⟩
        · exact Or.inl (Or.inl hreg)
        · exact Or.inr (Or.inr ⟨t, Or.inr (by rw [hpc]; rfl)⟩)
    rw [step_recyclable hstep hlt] at hrec
    rcases ho with hdue | ⟨hreg, hoff⟩
    · by_cases ha : a = .drain
      · subst ha
        rcases due_step h' (drainStep_move hstep) hdue with ⟨hdue, hpc⟩ | ⟨i, k, hpc, hk, hreg⟩
        · refine Or.inl ⟨Or.inl ⟨hrec, Or.inl hdue⟩, fun hg => ?_⟩
          rcases givesBack_some hg with ⟨t, ht, -⟩ | ⟨-, ctx, hpc'⟩
          · cases ht
          · exact hpc ctx hpc'
        · refine Or.inl ⟨Or.inl ⟨hrec, Or.inr ⟨hreg, h.retired hpc hk hreg hrec⟩⟩, fun hg => ?_⟩
          rcases givesBack_some hg with ⟨t, ht, -⟩ | ⟨-, ctx, hpc'⟩
          · cases ht
          · rw [hpc] at hpc'
            cases hpc'
      · obtain ⟨hd, -⟩ := step_drain_frame ha hstep
        rw [hd] at hdue
        refine Or.inl ⟨Or.inl ⟨hrec, Or.inl hdue⟩, fun hg => ?_⟩
        rcases givesBack_some hg with ⟨t, rfl, hpc, hr⟩ | ⟨ha', -⟩
        · exact (h.due_free hdue hrec).1.2 t (Or.inl ⟨hr, Or.inr (Or.inl (by rw [hpc]; rfl))⟩)
        · exact ha ha'
    · -- registered and handed off: so it was, or is handed off now
      rcases step_registry_mem h.own.drain.fair hstep hreg with hreg₀ | ⟨t, rfl, hpc⟩
      · rcases step_handsOff hstep hlt hoff with hoff₀ | ⟨t, rfl, hpc, hr⟩
        · exact Or.inl ⟨Or.inl ⟨hrec, Or.inr ⟨hreg₀, hoff₀⟩⟩, fun hg =>
            (givesBack_settled h hg).1 ⟨hreg₀, hoff₀⟩⟩
        · exact Or.inr (by rw [handsOff, if_pos hpc, hr])
      · have hf := hhold.fit t
        unfold Fit at hf
        simp only [hpc] at hf
        rcases step_handsOff hstep hlt hoff with hoff₀ | ⟨t', ha, hpc', -⟩
        · rw [hf.2.1] at hoff₀
          cases hoff₀
        · cases ha
          rw [hpc] at hpc'
          cases hpc'
  · by_cases hact : a.actor = some t
    · cases a with
      | log t' total =>
        obtain rfl : t' = t := Option.some.inj hact
        obtain ⟨-, pc, hpc, rfl⟩ := log_inv hstep
        unfold Helps Retains at ho
        rw [threads_self] at ho
        rcases hpc with rfl | rfl
        all_goals rcases ho with ho | ⟨ho, -⟩ <;> cases ho
      | wake t' =>
        obtain rfl : t' = t := Option.some.inj hact
        obtain ⟨-, rfl⟩ := wake_inv hstep
        unfold Helps Retains at ho
        rw [threads_goto] at ho
        rcases ho with ho | ⟨ho, -⟩ <;> cases ho
      | thread t' =>
        obtain rfl : t' = t := Option.some.inj hact
        rcases ho with hhelp | hkeep
        · rcases (thread_helps hhold.helpersOwn (threadStep_move hstep)).mp hhelp with
            ⟨hhelp, hpc⟩ | ⟨hpc, hr⟩
          · refine Or.inl ⟨Or.inr ⟨t', Or.inl hhelp⟩, ?_⟩
            dsimp only [givesBack]
            rw [if_neg hpc]
            nofun
          · -- a reservation: of a ring the drain was to retire, or the drain would drop
            refine Or.inl ⟨?_, by rw [givesBack, if_neg (by rw [hpc]; nofun)]; nofun⟩
            cases hrec : (s.rings r).recyclable with
            | false => exact Or.inr ⟨t', Or.inr ⟨by rw [hpc]; rfl, hr, hrec⟩⟩
            | true =>
              have hh := h.hands t'
              unfold Hands at hh
              simp only [hpc] at hh
              obtain ⟨-, -, hreg, hid, -⟩ := hhold.reserve hok.own hpc hr hrec
              exact Or.inl ⟨hrec, Or.inr ⟨hreg, hh r hr hrec hreg hid⟩⟩
        · rcases retains_thread (threadStep_move hstep) hkeep with hkeep | ⟨hpc, hr⟩
          · refine Or.inl ⟨Or.inr ⟨t', Or.inr hkeep⟩, fun hg => ?_⟩
            exact (givesBack_settled h hg).2.1 t' hkeep
          · exact Or.inr (by rw [handsOff, if_pos hpc, hr])
      | exit | guard => exact hok.elim
      | drain => cases hact
    · refine Or.inl ?_
      rcases ho with hhelp | hkeep
      · have hhelp₀ := (helps_other hact hstep).mp hhelp
        refine ⟨Or.inr ⟨t, Or.inl hhelp₀⟩, fun hg => ?_⟩
        obtain ⟨ha, -⟩ := (givesBack_settled h hg).2.2 t hhelp₀
        exact hact (by rw [ha]; rfl)
      · have hkeep₀ := (retains_other hhold.bounded hact hstep).mp hkeep
        exact ⟨Or.inr ⟨t, Or.inr hkeep₀⟩, fun hg => (givesBack_settled h hg).2.1 t hkeep₀⟩

/-- What is owed and not given back by a step is owed after it. -/
theorem owed_after (hseg : cfg.segmented = true) (h : CircInv s) {a : Action} (hok : CircOk s a)
    (hstep : step cfg s a = some s') {r : Nat} (ho : Owed s r)
    (hback : givesBack s a ≠ some r) : Owed s' r := by
  have hhold := h.own.hold
  have hlt := hhold.bounded r ho.inUse
  rcases ho with ⟨hrec, hdue | ⟨hreg, hoff⟩⟩ | ⟨t, ho⟩
  · refine Or.inl ⟨(step_recyclable hstep hlt).trans hrec, Or.inl ?_⟩
    by_cases ha : a = .drain
    · subst ha
      exact due_keeps h (drainStep_move hstep) hdue hrec fun ctx hpc =>
        hback (by rw [givesBack, hpc])
    · rwa [(step_drain_frame ha hstep).1]
  · have hrec' := (step_recyclable hstep hlt).trans hrec
    rcases keeps_registered h.intact hstep hreg with hreg' | ⟨rfl, i, k, hpc, hk⟩
    · rcases step_takesBack hstep hlt hoff with hoff' | ⟨t, why, rfl, hpc⟩
      · exact Or.inl ⟨hrec', Or.inr ⟨hreg', hoff'⟩⟩
      · -- only a helper rewinds a ring that is registered as handed off
        have hh := h.hands t
        unfold Hands at hh
        simp only [hpc] at hh
        cases why with
        | initial | handoff =>
          rw [hh.2 hreg] at hoff
          cases hoff
        | helper =>
          refine Or.inr ⟨t, Or.inl ?_⟩
          refine (thread_helps hhold.helpersOwn (threadStep_move hstep)).mpr (Or.inl ⟨?_, ?_⟩)
          · unfold Helps onLoan
            rw [hpc]
          · rw [hpc]
            nofun
    · refine Or.inl ⟨hrec', Or.inl ?_⟩
      dsimp only [step, drainStep, retireStep] at hstep
      simp only [hpc] at hstep
      split at hstep
      next => cases hstep
      next =>
        split at hstep
        next hne => exact (hne.elim (fun hne => hne hk) fun hne => hne hreg).elim
        next =>
          cases hstep
          exact List.mem_singleton_self r
  · refine Or.inr ⟨t, ?_⟩
    by_cases hact : a.actor = some t
    · cases a with
      | log t' total =>
        obtain rfl : t' = t := Option.some.inj hact
        obtain ⟨hpc, -⟩ := log_inv hstep
        unfold Helps Retains onLoan at ho
        rw [hpc] at ho
        rcases ho with ho | ⟨ho, -⟩ <;> cases ho
      | wake t' =>
        obtain rfl : t' = t := Option.some.inj hact
        obtain ⟨hpc, -⟩ := wake_inv hstep
        unfold Helps Retains onLoan at ho
        rw [hpc] at ho
        rcases ho with ho | ⟨ho, -⟩ <;> cases ho
      | thread t' =>
        obtain rfl : t' = t := Option.some.inj hact
        rcases ho with hhelp | hkeep
        · refine Or.inl ((thread_helps hhold.helpersOwn (threadStep_move hstep)).mpr
            (Or.inl ⟨hhelp, fun hpc => ?_⟩))
          unfold Helps onLoan at hhelp
          rw [hpc] at hhelp
          exact hback (by rw [givesBack, if_pos hpc]; exact hhelp)
        · exact (thread_retains hok (threadStep_move hstep) hkeep).symm
      | exit | guard => exact hok.elim
      | drain => cases hact
    · exact ho.imp (helps_other hact hstep).mpr (retains_other hhold.bounded hact hstep).mpr

/-- What is handed off is owed. -/
theorem owed_handed (hpol : cfg.policy = .nanoLog) (h : CircInv s) {a : Action}
    (hstep : step cfg s a = some s') {r : Nat} (hoff : handsOff s a = some r) : Owed s' r := by
  obtain ⟨t, rfl, hpc, hr⟩ := handsOff_some hoff
  have hreg : r ∈ s.registry :=
    h.ledger.backlog.enlisted t r (Or.inl ⟨hr, by rw [hpc]; rfl⟩)
  dsimp only [step, threadStep, threadRingStep] at hstep
  simp only [hpc, hr, if_pos hpol, Option.some.injEq] at hstep
  subst hstep
  cases hrec : (s.rings r).recyclable with
  | true =>
    refine Or.inl ⟨?_, Or.inr ⟨hreg, ?_⟩⟩
    all_goals rw [rings_self]
  | false =>
    refine Or.inr ⟨t, Or.inr ⟨?_, ?_, ?_⟩⟩
    · rw [threads_goto]
      rfl
    · rw [threads_goto]
      exact hr
    · rw [rings_self]

/-- What a step changes in the rings owed to the pool. -/
theorem owed_step (hpol : cfg.policy = .nanoLog) (h : CircInv s) {a : Action} (hok : CircOk s a)
    (h' : Intact s') (hstep : step cfg s a = some s') (r : Nat) :
    Owed s' r ↔ (Owed s r ∧ givesBack s a ≠ some r) ∨ handsOff s a = some r := by
  have hseg := Config.segmented_of_nanoLog hpol
  refine ⟨owed_before h hok h' hstep, ?_⟩
  rintro (⟨ho, hback⟩ | hoff)
  · exact owed_after hseg h hok hstep ho hback
  · exact owed_handed hpol h hstep hoff

end Sys

end Ticklog
