import Ticklog.System.Guard
import Ticklog.System.Numbering
import Ticklog.System.Registry

/-!
# One ring for a thread's whole life: `Drop` and `Block`

What the two classic policies add to the life of rings: nothing is ever handed off, so all
records of a thread are in one ring. Before it stand the facts about exits and
`Guard::drop` that every plain run has: while the guard is alive a dead ring's thread has
exited, the guard and the scans exclude each other, and the drain leaves its loop only
after `shutdown`.
-/

namespace Ticklog

open Lib

namespace Sys

variable {cfg : Config} {s s' : Sys}

/-! ## Owners -/

/-- A thread's current ring is its own. -/
theorem PlainInv.ring_mine (h : PlainInv s) {t r : Nat} (hr : (s.threads t).ring = some r) :
    Mine s t r := by
  have ht := h.threads t
  unfold ThreadOk at ht
  cases hpc : (s.threads t).pc with
  | idle | reserve | spin | publish | markHandedOff =>
    simp only [hpc] at ht
    exact (ht r hr).1
  | initRing | exited =>
    simp only [hpc] at ht
    rw [ht] at hr
    cases hr
  | allocFresh =>
    simp only [hpc] at ht
    exact (ht r hr).1
  | setInfo r' =>
    simp only [hpc] at ht
    exact (ht.2.2 r hr).1
  | register r' =>
    simp only [hpc] at ht
    exact (ht.2.2.2 r hr).1
  | switch r' =>
    simp only [hpc] at ht
    exact (ht.2.2 r hr).1
  | reset | takeSpare | reserveHelper | formatWait | format | pushLines | recycle | poolTake
  | poolLive | poolWait | asleep | woken => simp only [hpc] at ht

/-- The records of a ring are its thread's. -/
def Authored (s : Sys) : Prop :=
  ∀ x, x ∈ s.published → x.ring ∈ s.registered ∧ (s.rings x.ring).threadId = x.thread

theorem init_authored : Authored (Sys.init cfg) := nofun

theorem step_authored {a : Action} (h : Authored s) (hp : PlainInv s)
    (hstep : step cfg s a = some s') : Authored s' := by
  have hkeep : ∀ x, x ∈ s.published →
      x.ring ∈ s'.registered ∧ (s'.rings x.ring).threadId = x.thread := by
    intro x hx
    obtain ⟨hr, hid⟩ := h x hx
    exact ⟨step_registered hstep hr, (step_grows hp hstep hr).threadId.trans hid⟩
  intro x hx
  rcases step_publishes hstep with ⟨t, r, rfl, hpc, hr, rfl⟩ | ⟨hpub, -⟩
  · have hmine := hp.ring_mine hr
    rcases List.mem_append.mp hx with hx | hx
    · exact hkeep x hx
    · rw [List.mem_singleton.mp hx]
      exact ⟨hmine.1, (step_grows hp hstep hmine.1).threadId.trans hmine.2⟩
  · rw [hpub] at hx
    exact hkeep x hx

/-- An exited thread does nothing any more. -/
theorem exited_stays {a : Action} (hstep : step cfg s a = some s') {t : Nat}
    (hpc : (s.threads t).pc = .exited) : s'.threads t = s.threads t := by
  have hset : ∀ {s₁ : Sys} {t' : Nat} {th : Thread}, s₁.threads = s.threads →
      (s.threads t').pc ≠ .exited → (s₁.setThread t' th).threads t = s.threads t := by
    intro s₁ t' th hth hne
    rw [setThread_threads, hth, Function.update_of_ne]
    rintro rfl
    exact hne hpc
  have hidle : ∀ {t' : Nat}, (s.threads t').pc = .idle → (s.threads t').pc ≠ .exited := by
    intro t' h
    rw [h]
    nofun
  cases a with
  | log t' total =>
    obtain ⟨hpc', pc, -, rfl⟩ := log_inv hstep
    exact hset rfl (hidle hpc')
  | exit t' =>
    obtain ⟨hpc', ⟨r, -, rfl⟩ | ⟨-, rfl⟩⟩ := exit_inv hstep
    · exact hset rfl (hidle hpc')
    · exact hset rfl (hidle hpc')
  | wake t' =>
    obtain ⟨hpc', rfl⟩ := wake_inv hstep
    exact hset rfl (by rw [hpc']; nofun)
  | drain => exact drain_threads (drainStep_move hstep) (by rw [hpc]; nofun)
  | guard =>
    have hm : GuardMove s s' := guardStep_move hstep
    cases hm <;> rfl
  | thread t' =>
    have hm : ThreadMove cfg t' s s' := threadStep_move hstep
    cases hm with
    | formatSpin => rfl
    | @recycle r hpc' hr =>
      rw [goto_eq, setThread_threads, Function.update_of_ne, recycle_threads, if_neg]
      · rw [hpc]
        nofun
      · rintro rfl
        rw [hpc] at hpc'
        cases hpc'
    | takeSpare hpc' hr hsp =>
      exact hset rfl (by rcases hpc' with hpc' | hpc' | hpc' <;> rw [hpc'] <;> nofun)
    | noSpare hpc' hr hsp =>
      exact hset rfl (by rcases hpc' with ⟨hpc', -⟩ | ⟨hpc', -⟩ | ⟨hpc', -⟩ <;> rw [hpc'] <;> nofun)
    | takeFirst hpc' | allocFirst hpc' | reset hpc' | resetLast hpc' | setInfo hpc' | register hpc'
    | switch hpc' | granted hpc' | full hpc' | spin hpc' | publish hpc' | markHandedOff hpc'
    | allocFresh hpc' | reserveHelper hpc' | formatEnter hpc' | formatDone hpc' | format hpc'
    | pushLines hpc' | poolLive hpc' | poolWait hpc' =>
      exact hset rfl (by rw [hpc']; nofun)

/-! ## The guard -/

/-- How `Guard::drop` and the drain relate. -/
structure GuardInv (s : Sys) : Prop where
  /-- The guard marks rings only while no scan is under way. -/
  excluded : ∀ todo, s.guard = .marking todo → ∀ phase half, s.drain.pc ≠ .sync phase half
  signalled : s.shutdown = true → s.guard = .joining ∨ s.guard = .dropped
  left : s.drain.last = true → s.shutdown = true
  stopped : s.drain.pc = .stopped → s.drain.last = true
  /-- Without a guard dropping, rings die with their threads. -/
  dead : s.guard = .alive → ∀ r, r ∈ s.registered → (s.rings r).live = false →
    (s.threads (s.rings r).threadId).pc = .exited

theorem init_guard : GuardInv (Sys.init cfg) :=
  ⟨nofun, nofun, nofun, nofun, nofun⟩

theorem GuardInv.order (h : GuardInv s) : GuardOrder s :=
  ⟨h.excluded, h.signalled, h.left, h.stopped⟩

/-- While the guard is alive the drain is inside its loop. -/
theorem GuardInv.running (h : GuardInv s) (ha : s.guard = .alive) : s.drain.last = false :=
  h.order.running ha

/-- A ring that is dead after a step was dead before, or its thread exits in this step, or
the guard marks it. -/
theorem dies {a : Action} (hp : PlainInv s) (hstep : step cfg s a = some s') {r : Nat}
    (hr : r ∈ s'.registered) (hd : (s'.rings r).live = false) :
    r ∈ s.registered ∧ ((s.rings r).live = false ∨
      (∃ t, a = .exit t ∧ (s.threads t).ring = some r) ∨
      (a = .guard ∧ ∃ todo, s.guard = .marking todo)) := by
  have hkill : ∀ {r₀ : Nat}, (Function.update s.rings r₀
      { s.rings r₀ with live := false } r).live = false → (s.rings r).live = false ∨ r₀ = r := by
    intro r₀ h
    by_cases hne : r = r₀
    · exact Or.inr hne.symm
    · rw [Function.update_of_ne hne] at h
      exact Or.inl h
  cases a with
  | log t total =>
    obtain ⟨-, pc, -, rfl⟩ := log_inv hstep
    exact ⟨hr, Or.inl hd⟩
  | exit t =>
    obtain ⟨-, ⟨r₀, hr₀, rfl⟩ | ⟨-, rfl⟩⟩ := exit_inv hstep
    · refine ⟨hr, (hkill hd).imp id fun heq => Or.inl ⟨t, rfl, ?_⟩⟩
      rw [← heq]
      exact hr₀
    · exact ⟨hr, Or.inl hd⟩
  | wake t =>
    exact absurd (wake_inv hstep).1 (hp.not_asleep t)
  | drain =>
    have hm : DrainMove cfg s s' := drainStep_move hstep
    rw [(drain_keeps hm).registered] at hr
    rw [(drain_ring_frame hm r).live] at hd
    exact ⟨hr, Or.inl hd⟩
  | guard =>
    have hm : GuardMove s s' := guardStep_move hstep
    cases hm with
    | mark hg => exact ⟨hr, Or.inr (Or.inr ⟨rfl, _, hg⟩)⟩
    | _ => exact ⟨hr, Or.inl hd⟩
  | thread t =>
    have ht := hp.threads t
    unfold ThreadOk at ht
    have hsame : ∀ {f : Nat → Ring} {r₀ : Nat} {v : Ring}, (f r).live = false →
        f = Function.update s.rings r₀ v → v.live = (s.rings r₀).live →
        (s.rings r).live = false := by
      intro f r₀ v h hf hv
      rw [hf] at h
      by_cases hne : r = r₀
      · rw [hne, Function.update_self, hv] at h
        rwa [hne]
      · rwa [Function.update_of_ne hne] at h
    have halloc : (Function.update s.rings s.nextRing (Ring.fresh false) r).live = false →
        (s.rings r).live = false := by
      intro h
      by_cases hne : r = s.nextRing
      · rw [hne, Function.update_self] at h
        cases h
      · rwa [Function.update_of_ne hne] at h
    have hm : ThreadMove cfg t s s' := threadStep_move hstep
    cases hm with
    | @register r₀ hpc hl =>
      have hd' : (s.rings r).live = false := hsame hd rfl rfl
      simp only [hpc] at ht
      refine ⟨?_, Or.inl hd'⟩
      rcases List.mem_append.mp hr with hr | hr
      · exact hr
      · -- the new ring is live
        rw [List.mem_singleton.mp hr, (hp.blank r₀ ht.2.1).live] at hd'
        cases hd'
    | allocFirst hpc hsp => exact ⟨hr, Or.inl (halloc hd)⟩
    | allocFresh hpc hr₀ => exact ⟨hr, Or.inl (halloc hd)⟩
    | setInfo hpc => exact ⟨hr, Or.inl (hsame hd rfl rfl)⟩
    | publish hpc hr₀ => exact ⟨hr, Or.inl (hsame hd rfl rfl)⟩
    | markHandedOff hpc hr₀ => exact ⟨hr, Or.inl (hsame hd rfl rfl)⟩
    | takeFirst hpc hseg hsp =>
      rw [hp.spares] at hsp
      cases hsp
    | takeSpare hpc hr hsp =>
      rw [hp.spares] at hsp
      cases hsp
    | switch | granted | full | spin | noSpare | formatSpin => exact ⟨hr, Or.inl hd⟩
    | reset hpc | resetLast hpc | reserveHelper hpc | formatEnter hpc | formatDone hpc | format hpc
    | pushLines hpc | recycle hpc | poolLive hpc | poolWait hpc => simp only [hpc] at ht

theorem step_guard {a : Action} (h : GuardInv s) (hp : PlainInv s)
    (hstep : step cfg s a = some s') : GuardInv s' := by
  have hdead : s'.guard = .alive → ∀ r, r ∈ s'.registered → (s'.rings r).live = false →
      (s'.threads (s'.rings r).threadId).pc = .exited := by
    intro hg r hr hd
    have hg₀ := alive_before hstep hg
    obtain ⟨hr₀, hwas | ⟨t, rfl, hring⟩ | ⟨-, todo, hmark⟩⟩ := dies hp hstep hr hd
    · rw [(step_grows hp hstep hr₀).threadId]
      have hex := h.dead hg₀ r hr₀ hwas
      rw [exited_stays hstep hex]
      exact hex
    · rw [(step_grows hp hstep hr₀).threadId, (hp.ring_mine hring).2]
      simp only [step, exit] at hstep
      split at hstep
      next =>
        split at hstep
        all_goals
          cases hstep
          rw [setThread_threads, Function.update_self]
      next => cases hstep
    · rw [hg₀] at hmark
      cases hmark
  obtain ⟨h₁, h₂, h₃, h₄⟩ := step_order h.order hstep
  exact ⟨h₁, h₂, h₃, h₄, hdead⟩

/-! ## One ring each -/

/-- A thread that has no ring yet. -/
def ringless (th : Thread) : Bool :=
  match th.pc with
  | .initRing | .setInfo _ | .register _ => true
  | .idle => th.ring.isNone
  | _ => false

/-- No handoffs, so a thread registers one ring. -/
structure ClassicInv (s : Sys) : Prop where
  noHandoff : ∀ r, (s.rings r).handedOff = false
  noMark : ∀ t, (s.threads t).pc ≠ .markHandedOff
  first : ∀ t, ringless (s.threads t) = true → ∀ r, r ∈ s.registered → (s.rings r).threadId ≠ t
  one : ∀ r r', r ∈ s.registered → r' ∈ s.registered →
    (s.rings r).threadId = (s.rings r').threadId → r = r'

theorem init_classic : ClassicInv (Sys.init cfg) := ⟨fun _ => rfl, nofun, nofun, nofun⟩

/-- A step that registers no ring. -/
theorem ClassicInv.frame (h : ClassicInv s) (hp : PlainInv s) {a : Action}
    (hstep : step cfg s a = some s') (hregd : s'.registered = s.registered)
    (hoff : ∀ r, (s'.rings r).handedOff = false)
    (hth : ∀ t, s'.threads t = s.threads t ∨
      ((s'.threads t).pc ≠ .markHandedOff ∧
        (ringless (s'.threads t) = true → ringless (s.threads t) = true))) : ClassicInv s' := by
  have hid : ∀ {r}, r ∈ s.registered → (s'.rings r).threadId = (s.rings r).threadId :=
    fun hr => (step_grows hp hstep hr).threadId
  refine ⟨hoff, fun t => ?_, fun t hu r hr => ?_, fun r r' hr hr' heq => ?_⟩
  · rcases hth t with heq | ⟨hne, -⟩
    · rw [heq]
      exact h.noMark t
    · exact hne
  · rw [hregd] at hr
    rw [hid hr]
    rcases hth t with heq | ⟨-, himp⟩
    · exact h.first t (heq ▸ hu) r hr
    · exact h.first t (himp hu) r hr
  · rw [hregd] at hr hr'
    rw [hid hr, hid hr'] at heq
    exact h.one r r' hr hr' heq

theorem thread_classic (hseg : cfg.segmented = false) (h : ClassicInv s) (hp : PlainInv s)
    {t : Nat} (hstep : step cfg s (.thread t) = some s') : ClassicInv s' := by
  have hm : ThreadMove cfg t s s' := threadStep_move hstep
  have ht := hp.threads t
  unfold ThreadOk at ht
  have hset : ∀ {s₁ : Sys} {th : Thread}, s₁.threads = s.threads → th.pc ≠ .markHandedOff →
      (ringless th = true → ringless (s.threads t) = true) → ∀ t',
      (s₁.setThread t th).threads t' = s.threads t' ∨
        (((s₁.setThread t th).threads t').pc ≠ .markHandedOff ∧
          (ringless ((s₁.setThread t th).threads t') = true →
            ringless (s.threads t') = true)) := by
    intro s₁ th hth hne himp t'
    rw [setThread_threads, hth]
    by_cases htt : t' = t
    · rw [htt, Function.update_self]
      exact Or.inr ⟨hne, himp⟩
    · rw [Function.update_of_ne htt]
      exact Or.inl rfl
  have hoff : ∀ {r₀ : Nat} {v : Ring}, v.handedOff = false → ∀ r,
      (Function.update s.rings r₀ v r).handedOff = false := by
    intro r₀ v hv r
    by_cases hr : r = r₀
    · rw [hr, Function.update_self]
      exact hv
    · rw [Function.update_of_ne hr]
      exact h.noHandoff r
  have hless : ∀ {pc : ThreadPc}, (s.threads t).pc = pc →
      (match pc with | .initRing | .setInfo _ | .register _ => True | _ => False) →
      ringless (s.threads t) = true := by
    intro pc hpc hin
    unfold ringless
    rw [hpc]
    cases pc <;> first | rfl | cases hin
  cases hm with
  | allocFirst hpc hsp =>
    exact h.frame hp hstep rfl (hoff rfl) (hset rfl nofun fun _ => hless hpc trivial)
  | allocFresh hpc hr =>
    simp only [hpc] at ht
    have hl := (ht _ hr).2
    rw [h.noHandoff] at hl
    cases hl
  | setInfo hpc =>
    exact h.frame hp hstep rfl (hoff (h.noHandoff _)) (hset rfl nofun fun _ => hless hpc trivial)
  | @register r hpc hl =>
    simp only [hpc] at ht
    have hfirst := h.first t (hless hpc trivial)
    have hother : ∀ {r'}, r' ∈ s.registered →
        (((s.registerRing r).goto t (.switch r)).rings r').threadId = (s.rings r').threadId :=
      fun hr' => (step_grows hp hstep hr').threadId
    have hself : (((s.registerRing r).goto t (.switch r)).rings r).threadId = t := by
      rw [show ((s.registerRing r).goto t (.switch r)).rings
        = Function.update s.rings r { s.rings r with serial := s.nextSerial } from rfl,
        Function.update_self]
      exact ht.2.2.1
    refine ⟨hoff (h.noHandoff r), fun t' => ?_, fun t' hu r' hr' => ?_, fun a b ha hb heq => ?_⟩
    · rw [goto_eq, setThread_threads]
      by_cases htt : t' = t
      · rw [htt, Function.update_self]
        nofun
      · rw [Function.update_of_ne htt]
        exact h.noMark t'
    · rw [goto_eq, setThread_threads] at hu
      have htt : t' ≠ t := by
        rintro rfl
        rw [Function.update_self] at hu
        cases hu
      rw [Function.update_of_ne htt] at hu
      rcases List.mem_append.mp hr' with hr' | hr'
      · rw [hother hr']
        exact h.first t' hu r' hr'
      · rw [List.mem_singleton.mp hr', hself]
        exact htt.symm
    · rcases List.mem_append.mp ha with ha | ha <;> rcases List.mem_append.mp hb with hb | hb
      · rw [hother ha, hother hb] at heq
        exact h.one a b ha hb heq
      · rw [hother ha, List.mem_singleton.mp hb, hself] at heq
        exact absurd heq (hfirst a ha)
      · rw [List.mem_singleton.mp ha, hself, hother hb] at heq
        exact absurd heq.symm (hfirst b hb)
      · rw [List.mem_singleton.mp ha, List.mem_singleton.mp hb]
  | switch hpc => exact h.frame hp hstep rfl h.noHandoff (hset rfl nofun nofun)
  | granted hpc hr hroom => exact h.frame hp hstep rfl h.noHandoff (hset rfl nofun nofun)
  | @full r pc hpc hr hroom hnext =>
    refine h.frame hp hstep rfl h.noHandoff (hset rfl ?_ ?_)
    · rcases hnext with ⟨-, rfl⟩ | ⟨-, rfl⟩ | ⟨hs, -⟩
      · nofun
      · nofun
      · rw [hseg] at hs
        cases hs
    · intro hu
      unfold ringless at hu
      rcases hnext with ⟨-, rfl⟩ | ⟨-, rfl⟩ | ⟨hs, -⟩
      · simp [hr] at hu
      · cases hu
      · rw [hseg] at hs
        cases hs
  | @spin r hpc hr =>
    refine h.frame hp hstep rfl h.noHandoff (hset rfl ?_ ?_)
    · simp only
      split <;> nofun
    · intro hu
      cases hl : (s.rings r).live <;> simp [ringless, hl, hr] at hu
  | @publish r hpc hr =>
    refine h.frame hp hstep rfl (hoff (h.noHandoff r)) (hset rfl nofun fun hu => ?_)
    unfold ringless at hu
    simp [hr] at hu
  | markHandedOff hpc hr => exact absurd hpc (h.noMark t)
  | takeFirst hpc hsg hsp =>
    rw [hseg] at hsg
    cases hsg
  | takeSpare hpc hr hsp =>
    rw [hp.spares] at hsp
    cases hsp
  | noSpare hpc hr hsp => rcases hpc with ⟨hpc, -⟩ | ⟨hpc, -⟩ | ⟨hpc, -⟩ <;> simp only [hpc] at ht
  | formatSpin => exact h
  | reset hpc | resetLast hpc | reserveHelper hpc | formatEnter hpc | formatDone hpc | format hpc
  | pushLines hpc | recycle hpc | poolLive hpc | poolWait hpc => simp only [hpc] at ht

theorem step_classic (hseg : cfg.segmented = false) {a : Action} (h : ClassicInv s)
    (hp : PlainInv s) (hstep : step cfg s a = some s') : ClassicInv s' := by
  have hoff : ∀ {r₀ : Nat}, ∀ r, (Function.update s.rings r₀
      { s.rings r₀ with live := false } r).handedOff = false := by
    intro r₀ r
    by_cases hr : r = r₀
    · rw [hr, Function.update_self]
      exact h.noHandoff r₀
    · rw [Function.update_of_ne hr]
      exact h.noHandoff r
  have hset : ∀ {s₁ : Sys} {t : Nat} {th : Thread}, s₁.threads = s.threads →
      th.pc ≠ .markHandedOff → (ringless th = true → ringless (s.threads t) = true) → ∀ t',
      (s₁.setThread t th).threads t' = s.threads t' ∨
        (((s₁.setThread t th).threads t').pc ≠ .markHandedOff ∧
          (ringless ((s₁.setThread t th).threads t') = true →
            ringless (s.threads t') = true)) := by
    intro s₁ t th hth hne himp t'
    rw [setThread_threads, hth]
    by_cases htt : t' = t
    · rw [htt, Function.update_self]
      exact Or.inr ⟨hne, himp⟩
    · rw [Function.update_of_ne htt]
      exact Or.inl rfl
  cases a with
  | log t total =>
    have hst := hstep
    dsimp only [step, log] at hst
    split at hst
    next hok =>
      split at hst
      next hr =>
        cases hst
        refine h.frame hp hstep rfl h.noHandoff (hset rfl nofun fun _ => ?_)
        unfold ringless
        rw [hok.1, hr]
        rfl
      next hr =>
        cases hst
        exact h.frame hp hstep rfl h.noHandoff (hset rfl nofun nofun)
    next => cases hst
  | exit t =>
    have hst := hstep
    dsimp only [step, exit] at hst
    split at hst
    next =>
      split at hst
      next =>
        cases hst
        exact h.frame hp hstep rfl hoff (hset rfl nofun nofun)
      next =>
        cases hst
        exact h.frame hp hstep rfl h.noHandoff (hset rfl nofun nofun)
    next => cases hst
  | thread t => exact thread_classic hseg h hp hstep
  | wake t =>
    exact absurd (wake_inv hstep).1 (hp.not_asleep t)
  | drain =>
    have hm : DrainMove cfg s s' := drainStep_move hstep
    refine h.frame hp hstep (drain_keeps hm).registered (fun r => ?_)
      fun t => Or.inl (drain_threads hm (hp.not_asleep t))
    rw [(drain_ring_frame hm r).handedOff]
    exact h.noHandoff r
  | guard =>
    have hst := hstep
    dsimp only [step, guardStep] at hst
    repeat' split at hst
    all_goals cases hst
    all_goals first
      | exact h.frame hp hstep rfl h.noHandoff fun _ => Or.inl rfl
      | exact h.frame hp hstep rfl hoff fun _ => Or.inl rfl

/-- All records of a thread are in one ring. -/
theorem ClassicInv.publishedBy (h : ClassicInv s) (ha : Authored s) {x : Rec}
    (hx : x ∈ s.published) {l : List Rec} (hl : ∀ y, y ∈ l → y ∈ s.published) :
    l.filter (·.thread = x.thread) = l.filter (·.ring = x.ring) := by
  refine List.filter_congr fun y hy => ?_
  obtain ⟨hr, hid⟩ := ha x hx
  obtain ⟨hr', hid'⟩ := ha y (hl y hy)
  rw [decide_eq_decide]
  constructor
  · intro heq
    exact h.one _ _ hr' hr (by rw [hid', hid, heq])
  · intro heq
    rw [← hid', ← hid, heq]

end Sys

end Ticklog
