import Ticklog.System.Machine

/-!
# What each access leaves alone

The projections of the state updates, for `simp`, and the coarse frame facts: only the
drain moves the drain and hands records to the sink, only a publication adds to the
history of published records.
-/

namespace Ticklog

namespace Sys

/-! ## Projections of the updates -/

section

variable (s : Sys) (r t : Nat) (v : Ring) (th : Thread) (pc : ThreadPc) (lp : LoopPc)

@[simp] theorem setRing_rings : (s.setRing r v).rings = Function.update s.rings r v := rfl
@[simp] theorem setRing_nextRing : (s.setRing r v).nextRing = s.nextRing := rfl
@[simp] theorem setRing_registry : (s.setRing r v).registry = s.registry := rfl
@[simp] theorem setRing_nextSerial : (s.setRing r v).nextSerial = s.nextSerial := rfl
@[simp] theorem setRing_spares : (s.setRing r v).spares = s.spares := rfl
@[simp] theorem setRing_lines : (s.setRing r v).lines = s.lines := rfl
@[simp] theorem setRing_threads : (s.setRing r v).threads = s.threads := rfl
@[simp] theorem setRing_drain : (s.setRing r v).drain = s.drain := rfl
@[simp] theorem setRing_guard : (s.setRing r v).guard = s.guard := rfl
@[simp] theorem setRing_shutdown : (s.setRing r v).shutdown = s.shutdown := rfl
@[simp] theorem setRing_sink : (s.setRing r v).sink = s.sink := rfl
@[simp] theorem setRing_published : (s.setRing r v).published = s.published := rfl
@[simp] theorem setRing_registered : (s.setRing r v).registered = s.registered := rfl

@[simp] theorem setThread_rings : (s.setThread t th).rings = s.rings := rfl
@[simp] theorem setThread_nextRing : (s.setThread t th).nextRing = s.nextRing := rfl
@[simp] theorem setThread_registry : (s.setThread t th).registry = s.registry := rfl
@[simp] theorem setThread_nextSerial : (s.setThread t th).nextSerial = s.nextSerial := rfl
@[simp] theorem setThread_spares : (s.setThread t th).spares = s.spares := rfl
@[simp] theorem setThread_lines : (s.setThread t th).lines = s.lines := rfl
@[simp] theorem setThread_threads :
    (s.setThread t th).threads = Function.update s.threads t th := rfl
@[simp] theorem setThread_drain : (s.setThread t th).drain = s.drain := rfl
@[simp] theorem setThread_guard : (s.setThread t th).guard = s.guard := rfl
@[simp] theorem setThread_shutdown : (s.setThread t th).shutdown = s.shutdown := rfl
@[simp] theorem setThread_sink : (s.setThread t th).sink = s.sink := rfl
@[simp] theorem setThread_published : (s.setThread t th).published = s.published := rfl
@[simp] theorem setThread_registered : (s.setThread t th).registered = s.registered := rfl

theorem goto_eq : s.goto t pc = s.setThread t { s.threads t with pc := pc } := rfl

@[simp] theorem drainTo_rings : (s.drainTo lp).rings = s.rings := rfl
@[simp] theorem drainTo_nextRing : (s.drainTo lp).nextRing = s.nextRing := rfl
@[simp] theorem drainTo_registry : (s.drainTo lp).registry = s.registry := rfl
@[simp] theorem drainTo_nextSerial : (s.drainTo lp).nextSerial = s.nextSerial := rfl
@[simp] theorem drainTo_spares : (s.drainTo lp).spares = s.spares := rfl
@[simp] theorem drainTo_lines : (s.drainTo lp).lines = s.lines := rfl
@[simp] theorem drainTo_threads : (s.drainTo lp).threads = s.threads := rfl
@[simp] theorem drainTo_drain : (s.drainTo lp).drain = { s.drain with pc := lp } := rfl
@[simp] theorem drainTo_guard : (s.drainTo lp).guard = s.guard := rfl
@[simp] theorem drainTo_shutdown : (s.drainTo lp).shutdown = s.shutdown := rfl
@[simp] theorem drainTo_sink : (s.drainTo lp).sink = s.sink := rfl
@[simp] theorem drainTo_published : (s.drainTo lp).published = s.published := rfl
@[simp] theorem drainTo_registered : (s.drainTo lp).registered = s.registered := rfl

@[simp] theorem recycle_rings : (s.recycle r).rings = s.rings := rfl
@[simp] theorem recycle_nextRing : (s.recycle r).nextRing = s.nextRing := rfl
@[simp] theorem recycle_registry : (s.recycle r).registry = s.registry := rfl
@[simp] theorem recycle_nextSerial : (s.recycle r).nextSerial = s.nextSerial := rfl
@[simp] theorem recycle_spares : (s.recycle r).spares = r :: s.spares := rfl
@[simp] theorem recycle_lines : (s.recycle r).lines = s.lines := rfl
@[simp] theorem recycle_drain : (s.recycle r).drain = s.drain := rfl
@[simp] theorem recycle_guard : (s.recycle r).guard = s.guard := rfl
@[simp] theorem recycle_shutdown : (s.recycle r).shutdown = s.shutdown := rfl
@[simp] theorem recycle_sink : (s.recycle r).sink = s.sink := rfl
@[simp] theorem recycle_published : (s.recycle r).published = s.published := rfl
@[simp] theorem recycle_registered : (s.recycle r).registered = s.registered := rfl

/-- A notification moves sleepers only. -/
theorem recycle_threads :
    (s.recycle r).threads t
      = if (s.threads t).pc = .asleep then { s.threads t with pc := .woken }
        else s.threads t := rfl

end

/-! ## What a thread can do -/

variable {cfg : Config} {s s' : Sys}

theorem popSpare_some {r : Nat} (h : popSpare s = some (r, s')) :
    ∃ rest, s.spares = r :: rest ∧ s' = { s with spares := rest } := by
  unfold popSpare at h
  split at h
  next => cases h
  next r' rest heq =>
    cases h
    exact ⟨rest, heq, rfl⟩

theorem popSpare_none (h : popSpare s = none) : s.spares = [] := by
  unfold popSpare at h
  split at h
  next heq => exact heq
  next => cases h

/-- The accesses a thread can make inside a log call, with their guards: everything
`threadStep` does. -/
inductive ThreadMove (cfg : Config) (t : Nat) (s : Sys) : Sys → Prop where
  | takeFirst {r : Nat} {rest : List Nat} :
      (s.threads t).pc = .initRing → cfg.segmented = true → s.spares = r :: rest →
      ThreadMove cfg t s ({ s with spares := rest }.goto t (.reset .initial r 0))
  | allocFirst :
      (s.threads t).pc = .initRing → (cfg.segmented = true → s.spares = []) →
      ThreadMove cfg t s (alloc t s)
  | reset {why : Reset} {r k : Nat} :
      (s.threads t).pc = .reset why r k → k + 1 < Ring.resetSteps →
      ThreadMove cfg t s
        ((s.setRing r ((s.rings r).resetStore k)).goto t (.reset why r (k + 1)))
  | resetLast {why : Reset} {r k : Nat} :
      (s.threads t).pc = .reset why r k → ¬ k + 1 < Ring.resetSteps →
      ThreadMove cfg t s
        ((s.setRing r ((s.rings r).resetStore k)).goto t (afterReset why r))
  | setInfo {r : Nat} :
      (s.threads t).pc = .setInfo r →
      ThreadMove cfg t s ((s.setRing r { s.rings r with threadId := t }).goto t (.register r))
  | register {r : Nat} :
      (s.threads t).pc = .register r → s.registryLocked = false →
      ThreadMove cfg t s ((s.registerRing r).goto t (.switch r))
  | switch {r : Nat} :
      (s.threads t).pc = .switch r →
      ThreadMove cfg t s (s.setThread t { s.threads t with pc := .reserve, ring := some r })
  | granted {r : Nat} :
      (s.threads t).pc = .reserve → (s.threads t).ring = some r →
      (s.rings r).hasRoom cfg.geometry (s.threads t).total = true →
      ThreadMove cfg t s (s.goto t .publish)
  | full {r : Nat} {pc : ThreadPc} :
      (s.threads t).pc = .reserve → (s.threads t).ring = some r →
      (s.rings r).hasRoom cfg.geometry (s.threads t).total = false →
      ((cfg.policy = .drop ∧ pc = .idle) ∨ (cfg.policy = .block ∧ pc = .spin) ∨
        (cfg.segmented = true ∧ pc = .markHandedOff)) →
      ThreadMove cfg t s (s.goto t pc)
  | spin {r : Nat} :
      (s.threads t).pc = .spin → (s.threads t).ring = some r →
      ThreadMove cfg t s (s.goto t (if (s.rings r).live then .reserve else .idle))
  | publish {r : Nat} :
      (s.threads t).pc = .publish → (s.threads t).ring = some r →
      ThreadMove cfg t s (publish t r s)
  | markHandedOff {r : Nat} :
      (s.threads t).pc = .markHandedOff → (s.threads t).ring = some r →
      ThreadMove cfg t s ((s.setRing r { s.rings r with handedOff := true }).goto t
        (if cfg.policy = .nanoLog then .takeSpare else .allocFresh))
  | takeSpare {r r' : Nat} {rest : List Nat} :
      ((s.threads t).pc = .takeSpare ∨ (s.threads t).pc = .poolTake ∨
        (s.threads t).pc = .woken) →
      (s.threads t).ring = some r → s.spares = r' :: rest →
      ThreadMove cfg t s ({ s with spares := rest }.goto t (.reset .handoff r' 0))
  | noSpare {r : Nat} {pc : ThreadPc} :
      (((s.threads t).pc = .takeSpare ∧ pc = .reserveHelper) ∨
        ((s.threads t).pc = .poolTake ∧ pc = .poolLive) ∨
        ((s.threads t).pc = .woken ∧ pc = .poolTake)) →
      (s.threads t).ring = some r → s.spares = [] →
      ThreadMove cfg t s (s.goto t pc)
  | allocFresh {r : Nat} :
      (s.threads t).pc = .allocFresh → (s.threads t).ring = some r →
      ThreadMove cfg t s (alloc t s)
  | reserveHelper {r : Nat} :
      (s.threads t).pc = .reserveHelper → (s.threads t).ring = some r →
      ThreadMove cfg t s
        ((s.setRing r { s.rings r with helperReserved := true }).goto t .formatWait)
  | formatSpin {r : Nat} :
      (s.threads t).pc = .formatWait → (s.threads t).ring = some r →
      (s.rings r).draining = true → ThreadMove cfg t s s
  | formatEnter {r : Nat} :
      (s.threads t).pc = .formatWait → (s.threads t).ring = some r →
      (s.rings r).draining = false →
      ThreadMove cfg t s (s.goto t (.format .loadTail []))
  | formatDone {r : Nat} {payload : List Rec} :
      (s.threads t).pc = .format .finished payload → (s.threads t).ring = some r →
      ThreadMove cfg t s (s.goto t (.pushLines payload))
  | format {r : Nat} {p p' : Pass} {payload : List Rec} {ring' : Ring} {x : Option Rec} :
      (s.threads t).pc = .format p payload → (s.threads t).ring = some r → p ≠ .finished →
      Pass.step (s.rings r) p = (p', ring', x) →
      ThreadMove cfg t s ((s.setRing r ring').goto t (.format p' (payload ++ x.toList)))
  | pushLines {r : Nat} {payload : List Rec} :
      (s.threads t).pc = .pushLines payload → (s.threads t).ring = some r →
      ThreadMove cfg t s ({ s with lines := s.lines ++ payload }.goto t (.reset .helper r 0))
  | recycle {r : Nat} :
      (s.threads t).pc = .recycle → (s.threads t).ring = some r →
      ThreadMove cfg t s ((s.recycle r).goto t .poolTake)
  | poolLive {r : Nat} :
      (s.threads t).pc = .poolLive → (s.threads t).ring = some r →
      ThreadMove cfg t s (s.goto t (if (s.rings r).live then .poolWait else .idle))
  | poolWait {r : Nat} :
      (s.threads t).pc = .poolWait → (s.threads t).ring = some r →
      ThreadMove cfg t s (s.goto t .asleep)

/-- A full ring sends a thread where its policy says. -/
theorem reserve_move {t r : Nat} (hpc : (s.threads t).pc = .reserve)
    (hr : (s.threads t).ring = some r) : ThreadMove cfg t s (reserve cfg t r s) := by
  unfold reserve
  by_cases hroom : (s.rings r).hasRoom cfg.geometry (s.threads t).total = true
  · rw [if_pos hroom]
    exact .granted hpc hr hroom
  · rw [if_neg hroom]
    rw [Bool.not_eq_true] at hroom
    cases hp : cfg.policy with
    | drop => exact .full hpc hr hroom (Or.inl ⟨hp, rfl⟩)
    | block => exact .full hpc hr hroom (Or.inr (Or.inl ⟨hp, rfl⟩))
    | nanoLog =>
      have hseg : cfg.segmented = true := by simp [Config.segmented, hp]
      exact .full hpc hr hroom (Or.inr (Or.inr ⟨hseg, rfl⟩))
    | quill =>
      have hseg : cfg.segmented = true := by simp [Config.segmented, hp]
      exact .full hpc hr hroom (Or.inr (Or.inr ⟨hseg, rfl⟩))

theorem threadRingStep_move {t r : Nat} {pc : ThreadPc} (hpc : (s.threads t).pc = pc)
    (hr : (s.threads t).ring = some r) (h : threadRingStep cfg t r s pc = some s') :
    ThreadMove cfg t s s' := by
  unfold threadRingStep at h
  split at h
  next =>
    cases h
    exact reserve_move hpc hr
  next =>
    have hmove : ThreadMove cfg t s _ := .spin hpc hr
    split at h
    next hl =>
      cases h
      rwa [if_pos hl] at hmove
    next hl =>
      cases h
      rwa [if_neg hl] at hmove
  next =>
    cases h
    exact .publish hpc hr
  next =>
    have hmove : ThreadMove cfg t s _ := .markHandedOff hpc hr
    simp only at h
    split at h
    next hp =>
      cases h
      rwa [if_pos hp] at hmove
    next hp =>
      cases h
      rwa [if_neg hp] at hmove
  next =>
    split at h
    next r' s₁ hp =>
      cases h
      obtain ⟨rest, hsp, rfl⟩ := popSpare_some hp
      exact .takeSpare (Or.inl hpc) hr hsp
    next hp =>
      cases h
      exact .noSpare (Or.inl ⟨hpc, rfl⟩) hr (popSpare_none hp)
  next =>
    cases h
    exact .allocFresh hpc hr
  next =>
    cases h
    exact .reserveHelper hpc hr
  next =>
    split at h
    next hd =>
      cases h
      exact .formatSpin hpc hr hd
    next hd =>
      cases h
      exact .formatEnter hpc hr (Bool.eq_false_iff.mpr hd)
  next =>
    cases h
    exact .formatDone hpc hr
  next p payload hp =>
    cases h
    exact .format hpc hr hp rfl
  next =>
    cases h
    exact .pushLines hpc hr
  next =>
    cases h
    exact .recycle hpc hr
  next =>
    split at h
    next r' s₁ hp =>
      cases h
      obtain ⟨rest, hsp, rfl⟩ := popSpare_some hp
      exact .takeSpare (Or.inr (Or.inl hpc)) hr hsp
    next hp =>
      cases h
      exact .noSpare (Or.inr (Or.inl ⟨hpc, rfl⟩)) hr (popSpare_none hp)
  next =>
    have hmove : ThreadMove cfg t s _ := .poolLive hpc hr
    split at h
    next hl =>
      cases h
      rwa [if_pos hl] at hmove
    next hl =>
      cases h
      rwa [if_neg hl] at hmove
  next =>
    cases h
    exact .poolWait hpc hr
  next =>
    split at h
    next r' s₁ hp =>
      cases h
      obtain ⟨rest, hsp, rfl⟩ := popSpare_some hp
      exact .takeSpare (Or.inr (Or.inr hpc)) hr hsp
    next hp =>
      cases h
      exact .noSpare (Or.inr (Or.inr ⟨hpc, rfl⟩)) hr (popSpare_none hp)
  next => cases h

/-- Every access of a thread inside a log call is one of the moves. -/
theorem threadStep_move {t : Nat} (h : threadStep cfg t s = some s') :
    ThreadMove cfg t s s' := by
  unfold threadStep at h
  simp only at h
  split at h
  next hpc =>
    split at h
    next hseg =>
      split at h
      next r s₁ hp =>
        cases h
        obtain ⟨rest, hsp, rfl⟩ := popSpare_some hp
        exact .takeFirst hpc hseg hsp
      next hp =>
        cases h
        exact .allocFirst hpc fun _ => popSpare_none hp
    next hseg =>
      cases h
      exact .allocFirst hpc fun h => absurd h hseg
  next why r k hpc =>
    split at h
    next hk =>
      cases h
      exact .reset hpc hk
    next hk =>
      cases h
      exact .resetLast hpc hk
  next r hpc =>
    cases h
    exact .setInfo hpc
  next r hpc =>
    split at h
    next => cases h
    next hl =>
      cases h
      exact .register hpc (Bool.eq_false_iff.mpr hl)
  next r hpc =>
    cases h
    exact .switch hpc
  next =>
    split at h
    next r hr => exact threadRingStep_move rfl hr h
    next => cases h

/-! ## The other agents -/

/-- A log call starts at an idle thread. -/
theorem log_inv {t total : Nat} (h : log t total s = some s') :
    (s.threads t).pc = .idle ∧ ∃ pc, (pc = .initRing ∨ pc = .reserve) ∧
      s' = s.setThread t { s.threads t with pc := pc, total := total } := by
  simp only [log] at h
  split at h
  next hcall =>
    refine ⟨hcall.1, ?_⟩
    split at h
    next =>
      cases h
      exact ⟨.initRing, Or.inl rfl, rfl⟩
    next =>
      cases h
      exact ⟨.reserve, Or.inr rfl, rfl⟩
  next => cases h

/-- An idle thread exits; the ring it had, if any, dies. -/
theorem exit_inv {t : Nat} (h : exit t s = some s') :
    (s.threads t).pc = .idle ∧
      ((∃ r, (s.threads t).ring = some r ∧
        s' = (s.setRing r { s.rings r with live := false }).setThread t
          { s.threads t with pc := .exited, ring := none }) ∨
      ((s.threads t).ring = none ∧
        s' = s.setThread t { s.threads t with pc := .exited })) := by
  simp only [exit] at h
  split at h
  next hpc =>
    refine ⟨hpc, ?_⟩
    split at h
    next r hr =>
      cases h
      exact Or.inl ⟨r, hr, rfl⟩
    next hr =>
      cases h
      exact Or.inr ⟨hr, rfl⟩
  next => cases h

theorem wake_inv {t : Nat} (h : wake t s = some s') :
    (s.threads t).pc = .asleep ∧ s' = s.goto t .woken := by
  simp only [wake] at h
  split at h
  next hpc =>
    cases h
    exact ⟨hpc, rfl⟩
  next => cases h

/-- Everything `guardStep` does. -/
inductive GuardMove (s : Sys) : Sys → Prop where
  | lock :
      s.guard = .alive → s.registryLocked = false →
      GuardMove s { s with guard := .marking s.registry }
  | mark {r : Nat} {rest : List Nat} :
      s.guard = .marking (r :: rest) →
      GuardMove s { s.setRing r { s.rings r with live := false } with guard := .marking rest }
  | unlock : s.guard = .marking [] → GuardMove s { s with guard := .signal }
  | signal : s.guard = .signal → GuardMove s { s with shutdown := true, guard := .joining }
  | joined :
      s.guard = .joining → s.drain.pc = .stopped → GuardMove s { s with guard := .dropped }

theorem guardStep_move (h : guardStep s = some s') : GuardMove s s' := by
  unfold guardStep at h
  split at h
  next hg =>
    split at h
    next => cases h
    next hl =>
      cases h
      exact .lock hg (Bool.eq_false_iff.mpr hl)
  next hg =>
    cases h
    exact .mark hg
  next hg =>
    cases h
    exact .unlock hg
  next hg =>
    cases h
    exact .signal hg
  next hg =>
    split at h
    next hst =>
      cases h
      exact .joined hg hst
    next => cases h
  next => cases h

/-! ## Coarse frames -/

/-- A thread inside its log call leaves the drain, the guard and the sink alone. -/
theorem ThreadMove.frame {t : Nat} (h : ThreadMove cfg t s s') :
    s'.drain = s.drain ∧ s'.guard = s.guard ∧ s'.shutdown = s.shutdown ∧ s'.sink = s.sink := by
  cases h <;> exact ⟨rfl, rfl, rfl, rfl⟩

/-- Only the drain moves the drain and feeds the sink. -/
theorem step_drain_frame {a : Action} (ha : a ≠ .drain) (h : step cfg s a = some s') :
    s'.drain = s.drain ∧ s'.sink = s.sink := by
  cases a with
  | log t total =>
    simp only [step, log] at h
    repeat' split at h
    all_goals cases h <;> exact ⟨rfl, rfl⟩
  | exit t =>
    simp only [step, exit] at h
    repeat' split at h
    all_goals cases h <;> exact ⟨rfl, rfl⟩
  | thread t =>
    obtain ⟨hd, -, -, hs⟩ := (threadStep_move h).frame
    exact ⟨hd, hs⟩
  | wake t =>
    simp only [step, wake] at h
    split at h <;> cases h
    exact ⟨rfl, rfl⟩
  | drain => exact absurd rfl ha
  | guard =>
    simp only [step, guardStep] at h
    repeat' split at h
    all_goals cases h <;> exact ⟨rfl, rfl⟩

end Sys

end Ticklog
