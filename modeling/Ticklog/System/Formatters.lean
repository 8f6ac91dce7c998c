import Ticklog.System.Intact

/-!
# One formatter for each segment (`src/drain.rs`, `src/segments.rs`)

Under NanoLog two parties run `drain_ring_inner`: the drain, behind its test of
`helper_reserved`, and a producer that found the pool empty, behind its test of `draining`.
Test and mark are two accesses on either side. `FormatOk` says when the two stay apart: the
drain marks no ring that somebody formats or rewinds already, and nobody rewinds a ring,
`draining` included, during the drain's pass over it.
-/

namespace Ticklog

open Lib

namespace Sys

variable {cfg : Config} {s s' : Sys}

/-- The ring the drain is inside `drain_ring` of, between the two stores to `draining`. -/
def passing : LoopPc → Option Nat
  | .pass _ r _ | .clear _ r => some r
  | _ => none

/-- The ring a thread formats as a helper or rewinds. -/
def reworking (th : Thread) : Option Nat :=
  match th.pc with
  | .format _ _ => th.ring
  | .reset _ r _ => some r
  | _ => none

/-- Nobody dies, the two parties that return segments keep apart, and so do those that format
and rewind them. -/
def FormatOk (s : Sys) : Action → Prop
  | .log _ _ | .wake _ => True
  | .thread t => OwnOk s (.thread t) ∧
      ∀ why r k, (s.threads t).pc = .reset why r k → passing s.drain.pc ≠ some r
  | .drain => OwnOk s .drain ∧
      ∀ ctx r, s.drain.pc = .mark ctx r → ∀ t, reworking (s.threads t) ≠ some r
  | .exit _ | .guard => False

theorem FormatOk.own {a : Action} (h : FormatOk s a) : OwnOk s a := by
  cases a with
  | thread t => exact h.1
  | drain => exact h.1
  | log | wake => trivial
  | exit | guard => exact h.elim

/-! ## Mutual exclusion -/

/-- During a pass of the drain its ring is marked, and nobody else formats or rewinds it. -/
structure Apart (s : Sys) : Prop where
  marked : ∀ r, passing s.drain.pc = some r → (s.rings r).draining = true
  unformatted : ∀ r, passing s.drain.pc = some r → ∀ t p payload,
    (s.threads t).ring = some r → (s.threads t).pc ≠ .format p payload
  unrewound : ∀ r, passing s.drain.pc = some r → ∀ t why k,
    (s.threads t).pc = .reset why r k → k = 0

theorem init_apart : Apart (Sys.init cfg) := ⟨nofun, nofun, nofun⟩

theorem passing_known {r : Nat} (h : passing s.drain.pc = some r) : Known s r := by
  refine Or.inr (Or.inr (Or.inr ?_))
  cases hpc : s.drain.pc with
  | pass ctx r' p | clear ctx r' =>
    rw [hpc] at h
    rw [Option.some.inj h]
    exact List.mem_singleton_self r
  | _ =>
    rw [hpc] at h
    cases h

/-- The drain enters a pass through its mark. -/
theorem drain_passing (hm : DrainMove cfg s s') {r : Nat} (h : passing s'.drain.pc = some r) :
    (passing s.drain.pc = some r ∧ (s'.rings r).draining = (s.rings r).draining) ∨
      ((∃ ctx, s.drain.pc = .mark ctx r) ∧ (s'.rings r).draining = true) := by
  have hscan : syncing s'.drain.pc = true → False := by
    intro hs
    cases hpc : s'.drain.pc with
    | pass | clear =>
      rw [hpc] at hs
      cases hs
    | _ =>
      rw [hpc] at h
      cases h
  cases hm with
  | @mark ctx r₀ hpc =>
    obtain rfl : r₀ = r := Option.some.inj h
    refine Or.inr ⟨⟨ctx, hpc⟩, ?_⟩
    rw [drainTo_rings, setRing_rings, Function.update_self]
  | passDone hpc =>
    refine Or.inl ⟨?_, rfl⟩
    rw [hpc]
    exact h
  | @pass ctx r₀ p p' ring' x hpc hp hst =>
    obtain rfl : r₀ = r := Option.some.inj h
    refine Or.inl ⟨?_, ?_⟩
    · rw [hpc]
      rfl
    · rw [drainTo_rings, acceptAll_rings, setRing_rings, Function.update_self,
        Pass.step_draining hst]
  | syncNext hpc hsub => exact (hscan (syncNext_syncing _)).elim
  | syncLive hpc hsub hl => exact (hscan (syncDecide_syncing hpc)).elim
  | syncDead hpc hsub => exact (hscan (syncDecide_syncing hpc)).elim
  | enter hpc hsh hnext => rcases hnext with rfl | ⟨-, rfl⟩ <;> cases h
  | pollDone hpc he hnext => rcases hnext with ⟨-, rfl⟩ | ⟨-, rfl⟩ <;> cases h
  | @clear ctx r₀ hpc =>
    cases ctx with
    | final =>
      simp only [drainTo_drain, afterPass] at h
      split at h <;> cases h
    | poll i k => cases h
  | retired =>
    dsimp only at h
    split at h <;> cases h
  | @notRecycled ctx r₀ hpc hno => cases ctx <;> cases h
  | @recycle ctx r₀ hpc => cases ctx <;> cases h
  | _ => cases h

/-- A thread starts to format where it finds its ring unmarked. -/
theorem thread_formats {t : Nat} (hm : ThreadMove cfg t s s') {p : Pass} {payload : List Rec}
    (h : (s'.threads t).pc = .format p payload) :
    (s'.threads t).ring = (s.threads t).ring ∧
      ((∃ p' payload', (s.threads t).pc = .format p' payload') ∨
        ∃ r, (s.threads t).ring = some r ∧ (s.rings r).draining = false) := by
  cases hm with
  | formatEnter hpc hr hd =>
    rw [threads_goto]
    exact ⟨rfl, Or.inr ⟨_, hr, hd⟩⟩
  | format hpc hr =>
    rw [threads_goto]
    exact ⟨rfl, Or.inl ⟨_, _, hpc⟩⟩
  | formatSpin hpc =>
    rw [hpc] at h
    cases h
  | @resetLast why r k hpc hk =>
    rw [threads_goto] at h
    cases why <;> cases h
  | full hpc hr hroom hnext =>
    rw [threads_goto] at h
    rcases hnext with ⟨-, rfl⟩ | ⟨-, rfl⟩ | ⟨-, rfl⟩ <;> cases h
  | noSpare hpc =>
    rw [threads_goto] at h
    rcases hpc with ⟨-, rfl⟩ | ⟨-, rfl⟩ | ⟨-, rfl⟩ <;> cases h
  | spin | markHandedOff | poolLive =>
    rw [threads_goto] at h
    dsimp only at h
    split at h <;> cases h
  | switch =>
    rw [threads_self] at h
    cases h
  | publish =>
    rw [show (publish t _ s).threads t = _ from threads_self _ _ _] at h
    cases h
  | allocFirst | allocFresh =>
    rw [show (alloc t s).threads t = _ from threads_goto _ _ _] at h
    cases h
  | _ =>
    rw [threads_goto] at h
    cases h

/-- A rewind goes from one store to the next. -/
theorem thread_rewinds {t : Nat} (hm : ThreadMove cfg t s s') {why : Reset} {r k : Nat}
    (h : (s'.threads t).pc = .reset why r k) :
    k = 0 ∨ ∃ k', k = k' + 1 ∧ (s.threads t).pc = .reset why r k' := by
  cases hm with
  | takeFirst | takeSpare | pushLines =>
    rw [threads_goto] at h
    cases h
    exact Or.inl rfl
  | reset hpc =>
    rw [threads_goto] at h
    cases h
    exact Or.inr ⟨_, rfl, hpc⟩
  | formatSpin hpc =>
    rw [hpc] at h
    cases h
  | @resetLast why' r' k' hpc hk =>
    rw [threads_goto] at h
    cases why' <;> cases h
  | full hpc hr hroom hnext =>
    rw [threads_goto] at h
    rcases hnext with ⟨-, rfl⟩ | ⟨-, rfl⟩ | ⟨-, rfl⟩ <;> cases h
  | noSpare hpc =>
    rw [threads_goto] at h
    rcases hpc with ⟨-, rfl⟩ | ⟨-, rfl⟩ | ⟨-, rfl⟩ <;> cases h
  | spin | markHandedOff | poolLive =>
    rw [threads_goto] at h
    dsimp only at h
    split at h <;> cases h
  | switch =>
    rw [threads_self] at h
    cases h
  | publish =>
    rw [show (publish t _ s).threads t = _ from threads_self _ _ _] at h
    cases h
  | allocFirst | allocFresh =>
    rw [show (alloc t s).threads t = _ from threads_goto _ _ _] at h
    cases h
  | _ =>
    rw [threads_goto] at h
    cases h

/-- Outside a rewind nobody but the drain unmarks a ring. -/
theorem RingWrite.keepsMark {a : Action} {r : Nat} {v : Ring} (h : RingWrite s r a v)
    (hno : ∀ t why k, a = .thread t → (s.threads t).pc ≠ .reset why r k) :
    v.draining = (s.rings r).draining := by
  cases h with
  | reset hpc => exact absurd hpc (hno _ _ _ rfl)
  | format hpc hr hst => exact Pass.step_draining hst
  | _ => rfl

/-- What the other agents find of a pass under way. -/
theorem drain_apart (h : Apart s) (hok : FormatOk s .drain) (hstep : step cfg s .drain = some s') :
    Apart s' := by
  have hm : DrainMove cfg s s' := drainStep_move hstep
  -- a thread the drain moves was asleep
  have hth : ∀ t, s'.threads t = s.threads t ∨
      s'.threads t = { s.threads t with pc := .woken } := by
    intro t
    have hact : Action.drain.actor ≠ some t := nofun
    exact (step_wakes hact hstep).imp id fun h => h.2.1
  refine ⟨fun r hp => ?_, fun r hp t p payload => ?_, fun r hp t why k => ?_⟩
  · rcases drain_passing hm hp with ⟨hp, heq⟩ | ⟨-, hd⟩
    · exact heq.trans (h.marked r hp)
    · exact hd
  · rcases hth t with ht | ht
    · rw [ht]
      rcases drain_passing hm hp with ⟨hp, -⟩ | ⟨⟨ctx, hpc⟩, -⟩
      · exact h.unformatted r hp t p payload
      · intro hr hpc'
        refine hok.2 ctx r hpc t ?_
        unfold reworking
        rw [hpc']
        exact hr
    · rw [ht]
      nofun
  · rcases hth t with ht | ht
    · rw [ht]
      rcases drain_passing hm hp with ⟨hp, -⟩ | ⟨⟨ctx, hpc⟩, -⟩
      · exact h.unrewound r hp t why k
      · intro hpc'
        refine absurd ?_ (hok.2 ctx r hpc t)
        unfold reworking
        rw [hpc']
    · rw [ht]
      nofun

theorem thread_apart (hb : Bounded s) (h : Apart s) {t : Nat} (hok : FormatOk s (.thread t))
    (hstep : step cfg s (.thread t) = some s') : Apart s' := by
  have hm : ThreadMove cfg t s s' := threadStep_move hstep
  have hd : s'.drain = s.drain := hm.frame.1
  have hth : ∀ t', t' ≠ t → s'.threads t' = s.threads t' ∨
      s'.threads t' = { s.threads t' with pc := .woken } := by
    intro t' hne
    have hact : (Action.thread t).actor ≠ some t' := fun heq => hne (Option.some.inj heq).symm
    exact (step_wakes hact hstep).imp id fun h => h.2.1
  refine ⟨fun r hp => ?_, fun r hp t' p payload hr hpc' => ?_, fun r hp t' why k hpc' => ?_⟩
  · have hlt : r < s.nextRing := hb r (Or.inl (passing_known (hd ▸ hp)))
    rw [(thread_writes hm hlt).keepsMark fun t' why k ha hpc => ?_]
    · exact h.marked r (hd ▸ hp)
    · cases ha
      exact hok.2 why r k hpc (hd ▸ hp)
  · by_cases ht : t' = t
    · subst ht
      obtain ⟨hring, ⟨p', payload', hpc⟩ | ⟨r', hr', hno⟩⟩ := thread_formats hm hpc'
      · exact h.unformatted r (hd ▸ hp) t' p' payload' (hring ▸ hr) hpc
      · obtain rfl : r = r' := Option.some.inj (hr.symm.trans (hring.trans hr'))
        rw [h.marked r (hd ▸ hp)] at hno
        cases hno
    · rcases hth t' ht with heq | heq
      · rw [heq] at hr hpc'
        exact h.unformatted r (hd ▸ hp) t' p payload hr hpc'
      · rw [heq] at hpc'
        cases hpc'
  · by_cases ht : t' = t
    · subst ht
      rcases thread_rewinds hm hpc' with hk | ⟨k', -, hpc⟩
      · exact hk
      · exact absurd (hd ▸ hp) (hok.2 why r k' hpc)
    · rcases hth t' ht with heq | heq
      · rw [heq] at hpc'
        exact h.unrewound r (hd ▸ hp) t' why k hpc'
      · rw [heq] at hpc'
        cases hpc'

theorem step_apart (hb : Bounded s) (h : Apart s) {a : Action} (hok : FormatOk s a)
    (hstep : step cfg s a = some s') : Apart s' := by
  have hquiet : ∀ {t : Nat} {th : Thread}, (∀ p payload, th.pc ≠ .format p payload) →
      (∀ why r k, th.pc ≠ .reset why r k) → Apart (s.setThread t th) := by
    intro t th hf hr
    refine ⟨h.marked, fun r hp t' p payload => ?_, fun r hp t' why k => ?_⟩
    all_goals
      rw [setThread_threads]
      by_cases ht : t' = t
      · rw [ht, Function.update_self]
        intros
        first | exact hf _ _ | exact absurd ‹_› (hr _ _ _)
      · rw [Function.update_of_ne ht]
        first | exact h.unformatted r hp t' p payload | exact h.unrewound r hp t' why k
  cases a with
  | log t total =>
    obtain ⟨-, pc, hpc, rfl⟩ := log_inv hstep
    rcases hpc with rfl | rfl <;> exact hquiet nofun nofun
  | wake t =>
    obtain ⟨-, rfl⟩ := wake_inv hstep
    exact hquiet nofun nofun
  | thread t => exact thread_apart hb h hok hstep
  | drain => exact drain_apart h hok hstep
  | exit | guard => exact hok.elim

/-! ## What the runs keep -/

/-- What runs under the condition keep. -/
structure FormatInv (s : Sys) : Prop where
  own : OwnInv s
  intact : Intact s
  apart : Apart s
  numbered : Numbered s

theorem init_format : FormatInv (Sys.init cfg) :=
  ⟨init_own, init_intact, init_apart, init_numbered⟩

theorem FormatOk.undying {a : Action} (h : FormatOk s a) : Undying s a := by
  cases a with
  | exit | guard => exact h.elim
  | log | thread | wake | drain => trivial

theorem step_format {a : Action} (h : FormatInv s) (hok : FormatOk s a)
    (hstep : step cfg s a = some s') : FormatInv s' where
  own := step_own h.own hok.own hstep
  intact := step_intact h.intact hok.undying hstep
  apart := step_apart h.own.hold.bounded h.apart hok hstep
  numbered := step_numbered h.numbered hstep

end Sys

end Ticklog
