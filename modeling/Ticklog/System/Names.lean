import Ticklog.System.Classic
import Ticklog.System.Naming

/-!
# Every line shows its thread

A formatter's id is right for its whole pass if nobody renames the ring meanwhile and the
ring's records are all its thread's. Under Drop, Block and Quill a ring is named once, before
anybody can find it; under NanoLog a segment is renamed when its next producer takes it, so the
drain must not be inside a pass over it then (`NameOk`). The example at the end is a run where it
is.
-/

namespace Ticklog

open Lib

namespace Labelled

open Sys

variable {cfg : Config} {l : Labelled} {s s' : Sys}

/-! ## Where a formatter's position and its records come from -/

/-- The first access of a pass reads no record. -/
theorem step_reads {ring : Ring} {p : Pass} {x : Rec} (h : (Pass.step ring p).2.2 = some x) :
    p ≠ .loadTail := by
  rintro rfl
  cases h

/-- A drain inside a pass stays on its ring until it is done. -/
theorem pass_before {a : Action} (hstep : Sys.step cfg s a = some s') {ctx : PassCtx} {r : Nat}
    {p : Pass} (hpc : s'.drain.pc = .pass ctx r p) :
    (∃ p₀, s.drain.pc = .pass ctx r p₀) ∨ (a = .drain ∧ s.drain.pc = .mark ctx r ∧
      p = .loadTail) := by
  by_cases ha : a = .drain
  · subst ha
    have hm : DrainMove cfg s s' := drainStep_move hstep
    have hscan : syncing s'.drain.pc = true → False := by
      intro hs
      rw [hpc] at hs
      cases hs
    cases hm with
    | syncNext hpc₀ hsub => exact (hscan (syncNext_syncing _)).elim
    | syncLive hpc₀ => exact (hscan (syncDecide_syncing hpc₀)).elim
    | syncDead hpc₀ => exact (hscan (syncDecide_syncing hpc₀)).elim
    | mark hpc₀ =>
      cases hpc
      exact .inr ⟨rfl, hpc₀, rfl⟩
    | pass hpc₀ =>
      cases hpc
      exact .inl ⟨_, hpc₀⟩
    | enter hpc₀ hsh hnext => rcases hnext with rfl | ⟨-, rfl⟩ <;> cases hpc
    | pollDone hpc₀ he hnext => rcases hnext with ⟨-, rfl⟩ | ⟨-, rfl⟩ <;> cases hpc
    | @clear ctx₀ =>
      cases ctx₀ with
      | final =>
        simp only [drainTo_drain, afterPass] at hpc
        split at hpc <;> cases hpc
      | poll i k => cases hpc
    | retired =>
      dsimp only at hpc
      split at hpc <;> cases hpc
    | @notRecycled ctx₀ => cases ctx₀ <;> cases hpc
    | @recycle ctx₀ => cases ctx₀ <;> cases hpc
    | _ => cases hpc
  · rw [(step_drain_frame ha hstep).1] at hpc
    exact .inl ⟨p, hpc⟩

/-- A helper stays on its ring, too. -/
theorem formatting_before {a : Action} (hstep : Sys.step cfg s a = some s') {t r : Nat} {p : Pass}
    (hf : formatting (s'.threads t) = some (r, p)) :
    (∃ p₀, formatting (s.threads t) = some (r, p₀) ∧
      (a = .thread t ∨ s'.threads t = s.threads t)) ∨
      (formatting (s.threads t) = none ∧ p = .loadTail) := by
  by_cases hact : a.actor = some t
  · cases a with
    | thread t' =>
      obtain rfl : t' = t := Option.some.inj hact
      obtain ⟨hring, payload, hpc⟩ := formatting_ring hf
      have hm : ThreadMove cfg t' s s' := threadStep_move hstep
      cases hm with
      | formatEnter hpc₀ hr₀ hd =>
        rw [threads_goto] at hpc
        cases hpc
        refine .inr ⟨?_, rfl⟩
        unfold formatting
        rw [hpc₀]
      | formatSpin hpc₀ =>
        rw [hpc₀] at hpc
        cases hpc
      | @format r₀ p₀ p' payload₀ ring' x hpc₀ hr₀ hp hst =>
        rw [threads_goto] at hring
        refine .inl ⟨p₀, ?_, .inl rfl⟩
        unfold formatting
        rw [hpc₀, show (s.threads t').ring = some r from hring]
      | resetLast hpc₀ =>
        rw [threads_goto] at hpc
        unfold afterReset at hpc
        dsimp only at hpc
        split at hpc <;> cases hpc
      | full hpc₀ hr₀ hroom hnext =>
        rw [threads_goto] at hpc
        rcases hnext with ⟨-, rfl⟩ | ⟨-, rfl⟩ | ⟨-, rfl⟩ <;> cases hpc
      | noSpare hpc₀ =>
        rw [threads_goto] at hpc
        rcases hpc₀ with ⟨-, rfl⟩ | ⟨-, rfl⟩ | ⟨-, rfl⟩ <;> cases hpc
      | spin | poolLive =>
        rw [threads_goto] at hpc
        dsimp only at hpc
        split at hpc <;> cases hpc
      | markHandedOff =>
        rw [threads_goto] at hpc
        dsimp only at hpc
        split at hpc <;> cases hpc
      | switch =>
        rw [threads_self] at hpc
        cases hpc
      | publish =>
        rw [show (publish t' _ s).threads t' = _ from threads_self _ _ _] at hpc
        cases hpc
      | allocFirst | allocFresh =>
        rw [show (alloc t' s).threads t' = _ from threads_goto _ _ _] at hpc
        cases hpc
      | _ =>
        rw [threads_goto] at hpc
        cases hpc
    | log t' total =>
      obtain rfl : t' = t := Option.some.inj hact
      obtain ⟨-, pc, hpc, rfl⟩ := log_inv hstep
      rw [threads_self] at hf
      rcases hpc with rfl | rfl <;> cases hf
    | exit t' =>
      obtain rfl : t' = t := Option.some.inj hact
      obtain ⟨-, ⟨r₀, -, rfl⟩ | ⟨-, rfl⟩⟩ := exit_inv hstep
      all_goals
        rw [threads_self] at hf
        cases hf
    | wake t' =>
      obtain rfl : t' = t := Option.some.inj hact
      obtain ⟨-, rfl⟩ := wake_inv hstep
      rw [threads_goto] at hf
      cases hf
    | drain | guard => cases hact
  · rcases step_wakes hact hstep with hth | ⟨-, hth, -⟩
    · rw [hth] at hf
      exact .inl ⟨p, hf, .inr hth⟩
    · rw [hth] at hf
      cases hf

/-- What the sink gets was rendered from a ring just now, or was queued. -/
theorem delivered_before {a : Action} (hstep : Sys.step cfg s a = some s') {x : Rec}
    (hx : x ∈ s'.delivered) :
    x ∈ s.delivered ∨ x ∈ s.queued ∨ (a = .drain ∧ drainReads s = some x) := by
  by_cases ha : a = .drain
  · subst ha
    have hm : DrainMove cfg s s' := drainStep_move hstep
    have hsame : s'.sink = s.sink → x ∈ s.delivered := by
      intro hsink
      unfold delivered at hx ⊢
      rwa [hsink] at hx
    cases hm with
    | @pass ctx r p p' ring' y hpc hp hst =>
      have happ : x ∈ (acceptAll (PassCtx.path ctx) y.toList (s.setRing r ring')).delivered := hx
      rw [delivered_acceptAll] at happ
      rcases List.mem_append.mp happ with hx | hx
      · exact .inl hx
      · refine .inr (.inr ⟨rfl, ?_⟩)
        unfold drainReads
        rw [hpc]
        show (Pass.step (s.rings r) p).2.2 = some x
        rw [hst]
        simpa using hx
    | @deliver y rest hpc =>
      have happ : x ∈ (acceptAll .queue [y] s).delivered := hx
      rw [delivered_acceptAll] at happ
      rcases List.mem_append.mp happ with hx | hx
      · exact .inl hx
      · rw [List.mem_singleton.mp hx]
        refine .inr (.inl ?_)
        unfold queued
        rw [hpc]
        exact List.mem_append_left _ List.mem_cons_self
    | lastFlush | flush => exact .inl (by simpa [delivered] using hx)
    | syncNext => exact .inl (hsame (syncNext_frame _).sink)
    | syncLive | syncDead => exact .inl (hsame (syncDecide_frame _ _).sink)
    | _ => exact .inl hx
  · refine .inl ?_
    unfold delivered at hx ⊢
    rwa [(step_drain_frame ha hstep).2] at hx

/-- The queue grows by what a helper has collected. -/
theorem thread_lines {t : Nat} (hm : ThreadMove cfg t s s') :
    s'.lines = s.lines ∨
      ∃ r payload, loaded (s.threads t) = some (r, payload) ∧ s'.lines = s.lines ++ payload := by
  cases hm with
  | pushLines hpc hr => exact .inr ⟨_, _, loaded_pushLines hpc hr, rfl⟩
  | _ => exact .inl rfl

theorem queued_before {a : Action} (hstep : Sys.step cfg s a = some s') {x : Rec}
    (hx : x ∈ s'.queued) :
    x ∈ s.queued ∨
      ∃ t r payload, loaded (s.threads t) = some (r, payload) ∧ x ∈ payload := by
  by_cases ha : a = .drain
  · subst ha
    have hm : DrainMove cfg s s' := drainStep_move hstep
    -- away from the queue on both sides
    have hoff : offPass s.drain.pc = true → offPass s'.drain.pc = true → s'.lines = s.lines →
        x ∈ s.queued := by
      intro hpc hpc' hlines
      rw [queued_offPass hpc', hlines] at hx
      rw [queued_offPass hpc]
      exact hx
    refine .inl ?_
    cases hm with
    | pass hpc =>
      unfold queued at hx ⊢
      rw [hpc]
      exact hx
    | passDone hpc =>
      unfold queued at hx ⊢
      rw [hpc]
      exact hx
    | takeLines hpc =>
      rw [queued_offPass (by rw [hpc]; rfl)]
      have hq : x ∈ s.lines ++ ([] : List Rec) := hx
      rwa [List.append_nil] at hq
    | @deliver y rest hpc =>
      unfold queued
      rw [hpc]
      have hq : x ∈ rest ++ s.lines := hx
      exact List.mem_cons_of_mem y hq
    | delivered hpc =>
      unfold queued
      rw [hpc]
      exact hx
    | syncNext hpc =>
      exact hoff (by rw [hpc]; rfl) (syncing_offPass (syncNext_syncing _)) (syncNext_frame _).lines
    | syncLive hpc | syncDead hpc =>
      exact hoff (by rw [hpc]; rfl) (syncing_offPass (syncDecide_syncing hpc))
        (syncDecide_frame _ _).lines
    | mark hpc =>
      unfold queued at hx ⊢
      rw [hpc]
      exact hx
    | clear hpc => exact hoff (by rw [hpc]; rfl) (offPass_afterPass _ _) rfl
    | enter hpc hsh hnext =>
      rcases hnext with rfl | ⟨-, rfl⟩ <;> exact hoff (by rw [hpc]; rfl) rfl rfl
    | pollDone hpc he hnext =>
      rcases hnext with ⟨-, rfl⟩ | ⟨-, rfl⟩ <;> exact hoff (by rw [hpc]; rfl) rfl rfl
    | retired hpc =>
      refine hoff (by rw [hpc]; rfl) ?_ rfl
      dsimp only
      split <;> rfl
    | @notRecycled ctx r hpc | @recycle ctx r hpc =>
      cases ctx <;> exact hoff (by rw [hpc]; rfl) rfl rfl
    | keepEntry hpc | handedOff hpc | notReserved hpc | sameSerial hpc | loadHead hpc
    | drained hpc | markRecycled hpc | lastPoll hpc | worked hpc | idleDirty hpc | idleClean hpc
    | lastFlush hpc | flush hpc | again hpc | skip hpc | unreserved hpc | entry hpc | stale hpc
    | finalRing hpc | finalDone hpc | syncHalf hpc | lock hpc | leave hpc =>
      exact hoff (by rw [hpc]; rfl) rfl rfl
  · have hsame : s'.lines = s.lines → x ∈ s.queued := by
      intro hlines
      unfold queued at hx ⊢
      rwa [hlines, (step_drain_frame ha hstep).1] at hx
    cases a with
    | thread t =>
      rcases thread_lines (threadStep_move hstep) with hlines | ⟨r, payload, hl, hlines⟩
      · exact .inl (hsame hlines)
      · unfold queued at hx
        rw [hlines, (step_drain_frame ha hstep).1, ← List.append_assoc] at hx
        exact (List.mem_append.mp hx).imp id fun hx => ⟨t, r, payload, hl, hx⟩
    | log t total =>
      obtain ⟨-, pc, -, rfl⟩ := log_inv hstep
      exact .inl (hsame rfl)
    | exit t =>
      obtain ⟨-, ⟨r, -, rfl⟩ | ⟨-, rfl⟩⟩ := exit_inv hstep <;> exact .inl (hsame rfl)
    | wake t =>
      obtain ⟨-, rfl⟩ := wake_inv hstep
      exact .inl (hsame rfl)
    | guard =>
      have hm : GuardMove s s' := guardStep_move hstep
      refine .inl (hsame ?_)
      cases hm <;> rfl
    | drain => exact absurd rfl ha

/-- What a helper has collected it had, or has just read. -/
theorem loaded_before {a : Action} (hstep : Sys.step cfg s a = some s') {t r : Nat}
    {payload : List Rec} (hl : loaded (s'.threads t) = some (r, payload)) {x : Rec}
    (hx : x ∈ payload) :
    (∃ payload₀, loaded (s.threads t) = some (r, payload₀) ∧ x ∈ payload₀) ∨
      (a = .thread t ∧ helperReads s t = some x) := by
  by_cases hact : a.actor = some t
  · cases a with
    | thread t' =>
      obtain rfl : t' = t := Option.some.inj hact
      rcases thread_loaded (threadStep_move hstep) hl with hl | ⟨rfl, -⟩ |
        ⟨p, p', payload₀, ring', y, hpc, -, hr, hst, rfl, -⟩
      · exact .inl ⟨payload, hl, hx⟩
      · cases hx
      · rcases List.mem_append.mp hx with hx | hx
        · exact .inl ⟨payload₀, loaded_format hpc hr, hx⟩
        · refine .inr ⟨rfl, ?_⟩
          unfold helperReads formatting
          rw [hpc, hr]
          show (Pass.step (s.rings r) p).2.2 = some x
          rw [hst]
          simpa using hx
    | log t' total =>
      obtain rfl : t' = t := Option.some.inj hact
      obtain ⟨-, pc, hpc, rfl⟩ := log_inv hstep
      rw [threads_self] at hl
      rcases hpc with rfl | rfl <;> cases hl
    | exit t' =>
      obtain rfl : t' = t := Option.some.inj hact
      obtain ⟨-, ⟨r₀, -, rfl⟩ | ⟨-, rfl⟩⟩ := exit_inv hstep
      all_goals
        rw [threads_self] at hl
        cases hl
    | wake t' =>
      obtain rfl : t' = t := Option.some.inj hact
      obtain ⟨-, rfl⟩ := wake_inv hstep
      rw [threads_goto] at hl
      cases hl
    | drain | guard => cases hact
  · rcases step_wakes hact hstep with hth | ⟨-, hth, -⟩
    · rw [hth] at hl
      exact .inl ⟨payload, hl, hx⟩
    · rw [hth] at hl
      cases hl

/-! ## The ids stay right -/

/-- A ring keeps its name while the drain is inside a pass over it. -/
theorem drain_keeps_name (hid : Identified s) {a : Action} (hun : Unrenamed s a)
    (hstep : Sys.step cfg s a = some s') {ctx : PassCtx} {r : Nat} {p : Pass}
    (hpc : s.drain.pc = .pass ctx r p) : (s'.rings r).threadId = (s.rings r).threadId := by
  rcases step_threadId hstep (hid.drain ctx r p hpc) with heq | ⟨t, rfl, hset, -⟩
  · exact heq
  · refine absurd ?_ (hun r hset)
    rw [hpc]
    rfl

/-- And while a helper formats it. -/
theorem helper_keeps_name (hid : Identified s) {a : Action}
    (hstep : Sys.step cfg s a = some s') {t r : Nat} {p : Pass}
    (hf : formatting (s.threads t) = some (r, p)) :
    (s'.rings r).threadId = (s.rings r).threadId := by
  obtain ⟨hlt, hnone⟩ := hid.helper t r p hf
  rcases step_threadId hstep hlt with heq | ⟨t', rfl, hset, -⟩
  · exact heq
  · exact absurd hset (hnone t')

/-- Who reads a record has taken an id. -/
theorem Inv.drain_took (h : Inv l) {x : Rec} (hx : drainReads l.sys = some x) :
    ∃ id, (x, id) ∈ l.renders .drain := by
  have hpc : ∃ ctx r p, l.sys.drain.pc = .pass ctx r p ∧
      (Pass.step (l.sys.rings r) p).2.2 = some x := by
    unfold drainReads at hx
    split at hx
    next ctx r p hpc => exact ⟨ctx, r, p, hpc, hx⟩
    next => cases hx
  obtain ⟨ctx, r, p, hpc, hread⟩ := hpc
  obtain ⟨id, hid⟩ := Option.ne_none_iff_exists'.mp (h.drainTook ctx r p hpc (step_reads hread))
  refine ⟨id, ?_⟩
  unfold renders
  dsimp only
  rw [hx, hid]
  exact List.mem_singleton_self _

theorem Inv.helper_took (h : Inv l) {t : Nat} {x : Rec} (hx : helperReads l.sys t = some x) :
    ∃ id, (x, id) ∈ l.renders (.thread t) := by
  have hf : ∃ r p, formatting (l.sys.threads t) = some (r, p) ∧
      (Pass.step (l.sys.rings r) p).2.2 = some x := by
    unfold helperReads at hx
    split at hx
    next r p hf => exact ⟨r, p, hf, hx⟩
    next => cases hx
  obtain ⟨r, p, hf, hread⟩ := hf
  obtain ⟨id, hid⟩ := Option.ne_none_iff_exists'.mp (h.helperTook t r p hf (step_reads hread))
  refine ⟨id, ?_⟩
  unfold renders
  dsimp only
  rw [hx, hid]
  exact List.mem_singleton_self _

/-- What an access renders, it renders under the id of the record's thread. -/
theorem Inv.renders_right (h : Inv l) (hid : Identified l.sys) {a : Action} {e : Rec × Nat}
    (he : e ∈ l.renders a) : e.2 = e.1.thread := by
  cases a with
  | drain =>
    unfold renders at he
    dsimp only at he
    split at he
    next x id hx htook =>
      rw [List.mem_singleton.mp he]
      obtain ⟨ctx, r, p, hpc, rfl⟩ := h.drain id htook
      unfold drainReads at hx
      rw [hpc] at hx
      exact (hid.cells r x (hid.reads r p x (.inl ⟨ctx, hpc⟩) hx)).symm
    next => cases he
  | thread t =>
    unfold renders at he
    dsimp only at he
    split at he
    next x id hx htook =>
      rw [List.mem_singleton.mp he]
      obtain ⟨r, p, hf, rfl⟩ := h.helper t id htook
      unfold helperReads at hx
      rw [hf] at hx
      exact (hid.cells r x (hid.reads r p x (.inr ⟨t, hf⟩) hx)).symm
    next => cases he
  | log | exit | wake | guard => cases he

/-- An access of the logger. -/
theorem move_inv (h : Inv l) (hid : Identified l.sys) {a : Action} (hun : Unrenamed l.sys a)
    (hwaits : l.waits a = false) (hstep : Sys.step cfg l.sys a = some s') : Inv (l.after a s') := by
  have hgrow : ∀ {x : Rec}, (∃ id, (x, id) ∈ l.rendered) →
      ∃ id, (x, id) ∈ l.rendered ++ l.renders a :=
    fun ⟨id, hx⟩ => ⟨id, List.mem_append_left _ hx⟩
  have hnew : ∀ {x : Rec}, (∃ id, (x, id) ∈ l.renders a) →
      ∃ id, (x, id) ∈ l.rendered ++ l.renders a :=
    fun ⟨id, hx⟩ => ⟨id, List.mem_append_right _ hx⟩
  refine ⟨?_, ?_, ?_, ?_, ?_, ?_, ?_, ?_⟩
  · intro id htook
    replace htook : (if draining s'.drain.pc then l.drainId else none) = some id := htook
    split at htook
    next hdraining =>
      obtain ⟨ctx, r, p, hpc, rfl⟩ := h.drain id htook
      -- still inside a pass, so inside the same one
      have hstill : ∃ ctx' r' p', s'.drain.pc = .pass ctx' r' p' := by
        unfold draining at hdraining
        split at hdraining
        next ctx' r' p' hpc' => exact ⟨ctx', r', p', hpc'⟩
        next => cases hdraining
      obtain ⟨ctx', r', p', hpc'⟩ := hstill
      rcases pass_before hstep hpc' with ⟨p₀, hpc₀⟩ | ⟨-, hmark, -⟩
      · rw [hpc] at hpc₀
        cases hpc₀
        exact ⟨ctx, r, p', hpc', (drain_keeps_name hid hun hstep hpc).symm⟩
      · rw [hpc] at hmark
        cases hmark
    next => cases htook
  · intro ctx r p hpc hp
    replace hpc : s'.drain.pc = .pass ctx r p := hpc
    show (if draining s'.drain.pc then l.drainId else none) ≠ none
    rw [hpc, if_pos (show draining (.pass ctx r p) = true from rfl)]
    rcases pass_before hstep hpc with ⟨p₀, hpc₀⟩ | ⟨-, -, hload⟩
    · by_cases hp₀ : p₀ = .loadTail
      · -- the drain's own access took it past its first load, so it had looked
        subst hp₀
        have ha : a = .drain := by
          by_contra ha
          rw [(step_drain_frame ha hstep).1, hpc₀] at hpc
          cases hpc
          exact hp rfl
        subst ha
        intro hnone
        unfold waits at hwaits
        dsimp only at hwaits
        rw [hpc₀, hnone] at hwaits
        cases hwaits
      · exact h.drainTook ctx r p₀ hpc₀ hp₀
    · exact absurd hload hp
  · intro t id htook
    replace htook : (if (formatting (s'.threads t)).isSome then l.helperId t else none)
      = some id := htook
    split at htook
    next hsome =>
      obtain ⟨r, p, hf, rfl⟩ := h.helper t id htook
      obtain ⟨⟨r', p'⟩, hf'⟩ := Option.isSome_iff_exists.mp hsome
      rcases formatting_before hstep hf' with ⟨p₀, hf₀, -⟩ | ⟨hnone, -⟩
      · rw [hf] at hf₀
        cases hf₀
        exact ⟨r, p', hf', (helper_keeps_name hid hstep hf).symm⟩
      · rw [hf] at hnone
        cases hnone
    next => cases htook
  · intro t r p hf hp
    replace hf : formatting (s'.threads t) = some (r, p) := hf
    show (if (formatting (s'.threads t)).isSome then l.helperId t else none) ≠ none
    rw [hf, Option.isSome_some, if_pos rfl]
    rcases formatting_before hstep hf with ⟨p₀, hf₀, hactor⟩ | ⟨-, hload⟩
    · by_cases hp₀ : p₀ = .loadTail
      · subst hp₀
        rcases hactor with rfl | hsame
        · intro hnone
          unfold waits at hwaits
          dsimp only at hwaits
          rw [hf₀, hnone] at hwaits
          cases hwaits
        · rw [hsame, hf₀] at hf
          cases hf
          exact absurd rfl hp
      · exact h.helperTook t r p₀ hf₀ hp₀
    · exact absurd hload hp
  · intro e he
    rcases List.mem_append.mp he with he | he
    · exact h.right e he
    · exact h.renders_right hid he
  · intro x hx
    rcases delivered_before hstep hx with hx | hx | ⟨rfl, hread⟩
    · exact hgrow (h.delivered x hx)
    · exact hgrow (h.queued x hx)
    · exact hnew (h.drain_took hread)
  · intro x hx
    rcases queued_before hstep hx with hx | ⟨t, r, payload, hl, hx⟩
    · exact hgrow (h.queued x hx)
    · exact hgrow (h.collected t r payload hl x hx)
  · intro t r payload hl x hx
    rcases loaded_before hstep hl hx with ⟨payload₀, hl₀, hx₀⟩ | ⟨rfl, hread⟩
    · exact hgrow (h.collected t r payload₀ hl₀ x hx₀)
    · exact hnew (h.helper_took hread)

/-- The drain takes the id of the ring it is about to pass over. -/
theorem drainLooks_inv {l' : Labelled} (h : Inv l)
    (hstep : Labelled.step cfg l .drainLooks = some l') : Inv l' ∧ l'.sys = l.sys := by
  simp only [Labelled.step] at hstep
  split at hstep
  next ctx r hpc hnone =>
    cases hstep
    refine ⟨{ h with drain := ?_, drainTook := ?_ }, rfl⟩
    · intro id htook
      exact ⟨ctx, r, .loadTail, hpc, (Option.some.inj htook).symm⟩
    · intro _ _ _ _ _
      exact Option.some_ne_none _
  next => cases hstep

/-- A helper does as the drain does. -/
theorem helperLooks_inv {l' : Labelled} {t : Nat} (h : Inv l)
    (hstep : Labelled.step cfg l (.helperLooks t) = some l') : Inv l' ∧ l'.sys = l.sys := by
  simp only [Labelled.step] at hstep
  split at hstep
  next r hf hnone =>
    cases hstep
    refine ⟨{ h with helper := ?_, helperTook := ?_ }, rfl⟩
    · intro t' id htook
      by_cases ht : t' = t
      · subst ht
        replace htook : Function.update l.helperId t' _ t' = some id := htook
        rw [Function.update_self] at htook
        exact ⟨r, .loadTail, hf, (Option.some.inj htook).symm⟩
      · replace htook : Function.update l.helperId t _ t' = some id := htook
        rw [Function.update_of_ne ht] at htook
        exact h.helper t' id htook
    · intro t' r' p hf' hp
      show Function.update l.helperId t _ t' ≠ none
      by_cases ht : t' = t
      · subst ht
        rw [Function.update_self]
        exact Option.some_ne_none _
      · rw [Function.update_of_ne ht]
        exact h.helperTook t' r' p hf' hp
  next => cases hstep

/-! ## Rings that are used once -/

/-- Nobody helps. -/
theorem plain_formatting (hd : PlainDelivery s) {t r : Nat} {p : Pass} :
    formatting (s.threads t) ≠ some (r, p) := by
  intro hf
  obtain ⟨-, payload, hpc⟩ := formatting_ring hf
  have ht := hd.1.1.threads t
  unfold ThreadOk at ht
  simp only [hpc] at ht

/-- Under Drop, Block and Quill every ring keeps the name it was registered with. -/
theorem plain_identified (hd : PlainDelivery s) (ha : Authored s) : Identified s where
  cells := by
    intro r x hx
    have hring : x.ring = r := (hd.2 r).ring_eq hx
    have hmem : x ∈ s.published := by
      rw [← (hd.2 r).history] at hx
      exact List.mem_of_mem_filter hx
    rw [← (ha x hmem).2, hring]
  drain := by
    intro ctx r p hpc
    have hpass : passing s.drain.pc = some r := by rw [hpc]; rfl
    exact hd.1.1.born r (hd.1.1.known r (passing_known hpass))
  reads := by
    rintro r p x (⟨ctx, hpc⟩ | ⟨t, hf⟩) hx
    · have hread := (hd.2 r).reader
      rw [hpc, reading_pass] at hread
      exact PassAt.reads hread (hd.2 r).done_le hx
    · exact absurd hf (plain_formatting hd)
  helper := fun t r p hf => absurd hf (plain_formatting hd)

theorem plain_unrenamed (hd : PlainDelivery s) (a : Action) : Unrenamed s a := by
  cases a with
  | thread t =>
    intro r hset hpass
    -- a ring with its name to come is in nobody's list
    have ht := hd.1.1.threads t
    unfold ThreadOk at ht
    simp only [hset] at ht
    exact ht.2.1 (hd.1.1.known r (passing_known hpass))
  | log | exit | wake | drain | guard => trivial

/-! ## Segments -/

/-- A segment's records are those of the thread it is named after. -/
def Coherent (s : Sys) : Prop := ∀ r x, x ∈ (s.rings r).cells → x.thread = (s.rings r).threadId

theorem init_coherent : Coherent (Sys.init cfg) := nofun

theorem step_coherent {a : Action} (hb : BacklogInv s) (h : Coherent s) (hok : FormatOk s a)
    (hstep : Sys.step cfg s a = some s') : Coherent s' := by
  have hold := hb.format.own.hold
  intro r x hx
  by_cases hr : r < s.nextRing
  · have hname := step_threadId hstep hr
    rcases step_content hstep hr with heq | ⟨hnil, -⟩ | ⟨t, y, rfl, hpc, hring, -⟩
    · rw [heq] at hx
      rcases hname with hid | ⟨t, -, hset, -⟩
      · rw [hid]
        exact h r x hx
      · -- renamed, but rewound before
        have hw := hb.wiped t
        unfold Wiped at hw
        simp only [hset] at hw
        rw [hw] at hx
        cases hx
    · rw [hnil] at hx
      cases hx
    · have hmine := hold.fit t
      unfold Fit at hmine
      simp only [hpc] at hmine
      have hid : (s'.rings r).threadId = (s.rings r).threadId := by
        rcases hname with hid | ⟨t', ht', hset, -⟩
        · exact hid
        · cases ht'
          rw [hpc] at hset
          cases hset
      rw [hid]
      dsimp only [Sys.step, threadStep, threadRingStep] at hstep
      simp only [hpc, hring, Option.some.injEq] at hstep
      rw [← hstep] at hx
      change x ∈ (Function.update s.rings r _ r).cells at hx
      rw [Function.update_self] at hx
      rcases List.mem_append.mp hx with hx | hx
      · exact h r x hx
      · rw [List.mem_singleton.mp hx]
        exact (hmine r hring).1.symm
  · rcases step_unused hold.bounded hok.undying hstep (Nat.le_of_not_lt hr) with heq | ⟨-, heq⟩
    · rw [heq] at hx ⊢
      exact h r x hx
    · rw [heq] at hx
      cases hx

theorem pooled_identified (hl : LedgerInv s) (h : Coherent s) : Identified s where
  cells := h
  reads := by
    intro r p x hread hx
    obtain ⟨d, payload, hacc⟩ := hl.account r
    exact PassAt.reads (hacc.reader p hread) hacc.le hx
  drain := by
    intro ctx r p hpc
    have hpass : passing s.drain.pc = some r := by rw [hpc]; rfl
    exact hl.backlog.format.own.hold.bounded r (Or.inl (passing_known hpass))
  helper := by
    intro t r p hf
    have hmine := formatting_holds hf
    refine ⟨hl.backlog.format.own.hold.bounded r hmine.inUse, fun t' hset => ?_⟩
    -- who would rename it has it in hand, so it is the helper itself
    have hhand : Holds s t' r := Or.inr (by rw [hset]; rfl)
    obtain rfl := hl.backlog.format.own.hold.alone r t t' hmine hhand
    obtain ⟨-, payload, hpc⟩ := formatting_ring hf
    rw [hpc] at hset
    cases hset

/-! ## Every run -/

/-- What the runs keep: the ids are right, and the logger is as its policy has it. -/
def NameInv (cfg : Config) (l : Labelled) : Prop :=
  Inv l ∧ (cfg.policy ≠ .nanoLog → PlainDelivery l.sys ∧ Authored l.sys) ∧
    (cfg.policy = .nanoLog → LedgerInv l.sys ∧ Coherent l.sys)

theorem init_nameInv : NameInv cfg (init cfg) :=
  ⟨init_inv, fun hpol => ⟨init_plainDelivery hpol, init_authored⟩,
    fun _ => ⟨init_ledger, init_coherent⟩⟩

theorem NameInv.identified (h : NameInv cfg l) : Identified l.sys := by
  by_cases hpol : cfg.policy = .nanoLog
  · obtain ⟨hl, hc⟩ := h.2.2 hpol
    exact pooled_identified hl hc
  · obtain ⟨hd, ha⟩ := h.2.1 hpol
    exact plain_identified hd ha

theorem NameInv.unrenamed (h : NameInv cfg l) {a : Action} (hok : NameOk cfg l (.move a)) :
    Unrenamed l.sys a := by
  by_cases hpol : cfg.policy = .nanoLog
  · exact (hok hpol).2
  · exact plain_unrenamed (h.2.1 hpol).1 a

theorem step_nameInv {l' : Labelled} {a : LabelAction} (h : NameInv cfg l)
    (hok : NameOk cfg l a) (hstep : Labelled.step cfg l a = some l') : NameInv cfg l' := by
  cases a with
  | drainLooks =>
    obtain ⟨hinv, hsys⟩ := drainLooks_inv h.1 hstep
    refine ⟨hinv, ?_⟩
    rw [hsys]
    exact h.2
  | helperLooks t =>
    obtain ⟨hinv, hsys⟩ := helperLooks_inv h.1 hstep
    refine ⟨hinv, ?_⟩
    rw [hsys]
    exact h.2
  | move a =>
    simp only [Labelled.step] at hstep
    split at hstep
    next => cases hstep
    next hwaits =>
      obtain ⟨s', hs', rfl⟩ := Option.map_eq_some_iff.mp hstep
      refine ⟨move_inv h.1 h.identified (h.unrenamed hok) (by simpa using hwaits) hs', ?_, ?_⟩
      · intro hpol
        obtain ⟨hd, ha⟩ := h.2.1 hpol
        exact ⟨step_delivery hpol hd hs', step_authored ha hd.1.1 hs'⟩
      · intro hpol
        obtain ⟨hl, hc⟩ := h.2.2 hpol
        exact ⟨step_ledger hl (hok hpol).1 hs', step_coherent hl.backlog hc (hok hpol).1 hs'⟩

/-- Whatever is rendered is rendered under its thread's id, and whatever the sink has was
rendered. -/
theorem lines_name_their_thread (cfg : Config) (l : Labelled)
    (h : (labelled cfg).Runs (NameOk cfg) (init cfg) l) :
    (∀ e, e ∈ l.rendered → e.2 = e.1.thread) ∧
      ∀ x, x ∈ l.sys.delivered → ∃ id, (x, id) ∈ l.rendered :=
  have hinv : NameInv cfg l :=
    h.invariant (fun _ _ _ hi hok hst => step_nameInv hi hok hst) init_nameInv
  ⟨hinv.1.right, hinv.1.delivered⟩

/-- As `PlainlyFormatted`, of the steps of the logger. -/
def PlainlyNamed (l : Labelled) : LabelAction → Prop
  | .move a => PlainlyFormatted l.sys a
  | .drainLooks | .helperLooks _ => True

instance (l : Labelled) (a : LabelAction) : Decidable (PlainlyNamed l a) :=
  match a with
  | .move a => inferInstanceAs (Decidable (PlainlyFormatted l.sys a))
  | .drainLooks | .helperLooks _ => inferInstanceAs (Decidable True)

/-- A thread that names a ring has it in hand. -/
theorem PlainlyNamed.ok {a : LabelAction} (h : PlainlyNamed l a) : NameOk cfg l a := by
  cases a with
  | move a =>
    intro _
    refine ⟨PlainlyFormatted.ok h, ?_⟩
    cases a with
    | thread t =>
      intro r hset hpass
      rcases h.2 with hno | hno
      · rw [hset] at hno
        cases hno
      · rw [hno] at hpass
        cases hpass
    | log | exit | wake | drain | guard => trivial
  | drainLooks | helperLooks => trivial

def moves (as : List Action) : List LabelAction := as.map .move

/-- `formattedByHelper`, with the helper's read of its id. -/
def namedByHelper : List LabelAction :=
  moves (firstPooled 0 64 ++ .log 0 64 :: List.replicate 4 (.thread 0) ++
      List.replicate 13 .drain ++ [.thread 0]) ++
    .helperLooks 0 :: moves (List.replicate 18 (.thread 0) ++ List.replicate 3 .drain)

theorem lines_name_their_thread_helped :
    ∃ l, (labelled onePool).runWhile PlainlyNamed (init onePool) namedByHelper = some l ∧
      l.rendered = [(⟨0, 0, 0, 64⟩, 0)] ∧ l.sys.delivered = [⟨0, 0, 0, 64⟩] ∧
      (∀ e, e ∈ l.rendered → e.2 = e.1.thread) ∧
      ∀ x, x ∈ l.sys.delivered → ∃ id, (x, id) ∈ l.rendered := by
  have hrun : ((labelled onePool).runWhile PlainlyNamed (init onePool) namedByHelper).map
      (fun l => (l.rendered, l.sys.delivered)) = some ([(⟨0, 0, 0, 64⟩, 0)], [⟨0, 0, 0, 64⟩]) := by
    decide +kernel
  obtain ⟨l, hl, hout⟩ := Option.map_eq_some_iff.mp hrun
  obtain ⟨hren, hdel⟩ := Prod.mk.inj hout
  refine ⟨l, hl, hren, hdel, lines_name_their_thread onePool l ?_⟩
  exact (Machine.runWhile_runs hl).mono fun _ _ => PlainlyNamed.ok

/-- Without the condition: the drain is about to enter thread 0's segment when thread 0 formats
and returns it, and looks at its id when thread 1 has rewound it and not yet named it. -/
def namedTooEarly : List LabelAction :=
  moves (firstPooled 0 64 ++ List.replicate 13 .drain ++
      .log 0 64 :: List.replicate 5 (.thread 0)) ++
    .helperLooks 0 ::
      moves (List.replicate 18 (.thread 0) ++ .log 1 64 :: List.replicate 9 (.thread 1) ++
        [.drain]) ++
    .drainLooks :: moves (List.replicate 5 (.thread 1) ++ List.replicate 4 .drain)

/-- The line of thread 1's record shows thread 0. -/
example : ((labelled onePool).run (init onePool) namedTooEarly).map (·.rendered) =
    some [(⟨0, 0, 0, 64⟩, 0), (⟨1, 0, 0, 64⟩, 0)] := by decide +kernel

end Labelled

end Ticklog
