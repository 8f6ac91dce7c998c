import Ticklog.System.DrainMoves

/-!
# When an idle drain has flushed (`Drain::run`)

`dirty` is set by an iteration whose `poll_once` found work and cleared by the flush at
the next iteration that finds none. It covers two of the three ways a record reaches the
sink: the inline drain and the helper queue of `poll_once`, not the final drain of a dead
ring in `sync_rings`, whose result is discarded.

So an idle iteration ends with everything flushed exactly when the records delivered by
final drains since the last flush have company: some delivery of `poll_once` since the
same flush (`idle_flushed`). A thread that logs and exits before the first sync is the
case that has none.
-/

namespace Ticklog

open Lib

/-- What the sink was handed after the last flush, each with its path. -/
def unflushed (sink : List Event) : List (Path × Rec) :=
  sink.foldl (fun acc e =>
    match e with
    | .accept path x => acc ++ [(path, x)]
    | .flush => []) []

/-- Some unflushed record was delivered by a final drain. -/
def FinalUnflushed (s : Sys) : Prop := ∃ e ∈ unflushed s.sink, e.1 = .final

/-- Some unflushed record was delivered by `poll_once`. -/
def PollUnflushed (s : Sys) : Prop := ∃ e ∈ unflushed s.sink, e.1 ≠ .final

instance (s : Sys) : Decidable (FinalUnflushed s) :=
  inferInstanceAs (Decidable (∃ e ∈ unflushed s.sink, e.1 = .final))

instance (s : Sys) : Decidable (PollUnflushed s) :=
  inferInstanceAs (Decidable (∃ e ∈ unflushed s.sink, e.1 ≠ .final))

theorem unflushed_accept (sink : List Event) (path : Path) (xs : List Rec) :
    unflushed (sink ++ xs.map (Event.accept path)) = unflushed sink ++ xs.map (path, ·) := by
  induction xs generalizing sink with
  | nil => simp
  | cons x xs ih =>
    have hcons : sink ++ (x :: xs).map (Event.accept path)
        = (sink ++ [Event.accept path x]) ++ xs.map (Event.accept path) := by simp
    have hone : unflushed (sink ++ [Event.accept path x]) = unflushed sink ++ [(path, x)] := by
      unfold unflushed
      rw [List.foldl_append]
      rfl
    rw [hcons, ih, hone]
    simp

theorem unflushed_flush (sink : List Event) : unflushed (sink ++ [Event.flush]) = [] := by
  unfold unflushed
  rw [List.foldl_append]
  rfl

namespace Sys

variable {cfg : Config} {s s' : Sys}

/-- The positions of an iteration before `poll_once` starts. -/
def beforePoll : LoopPc → Bool
  | .top | .lock | .sync _ _ | .finalNext | .idle => true
  | .mark .final _ | .pass .final _ _ | .clear .final _ => true
  | .markRecycled .final _ | .recycle .final _ => true
  | _ => false

/-- The bookkeeping of `dirty` and `had_work`. -/
structure DirtyInv (s : Sys) : Prop where
  /-- Before the end, unflushed deliveries of `poll_once` are on record. -/
  covers : s.drain.pc ≠ .stopped →
    (PollUnflushed s ↔ s.drain.dirty = true ∨ s.drain.hadWork = true)
  /-- Work of an earlier iteration made the drain dirty. -/
  early : beforePoll s.drain.pc = true → s.drain.hadWork = true → s.drain.dirty = true
  /-- The loop flushes only after an iteration without work. -/
  flush : s.drain.pc = .flush → s.drain.last = false → s.drain.hadWork = false
  /-- At the end of an idle iteration nothing is pending. -/
  idle : s.drain.pc = .idle → s.drain.dirty = false ∧ s.drain.hadWork = false

theorem init_dirty : DirtyInv (Sys.init cfg) where
  covers := by
    intro _
    constructor
    · intro h
      obtain ⟨e, he, -⟩ := h
      exact absurd he (by simp [unflushed, Sys.init])
    · intro h
      exact absurd h (by simp [Sys.init])
  early := fun _ h => h
  flush := fun h => nomatch h
  idle := fun h => nomatch h

/-- Agents other than the drain do not matter. -/
theorem DirtyInv.frame (h : DirtyInv s) (hd : s'.drain = s.drain) (hs : s'.sink = s.sink) :
    DirtyInv s' := by
  have hp : PollUnflushed s' ↔ PollUnflushed s := by
    unfold PollUnflushed
    rw [hs]
  refine ⟨?_, ?_, ?_, ?_⟩ <;> rw [hd]
  · rw [hp]
    exact h.covers
  · exact h.early
  · exact h.flush
  · exact h.idle

/-- Moving the drain alone: a position before the poll needs the early clause, no
position may be the loop's flush or its idle end. -/
theorem DirtyInv.move (h : DirtyInv s) (hpc : s.drain.pc ≠ .stopped)
    (hd : s'.drain.dirty = s.drain.dirty) (hw : s'.drain.hadWork = s.drain.hadWork)
    (hs : s'.sink = s.sink)
    (hearly : beforePoll s'.drain.pc = true → beforePoll s.drain.pc = true)
    (hflush : s'.drain.pc ≠ .flush) (hidle : s'.drain.pc ≠ .idle) : DirtyInv s' := by
  have hp : PollUnflushed s' ↔ PollUnflushed s := by
    unfold PollUnflushed
    rw [hs]
  refine ⟨fun _ => ?_, fun hb => ?_, fun hf => absurd hf hflush, fun hi => absurd hi hidle⟩
  · rw [hp, hd, hw]
    exact h.covers hpc
  · rw [hd, hw]
    exact h.early (hearly hb)

/-- A scan of `sync_rings` is a move of the drain alone. -/
theorem DirtyInv.scan (h : DirtyInv s) (hf : ScanFrame s s')
    (hpc : syncing s.drain.pc = true) (hpc' : syncing s'.drain.pc = true) : DirtyInv s' := by
  have hsync : ∀ {pc : LoopPc}, syncing pc = true →
      pc ≠ .stopped ∧ pc ≠ .flush ∧ pc ≠ .idle ∧ beforePoll pc = true := by
    intro pc hp
    cases pc <;> simp_all [syncing, beforePoll]
  exact h.move (hsync hpc).1 hf.dirty hf.hadWork hf.sink (fun _ => (hsync hpc).2.2.2)
    (hsync hpc').2.1 (hsync hpc').2.2.1

/-- A delivery: `poll_once` notes it as work, a final drain does not. -/
theorem DirtyInv.accept (h : DirtyInv s) {path : Path} {xs : List Rec} {pc : LoopPc}
    (hpc : s.drain.pc ≠ .stopped)
    (hearly : beforePoll pc = true → path = .final ∧ beforePoll s.drain.pc = true)
    (hflush : pc ≠ .flush) (hidle : pc ≠ .idle) :
    DirtyInv ((acceptAll path xs s).drainTo pc) := by
  refine ⟨fun _ => ?_, fun hb => ?_, fun hf => absurd hf hflush, fun hi => absurd hi hidle⟩
  · -- the delivery is unflushed work exactly when `had_work` is raised
    have hcov := h.covers hpc
    have hnew : PollUnflushed ((acceptAll path xs s).drainTo pc) ↔
        PollUnflushed s ∨ (path ≠ .final ∧ xs ≠ []) := by
      unfold PollUnflushed
      rw [drainTo_sink, acceptAll_sink, unflushed_accept]
      constructor
      · rintro ⟨e, he, hp⟩
        rcases List.mem_append.mp he with he | he
        · exact Or.inl ⟨e, he, hp⟩
        · obtain ⟨y, hy, rfl⟩ := List.mem_map.mp he
          exact Or.inr ⟨hp, List.ne_nil_of_mem hy⟩
      · rintro (⟨e, he, hp⟩ | ⟨hp, hxs⟩)
        · exact ⟨e, List.mem_append_left _ he, hp⟩
        · obtain ⟨x, hx⟩ := List.exists_mem_of_ne_nil xs hxs
          exact ⟨(path, x), List.mem_append_right _ (List.mem_map.mpr ⟨x, hx, rfl⟩), hp⟩
    rw [hnew, hcov]
    simp [acceptAll, or_assoc]
  · obtain ⟨hfin, hb'⟩ := hearly hb
    subst hfin
    have he := h.early hb'
    intro hw
    refine he ?_
    simpa [acceptAll] using hw

theorem drain_dirty (h : DirtyInv s) (hm : DrainMove cfg s s') : DirtyInv s' := by
  cases hm with
  | leave hpc hsh =>
    exact h.move (by simp [hpc]) rfl rfl rfl (fun _ => by rw [hpc]; rfl) nofun nofun
  | enter hpc hsh hnext =>
    -- leaving an iteration behind: its work is on record in `dirty`
    have hearly := h.early (by rw [hpc]; rfl)
    have hcov := h.covers (by simp [hpc])
    have hgoal : PollUnflushed s ↔ s.drain.dirty = true ∨ false = true := by
      rw [hcov]
      simp only [Bool.false_eq_true, or_false]
      exact ⟨fun hor => hor.elim id hearly, Or.inl⟩
    refine ⟨fun _ => hgoal, fun _ hw => absurd hw (by simp), fun _ _ => rfl, fun hi => ?_⟩
    rcases hnext with rfl | ⟨-, rfl⟩ <;> cases hi
  | lock hpc hl =>
    exact h.move (by simp [hpc]) rfl rfl rfl (fun _ => by rw [hpc]; rfl) nofun nofun
  | syncNext hpc hsub =>
    exact h.scan (syncNext_frame _) (by rw [hpc]; rfl) (syncNext_syncing _)
  | syncHalf hpc hsub hlive =>
    exact h.move (by simp [hpc]) rfl rfl rfl (fun _ => by rw [hpc]; rfl) nofun nofun
  | syncLive hpc hsub hlive =>
    exact h.scan (syncDecide_frame _ _) (by rw [hpc]; rfl) (syncDecide_syncing hpc)
  | syncDead hpc hsub =>
    exact h.scan (syncDecide_frame _ _) (by rw [hpc]; rfl) (syncDecide_syncing hpc)
  | finalRing hpc hf =>
    exact h.move (by simp [hpc]) rfl rfl rfl (fun _ => by rw [hpc]; rfl) nofun nofun
  | finalDone hpc hf =>
    have hearly := h.early (by rw [hpc]; rfl)
    have hcov := h.covers (by simp [hpc])
    refine ⟨fun _ => ?_, fun _ hw => absurd hw (by simp), fun _ _ => rfl, fun hi => nomatch hi⟩
    show PollUnflushed s ↔ s.drain.dirty = true ∨ false = true
    rw [hcov]
    simp only [Bool.false_eq_true, or_false]
    exact ⟨fun hor => hor.elim id hearly, Or.inl⟩
  | entry hpc he hk => exact h.move (by simp [hpc]) rfl rfl rfl nofun nofun nofun
  | stale hpc he hk => exact h.move (by simp [hpc]) rfl rfl rfl nofun nofun nofun
  | pollDone hpc he hnext =>
    rcases hnext with ⟨-, rfl⟩ | ⟨-, rfl⟩
    · exact h.move (by simp [hpc]) rfl rfl rfl nofun nofun nofun
    · exact h.move (by simp [hpc]) rfl rfl rfl nofun nofun nofun
  | skip hpc hr => exact h.move (by simp [hpc]) rfl rfl rfl nofun nofun nofun
  | unreserved hpc hr => exact h.move (by simp [hpc]) rfl rfl rfl nofun nofun nofun
  | @mark ctx r hpc =>
    refine h.move (by simp [hpc]) rfl rfl rfl (fun hb => ?_) nofun nofun
    rw [hpc]
    cases ctx <;> exact hb
  | @passDone ctx r hpc =>
    refine h.move (by simp [hpc]) rfl rfl rfl (fun hb => ?_) nofun nofun
    rw [hpc]
    cases ctx <;> exact hb
  | @pass ctx r p p' ring' x hpc hp hstep =>
    have h' : DirtyInv (s.setRing r ring') := h.frame rfl rfl
    refine h'.accept (by simp [hpc]) (fun hb => ?_) nofun nofun
    cases ctx with
    | final => exact ⟨rfl, by rw [setRing_drain, hpc]; rfl⟩
    | poll i k => exact absurd hb (by simp [beforePoll])
  | @clear ctx r hpc =>
    refine h.move (by simp [hpc]) rfl rfl rfl (fun hb => ?_) ?_ ?_
    · rw [hpc]
      cases ctx with
      | final => rfl
      | poll i k => cases hb
    · cases ctx with
      | final =>
        dsimp only [drainTo_drain, afterPass]
        split <;> nofun
      | poll i k => nofun
    · cases ctx with
      | final =>
        dsimp only [drainTo_drain, afterPass]
        split <;> nofun
      | poll i k => nofun
  | keepEntry hpc => exact h.move (by simp [hpc]) rfl rfl rfl nofun nofun nofun
  | handedOff hpc hh => exact h.move (by simp [hpc]) rfl rfl rfl nofun nofun nofun
  | notReserved hpc hh => exact h.move (by simp [hpc]) rfl rfl rfl nofun nofun nofun
  | sameSerial hpc hh => exact h.move (by simp [hpc]) rfl rfl rfl nofun nofun nofun
  | loadHead hpc => exact h.move (by simp [hpc]) rfl rfl rfl nofun nofun nofun
  | drained hpc => exact h.move (by simp [hpc]) rfl rfl rfl nofun nofun nofun
  | retired hpc hl hk hr =>
    refine h.move (by simp [hpc]) rfl rfl rfl (fun hb => ?_) ?_ ?_
    · simp only at hb
      split at hb <;> exact absurd hb (by simp [beforePoll])
    · simp only
      split <;> nofun
    · simp only
      split <;> nofun
  | @markRecycled ctx r hpc hr hc =>
    refine h.move (by simp [hpc]) rfl rfl rfl (fun hb => ?_) nofun nofun
    rw [hpc]
    cases ctx <;> exact hb
  | @notRecycled ctx r hpc hr =>
    refine h.move (by simp [hpc]) rfl rfl rfl (fun hb => ?_) ?_ ?_
    · rw [hpc]
      cases ctx with
      | final => rfl
      | poll i k => cases hb
    · cases ctx <;> nofun
    · cases ctx <;> nofun
  | @recycle ctx r hpc =>
    refine h.move (by simp [hpc]) rfl rfl rfl (fun hb => ?_) ?_ ?_
    · rw [hpc]
      cases ctx with
      | final => rfl
      | poll i k => cases hb
    · cases ctx <;> nofun
    · cases ctx <;> nofun
  | takeLines hpc => exact h.move (by simp [hpc]) rfl rfl rfl nofun nofun nofun
  | deliver hpc => exact h.accept (by simp [hpc]) nofun nofun nofun
  | delivered hpc => exact h.move (by simp [hpc]) rfl rfl rfl nofun nofun nofun
  | lastPoll hpc hl =>
    have hcov := h.covers (by simp [hpc])
    refine ⟨fun _ => hcov, nofun, fun _ hl' => ?_, nofun⟩
    exact absurd (hl'.symm.trans hl) (by simp)
  | worked hpc hl hw =>
    have hcov := h.covers (by simp [hpc])
    refine ⟨fun _ => ?_, fun _ _ => rfl, nofun, nofun⟩
    show PollUnflushed s ↔ true = true ∨ s.drain.hadWork = true
    rw [hcov, hw]
    simp
  | idleDirty hpc hl hw hd =>
    have hcov := h.covers (by simp [hpc])
    exact ⟨fun _ => hcov, nofun, fun _ _ => hw, nofun⟩
  | idleClean hpc hl hw hd =>
    have hcov := h.covers (by simp [hpc])
    exact ⟨fun _ => hcov, fun _ hw' => absurd (hw'.symm.trans hw) (by simp), nofun,
      fun _ => ⟨hd, hw⟩⟩
  | lastFlush hpc hl => exact ⟨fun hs => absurd rfl hs, nofun, nofun, nofun⟩
  | flush hpc hl =>
    have hw := h.flush hpc hl
    refine ⟨fun _ => ?_, fun _ hw' => absurd (hw'.symm.trans hw) (by simp), nofun,
      fun _ => ⟨rfl, hw⟩⟩
    constructor
    · rintro ⟨e, he, -⟩
      rw [show (unflushed _ = []) from unflushed_flush s.sink] at he
      cases he
    · rintro (hd | hw')
      · cases hd
      · exact absurd (hw'.symm.trans hw) (by simp)
  | again hpc =>
    obtain ⟨hd, hw⟩ := h.idle hpc
    have hcov := h.covers (by simp [hpc])
    exact ⟨fun _ => hcov, fun _ hw' => absurd (hw'.symm.trans hw) (by simp), nofun, nofun⟩

theorem step_dirty {a : Action} (h : DirtyInv s) (hstep : step cfg s a = some s') :
    DirtyInv s' := by
  by_cases ha : a = .drain
  · subst ha
    exact drain_dirty h (drainStep_move hstep)
  · obtain ⟨hd, hs⟩ := step_drain_frame ha hstep
    exact h.frame hd hs

/-- The bookkeeping holds in every reachable state. -/
theorem reach_dirty (h : (system cfg).Reach (Sys.init cfg) s) : DirtyInv s :=
  Machine.Runs.invariant (I := DirtyInv)
    (fun _ _ _ hi _ (hst : step cfg _ _ = some _) => step_dirty hi hst) h init_dirty

/-! ## Idle iterations -/

/-- The drain is about to end an iteration of the loop that found no work. -/
def EndsIdle (s : Sys) : Prop :=
  s.drain.pc = .decide ∧ s.drain.last = false ∧ s.drain.hadWork = false

/-- The guard under which the flush bookkeeping is right: where an iteration ends idle,
the final drains since the last flush were accompanied by work of `poll_once`. -/
def FlushOk (s : Sys) (a : Action) : Prop :=
  a = .drain → EndsIdle s → FinalUnflushed s → PollUnflushed s

instance (s : Sys) : Decidable (EndsIdle s) :=
  inferInstanceAs (Decidable (_ ∧ _ ∧ _))

instance (s : Sys) (a : Action) : Decidable (FlushOk s a) :=
  inferInstanceAs (Decidable (_ → _ → _ → _))

theorem unflushed_eq_nil (hf : ¬ FinalUnflushed s) (hp : ¬ PollUnflushed s) :
    unflushed s.sink = [] := by
  rw [List.eq_nil_iff_forall_not_mem]
  intro e he
  by_cases hpath : e.1 = .final
  · exact hf ⟨e, he, hpath⟩
  · exact hp ⟨e, he, hpath⟩

/-- Only two accesses end an idle iteration. -/
theorem idle_cases (hm : DrainMove cfg s s') (hidle : s'.drain.pc = .idle) :
    unflushed s'.sink = [] ∨ (EndsIdle s ∧ s.drain.dirty = false ∧ s'.sink = s.sink) := by
  have hscan : syncing s'.drain.pc = true → False := by
    intro h
    rw [hidle] at h
    cases h
  have hafter : ∀ {ctx : PassCtx}, afterRecycle ctx ≠ .idle := by
    intro ctx
    cases ctx <;> nofun
  cases hm with
  | idleClean hpc hl hw hd => exact Or.inr ⟨⟨hpc, hl, hw⟩, hd, rfl⟩
  | flush hpc hl => exact Or.inl (unflushed_flush s.sink)
  | enter hpc hsh hnext =>
    rcases hnext with rfl | ⟨-, rfl⟩ <;> cases hidle
  | syncNext hpc hsub => exact (hscan (syncNext_syncing _)).elim
  | syncLive hpc hsub hlive => exact (hscan (syncDecide_syncing hpc)).elim
  | syncDead hpc hsub => exact (hscan (syncDecide_syncing hpc)).elim
  | pollDone hpc he hnext =>
    rcases hnext with ⟨-, rfl⟩ | ⟨-, rfl⟩ <;> cases hidle
  | @clear ctx r hpc =>
    cases ctx with
    | final =>
      simp only [drainTo_drain, afterPass] at hidle
      split at hidle <;> cases hidle
    | poll i k => cases hidle
  | retired hpc hl hk hr =>
    simp only at hidle
    split at hidle <;> cases hidle
  | notRecycled hpc hr => exact absurd hidle hafter
  | recycle hpc => exact absurd hidle hafter
  | leave | lock | syncHalf | finalRing | finalDone | entry | stale | skip | unreserved
  | mark | passDone | pass | keepEntry | handedOff | notReserved | sameSerial | loadHead
  | drained | markRecycled | takeLines | deliver | delivered | lastPoll | worked
  | idleDirty | lastFlush | again => cases hidle

/-- Where the guard admits the last step, an idle iteration ends flushed. -/
theorem idle_step (h : DirtyInv s) {a : Action} (hok : FlushOk s a)
    (hs : s.drain.pc = .idle → unflushed s.sink = [])
    (hstep : step cfg s a = some s') (hidle : s'.drain.pc = .idle) :
    unflushed s'.sink = [] := by
  by_cases ha : a = .drain
  · subst ha
    rcases idle_cases (drainStep_move hstep) hidle with hnil | ⟨hends, hd, hsink⟩
    · exact hnil
    · have hcov := h.covers (by simp [hends.1])
      have hpoll : ¬ PollUnflushed s := by
        rw [hcov, hd, hends.2.2]
        simp
      rw [hsink]
      exact unflushed_eq_nil (fun hf => hpoll (hok rfl hends hf)) hpoll
  · obtain ⟨hd, hs'⟩ := step_drain_frame ha hstep
    rw [hs']
    exact hs (hd ▸ hidle)

/-- Where the guard forbids the step, the iteration ends idle with a record unflushed. -/
theorem not_flushOk_step (h : DirtyInv s) {a : Action} (hok : ¬ FlushOk s a)
    (hstep : step cfg s a = some s') : s'.drain.pc = .idle ∧ unflushed s'.sink ≠ [] := by
  unfold FlushOk at hok
  push Not at hok
  obtain ⟨rfl, ⟨hpc, hl, hw⟩, ⟨e, he, -⟩, hpoll⟩ := hok
  have hcov := h.covers (by simp [hpc])
  have hd : s.drain.dirty = false := by
    by_contra hd
    exact hpoll (hcov.mpr (Or.inl (by simpa using hd)))
  have hs' : s' = s.drainTo .idle := by
    simp only [step, drainStep, hpc, decideStep, hl, hw, hd, Bool.false_eq_true, if_false,
      Option.some.injEq] at hstep
    exact hstep.symm
  subst hs'
  exact ⟨rfl, List.ne_nil_of_mem he⟩

/-- **An idle drain has flushed, exactly when final drains had company.** In every run
in which an iteration ends idle only with each unflushed final delivery accompanied by
an unflushed delivery of `poll_once`, nothing is unflushed at the end of any idle
iteration; and from any reachable state a step that breaks this rule ends an idle
iteration with a record left in the sink's buffer. -/
theorem idle_flushed (cfg : Config) :
    (∀ s, (system cfg).Runs FlushOk (Sys.init cfg) s → s.drain.pc = .idle →
      unflushed s.sink = []) ∧
    (∀ s a s', (system cfg).Reach (Sys.init cfg) s → ¬ FlushOk s a → step cfg s a = some s' →
      s'.drain.pc = .idle ∧ unflushed s'.sink ≠ []) := by
  constructor
  · intro s h
    have hinv : DirtyInv s ∧ (s.drain.pc = .idle → unflushed s.sink = []) := by
      refine Machine.Runs.invariant
        (I := fun s => DirtyInv s ∧ (s.drain.pc = .idle → unflushed s.sink = [])) ?_ h
        ⟨init_dirty, nofun⟩
      intro s₁ a s₂ hi hok hst
      exact ⟨step_dirty hi.1 hst, fun hidle => idle_step hi.1 hok hi.2 hst hidle⟩
    exact hinv.2
  · intro s a s' h hok hst
    exact not_flushOk_step (reach_dirty h) hok hst

/-- A small ring under `policy`. -/
def smallConfig (policy : Backpressure) : Config where
  policy := policy
  geometry := {
    slotSize := 64
    capacity := 128
    slot_ok := slot_ok_64
    pow2 := pow2_128
    slot_le := slot_le_128 }
  poolSize := 2

/-- Thread `t`'s first log call, up to its publication. -/
def firstLog (t total : Nat) : List Action := .log t total :: List.replicate 6 (.thread t)

/-- A thread that logs once, then idle polling. -/
theorem idle_flushed_firstLog :
    ∃ s, (system (smallConfig .drop)).runWhile FlushOk (Sys.init (smallConfig .drop))
        (firstLog 0 32 ++ List.replicate 39 .drain) = some s ∧
      s.drain.pc = .idle ∧ unflushed s.sink = [] := by
  obtain ⟨s, hs⟩ := Option.isSome_iff_exists.mp
    (show ((system (smallConfig .drop)).runWhile FlushOk (Sys.init (smallConfig .drop))
      (firstLog 0 32 ++ List.replicate 39 .drain)).isSome = true by decide +kernel)
  have hidle : ((system (smallConfig .drop)).runWhile FlushOk (Sys.init (smallConfig .drop))
      (firstLog 0 32 ++ List.replicate 39 .drain)).map (·.drain.pc) = some .idle := by
    decide +kernel
  rw [hs, Option.map_some, Option.some.injEq] at hidle
  exact ⟨s, hs, hidle, (idle_flushed (smallConfig .drop)).1 s (Machine.runWhile_runs hs) hidle⟩

/-- A thread logs and exits before the drain's first sync: the final drain hands its
record over, `poll_once` finds nothing, and the iteration ends without a flush. -/
theorem idle_unflushed :
    ¬ ∀ s, (system (smallConfig .drop)).Reach (Sys.init (smallConfig .drop)) s →
      s.drain.pc = .idle → unflushed s.sink = [] := by
  intro hall
  obtain ⟨s, hs⟩ := Option.isSome_iff_exists.mp
    (show ((system (smallConfig .drop)).run (Sys.init (smallConfig .drop))
      (firstLog 0 32 ++ [.exit 0] ++ List.replicate 27 .drain)).isSome = true by decide +kernel)
  have hend : ((system (smallConfig .drop)).run (Sys.init (smallConfig .drop))
      (firstLog 0 32 ++ [.exit 0] ++ List.replicate 27 .drain)).map
        (fun s => (s.drain.pc, unflushed s.sink)) = some (.idle, [(.final, ⟨0, 0, 0, 32⟩)]) := by
    decide +kernel
  rw [hs, Option.map_some, Option.some.injEq, Prod.mk.injEq] at hend
  have hnil := hall s (Machine.run_runs hs) hend.1
  rw [hend.2] at hnil
  cases hnil

end Sys

end Ticklog
