import Ticklog.Ring.TailCache

/-!
# Schedules without the failed reserves (`RingBuffer::reserve` in `src/ring.rs`)

A schedule of `slots` may be run by either build, and its failed calls may be left out. In both
comparisons the two runs agree but for the cached tail and for what a waiting producer saw there
(`Agree`): the copy has no say in what a call returns, since a call is decided by the true tail
(`loadSlot_exact`), and nothing else reads it. So the builds grant the same reservations
(`agree_run`), and without its failed calls a schedule grants the others what they got and
delivers what it delivered (`prune_run`).
-/

namespace Ticklog

open Lib

namespace Spsc

variable {g : Geometry} {fast fast' : Bool} {s s' t t' : Spsc}

/-! ## What calls return -/

/-- What `reserve` returns where the producer goes on from its place `pc`: the offset and the new
head of the reservation, or `None`. -/
def outcome (g : Geometry) (pc : ProducerPc) : Option (Nat × Nat) :=
  match pc with
  | .writeEob head total _ | .filling head total => some (g.dst head total, g.newHead head total)
  | _ => none

/-- The result of the call that a step to `s'` decides: at the load, or where the fast
build's look has granted it. -/
def callResult (g : Geometry) (s' : Spsc) : SpscAction → Option (Option (Nat × Nat))
  | .reserve _ => (outcome g s'.producer).map some
  | .loadTail => some (outcome g s'.producer)
  | _ => none

/-- The results of the calls of a schedule, in order. -/
def callResults (g : Geometry) (m : Machine Spsc SpscAction) : Spsc → List SpscAction →
    List (Option (Nat × Nat))
  | _, [] => []
  | s, a :: as =>
    match m.step s a with
    | none => []
    | some s' => (callResult g s' a).toList ++ callResults g m s' as

/-! ## Runs that differ in the cached tail -/

/-- Two states that agree but for the cached tail, and for what a waiting producer saw there. -/
structure Agree (s t : Spsc) : Prop where
  rest : t = { s with ring.tailCache := t.ring.tailCache, producer := t.producer }
  producer : t.producer = s.producer ∨
    ∃ head total, Waiting s head total ∧ Waiting t head total

theorem Agree.refl (s : Spsc) : Agree s s := ⟨rfl, Or.inl rfl⟩

theorem Agree.exists_eq (h : Agree s t) :
    ∃ cache pc, t = { s with ring.tailCache := cache, producer := pc } := ⟨_, _, h.rest⟩

/-- A producer that is not waiting is in the same place in both. -/
theorem Agree.producer_eq (h : Agree s t) (hno : ∀ head total, ¬ Waiting s head total) :
    t.producer = s.producer := by
  rcases h.producer with heq | ⟨head, total, hwait, -⟩
  · exact heq
  · exact absurd hwait (hno head total)

theorem Agree.waiting (h : Agree s t) {head total : Nat} (hwait : Waiting s head total) :
    Waiting t head total := by
  unfold Waiting at hwait ⊢
  rcases h.producer with heq | ⟨head', total', hs, ht⟩
  · rw [heq]
    exact hwait
  · have hsame : head' = head ∧ total' = total := by
      rcases hwait with hpc | hpc <;> rcases hs with hpc' | hpc' <;> rw [hpc] at hpc' <;>
        cases hpc' <;> exact ⟨rfl, rfl⟩
    obtain ⟨rfl, rfl⟩ := hsame
    exact ht

/-- The drain does not look at the producer's side. -/
theorem drainStep_side (s : Spsc) (cache : Nat) (pc : ProducerPc) :
    drainStep g { s with ring.tailCache := cache, producer := pc }
      = { drainStep g s with
          ring.tailCache := cache
          producer := pc } := by
  unfold drainStep
  cases s.drain with
  | idle => simp only; split <;> rfl
  | loadHead t => simp only; split <;> rfl
  | scan t hc => simp only; split <;> rfl
  | readPrefix t hc acc =>
    simp only
    split
    · rfl
    · split <;> rfl
  | readRecord t hc total acc => simp only; split <;> rfl
  | storeTail t hc => rfl

theorem not_waiting_of {pc : ProducerPc} (hpc : s.producer = pc)
    (hne : ∀ head total, pc ≠ .confirm head total ∧ pc ≠ .refresh head total) :
    ∀ head total, ¬ Waiting s head total := by
  rintro head total (hwait | hwait)
  · exact (hne head total).1 (hpc.symm.trans hwait)
  · exact (hne head total).2 (hpc.symm.trans hwait)

/-- An access that fills, publishes or gives up a reservation does not look at the cached tail. -/
theorem fill_side {a : SpscAction} (ha : a = .eobByte ∨ (∃ i b, a = .write i b) ∨ a = .publish ∨
    a = .abandon) (hstep : step g false .drop s a = some s') (cache : Nat) :
    (∀ head total, ¬ Waiting s head total) ∧ (∀ head total, ¬ Waiting s' head total) ∧
      step g false .drop { s with ring.tailCache := cache } a
        = some { s' with ring.tailCache := cache } := by
  rcases ha with rfl | ⟨i, b, rfl⟩ | rfl | rfl
  · dsimp only [step, eobByte] at hstep ⊢
    split at hstep
    next head total k hpc =>
      cases hstep
      refine ⟨not_waiting_of hpc fun _ _ => ⟨nofun, nofun⟩, not_waiting_of rfl ?_, by simp only⟩
      intro _ _
      split <;> exact ⟨nofun, nofun⟩
    next => cases hstep
  · dsimp only [step, write] at hstep ⊢
    split at hstep
    next head total hpc =>
      split at hstep
      next hi =>
        cases hstep
        have hno : ∀ head total, ¬ Waiting s head total :=
          not_waiting_of hpc fun _ _ => ⟨nofun, nofun⟩
        exact ⟨hno, hno, by simp only [if_pos hi]⟩
      next => cases hstep
    next => cases hstep
  · dsimp only [step, publish] at hstep ⊢
    split at hstep
    next head total hpc =>
      split at hstep
      next hfr =>
        cases hstep
        refine ⟨not_waiting_of hpc fun _ _ => ⟨nofun, nofun⟩,
          not_waiting_of rfl fun _ _ => ⟨nofun, nofun⟩, ?_⟩
        simp only
        rw [if_pos hfr]
      next => cases hstep
    next => cases hstep
  · dsimp only [step, abandon] at hstep ⊢
    split at hstep
    next head total hpc =>
      cases hstep
      exact ⟨not_waiting_of hpc fun _ _ => ⟨nofun, nofun⟩,
        not_waiting_of rfl fun _ _ => ⟨nofun, nofun⟩, by simp only⟩
    next => cases hstep

theorem outcome_granted (head total : Nat) :
    outcome g (granted g head total) = some (g.dst head total, g.newHead head total) := by
  unfold granted
  split <;> rfl

/-- A look at the cached tail decides no call here, and the other accesses but the load are in no
call. -/
theorem callResult_none {a : SpscAction} (h : Room g s) (ha : a ≠ .loadTail)
    (hstep : slotStep g fast s a = some s') : callResult g s' a = none := by
  cases a with
  | reserve total =>
    obtain ⟨-, -, ⟨rfl, -⟩ | rfl⟩ := reserve_waits h hstep
    · rfl
    · rfl
  | loadTail => exact absurd rfl ha
  | _ => rfl

/-- Two states that agree take the same steps, in either build, and a call they decide has the
same result. -/
theorem agree_step (fast' : Bool) {a : SpscAction} (h : Agree s t) (hs : Room g s) (ht : Room g t)
    (hstep : slotStep g fast s a = some s') :
    ∃ t', slotStep g fast' t a = some t' ∧ Agree s' t' ∧
      callResult g t' a = callResult g s' a := by
  obtain ⟨cache, pc, rfl⟩ := h.exists_eq
  have hfill : a = .eobByte ∨ (∃ i b, a = .write i b) ∨ a = .publish ∨ a = .abandon →
      step g false .drop s a = some s' →
      ∃ t', step g false .drop { s with ring.tailCache := cache, producer := pc } a = some t' ∧
        Agree s' t' ∧ callResult g t' a = callResult g s' a := by
    intro ha hst
    obtain ⟨hno, -, hside⟩ := fill_side ha hst cache
    have hpc : pc = s.producer := h.producer_eq hno
    rw [hpc]
    refine ⟨_, hside, ⟨rfl, Or.inl rfl⟩, ?_⟩
    rcases ha with rfl | ⟨i, b, rfl⟩ | rfl | rfl <;> rfl
  cases a with
  | reserve total =>
    obtain ⟨hidle, hsize, hs'⟩ := reserve_waits hs hstep
    have hpc : pc = .idle := (h.producer_eq fun head total hwait => by
      unfold Waiting at hwait
      rw [hidle] at hwait
      rcases hwait with hc | hc <;> cases hc).trans hidle
    subst hpc
    have hwait : Waiting s' s.ring.head total := by
      rcases hs' with ⟨rfl, -⟩ | rfl
      · exact Or.inl rfl
      · exact Or.inr rfl
    have hrest : ∀ pc' : ProducerPc, Waiting { s with ring.tailCache := cache, producer := pc' }
        s.ring.head total → Agree s' { s with ring.tailCache := cache, producer := pc' } := by
      intro pc' hwait'
      refine ⟨?_, Or.inr ⟨_, _, hwait, hwait'⟩⟩
      rcases hs' with ⟨rfl, -⟩ | rfl
      · rfl
      · rfl
    have hnone : callResult g s' (.reserve total) = none :=
      callResult_none (a := .reserve total) hs nofun hstep
    rw [hnone]
    simp only [slotStep, reserve, if_pos hsize, Bool.false_eq_true, if_false]
    split
    · exact ⟨_, rfl, hrest _ (Or.inl rfl), rfl⟩
    · exact ⟨_, rfl, hrest _ (Or.inr rfl), rfl⟩
  | loadTail =>
    obtain ⟨head, total, hwait⟩ := waiting_of_loadPlace hstep
    obtain ⟨-, -, c, hload⟩ := loadSlot_exact fast hs hwait
    obtain ⟨-, -, c', hload'⟩ := loadSlot_exact fast' ht (h.waiting hwait)
    rw [hload] at hstep
    cases hstep
    exact ⟨_, hload', ⟨rfl, Or.inl rfl⟩, rfl⟩
  | eobByte => exact hfill (Or.inl rfl) hstep
  | write i b => exact hfill (Or.inr (Or.inl ⟨i, b, rfl⟩)) hstep
  | publish => exact hfill (Or.inr (Or.inr (Or.inl rfl))) hstep
  | abandon => exact hfill (Or.inr (Or.inr (Or.inr rfl))) hstep
  | setDead =>
    cases hstep
    exact ⟨_, rfl, ⟨rfl, h.producer⟩, rfl⟩
  | drain =>
    cases hstep
    refine ⟨_, rfl, ⟨?_, ?_⟩, rfl⟩
    · rw [drainStep_side]
    · rw [drainStep_side]
      show pc = (drainStep g s).producer ∨ ∃ head total, Waiting (drainStep g s) head total ∧ _
      unfold Waiting
      rw [drainStep_producer]
      exact h.producer

/-- Both builds accept the same schedules, and their calls return the same. -/
theorem agree_run (fast' : Bool) {as : List SpscAction} (h : Agree s t) (hs : Whole g s)
    (ht : Whole g t)
    (hrun : (slots g fast).run s as = some s') :
    ∃ t', (slots g fast').run t as = some t' ∧ Agree s' t' ∧
      callResults g (slots g fast') t as = callResults g (slots g fast) s as := by
  induction as generalizing s t with
  | nil =>
    cases hrun
    exact ⟨t, rfl, h, rfl⟩
  | cons a as ih =>
    unfold Machine.run at hrun
    split at hrun
    next s₁ hstep =>
      change slotStep g fast s a = some s₁ at hstep
      obtain ⟨t₁, hstep', hagree, hresult⟩ := agree_step fast' h hs.room ht.room hstep
      obtain ⟨t', hrun', hagree', hresults⟩ :=
        ih hagree (slotStep_whole hs hstep) (slotStep_whole ht hstep') hrun
      refine ⟨t', Machine.run_cons (m := slots g fast') hstep' hrun', hagree', ?_⟩
      have hstep : (slots g fast).step s a = some s₁ := hstep
      have hstep' : (slots g fast').step t a = some t₁ := hstep'
      simp only [callResults, hstep, hstep']
      rw [hresult, hresults]
    next => cases hrun

/-! ## Runs without the failed calls -/

/-- The call that is waiting at `s` returns `None` in the schedule `as`. -/
def failsIn (g : Geometry) (fast : Bool) : Spsc → List SpscAction → Bool
  | _, [] => false
  | s, a :: as =>
    match slotStep g fast s a with
    | none => false
    | some s' => if a = .loadTail then (outcome g s'.producer).isNone else failsIn g fast s' as

/-- The step from `s` to `s'`, with `as` to come, belongs to a call that returns `None`. -/
def inFailedCall (g : Geometry) (fast : Bool) (s' : Spsc) (a : SpscAction)
    (as : List SpscAction) : Bool :=
  match a with
  | .reserve _ => failsIn g fast s' as
  | .loadTail => (outcome g s'.producer).isNone
  | _ => false

/-- A schedule without its failed calls. -/
def prune (g : Geometry) (fast : Bool) : Spsc → List SpscAction → List SpscAction
  | _, [] => []
  | s, a :: as =>
    match slotStep g fast s a with
    | none => a :: as
    | some s' =>
      if inFailedCall g fast s' a as then prune g fast s' as else a :: prune g fast s' as

/-- While a call waits only the drain moves, and the flag. -/
theorem waiting_step {a : SpscAction} {head total : Nat} (hwait : Waiting s head total)
    (hne : a ≠ .loadTail) (hstep : slotStep g fast s a = some s') :
    (a = .setDead ∨ a = .drain) ∧ s'.producer = s.producer ∧ ∀ cache pc,
      slotStep g fast { s with ring.tailCache := cache, producer := pc } a
        = some { s' with ring.tailCache := cache, producer := pc } := by
  have hno : s.producer ≠ .idle ∧ (∀ h t k, s.producer ≠ .writeEob h t k) ∧
      ∀ h t, s.producer ≠ .filling h t := by
    rcases hwait with hpc | hpc <;> rw [hpc] <;> exact ⟨nofun, fun _ _ _ => nofun, fun _ _ => nofun⟩
  cases a with
  | reserve total =>
    change reserve g false total s = some s' at hstep
    unfold reserve at hstep
    split at hstep
    next hpc => exact absurd hpc hno.1
    next => cases hstep
  | loadTail => exact absurd rfl hne
  | eobByte =>
    change eobByte g s = some s' at hstep
    unfold eobByte at hstep
    split at hstep
    next hpc => exact absurd hpc (hno.2.1 _ _ _)
    next => cases hstep
  | write i b =>
    change write g i b s = some s' at hstep
    unfold write at hstep
    split at hstep
    next hpc => exact absurd hpc (hno.2.2 _ _)
    next => cases hstep
  | publish =>
    change publish g s = some s' at hstep
    unfold publish at hstep
    split at hstep
    next hpc => exact absurd hpc (hno.2.2 _ _)
    next => cases hstep
  | abandon =>
    change abandon s = some s' at hstep
    unfold abandon at hstep
    split at hstep
    next hpc => exact absurd hpc (hno.2.2 _ _)
    next => cases hstep
  | setDead =>
    cases hstep
    exact ⟨Or.inl rfl, rfl, fun _ _ => rfl⟩
  | drain =>
    cases hstep
    refine ⟨Or.inr rfl, by fun_cases drainStep g s <;> rfl, fun cache pc => ?_⟩
    show some (drainStep g { s with ring.tailCache := cache, producer := pc }) = _
    rw [drainStep_side]

/-- The load ends the wait. -/
theorem loadPlace_not_waiting (h : Room g s) (hstep : slotStep g fast s .loadTail = some s') :
    ∀ head total, ¬ Waiting s' head total := by
  obtain ⟨head, total, hwait⟩ := waiting_of_loadPlace hstep
  obtain ⟨-, -, cache, hload⟩ := loadSlot_exact fast h hwait
  rw [hload] at hstep
  cases hstep
  refine not_waiting_of rfl fun _ _ => ?_
  unfold granted
  split
  · split <;> exact ⟨nofun, nofun⟩
  · exact ⟨nofun, nofun⟩

/-- Only a call brings the producer to wait. -/
theorem waiting_back {a : SpscAction} {head total : Nat} (ha : ∀ total, a ≠ .reserve total)
    (hroom : Room g s) (hstep : slotStep g fast s a = some s') (hwait : Waiting s' head total) :
    a ≠ .loadTail ∧ Waiting s head total := by
  have hfill : a = .eobByte ∨ (∃ i b, a = .write i b) ∨ a = .publish ∨ a = .abandon →
      step g false .drop s a = some s' → a ≠ .loadTail ∧ Waiting s head total := by
    intro hfill hst
    exact absurd hwait ((fill_side hfill hst 0).2.1 head total)
  cases a with
  | reserve total => exact absurd rfl (ha total)
  | loadTail => exact absurd hwait (loadPlace_not_waiting hroom hstep head total)
  | eobByte => exact hfill (Or.inl rfl) hstep
  | write i b => exact hfill (Or.inr (Or.inl ⟨i, b, rfl⟩)) hstep
  | publish => exact hfill (Or.inr (Or.inr (Or.inl rfl))) hstep
  | abandon => exact hfill (Or.inr (Or.inr (Or.inr rfl))) hstep
  | setDead =>
    cases hstep
    exact ⟨nofun, hwait⟩
  | drain =>
    cases hstep
    unfold Waiting at hwait ⊢
    rw [drainStep_producer] at hwait
    exact ⟨nofun, hwait⟩

/-- `t` is `s` without the failed call it may be in, `as` being still to come. -/
def Pruned (g : Geometry) (fast : Bool) (s t : Spsc) (as : List SpscAction) : Prop :=
  Agree s t ∧ (∀ head total, Waiting s head total → failsIn g fast s as = false) ∨
  failsIn g fast s as = true ∧ (∃ head total, Waiting s head total) ∧
    ∃ cache, t = { s with ring.tailCache := cache, producer := .idle }

theorem failsIn_cons {a : SpscAction} (as : List SpscAction)
    (hstep : slotStep g fast s a = some s') :
    failsIn g fast s (a :: as)
      = if a = .loadTail then (outcome g s'.producer).isNone else failsIn g fast s' as := by
  rw [failsIn, hstep]

theorem inFailedCall_other {a : SpscAction} {as : List SpscAction}
    (ha : ∀ total, a ≠ .reserve total) (hload : a ≠ .loadTail) :
    inFailedCall g fast s' a as = false := by
  cases a with
  | reserve total => exact absurd rfl (ha total)
  | loadTail => exact absurd rfl hload
  | eobByte => rfl
  | write i b => rfl
  | publish => rfl
  | abandon => rfl
  | setDead => rfl
  | drain => rfl

/-- Outside a failed call both sides take the step, the failed call's own steps are left out. -/
theorem pruned_step {a : SpscAction} {as : List SpscAction} (h : Pruned g fast s t (a :: as))
    (hs : Room g s) (ht : Room g t) (hstep : slotStep g fast s a = some s') :
    (inFailedCall g fast s' a as = true ∧ Pruned g fast s' t as ∧
      (callResult g s' a = none ∨ callResult g s' a = some none)) ∨
    (inFailedCall g fast s' a as = false ∧ callResult g s' a ≠ some none ∧
      ∃ t', slotStep g fast t a = some t' ∧ Pruned g fast s' t' as ∧
        callResult g t' a = callResult g s' a) := by
  have hcons := failsIn_cons as hstep
  rcases h with ⟨hagree, hkept⟩ | ⟨hfails, ⟨head, total, hwait⟩, cache, rfl⟩
  · obtain ⟨t', hstep', hagree', hresult⟩ := agree_step fast hagree hs ht hstep
    by_cases hcall : ∃ total, a = .reserve total
    · -- a call is kept if it will be granted
      obtain ⟨total, rfl⟩ := hcall
      have hnone : callResult g s' (.reserve total) = none :=
        callResult_none hs nofun hstep
      cases hfails : failsIn g fast s' as with
      | true =>
        obtain ⟨hidle, -, hs'⟩ := reserve_waits hs hstep
        obtain ⟨cache, pc, rfl⟩ := hagree.exists_eq
        have hpc : pc = .idle := (hagree.producer_eq (not_waiting_of hidle fun _ _ =>
          ⟨nofun, nofun⟩)).trans hidle
        subst hpc
        refine Or.inl ⟨hfails, Or.inr ⟨hfails, ⟨s.ring.head, total, ?_⟩, cache, ?_⟩, Or.inl hnone⟩
        · rcases hs' with ⟨rfl, -⟩ | rfl
          · exact Or.inl rfl
          · exact Or.inr rfl
        · rcases hs' with ⟨rfl, -⟩ | rfl
          · rfl
          · rfl
      | false =>
        refine Or.inr ⟨hfails, ?_, t', hstep', Or.inl ⟨hagree', fun _ _ _ => hfails⟩, hresult⟩
        rw [hnone]
        nofun
    · have hcall : ∀ total, a ≠ .reserve total := fun total heq => hcall ⟨total, heq⟩
      by_cases hload : a = .loadTail
      · -- the call that waits is one of those that were kept
        subst hload
        obtain ⟨head, total, hwait⟩ := waiting_of_loadPlace hstep
        have hgranted : (outcome g s'.producer).isNone = false := by
          have hkept := hkept head total hwait
          rw [hcons, if_pos rfl] at hkept
          exact hkept
        refine Or.inr ⟨hgranted, ?_, t', hstep', Or.inl ⟨hagree',
          fun head total hwait' => absurd hwait' (loadPlace_not_waiting hs hstep head total)⟩,
          hresult⟩
        intro hnone
        rw [Option.some.inj hnone] at hgranted
        cases hgranted
      · refine Or.inr ⟨inFailedCall_other hcall hload, ?_, t', hstep', Or.inl ⟨hagree', ?_⟩,
          hresult⟩
        · rw [callResult_none hs hload hstep]
          nofun
        · intro head total hwait'
          obtain ⟨-, hwait⟩ := waiting_back hcall hs hstep hwait'
          have hkept := hkept head total hwait
          rw [hcons, if_neg hload] at hkept
          exact hkept
  · by_cases hload : a = .loadTail
    · -- the failed call returns
      subst hload
      rw [hcons, if_pos rfl] at hfails
      have hgone := loadPlace_not_waiting hs hstep
      have hnone := Option.isNone_iff_eq_none.mp hfails
      refine Or.inl ⟨hfails, Or.inl ⟨?_, fun head total hwait' =>
        absurd hwait' (hgone head total)⟩, Or.inr (congrArg some hnone)⟩
      obtain ⟨-, -, c, hslot⟩ := loadSlot_exact fast hs hwait
      rw [hslot] at hstep
      cases hstep
      refine ⟨rfl, Or.inl ?_⟩
      simp only at hfails ⊢
      split at hfails
      next =>
        rw [outcome_granted] at hfails
        cases hfails
      next hfull => rw [if_neg hfull]
    · obtain ⟨hdrain, hpc, hside⟩ := waiting_step hwait hload hstep
      have hcall : ∀ total, a ≠ .reserve total := by
        rintro total rfl
        rcases hdrain with hd | hd <;> cases hd
      rw [hcons, if_neg hload] at hfails
      have hwait' : Waiting s' head total := by
        unfold Waiting at hwait ⊢
        rw [hpc]
        exact hwait
      refine Or.inr ⟨inFailedCall_other hcall hload, ?_, _, hside cache .idle,
        Or.inr ⟨hfails, ⟨head, total, hwait'⟩, cache, rfl⟩, ?_⟩
      · rw [callResult_none hs hload hstep]
        nofun
      · rw [callResult_none hs hload hstep]
        rcases hdrain with rfl | rfl <;> rfl

/-- Taking the failed calls out of a run changes no result of the others, and leaves the run in
the same state but for the cached tail. -/
theorem prune_run {as : List SpscAction} (h : Pruned g fast s t as) (hs : Whole g s)
    (ht : Whole g t) (hrun : (slots g fast).run s as = some s') :
    ∃ t', (slots g fast).run t (prune g fast s as) = some t' ∧ Agree s' t' ∧
      callResults g (slots g fast) t (prune g fast s as)
        = (callResults g (slots g fast) s as).filter Option.isSome := by
  induction as generalizing s t with
  | nil =>
    cases hrun
    rcases h with ⟨hagree, -⟩ | ⟨hfails, -⟩
    · exact ⟨t, rfl, hagree, rfl⟩
    · cases hfails
  | cons a as ih =>
    unfold Machine.run at hrun
    split at hrun
    next s₁ hstep =>
      change slotStep g fast s a = some s₁ at hstep
      have hs₁ := slotStep_whole hs hstep
      have hslot : (slots g fast).step s a = some s₁ := hstep
      simp only [prune, callResults, hstep, hslot]
      rcases pruned_step h hs.room ht.room hstep with
        ⟨hcall, hnext, hresult⟩ | ⟨hcall, hresult, t₁, hstep', hnext, hsame⟩
      · obtain ⟨t', hrun', hagree, hresults⟩ := ih hnext hs₁ ht hrun
        rw [if_pos hcall]
        refine ⟨t', hrun', hagree, ?_⟩
        rw [hresults, List.filter_append]
        rcases hresult with hnone | hnone <;> rw [hnone] <;> rfl
      · obtain ⟨t', hrun', hagree, hresults⟩ := ih hnext hs₁ (slotStep_whole ht hstep') hrun
        rw [if_neg (by rw [hcall]; nofun)]
        refine ⟨t', Machine.run_cons (m := slots g fast) hstep' hrun', hagree, ?_⟩
        have hslot' : (slots g fast).step t a = some t₁ := hstep'
        simp only [callResults, hslot']
        rw [hresults, hsame, List.filter_append]
        cases hcase : callResult g s₁ a with
        | none => rfl
        | some result =>
          cases result with
          | none => exact absurd hcase hresult
          | some grant => rfl
    next => cases hrun

/-! ## The fast build's own runs -/

/-- A run of the fast build becomes a schedule here when the empty place of the load is put in
after each call that its look has granted. -/
theorem fast_run {as : List SpscAction} (hne : ∀ head total, s.producer ≠ .confirm head total)
    (hrun : (spsc g true .drop).run s as = some s') :
    ∃ bs, (slots g true).run s bs = some s' ∧
      callResults g (slots g true) s bs = callResults g (spsc g true .drop) s as := by
  induction as generalizing s with
  | nil => exact ⟨[], hrun, rfl⟩
  | cons a as ih =>
    unfold Machine.run at hrun
    split at hrun
    next s₁ hstep =>
      by_cases hcall : ∃ total, a = .reserve total
      · obtain ⟨total, rfl⟩ := hcall
        obtain ⟨s₂, hlook, ⟨rfl, rfl⟩ | ⟨rfl, hs₂⟩⟩ := reserve_fast hstep
        · -- the call and the empty place of its load
          obtain ⟨bs, hbs, hresults⟩ := ih (fun _ _ => granted_ne_confirm) hrun
          have hcalled : (slots g true).step s (.reserve total)
              = some { s with producer := .confirm s.ring.head total } := hlook
          have hload : (slots g true).step { s with producer := .confirm s.ring.head total }
              .loadTail = some { s with producer := granted g s.ring.head total } := rfl
          refine ⟨.reserve total :: .loadTail :: bs,
            Machine.run_cons hcalled (Machine.run_cons hload hbs), ?_⟩
          simp only [callResults, hcalled, hload, hstep, hresults]
          simp only [callResult, outcome_granted]
          rfl
        · have hrefresh : ∀ head total, s₁.producer ≠ .confirm head total := by
            rw [hs₂]
            exact fun _ _ => nofun
          obtain ⟨bs, hbs, hresults⟩ := ih hrefresh hrun
          have hcalled : (slots g true).step s (.reserve total) = some s₁ := hlook
          refine ⟨.reserve total :: bs, Machine.run_cons hcalled hbs, ?_⟩
          simp only [callResults, hcalled, hstep, hresults]
      · have hcall : ∀ total, a ≠ .reserve total := fun total heq => hcall ⟨total, heq⟩
        have hslot : (slots g true).step s a = some s₁ := by
          cases a with
          | reserve total => exact absurd rfl (hcall total)
          | loadTail =>
            show loadPlace g true s = some s₁
            unfold loadPlace
            split
            next head total hpc => exact absurd hpc (hne head total)
            next => exact hstep
          | _ => exact hstep
        obtain ⟨bs, hbs, hresults⟩ := ih (step_ne_confirm hne hcall hstep) hrun
        refine ⟨a :: bs, Machine.run_cons hslot hbs, ?_⟩
        simp only [callResults, hslot, hstep, hresults]
    next => cases hrun

/-- The cached tail and the failed calls leave no trace. In every state that either build reaches
the calls are exact. Both builds take each other's schedules and grant the same; so a run of the
fast build is one of the default build, with the loads put in. And without its failed calls a
schedule grants the rest what they got, and leaves the same ring, the same records published and
the same records delivered. -/
theorem tail_cache_transparent (g : Geometry) (data : Nat → UInt8) :
    (∀ fast s, (spsc g fast .drop).Reach (init data) s → Exact g (step g fast .drop) s) ∧
    (∀ fast fast' as s, (slots g fast).run (init data) as = some s →
      Exact g (slotStep g fast) s ∧ ∃ s', (slots g fast').run (init data) as = some s' ∧
        Agree s s' ∧
        callResults g (slots g fast') (init data) as
          = callResults g (slots g fast) (init data) as) ∧
    (∀ as s, (spsc g true .drop).run (init data) as = some s →
      ∃ bs s', (spsc g false .drop).run (init data) bs = some s' ∧ Agree s s' ∧
        callResults g (spsc g false .drop) (init data) bs
          = callResults g (spsc g true .drop) (init data) as) ∧
    (∀ fast as s, (slots g fast).run (init data) as = some s →
      ∃ s', (slots g fast).run (init data) (prune g fast (init data) as) = some s' ∧
        Agree s s' ∧
        callResults g (slots g fast) (init data) (prune g fast (init data) as)
          = (callResults g (slots g fast) (init data) as).filter Option.isSome) := by
  have hinit : Whole g (init data) := init_whole data
  have hmachine : slots g false = spsc g false .drop :=
    congrArg Machine.mk (funext fun s => funext fun a => slotStep_default a)
  refine ⟨fun fast s hreach => exact_step (spsc_whole hreach).room, ?_, ?_, ?_⟩
  · intro fast fast' as s hrun
    have hwhole : Whole g s := slots_whole (Machine.run_runs hrun)
    exact ⟨exact_slots hwhole.room, agree_run fast' (Agree.refl _) hinit hinit hrun⟩
  · intro as s hrun
    obtain ⟨bs, hbs, hresults⟩ := fast_run (fun _ _ hpc => by cases hpc) hrun
    obtain ⟨s', hrun', hagree, hsame⟩ :=
      agree_run false (Agree.refl _) hinit hinit hbs
    rw [hmachine] at hrun' hsame
    exact ⟨bs, s', hrun', hagree, hsame.trans hresults⟩
  · intro fast as s hrun
    refine prune_run (Or.inl ⟨Agree.refl _, ?_⟩) hinit hinit hrun
    rintro head total (hpc | hpc) <;> cases hpc

/-- A call for the whole ring fails, and leaves the next one its offset. -/
example :
    let as : List SpscAction := [.reserve 128, .loadTail, .drain, .reserve 64, .loadTail]
    callResults twoSlots (slots twoSlots false) (init fun _ => 0) as = [none, some (0, 64)] ∧
      prune twoSlots false (init fun _ => 0) as = [.drain, .reserve 64, .loadTail] := by
  decide

end Spsc

end Ticklog
