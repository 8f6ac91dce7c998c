import Mathlib.Data.Prod.Lex
import Ticklog.Lib.Fair
import Ticklog.System.Late

/-!
# Every round of `Drain::run` ends

The drain is the only agent that moves its own position, and every access of it but the
load of `shutdown` at the top of the loop lowers a rank: the stage of the round, what is
left of the list the stage goes through, the place within one entry of it, and the records
a pass has yet to hand over. Producers that publish, register or exit meanwhile cannot
prolong the round: a scan goes through the registry it locked, and a pass up to the head it
loaded. So a round ends, and after `shutdown` the loop does (`drop_returns`).
-/

namespace Ticklog

open Lib

namespace Sys

variable {cfg : Config} {s s' : Sys}

/-! ## The rank of a position -/

/-- The stages of a round, the last one lowest. -/
def stage : LoopPc → ℕ
  | .lock => 13
  | .sync (.scanRegistry _) _ => 12
  | .sync (.scanLocal _) _ => 11
  | .sync (.reconcile _) _ => 10
  | .sync (.addNew _) _ => 9
  | .sync (.retain _ _) _ => 8
  | .finalNext | .mark .final _ | .pass .final _ _ | .clear .final _ | .markRecycled .final _
  | .recycle .final _ => 7
  | .entry _ | .reserved _ _ _ | .mark (.poll _ _) _ | .pass (.poll _ _) _ _
  | .clear (.poll _ _) _ | .retire _ _ _ _ | .markRecycled (.poll _ _) _
  | .recycle (.poll _ _) _ => 6
  | .takeLines => 5
  | .deliver _ => 4
  | .decide => 3
  | .flush => 2
  | .idle => 1
  | .top | .stopped => 0

/-- What is left of the list the stage goes through. -/
def remaining (d : Drain) : ℕ :=
  match d.pc with
  | .sync (.scanRegistry todo) _ | .sync (.addNew todo) _ | .sync (.retain todo _) _ => todo.length
  | .sync (.scanLocal todo) _ => todo.length
  | .sync (.reconcile i) _ => d.rings.length - i
  | .finalNext | .mark .final _ | .pass .final _ _ | .clear .final _ | .markRecycled .final _
  | .recycle .final _ => d.finalize.length
  | .entry i | .reserved i _ _ | .mark (.poll i _) _ | .pass (.poll i _) _ _
  | .clear (.poll i _) _ | .retire i _ _ _ | .markRecycled (.poll i _) _
  | .recycle (.poll i _) _ => d.rings.length - i
  | .deliver todo => todo.length
  | _ => 0

/-- The place within `drain_ring_inner`. -/
def passPlace : Pass → ℕ
  | .loadTail => 6
  | .loadCache _ => 5
  | .loadHead _ => 4
  | .scan _ _ => 3
  | .storeTail _ _ => 2
  | .storeCache _ => 1
  | .finished => 0

/-- The place within `maybe_retire`. -/
def retirePlace : Retire → ℕ
  | .handedOff => 5
  | .reserved => 4
  | .serial => 3
  | .head => 2
  | .tail _ => 1
  | .locked => 0

/-- The place within one entry of the list. -/
def place : LoopPc → ℕ
  | .sync _ half => if half then 0 else 1
  | .markRecycled (.poll _ _) _ => 22
  | .recycle (.poll _ _) _ => 21
  | .entry _ => 20
  | .reserved _ _ _ => 19
  | .mark _ _ => 18
  | .pass _ _ p => 10 + passPlace p
  | .clear _ _ => 9
  | .markRecycled .final _ => 8
  | .recycle .final _ => 7
  | .retire _ _ _ test => retirePlace test
  | _ => 0

/-- The records the pass under way has yet to hand over. -/
def unread : LoopPc → ℕ
  | .pass _ _ (.scan tail headCache) => headCache - tail
  | _ => 0

/-- How much of its round the drain has before it. -/
def roundRank (d : Drain) : ℕ ×ₗ ℕ ×ₗ ℕ ×ₗ ℕ :=
  toLex (stage d.pc, toLex (remaining d, toLex (place d.pc, unread d.pc)))

section Rank

variable {d d' : Drain}

theorem roundRank_stage (h : stage d'.pc < stage d.pc) : roundRank d' < roundRank d :=
  Prod.Lex.toLex_lt_toLex.mpr (Or.inl h)

theorem roundRank_remaining (hs : stage d'.pc = stage d.pc) (h : remaining d' < remaining d) :
    roundRank d' < roundRank d :=
  Prod.Lex.toLex_lt_toLex.mpr (Or.inr ⟨hs, Prod.Lex.toLex_lt_toLex.mpr (Or.inl h)⟩)

theorem roundRank_place (hs : stage d'.pc = stage d.pc) (hr : remaining d' = remaining d)
    (h : place d'.pc < place d.pc) : roundRank d' < roundRank d :=
  Prod.Lex.toLex_lt_toLex.mpr (Or.inr ⟨hs, Prod.Lex.toLex_lt_toLex.mpr
    (Or.inr ⟨hr, Prod.Lex.toLex_lt_toLex.mpr (Or.inl h)⟩)⟩)

/-- The same entry, one place further. -/
theorem roundRank_goto {pc pc' : LoopPc} (hpc : d.pc = pc) (hs : stage pc' = stage pc)
    (hr : remaining { d with pc := pc' } = remaining { d with pc := pc })
    (h : place pc' < place pc) : roundRank { d with pc := pc' } < roundRank d := by
  subst hpc
  exact roundRank_place hs hr h

theorem roundRank_unread (hs : stage d'.pc = stage d.pc) (hr : remaining d' = remaining d)
    (hp : place d'.pc = place d.pc) (h : unread d'.pc < unread d.pc) :
    roundRank d' < roundRank d :=
  Prod.Lex.toLex_lt_toLex.mpr (Or.inr ⟨hs, Prod.Lex.toLex_lt_toLex.mpr
    (Or.inr ⟨hr, Prod.Lex.toLex_lt_toLex.mpr (Or.inr ⟨hp, h⟩)⟩)⟩)

end Rank

/-! ## Every access lowers it -/

theorem swapRemove_length {α : Type} {l : List α} {i : ℕ} {x : α} (h : l[i]? = some x) :
    (swapRemove l i).length + 1 = l.length := by
  have hlen := (swapRemove_perm h).length_eq
  rw [List.length_cons] at hlen
  exact hlen

/-- One access of a pass goes on inside it, or hands over one more record. -/
theorem pass_place {ring ring' : Ring} {p p' : Pass} {x : Option Rec} (hp : p ≠ .finished)
    (h : Pass.step ring p = (p', ring', x)) :
    passPlace p' < passPlace p ∨
      ∃ tail headCache, p = .scan tail headCache ∧ p' = .scan (tail + 1) headCache ∧
        tail < headCache := by
  cases p with
  | loadTail =>
    cases h
    exact Or.inl (by simp only [passPlace]; omega)
  | loadCache tail =>
    simp only [Pass.step] at h
    split at h
    all_goals
      cases h
      exact Or.inl (by simp only [passPlace]; omega)
  | loadHead tail =>
    simp only [Pass.step] at h
    split at h
    all_goals
      cases h
      exact Or.inl (by simp only [passPlace]; omega)
  | scan tail headCache =>
    simp only [Pass.step] at h
    split at h
    next hlt =>
      split at h
      · cases h
        exact Or.inr ⟨tail, headCache, rfl, rfl, hlt⟩
      · cases h
        exact Or.inl (by simp only [passPlace]; omega)
    next =>
      cases h
      exact Or.inl (by simp only [passPlace]; omega)
  | storeTail tail headCache =>
    cases h
    exact Or.inl (by simp only [passPlace]; omega)
  | storeCache headCache =>
    cases h
    exact Or.inl (by simp only [passPlace]; omega)
  | finished => exact absurd rfl hp

/-- A scan that has nothing to evaluate goes to the next one, or drops a local entry. -/
theorem syncNext_rank {phase : SyncPhase} {half : Bool} (hpc : s.drain.pc = .sync phase half) :
    roundRank (syncNext s phase).drain < roundRank s.drain := by
  cases phase with
  | scanRegistry todo => exact roundRank_stage (by rw [hpc]; show 11 < 12; omega)
  | scanLocal todo => exact roundRank_stage (by rw [hpc]; show 10 < 11; omega)
  | reconcile i =>
    dsimp only [syncNext]
    split
    next hi =>
      have hlen := swapRemove_length (List.getElem?_eq_getElem hi)
      refine roundRank_remaining (by rw [hpc]; rfl) ?_
      simp only [remaining, hpc]
      omega
    next => exact roundRank_stage (by rw [hpc]; show 9 < 10; omega)
  | addNew todo => exact roundRank_stage (by rw [hpc]; show 8 < 9; omega)
  | retain todo kept => exact roundRank_stage (by rw [hpc]; show 7 < 8; omega)

/-- A scan that has evaluated `keep` is done with its ring. -/
theorem syncDecide_rank {keep half : Bool} {phase : SyncPhase} {r : Nat}
    (hpc : s.drain.pc = .sync phase half) (hsub : s.syncSubject phase = some r) :
    roundRank (syncDecide keep s phase).drain < roundRank s.drain := by
  cases phase with
  | scanRegistry todo =>
    cases todo with
    | nil => cases hsub
    | cons r₀ rest =>
      refine roundRank_remaining (by rw [hpc]; rfl) ?_
      simp only [syncDecide, remaining, hpc, List.length_cons]
      omega
  | scanLocal todo =>
    cases todo with
    | nil => cases hsub
    | cons e rest =>
      refine roundRank_remaining (by rw [hpc]; rfl) ?_
      simp only [syncDecide, remaining, hpc, List.length_cons]
      omega
  | reconcile i =>
    simp only [syncSubject, Option.bind_eq_some_iff] at hsub
    obtain ⟨e, he, -⟩ := hsub
    have hi := (List.getElem?_eq_some_iff.mp he).1
    have hlen := swapRemove_length he
    simp only [syncDecide, he]
    split
    · refine roundRank_remaining (by rw [hpc]; rfl) ?_
      simp only [remaining, hpc, List.length_set]
      omega
    · refine roundRank_remaining (by rw [hpc]; rfl) ?_
      simp only [remaining, hpc]
      omega
  | addNew todo =>
    cases todo with
    | nil => cases hsub
    | cons r₀ rest =>
      refine roundRank_remaining (by rw [hpc]; rfl) ?_
      simp only [syncDecide, remaining, hpc, List.length_cons]
      omega
  | retain todo kept =>
    cases todo with
    | nil => cases hsub
    | cons r₀ rest =>
      refine roundRank_remaining (by rw [hpc]; rfl) ?_
      simp only [syncDecide, remaining, drainTo_drain, hpc, List.length_cons]
      omega

/-- **A round ends**: every access of the drain but the one at the top of its loop goes on in
the round. -/
theorem drain_rank (h : EntryInv s) (hm : DrainMove cfg s s') (htop : s.drain.pc ≠ .top) :
    roundRank s'.drain < roundRank s.drain := by
  have hentry : ∀ {i r k : Nat}, workingOn s.drain.pc = some (i, r, k) →
      i < s.drain.rings.length :=
    fun hw => (List.getElem?_eq_some_iff.mp (h _ _ _ hw)).1
  cases hm with
  | leave hpc hsh => exact absurd hpc htop
  | enter hpc hsh hnext => exact absurd hpc htop
  | lock hpc hl => exact roundRank_stage (by rw [hpc]; show 12 < 13; omega)
  | syncNext hpc hsub => exact syncNext_rank hpc
  | @syncHalf phase r hpc hsub hl =>
    cases phase <;> exact roundRank_goto hpc rfl rfl (by show 0 < 1; omega)
  | syncLive hpc hsub hl => exact syncDecide_rank hpc hsub
  | syncDead hpc hsub => exact syncDecide_rank hpc hsub
  | finalRing hpc hf =>
    refine roundRank_remaining (by rw [hpc]; rfl) ?_
    simp only [remaining, hpc, hf, List.length_cons]
    omega
  | finalDone hpc hf => exact roundRank_stage (by rw [hpc]; show 6 < 7; omega)
  | entry hpc he hk =>
    exact roundRank_goto hpc rfl rfl (by show 19 < 20; omega)
  | stale hpc he hk =>
    have hi := (List.getElem?_eq_some_iff.mp he).1
    refine roundRank_remaining (by rw [hpc]; rfl) ?_
    simp only [remaining, drainTo_drain, hpc]
    omega
  | pollDone hpc he hnext =>
    rcases hnext with ⟨-, rfl⟩ | ⟨-, rfl⟩
    · exact roundRank_stage (by rw [hpc]; show 5 < 6; omega)
    · exact roundRank_stage (by rw [hpc]; show 3 < 6; omega)
  | skip hpc hr =>
    have hi := hentry (by rw [hpc]; rfl)
    refine roundRank_remaining (by rw [hpc]; rfl) ?_
    simp only [remaining, drainTo_drain, hpc]
    omega
  | unreserved hpc hr =>
    exact roundRank_goto hpc rfl rfl (by show 18 < 19; omega)
  | @mark ctx r hpc =>
    cases ctx with
    | final =>
      exact roundRank_goto hpc rfl rfl (by show 16 < 18; omega)
    | poll i k =>
      exact roundRank_goto hpc rfl rfl (by show 16 < 18; omega)
  | @passDone ctx r hpc =>
    cases ctx with
    | final =>
      exact roundRank_goto hpc rfl rfl (by show 9 < 10; omega)
    | poll i k =>
      exact roundRank_goto hpc rfl rfl (by show 9 < 10; omega)
  | @pass ctx r p p' ring' x hpc hp hstep =>
    have hstage : stage (.pass ctx r p') = stage s.drain.pc := by
      rw [hpc]
      cases ctx <;> rfl
    have hrem : remaining { s.drain with pc := .pass ctx r p' } = remaining s.drain := by
      cases ctx <;> simp only [remaining, hpc]
    rcases pass_place hp hstep with hlt | ⟨tail, headCache, rfl, rfl, hlt⟩
    · refine roundRank_place hstage hrem ?_
      rw [hpc]
      show 10 + passPlace p' < 10 + passPlace p
      omega
    · -- the pass hands over the record at `tail`
      refine roundRank_unread hstage hrem (by rw [hpc]; rfl) ?_
      rw [hpc]
      show headCache - (tail + 1) < headCache - tail
      omega
  | @clear ctx r hpc =>
    cases ctx with
    | final =>
      dsimp only [afterPass]
      split
      · exact roundRank_goto hpc rfl rfl (by show 8 < 9; omega)
      · exact roundRank_goto hpc rfl rfl (by show 0 < 9; omega)
    | poll i k =>
      exact roundRank_goto hpc rfl rfl (by show 5 < 9; omega)
  | keepEntry hpc =>
    have hi := hentry (by rw [hpc]; rfl)
    refine roundRank_remaining (by rw [hpc]; rfl) ?_
    simp only [remaining, drainTo_drain, hpc]
    omega
  | handedOff hpc hh =>
    exact roundRank_goto hpc rfl rfl (by show 4 < 5; omega)
  | notReserved hpc hh =>
    exact roundRank_goto hpc rfl rfl (by show 3 < 4; omega)
  | sameSerial hpc hh =>
    exact roundRank_goto hpc rfl rfl (by show 2 < 3; omega)
  | loadHead hpc =>
    exact roundRank_goto hpc rfl rfl (by show 1 < 2; omega)
  | drained hpc =>
    exact roundRank_goto hpc rfl rfl (by show 0 < 1; omega)
  | @retired i r k hpc hl hk hr =>
    -- the entry leaves the list
    have he := h i r k (by rw [hpc]; rfl)
    have hlen := swapRemove_length he
    have hi := (List.getElem?_eq_some_iff.mp he).1
    refine roundRank_remaining ?_ ?_
    · rw [hpc]
      dsimp only
      split <;> rfl
    · rw [show remaining s.drain = s.drain.rings.length - i by simp only [remaining, hpc]]
      dsimp only
      split
      all_goals
        simp only [remaining]
        omega
  | @markRecycled ctx r hpc hr hn =>
    cases ctx with
    | final =>
      exact roundRank_goto hpc rfl rfl (by show 7 < 8; omega)
    | poll i k =>
      exact roundRank_goto hpc rfl rfl (by show 21 < 22; omega)
  | @notRecycled ctx r hpc hr =>
    cases ctx with
    | final =>
      exact roundRank_goto hpc rfl rfl (by show 0 < 8; omega)
    | poll i k =>
      exact roundRank_goto hpc rfl rfl (by show 20 < 22; omega)
  | @recycle ctx r hpc =>
    cases ctx with
    | final =>
      exact roundRank_goto hpc rfl rfl (by show 0 < 7; omega)
    | poll i k =>
      exact roundRank_goto hpc rfl rfl (by show 20 < 21; omega)
  | takeLines hpc => exact roundRank_stage (by rw [hpc]; show 4 < 5; omega)
  | @deliver x rest hpc =>
    refine roundRank_remaining (by rw [hpc]; rfl) ?_
    simp only [remaining, drainTo_drain, hpc, List.length_cons]
    omega
  | delivered hpc => exact roundRank_stage (by rw [hpc]; show 3 < 4; omega)
  | lastPoll hpc hl => exact roundRank_stage (by rw [hpc]; show 2 < 3; omega)
  | worked hpc hl hw => exact roundRank_stage (by rw [hpc]; show 0 < 3; omega)
  | idleDirty hpc hl hw hd => exact roundRank_stage (by rw [hpc]; show 2 < 3; omega)
  | idleClean hpc hl hw hd => exact roundRank_stage (by rw [hpc]; show 1 < 3; omega)
  | lastFlush hpc hl => exact roundRank_stage (by rw [hpc]; show 0 < 2; omega)
  | flush hpc hl => exact roundRank_stage (by rw [hpc]; show 1 < 2; omega)
  | again hpc => exact roundRank_stage (by rw [hpc]; show 0 < 1; omega)

/-- What a round leaves alone. -/
theorem drain_round (hm : DrainMove cfg s s') (htop : s.drain.pc ≠ .top) :
    s'.drain.last = s.drain.last ∧ s'.drain.sinceSync = s.drain.sinceSync := by
  cases hm with
  | leave hpc hsh => exact absurd hpc htop
  | enter hpc hsh hnext => exact absurd hpc htop
  | syncNext hpc hsub => exact ⟨(syncNext_frame _).last, (syncNext_frame _).sinceSync⟩
  | syncLive hpc hsub hl => exact ⟨(syncDecide_frame _ _).last, (syncDecide_frame _ _).sinceSync⟩
  | syncDead hpc hsub => exact ⟨(syncDecide_frame _ _).last, (syncDecide_frame _ _).sinceSync⟩
  | _ => exact ⟨rfl, rfl⟩

theorem drain_top (htop : s.drain.pc = .top) (hstep : drainStep cfg s = some s') :
    s' = topStep cfg s := by
  unfold drainStep at hstep
  rw [htop] at hstep
  exact (Option.some.inj hstep).symm

/-- The drain waits for the registry lock only, which the guard holds while it marks. -/
theorem drain_enabled (hpc : s.drain.pc ≠ .stopped) (hg : ∀ todo, s.guard ≠ .marking todo) :
    (drainStep cfg s).isSome := by
  have hfree : (∀ phase half, s.drain.pc ≠ .sync phase half) → s.registryLocked = false := by
    intro hno
    unfold registryLocked
    split
    next phase half hs => exact absurd hs (hno phase half)
    next =>
      split
      next todo hm => exact absurd hm (hg todo)
      next => rfl
  unfold drainStep
  cases hat : s.drain.pc with
  | lock =>
    dsimp only
    rw [hfree (by rw [hat]; intro _ _ h; cases h)]
    rfl
  | retire i r k test =>
    have hl := hfree (by rw [hat]; intro _ _ h; cases h)
    cases test with
    | locked =>
      simp only [retireStep, hl, Bool.false_eq_true, if_false]
      split <;> rfl
    | handedOff | reserved | serial | head | tail => rfl
  | finalNext => dsimp only; split <;> rfl
  | entry i =>
    dsimp only
    split
    · split <;> rfl
    · split <;> rfl
  | reserved i r k => dsimp only; split <;> rfl
  | markRecycled ctx r => dsimp only; split <;> rfl
  | deliver todo => cases todo <;> rfl
  | flush => dsimp only; split <;> rfl
  | stopped => exact absurd hat hpc
  | top | sync | mark | pass | clear | recycle | takeLines | decide | idle => rfl

/-! ## `Guard::drop` returns -/

/-- How the loop and the guard stand to each other during shutdown. -/
structure DropOrder (s : Sys) : Prop where
  entry : EntryInv s
  order : GuardOrder s
  /-- The guard joins after its signal. -/
  signal : s.guard = .joining → s.shutdown = true
  dropped : s.guard = .dropped → s.drain.pc = .stopped
  /-- The final round does not come back to the top of the loop. -/
  lastRound : s.drain.last = true → s.drain.pc ≠ .top ∧ s.drain.pc ≠ .idle

theorem init_dropOrder : DropOrder (Sys.init cfg) :=
  ⟨init_entry, init_order, nofun, nofun, nofun⟩

/-- The final round stays below the top of the loop. -/
theorem drain_lastRound (hm : DrainMove cfg s s')
    (h : s.drain.last = true → s.drain.pc ≠ .top ∧ s.drain.pc ≠ .idle)
    (hlast : s'.drain.last = true) : s'.drain.pc ≠ .top ∧ s'.drain.pc ≠ .idle := by
  have hscan : ∀ {s₁ : Sys}, syncing s₁.drain.pc = true →
      s₁.drain.pc ≠ .top ∧ s₁.drain.pc ≠ .idle := by
    intro s₁ hs
    constructor
    all_goals
      intro hpc
      rw [hpc] at hs
      cases hs
  cases hm with
  | enter hpc hsh hnext => exact absurd hpc (h hlast).1
  | syncNext hpc hsub => exact hscan (syncNext_syncing _)
  | syncLive hpc hsub hl => exact hscan (syncDecide_syncing hpc)
  | syncDead hpc hsub => exact hscan (syncDecide_syncing hpc)
  | pollDone hpc he hnext =>
    rcases hnext with ⟨-, rfl⟩ | ⟨-, rfl⟩
    all_goals exact ⟨nofun, nofun⟩
  | @clear ctx r hpc =>
    cases ctx with
    | final =>
      dsimp only [drainTo_drain, afterPass]
      split <;> exact ⟨nofun, nofun⟩
    | poll i k => exact ⟨nofun, nofun⟩
  | retired hpc hl hk hr =>
    dsimp only
    split <;> exact ⟨nofun, nofun⟩
  | @notRecycled ctx r hpc hr => cases ctx <;> exact ⟨nofun, nofun⟩
  | @recycle ctx r hpc => cases ctx <;> exact ⟨nofun, nofun⟩
  | worked hpc hl hw => exact absurd hlast (by rw [hl]; nofun)
  | idleClean hpc hl hw hd =>
    change s.drain.last = true at hlast
    rw [hl] at hlast
    cases hlast
  | flush hpc hl =>
    change s.drain.last = true at hlast
    rw [hl] at hlast
    cases hlast
  | again hpc => exact absurd hpc (h hlast).2
  | _ => exact ⟨nofun, nofun⟩

theorem step_dropOrder {a : Action} (h : DropOrder s) (hstep : step cfg s a = some s') :
    DropOrder s' := by
  refine ⟨step_entry h.entry hstep, step_order h.order hstep, ?_, ?_, ?_⟩
  · by_cases ha : a = .guard
    · subst ha
      have hm : GuardMove s s' := guardStep_move hstep
      intro hj
      cases hm with
      | signal hg => rfl
      | lock | mark | unlock | joined => cases hj
    · obtain ⟨hg, hsh⟩ := step_guard_frame ha hstep
      rw [hg, hsh]
      exact h.signal
  · exact dropped_step h.dropped hstep
  · by_cases ha : a = .drain
    · subst ha
      exact drain_lastRound (drainStep_move hstep) h.lastRound
    · obtain ⟨hd, -⟩ := step_drain_frame ha hstep
      rw [hd]
      exact h.lastRound

theorem reach_dropOrder (h : (system cfg).Reach (Sys.init cfg) s) : DropOrder s :=
  Machine.Runs.invariant (I := DropOrder) (fun _ _ _ hi _ hst => step_dropOrder hi hst) h
    init_dropOrder

/-- The accesses `Guard::drop` has left before it joins. -/
def guardRank (s : Sys) : ℕ :=
  match s.guard with
  | .marking todo => todo.length + 2
  | .signal => 1
  | _ => 0

/-- `Guard::drop` gets to `join`. -/
theorem drop_joins : Behaviour.Ranked (system cfg) .guard guardRank (fun _ => True)
    (fun s => s.guard ≠ .alive) (fun s => s.guard = .joining ∨ s.guard = .dropped) where
  enabled s _ halive hno := by
    show (guardStep s).isSome
    unfold guardStep
    cases hg : s.guard with
    | alive => exact absurd hg halive
    | marking todo => cases todo <;> rfl
    | signal => rfl
    | joining => exact absurd (Or.inl hg) hno
    | dropped => exact absurd (Or.inr hg) hno
  lowers s s' _ _ halive hno hstep := by
    have hm : GuardMove s s' := guardStep_move hstep
    cases hm with
    | lock hg => exact absurd hg halive
    | mark hg =>
      refine Or.inr ⟨nofun, ?_⟩
      simp only [guardRank, hg, List.length_cons]
      omega
    | unlock hg =>
      refine Or.inr ⟨nofun, ?_⟩
      simp only [guardRank, hg]
      omega
    | signal hg => exact Or.inl (Or.inl rfl)
    | joined hg => exact Or.inl (Or.inr rfl)
  others s c s' _ _ halive _ hc hstep := by
    obtain ⟨hg, -⟩ := step_guard_frame hc hstep
    refine Or.inr ⟨?_, ?_⟩
    · rw [hg]
      exact halive
    · unfold guardRank
      rw [hg]

/-- What the loop has left after `shutdown`: the round under way, then the final one. -/
def exitRank (s : Sys) : ℕ ×ₗ ℕ ×ₗ ℕ ×ₗ ℕ ×ₗ ℕ :=
  toLex (if s.drain.last then 0 else 1, roundRank s.drain)

/-- After `shutdown` the loop ends. -/
theorem drain_stops : Behaviour.Ranked (system cfg) .drain exitRank DropOrder
    (fun s => s.guard = .joining ∨ s.guard = .dropped) (fun s => s.drain.pc = .stopped) where
  enabled s _ hg hno := by
    refine drain_enabled hno fun todo hm => ?_
    rcases hg with hg | hg <;> rw [hg] at hm <;> cases hm
  lowers s s' hI _ hg hno hstep := by
    have hm : DrainMove cfg s s' := drainStep_move hstep
    refine Or.inr ⟨?_, ?_⟩
    · rw [(drain_keeps hm).guard]
      exact hg
    by_cases htop : s.drain.pc = .top
    · -- the loop is left: the final round begins
      have hlast : s.drain.last = false :=
        Bool.eq_false_iff.mpr fun hl => (hI.lastRound hl).1 htop
      have hsh : s.shutdown = true := by
        rcases hg with hg | hg
        · exact hI.signal hg
        · exact absurd (hI.dropped hg) hno
      rw [drain_top htop hstep, topStep, if_pos hsh]
      refine Prod.Lex.toLex_lt_toLex.mpr (Or.inl ?_)
      rw [hlast]
      show 0 < 1
      omega
    · refine Prod.Lex.toLex_lt_toLex.mpr (Or.inr ⟨?_, drain_rank hI.entry hm htop⟩)
      rw [(drain_round hm htop).1]
  others s c s' _ _ hg _ hc hstep := by
    obtain ⟨hd, -⟩ := step_drain_frame hc hstep
    refine Or.inr ⟨?_, ?_⟩
    · by_cases hgu : c = .guard
      · subst hgu
        have hm : GuardMove s s' := guardStep_move hstep
        cases hm with
        | joined hj hst => exact Or.inr rfl
        | signal hs => exact Or.inl rfl
        | lock hs | mark hs | unlock hs =>
          rcases hg with hg | hg
          all_goals
            rw [hs] at hg
            cases hg
      · rw [(step_guard_frame hgu hstep).1]
        exact hg
    · unfold exitRank
      rw [hd]

/-- The join ends with the drain. -/
theorem drop_ends : Behaviour.Ranked (system cfg) .guard (fun _ => (0 : ℕ)) (fun _ => True)
    (fun s => s.drain.pc = .stopped ∧ (s.guard = .joining ∨ s.guard = .dropped))
    (fun s => s.guard = .dropped) where
  enabled s _ hP hno := by
    have hg := hP.2.resolve_right hno
    show (guardStep s).isSome
    simp only [guardStep, hg, hP.1, if_true, Option.isSome_some]
  lowers s s' _ _ hP hno hstep := by
    have hg := hP.2.resolve_right hno
    have hm : GuardMove s s' := guardStep_move hstep
    cases hm with
    | joined hj hst => exact Or.inl rfl
    | lock hs | mark hs | unlock hs | signal hs =>
      rw [hs] at hg
      cases hg
  others s c s' _ _ hP _ hc hstep := by
    refine Or.inr ⟨⟨?_, ?_⟩, rfl⟩
    · by_cases hd : c = .drain
      · -- a stopped drain makes no access
        subst hd
        rw [show (system cfg).step s .drain = drainStep cfg s from rfl, drainStep, hP.1] at hstep
        cases hstep
      · rw [(step_drain_frame hd hstep).1]
        exact hP.1
    · rw [(step_guard_frame hc hstep).1]
      exact hP.2

section Behaviours

variable {b : Behaviour (system cfg)}

theorem behaviour_dropOrder (hinit : b.state 0 = Sys.init cfg) (n : ℕ) : DropOrder (b.state n) := by
  have hrun := Behaviour.runs (b := b) Behaviour.obeys_true (Nat.zero_le n)
  rw [hinit] at hrun
  exact reach_dropOrder hrun

/-- Once the guard drops, the drain comes to its end. -/
theorem drain_exits (hinit : b.state 0 = Sys.init cfg) (hdrain : b.WeaklyFair .drain)
    (hguard : b.WeaklyFair .guard) {n : ℕ} (hn : (b.state n).guard ≠ .alive) :
    ∃ k, n ≤ k ∧ (b.state k).drain.pc = .stopped := by
  obtain ⟨j, hnj, hj⟩ := drop_joins.leadsTo hguard (fun _ => trivial) n hn
  obtain ⟨k, hjk, hk⟩ := drain_stops.leadsTo hdrain (behaviour_dropOrder hinit) j hj
  exact ⟨k, Nat.le_trans hnj hjk, hk⟩

end Behaviours

/-- **`Guard::drop` returns.** In every behaviour of the logger, under any policy and whatever
the threads log, register and exit meanwhile: once the guard has taken the registry lock, a
fair guard and a fair drain come to the end, the drain stopped and the join done. -/
theorem drop_returns (cfg : Config) (b : Behaviour (system cfg))
    (hinit : b.state 0 = Sys.init cfg) (hdrain : b.WeaklyFair .drain)
    (hguard : b.WeaklyFair .guard) {n : ℕ} (hn : (b.state n).guard ≠ .alive) :
    ∃ k, n ≤ k ∧ (b.state k).guard = .dropped ∧ (b.state k).drain.pc = .stopped := by
  have hI := behaviour_dropOrder hinit
  obtain ⟨l, hnl, hl⟩ := drain_exits hinit hdrain hguard hn
  have hlate := (hI l).order.signalled ((hI l).order.left ((hI l).order.stopped hl))
  obtain ⟨k, hlk, hk⟩ := drop_ends.leadsTo hguard (fun _ => trivial) l ⟨hl, hlate⟩
  exact ⟨k, Nat.le_trans hnl hlk, hk, (hI k).dropped hk⟩

/-- One record logged, then the guard takes the lock: at time 8 it has a ring to mark. -/
def firstDrop : List Action :=
  firstLog 0 64 ++ List.replicate 4 .guard ++ List.replicate 28 .drain ++ [.guard]

theorem drop_returns_firstDrop :
    ∃ b : Behaviour (system (smallConfig .drop)),
      b.state 0 = Sys.init (smallConfig .drop) ∧ b.WeaklyFair .drain ∧ b.WeaklyFair .guard ∧
        (b.state 8).guard = .marking [0] ∧
        ∃ k, 8 ≤ k ∧ (b.state k).guard = .dropped ∧ (b.state k).drain.pc = .stopped := by
  have hend : ((system (smallConfig .drop)).run (Sys.init (smallConfig .drop)) firstDrop).map
      (fun s => (((system (smallConfig .drop)).step s .drain).isNone,
        ((system (smallConfig .drop)).step s .guard).isNone)) = some (true, true) := by
    decide +kernel
  obtain ⟨s, hs, hend⟩ := Option.map_eq_some_iff.mp hend
  simp only [Prod.mk.injEq, Option.isNone_iff_eq_none] at hend
  have hdrain := Behaviour.ofRun_fair hs hend.1
  have hguard := Behaviour.ofRun_fair hs hend.2
  have hstart : (Behaviour.ofRun _ hs).state 0 = Sys.init (smallConfig .drop) :=
    Behaviour.statesOf_zero _ _
  have hmarking : ((Behaviour.ofRun _ hs).state 8).guard = .marking [0] := by
    show (Behaviour.statesOf (system (smallConfig .drop)) (Sys.init (smallConfig .drop))
      firstDrop 8).guard = .marking [0]
    decide +kernel
  refine ⟨_, hstart, hdrain, hguard, hmarking, ?_⟩
  exact drop_returns (smallConfig .drop) _ hstart hdrain hguard (by rw [hmarking]; nofun)

end Sys

end Ticklog
