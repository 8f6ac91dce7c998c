import Ticklog.System.Rounds
import Ticklog.System.Shutdown

/-!
# Every record is delivered some day (`src/drain.rs`, `Drop` and `Block`)

The loop syncs again and again (`drain_syncs`), and the round that begins with a sync
serves every ring registered before it. A live ring gets into the local list and is
polled (`Upcoming`); a dead one gets into the finalize list and is drained for the last
time (`Doomed`). The two predicates say where the ring is in that round, the rank of the
round shows that the drain gets there.
-/

namespace Ticklog

open Lib

namespace Sys

variable {cfg : Config} {s s' : Sys}

/-! ## The cadence -/

/-- The rounds before the next sync. -/
def untilSync (n : ℕ) : ℕ := (syncEvery - n % syncEvery) % syncEvery

theorem untilSync_succ {n : ℕ} (h : n % syncEvery ≠ 0) :
    untilSync ((n + 1) % 2 ^ 32) < untilSync n := by
  unfold untilSync syncEvery at *
  omega

/-- The accesses before the next sync. -/
def syncRank (s : Sys) : ℕ ×ₗ ℕ ×ₗ ℕ ×ₗ ℕ ×ₗ ℕ :=
  toLex (untilSync s.drain.sinceSync, roundRank s.drain)

/-- Under a guard that stays, the drain comes to lock the registry. -/
theorem drain_syncs : Behaviour.Ranked (system cfg) .drain syncRank
    (fun s => DropOrder s ∧ s.guard = .alive) (fun _ => True) (fun s => s.drain.pc = .lock) where
  enabled s hI _ _ := by
    refine drain_enabled (fun hstop => ?_) fun todo hm => ?_
    · have hlast := hI.1.order.stopped hstop
      rw [hI.1.order.running hI.2] at hlast
      cases hlast
    · rw [hI.2] at hm
      cases hm
  lowers s s' hI _ _ _ hstep := by
    have hm : DrainMove cfg s s' := drainStep_move hstep
    by_cases htop : s.drain.pc = .top
    · have hsh : s.shutdown = false := hI.1.order.unsignalled hI.2
      rw [drain_top htop hstep, topStep, hsh]
      simp only [Bool.false_eq_true, if_false]
      by_cases hdue : s.drain.sinceSync % (if cfg.segmented then 1 else syncEvery) = 0
      · left
        rw [if_pos hdue]
      · -- not yet due: one round less
        refine Or.inr ⟨trivial, Prod.Lex.toLex_lt_toLex.mpr (Or.inl (untilSync_succ ?_))⟩
        intro hmod
        refine hdue ?_
        split
        · exact Nat.mod_one _
        · exact hmod
    · refine Or.inr ⟨trivial, Prod.Lex.toLex_lt_toLex.mpr
        (Or.inr ⟨?_, drain_rank hI.1.entry hm htop⟩)⟩
      rw [(drain_round hm htop).2]
  others s c s' _ _ _ _ hc hstep := by
    obtain ⟨hd, -⟩ := step_drain_frame hc hstep
    refine Or.inr ⟨trivial, ?_⟩
    unfold syncRank
    rw [hd]

/-! ## Live rings -/

/-- The round under way hands over the first `due` records of the live ring `r`. -/
def Upcoming (due r : Nat) (d : Drain) : Prop :=
  match d.pc with
  | .lock | .sync (.scanRegistry _) _ | .sync (.scanLocal _) _ | .sync (.reconcile _) _
  | .sync (.addNew _) _ => True
  | .sync (.retain _ _) _ | .finalNext | .mark .final _ | .pass .final _ _ | .clear .final _ =>
    r ∈ d.rings.map Prod.fst
  | .entry i => r ∈ (d.rings.drop i).map Prod.fst
  | .reserved i r' _ | .mark (.poll i _) r' =>
    r = r' ∨ r ∈ (d.rings.drop (i + 1)).map Prod.fst
  | .pass (.poll i _) r' p =>
    r = r' ∧ PassDue due p ∨ r ∈ (d.rings.drop (i + 1)).map Prod.fst
  | .clear (.poll i _) _ | .retire i _ _ _ => r ∈ (d.rings.drop (i + 1)).map Prod.fst
  | _ => False

/-- An entry not passed yet is the next one or behind it. -/
theorem mem_drop_head {l : List (Nat × Nat)} {i r : Nat} {e : Nat × Nat} (he : l[i]? = some e) :
    r ∈ (l.drop i).map Prod.fst ↔ r = e.1 ∨ r ∈ (l.drop (i + 1)).map Prod.fst := by
  obtain ⟨hi, rfl⟩ := List.getElem?_eq_some_iff.mp he
  rw [List.drop_eq_getElem_cons hi, List.map_cons, List.mem_cons]

/-- A verdict moves no ring out of the round. -/
theorem syncDecide_upcoming {due r : Nat} {phase : SyncPhase} {half keep : Bool}
    (hpc : s.drain.pc = .sync phase half) (hup : Upcoming due r s.drain) :
    Upcoming due r (syncDecide keep s phase).drain := by
  have hh := hup
  unfold Upcoming at hup
  unfold syncDecide
  split
  next => trivial
  next => trivial
  next =>
    split
    · split <;> trivial
    · exact hh
  next => trivial
  next =>
    simp only [hpc] at hup
    exact hup
  next => exact hh

/-- What a ring is owed while the guard is alive. -/
structure Awaited (due r : Nat) (s : Sys) : Prop where
  run : ClassicRun s
  held : AllHeld s
  drop : DropOrder s
  alive : s.guard = .alive
  known : r ∈ s.registered
  head : due ≤ (s.rings r).head

/-- The round goes on towards a live ring, or has served it. -/
theorem drain_upcoming (hseg : cfg.segmented = false) {due r : Nat} (h : Awaited due r s)
    (hlive : (s.rings r).live = true) (hm : DrainMove cfg s s') (hlt : done s r < due)
    (hup : Upcoming due r s.drain) : Upcoming due r s'.drain := by
  have hh := hup
  unfold Upcoming at hup
  have hp := h.run.plain.1.1
  cases hm with
  | leave hpc hsh =>
    simp only [hpc] at hup
  | enter hpc hsh hnext =>
    simp only [hpc] at hup
  | lock hpc hl => trivial
  | @syncNext phase half hpc hsub =>
    cases phase with
    | scanRegistry todo => trivial
    | scanLocal todo => trivial
    | reconcile i =>
      dsimp only [syncNext]
      split <;> trivial
    | addNew todo =>
      have htodo : todo = [] := List.head?_eq_none_iff.mp hsub
      subst htodo
      exact (h.held.adding _ _ hpc r h.known hlive).resolve_right List.not_mem_nil
    | retain todo kept =>
      simp only [hpc] at hup
      exact hup
  | @syncHalf phase r₀ hpc hsub hl =>
    cases phase with
    | retain todo kept =>
      simp only [hpc] at hup
      exact hup
    | scanRegistry | scanLocal | reconcile | addNew => trivial
  | syncLive hpc hsub hl => exact syncDecide_upcoming hpc hh
  | syncDead hpc hsub => exact syncDecide_upcoming hpc hh
  | finalRing hpc hf =>
    simp only [hpc] at hup
    exact hup
  | finalDone hpc hf =>
    simp only [hpc] at hup
    exact hup
  | entry hpc he hk =>
    simp only [hpc] at hup
    exact (mem_drop_head he).mp hup
  | stale hpc he hk =>
    -- entries carry the serial of their ring
    exact absurd (hp.entries _ (List.mem_of_getElem? he)).symm hk
  | pollDone hpc he hnext =>
    simp only [hpc, List.drop_eq_nil_of_le (List.getElem?_eq_none_iff.mp he)] at hup
    exact absurd hup List.not_mem_nil
  | @skip i r₀ k hpc hr =>
    rw [hp.noHelper] at hr
    cases hr
  | unreserved hpc hr =>
    simp only [hpc] at hup
    exact hup
  | @mark ctx r₀ hpc =>
    cases ctx with
    | final =>
      simp only [hpc] at hup
      exact hup
    | poll i k =>
      simp only [hpc] at hup
      exact hup.imp (fun hr => ⟨hr, trivial⟩) id
  | @passDone ctx r₀ hpc =>
    cases ctx with
    | final =>
      simp only [hpc] at hup
      exact hup
    | poll i k =>
      simp only [hpc] at hup
      exact hup.resolve_left fun ⟨_, hdue⟩ => hdue
  | @pass ctx r₀ p p' ring' x hpc hp' hstep =>
    cases ctx with
    | final =>
      simp only [hpc] at hup
      exact hup
    | poll i k =>
      simp only [hpc] at hup
      refine hup.imp (fun ⟨hr, hdue⟩ => ⟨hr, ?_⟩) id
      subst hr
      have hread := (h.run.plain.2 r).reader
      rw [hpc, reading_pass] at hread
      exact Pass.step_due hread hdue h.head hlt hstep
  | @clear ctx r₀ hpc =>
    cases ctx with
    | final =>
      simp only [hpc] at hup
      unfold Upcoming
      simp only [drainTo_drain, afterPass, hseg, Bool.false_eq_true, if_false]
      exact hup
    | poll i k =>
      simp only [hpc] at hup
      exact hup
  | keepEntry hpc =>
    simp only [hpc] at hup
    exact hup
  | handedOff hpc hh | notReserved hpc hh | sameSerial hpc hh | loadHead hpc | drained hpc =>
    simp only [hpc] at hup
    exact hup
  | @retired i r₀ k hpc hl hk hr =>
    have hret := h.run.retire
    unfold RetireInv at hret
    simp only [hpc] at hret
    have hoff := hret.handedOff
    rw [h.run.classic.noHandoff] at hoff
    cases hoff
  | markRecycled hpc | notRecycled hpc | recycle hpc | takeLines hpc | deliver hpc | delivered hpc
  | lastPoll hpc | worked hpc | idleDirty hpc | idleClean hpc | lastFlush hpc | flush hpc
  | again hpc =>
    simp only [hpc] at hup

/-- **A live ring is served**: the round that starts at a sync hands over what it is owed. -/
theorem live_served (hseg : cfg.segmented = false) (due r : Nat) :
    Behaviour.Ranked (system cfg) .drain (fun s => roundRank s.drain)
      (fun s => Awaited due r s ∧ (s.rings r).live = true) (fun s => Upcoming due r s.drain)
      (fun s => due ≤ done s r) where
  enabled s hI hup _ := by
    refine drain_enabled (fun hstop => ?_) fun todo hm => ?_
    · unfold Upcoming at hup
      simp only [hstop] at hup
    · rw [hI.1.alive] at hm
      cases hm
  lowers s s' hI hI' hup hno hstep := by
    have hm : DrainMove cfg s s' := drainStep_move hstep
    have htop : s.drain.pc ≠ .top := by
      intro htop
      unfold Upcoming at hup
      simp only [htop] at hup
    right
    exact ⟨drain_upcoming hseg hI.1 hI.2 hm (Nat.lt_of_not_le hno) hup,
      drain_rank hI.1.drop.entry hm htop⟩
  others s c s' _ _ hup _ hc hstep := by
    obtain ⟨hd, -⟩ := step_drain_frame hc hstep
    rw [hd]
    exact Or.inr ⟨hup, rfl⟩

/-! ## Dead rings -/

/-- The round under way drains the dead ring `r` for the last time. -/
def Doomed (due r : Nat) (s : Sys) : Prop :=
  match s.drain.pc with
  | .lock => r ∈ s.registry ∨ r ∈ s.drain.rings.map Prod.fst
  | .sync (.scanRegistry todo) _ =>
    r ∈ s.drain.finalize ∨ r ∈ todo ∨ (r ∈ s.drain.rings.map Prod.fst ∧ r ∉ s.registry)
  | .sync (.scanLocal todo) _ =>
    r ∈ s.drain.finalize ∨ (r ∈ todo.map Prod.fst ∧ r ∉ s.registry)
  | .sync (.reconcile _) _ | .sync (.addNew _) _ | .sync (.retain _ _) _ | .finalNext
  | .clear .final _ => r ∈ s.drain.finalize
  | .mark .final r' => r ∈ s.drain.finalize ∨ r = r'
  | .pass .final r' p => r ∈ s.drain.finalize ∨ r = r' ∧ PassDue due p
  | _ => False

/-- Past the scans of dead rings only the finalize list counts. -/
theorem Doomed.finalize {due r : Nat} {phase : SyncPhase} {half : Bool}
    (hpc : s.drain.pc = .sync phase half)
    (hlate : (∃ i, phase = .reconcile i) ∨ (∃ todo, phase = .addNew todo) ∨
      ∃ todo kept, phase = .retain todo kept) (h : Doomed due r s) : r ∈ s.drain.finalize := by
  unfold Doomed at h
  rcases hlate with ⟨i, rfl⟩ | ⟨todo, rfl⟩ | ⟨todo, kept, rfl⟩
  all_goals
    simp only [hpc] at h
    exact h

theorem syncNext_doomed {due r : Nat} {phase : SyncPhase} {half : Bool}
    (hpc : s.drain.pc = .sync phase half) (hsub : s.syncSubject phase = none)
    (h : Doomed due r s) : Doomed due r (syncNext s phase) := by
  have hh := h
  unfold Doomed at h
  cases phase with
  | scanRegistry todo =>
    have htodo : todo = [] := List.head?_eq_none_iff.mp hsub
    subst htodo
    simp only [hpc, List.not_mem_nil, false_or] at h
    exact h
  | scanLocal todo =>
    have htodo : todo = [] := List.map_eq_nil_iff.mp (List.head?_eq_none_iff.mp (by
      rw [List.head?_map]
      exact hsub))
    subst htodo
    simp only [hpc, List.map_nil, List.not_mem_nil, false_and, or_false] at h
    exact h
  | reconcile i =>
    have hf := Doomed.finalize hpc (Or.inl ⟨i, rfl⟩) hh
    dsimp only [syncNext]
    split
    · exact hf
    · exact hf
  | addNew todo =>
    have hf := Doomed.finalize hpc (Or.inr (Or.inl ⟨todo, rfl⟩)) hh
    exact hf
  | retain todo kept =>
    have hf := Doomed.finalize hpc (Or.inr (Or.inr ⟨todo, kept, rfl⟩)) hh
    exact hf

/-- A verdict on another ring, or the verdict that this one goes. -/
theorem syncDecide_doomed {due r r₀ : Nat} {phase : SyncPhase} {half keep : Bool}
    (hpc : s.drain.pc = .sync phase half) (hsub : s.syncSubject phase = some r₀)
    (hkeep : keep = true → r ≠ r₀) (h : Doomed due r s) :
    Doomed due r (syncDecide keep s phase) := by
  have hh := h
  unfold Doomed at h
  cases phase with
  | scanRegistry todo =>
    cases todo with
    | nil => cases hsub
    | cons r₁ rest =>
      have hr₁ : r₁ = r₀ := Option.some.inj hsub
      simp only [hpc, List.mem_cons] at h
      show r ∈ (if keep then s.drain.finalize else s.drain.finalize ++ [r₁]) ∨ r ∈ rest ∨
        (r ∈ s.drain.rings.map Prod.fst ∧ r ∉ s.registry)
      rcases h with h | (h | h) | h
      · left
        split
        · exact h
        · exact List.mem_append_left _ h
      · left
        rw [if_neg fun hk => hkeep hk (h.trans hr₁)]
        exact List.mem_append_right _ (List.mem_singleton.mpr h)
      · exact Or.inr (Or.inl h)
      · exact Or.inr (Or.inr h)
  | scanLocal todo =>
    cases todo with
    | nil => cases hsub
    | cons e rest =>
      obtain ⟨r₁, k⟩ := e
      have hr₁ : r₁ = r₀ := Option.some.inj hsub
      simp only [hpc, List.map_cons, List.mem_cons] at h
      show r ∈ (if ¬ keep = true ∧ r₁ ∉ s.registry then s.drain.finalize ++ [r₁]
        else s.drain.finalize) ∨ (r ∈ rest.map Prod.fst ∧ r ∉ s.registry)
      rcases h with h | ⟨h | h, hreg⟩
      · left
        split
        · exact List.mem_append_left _ h
        · exact h
      · left
        rw [if_pos ⟨fun hk => hkeep hk (h.trans hr₁), h ▸ hreg⟩]
        exact List.mem_append_right _ (List.mem_singleton.mpr h)
      · exact Or.inr ⟨h, hreg⟩
  | reconcile i =>
    have hf := Doomed.finalize hpc (Or.inl ⟨i, rfl⟩) hh
    dsimp only [syncDecide]
    split
    · split <;> exact hf
    · exact hh
  | addNew todo =>
    have hf := Doomed.finalize hpc (Or.inr (Or.inl ⟨todo, rfl⟩)) hh
    cases todo <;> first | exact hf | exact hh
  | retain todo kept =>
    have hf := Doomed.finalize hpc (Or.inr (Or.inr ⟨todo, kept, rfl⟩)) hh
    cases todo <;> first | exact hf | exact hh

/-- The round goes on towards the last drain of a dead ring, or has made it. -/
theorem drain_doomed (hseg : cfg.segmented = false) {due r : Nat} (h : Awaited due r s)
    (hdead : (s.rings r).live = false) (hm : DrainMove cfg s s') (hlt : done s r < due)
    (hd : Doomed due r s) : Doomed due r s' := by
  have hh := hd
  unfold Doomed at hd
  have hp := h.run.plain.1.1
  cases hm with
  | lock hpc hl =>
    simp only [hpc] at hd
    refine Or.inr ?_
    by_cases hreg : r ∈ s.registry
    · exact Or.inl hreg
    · exact Or.inr ⟨hd.resolve_left hreg, hreg⟩
  | syncNext hpc hsub => exact syncNext_doomed hpc hsub hh
  | @syncHalf phase r₀ hpc hsub hl =>
    unfold Doomed
    rw [drainTo_drain]
    cases phase <;> simp only [hpc] at hd <;> exact hd
  | @syncLive phase r₀ hpc hsub hl =>
    refine syncDecide_doomed hpc hsub (fun _ => ?_) hh
    rintro rfl
    rw [hdead] at hl
    cases hl
  | syncDead hpc hsub =>
    rw [hp.noHelper]
    exact syncDecide_doomed hpc hsub nofun hh
  | @finalRing r₀ rest hpc hf =>
    simp only [hpc, hf, List.mem_cons] at hd
    exact hd.symm
  | finalDone hpc hf =>
    simp only [hpc, hf, List.not_mem_nil] at hd
  | @mark ctx r₀ hpc =>
    cases ctx with
    | final =>
      simp only [hpc] at hd
      exact hd.imp id fun hr => ⟨hr, trivial⟩
    | poll i k => simp only [hpc] at hd
  | @passDone ctx r₀ hpc =>
    cases ctx with
    | final =>
      simp only [hpc] at hd
      exact hd.resolve_right fun ⟨_, hdue⟩ => hdue
    | poll i k => simp only [hpc] at hd
  | @pass ctx r₀ p p' ring' x hpc hp' hstep =>
    cases ctx with
    | final =>
      simp only [hpc] at hd
      refine hd.imp id fun ⟨hr, hdue⟩ => ⟨hr, ?_⟩
      subst hr
      have hread := (h.run.plain.2 r).reader
      rw [hpc, reading_pass] at hread
      exact Pass.step_due hread hdue h.head hlt hstep
    | poll i k => simp only [hpc] at hd
  | @clear ctx r₀ hpc =>
    cases ctx with
    | final =>
      simp only [hpc] at hd
      unfold Doomed
      simp only [drainTo_drain, afterPass, hseg, Bool.false_eq_true, if_false]
      exact hd
    | poll i k => simp only [hpc] at hd
  | leave hpc | enter hpc | entry hpc | stale hpc | pollDone hpc | skip hpc | unreserved hpc
  | keepEntry hpc | handedOff hpc | notReserved hpc | sameSerial hpc | loadHead hpc | drained hpc
  | retired hpc | markRecycled hpc | notRecycled hpc | recycle hpc | takeLines hpc | deliver hpc
  | delivered hpc | lastPoll hpc | worked hpc | idleDirty hpc | idleClean hpc | lastFlush hpc
  | flush hpc | again hpc => simp only [hpc] at hd

/-- The other agents only add to the registry, and not during the scans. -/
theorem doomed_still {due r : Nat} (hd : s'.drain = s.drain)
    (hreg : s'.registry = s.registry ∨
      (s.registry ⊆ s'.registry ∧ ∀ phase half, s.drain.pc ≠ .sync phase half))
    (h : Doomed due r s) : Doomed due r s' := by
  rcases hreg with heq | ⟨hsub, hno⟩
  · unfold Doomed at *
    rw [hd, heq]
    exact h
  · unfold Doomed at h ⊢
    rw [hd]
    split at h
    next => exact h.imp (fun hr => hsub hr) id
    next hpc => exact absurd hpc (hno _ _)
    next hpc => exact absurd hpc (hno _ _)
    all_goals exact h

/-- **A dead ring is served**: the round that starts at a sync drains it for the last time. -/
theorem dead_served (hseg : cfg.segmented = false) (due r : Nat) :
    Behaviour.Ranked (system cfg) .drain (fun s => roundRank s.drain)
      (fun s => Awaited due r s ∧ (s.rings r).live = false) (fun s => Doomed due r s)
      (fun s => due ≤ done s r) where
  enabled s hI hd _ := by
    refine drain_enabled (fun hstop => ?_) fun todo hm => ?_
    · unfold Doomed at hd
      simp only [hstop] at hd
    · rw [hI.1.alive] at hm
      cases hm
  lowers s s' hI hI' hd hno hstep := by
    have hm : DrainMove cfg s s' := drainStep_move hstep
    have htop : s.drain.pc ≠ .top := by
      intro htop
      unfold Doomed at hd
      simp only [htop] at hd
    right
    exact ⟨drain_doomed hseg hI.1 hI.2 hm (Nat.lt_of_not_le hno) hd,
      drain_rank hI.1.drop.entry hm htop⟩
  others s c s' _ _ hd _ hc hstep := by
    obtain ⟨hframe, -⟩ := step_drain_frame hc hstep
    right
    refine ⟨doomed_still hframe ((step_listed hc hstep).imp And.left id) hd, ?_⟩
    rw [hframe]

/-! ## The guarantee -/

/-- A ring that died stays dead. -/
theorem dead_stays (hp : PlainInv s) {a : Action} (hstep : step cfg s a = some s') {r : Nat}
    (hr : r ∈ s.registered) (hd : (s.rings r).live = false) : (s'.rings r).live = false := by
  refine Bool.eq_false_iff.mpr fun hl => ?_
  have hlive := (step_grows hp hstep hr).live hl
  rw [hd] at hlive
  cases hlive

section Behaviours

variable {b : Behaviour (system cfg)}

/-- What holds at every time of a behaviour without an overlooked exit. -/
theorem behaviour_held (hpol : cfg.policy ≠ .nanoLog) (hseg : cfg.segmented = false)
    (hinit : b.state 0 = Sys.init cfg) (hobeys : b.Obeys Attended) (n : ℕ) :
    HeldRun (b.state n) ∧ DropOrder (b.state n) := by
  have hruns := Behaviour.runs hobeys (Nat.zero_le n)
  rw [hinit] at hruns
  exact ⟨runs_held hpol hseg hruns, behaviour_dropOrder hinit n⟩

/-- **Under a guard that stays, everything is delivered**: what ring `r` holds at time `n` is
with the sink some time later. -/
theorem alive_served (hpol : cfg.policy ≠ .nanoLog) (hseg : cfg.segmented = false)
    (hinit : b.state 0 = Sys.init cfg) (hobeys : b.Obeys Attended) (hdrain : b.WeaklyFair .drain)
    {n r : ℕ} (halive : ∀ k, n ≤ k → (b.state k).guard = .alive)
    (hr : r ∈ (b.state n).registered) :
    ∃ k, n ≤ k ∧ ((b.state n).rings r).head ≤ done (b.state k) r := by
  have hinv := behaviour_held hpol hseg hinit hobeys
  -- the ring stays registered and its records stay
  have howed : ∀ k, n ≤ k → Awaited ((b.state n).rings r).head r (b.state k) := by
    intro k hnk
    refine Behaviour.stays (P := Awaited ((b.state n).rings r).head r) ?_ ?_ hnk
    · exact ⟨(hinv n).1.1, (hinv n).1.2 (halive n (Nat.le_refl n)), (hinv n).2,
        halive n (Nat.le_refl n), hr, Nat.le_refl _⟩
    · intro j a hj hact h
      have hj' := Nat.le_succ_of_le hj
      have hstep : step cfg (b.state j) a = some (b.state (j + 1)) := b.moves j a hact
      have hg := step_grows h.run.plain.1.1 hstep h.known
      exact ⟨(hinv _).1.1, (hinv _).1.2 (halive _ hj'), (hinv _).2, halive _ hj',
        step_registered hstep h.known, Nat.le_trans h.head hg.cells.length_le⟩
  have hsync : ∀ m, n ≤ m → ∃ l, m ≤ l ∧ (b.state l).drain.pc = .lock := by
    intro m hm
    refine drain_syncs.reaches hdrain (fun k hk => ?_) trivial
    exact ⟨(hinv k).2, halive k (Nat.le_trans hm hk)⟩
  by_cases hdead : ∃ m, n ≤ m ∧ ((b.state m).rings r).live = false
  · obtain ⟨m, hnm, hm⟩ := hdead
    have hstays : ∀ k, m ≤ k → ((b.state k).rings r).live = false := by
      intro k hmk
      refine Behaviour.stays (P := fun s : Sys => (s.rings r).live = false) hm ?_ hmk
      intro j a hj hact hd
      have hj' := howed j (Nat.le_trans hnm hj)
      exact dead_stays hj'.run.plain.1.1 (b.moves j a hact) hj'.known hd
    obtain ⟨l, hml, hlock⟩ := hsync m hnm
    have hl := howed l (Nat.le_trans hnm hml)
    by_cases hdone : ((b.state n).rings r).head ≤ done (b.state l) r
    · exact ⟨l, Nat.le_trans hnm hml, hdone⟩
    · -- at the sync the ring is in the registry or in the local list
      have hcust := hl.held.dead r hl.known (hstays l hml)
        (Nat.lt_of_lt_of_le (Nat.lt_of_not_le hdone) hl.head)
      have hdoomed : Doomed ((b.state n).rings r).head r (b.state l) := by
        unfold InCustody at hcust
        unfold Doomed
        simp only [hlock] at hcust ⊢
        exact hcust
      obtain ⟨k, hlk, hk⟩ := (dead_served hseg _ r).reaches hdrain
        (fun k hk => ⟨howed k (Nat.le_trans hnm (Nat.le_trans hml hk)),
          hstays k (Nat.le_trans hml hk)⟩) hdoomed
      exact ⟨k, Nat.le_trans hnm (Nat.le_trans hml hlk), hk⟩
  · have hlive : ∀ k, n ≤ k → ((b.state k).rings r).live = true := by
      intro k hk
      by_contra hl
      exact hdead ⟨k, hk, Bool.eq_false_iff.mpr hl⟩
    obtain ⟨l, hnl, hlock⟩ := hsync n (Nat.le_refl n)
    have hup : Upcoming ((b.state n).rings r).head r (b.state l).drain := by
      unfold Upcoming
      rw [hlock]
      trivial
    obtain ⟨k, hlk, hk⟩ := (live_served hseg _ r).reaches hdrain
      (fun k hk => ⟨howed k (Nat.le_trans hnl hk), hlive k (Nat.le_trans hnl hk)⟩) hup
    exact ⟨k, Nat.le_trans hnl hlk, hk⟩

/-- With its ring's records up to it handed over, a record is with the sink. -/
theorem delivered_of_done {x : Rec} {s₀ : Sys} (h₀ : DeliveryInv s₀) (h : DeliveryInv s)
    (hx : x ∈ s₀.published) (hcells : (s₀.rings x.ring).cells <+: (s.rings x.ring).cells)
    (hdone : (s₀.rings x.ring).head ≤ done s x.ring) : x ∈ s.delivered := by
  have hin : x ∈ (s₀.rings x.ring).cells := by
    rw [← (h₀ x.ring).history]
    exact List.mem_filter.mpr ⟨hx, by simp⟩
  have hall : (s₀.rings x.ring).cells <+: s.deliveredFrom x.ring :=
    List.prefix_of_prefix_length_le hcells (h x.ring).inOrder hdone
  exact (List.mem_filter.mp (hall.subset hin)).1

/-- The sink keeps what it was handed. -/
theorem delivered_stays {x : Rec} {n k : ℕ} (hnk : n ≤ k) (hx : x ∈ (b.state n).delivered) :
    x ∈ (b.state k).delivered := by
  refine Behaviour.stays (P := fun s : Sys => x ∈ s.delivered) hx ?_ hnk
  intro j a _ hact hd
  exact (delivered_mono (b.moves j a hact)).subset hd

/-- **No record waits for ever.** Under `Drop` and `Block`, with a fair drain and a fair guard
and no exit in the window of `sync_rings` (`Attended`): what is published while the guard is
alive is with the sink some time later, and from then on exactly once, whether the guard is
ever dropped or not. -/
theorem published_delivered (hpol : cfg.policy = .drop ∨ cfg.policy = .block)
    (hinit : b.state 0 = Sys.init cfg) (hobeys : b.Obeys Attended) (hdrain : b.WeaklyFair .drain)
    (hguard : b.WeaklyFair .guard) {n : ℕ} (halive : (b.state n).guard = .alive) {x : Rec}
    (hx : x ∈ (b.state n).published) :
    ∃ k, n ≤ k ∧ ∀ j, k ≤ j → (b.state j).delivered.count x = 1 := by
  have hne : cfg.policy ≠ .nanoLog := by rcases hpol with hpol | hpol <;> simp [hpol]
  have hseg : cfg.segmented = false := by
    rcases hpol with hpol | hpol <;> simp [Config.segmented, hpol]
  have hinv := behaviour_held hne hseg hinit hobeys
  suffices hsome : ∃ k, n ≤ k ∧ x ∈ (b.state k).delivered by
    obtain ⟨k, hnk, hk⟩ := hsome
    refine ⟨k, hnk, fun j hj => ?_⟩
    have hmem := delivered_stays hj hk
    have hrun := (hinv j).1.1
    refine Nat.le_antisymm ?_ (List.count_pos_iff.mpr hmem)
    have hcount := count_ring (hrun.plain.2 x.ring) (x := x) rfl
    have honce := List.nodup_iff_count_le_one.mp hrun.numbered.nodup x
    omega
  have hcells : ∀ k, n ≤ k →
      ((b.state n).rings x.ring).cells <+: ((b.state k).rings x.ring).cells := by
    intro k hk
    exact (runs_owed hne hseg (hinv n).1 halive (Behaviour.runs hobeys hk)).2 x.ring
  by_cases hstays : ∀ k, n ≤ k → (b.state k).guard = .alive
  · have hr := ((hinv n).1.1.authored x hx).1
    obtain ⟨k, hnk, hk⟩ := alive_served hne hseg hinit hobeys hdrain hstays hr
    exact ⟨k, hnk, delivered_of_done (hinv n).1.1.plain.2 (hinv k).1.1.plain.2 hx
      (hcells k hnk) hk⟩
  · -- the guard drops: the final round delivers what is left
    push Not at hstays
    obtain ⟨m, hnm, hm⟩ := hstays
    obtain ⟨k, hmk, hstop⟩ := drain_exits hinit hdrain hguard hm
    have hnk := Nat.le_trans hnm hmk
    have howed := (runs_owed hne hseg (hinv n).1 halive (Behaviour.runs hobeys hnk)).1
    exact ⟨k, hnk, delivered_of_done (hinv n).1.1.plain.2 (hinv k).1.1.plain.2 hx
      (hcells k hnk) (howed.paid hstop x.ring)⟩

end Behaviours

/-- The record logged at time 7 is there at the end. -/
theorem published_delivered_firstDrop :
    ∃ b : Behaviour (system (smallConfig .drop)),
      b.state 0 = Sys.init (smallConfig .drop) ∧ b.Obeys Attended ∧ b.WeaklyFair .drain ∧
        b.WeaklyFair .guard ∧ (b.state 7).guard = .alive ∧
        (b.state 7).published = [⟨0, 0, 0, 64⟩] ∧
        ∃ k, 7 ≤ k ∧ ∀ j, k ≤ j → (b.state j).delivered.count ⟨0, 0, 0, 64⟩ = 1 := by
  have hend : ((system (smallConfig .drop)).runWhile Attended (Sys.init (smallConfig .drop))
      firstDrop).map (fun s => (((system (smallConfig .drop)).step s .drain).isNone,
        ((system (smallConfig .drop)).step s .guard).isNone)) = some (true, true) := by
    decide +kernel
  obtain ⟨s, hs, hend⟩ := Option.map_eq_some_iff.mp hend
  simp only [Prod.mk.injEq, Option.isNone_iff_eq_none] at hend
  have hrun := Machine.runWhile_run hs
  have hobeys := Behaviour.ofRun_obeys hs
  have hdrain := Behaviour.ofRun_fair hrun hend.1
  have hguard := Behaviour.ofRun_fair hrun hend.2
  have hstart : (Behaviour.ofRun _ hrun).state 0 = Sys.init (smallConfig .drop) :=
    Behaviour.statesOf_zero _ _
  have hat : (((Behaviour.ofRun _ hrun).state 7).guard,
      ((Behaviour.ofRun _ hrun).state 7).published) = (.alive, [⟨0, 0, 0, 64⟩]) := by
    show ((Behaviour.statesOf (system (smallConfig .drop)) (Sys.init (smallConfig .drop))
      firstDrop 7).guard, (Behaviour.statesOf (system (smallConfig .drop))
      (Sys.init (smallConfig .drop)) firstDrop 7).published) = _
    decide +kernel
  rw [Prod.mk.injEq] at hat
  refine ⟨_, hstart, hobeys, hdrain, hguard, hat.1, hat.2, ?_⟩
  refine published_delivered (Or.inl rfl) hstart hobeys hdrain hguard hat.1 ?_
  rw [hat.2]
  exact List.mem_singleton.mpr rfl

end Sys

end Ticklog
