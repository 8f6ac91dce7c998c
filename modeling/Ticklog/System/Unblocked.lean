import Ticklog.Ring.Block
import Ticklog.System.Served

/-!
# A blocked log call comes back (`reserve_with_policy` in `src/ring.rs`, `Block`)

Under `Block` a thread with a full ring loads `live`, tries again, and so on. While it
does, nothing is published in its ring, so the drain catches up with it, and from then on
the capacity check fails only for a record that would not fit an empty ring there
(`Geometry.FitsAt`). If the guard drops first, it finds the ring in the registry and marks
it dead. Either way the call returns.
-/

namespace Ticklog

open Lib

namespace Sys

variable {cfg : Config} {s s' : Sys} {t r total seq : ℕ} {cells : List Rec}

/-! ## A thread that tries -/

/-- Thread `t` is inside the call that tries to reserve `total` bytes in ring `r`, which holds
`cells`. -/
structure Trying (t r total seq : ℕ) (cells : List Rec) (s : Sys) : Prop where
  pc : (s.threads t).pc = .reserve ∨ (s.threads t).pc = .spin ∨ (s.threads t).pc = .publish
  ring : (s.threads t).ring = some r
  total : (s.threads t).total = total
  seq : (s.threads t).seq = seq
  cells : (s.rings r).cells = cells

/-- The call is over: it published, or its ring is dead. -/
def CameBack (t r seq : ℕ) (s : Sys) : Prop :=
  (s.threads t).pc = .idle ∧ ((s.threads t).seq = seq + 1 ∨ (s.rings r).live = false)

/-- Nobody else publishes in the ring. -/
theorem Trying.cells_stay (h : Trying t r total seq cells s) (hp : PlainInv s)
    (hd : DeliveryInv s) (hd' : DeliveryInv s') {a : Action} (hstep : step cfg s a = some s')
    (ha : ¬ (a = .thread t ∧ (s.threads t).pc = .publish)) : (s'.rings r).cells = cells := by
  rw [← (hd' r).history, ← h.cells, ← (hd r).history]
  rcases step_publishes hstep with ⟨t', r', rfl, hpc, hr', rfl⟩ | ⟨hpub, -⟩
  · have hne : r' ≠ r := by
      rintro rfl
      have hmine := (hp.ring_mine h.ring).2
      rw [(hp.ring_mine hr').2] at hmine
      subst hmine
      exact ha ⟨rfl, hpc⟩
    rw [show (publish t' r' s).published
      = s.published ++ [⟨t', (s.threads t').seq, r', (s.threads t').total⟩] from rfl,
      List.filter_append]
    simp [hne]
  · rw [hpub]

/-- The other agents leave the thread where it is. -/
theorem Trying.other (h : Trying t r total seq cells s) (hp : PlainInv s) (hd : DeliveryInv s)
    (hd' : DeliveryInv s') {a : Action} (ha : a ≠ .thread t) (hstep : step cfg s a = some s') :
    Trying t r total seq cells s' ∧ s'.threads t = s.threads t := by
  have hbusy : (s.threads t).pc ≠ .idle ∧ (s.threads t).pc ≠ .asleep := by
    rcases h.pc with hpc | hpc | hpc <;> rw [hpc] <;> exact ⟨nofun, nofun⟩
  have hactor : a.actor ≠ some t := by
    intro hact
    cases a with
    | log t' n =>
      cases hact
      exact hbusy.1 (log_inv hstep).1
    | exit t' =>
      cases hact
      exact hbusy.1 (exit_inv hstep).1
    | wake t' =>
      cases hact
      exact hbusy.2 (wake_inv hstep).1
    | thread t' =>
      cases hact
      exact ha rfl
    | drain | guard => cases hact
  have hth := step_others hactor hbusy.2 hstep
  refine ⟨⟨?_, ?_, ?_, ?_, h.cells_stay hp hd hd' hstep fun hb => ha hb.1⟩, hth⟩
  all_goals rw [hth]
  · exact h.pc
  · exact h.ring
  · exact h.total
  · exact h.seq

/-- What the thread's own access does under `Block`. -/
theorem Trying.own (hpol : cfg.policy = .block) (h : Trying t r total seq cells s)
    (hstep : step cfg s (.thread t) = some s') :
    CameBack t r seq s' ∧ ((s.threads t).pc = .publish ∨ (s.rings r).live = false) ∨
      ((s.threads t).pc = .reserve ∧
          (s.rings r).hasRoom cfg.geometry total = true ∧ s' = s.goto t .publish) ∨
      ((s.threads t).pc = .reserve ∧
          (s.rings r).hasRoom cfg.geometry total = false ∧ s' = s.goto t .spin) ∨
      ((s.threads t).pc = .spin ∧ (s.rings r).live = true ∧ s' = s.goto t .reserve) := by
  have hm : ThreadMove cfg t s s' := threadStep_move hstep
  have hring : ∀ {r' : ℕ}, (s.threads t).ring = some r' → r' = r := by
    intro r' hr'
    rw [h.ring] at hr'
    exact (Option.some.inj hr').symm
  have hin := h.pc
  cases hm with
  | granted hpc hr hroom =>
    rw [hring hr, h.total] at hroom
    exact Or.inr (Or.inl ⟨hpc, hroom, rfl⟩)
  | full hpc hr hroom hnext =>
    rw [hring hr, h.total] at hroom
    rcases hnext with ⟨hp, -⟩ | ⟨-, rfl⟩ | ⟨hs, -⟩
    · rw [hpol] at hp
      cases hp
    · exact Or.inr (Or.inr (Or.inl ⟨hpc, hroom, rfl⟩))
    · simp [Config.segmented, hpol] at hs
  | @spin r' hpc hr =>
    have hr' := hring hr
    subst hr'
    cases hl : (s.rings r').live with
    | true => exact Or.inr (Or.inr (Or.inr ⟨hpc, rfl, by simp⟩))
    | false =>
      refine Or.inl ⟨⟨?_, Or.inr ?_⟩, Or.inr rfl⟩
      · rw [threads_goto]
        rfl
      · exact hl
  | @publish r' hpc hr =>
    have hth : (publish t r' s).threads t
        = { s.threads t with pc := .idle, seq := (s.threads t).seq + 1 } := threads_self _ _ _
    refine Or.inl ⟨⟨?_, Or.inl ?_⟩, Or.inl hpc⟩
    · rw [hth]
    · rw [hth, h.seq]
  | takeFirst hpc | allocFirst hpc | reset hpc | resetLast hpc | setInfo hpc | register hpc
  | switch hpc | markHandedOff hpc | allocFresh hpc | reserveHelper hpc | formatSpin hpc
  | formatEnter hpc | formatDone hpc | format hpc | pushLines hpc | recycle hpc | poolLive hpc
  | poolWait hpc =>
    rw [hpc] at hin
    rcases hin with hin | hin | hin <;> cases hin
  | takeSpare hpc =>
    rcases hpc with hpc | hpc | hpc
    all_goals
      rw [hpc] at hin
      rcases hin with hin | hin | hin <;> cases hin
  | noSpare hpc =>
    rcases hpc with ⟨hpc, -⟩ | ⟨hpc, -⟩ | ⟨hpc, -⟩
    all_goals
      rw [hpc] at hin
      rcases hin with hin | hin | hin <;> cases hin

/-- Within the call only the position moves. -/
theorem Trying.goto (h : Trying t r total seq cells s) {pc : ThreadPc}
    (hpc : pc = .reserve ∨ pc = .spin ∨ pc = .publish) :
    Trying t r total seq cells (s.goto t pc) := by
  have hth := threads_goto s t pc
  exact ⟨by rw [hth]; exact hpc, by rw [hth]; exact h.ring, by rw [hth]; exact h.total,
    by rw [hth]; exact h.seq, h.cells⟩

/-- The thread is always ready. -/
theorem Trying.enabled (h : Trying t r total seq cells s) :
    ((system cfg).step s (.thread t)).isSome := by
  show (threadStep cfg t s).isSome
  rcases h.pc with hpc | hpc | hpc
  · simp only [threadStep, hpc, h.ring, threadRingStep]
    rfl
  · simp only [threadStep, hpc, h.ring, threadRingStep]
    split <;> rfl
  · simp only [threadStep, hpc, h.ring, threadRingStep]
    rfl

/-! ## A caught-up ring -/

/-- The drain is not between its two loops over ring `r`: it has nothing in hand. -/
def EmptyHanded (pc : LoopPc) (r : ℕ) : Prop :=
  match reading pc r with
  | some (.scan _ _) | some (.storeTail _ _) | some (.storeCache _) => False
  | _ => True

/-- The drain has handed over the whole ring and stored its `tail`. -/
structure CaughtUp (r : ℕ) (s : Sys) : Prop where
  all : (s.rings r).head ≤ done s r
  resting : EmptyHanded s.drain.pc r

theorem emptyHanded_of_none {pc : LoopPc} (h : reading pc r = none) : EmptyHanded pc r := by
  unfold EmptyHanded
  rw [h]
  trivial

/-- Its `tail` is its `head`. -/
theorem CaughtUp.tail_eq (h : CaughtUp r s) (hd : DeliveryInv s) :
    (s.rings r).tail = (s.rings r).head := by
  have hdone : done s r = (s.rings r).head := Nat.le_antisymm (hd r).done_le h.all
  have hread := (hd r).reader
  have hrest := h.resting
  unfold EmptyHanded at hrest
  cases hp : reading s.drain.pc r with
  | none =>
    rw [hp] at hread
    exact hread.1.trans hdone
  | some p =>
    rw [hp] at hread hrest
    cases p with
    | loadTail => exact hread.1.trans hdone
    | loadCache n => exact hread.2.1.trans hdone
    | loadHead n => exact hread.2.1.trans hdone
    | finished => exact hread.1.trans hdone
    | scan | storeTail | storeCache => exact hrest.elim

/-- The capacity check of a ring whose records are all behind `tail` is that of an empty
one. -/
theorem hasRoom_empty {g : Geometry} {ring : Ring} (htail : ring.tail = ring.head)
    (hword : bytePos g ring.cells 0 < wordSize) (htotal : total ≤ maxRecordSize)
    (hfits : g.aligned total < g.capacity ∧ g.FitsAt (bytePos g ring.cells 0) total) :
    ring.hasRoom g total = true := by
  have htake : ring.storage.take ring.tail = ring.cells := by
    rw [htail, Ring.storage_take (Nat.le_refl _)]
    exact List.take_length
  unfold Ring.hasRoom
  dsimp only
  rw [htake, g.fits_iff (Nat.le_refl _) hword (Nat.le_add_right _ _) (g.needed_lt htotal)]
  have hneed := (Spsc.needed_le_mask _ _).mpr hfits
  omega

/-- The drain takes nothing in hand while nothing is published in the ring. -/
theorem drain_emptyHanded (hd : DeliveryInv s) (h : CaughtUp r s) (hm : DrainMove cfg s s') :
    EmptyHanded s'.drain.pc r := by
  have hnone : ∀ {pc : LoopPc}, inside pc = false → EmptyHanded pc r :=
    fun hi => emptyHanded_of_none (reading_of_not_inside hi r)
  have hscan : ∀ {s₁ : Sys}, syncing s₁.drain.pc = true → EmptyHanded s₁.drain.pc r := by
    intro s₁ hs
    refine hnone ?_
    cases hpc : s₁.drain.pc <;> first | rfl | (rw [hpc] at hs; cases hs)
  cases hm with
  | @mark ctx r₀ hpc =>
    by_cases hr : r₀ = r
    · subst hr
      unfold EmptyHanded
      simp only [drainTo_drain, reading_pass]
    · exact emptyHanded_of_none (reading_pass_ne hr)
  | @pass ctx r₀ p p' ring' x hpc hp hstep =>
    by_cases hr : r₀ = r
    · subst hr
      have hdone : done s r₀ = (s.rings r₀).head := Nat.le_antisymm (hd r₀).done_le h.all
      have hread := (hd r₀).reader
      have hrest := h.resting
      unfold EmptyHanded at hrest ⊢
      rw [hpc, reading_pass] at hread hrest
      simp only [drainTo_drain, reading_pass]
      cases p with
      | loadTail =>
        cases hstep
        trivial
      | loadCache n =>
        obtain ⟨rfl, ht, hc⟩ := hread
        simp only [Pass.step, hc, if_true] at hstep
        cases hstep
        trivial
      | loadHead n =>
        obtain ⟨rfl, ht, hc⟩ := hread
        simp only [Pass.step, hdone, if_true] at hstep
        cases hstep
        trivial
      | finished => exact absurd rfl hp
      | scan | storeTail | storeCache => exact hrest.elim
    · exact emptyHanded_of_none (reading_pass_ne hr)
  | syncNext hpc hsub => exact hscan (syncNext_syncing _)
  | syncLive hpc hsub hl => exact hscan (syncDecide_syncing hpc)
  | syncDead hpc hsub => exact hscan (syncDecide_syncing hpc)
  | enter hpc hsh hnext => rcases hnext with rfl | ⟨-, rfl⟩ <;> exact hnone rfl
  | pollDone hpc he hnext => rcases hnext with ⟨-, rfl⟩ | ⟨-, rfl⟩ <;> exact hnone rfl
  | @clear ctx r₀ hpc =>
    refine hnone ?_
    cases ctx with
    | final =>
      dsimp only [drainTo_drain, afterPass]
      split <;> rfl
    | poll i k => rfl
  | retired hpc hl hk hr =>
    refine hnone ?_
    dsimp only
    split <;> rfl
  | @notRecycled ctx r₀ hpc hr => cases ctx <;> exact hnone rfl
  | @recycle ctx r₀ hpc => cases ctx <;> exact hnone rfl
  | leave | lock | syncHalf | finalRing | finalDone | entry | stale | skip | unreserved | passDone
  | keepEntry | handedOff | notReserved | sameSerial | loadHead | drained | markRecycled
  | takeLines | deliver | delivered | lastPoll | worked | idleDirty | idleClean | lastFlush
  | flush | again => exact hnone rfl

theorem CaughtUp.step (h : CaughtUp r s) (hd : DeliveryInv s) {a : Action}
    (hstep : Sys.step cfg s a = some s') (hcells : (s'.rings r).cells = (s.rings r).cells) :
    CaughtUp r s' := by
  refine ⟨?_, ?_⟩
  · have hhead : (s'.rings r).head = (s.rings r).head := congrArg List.length hcells
    rw [hhead]
    exact Nat.le_trans h.all (done_mono hstep r)
  · by_cases ha : a = .drain
    · subst ha
      exact drain_emptyHanded hd h (drainStep_move hstep)
    · rw [(step_drain_frame ha hstep).1]
      exact h.resting

/-! ## The call comes back -/

/-- The accesses left when the check succeeds. -/
def roomRank (t : ℕ) (s : Sys) : ℕ :=
  match (s.threads t).pc with
  | .spin => 2
  | .reserve => 1
  | _ => 0

/-- The accesses left when the ring is dead. -/
def deadRank (t : ℕ) (s : Sys) : ℕ :=
  match (s.threads t).pc with
  | .reserve => 1
  | _ => 0

/-- What a time of the behaviour carries while the thread tries. -/
def TryingRun (s : Sys) : Prop := PlainInv s ∧ DeliveryInv s

/-- With room in the ring the call comes back. -/
theorem room_cameBack (hpol : cfg.policy = .block) :
    Behaviour.Ranked (system cfg) (.thread t) (roomRank t)
      (fun s => TryingRun s ∧ (Trying t r total seq cells s →
        (s.rings r).hasRoom cfg.geometry total = true))
      (Trying t r total seq cells) (CameBack t r seq) where
  enabled s _ h _ := h.enabled
  lowers s s' hI _ h _ hstep := by
    rcases h.own hpol hstep with hback | ⟨hpc, -, rfl⟩ | ⟨-, hroom, -⟩ | ⟨hpc, -, rfl⟩
    · exact Or.inl hback.1
    · refine Or.inr ⟨h.goto (Or.inr (Or.inr rfl)), ?_⟩
      simp only [roomRank, threads_goto, hpc]
      omega
    · rw [hI.2 h] at hroom
      cases hroom
    · refine Or.inr ⟨h.goto (Or.inl rfl), ?_⟩
      simp only [roomRank, threads_goto, hpc]
      omega
  others s c s' hI hI' h _ hc hstep := by
    obtain ⟨h', hth⟩ := h.other hI.1.1 hI.1.2 hI'.1.2 hc hstep
    refine Or.inr ⟨h', ?_⟩
    unfold roomRank
    rw [hth]

/-- With a dead ring the call comes back. -/
theorem dead_cameBack (hpol : cfg.policy = .block) :
    Behaviour.Ranked (system cfg) (.thread t) (deadRank t)
      (fun s => TryingRun s ∧ (s.rings r).live = false)
      (Trying t r total seq cells) (CameBack t r seq) where
  enabled s _ h _ := h.enabled
  lowers s s' hI _ h _ hstep := by
    rcases h.own hpol hstep with hback | ⟨hpc, -, rfl⟩ | ⟨hpc, -, rfl⟩ | ⟨-, hlive, -⟩
    · exact Or.inl hback.1
    · refine Or.inr ⟨h.goto (Or.inr (Or.inr rfl)), ?_⟩
      simp only [deadRank, threads_goto, hpc]
      omega
    · refine Or.inr ⟨h.goto (Or.inr (Or.inl rfl)), ?_⟩
      simp only [deadRank, threads_goto, hpc]
      omega
    · rw [hI.2] at hlive
      cases hlive
  others s c s' hI hI' h _ hc hstep := by
    obtain ⟨h', hth⟩ := h.other hI.1.1 hI.1.2 hI'.1.2 hc hstep
    refine Or.inr ⟨h', ?_⟩
    unfold deadRank
    rw [hth]

section Behaviours

variable {b : Behaviour (system cfg)}

/-- While it does not come back, the thread tries. -/
theorem trying_stays (hpol : cfg.policy = .block) (hinv : ∀ k, TryingRun (b.state k)) {n : ℕ}
    (h : Trying t r total seq cells (b.state n))
    (hno : ∀ k, n ≤ k → ¬ CameBack t r seq (b.state k)) {k : ℕ} (hnk : n ≤ k) :
    Trying t r total seq cells (b.state k) := by
  refine Behaviour.stays (P := Trying t r total seq cells) h ?_ hnk
  intro j a hj hact htry
  have hstep : step cfg (b.state j) a = some (b.state (j + 1)) := b.moves j a hact
  by_cases ha : a = .thread t
  · subst ha
    rcases htry.own hpol hstep with hback | ⟨-, -, heq⟩ | ⟨-, -, heq⟩ | ⟨-, -, heq⟩
    · exact absurd hback.1 (hno _ (Nat.le_succ_of_le hj))
    · rw [heq]
      exact htry.goto (Or.inr (Or.inr rfl))
    · rw [heq]
      exact htry.goto (Or.inr (Or.inl rfl))
    · rw [heq]
      exact htry.goto (Or.inl rfl)
  · exact (htry.other (hinv j).1 (hinv j).2 (hinv (j + 1)).2 ha hstep).1

/-- A call on the thread's own ring begins. -/
theorem log_trying (hstep : step cfg s (.log t total) = some s')
    (hring : (s.threads t).ring = some r) :
    total ≤ maxRecordSize ∧ Trying t r total (s.threads t).seq (s.rings r).cells s' := by
  have hst : log t total s = some s' := hstep
  simp only [log, hring] at hst
  split at hst
  next hcall =>
    cases hst
    refine ⟨hcall.2.2, ?_, ?_, ?_, ?_, rfl⟩
    all_goals rw [threads_self]
    exact Or.inl rfl
  next => cases hst

/-- Under a guard that stays, the drain catches up with a ring nothing is published in. -/
theorem catches_up (hne : cfg.policy ≠ .nanoLog) (hseg : cfg.segmented = false)
    (hinit : b.state 0 = Sys.init cfg) (hobeys : b.Obeys Attended) (hdrain : b.WeaklyFair .drain)
    {n : ℕ} (halive : ∀ k, n ≤ k → (b.state k).guard = .alive)
    (hr : r ∈ (b.state n).registered)
    (hcells : ∀ k, n ≤ k → ((b.state k).rings r).cells = cells) :
    ∃ m, n ≤ m ∧ ∀ k, m ≤ k → CaughtUp r (b.state k) := by
  have hinv := behaviour_held hne hseg hinit hobeys
  obtain ⟨l, hnl, hdone⟩ := alive_served hne hseg hinit hobeys hdrain halive hr
  obtain ⟨m, hlm, hlock⟩ := drain_syncs.reaches hdrain
    (fun k hk => ⟨(hinv k).2, halive k (Nat.le_trans hnl hk)⟩) (n := l) trivial
  have hnm := Nat.le_trans hnl hlm
  refine ⟨m, hnm, fun k hk => ?_⟩
  refine Behaviour.stays (P := CaughtUp r) ?_ ?_ hk
  · refine ⟨?_, emptyHanded_of_none (by rw [hlock]; rfl)⟩
    have hmono : done (b.state l) r ≤ done (b.state m) r := by
      refine Behaviour.stays (P := fun s => done (b.state l) r ≤ done s r) (Nat.le_refl _) ?_ hlm
      intro j a _ hact hle
      exact Nat.le_trans hle (done_mono (b.moves j a hact) r)
    unfold Ring.head at hdone ⊢
    rw [hcells m hnm]
    rw [hcells n (Nat.le_refl n)] at hdone
    exact Nat.le_trans hdone hmono
  · intro j a hj hact h
    have hnj := Nat.le_trans hnm hj
    refine h.step (hinv j).1.1.plain.2 (b.moves j a hact) ?_
    rw [hcells j hnj, hcells (j + 1) (Nat.le_succ_of_le hnj)]

/-- The guard marks a ring that holds something. -/
theorem guard_marks (hne : cfg.policy ≠ .nanoLog) (hseg : cfg.segmented = false)
    (hinit : b.state 0 = Sys.init cfg) (hobeys : b.Obeys Attended) (hguard : b.WeaklyFair .guard)
    {n m : ℕ} (halive : (b.state n).guard = .alive) (hnm : n ≤ m)
    (hm : (b.state m).guard ≠ .alive) (hpos : 0 < ((b.state n).rings r).head) :
    ∃ j, n ≤ j ∧ ∀ k, j ≤ k → ((b.state k).rings r).live = false := by
  have hinv := behaviour_held hne hseg hinit hobeys
  obtain ⟨j, hmj, hj⟩ := drop_joins.leadsTo hguard (fun _ => trivial) m hm
  have hnj := Nat.le_trans hnm hmj
  have howed : ∀ k, n ≤ k → OwedRun (fun r => ((b.state n).rings r).head) (b.state k) :=
    fun k hk => (runs_owed hne hseg (hinv n).1 halive (Behaviour.runs hobeys hk)).1
  refine ⟨j, hnj, fun k hk => ?_⟩
  refine Behaviour.stays (P := fun s : Sys => (s.rings r).live = false) ?_ ?_ hk
  · refine Bool.eq_false_iff.mpr fun hl => ?_
    have hmark := (howed j hnj).marked r hpos hl
    rcases hj with hj | hj <;> simp only [hj] at hmark
  · intro i a hi hact hd
    have hni := Nat.le_trans hnj hi
    exact dead_stays (hinv i).1.1.plain.1.1 (b.moves i a hact) ((howed i hni).known r hpos) hd

/-- **A blocked log call comes back.** Under `Block`, with fair agents and no exit in the window
of `sync_rings`: a call on the thread's ring, begun while the guard is alive, ends, and has
published its record unless the ring died. All it takes is a record that fits an empty ring
at the ring's position. -/
theorem block_call_returns (hpol : cfg.policy = .block) (hinit : b.state 0 = Sys.init cfg)
    (hobeys : b.Obeys Attended) (hdrain : b.WeaklyFair .drain) (hguard : b.WeaklyFair .guard)
    (hthread : b.WeaklyFair (.thread t)) {n : ℕ} (halive : (b.state n).guard = .alive)
    (hlog : b.act n = some (.log t total)) (hring : ((b.state n).threads t).ring = some r)
    (hword : bytePos cfg.geometry ((b.state n).rings r).cells 0 < wordSize)
    (hfits : cfg.geometry.aligned total < cfg.geometry.capacity ∧
      cfg.geometry.FitsAt (bytePos cfg.geometry ((b.state n).rings r).cells 0) total) :
    ∃ k, n < k ∧ ((b.state k).threads t).pc = .idle ∧
      (((b.state k).threads t).seq = ((b.state n).threads t).seq + 1 ∨
        ((b.state k).rings r).live = false) := by
  have hne : cfg.policy ≠ .nanoLog := by
    rw [hpol]
    nofun
  have hseg : cfg.segmented = false := by simp [Config.segmented, hpol]
  have hinv := behaviour_held hne hseg hinit hobeys
  have htrying : ∀ k, TryingRun (b.state k) := fun k =>
    ⟨(hinv k).1.1.plain.1.1, (hinv k).1.1.plain.2⟩
  have hstep : step cfg (b.state n) (.log t total) = some (b.state (n + 1)) := b.moves n _ hlog
  obtain ⟨htotal, hbegin⟩ := log_trying hstep hring
  by_contra hno
  have hnever : ∀ k, n + 1 ≤ k → ¬ CameBack t r ((b.state n).threads t).seq (b.state k) :=
    fun k hk hback => hno ⟨k, hk, hback⟩
  have htry : ∀ k, n + 1 ≤ k → Trying t r total ((b.state n).threads t).seq
      ((b.state n).rings r).cells (b.state k) :=
    fun k hk => trying_stays hpol htrying hbegin hnever hk
  -- with room from some time on, the call would come back
  have hroom : ∀ m, n + 1 ≤ m → (∀ k, m ≤ k →
      ((b.state k).rings r).tail = ((b.state k).rings r).head) → False := by
    intro m hm htail
    have hgrant : ∀ k, m ≤ k → TryingRun (b.state k) ∧ (Trying t r total
        ((b.state n).threads t).seq ((b.state n).rings r).cells (b.state k) →
          ((b.state k).rings r).hasRoom cfg.geometry total = true) := by
      intro k hk
      refine ⟨htrying k, fun h => hasRoom_empty (htail k hk) ?_ htotal ?_⟩
      all_goals rw [h.cells]
      · exact hword
      · exact hfits
    obtain ⟨k, hmk, hback⟩ := (room_cameBack hpol).reaches hthread hgrant (htry m hm)
    exact hnever k (Nat.le_trans hm hmk) hback
  by_cases hstays : ∀ k, n + 1 ≤ k → (b.state k).guard = .alive
  · have hr : r ∈ (b.state (n + 1)).registered :=
      ((htrying _).1.ring_mine (htry _ (Nat.le_refl _)).ring).1
    obtain ⟨m, hm, hcaught⟩ := catches_up hne hseg hinit hobeys hdrain hstays hr
      (fun k hk => (htry k hk).cells)
    exact hroom m hm fun k hk => (hcaught k hk).tail_eq (htrying k).2
  · push Not at hstays
    obtain ⟨m, hnm, hm⟩ := hstays
    rcases Nat.eq_zero_or_pos ((b.state n).rings r).head with hz | hpos
    · -- an empty ring has room from the start
      refine hroom (n + 1) (Nat.le_refl _) fun k hk => ?_
      have hle := Nat.le_trans ((htrying k).2 r).behind ((htrying k).2 r).done_le
      have hnone : ((b.state k).rings r).head = 0 := by
        unfold Ring.head at hz ⊢
        rw [(htry k hk).cells, hz]
      omega
    · obtain ⟨j, hnj, hdead⟩ := guard_marks hne hseg hinit hobeys hguard halive
        (Nat.le_of_succ_le hnm) hm hpos
      obtain ⟨k, hjk, hback⟩ := (dead_cameBack hpol).reaches hthread (n := j + 1)
        (fun k hk => ⟨htrying k, hdead k (Nat.le_of_succ_le hk)⟩)
        (htry (j + 1) (Nat.succ_le_succ hnj))
      exact hnever k (Nat.le_trans (Nat.succ_le_succ hnj) hjk) hback

end Behaviours

/-- A record that fills the ring, then one that has to wait for the drain's first round. -/
def secondLog : List Action :=
  firstLog 0 64 ++ [.log 0 64, .thread 0] ++ List.replicate 30 .drain ++
    List.replicate 3 (.thread 0) ++ List.replicate 4 .guard ++ List.replicate 40 .drain ++ [.guard]

theorem block_call_returns_secondLog :
    ∃ b : Behaviour (system (smallConfig .block)),
      b.state 0 = Sys.init (smallConfig .block) ∧ b.Obeys Attended ∧ b.WeaklyFair .drain ∧
        b.WeaklyFair .guard ∧ b.WeaklyFair (.thread 0) ∧ b.act 7 = some (.log 0 64) ∧
        ∃ k, 7 < k ∧ ((b.state k).threads 0).pc = .idle ∧
          (((b.state k).threads 0).seq = ((b.state 7).threads 0).seq + 1 ∨
            ((b.state k).rings 0).live = false) := by
  have hend : ((system (smallConfig .block)).runWhile Attended (Sys.init (smallConfig .block))
      secondLog).map (fun s => (((system (smallConfig .block)).step s .drain).isNone,
        ((system (smallConfig .block)).step s .guard).isNone,
        ((system (smallConfig .block)).step s (.thread 0)).isNone))
      = some (true, true, true) := by decide +kernel
  obtain ⟨s, hs, hend⟩ := Option.map_eq_some_iff.mp hend
  simp only [Prod.mk.injEq, Option.isNone_iff_eq_none] at hend
  have hrun := Machine.runWhile_run hs
  have hobeys := Behaviour.ofRun_obeys hs
  have hdrain := Behaviour.ofRun_fair hrun hend.1
  have hguard := Behaviour.ofRun_fair hrun hend.2.1
  have hthread := Behaviour.ofRun_fair hrun hend.2.2
  have hstart : (Behaviour.ofRun _ hrun).state 0 = Sys.init (smallConfig .block) :=
    Behaviour.statesOf_zero _ _
  have hat : (fun s₇ : Sys => (s₇.guard, (s₇.threads 0).ring,
      bytePos (smallConfig .block).geometry (s₇.rings 0).cells 0))
      ((Behaviour.ofRun _ hrun).state 7) = (.alive, some 0, 64) := by
    show (fun s₇ : Sys => (s₇.guard, (s₇.threads 0).ring,
      bytePos (smallConfig .block).geometry (s₇.rings 0).cells 0))
      (Behaviour.statesOf (system (smallConfig .block)) (Sys.init (smallConfig .block))
        secondLog 7) = _
    decide +kernel
  simp only [Prod.mk.injEq] at hat
  have hlog : (Behaviour.ofRun _ hrun).act 7 = some (.log 0 64) := rfl
  refine ⟨_, hstart, hobeys, hdrain, hguard, hthread, hlog, ?_⟩
  refine block_call_returns rfl hstart hobeys hdrain hguard hthread hat.1 hlog hat.2.1 ?_ ?_
  · rw [hat.2.2]
    decide
  · rw [hat.2.2]
    exact ⟨by decide, Or.inl (by decide)⟩

end Sys

end Ticklog
