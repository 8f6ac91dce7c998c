import Ticklog.System.Flush

/-!
# `sync_rings` by itself (`src/drain.rs`)

One call of `sync_rings`, from the lock to its return: the accesses of the drain thread with
nothing in between, so `keep` gives one answer for each ring. The scans touch nothing but the
local list and the finalize list (`scanAt`), and each is an induction over the list it walks;
the reconciling scan is carried by `Synced`, the entries behind it being those that stay. What
the final drains do to a ring is not looked at here, only that each comes to its end.
-/

namespace Ticklog

open Lib

namespace Sys

variable {cfg : Config} {s s' t : Sys}

/-! ## The drain alone -/

/-- Accesses of the drain thread one after the other, with the positions they are made at. -/
inductive DrainRun (cfg : Config) : Sys → List LoopPc → Sys → Prop where
  | refl (s : Sys) : DrainRun cfg s [] s
  | step {s s' t : Sys} {pcs : List LoopPc} :
      drainStep cfg s = some s' → DrainRun cfg s' pcs t → DrainRun cfg s (s.drain.pc :: pcs) t

theorem DrainRun.trans {pcs pcs' : List LoopPc} {u : Sys} (h : DrainRun cfg s pcs t)
    (h' : DrainRun cfg t pcs' u) : DrainRun cfg s (pcs ++ pcs') u := by
  induction h with
  | refl => exact h'
  | step hst _ ih => exact .step hst (ih h')

/-- Such a run is a run of the logger. -/
theorem DrainRun.reach {pcs : List LoopPc} (h : DrainRun cfg s pcs t) : (system cfg).Reach s t := by
  induction h with
  | refl => exact .refl _
  | step hst _ ih =>
    exact Machine.Runs.trans (Machine.Runs.single (a := Action.drain) trivial hst) ih

/-- It leaves every ring's liveness, reservation and serial as they are. -/
theorem DrainRun.frame {pcs : List LoopPc} (h : DrainRun cfg s pcs t) (r : Nat) :
    keep t r = keep s r ∧ (t.rings r).serial = (s.rings r).serial := by
  induction h with
  | refl => exact ⟨rfl, rfl⟩
  | step hst _ ih =>
    have hf := drain_ring_frame (drainStep_move hst) r
    refine ⟨ih.1.trans ?_, ih.2.trans hf.serial⟩
    unfold keep
    rw [hf.live, hf.helperReserved]

/-- The rings whose drain starts at the positions. -/
def drainsOf (pcs : List LoopPc) : List Nat :=
  pcs.filterMap fun pc =>
    match pc with
    | .mark _ r => some r
    | _ => none

/-- The rings that go back to the pool at the positions. -/
def recyclesOf (pcs : List LoopPc) : List Nat :=
  pcs.filterMap fun pc =>
    match pc with
    | .recycle _ r => some r
    | _ => none

/-- A stretch of the call: `rs` are the rings it starts a drain of, `qs` those it recycles. -/
def Drains (cfg : Config) (s : Sys) (rs qs : List Nat) (t : Sys) : Prop :=
  ∃ pcs, DrainRun cfg s pcs t ∧ drainsOf pcs = rs ∧ recyclesOf pcs = qs ∧
    ∀ i, LoopPc.entry i ∉ pcs

theorem Drains.trans {u : Sys} {rs qs rs' qs' : List Nat} (h : Drains cfg s rs qs t)
    (h' : Drains cfg t rs' qs' u) : Drains cfg s (rs ++ rs') (qs ++ qs') u := by
  obtain ⟨pcs, hrun, rfl, rfl, hentry⟩ := h
  obtain ⟨pcs', hrun', rfl, rfl, hentry'⟩ := h'
  refine ⟨pcs ++ pcs', hrun.trans hrun', List.filterMap_append, List.filterMap_append, ?_⟩
  intro i hi
  rcases List.mem_append.mp hi with hi | hi
  · exact hentry i hi
  · exact hentry' i hi

theorem Drains.single {pc : LoopPc} (hst : drainStep cfg s = some t) (hpc : s.drain.pc = pc)
    (hentry : ∀ i, pc ≠ .entry i) : Drains cfg s (drainsOf [pc]) (recyclesOf [pc]) t := by
  subst hpc
  refine ⟨[s.drain.pc], .step hst (.refl t), rfl, rfl, ?_⟩
  intro i hi
  exact hentry i (List.mem_singleton.mp hi).symm

/-- A stretch that starts no drain and recycles nothing. -/
def Quietly (cfg : Config) (s t : Sys) : Prop := Drains cfg s [] [] t

theorem Quietly.trans {u : Sys} (h : Quietly cfg s t) (h' : Quietly cfg t u) :
    Quietly cfg s u :=
  Drains.trans h h'

/-- The positions of such a stretch. -/
def quiet : LoopPc → Bool
  | .mark _ _ | .recycle _ _ | .entry _ => false
  | _ => true

theorem Quietly.single (hst : drainStep cfg s = some t) (hpc : quiet s.drain.pc = true) :
    Quietly cfg s t := by
  have hentry : ∀ i, s.drain.pc ≠ .entry i := by
    intro i hi
    rw [hi] at hpc
    cases hpc
  have hone := Drains.single hst rfl hentry
  have hdrains : drainsOf [s.drain.pc] = [] := by
    cases hp : s.drain.pc with
    | mark ctx r => rw [hp] at hpc; cases hpc
    | _ => rfl
  have hrecycles : recyclesOf [s.drain.pc] = [] := by
    cases hp : s.drain.pc with
    | recycle ctx r => rw [hp] at hpc; cases hpc
    | _ => rfl
  rw [hdrains, hrecycles] at hone
  exact hone

/-! ## The scans under the lock -/

/-- The state inside a scan, over the state the call started in. -/
def scanAt (s : Sys) (rings : List (Nat × Nat)) (finalize : List Nat) (phase : SyncPhase)
    (half : Bool) : Sys :=
  { s with drain := { s.drain with
      rings := rings, finalize := finalize, pc := .sync phase half } }

variable (cfg) {l : List (Nat × Nat)} {f : List Nat}

/-- A scan with nothing to evaluate. -/
theorem scan_next {phase : SyncPhase}
    (hsub : syncSubject (scanAt s l f phase false) phase = none) :
    Quietly cfg (scanAt s l f phase false) (syncNext (scanAt s l f phase false) phase) := by
  refine Quietly.single ?_ rfl
  show some (syncStep phase false (scanAt s l f phase false)) = _
  unfold syncStep
  rw [hsub]

/-- A scan at ring `r`: one load if it is live, two if not. -/
theorem scan_decide {phase : SyncPhase} {r : Nat}
    (hsub : syncSubject (scanAt s l f phase false) phase = some r) :
    Quietly cfg (scanAt s l f phase false)
      (syncDecide (keep s r) (scanAt s l f phase false) phase) := by
  have hhalf : syncSubject (scanAt s l f phase true) phase = some r := by
    cases phase <;> exact hsub
  have hsame : ∀ keep, syncDecide keep (scanAt s l f phase true) phase
      = syncDecide keep (scanAt s l f phase false) phase := by
    intro keep
    cases phase with
    | scanRegistry todo =>
      cases todo with
      | nil => cases hsub
      | cons r' rest => rfl
    | scanLocal todo =>
      cases todo with
      | nil => cases hsub
      | cons e rest => rfl
    | reconcile i =>
      cases hi : l[i]? with
      | none =>
        change (l[i]?).bind _ = _ at hsub
        rw [hi] at hsub
        cases hsub
      | some e =>
        dsimp only [syncDecide, scanAt]
        rw [hi]
    | addNew todo =>
      cases todo with
      | nil => cases hsub
      | cons r' rest => rfl
    | retain todo kept =>
      cases todo with
      | nil => cases hsub
      | cons r' rest => rfl
  cases hlive : (s.rings r).live with
  | true =>
    refine Quietly.single ?_ rfl
    show some (syncStep phase false (scanAt s l f phase false)) = _
    unfold syncStep keep
    rw [hsub, hlive]
    show some (if (s.rings r).live = true then _ else _) = _
    rw [if_pos hlive]
    rfl
  | false =>
    have hfirst : Quietly cfg (scanAt s l f phase false) (scanAt s l f phase true) := by
      refine Quietly.single ?_ rfl
      show some (syncStep phase false (scanAt s l f phase false)) = _
      unfold syncStep
      rw [hsub]
      show some (if (s.rings r).live = true then _ else _) = _
      rw [hlive]
      rfl
    refine hfirst.trans (Quietly.single ?_ rfl)
    show some (syncStep phase true (scanAt s l f phase true)) = _
    unfold syncStep keep
    rw [hhalf, hlive, ← hsame]
    rfl

/-- The dead rings of the registry are put on the finalize list. -/
theorem scanRegistry_run (todo : List Nat) (f : List Nat) :
    Quietly cfg (scanAt s l f (.scanRegistry todo) false)
      (scanAt s l (f ++ todo.filter fun r => !keep s r) (.scanLocal l) false) := by
  induction todo generalizing f with
  | nil =>
    rw [List.filter_nil, List.append_nil]
    exact scan_next cfg rfl
  | cons r rest ih =>
    refine (scan_decide cfg (r := r) rfl).trans ?_
    cases hkeep : keep s r with
    | true =>
      rw [List.filter_cons_of_neg (by rw [hkeep]; decide)]
      exact ih f
    | false =>
      rw [List.filter_cons_of_pos (by rw [hkeep]; rfl), List.append_cons]
      exact ih (f ++ [r])

/-- Those of the local list that left the registry follow them. -/
theorem scanLocal_run (todo : List (Nat × Nat)) (f : List Nat) :
    Quietly cfg (scanAt s l f (.scanLocal todo) false)
      (scanAt s l
        (f ++ (todo.map Prod.fst).filter fun r => !keep s r && decide (r ∉ s.registry))
        (.reconcile 0) false) := by
  induction todo generalizing f with
  | nil =>
    rw [List.map_nil, List.filter_nil, List.append_nil]
    exact scan_next cfg rfl
  | cons e rest ih =>
    obtain ⟨r, k⟩ := e
    refine (scan_decide cfg (r := r) rfl).trans ?_
    show Quietly cfg
      (scanAt s l (if ¬ keep s r = true ∧ r ∉ s.registry then f ++ [r] else f)
        (.scanLocal rest) false) _
    rw [List.map_cons]
    by_cases hdrop : ¬ keep s r = true ∧ r ∉ s.registry
    · have hrest := ih (f ++ [r])
      rw [List.append_assoc, List.singleton_append] at hrest
      rw [if_pos hdrop, List.filter_cons_of_pos (by simpa using hdrop)]
      exact hrest
    · rw [if_neg hdrop, List.filter_cons_of_neg (by simpa using hdrop)]
      exact ih f

/-- The entries of a local list that stay: each of a kept ring of the registry, with the ring's
serial. -/
structure Synced (s : Sys) (l : List (Nat × Nat)) : Prop where
  nodup : (l.map Prod.fst).Nodup
  kept : ∀ r k, (r, k) ∈ l → r ∈ s.registry ∧ keep s r = true ∧ k = (s.rings r).serial

/-- One entry more, with its serial refreshed. -/
theorem Synced.refresh {i r k : Nat} (h : Synced s (l.take i)) (he : l[i]? = some (r, k))
    (hnodup : (l.map Prod.fst).Nodup) (hin : r ∈ s.registry) (hkeep : keep s r = true) :
    ((l.set i (r, (s.rings r).serial)).map Prod.fst).Nodup ∧
      Synced s ((l.set i (r, (s.rings r).serial)).take (i + 1)) := by
  obtain ⟨hi, hget⟩ := List.getElem?_eq_some_iff.mp he
  have hset : l.set i (r, (s.rings r).serial)
      = l.take i ++ (r, (s.rings r).serial) :: l.drop (i + 1) := by
    rw [List.set_eq_take_append_cons_drop, if_pos hi]
  have hfst : (l.set i (r, (s.rings r).serial)).map Prod.fst = l.map Prod.fst := by
    have hsplit : l = l.take i ++ (r, k) :: l.drop (i + 1) := by
      rw [← hget, List.getElem_cons_drop, List.take_append_drop]
    rw [hset]
    conv_rhs => rw [hsplit]
    rw [List.map_append, List.map_append]
    rfl
  have htake : (l.set i (r, (s.rings r).serial)).take (i + 1)
      = l.take i ++ [(r, (s.rings r).serial)] := by
    have hlen : (l.take i).length = i := by
      rw [List.length_take]
      omega
    rw [hset, List.take_append, hlen, Nat.add_sub_cancel_left,
      List.take_of_length_le (by omega)]
    rfl
  refine ⟨hfst ▸ hnodup, ?_, ?_⟩
  · rw [List.map_take, hfst]
    exact hnodup.sublist (List.take_sublist _ _)
  · intro r' k' hmem
    rw [htake] at hmem
    rcases List.mem_append.mp hmem with hmem | hmem
    · exact h.kept r' k' hmem
    · obtain ⟨rfl, rfl⟩ := Prod.mk.inj (List.mem_singleton.mp hmem)
      exact ⟨hin, hkeep, rfl⟩

/-- The reconciling scan: with the entries behind it settled, it leaves a settled list. -/
theorem reconcile_run (n : Nat) : ∀ (l : List (Nat × Nat)) (i : Nat), l.length - i = n →
    i ≤ l.length → (l.map Prod.fst).Nodup → Synced s (l.take i) →
    ∃ l', Synced s l' ∧
      Quietly cfg (scanAt s l f (.reconcile i) false)
        (scanAt s l' f (.addNew s.registry) false) := by
  induction n with
  | zero =>
    intro l i hn hle hnodup hset
    have hi : i = l.length := by omega
    subst hi
    rw [List.take_length] at hset
    refine ⟨l, hset, ?_⟩
    have hnone : syncSubject (scanAt s l f (.reconcile l.length) false) (.reconcile l.length)
        = none := by
      show (l[l.length]?).bind _ = none
      rw [List.getElem?_eq_none (Nat.le_refl _)]
      rfl
    have hnext := scan_next cfg hnone
    have hend : syncNext (scanAt s l f (.reconcile l.length) false) (.reconcile l.length)
        = scanAt s l f (.addNew s.registry) false := if_neg (Nat.lt_irrefl _)
    rw [hend] at hnext
    exact hnext
  | succ n ih =>
    intro l i hn hle hnodup hset
    have hi : i < l.length := by omega
    obtain ⟨⟨r, k⟩, he⟩ : ∃ e, l[i]? = some e := ⟨_, List.getElem?_eq_getElem hi⟩
    -- what leaves the list, for either reason
    have hremove : ∃ l', Synced s l' ∧
        Quietly cfg (scanAt s (swapRemove l i) f (.reconcile i) false)
          (scanAt s l' f (.addNew s.registry) false) := by
      have hlen := (swapRemove_perm he).length_eq
      rw [List.length_cons] at hlen
      refine ih _ _ (by omega) (by omega) (swapRemove_fst he hnodup).1 ?_
      rw [swapRemove_take l hi]
      exact hset
    by_cases hin : r ∈ s.registry
    · have hsub : syncSubject (scanAt s l f (.reconcile i) false) (.reconcile i) = some r := by
        show (l[i]?).bind _ = some r
        rw [he]
        exact if_pos hin
      have hdecide := scan_decide cfg hsub
      have hstep : ∀ keep, syncDecide keep (scanAt s l f (.reconcile i) false) (.reconcile i)
          = if keep then scanAt s (l.set i (r, (s.rings r).serial)) f (.reconcile (i + 1)) false
            else scanAt s (swapRemove l i) f (.reconcile i) false := by
        intro keep
        dsimp only [syncDecide, scanAt]
        rw [he]
      rw [hstep] at hdecide
      cases hkeep : keep s r with
      | true =>
        rw [hkeep, if_pos rfl] at hdecide
        have hlen : (l.set i (r, (s.rings r).serial)).length = l.length := List.length_set
        obtain ⟨hnodup', hset'⟩ := hset.refresh he hnodup hin hkeep
        obtain ⟨l', hset', hrest⟩ := ih _ (i + 1) (by omega) (by omega) hnodup' hset'
        exact ⟨l', hset', hdecide.trans hrest⟩
      | false =>
        rw [hkeep, if_neg Bool.false_ne_true] at hdecide
        obtain ⟨l', hset', hrest⟩ := hremove
        exact ⟨l', hset', hdecide.trans hrest⟩
    · have hnone : syncSubject (scanAt s l f (.reconcile i) false) (.reconcile i) = none := by
        show (l[i]?).bind _ = none
        rw [he]
        exact if_neg hin
      have hnext := scan_next cfg hnone
      have hstep : syncNext (scanAt s l f (.reconcile i) false) (.reconcile i)
          = scanAt s (swapRemove l i) f (.reconcile i) false := if_pos hi
      rw [hstep] at hnext
      obtain ⟨l', hset', hrest⟩ := hremove
      exact ⟨l', hset', hnext.trans hrest⟩

/-- A kept ring of the registry that is not listed yet. -/
theorem Synced.add {r : Nat} (h : Synced s l) (hin : r ∈ s.registry) (hkeep : keep s r = true)
    (hnew : r ∉ l.map Prod.fst) : Synced s (l ++ [(r, (s.rings r).serial)]) := by
  refine ⟨?_, ?_⟩
  · have hperm : ((l ++ [(r, (s.rings r).serial)]).map Prod.fst).Perm (r :: l.map Prod.fst) := by
      rw [List.map_append]
      exact List.perm_append_singleton r _
    exact hperm.nodup_iff.mpr (List.nodup_cons.mpr ⟨hnew, h.nodup⟩)
  · intro r' k' hmem
    rcases List.mem_append.mp hmem with hmem | hmem
    · exact h.kept r' k' hmem
    · obtain ⟨rfl, rfl⟩ := Prod.mk.inj (List.mem_singleton.mp hmem)
      exact ⟨hin, hkeep, rfl⟩

/-- The newly registered rings join the list. -/
theorem addNew_run (todo : List Nat) : ∀ (l : List (Nat × Nat)), (∀ r ∈ todo, r ∈ s.registry) →
    Synced s l → ∃ l', Synced s l' ∧ (∀ r ∈ l.map Prod.fst, r ∈ l'.map Prod.fst) ∧
      (∀ r ∈ todo, keep s r = true → r ∈ l'.map Prod.fst) ∧
      Quietly cfg (scanAt s l f (.addNew todo) false)
        (scanAt s l' f (.retain s.registry []) false) := by
  induction todo with
  | nil =>
    intro l _ hset
    exact ⟨l, hset, fun _ hr => hr, fun _ hr => absurd hr List.not_mem_nil, scan_next cfg rfl⟩
  | cons r rest ih =>
    intro l htodo hset
    have hrest : ∀ r' ∈ rest, r' ∈ s.registry := fun r' hr => htodo r' (List.mem_cons_of_mem _ hr)
    have hdecide := scan_decide cfg (s := s) (l := l) (f := f)
      (show syncSubject (scanAt s l f (.addNew (r :: rest)) false) (.addNew (r :: rest)) = some r
        from rfl)
    have hstep : syncDecide (keep s r) (scanAt s l f (.addNew (r :: rest)) false)
          (.addNew (r :: rest))
        = scanAt s (if keep s r = true ∧ r ∉ l.map Prod.fst then l ++ [(r, (s.rings r).serial)]
            else l) f (.addNew rest) false := rfl
    rw [hstep] at hdecide
    by_cases hadd : keep s r = true ∧ r ∉ l.map Prod.fst
    · rw [if_pos hadd] at hdecide
      obtain ⟨l', hset', hold, hnew, hrun⟩ :=
        ih _ hrest (hset.add (htodo r List.mem_cons_self) hadd.1 hadd.2)
      have hmem : ∀ r' ∈ l.map Prod.fst ++ [r], r' ∈ l'.map Prod.fst := by
        intro r' hr'
        refine hold r' ?_
        rw [List.map_append]
        exact hr'
      refine ⟨l', hset', fun r' hr' => hmem r' (List.mem_append_left _ hr'), ?_,
        hdecide.trans hrun⟩
      intro r' hr' hkeep
      rcases List.mem_cons.mp hr' with rfl | hr'
      · exact hmem _ (List.mem_append_right _ (List.mem_singleton_self _))
      · exact hnew r' hr' hkeep
    · rw [if_neg hadd] at hdecide
      obtain ⟨l', hset', hold, hnew, hrun⟩ := ih l hrest hset
      refine ⟨l', hset', hold, ?_, hdecide.trans hrun⟩
      intro r' hr' hkeep
      rcases List.mem_cons.mp hr' with rfl | hr'
      · exact hold _ (Classical.not_not.mp fun hnot => hadd ⟨hkeep, hnot⟩)
      · exact hnew r' hr' hkeep

/-- The state once the lock is released. -/
def released (s : Sys) (rings : List (Nat × Nat)) (finalize : List Nat) (registry : List Nat) :
    Sys :=
  { s with
    registry := registry
    drain := { s.drain with rings := rings, finalize := finalize, pc := .finalNext } }

/-- `registry.retain(keep)`. -/
theorem retain_run (todo kept : List Nat) :
    Quietly cfg (scanAt s l f (.retain todo kept) false)
      (released s l f (kept ++ todo.filter (keep s))) := by
  induction todo generalizing kept with
  | nil =>
    rw [List.filter_nil, List.append_nil]
    exact scan_next cfg rfl
  | cons r rest ih =>
    refine (scan_decide cfg (r := r) rfl).trans ?_
    cases hkeep : keep s r with
    | true =>
      rw [List.filter_cons_of_pos hkeep, List.append_cons]
      exact ih (kept ++ [r])
    | false =>
      rw [List.filter_cons_of_neg (by rw [hkeep]; decide)]
      exact ih kept

/-- What `sync_rings` puts on its finalize list. -/
def dying (s : Sys) : List Nat :=
  (s.registry.filter fun r => !keep s r) ++
    (s.drain.rings.map Prod.fst).filter fun r => !keep s r && decide (r ∉ s.registry)

/-- The call up to the release of the lock. -/
theorem locked_run (hpc : s.drain.pc = .lock) (hfree : s.registryLocked = false)
    (hlocal : (s.drain.rings.map Prod.fst).Nodup) :
    ∃ l, Synced s l ∧ (∀ r ∈ s.registry, keep s r = true → r ∈ l.map Prod.fst) ∧
      Quietly cfg s (released s l (dying s) (s.registry.filter (keep s))) := by
  have hlock : Quietly cfg s (scanAt s s.drain.rings [] (.scanRegistry s.registry) false) := by
    refine Quietly.single ?_ (by rw [hpc]; rfl)
    unfold drainStep
    rw [hpc]
    show (if s.registryLocked = true then _ else _) = _
    rw [hfree]
    rfl
  obtain ⟨l₁, hset₁, hreconcile⟩ := reconcile_run cfg (f := dying s) _ s.drain.rings 0 rfl
    (Nat.zero_le _) hlocal ⟨List.nodup_nil, fun _ _ h => absurd h List.not_mem_nil⟩
  obtain ⟨l₂, hset₂, -, hnew, hadd⟩ := addNew_run cfg (f := dying s) s.registry l₁
    (fun _ hr => hr) hset₁
  have hscan := scanRegistry_run cfg (s := s) (l := s.drain.rings) s.registry []
  have hstale := scanLocal_run cfg (s := s) (l := s.drain.rings) s.drain.rings
    (s.registry.filter fun r => !keep s r)
  exact ⟨l₂, hset₂, hnew,
    hlock.trans (hscan.trans (hstale.trans (hreconcile.trans (hadd.trans (retain_run cfg _ [])))))⟩

/-! ## The final drains -/

variable {cfg}

/-- The lists of `sync_rings` are as they were. -/
structure SameLists (s t : Sys) : Prop where
  registry : t.registry = s.registry
  rings : t.drain.rings = s.drain.rings
  finalize : t.drain.finalize = s.drain.finalize

theorem SameLists.trans {u : Sys} (h : SameLists s t) (h' : SameLists t u) : SameLists s u :=
  ⟨h'.registry.trans h.registry, h'.rings.trans h.rings, h'.finalize.trans h.finalize⟩

/-- The drain gets quietly to a position, with its lists as they were. -/
def Comes (cfg : Config) (s : Sys) (pc : LoopPc) : Prop :=
  ∃ t, Quietly cfg s t ∧ SameLists s t ∧ t.drain.pc = pc

theorem Comes.after {pc : LoopPc} (hst : drainStep cfg s = some t)
    (hpc : quiet s.drain.pc = true) (hsame : SameLists s t) (h : Comes cfg t pc) :
    Comes cfg s pc := by
  obtain ⟨u, hrun, hlists, hend⟩ := h
  exact ⟨u, (Quietly.single hst hpc).trans hrun, hsame.trans hlists, hend⟩

/-- One access of a pass, whatever it does to the ring and the sink. -/
theorem pass_next {ctx : PassCtx} {r : Nat} {p : Pass} {pc : LoopPc}
    (hpc : s.drain.pc = .pass ctx r p) (hp : p ≠ .finished)
    (h : ∀ t, t.drain.pc = .pass ctx r (Pass.step (s.rings r) p).1 →
      t.rings r = (Pass.step (s.rings r) p).2.1 → Comes cfg t pc) : Comes cfg s pc := by
  refine Comes.after (t := (acceptAll (PassCtx.path ctx) (Pass.step (s.rings r) p).2.2.toList
    (s.setRing r (Pass.step (s.rings r) p).2.1)).drainTo
      (.pass ctx r (Pass.step (s.rings r) p).1)) ?_ (by rw [hpc]; rfl) ⟨rfl, rfl, rfl⟩
    (h _ rfl (Function.update_self _ _ _))
  unfold drainStep
  rw [hpc]
  show some (passStep ctx r p s) = _
  unfold passStep
  cases p <;> first | rfl | exact absurd rfl hp

theorem finished_end {ctx : PassCtx} {r : Nat} (hpc : s.drain.pc = .pass ctx r .finished) :
    Comes cfg s (.clear ctx r) := by
  refine ⟨s.drainTo (.clear ctx r), Quietly.single ?_ (by rw [hpc]; rfl), ⟨rfl, rfl, rfl⟩, rfl⟩
  unfold drainStep
  rw [hpc]
  rfl

/-- Behind the loop of a pass: two stores, and the way back to the caller. -/
theorem stores_end {ctx : PassCtx} {r tail headCache : Nat}
    (hpc : s.drain.pc = .pass ctx r (.storeTail tail headCache)) :
    Comes cfg s (.clear ctx r) := by
  refine pass_next hpc nofun ?_
  intro s₁ hpc₁ _
  change s₁.drain.pc = .pass ctx r (.storeCache headCache) at hpc₁
  refine pass_next hpc₁ nofun ?_
  intro s₂ hpc₂ _
  exact finished_end hpc₂

/-- The loop of a pass comes to its end, and the pass with it. -/
theorem scan_ends {ctx : PassCtx} {r headCache : Nat} (n : Nat) : ∀ {s : Sys} {tail : Nat},
    headCache - tail = n → s.drain.pc = .pass ctx r (.scan tail headCache) →
    Comes cfg s (.clear ctx r) := by
  induction n with
  | zero =>
    intro s tail hn hpc
    refine pass_next hpc nofun ?_
    intro s₁ hpc₁ _
    have hstep : (Pass.step (s.rings r) (.scan tail headCache)).1 = .storeTail tail headCache := by
      simp only [Pass.step]
      rw [if_neg (by omega)]
    rw [hstep] at hpc₁
    exact stores_end hpc₁
  | succ n ih =>
    intro s tail hn hpc
    refine pass_next hpc nofun ?_
    intro s₁ hpc₁ _
    have hlt : tail < headCache := by omega
    cases hcell : (s.rings r).storage[tail]? with
    | none =>
      have hstep : (Pass.step (s.rings r) (.scan tail headCache)).1
          = .storeTail tail headCache := by
        simp only [Pass.step]
        rw [if_pos hlt, hcell]
      rw [hstep] at hpc₁
      exact stores_end hpc₁
    | some x =>
      have hstep : (Pass.step (s.rings r) (.scan tail headCache)).1
          = .scan (tail + 1) headCache := by
        simp only [Pass.step]
        rw [if_pos hlt, hcell]
      rw [hstep] at hpc₁
      exact ih (by omega) hpc₁

/-- A pass comes to its end. -/
theorem pass_ends {ctx : PassCtx} {r : Nat} (hpc : s.drain.pc = .pass ctx r .loadTail) :
    Comes cfg s (.clear ctx r) := by
  refine pass_next hpc nofun ?_
  intro s₁ hpc₁ hring₁
  change s₁.drain.pc = .pass ctx r (.loadCache (s.rings r).tail) at hpc₁
  refine pass_next hpc₁ nofun ?_
  intro s₂ hpc₂ hring₂
  dsimp only [Pass.step] at hpc₂
  split at hpc₂
  next =>
    refine pass_next hpc₂ nofun ?_
    intro s₃ hpc₃ _
    dsimp only [Pass.step] at hpc₃
    split at hpc₃
    next => exact finished_end hpc₃
    next => exact scan_ends _ rfl hpc₃
  next => exact scan_ends _ rfl hpc₂

variable (cfg)

/-- The way back from `drain_recycle`. -/
theorem recycle_ends {r : Nat} (hpc : s.drain.pc = .markRecycled .final r) :
    ∃ qs t, (∀ q ∈ qs, q = r) ∧ Drains cfg s [] qs t ∧ SameLists s t ∧
      t.drain.pc = .finalNext := by
  by_cases hown : ((s.rings r).recyclable && !(s.rings r).recycled) = true
  · obtain ⟨s₁, hs₁⟩ : ∃ s₁, s₁ = (s.setRing r { s.rings r with recycled := true }).drainTo
        (.recycle .final r) := ⟨_, rfl⟩
    have hmark : Quietly cfg s s₁ := by
      refine Quietly.single ?_ (by rw [hpc]; rfl)
      unfold drainStep
      rw [hpc, hs₁]
      exact if_pos hown
    have hback : Drains cfg s₁ [] [r] ((s₁.recycle r).drainTo .finalNext) := by
      have hpc₁ : s₁.drain.pc = .recycle .final r := by rw [hs₁]; rfl
      refine Drains.single ?_ hpc₁ nofun
      unfold drainStep
      rw [hpc₁]
      rfl
    refine ⟨[r], _, fun q hq => List.mem_singleton.mp hq, Drains.trans hmark hback, ?_, rfl⟩
    rw [hs₁]
    exact ⟨rfl, rfl, rfl⟩
  · refine ⟨[], s.drainTo .finalNext, fun q hq => absurd hq List.not_mem_nil,
      Quietly.single ?_ (by rw [hpc]; rfl), ⟨rfl, rfl, rfl⟩, rfl⟩
    unfold drainStep
    rw [hpc]
    exact if_neg hown

/-- The final drain of one ring. -/
theorem final_drain {r : Nat} (hpc : s.drain.pc = .mark .final r) :
    ∃ qs t, (∀ q ∈ qs, q = r) ∧ Drains cfg s [r] qs t ∧ SameLists s t ∧
      t.drain.pc = .finalNext := by
  obtain ⟨s₁, hs₁⟩ : ∃ s₁, s₁ = (s.setRing r { s.rings r with draining := true }).drainTo
      (.pass .final r .loadTail) := ⟨_, rfl⟩
  have hmark : Drains cfg s [r] [] s₁ := by
    refine Drains.single ?_ hpc nofun
    unfold drainStep
    rw [hpc, hs₁]
  have hlists₁ : SameLists s s₁ := by
    rw [hs₁]
    exact ⟨rfl, rfl, rfl⟩
  obtain ⟨s₂, hpass, hlists₂, hpc₂⟩ := pass_ends (s := s₁) (by rw [hs₁]; rfl)
  obtain ⟨s₃, hs₃⟩ : ∃ s₃, s₃ = (s₂.setRing r { s₂.rings r with draining := false }).drainTo
      (afterPass cfg .final r) := ⟨_, rfl⟩
  have hclear : Quietly cfg s₂ s₃ := by
    refine Quietly.single ?_ (by rw [hpc₂]; rfl)
    unfold drainStep
    rw [hpc₂, hs₃]
  have hlists₃ : SameLists s s₃ := by
    refine (hlists₁.trans hlists₂).trans ?_
    rw [hs₃]
    exact ⟨rfl, rfl, rfl⟩
  have hrun := (hmark.trans hpass).trans hclear
  have hpc₃ : s₃.drain.pc = if cfg.segmented then .markRecycled .final r else .finalNext := by
    rw [hs₃]
    rfl
  by_cases hseg : cfg.segmented = true
  · rw [if_pos hseg] at hpc₃
    obtain ⟨qs, t, hqs, hback, hlists, hend⟩ := recycle_ends cfg hpc₃
    exact ⟨qs, t, hqs, hrun.trans hback, hlists₃.trans hlists, hend⟩
  · rw [if_neg hseg] at hpc₃
    exact ⟨[], s₃, fun q hq => absurd hq List.not_mem_nil, hrun, hlists₃, hpc₃⟩

/-- The final drains: one for each ring of the finalize list, in its order. -/
theorem finals_run (rs : List Nat) : ∀ {s : Sys}, s.drain.pc = .finalNext →
    s.drain.finalize = rs → ∃ qs t, (∀ q ∈ qs, q ∈ rs) ∧ Drains cfg s rs qs t ∧
      t.registry = s.registry ∧ t.drain.rings = s.drain.rings ∧ t.drain.pc = .entry 0 := by
  induction rs with
  | nil =>
    intro s hpc hfinal
    refine ⟨[], { s with drain := { s.drain with hadWork := false, pc := .entry 0 } },
      fun q hq => hq, Quietly.single ?_ (by rw [hpc]; rfl), rfl, rfl, rfl⟩
    unfold drainStep
    rw [hpc]
    dsimp only
    rw [hfinal]
  | cons r rest ih =>
    intro s hpc hfinal
    obtain ⟨s₁, hs₁⟩ : ∃ s₁, s₁ = { s with drain := { s.drain with
        finalize := rest, pc := .mark .final r } } := ⟨_, rfl⟩
    have hnext : Quietly cfg s s₁ := by
      refine Quietly.single ?_ (by rw [hpc]; rfl)
      unfold drainStep
      rw [hpc, hs₁]
      dsimp only
      rw [hfinal]
    obtain ⟨qs, s₂, hqs, hdrain, hlists, hpc₂⟩ := final_drain cfg (s := s₁) (r := r)
      (by rw [hs₁])
    have hfinal₂ : s₂.drain.finalize = rest := by
      rw [hlists.finalize, hs₁]
    obtain ⟨qs', t, hqs', hrest, hreg, hrings, hend⟩ := ih hpc₂ hfinal₂
    refine ⟨qs ++ qs', t, ?_, (Drains.trans hnext hdrain).trans hrest, ?_, ?_, hend⟩
    · intro q hq
      rcases List.mem_append.mp hq with hq | hq
      · rw [hqs q hq]
        exact List.mem_cons_self
      · exact List.mem_cons_of_mem _ (hqs' q hq)
    · rw [hreg, hlists.registry, hs₁]
    · rw [hrings, hlists.rings, hs₁]

/-! ## The call -/

theorem mem_dying {r : Nat} :
    r ∈ dying s ↔ (r ∈ s.registry ∨ r ∈ s.drain.rings.map Prod.fst) ∧ keep s r = false := by
  unfold dying
  rw [List.mem_append, List.mem_filter, List.mem_filter]
  by_cases hin : r ∈ s.registry
  · simp [hin]
  · simp [hin]

/-- No ring is put on the finalize list twice, in whichever of the two lists it stands. -/
theorem dying_nodup (hreg : s.registry.Nodup) (hlocal : (s.drain.rings.map Prod.fst).Nodup) :
    (dying s).Nodup := by
  refine List.nodup_append.mpr ⟨hreg.filter _, hlocal.filter _, ?_⟩
  intro a ha b hb hab
  subst hab
  have hin := (List.mem_filter.mp ha).1
  have hout := (List.mem_filter.mp hb).2
  rw [Bool.and_eq_true, decide_eq_true_eq] at hout
  exact hout.2 hin

/-- One call of `sync_rings`, for any registry, local list and flags: it returns; the registry
keeps its kept rings in their order; the local list holds just those, each once and with its
serial; every other ring of the two lists is drained once, no kept one is drained or
recycled; and the flags and serials are at the end what they were. -/
theorem sync_rings_reconciles (cfg : Config) {s : Sys} (hpc : s.drain.pc = .lock)
    (hfree : s.registryLocked = false) (hreg : s.registry.Nodup)
    (hlocal : (s.drain.rings.map Prod.fst).Nodup) :
    ∃ pcs t, DrainRun cfg s pcs t ∧ t.drain.pc = .entry 0 ∧ (∀ i, LoopPc.entry i ∉ pcs) ∧
      t.registry = s.registry.filter (keep s) ∧
      (t.drain.rings.map Prod.fst).Nodup ∧
      (∀ r k, (r, k) ∈ t.drain.rings ↔
        r ∈ s.registry ∧ keep s r = true ∧ k = (s.rings r).serial) ∧
      (∀ r, (drainsOf pcs).count r =
        if (r ∈ s.registry ∨ r ∈ s.drain.rings.map Prod.fst) ∧ keep s r = false then 1 else 0) ∧
      (∀ r, keep s r = true → r ∉ recyclesOf pcs) ∧
      ∀ r, keep t r = keep s r ∧ (t.rings r).serial = (s.rings r).serial := by
  obtain ⟨l, hset, hall, hlocked⟩ := locked_run cfg hpc hfree hlocal
  obtain ⟨qs, t, hqs, hfinals, hregistry, hrings, hend⟩ := finals_run cfg (dying s)
    (s := released s l (dying s) (s.registry.filter (keep s))) rfl rfl
  obtain ⟨pcs, hrun, hdrains, hrecycles, hentry⟩ := Drains.trans hlocked hfinals
  have hlist : t.drain.rings = l := hrings
  refine ⟨pcs, t, hrun, hend, hentry, hregistry, ?_, ?_, ?_, ?_, hrun.frame⟩
  · rw [hlist]
    exact hset.nodup
  · intro r k
    rw [hlist]
    refine ⟨hset.kept r k, ?_⟩
    rintro ⟨hin, hkeep, rfl⟩
    obtain ⟨⟨r', k'⟩, hmem, rfl⟩ := List.mem_map.mp (hall r hin hkeep)
    rw [← (hset.kept _ _ hmem).2.2]
    exact hmem
  · intro r
    rw [hdrains, List.nil_append, (dying_nodup hreg hlocal).count]
    simp only [mem_dying]
  · intro r hkeep hr
    rw [hrecycles, List.nil_append] at hr
    have hdead := (mem_dying.mp (hqs r hr)).2
    rw [hkeep] at hdead
    cases hdead

/-- About to sync, with rings 0 and 1 registered, 0 and 2 in the local list, and only ring 1
alive. -/
def threeRings : Sys :=
  { Sys.init (smallConfig .quill) with
    rings := fun r => { Ring.fresh false with live := decide (r = 1), serial := r + 4 }
    registry := [0, 1]
    drain := ⟨.lock, [(0, 4), (2, 6)], 0, false, false, false, []⟩ }

theorem sync_rings_reconciles_three :
    ∃ pcs t, DrainRun (smallConfig .quill) threeRings pcs t ∧ t.registry = [1] ∧
      (∀ r k, (r, k) ∈ t.drain.rings ↔ r ∈ [0, 1] ∧ keep threeRings r = true ∧ k = r + 4) ∧
      (drainsOf pcs).count 0 = 1 ∧ (drainsOf pcs).count 1 = 0 ∧ (drainsOf pcs).count 2 = 1 := by
  obtain ⟨pcs, t, hrun, -, -, hregistry, -, hlist, hdrains, -⟩ :=
    sync_rings_reconciles (smallConfig .quill) (s := threeRings) rfl rfl (by decide) (by decide)
  refine ⟨pcs, t, hrun, ?_, hlist, ?_, ?_, ?_⟩
  · rw [hregistry]
    rfl
  · rw [hdrains]
    rfl
  · rw [hdrains]
    rfl
  · rw [hdrains]
    rfl

end Sys

end Ticklog
