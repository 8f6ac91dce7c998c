import Ticklog.System.Ledger

/-!
# A sync and a poll settle the ledger

Once the producers are quiet, one round of the drain empties every account: `sync_rings`
lists each registered ring with its current serial, `poll_once` finds none of them reserved and
reads each to its end, and the line queue follows.
-/

namespace Ticklog

open Lib

namespace Sys

variable {cfg : Config} {s s' : Sys}

/-- No log call is under way, but for producers that wait for a segment. -/
def Quiet (s : Sys) : Prop :=
  ∀ t, (s.threads t).pc = .idle ∨ (s.threads t).pc = .asleep ∨ (s.threads t).pc = .woken

/-- The drain's steps alone. -/
def Alone (ok : Sys → Action → Prop) (s : Sys) (a : Action) : Prop := ok s a ∧ a = .drain

/-- Ring `r` is read to its end. -/
def Drained (s : Sys) (r : Nat) : Prop := (s.rings r).tail = (s.rings r).head

/-- Each registered ring is read to its end or still ahead of the poll at entry `i`. -/
def Covered (s : Sys) (i : Nat) : Prop :=
  ∀ r, r ∈ s.registry → Drained s r ∨
    ∃ j, i ≤ j ∧ s.drain.rings[j]? = some (r, (s.rings r).serial)

/-- The drain has each registered ring in its list, with its serial. -/
def Listed (s : Sys) : Prop :=
  ∀ r, r ∈ s.registry → ∃ j : Nat, s.drain.rings[j]? = some (r, (s.rings r).serial)

/-- How far a round of the drain has come. -/
def Swept (s : Sys) : Prop :=
  match s.drain.pc with
  | .sync (.reconcile i) _ =>
    ∀ j e, j < i → s.drain.rings[j]? = some e → e.2 = (s.rings e.1).serial
  | .sync (.addNew todo) _ =>
    (∀ e, e ∈ s.drain.rings → e.2 = (s.rings e.1).serial) ∧
      ∀ r, r ∈ s.registry → r ∈ s.drain.rings.map Prod.fst ∨ r ∈ todo
  | .sync (.retain _ _) _ | .finalNext => Listed s
  | .entry i | .reserved i _ _ | .mark (.poll i _) _ | .markRecycled (.poll i _) _
  | .recycle (.poll i _) _ => Covered s i
  | .pass (.poll i _) q p =>
    (∀ r, r ∈ s.registry → r ≠ q → Drained s r ∨
      ∃ j, i + 1 ≤ j ∧ s.drain.rings[j]? = some (r, (s.rings r).serial)) ∧
      Complete (s.rings q) p
  | .clear (.poll i _) _ | .retire i _ _ _ => Covered s (i + 1)
  | .takeLines => ∀ r, r ∈ s.registry → Drained s r
  | .deliver _ | .decide => (∀ r, r ∈ s.registry → Drained s r) ∧ s.lines = []
  | _ => True

theorem Quiet.aside (h : Quiet s) (t : Nat) : aside (s.threads t).pc = true := by
  rcases h t with hpc | hpc | hpc
  all_goals
    rw [hpc]
    rfl

theorem Quiet.not_reserving (h : Quiet s) (t r : Nat) : reserving (s.threads t) ≠ some r := by
  unfold reserving
  rcases h t with hpc | hpc | hpc
  all_goals
    rw [hpc]
    nofun

theorem Quiet.step (h : Quiet s) (hstep : step cfg s .drain = some s') : Quiet s' := by
  intro t
  have hact : Action.drain.actor ≠ some t := nofun
  rcases step_wakes hact hstep with hth | ⟨-, hth, -⟩
  · rw [hth]
    exact h t
  · rw [hth]
    exact Or.inr (Or.inr rfl)

/-- Nothing `Covered` looks at has changed. -/
theorem Covered.congr {i : Nat} (h : Covered s i)
    (hring : ∀ r, r ∈ s.registry → (s'.rings r).tail = (s.rings r).tail ∧
      (s'.rings r).cells = (s.rings r).cells ∧ (s'.rings r).serial = (s.rings r).serial)
    (hreg : s'.registry = s.registry) (hlist : s'.drain.rings = s.drain.rings) : Covered s' i := by
  intro r hr
  rw [hreg] at hr
  obtain ⟨htail, hcells, hser⟩ := hring r hr
  refine (h r hr).imp (fun hd => ?_) fun ⟨j, hj, he⟩ => ⟨j, hj, by rw [hlist, hser]; exact he⟩
  exact htail.trans (hd.trans (congrArg List.length hcells).symm)

/-- The entry just dealt with is behind the poll. -/
theorem Covered.next {i : Nat} (h : Covered s i)
    (hno : ∀ r, r ∈ s.registry → s.drain.rings[i]? = some (r, (s.rings r).serial) → Drained s r) :
    Covered s (i + 1) := by
  intro r hr
  rcases h r hr with hd | ⟨j, hj, he⟩
  · exact Or.inl hd
  · by_cases hij : j = i
    · exact Or.inl (hno r hr (hij ▸ he))
    · exact Or.inr ⟨j, by omega, he⟩

/-- An entry behind the one taken out stays behind it. -/
theorem swapRemove_behind {α : Type} {l : List α} {i j : Nat} {x : α} (hx : l[j]? = some x)
    (hij : i < j) : ∃ j', i ≤ j' ∧ (swapRemove l i)[j']? = some x := by
  have hj : j < l.length := (List.getElem?_eq_some_iff.mp hx).1
  unfold swapRemove
  split
  next y hy =>
    have hlast : l[l.length - 1]? = some y := by rw [← List.getLast?_eq_getElem?, hy]
    by_cases hend : j = l.length - 1
    · -- the last entry takes the place
      refine ⟨i, Nat.le_refl _, ?_⟩
      rw [List.dropLast_eq_take, List.length_set, List.getElem?_take_of_lt (by omega),
        List.getElem?_set_self (by omega)]
      rw [← hlast, ← hend, hx]
    · refine ⟨j, Nat.le_of_lt hij, ?_⟩
      rw [List.dropLast_eq_take, List.length_set, List.getElem?_take_of_lt (by omega),
        List.getElem?_set_ne (by omega)]
      exact hx
  next hnil =>
    rw [List.getLast?_eq_none_iff] at hnil
    rw [hnil] at hj
    cases hj

/-! ## The sync -/

/-- A scan with nothing left to evaluate. -/
theorem syncNext_swept (hi : Intact s) (h : Swept s) {phase : SyncPhase} {half : Bool}
    (hpc : s.drain.pc = .sync phase half) (hsub : s.syncSubject phase = none) :
    Swept (syncNext s phase) := by
  unfold Swept at h
  cases phase with
  | scanRegistry todo => trivial
  | scanLocal todo => exact fun j e hj _ => absurd hj (Nat.not_lt_zero j)
  | reconcile i =>
    simp only [hpc] at h
    dsimp only [syncNext]
    split
    next hlt =>
      -- the entry that left the registry goes, those before it stay
      intro j e hj he
      refine h j e hj ?_
      rw [← List.getElem?_take_of_lt hj, swapRemove_take _ hlt, List.getElem?_take_of_lt hj] at he
      exact he
    next hge =>
      refine ⟨fun e he => ?_, fun r hr => Or.inr hr⟩
      obtain ⟨j, hj, rfl⟩ := List.getElem_of_mem he
      have hj' : j < s.drain.rings.length := hj
      exact h j _ (by omega) (List.getElem?_eq_getElem hj')
  | addNew todo =>
    simp only [hpc] at h
    obtain ⟨hser, hall⟩ := h
    intro r hr
    rcases hall r hr with hin | hin
    · obtain ⟨e, he, rfl⟩ := List.mem_map.mp hin
      obtain ⟨j, hj, heq⟩ := List.getElem_of_mem he
      refine ⟨j, ?_⟩
      change s.drain.rings[j]? = some (e.1, (s.rings e.1).serial)
      rw [List.getElem?_eq_getElem hj, heq, ← hser e he]
    · rw [List.head?_eq_none_iff.mp hsub] at hin
      cases hin
  | retain todo kept =>
    simp only [hpc] at h
    have hkept := hi.retain _ _ _ hpc
    rw [List.head?_eq_none_iff.mp hsub, List.append_nil] at hkept
    intro r hr
    change r ∈ kept at hr
    exact h r (hkept ▸ hr)

/-- A scan keeps a live ring. -/
theorem syncLive_swept (h : Swept s) {phase : SyncPhase} {r : Nat} {half : Bool}
    (hpc : s.drain.pc = .sync phase half) (hsub : s.syncSubject phase = some r) :
    Swept (syncDecide true s phase) := by
  unfold Swept at h
  cases phase with
  | scanRegistry todo =>
    cases todo with
    | nil => cases hsub
    | cons r₀ rest => trivial
  | scanLocal todo =>
    cases todo with
    | nil => cases hsub
    | cons e rest => trivial
  | reconcile i =>
    simp only [hpc] at h
    dsimp only [syncSubject] at hsub
    obtain ⟨e, he, -⟩ := Option.bind_eq_some_iff.mp hsub
    have hlt : i < s.drain.rings.length := (List.getElem?_eq_some_iff.mp he).1
    dsimp only [syncDecide]
    simp only [he, if_true]
    intro j e' hj he'
    by_cases hij : j = i
    · subst hij
      rw [List.getElem?_set_self hlt] at he'
      cases he'
      rfl
    · rw [List.getElem?_set_ne (Ne.symm hij)] at he'
      exact h j e' (by omega) he'
  | addNew todo =>
    cases todo with
    | nil => cases hsub
    | cons r₀ rest =>
      simp only [hpc] at h
      obtain ⟨hser, hall⟩ := h
      unfold Swept
      dsimp only [syncDecide]
      by_cases hold : r₀ ∈ s.drain.rings.map Prod.fst
      · rw [if_neg fun hnew => hnew.2 hold]
        refine ⟨hser, fun r hr => ?_⟩
        rcases hall r hr with hin | hin
        · exact Or.inl hin
        · rcases List.mem_cons.mp hin with rfl | hin
          · exact Or.inl hold
          · exact Or.inr hin
      · rw [if_pos ⟨rfl, hold⟩]
        refine ⟨fun e he => ?_, fun r hr => ?_⟩
        · rcases List.mem_append.mp he with he | he
          · exact hser e he
          · rw [List.mem_singleton.mp he]
        · rw [List.map_append]
          rcases hall r hr with hin | hin
          · exact Or.inl (List.mem_append_left _ hin)
          · rcases List.mem_cons.mp hin with rfl | hin
            · exact Or.inl (List.mem_append_right _ (List.mem_singleton_self _))
            · exact Or.inr hin
  | retain todo kept =>
    cases todo with
    | nil => cases hsub
    | cons r₀ rest =>
      simp only [hpc] at h
      exact h

/-! ## The poll -/

/-- A step of the drain, the producers being quiet. -/
theorem drain_swept (hpol : cfg.policy = .nanoLog) (hL : LedgerInv s) (hq : Quiet s)
    (h : Swept s) (hstep : step cfg s .drain = some s') : Swept s' := by
  have hseg := Config.segmented_of_nanoLog hpol
  have hi := hL.backlog.format.intact
  have hentry := hL.backlog.format.own.drain.entry
  have hm : DrainMove cfg s s' := drainStep_move hstep
  have hsame : ∀ {r : Nat}, (s.rings r).tail = (s.rings r).tail ∧
      (s.rings r).cells = (s.rings r).cells ∧ (s.rings r).serial = (s.rings r).serial :=
    ⟨rfl, rfl, rfl⟩
  -- one ring replaced by one with the same records, `tail` and serial
  have hflag : ∀ {r₀ r : Nat} {v : Ring}, v.tail = (s.rings r₀).tail →
      v.cells = (s.rings r₀).cells → v.serial = (s.rings r₀).serial →
      (Function.update s.rings r₀ v r).tail = (s.rings r).tail ∧
        (Function.update s.rings r₀ v r).cells = (s.rings r).cells ∧
        (Function.update s.rings r₀ v r).serial = (s.rings r).serial := by
    intro r₀ r v ht hc hs
    by_cases hr : r = r₀
    · rw [hr, Function.update_self]
      exact ⟨ht, hc, hs⟩
    · rw [Function.update_of_ne hr]
      exact ⟨rfl, rfl, rfl⟩
  cases hm with
  | syncNext hpc hsub => exact syncNext_swept hi h hpc hsub
  | syncLive hpc hsub hl => exact syncLive_swept h hpc hsub
  | syncHalf hpc hsub hl =>
    rw [hi.live] at hl
    cases hl
  | syncDead hpc => exact absurd hpc (hi.half _)
  | enter hpc hsh hnext =>
    rcases hnext with rfl | ⟨hno, -⟩
    · trivial
    · rw [hseg] at hno
      cases hno
  | finalRing hpc hf =>
    rw [hi.finalize] at hf
    cases hf
  | leave | lock | again | lastPoll | worked | idleDirty | idleClean | lastFlush | flush => trivial
  | finalDone hpc =>
    unfold Swept at h
    simp only [hpc] at h
    exact fun r hr => Or.inr ((h r hr).imp fun j he => ⟨Nat.zero_le j, he⟩)
  | entry hpc =>
    unfold Swept at h
    simp only [hpc] at h
    exact h.congr (fun _ _ => hsame) rfl rfl
  | @stale i r k hpc he hk =>
    unfold Swept at h
    simp only [hpc] at h
    refine (h.next fun r' _ he' => ?_).congr (fun _ _ => hsame) rfl rfl
    rw [he] at he'
    cases he'
    exact absurd rfl hk
  | @pollDone i pc hpc he hnext =>
    unfold Swept at h
    simp only [hpc] at h
    rcases hnext with ⟨-, rfl⟩ | ⟨hno, -⟩
    · intro r hr
      refine (h r hr).resolve_right fun ⟨j, hj, he'⟩ => ?_
      have hlt := (List.getElem?_eq_some_iff.mp he').1
      rw [List.getElem?_eq_none_iff] at he
      omega
    · rw [hseg] at hno
      cases hno
  | @skip i r k hpc hres =>
    obtain ⟨t, ht⟩ := hL.backlog.leased r hres
    exact absurd ht (hq.not_reserving t r)
  | unreserved hpc =>
    unfold Swept at h
    simp only [hpc] at h
    exact h.congr (fun _ _ => hsame) rfl rfl
  | @mark ctx q hpc =>
    unfold Swept at h
    simp only [hpc] at h
    obtain ⟨i, k, rfl⟩ := hi.polls (.mark · q) hpc rfl
    have he := hentry i q k (by rw [hpc]; rfl)
    refine ⟨fun r hr hne => ?_, trivial⟩
    obtain ⟨htail, hcells, hser⟩ := @hflag q r
      { s.rings q with draining := true } rfl rfl rfl
    rcases h r hr with hd | ⟨j, hj, he'⟩
    · exact Or.inl (htail.trans (hd.trans (congrArg List.length hcells).symm))
    · refine Or.inr ⟨j, ?_, by rw [← hser] at he'; exact he'⟩
      by_contra hlt
      obtain rfl : j = i := by omega
      rw [he] at he'
      cases he'
      exact hne rfl
  | @passDone ctx q hpc =>
    unfold Swept at h
    simp only [hpc] at h
    obtain ⟨i, k, rfl⟩ := hi.polls (.pass · q .finished) hpc rfl
    intro r hr
    by_cases hne : r = q
    · subst hne
      exact Or.inl h.2
    · exact h.1 r hr hne
  | @pass ctx q p p' ring' x hpc hp hst =>
    unfold Swept at h
    simp only [hpc] at h
    obtain ⟨i, k, rfl⟩ := hi.polls (.pass · q p) hpc rfl
    obtain ⟨d, payload, hacc⟩ := hL.account q
    have hat := hacc.reader p (Or.inl ⟨_, hpc⟩)
    have hring : ((acceptAll (PassCtx.path (.poll i k)) x.toList (s.setRing q ring')).drainTo
        (.pass (.poll i k) q p')).rings = Function.update s.rings q ring' := rfl
    refine ⟨fun r hr hne => ?_, ?_⟩
    · unfold Drained
      rw [hring, Function.update_of_ne hne]
      exact h.1 r hr hne
    · rw [hring, Function.update_self]
      exact h.2.step hat hp hst
  | @clear ctx q hpc =>
    unfold Swept at h
    simp only [hpc] at h
    obtain ⟨i, k, rfl⟩ := hi.polls (.clear · q) hpc rfl
    exact h.congr (fun _ _ => hflag rfl rfl rfl) rfl rfl
  | keepEntry hpc =>
    unfold Swept at h
    simp only [hpc] at h
    exact h.congr (fun _ _ => hsame) rfl rfl
  | handedOff hpc | notReserved hpc | sameSerial hpc | loadHead hpc | drained hpc =>
    unfold Swept at h
    simp only [hpc] at h
    exact h.congr (fun _ _ => hsame) rfl rfl
  | @retired i q k hpc hl hk hreg =>
    unfold Swept at h
    simp only [hpc] at h
    have hgoal : ∀ r, r ∈ s.registry.filter (· ≠ q) → Drained s r ∨
        ∃ j, i ≤ j ∧ (swapRemove s.drain.rings i)[j]? = some (r, (s.rings r).serial) := by
      intro r hr
      refine (h r (List.mem_of_mem_filter hr)).imp id fun ⟨j, hj, he⟩ => ?_
      exact swapRemove_behind he (by omega)
    unfold Swept
    dsimp only
    rw [if_pos hseg]
    exact hgoal
  | @markRecycled ctx q hpc =>
    unfold Swept at h
    simp only [hpc] at h
    obtain ⟨i, k, rfl⟩ := hi.polls (.markRecycled · q) hpc rfl
    exact h.congr (fun _ _ => hflag rfl rfl rfl) rfl rfl
  | @notRecycled ctx q hpc =>
    unfold Swept at h
    simp only [hpc] at h
    obtain ⟨i, k, rfl⟩ := hi.polls (.markRecycled · q) hpc rfl
    exact h.congr (fun _ _ => hsame) rfl rfl
  | @recycle ctx q hpc =>
    unfold Swept at h
    simp only [hpc] at h
    obtain ⟨i, k, rfl⟩ := hi.polls (.recycle · q) hpc rfl
    exact h.congr (fun _ _ => hsame) rfl rfl
  | takeLines hpc =>
    unfold Swept at h
    simp only [hpc] at h
    exact ⟨h, rfl⟩
  | deliver hpc | delivered hpc =>
    unfold Swept at h
    simp only [hpc] at h
    exact h

/-- What a round of the drain keeps, the producers being quiet. -/
structure Round (s : Sys) : Prop where
  ledger : LedgerInv s
  quiet : Quiet s
  swept : Swept s

theorem step_round (hpol : cfg.policy = .nanoLog) {a : Action} (h : Round s)
    (hok : Alone FormatOk s a) (hstep : step cfg s a = some s') : Round s' := by
  obtain ⟨hok, rfl⟩ := hok
  exact ⟨step_ledger h.ledger hok hstep, h.quiet.step hstep,
    drain_swept hpol h.ledger h.quiet h.swept hstep⟩

/-- At its end every record has been handed over. -/
theorem Round.settled (h : Round s) (hpc : s.drain.pc = .decide) {x : Rec}
    (hx : x ∈ s.published) : s.delivered.count x = 1 := by
  have hB := h.ledger.backlog
  obtain ⟨d, payload, hacc⟩ := h.ledger.account x.ring
  have hswept := h.swept
  unfold Swept at hswept
  simp only [hpc] at hswept
  have hnil : payload = [] := hacc.carriesNone fun t xs ht => by
    rw [aside_loaded (h.quiet.aside t)] at ht
    cases ht
  have hqueued : s.queued = [] := by
    rw [queued_offPass (by rw [hpc]; rfl)]
    exact hswept.2
  have hnoreader : ∀ p, ¬ Reader s x.ring p := by
    rintro p (⟨ctx, hpc'⟩ | ⟨t, ht⟩)
    · rw [hpc] at hpc'
      cases hpc'
    · rw [aside_formatting (h.quiet.aside t)] at ht
      cases ht
  have hnorew : ¬ Rewound s x.ring := by
    rintro ⟨t, why, k, hpc'⟩
    rcases h.quiet t with hq | hq | hq
    all_goals
      rw [hq] at hpc'
      cases hpc'
  have hall : (s.rings x.ring).cells.drop d = [] := by
    rw [List.drop_eq_nil_iff]
    by_contra hlt
    have hlt' : d < (s.rings x.ring).head := Nat.lt_of_not_le hlt
    have hd : (s.rings x.ring).tail = (s.rings x.ring).head := hswept.1 _ (hacc.backlog hlt')
    have htail := (hacc.rest hnoreader hnorew).1
    omega
  have ht := hacc.tally x rfl
  rw [hqueued, hnil, hall, List.count_nil] at ht
  have hone := List.count_eq_one_of_mem hB.format.numbered.nodup hx
  omega

end Sys

end Ticklog
