import Ticklog.System.Returns

/-!
# The drain's own steps (`src/drain.rs`)

Every access of the drain keeps what it knows of the segments in its hands. The scans of
`sync_rings` collect dead rings, which are nobody's, and leave none of them in a list;
`maybe_retire` removes a ring its tests have shown to be free. With the producers' side
this is the ownership invariant of the pool.
-/

namespace Ticklog

open Lib

namespace Sys

variable {cfg : Config} {s s' : Sys}

/-- A free ring the drain does not push stays free while it moves. -/
theorem drain_free (hh : HoldInv s) (hstep : step cfg s .drain = some s') {r : Nat}
    (h : Free s r) (hr : r < s.nextRing) (hpc : ∀ ctx, s.drain.pc ≠ .recycle ctx r) :
    Free s' r :=
  h.step hh.bounded hh.helpersOwn hstep hr nofun fun _ => hpc

/-- What has to be said of one access of the drain. -/
structure DrainStep (s s' : Sys) : Prop where
  registry : s'.registry.Sublist s.registry
  localNodup : (s'.drain.rings.map Prod.fst).Nodup
  entries : ∀ e, e ∈ s'.drain.rings →
    e ∈ s.drain.rings ∨ (e.1 ∈ s.registry ∧ e.2 = (s.rings e.1).serial)
  half : ∀ phase, s'.drain.pc = .sync phase true →
    ∃ r, syncSubject s' phase = some r ∧ (s.rings r).live = false
  scanned : Scanned s'
  dueNodup : (due s'.drain).Nodup
  due : ∀ r, r ∈ due s'.drain → r < s.nextRing ∧ (∀ ctx, s.drain.pc ≠ .recycle ctx r) ∧
    ((s.rings r).recyclable = true → Free s r)
  dueDead : scanning s'.drain.pc = true → ∀ r, r ∈ Sys.due s'.drain →
    (s.rings r).recyclable = true →
      (s.rings r).live = false ∧ (s.rings r).helperReserved = false
  dueGone : scanning s'.drain.pc = false → ∀ r, r ∈ Sys.due s'.drain →
    (s.rings r).recyclable = true → r ∉ s'.registry ∧ r ∉ s'.drain.rings.map Prod.fst
  tested : Tested s'
  pushes : ∀ ctx r, s'.drain.pc = .recycle ctx r → (s.rings r).recyclable = true

theorem DrainStep.keeps (hd : DrainStep s s') (hh : HoldInv s) (h : DrainOwn s)
    (hstep : step cfg s .drain = some s') : DrainOwn s' := by
  have hm : DrainMove cfg s s' := drainStep_move hstep
  have hk := drain_keeps hm
  have hf := drain_ring_frame hm
  refine ⟨h.registryNodup.sublist hd.registry, hd.localNodup, ?_, ?_,
    step_entry h.entry hstep, ?_, ?_, hd.scanned, hd.dueNodup, ?_, ?_, ?_, hd.tested, ?_⟩
  · intro r hr
    rw [(hf r).serial, hk.nextSerial]
    exact h.registryNumbered r (hd.registry.subset hr)
  · intro e he
    rw [hk.nextSerial]
    rcases hd.entries e he with he | ⟨hreg, heq⟩
    · exact h.localNumbered e he
    · rw [heq]
      exact h.registryNumbered e.1 hreg
  · intro r hrec hl hin
    rw [(hf r).recyclable] at hrec
    rw [(hf r).live] at hl
    have hin₀ : r ∈ s.registry ∨ r ∈ s.drain.rings.map Prod.fst := by
      rcases hin with hin | hin
      · exact Or.inl (hd.registry.subset hin)
      · obtain ⟨e, he, rfl⟩ := List.mem_map.mp hin
        rcases hd.entries e he with he | ⟨hreg, -⟩
        · exact Or.inr (List.mem_map.mpr ⟨e, he, rfl⟩)
        · exact Or.inl hreg
    refine drain_free hh hstep (h.dead r hrec hl hin₀) (hh.bounded r (Or.inl ?_)) ?_
    · exact hin₀.imp id Or.inl
    · intro ctx hpc
      have hdue : r ∈ Sys.due s.drain := by
        unfold Sys.due
        rw [hpc]
        cases ctx with
        | final => exact List.mem_cons_self
        | poll i k => exact List.mem_singleton_self r
      obtain ⟨h₁, h₂⟩ := h.dueGone (by rw [hpc]; rfl) r hdue hrec
      exact hin₀.elim h₁ h₂
  · intro phase r hpc hsub hrec
    obtain ⟨r', hsub', hl⟩ := hd.half phase hpc
    rw [hsub, Option.some.injEq] at hsub'
    rw [(hf r).live, hsub']
    exact hl
  · intro r hin hrec
    obtain ⟨hlt, hpc, hfree⟩ := hd.due r hin
    rw [(hf r).recyclable] at hrec
    exact drain_free hh hstep (hfree hrec) hlt hpc
  · intro hs r hin hrec
    rw [(hf r).recyclable] at hrec
    rw [(hf r).live, (hf r).helperReserved]
    exact hd.dueDead hs r hin hrec
  · intro hs r hin hrec
    rw [(hf r).recyclable] at hrec
    exact hd.dueGone hs r hin hrec
  · intro ctx r hpc
    rw [(hf r).recyclable]
    exact hd.pushes ctx r hpc

/-- An access outside the scans that leaves the lists alone and takes nothing in hand. -/
theorem DrainStep.quiet (hh : HoldInv s) (h : DrainOwn s) (hreg : s'.registry = s.registry)
    (hrings : s'.drain.rings = s.drain.rings) (hs : scanning s.drain.pc = false)
    (hs' : scanning s'.drain.pc = false) (hdue : (Sys.due s'.drain).Sublist (Sys.due s.drain))
    (hpush : ∀ ctx r, s.drain.pc = .recycle ctx r → r ∉ Sys.due s'.drain) (htested : Tested s')
    (hpushes : ∀ ctx r, s'.drain.pc = .recycle ctx r → (s.rings r).recyclable = true) :
    DrainStep s s' where
  registry := by rw [hreg]
  localNodup := by
    rw [hrings]
    exact h.localNodup
  entries := by
    rw [hrings]
    exact fun e he => Or.inl he
  half := by
    intro phase hpc
    rw [hpc] at hs'
    cases hs'
  scanned := by
    unfold Scanned
    cases hpc : s'.drain.pc with
    | sync phase half =>
      rw [hpc] at hs'
      cases hs'
    | _ => trivial
  dueNodup := h.dueNodup.sublist hdue
  due := by
    intro r hr
    have hr₀ := hdue.subset hr
    exact ⟨hh.bounded r (Or.inl (due_known hr₀)), fun ctx hpc => hpush ctx r hpc hr,
      h.dueFree r hr₀⟩
  dueDead := by
    intro hs''
    rw [hs'] at hs''
    cases hs''
  dueGone := by
    intro _ r hr hrec
    rw [hreg, hrings]
    exact h.dueGone hs r (hdue.subset hr) hrec
  tested := htested
  pushes := hpushes

/-- A position outside `maybe_retire` has nothing to show. -/
theorem Tested.of_pc (h : ∀ i r k test, s.drain.pc ≠ .retire i r k test) : Tested s := by
  unfold Tested
  split
  next hpc => exact absurd hpc (h _ _ _ _)
  next hpc => exact absurd hpc (h _ _ _ _)
  next hpc => exact absurd hpc (h _ _ _ _)
  next hpc => exact absurd hpc (h _ _ _ _)
  next hpc => exact absurd hpc (h _ _ _ _)
  next => trivial

/-! ## The scans -/

/-- What a scan's bookkeeping leaves as it is, beside the lists. -/
theorem DrainStep.scan (hh : HoldInv s) (h : DrainOwn s) (hs : scanning s.drain.pc = true)
    (hreg : s'.registry.Sublist s.registry)
    (hlocal : (s'.drain.rings.map Prod.fst).Nodup)
    (hentries : ∀ e, e ∈ s'.drain.rings →
      e ∈ s.drain.rings ∨ (e.1 ∈ s.registry ∧ e.2 = (s.rings e.1).serial))
    (hfin : s'.drain.finalize = s.drain.finalize)
    (hpc : (∃ phase, s'.drain.pc = .sync phase false) ∨ (s'.drain.pc = .finalNext ∧
      ∀ r, r ∈ s.drain.finalize → (s.rings r).recyclable = true →
        r ∉ s'.registry ∧ r ∉ s'.drain.rings.map Prod.fst))
    (hscanned : Scanned s') : DrainStep s s' := by
  have hdue : Sys.due s.drain = s.drain.finalize := by
    cases hp : s.drain.pc with
    | sync phase half =>
      unfold Sys.due
      rw [hp]
    | _ =>
      rw [hp] at hs
      cases hs
  have hdue' : Sys.due s'.drain = s.drain.finalize := by
    unfold Sys.due
    rcases hpc with ⟨phase, hp⟩ | ⟨hp, -⟩
    · rw [hp]
      exact hfin
    · rw [hp]
      exact hfin
  have hnp : ∀ ctx r, s.drain.pc ≠ .recycle ctx r := by
    intro ctx r hp
    rw [hp] at hs
    cases hs
  refine ⟨hreg, hlocal, hentries, ?_, hscanned, ?_, ?_, ?_, ?_, ?_, ?_⟩
  · intro phase hp
    rcases hpc with ⟨phase', hp'⟩ | ⟨hp', -⟩
    all_goals
      rw [hp] at hp'
      cases hp'
  · rw [hdue', ← hdue]
    exact h.dueNodup
  · rw [hdue', ← hdue]
    intro r hr
    exact ⟨hh.bounded r (Or.inl (due_known hr)), fun ctx => hnp ctx r, h.dueFree r hr⟩
  · rw [hdue', ← hdue]
    exact fun _ => h.dueDead hs
  · rw [hdue']
    intro hs'
    rcases hpc with ⟨phase, hp⟩ | ⟨-, hgone⟩
    · rw [hp] at hs'
      cases hs'
    · exact hgone
  · refine .of_pc fun i r k test hp => ?_
    rcases hpc with ⟨phase, hp'⟩ | ⟨hp', -⟩
    all_goals
      rw [hp] at hp'
      cases hp'
  · intro ctx r hp
    rcases hpc with ⟨phase, hp'⟩ | ⟨hp', -⟩
    all_goals
      rw [hp] at hp'
      cases hp'

theorem syncNext_step (hh : HoldInv s) (h : DrainOwn s) {phase : SyncPhase} {half : Bool}
    (hpc : s.drain.pc = .sync phase half) (hsub : syncSubject s phase = none) :
    DrainStep s (syncNext s phase) := by
  have hs : scanning s.drain.pc = true := by
    rw [hpc]
    rfl
  have hsc := h.scanned
  unfold Scanned at hsc
  rw [hpc] at hsc
  cases phase with
  | scanRegistry todo =>
    refine .scan hh h hs (List.Sublist.refl _) h.localNodup (fun e he => Or.inl he) rfl
      (Or.inl ⟨_, rfl⟩) ?_
    exact ⟨List.Sublist.refl _, fun r hr => Or.inl (hsc.2 r hr).1⟩
  | scanLocal todo =>
    refine .scan hh h hs (List.Sublist.refl _) h.localNodup (fun e he => Or.inl he) rfl
      (Or.inl ⟨_, rfl⟩) ?_
    intro r _ _ hin
    cases hin
  | reconcile i =>
    simp only [syncNext]
    split
    next hi =>
      have he : s.drain.rings[i]? = some s.drain.rings[i] := List.getElem?_eq_getElem hi
      refine .scan hh h hs (List.Sublist.refl _) (swapRemove_fst he h.localNodup).1
        (fun e he => Or.inl (mem_swapRemove he)) rfl (Or.inl ⟨_, rfl⟩) ?_
      intro r hr hrec
      change r ∉ ((swapRemove s.drain.rings i).take i).map Prod.fst
      rw [swapRemove_take _ hi]
      exact hsc r hr hrec
    next hi =>
      refine .scan hh h hs (List.Sublist.refl _) h.localNodup (fun e he => Or.inl he) rfl
        (Or.inl ⟨_, rfl⟩) ?_
      refine ⟨List.Sublist.refl _, fun r hr hrec => ?_⟩
      have hno := hsc r hr hrec
      rwa [List.take_of_length_le (Nat.not_lt.mp hi)] at hno
  | addNew todo =>
    refine .scan hh h hs (List.Sublist.refl _) h.localNodup (fun e he => Or.inl he) rfl
      (Or.inl ⟨_, rfl⟩) ?_
    exact ⟨List.Sublist.refl _, fun r hr hrec => ⟨hsc.2 r hr hrec, List.not_mem_nil⟩⟩
  | retain todo kept =>
    refine .scan hh h hs ((List.sublist_append_left kept todo).trans hsc.1) h.localNodup
      (fun e he => Or.inl he) rfl (Or.inr ⟨rfl, fun r hr hrec => ?_⟩) trivial
    obtain ⟨h₁, h₂⟩ := hsc.2 r hr hrec
    exact ⟨h₂, h₁⟩

/-- A scan that has found its ring dead puts it on the finalize list. -/
theorem DrainStep.collect (hh : HoldInv s) (h : DrainOwn s) {r : Nat} {phase phase' : SyncPhase}
    {half : Bool} (hpc : s.drain.pc = .sync phase half) (hsub : syncSubject s phase = some r)
    (hdead : (s.rings r).recyclable = true → (s.rings r).live = false)
    (hres : (s.rings r).helperReserved = false) (hnew : r ∉ s.drain.finalize)
    (hscanned : Scanned { s with drain := { s.drain with
      finalize := s.drain.finalize ++ [r], pc := .sync phase' false } }) :
    DrainStep s { s with drain := { s.drain with
      finalize := s.drain.finalize ++ [r], pc := .sync phase' false } } := by
  have hdue : Sys.due s.drain = s.drain.finalize := by
    unfold Sys.due
    rw [hpc]
  have hin := h.scanned.subject hpc hsub
  have hmem : ∀ {r'}, r' ∈ s.drain.finalize ++ [r] → r' ∈ Sys.due s.drain ∨ r' = r := by
    intro r' hr'
    rw [hdue]
    exact (List.mem_append.mp hr').imp id List.mem_singleton.mp
  have hs : scanning s.drain.pc = true := by
    rw [hpc]
    rfl
  refine ⟨List.Sublist.refl _, h.localNodup, fun e he => Or.inl he, nofun, hscanned, ?_, ?_, ?_,
    nofun, trivial, nofun⟩
  · change (s.drain.finalize ++ [r]).Nodup
    have hn := h.dueNodup
    rw [hdue] at hn
    exact hn.append (List.nodup_singleton r) (List.disjoint_singleton.mpr hnew)
  · intro r' hr'
    refine ⟨?_, by rw [hpc]; nofun, fun hrec => ?_⟩
    · rcases hmem hr' with hr' | rfl
      · exact hh.bounded r' (Or.inl (due_known hr'))
      · exact hh.bounded r' (Or.inl (hin.imp id Or.inl))
    · rcases hmem hr' with hr' | rfl
      · exact h.dueFree r' hr' hrec
      · exact h.dead r' hrec (hdead hrec) hin
  · intro _ r' hr' hrec
    rcases hmem hr' with hr' | rfl
    · exact h.dueDead hs r' hr' hrec
    · exact ⟨hdead hrec, hres⟩

theorem syncDecide_step (hh : HoldInv s) (h : DrainOwn s) {phase : SyncPhase} {half keep : Bool}
    {r : Nat} (hpc : s.drain.pc = .sync phase half) (hsub : syncSubject s phase = some r)
    (hkeep : keep = true → (s.rings r).live = true ∨ (s.rings r).helperReserved = true)
    (hdrop : keep = false → ((s.rings r).recyclable = true → (s.rings r).live = false) ∧
      (s.rings r).helperReserved = false) :
    DrainStep s (syncDecide keep s phase) := by
  have hs : scanning s.drain.pc = true := by
    rw [hpc]
    rfl
  have hdue : Sys.due s.drain = s.drain.finalize := by
    unfold Sys.due
    rw [hpc]
  have hsc := h.scanned
  unfold Scanned at hsc
  rw [hpc] at hsc
  -- a ring that is kept is not among the dead ones
  have hkept : keep = true → ∀ r', r' ∈ s.drain.finalize → (s.rings r').recyclable = true →
      r' ≠ r := by
    rintro hk r' hr' hrec rfl
    obtain ⟨h₁, h₂⟩ := h.dueDead hs r' (hdue ▸ hr') hrec
    rcases hkeep hk with hk | hk
    · rw [h₁] at hk
      cases hk
    · rw [h₂] at hk
      cases hk
  cases phase with
  | scanRegistry todo =>
    cases todo with
    | nil => cases hsub
    | cons r₀ rest =>
      obtain rfl : r₀ = r := Option.some.inj hsub
      obtain ⟨hsub', hfin⟩ := hsc
      have hrest : rest.Sublist s.registry := (List.sublist_cons_self r₀ rest).trans hsub'
      cases keep with
      | true =>
        refine .scan hh h hs (List.Sublist.refl _) h.localNodup (fun e he => Or.inl he) rfl
          (Or.inl ⟨_, rfl⟩) ?_
        refine ⟨hrest, fun r' hr' => ⟨(hfin r' hr').1, fun hin => ?_⟩⟩
        exact (hfin r' hr').2 (List.mem_cons_of_mem _ hin)
      | false =>
        have hnew : r₀ ∉ s.drain.finalize := fun hin => (hfin r₀ hin).2 List.mem_cons_self
        refine .collect hh h hpc hsub (hdrop rfl).1 (hdrop rfl).2 hnew ?_
        refine ⟨hrest, fun r' hr' => ?_⟩
        rcases List.mem_append.mp hr' with hr' | hr'
        · exact ⟨(hfin r' hr').1, fun hin => (hfin r' hr').2 (List.mem_cons_of_mem _ hin)⟩
        · obtain rfl := List.mem_singleton.mp hr'
          exact ⟨hsub'.subset List.mem_cons_self,
            (List.nodup_cons.mp (h.registryNodup.sublist hsub')).1⟩
  | scanLocal todo =>
    cases todo with
    | nil => cases hsub
    | cons e rest =>
      obtain ⟨r₀, k₀⟩ := e
      obtain rfl : r₀ = r := Option.some.inj hsub
      obtain ⟨hsub', hfin⟩ := hsc
      have hrest : rest.Sublist s.drain.rings :=
        (List.sublist_cons_self (r₀, k₀) rest).trans hsub'
      have hnodup : r₀ ∉ rest.map Prod.fst := by
        have hn := h.localNodup.sublist (hsub'.map Prod.fst)
        rw [List.map_cons] at hn
        exact (List.nodup_cons.mp hn).1
      have hold : ∀ r', r' ∈ s.drain.finalize → r' ∈ s.registry ∨ r' ∉ rest.map Prod.fst := by
        intro r' hr'
        exact (hfin r' hr').imp id fun hno hin => hno (List.mem_cons_of_mem _ hin)
      simp only [syncDecide]
      by_cases hc : ¬ keep = true ∧ r₀ ∉ s.registry
      · rw [if_pos hc]
        have hk : keep = false := Bool.eq_false_iff.mpr hc.1
        have hnew : r₀ ∉ s.drain.finalize := by
          intro hin
          rcases hfin r₀ hin with hin | hin
          · exact hc.2 hin
          · exact hin List.mem_cons_self
        refine .collect hh h hpc hsub (hdrop hk).1 (hdrop hk).2 hnew ?_
        refine ⟨hrest, fun r' hr' => ?_⟩
        rcases List.mem_append.mp hr' with hr' | hr'
        · exact hold r' hr'
        · obtain rfl := List.mem_singleton.mp hr'
          exact Or.inr hnodup
      · rw [if_neg hc]
        refine .scan hh h hs (List.Sublist.refl _) h.localNodup (fun e he => Or.inl he) rfl
          (Or.inl ⟨_, rfl⟩) ?_
        exact ⟨hrest, hold⟩
  | reconcile i =>
    unfold syncSubject at hsub
    obtain ⟨e, he, hreg⟩ := Option.bind_eq_some_iff.mp hsub
    obtain ⟨r₀, k₀⟩ := e
    split at hreg
    case isFalse => cases hreg
    next hin =>
      obtain rfl : r₀ = r := Option.some.inj hreg
      obtain ⟨hi, -⟩ := List.getElem?_eq_some_iff.mp he
      simp only [syncDecide, he]
      cases keep with
      | true =>
        have hfst : (s.drain.rings.set i (r₀, (s.rings r₀).serial)).map Prod.fst
            = s.drain.rings.map Prod.fst := by
          rw [List.map_set]
          refine List.ext_getElem? fun j => ?_
          by_cases hj : j = i
          · subst hj
            rw [List.getElem?_set_self (by rw [List.length_map]; exact hi), List.getElem?_map, he]
            rfl
          · rw [List.getElem?_set_ne (Ne.symm hj)]
        refine .scan hh h hs (List.Sublist.refl _) (by simpa [hfst] using h.localNodup)
          (fun e he' => ?_) rfl (Or.inl ⟨_, rfl⟩) ?_
        · rcases List.mem_or_eq_of_mem_set he' with he' | rfl
          · exact Or.inl he'
          · exact Or.inr ⟨hin, rfl⟩
        · intro r' hr' hrec
          change r' ∉ ((s.drain.rings.set i (r₀, (s.rings r₀).serial)).take (i + 1)).map Prod.fst
          rw [List.map_take, hfst, List.take_add_one, List.getElem?_map, he]
          rw [List.mem_append, ← List.map_take]
          rintro (hin' | hin')
          · exact hsc r' hr' hrec hin'
          · exact hkept rfl r' hr' hrec (by simpa using hin')
      | false =>
        refine .scan hh h hs (List.Sublist.refl _) (swapRemove_fst he h.localNodup).1
          (fun e he => Or.inl (mem_swapRemove he)) rfl (Or.inl ⟨_, rfl⟩) ?_
        intro r' hr' hrec
        change r' ∉ ((swapRemove s.drain.rings i).take i).map Prod.fst
        rw [swapRemove_take _ hi]
        exact hsc r' hr' hrec
  | addNew todo =>
    cases todo with
    | nil => cases hsub
    | cons r₀ rest =>
      obtain rfl : r₀ = r := Option.some.inj hsub
      obtain ⟨hsub', hfin⟩ := hsc
      have hrest : rest.Sublist s.registry := (List.sublist_cons_self r₀ rest).trans hsub'
      simp only [syncDecide]
      by_cases hc : keep = true ∧ r₀ ∉ s.drain.rings.map Prod.fst
      · rw [if_pos hc]
        refine .scan hh h hs (List.Sublist.refl _) ?_ (fun e he => ?_) rfl (Or.inl ⟨_, rfl⟩) ?_
        · rw [List.map_append]
          exact h.localNodup.append (List.nodup_singleton r₀)
            (List.disjoint_singleton.mpr hc.2)
        · rcases List.mem_append.mp he with he | he
          · exact Or.inl he
          · obtain rfl := List.mem_singleton.mp he
            exact Or.inr ⟨hsub'.subset List.mem_cons_self, rfl⟩
        · refine ⟨hrest, fun r' hr' hrec => ?_⟩
          change r' ∉ (s.drain.rings ++ [(r₀, (s.rings r₀).serial)]).map Prod.fst
          rw [List.map_append, List.mem_append]
          rintro (hin | hin)
          · exact hfin r' hr' hrec hin
          · exact hkept hc.1 r' hr' hrec (List.mem_singleton.mp hin)
      · rw [if_neg hc]
        refine .scan hh h hs (List.Sublist.refl _) h.localNodup (fun e he => Or.inl he) rfl
          (Or.inl ⟨_, rfl⟩) ?_
        exact ⟨hrest, hfin⟩
  | retain todo kept =>
    cases todo with
    | nil => cases hsub
    | cons r₀ rest =>
      obtain rfl : r₀ = r := Option.some.inj hsub
      obtain ⟨hsub', hfin⟩ := hsc
      refine .scan hh h hs (List.Sublist.refl _) h.localNodup (fun e he => Or.inl he) rfl
        (Or.inl ⟨_, rfl⟩) ?_
      cases keep with
      | true =>
        refine ⟨?_, fun r' hr' hrec => ⟨(hfin r' hr' hrec).1, fun hin => ?_⟩⟩
        · simp only [if_true, List.append_assoc, List.singleton_append]
          exact hsub'
        · rcases List.mem_append.mp hin with hin | hin
          · exact (hfin r' hr' hrec).2 hin
          · exact hkept rfl r' hr' hrec (List.mem_singleton.mp hin)
      | false =>
        refine ⟨?_, fun r' hr' hrec => hfin r' hr' hrec⟩
        refine List.Sublist.trans ?_ hsub'
        exact List.Sublist.append (List.Sublist.refl _) (List.sublist_cons_self r₀ rest)

/-! ## The tests -/

/-- Nobody writes a ring that is handed off. -/
theorem handedOff_unsettled (hh : HoldInv s) {r : Nat} (hoff : (s.rings r).handedOff = true)
    (t : Nat) : ¬ Settles s t r := by
  have hf := hh.fit t
  unfold Fit at hf
  have hcon : (s.rings r).handedOff = false → False := by
    intro h
    rw [hoff] at h
    cases h
  rintro (⟨hring, hpc⟩ | hpc)
  · cases hpc' : (s.threads t).pc with
    | idle | reserve | spin | publish | markHandedOff =>
      simp only [hpc'] at hf
      exact hcon (hf r hring).2.1
    | _ =>
      rw [hpc'] at hpc
      cases hpc
  · simp only [hpc] at hf
    exact hcon hf.2.1

/-- A pooled ring that is unwritten and unreserved, not in the pool and in nobody's hand, is
free. -/
theorem unreserved_free (hh : HoldInv s) {r : Nat} (hrec : (s.rings r).recyclable = true)
    (hset : ∀ t, ¬ Settles s t r) (hres : (s.rings r).helperReserved = false)
    (hsp : r ∉ s.spares) (hno : ∀ t, inHand (s.threads t).pc ≠ some r ∧
      ¬ ((s.threads t).pc = .recycle ∧ (s.threads t).ring = some r)) : Free s r := by
  refine ⟨hsp, fun t hold => ?_⟩
  have hf := hh.fit t
  unfold Fit at hf
  rcases hold with ⟨hring, hpc | hpc | ⟨-, hpc⟩⟩ | hin
  · exact hset t (Or.inl ⟨hring, hpc⟩)
  · cases hpc' : (s.threads t).pc with
    | formatWait | format p payload | pushLines payload =>
      simp only [hpc'] at hf
      have hv := (hf r hring).1
      rw [hres] at hv
      cases hv
    | recycle => exact (hno t).2 ⟨hpc', hring⟩
    | _ =>
      rw [hpc'] at hpc
      cases hpc
  · rw [hrec] at hpc
    cases hpc
  · exact (hno t).1 hin

/-- An access that ends with nothing in hand. -/
theorem DrainStep.empty (hh : HoldInv s) (h : DrainOwn s) (hreg : s'.registry = s.registry)
    (hrings : s'.drain.rings = s.drain.rings) (hs : scanning s.drain.pc = false)
    (hs' : scanning s'.drain.pc = false) (hdue : Sys.due s'.drain = []) (htested : Tested s')
    (hpushes : ∀ ctx r, s'.drain.pc ≠ .recycle ctx r) : DrainStep s s' := by
  refine .quiet hh h hreg hrings hs hs' ?_ ?_ htested fun ctx r hpc => absurd hpc (hpushes ctx r)
  · rw [hdue]
    exact List.nil_sublist _
  · rw [hdue]
    exact fun _ _ _ => List.not_mem_nil

/-- The access of the drain, whichever it is. -/
theorem drain_step (hh : HoldInv s) (h : DrainOwn s) (hok : OwnOk s .drain)
    (hstep : step cfg s .drain = some s') : DrainStep s s' := by
  have hm : DrainMove cfg s s' := drainStep_move hstep
  have htested := h.tested
  unfold Tested at htested
  cases hm with
  | leave hpc | stale hpc | skip hpc | keepEntry hpc | finalDone hpc | entry hpc | takeLines hpc
  | deliver hpc | delivered hpc | lastPoll hpc | worked hpc | idleDirty hpc | idleClean hpc
  | lastFlush hpc | flush hpc | again hpc | unreserved hpc =>
    exact .empty hh h rfl rfl (by rw [hpc]; rfl) rfl rfl trivial nofun
  | enter hpc hsh hnext =>
    rcases hnext with rfl | ⟨-, rfl⟩
    all_goals exact .empty hh h rfl rfl (by rw [hpc]; rfl) rfl rfl trivial nofun
  | pollDone hpc he hnext =>
    rcases hnext with ⟨-, rfl⟩ | ⟨-, rfl⟩
    all_goals exact .empty hh h rfl rfl (by rw [hpc]; rfl) rfl rfl trivial nofun
  | lock hpc hl =>
    refine ⟨List.Sublist.refl _, h.localNodup, fun e he => Or.inl he, nofun, ?_, List.nodup_nil,
      nofun, nofun, nofun, trivial, nofun⟩
    exact ⟨List.Sublist.refl _, nofun⟩
  | syncNext hpc hsub => exact syncNext_step hh h hpc hsub
  | @syncHalf phase r hpc hsub hl =>
    have hs : scanning s.drain.pc = true := by
      rw [hpc]
      rfl
    have hdue : Sys.due s.drain = s.drain.finalize := by
      unfold Sys.due
      rw [hpc]
    have hsc := h.scanned
    refine ⟨List.Sublist.refl _, h.localNodup, fun e he => Or.inl he, ?_, ?_, ?_, ?_, ?_, nofun,
      trivial, nofun⟩
    · intro phase' hpc'
      cases hpc'
      exact ⟨r, hsub, hl⟩
    · unfold Scanned at hsc ⊢
      rw [hpc] at hsc
      cases phase <;> exact hsc
    · change s.drain.finalize.Nodup
      rw [← hdue]
      exact h.dueNodup
    · intro r' hr'
      have hr₀ : r' ∈ Sys.due s.drain := hdue ▸ hr'
      exact ⟨hh.bounded r' (Or.inl (due_known hr₀)), by rw [hpc]; nofun, h.dueFree r' hr₀⟩
    · intro _ r' hr' hrec
      exact h.dueDead hs r' (hdue ▸ hr') hrec
  | @syncLive phase r hpc hsub hl =>
    exact syncDecide_step hh h hpc hsub (fun _ => Or.inl hl) nofun
  | @syncDead phase r hpc hsub =>
    exact syncDecide_step hh h hpc hsub (fun hk => Or.inr hk)
      fun hk => ⟨h.half phase r hpc hsub, hk⟩
  | @finalRing r rest hpc hf =>
    refine .quiet hh h rfl rfl (by rw [hpc]; rfl) rfl ?_ (by rw [hpc]; nofun) trivial nofun
    unfold Sys.due
    rw [hpc, hf]
  | @mark ctx r hpc =>
    refine .quiet hh h rfl rfl (by rw [hpc]; rfl) rfl ?_ (by rw [hpc]; nofun) trivial nofun
    unfold Sys.due
    rw [hpc]
    cases ctx <;> exact List.Sublist.refl _
  | @passDone ctx r hpc =>
    refine .quiet hh h rfl rfl (by rw [hpc]; rfl) rfl ?_ (by rw [hpc]; nofun) trivial nofun
    unfold Sys.due
    rw [hpc]
    cases ctx <;> exact List.Sublist.refl _
  | @pass ctx r p p' ring' x hpc hp hst =>
    refine .quiet hh h rfl rfl (by rw [hpc]; rfl) rfl ?_ (by rw [hpc]; nofun) trivial nofun
    unfold Sys.due
    rw [hpc]
    cases ctx <;> exact List.Sublist.refl _
  | @clear ctx r hpc =>
    cases ctx with
    | poll i k => exact .empty hh h rfl rfl (by rw [hpc]; rfl) rfl rfl trivial nofun
    | final =>
      have hdue : Sys.due s.drain = r :: s.drain.finalize := by
        unfold Sys.due
        rw [hpc]
      unfold afterPass
      cases cfg.segmented with
      | true =>
        refine .quiet hh h rfl rfl (by rw [hpc]; rfl) rfl ?_ (by rw [hpc]; nofun) trivial nofun
        rw [hdue]
        exact List.Sublist.refl _
      | false =>
        refine .quiet hh h rfl rfl (by rw [hpc]; rfl) rfl ?_ (by rw [hpc]; nofun) trivial nofun
        rw [hdue]
        exact List.sublist_cons_self _ _
  | @handedOff i r k hpc hoff =>
    refine .empty hh h rfl rfl (by rw [hpc]; rfl) rfl rfl ?_ nofun
    exact fun _ _ t hset => handedOff_unsettled hh hoff t hset
  | @notReserved i r k hpc hres =>
    refine .empty hh h rfl rfl (by rw [hpc]; rfl) rfl rfl ?_ nofun
    simp only [hpc] at htested
    intro hrec hreg hser
    unfold OwnOk at hok
    simp only [hpc] at hok
    obtain ⟨hsp, hno⟩ := hok hrec hreg hser hres
    exact unreserved_free hh hrec (htested hreg hser) hres hsp hno
  | @sameSerial i r k hpc hk =>
    refine .empty hh h rfl rfl (by rw [hpc]; rfl) rfl rfl ?_ nofun
    simp only [hpc] at htested
    exact htested
  | @loadHead i r k hpc =>
    refine .empty hh h rfl rfl (by rw [hpc]; rfl) rfl rfl ?_ nofun
    simp only [hpc] at htested
    exact htested
  | @drained i r k hpc =>
    refine .empty hh h rfl rfl (by rw [hpc]; rfl) rfl rfl ?_ nofun
    simp only [hpc] at htested
    exact htested
  | @retired i r k hpc hl hk hreg =>
    -- the tests have shown the ring to be free; here it leaves both lists
    have he : s.drain.rings[i]? = some (r, k) := h.entry i r k (by rw [hpc]; rfl)
    obtain ⟨hn, hno⟩ := swapRemove_fst he h.localNodup
    simp only [hpc] at htested
    have hdue : ∀ {pc : LoopPc}, (pc = .markRecycled (.poll i k) r ∨ pc = .entry i) →
        DrainStep s { s with
          registry := s.registry.filter (· ≠ r)
          drain := { s.drain with rings := swapRemove s.drain.rings i, pc := pc } } := by
      intro pc hpc'
      have hin : ∀ r', r' ∈ Sys.due { s.drain with rings := swapRemove s.drain.rings i, pc := pc } →
          r' = r := by
        intro r' hr'
        rcases hpc' with rfl | rfl
        · exact List.mem_singleton.mp hr'
        · cases hr'
      refine ⟨List.filter_sublist, hn, fun e he => Or.inl (mem_swapRemove he), ?_, ?_, ?_, ?_, ?_,
        ?_, ?_, ?_⟩
      · rcases hpc' with rfl | rfl <;> nofun
      · rcases hpc' with rfl | rfl <;> trivial
      · rcases hpc' with rfl | rfl
        · exact List.nodup_singleton r
        · exact List.nodup_nil
      · intro r' hr'
        obtain rfl := hin r' hr'
        exact ⟨hh.bounded r' (Or.inl (Or.inl hreg)), by rw [hpc]; nofun,
          fun hrec => htested hrec hreg hk⟩
      · rcases hpc' with rfl | rfl <;> nofun
      · intro _ r' hr' _
        obtain rfl := hin r' hr'
        refine ⟨fun hmem => ?_, hno⟩
        have hne := List.of_mem_filter hmem
        simp at hne
      · rcases hpc' with rfl | rfl <;> trivial
      · rcases hpc' with rfl | rfl <;> nofun
    refine hdue ?_
    split
    · exact Or.inl rfl
    · exact Or.inr rfl
  | @markRecycled ctx r hpc hrec hnew =>
    refine .quiet hh h rfl rfl (by rw [hpc]; rfl) rfl ?_ (by rw [hpc]; nofun) trivial ?_
    · unfold Sys.due
      rw [hpc]
      cases ctx <;> exact List.Sublist.refl _
    · intro ctx' r' hpc'
      cases hpc'
      exact hrec
  | @notRecycled ctx r hpc hr =>
    cases ctx with
    | poll i k => exact .empty hh h rfl rfl (by rw [hpc]; rfl) rfl rfl trivial nofun
    | final =>
      refine .quiet hh h rfl rfl (by rw [hpc]; rfl) rfl ?_ (by rw [hpc]; nofun) trivial nofun
      unfold Sys.due
      rw [hpc]
      exact List.sublist_cons_self _ _
  | @recycle ctx r hpc =>
    cases ctx with
    | poll i k => exact .empty hh h rfl rfl (by rw [hpc]; rfl) rfl rfl trivial nofun
    | final =>
      have hdue : Sys.due s.drain = r :: s.drain.finalize := by
        unfold Sys.due
        rw [hpc]
      refine .quiet hh h rfl rfl (by rw [hpc]; rfl) rfl ?_ ?_ trivial nofun
      · rw [hdue]
        exact List.sublist_cons_self _ _
      · intro ctx' r' hpc'
        rw [hpc] at hpc'
        cases hpc'
        have hn := h.dueNodup
        rw [hdue] at hn
        exact (List.nodup_cons.mp hn).1

/-! ## The invariant -/

/-- Each pooled segment has one owner. -/
structure OwnInv (s : Sys) : Prop where
  hold : HoldInv s
  drain : DrainOwn s

theorem init_hold : HoldInv (Sys.init cfg) where
  bounded := init_bounded
  nodup := by
    unfold Sys.init
    dsimp only
    split
    · exact List.nodup_reverse.mpr List.nodup_range
    · exact List.nodup_nil
  pooled := by
    rintro r - t (⟨h, -⟩ | h)
    · cases h
    · cases h
  alone := by
    rintro r t t' (⟨h, -⟩ | h) -
    · cases h
    · cases h
  fit := by
    intro t r h
    cases h

theorem init_own : OwnInv (Sys.init cfg) := ⟨init_hold, init_drainOwn⟩

theorem step_own {a : Action} (h : OwnInv s) (hok : OwnOk s a) (hstep : step cfg s a = some s') :
    OwnInv s' where
  hold := step_hold h.hold h.drain.fair hok hstep
  drain := by
    by_cases ha : a = .drain
    · subst ha
      exact (drain_step h.hold h.drain hok hstep).keeps h.hold h.drain hstep
    · exact other_drainOwn h.hold h.drain hok ha hstep

end Sys

end Ticklog
