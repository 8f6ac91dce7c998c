import Ticklog.System.Classic
import Ticklog.System.Conservation

/-!
# What shutdown delivers under `Drop` and `Block`

A dead ring with records to deliver is in somebody's custody: in a list a scan has still
to go through, in the finalize list, in the final pass, in the registry or in the drain's
local list (`InCustody`). One step of the logger breaks this, the exit of a thread inside
`sync_rings`: a ring that dies after the first scan passed it and before the later scans
load its `live` is taken from both lists and finalized by none (`overlooked`). Runs without
such an exit deliver everything published before `Guard::drop` starts.
-/

namespace Ticklog

open Lib

/-- `drain_ring_inner` under way will hand over the first `due` records. -/
def PassDue (due : Nat) : Pass → Prop
  | .loadTail | .loadCache _ | .loadHead _ => True
  | .scan _ hc => due ≤ hc
  | _ => False

/-- Unless all of them are handed over. -/
theorem Pass.step_due {ring ring' : Ring} {d due : Nat} {p p' : Pass} {x : Option Rec}
    (hat : PassAt ring d p) (hdue : PassDue due p) (hhead : due ≤ ring.head) (hlt : d < due)
    (hstep : Pass.step ring p = (p', ring', x)) : PassDue due p' := by
  cases p with
  | loadTail =>
    cases hstep
    trivial
  | loadCache t =>
    obtain ⟨rfl, ht, hc⟩ := hat
    simp only [Pass.step, hc, if_true] at hstep
    cases hstep
    trivial
  | loadHead t =>
    obtain ⟨rfl, ht, hc⟩ := hat
    simp only [Pass.step] at hstep
    split at hstep
    next heq =>
      -- caught up: then nothing was due
      omega
    next =>
      cases hstep
      exact hhead
  | scan t hc =>
    obtain ⟨rfl, hle, hhc⟩ := hat
    change due ≤ hc at hdue
    simp only [Pass.step] at hstep
    split at hstep
    next hlt' =>
      have hlen : t < ring.cells.length := Nat.lt_of_lt_of_le hlt' hhc
      rw [Ring.storage_getElem? hlen, List.getElem?_eq_getElem hlen] at hstep
      cases hstep
      exact hdue
    next hge => omega
  | storeTail t hc => exact hdue.elim
  | storeCache hc => exact hdue.elim
  | finished => exact hdue.elim

namespace Sys

variable {cfg : Config} {s s' : Sys}

/-! ## Custody -/

/-- In a list the drain will go through again. -/
def Later (s : Sys) (r : Nat) : Prop :=
  s.drain.last = false ∧ (r ∈ s.registry ∨ r ∈ s.drain.rings.map Prod.fst)

/-- Where a dead ring that still owes its first `due` records is. -/
def InCustody (due : Nat) (s : Sys) (r : Nat) : Prop :=
  match s.drain.pc with
  | .sync (.scanRegistry todo) _ =>
    r ∈ s.drain.finalize ∨ r ∈ todo ∨ (r ∈ s.drain.rings.map Prod.fst ∧ r ∉ s.registry)
  | .sync (.scanLocal todo) _ =>
    r ∈ s.drain.finalize ∨ (r ∈ todo.map Prod.fst ∧ r ∉ s.registry)
  | .sync (.reconcile i) _ =>
    r ∈ s.drain.finalize ∨ (s.drain.last = false ∧ r ∈ (s.drain.rings.take i).map Prod.fst)
  | .sync (.addNew _) _ | .sync (.retain _ _) _ =>
    r ∈ s.drain.finalize ∨ (s.drain.last = false ∧ r ∈ s.drain.rings.map Prod.fst)
  | .mark .final r' => r ∈ s.drain.finalize ∨ r = r' ∨ Later s r
  | .pass .final r' p => r ∈ s.drain.finalize ∨ (r = r' ∧ PassDue due p) ∨ Later s r
  | .finalNext | .clear .final _ => r ∈ s.drain.finalize ∨ Later s r
  | .lock => r ∈ s.registry ∨ r ∈ s.drain.rings.map Prod.fst
  | _ => Later s r

/-- `due r` records of ring `r` are owed to the sink. -/
structure Custody (due : Nat → Nat) (s : Sys) : Prop where
  adding : ∀ todo half, s.drain.pc = .sync (.addNew todo) half → ∀ r, r ∈ s.registered →
    (s.rings r).live = true → r ∈ s.drain.rings.map Prod.fst ∨ r ∈ todo
  retaining : ∀ todo kept half, s.drain.pc = .sync (.retain todo kept) half → ∀ r,
    r ∈ s.registered → (s.rings r).live = true → r ∈ s.drain.rings.map Prod.fst
  dead : ∀ r, r ∈ s.registered → (s.rings r).live = false → done s r < due r →
    InCustody (due r) s r

/-- A ring with this `live` flag is passed over by the scan under way: the first scan saw it
alive, the others will see it dead. -/
def overlooked (s : Sys) (r : Nat) : Bool :=
  match s.drain.pc with
  | .sync (.scanRegistry todo) _ => decide (r ∉ todo)
  | .sync (.scanLocal _) _ => true
  | .sync (.reconcile i) _ => decide (r ∉ (s.drain.rings.take i).map Prod.fst)
  | .sync (.addNew _) _ => decide (r ∉ s.drain.rings.map Prod.fst)
  | _ => false

/-- Before `Guard::drop`, no thread with records in `[tail, head)` exits where the scan under
way passes its ring over. -/
def Attended (s : Sys) (a : Action) : Prop :=
  match a with
  | .exit t =>
    match (s.threads t).ring with
    | some r =>
      s.guard = .alive → overlooked s r = true → (s.rings r).tail = (s.rings r).head
    | none => True
  | _ => True

theorem attended_exit {s : Sys} {t : Nat} : Attended s (.exit t) ↔
    ∀ r ∈ (s.threads t).ring, s.guard = .alive → overlooked s r = true →
      (s.rings r).tail = (s.rings r).head := by
  unfold Attended
  dsimp only
  cases (s.threads t).ring <;> simp

instance (s : Sys) (a : Action) : Decidable (Attended s a) :=
  match a with
  | .exit _ => decidable_of_iff' _ attended_exit
  | .log _ _ | .thread _ | .wake _ | .drain | .guard => inferInstanceAs (Decidable True)

/-! ## Lists that lose an entry -/

theorem mem_take_set {l : List (Nat × Nat)} {i r : Nat} {e : Nat × Nat}
    (h : r ∈ (l.take i).map Prod.fst) : r ∈ ((l.set i e).take (i + 1)).map Prod.fst := by
  have hsub : l.take i = ((l.set i e).take (i + 1)).take i := by
    rw [List.take_take, Nat.min_eq_left (Nat.le_succ i), List.take_set_of_le (Nat.le_refl i)]
  rw [hsub] at h
  obtain ⟨x, hx, hxr⟩ := List.mem_map.mp h
  exact List.mem_map.mpr ⟨x, List.mem_of_mem_take hx, hxr⟩

/-! ## The drain's steps -/

/-- Positions whose custody is that of the lists alone. -/
def listsOnly : LoopPc → Bool
  | .sync _ _ | .finalNext | .mark .final _ | .pass .final _ _ | .clear .final _ | .lock => false
  | _ => true

theorem inCustody_later {due r : Nat} (hpc : listsOnly s.drain.pc = true) :
    InCustody due s r ↔ Later s r := by
  unfold InCustody
  split
  all_goals first
    | rfl
    | (rename_i h; rw [h] at hpc; cases hpc)

/-- Custody at a position the lists decide, from one the lists decide. -/
theorem custody_lists {due r : Nat} (hpc : listsOnly s.drain.pc = true)
    (hpc' : listsOnly s'.drain.pc = true) (hreg : s'.registry = s.registry)
    (hrings : s'.drain.rings = s.drain.rings) (hlast : s'.drain.last = s.drain.last)
    (h : InCustody due s r) : InCustody due s' r := by
  rw [inCustody_later hpc] at h
  rw [inCustody_later hpc']
  unfold Later at *
  rwa [hreg, hrings, hlast]

theorem syncNext_custody {due r : Nat} {phase : SyncPhase} {half : Bool}
    (hpc : s.drain.pc = .sync phase half) (hsub : s.syncSubject phase = none)
    (h : InCustody due s r) : InCustody due (syncNext s phase) r := by
  unfold InCustody at h
  cases phase with
  | scanRegistry todo =>
    have htodo : todo = [] := List.head?_eq_none_iff.mp hsub
    subst htodo
    simp only [hpc, List.not_mem_nil, false_or] at h
    exact h
  | scanLocal todo =>
    have htodo : todo = [] := List.map_eq_nil_iff.mp (List.head?_eq_none_iff.mp (by
      rw [List.head?_map]
      exact hsub))
    subst htodo
    simp only [hpc, List.map_nil, List.not_mem_nil, false_and, or_false] at h
    exact Or.inl h
  | reconcile i =>
    simp only [hpc] at h
    dsimp only [syncNext]
    split
    next hi =>
      refine h.imp id fun ⟨hl, hr⟩ => ⟨hl, ?_⟩
      rw [swapRemove_take _ hi]
      exact hr
    next =>
      refine h.imp id fun ⟨hl, hr⟩ => ⟨hl, ?_⟩
      obtain ⟨e, he, her⟩ := List.mem_map.mp hr
      exact List.mem_map.mpr ⟨e, List.mem_of_mem_take he, her⟩
  | addNew todo =>
    simp only [hpc] at h
    exact h
  | retain todo kept =>
    simp only [hpc] at h
    exact h.imp id fun ⟨hl, hr⟩ => ⟨hl, Or.inr hr⟩

/-- A verdict on one ring keeps every dead ring in custody; the verdict `keep` is for a live
one. -/
theorem syncDecide_custody {due r r₀ : Nat} {phase : SyncPhase} {half keep : Bool}
    (hpc : s.drain.pc = .sync phase half) (hsub : s.syncSubject phase = some r₀)
    (hkeep : keep = true → r ≠ r₀) (h : InCustody due s r) :
    InCustody due (syncDecide keep s phase) r := by
  have hh := h
  unfold InCustody at h
  unfold syncDecide
  split
  next r₁ rest =>
    have hr₁ : r₁ = r₀ := Option.some.inj hsub
    simp only [hpc, List.mem_cons] at h
    change r ∈ (if keep then s.drain.finalize else s.drain.finalize ++ [r₁]) ∨ r ∈ rest ∨
      (r ∈ s.drain.rings.map Prod.fst ∧ r ∉ s.registry)
    rcases h with h | (h | h) | h
    · left
      split
      · exact h
      · exact List.mem_append_left _ h
    · left
      rw [if_neg fun hk => hkeep hk (h.trans hr₁)]
      exact List.mem_append_right _ (List.mem_singleton.mpr h)
    · exact Or.inr (Or.inl h)
    · exact Or.inr (Or.inr h)
  next r₁ k rest =>
    have hr₁ : r₁ = r₀ := Option.some.inj hsub
    simp only [hpc, List.map_cons, List.mem_cons] at h
    change r ∈ (if ¬ keep = true ∧ r₁ ∉ s.registry then s.drain.finalize ++ [r₁]
      else s.drain.finalize) ∨ (r ∈ rest.map Prod.fst ∧ r ∉ s.registry)
    rcases h with h | ⟨h | h, hreg⟩
    · left
      split
      · exact List.mem_append_left _ h
      · exact h
    · left
      rw [if_pos ⟨fun hk => hkeep hk (h.trans hr₁), h ▸ hreg⟩]
      exact List.mem_append_right _ (List.mem_singleton.mpr h)
    · exact Or.inr ⟨h, hreg⟩
  next i =>
    simp only [hpc] at h
    split
    next r₁ k he =>
      have hi : i < s.drain.rings.length := (List.getElem?_eq_some_iff.mp he).1
      split
      · exact h.imp id fun ⟨hl, hr⟩ => ⟨hl, mem_take_set hr⟩
      · refine h.imp id fun ⟨hl, hr⟩ => ⟨hl, ?_⟩
        rw [swapRemove_take _ hi]
        exact hr
    next => exact hh
  next r₁ rest =>
    simp only [hpc] at h
    refine h.imp id fun ⟨hl, hr⟩ => ⟨hl, ?_⟩
    simp only
    split
    · rw [List.map_append]
      exact List.mem_append_left _ hr
    · exact hr
  next r₁ rest kept =>
    simp only [hpc] at h
    exact h
  next => exact hh

/-- A dead ring with records due stays in custody of the drain. -/
theorem drain_inCustody (hseg : cfg.segmented = false) (hp : PlainInv s) (hdel : DeliveryInv s)
    (hret : RetireInv s) (hclassic : ClassicInv s) (hm : DrainMove cfg s s') {due r : Nat}
    (hhead : due ≤ (s.rings r).head) (hdead : (s.rings r).live = false)
    (hlt : done s r < due) (h : InCustody due s r) : InCustody due s' r := by
  have hh := h
  have hlists : ∀ {s₁ : Sys}, listsOnly s.drain.pc = true → listsOnly s₁.drain.pc = true →
      s₁.registry = s.registry → s₁.drain.rings = s.drain.rings →
      s₁.drain.last = s.drain.last → InCustody due s₁ r :=
    fun hpc hpc' hreg hrings hlast => custody_lists hpc hpc' hreg hrings hlast hh
  unfold InCustody at h
  cases hm with
  | syncNext hpc hsub => exact syncNext_custody hpc hsub hh
  | @syncLive phase r₀ hpc hsub hl =>
    refine syncDecide_custody hpc hsub (fun _ => ?_) hh
    rintro rfl
    rw [hdead] at hl
    cases hl
  | @syncDead phase r₀ hpc hsub =>
    rw [hp.noHelper]
    exact syncDecide_custody hpc hsub nofun hh
  | @syncHalf phase r₀ hpc hsub hl =>
    unfold InCustody
    rw [drainTo_drain]
    cases phase <;> simp only [hpc] at h <;> exact h
  | leave hpc hsh =>
    simp only [hpc] at h
    exact h.2
  | enter hpc hsh hnext =>
    simp only [hpc] at h
    rcases hnext with rfl | ⟨-, rfl⟩
    · exact h.2
    · exact h
  | lock hpc hl =>
    simp only [hpc] at h
    refine Or.inr ?_
    by_cases hreg : r ∈ s.registry
    · exact Or.inl hreg
    · exact Or.inr ⟨h.resolve_left hreg, hreg⟩
  | @finalRing r₀ rest hpc hf =>
    simp only [hpc, hf, List.mem_cons] at h
    change r ∈ rest ∨ r = r₀ ∨ Later s r
    rcases h with (h | h) | h
    · exact Or.inr (Or.inl h)
    · exact Or.inl h
    · exact Or.inr (Or.inr h)
  | finalDone hpc hf =>
    simp only [hpc, hf, List.not_mem_nil, false_or] at h
    exact h
  | @mark ctx r₀ hpc =>
    cases ctx with
    | final =>
      simp only [hpc] at h
      exact h.imp id (Or.imp (fun h => ⟨h, trivial⟩) id)
    | poll i k =>
      simp only [hpc] at h
      exact h
  | @pass ctx r₀ p p' ring' x hpc hp' hstep =>
    cases ctx with
    | final =>
      simp only [hpc] at h
      refine h.imp id (Or.imp (fun ⟨hr, hdue⟩ => ⟨hr, ?_⟩) id)
      subst hr
      have hread := (hdel r).reader
      rw [hpc, reading_pass] at hread
      exact Pass.step_due hread hdue hhead hlt hstep
    | poll i k =>
      simp only [hpc] at h
      exact h
  | @passDone ctx r₀ hpc =>
    cases ctx with
    | final =>
      simp only [hpc] at h
      exact h.imp id fun h => h.resolve_left fun ⟨_, hd⟩ => hd
    | poll i k =>
      simp only [hpc] at h
      exact h
  | @clear ctx r₀ hpc =>
    cases ctx with
    | final =>
      simp only [hpc] at h
      unfold InCustody
      simp only [drainTo_drain, afterPass, hseg, Bool.false_eq_true, if_false]
      exact h
    | poll i k =>
      simp only [hpc] at h
      exact h
  | @retired i r₀ k hpc hl hk hr =>
    unfold RetireInv at hret
    simp only [hpc] at hret
    have hoff := hret.handedOff
    rw [hclassic.noHandoff] at hoff
    cases hoff
  | pollDone hpc he hnext =>
    rcases hnext with ⟨-, rfl⟩ | ⟨-, rfl⟩
    all_goals exact hlists (by rw [hpc]; rfl) rfl rfl rfl rfl
  | @notRecycled ctx r₀ hpc hr =>
    simp only [hpc] at h
    cases ctx with
    | final => exact Or.inr h
    | poll i k => exact h
  | @recycle ctx r₀ hpc => exact absurd hpc (hp.noRecycle _ _)
  | entry hpc | stale hpc | skip hpc | unreserved hpc | keepEntry hpc | handedOff hpc
  | notReserved hpc | sameSerial hpc | loadHead hpc | drained hpc | markRecycled hpc
  | takeLines hpc | deliver hpc | delivered hpc | lastPoll hpc | worked hpc | idleDirty hpc
  | idleClean hpc | lastFlush hpc | flush hpc | again hpc =>
    exact hlists (by rw [hpc]; rfl) rfl rfl rfl rfl

/-! ## What live rings rely on -/

/-- A scan's step keeps what the live rings rely on in `addNew` and `retain`. -/
structure LiveScan (s s' : Sys) : Prop where
  adding : ∀ todo half, s'.drain.pc = .sync (.addNew todo) half → ∀ r, r ∈ s.registered →
    (s.rings r).live = true → r ∈ s'.drain.rings.map Prod.fst ∨ r ∈ todo
  retaining : ∀ todo kept half, s'.drain.pc = .sync (.retain todo kept) half → ∀ r,
    r ∈ s.registered → (s.rings r).live = true → r ∈ s'.drain.rings.map Prod.fst

theorem syncNext_live {due : Nat → Nat} (hreg : RegistryInv s) (hclassic : ClassicInv s)
    (h : Custody due s) {phase : SyncPhase} {half : Bool} (hpc : s.drain.pc = .sync phase half)
    (hsub : s.syncSubject phase = none) : LiveScan s (syncNext s phase) := by
  cases phase with
  | scanRegistry todo => exact ⟨nofun, nofun⟩
  | scanLocal todo => exact ⟨nofun, nofun⟩
  | reconcile i =>
    have hlisted : s.listed = s.registry := listed_eq (by rw [hpc]; nofun)
    dsimp only [syncNext]
    split
    · exact ⟨nofun, nofun⟩
    · refine ⟨fun todo half' hpc' r hr hl => Or.inr ?_, nofun⟩
      cases hpc'
      rw [← hlisted]
      refine (hreg.live r hr hl).resolve_right fun hR => ?_
      have hoff := hR.handedOff
      rw [hclassic.noHandoff] at hoff
      cases hoff
  | addNew todo =>
    have htodo : todo = [] := List.head?_eq_none_iff.mp hsub
    subst htodo
    refine ⟨nofun, fun todo' kept half' hpc' r hr hl => ?_⟩
    exact (h.adding _ _ hpc r hr hl).resolve_right List.not_mem_nil
  | retain todo kept => exact ⟨nofun, nofun⟩

theorem syncDecide_live {due : Nat → Nat} (h : Custody due s) {phase : SyncPhase}
    {half keep : Bool} {r₀ : Nat} (hpc : s.drain.pc = .sync phase half)
    (hsub : s.syncSubject phase = some r₀) (hkeep : keep = false → (s.rings r₀).live = false) :
    LiveScan s (syncDecide keep s phase) := by
  have hsame : LiveScan s s := ⟨h.adding, h.retaining⟩
  unfold syncDecide
  split
  next => exact ⟨nofun, nofun⟩
  next => exact ⟨nofun, nofun⟩
  next =>
    split
    · split <;> exact ⟨nofun, nofun⟩
    · exact hsame
  next r₁ rest =>
    have hr₁ : r₁ = r₀ := Option.some.inj hsub
    refine ⟨fun todo half' hpc' r hr hl => ?_, nofun⟩
    cases hpc'
    simp only
    have hthen := h.adding _ _ hpc r hr hl
    rw [List.mem_cons] at hthen
    by_cases hmem : r ∈ s.drain.rings.map Prod.fst
    · left
      split
      · rw [List.map_append]
        exact List.mem_append_left _ hmem
      · exact hmem
    · refine (hthen.resolve_left hmem).imp (fun heq => ?_) id
      -- the ring under the scan is live, so it is added
      subst heq
      have hk : keep = true := by
        cases hk : keep with
        | true => rfl
        | false =>
          rw [hr₁, hkeep hk] at hl
          cases hl
      rw [if_pos ⟨hk, hmem⟩, List.map_append]
      exact List.mem_append_right _ (List.mem_singleton.mpr rfl)
  next r₁ rest kept =>
    exact ⟨nofun, fun todo' kept' half' hpc' r hr hl => h.retaining _ _ _ hpc r hr hl⟩
  next => exact hsame

/-! ## All steps -/

/-- Everything a run under a classic policy carries. -/
structure ClassicRun (s : Sys) : Prop where
  plain : PlainDelivery s
  retire : RetireInv s
  registry : RegistryInv s
  authored : Authored s
  guard : GuardInv s
  classic : ClassicInv s
  numbered : Numbered s

theorem init_classicRun (hpol : cfg.policy ≠ .nanoLog) : ClassicRun (Sys.init cfg) :=
  ⟨init_plainDelivery hpol, trivial, init_registry, init_authored, init_guard, init_classic,
    init_numbered⟩

theorem step_classicRun (hpol : cfg.policy ≠ .nanoLog) (hseg : cfg.segmented = false) {a : Action}
    (h : ClassicRun s) (hstep : step cfg s a = some s') : ClassicRun s' := by
  have hp := h.plain.1.1
  have hplain := step_delivery hpol h.plain hstep
  exact ⟨hplain, step_retire h.retire hp h.plain.2 hplain.2 hstep,
    step_registry h.registry h.retire hp hplain.2 hstep, step_authored h.authored hp hstep,
    step_guard h.guard hp hstep, step_classic hseg h.classic hp hstep,
    step_numbered h.numbered hstep⟩

/-- The rings that owe something are dead once the guard has marked what it found. -/
def DueMarked (due : Nat → Nat) (s : Sys) : Prop :=
  ∀ r, 0 < due r → (s.rings r).live = true →
    match s.guard with
    | .alive => True
    | .marking todo => r ∈ todo
    | _ => False

theorem drain_custody (hseg : cfg.segmented = false) {due : Nat → Nat} (h : ClassicRun s)
    (hc : Custody due s) (hdue : ∀ r, due r ≤ (s.rings r).head)
    (hstep : step cfg s .drain = some s') : Custody due s' := by
  have hm : DrainMove cfg s s' := drainStep_move hstep
  have hlive : LiveScan s s' → Custody due s' := by
    intro hs
    have hregd := (drain_keeps hm).registered
    have hl : ∀ r, (s'.rings r).live = (s.rings r).live := fun r => (drain_ring_frame hm r).live
    refine ⟨fun todo half hpc r hr => ?_, fun todo kept half hpc r hr => ?_, fun r hr hd hlt => ?_⟩
    · rw [hl]
      exact hs.adding todo half hpc r (hregd ▸ hr)
    · rw [hl]
      exact hs.retaining todo kept half hpc r (hregd ▸ hr)
    · rw [hl] at hd
      rw [hregd] at hr
      have hlt₀ : done s r < due r := Nat.lt_of_le_of_lt (done_mono hstep r) hlt
      exact drain_inCustody hseg h.plain.1.1 h.plain.2 h.retire h.classic hm (hdue r) hd hlt₀
        (hc.dead r hr hd hlt₀)
  -- away from `addNew` and `retain` live rings rely on nothing
  have hout : (∀ todo half, s'.drain.pc ≠ .sync (.addNew todo) half) →
      (∀ todo kept half, s'.drain.pc ≠ .sync (.retain todo kept) half) → Custody due s' :=
    fun h₁ h₂ => hlive ⟨fun _ _ hpc => absurd hpc (h₁ _ _), fun _ _ _ hpc => absurd hpc (h₂ _ _ _)⟩
  cases hm with
  | syncNext hpc hsub => exact hlive (syncNext_live h.registry h.classic hc hpc hsub)
  | syncLive hpc hsub hl => exact hlive (syncDecide_live hc hpc hsub nofun)
  | syncDead hpc hsub =>
    exact hlive (syncDecide_live hc hpc hsub fun _ => h.registry.half _ _ hpc hsub)
  | @syncHalf phase r₀ hpc hsub hl =>
    refine hlive ⟨fun todo half hpc' => ?_, fun todo kept half hpc' => ?_⟩
    · cases hpc'
      exact hc.adding _ _ hpc
    · cases hpc'
      exact hc.retaining _ _ _ hpc
  | enter hpc hsh hnext =>
    rcases hnext with rfl | ⟨-, rfl⟩
    all_goals exact hout nofun nofun
  | pollDone hpc he hnext =>
    rcases hnext with ⟨-, rfl⟩ | ⟨-, rfl⟩
    all_goals exact hout nofun nofun
  | @clear ctx r hpc =>
    cases ctx with
    | final =>
      refine hout ?_ ?_
      all_goals
        dsimp only [drainTo_drain, afterPass]
        cases cfg.segmented <;> nofun
    | poll i k => exact hout nofun nofun
  | retired hpc hl hk hr =>
    refine hout ?_ ?_
    all_goals
      simp only
      cases cfg.segmented <;> nofun
  | @notRecycled ctx r hpc hr => cases ctx <;> exact hout nofun nofun
  | @recycle ctx r hpc => cases ctx <;> exact hout nofun nofun
  | leave | lock | finalRing | finalDone | entry | stale | skip | unreserved | mark | passDone
  | pass | keepEntry | handedOff | notReserved | sameSerial | loadHead | drained | markRecycled
  | takeLines | deliver | delivered | lastPoll | worked | idleDirty | idleClean | lastFlush
  | flush | again => exact hout nofun nofun

/-- A ring that dies in this step is in custody: the scan under way does not pass it over. -/
theorem dying_inCustody {due : Nat → Nat} (h : ClassicRun s) (hc : Custody due s) {r : Nat}
    (hr : r ∈ s.registered) (hl : (s.rings r).live = true) (hlast : s.drain.last = false)
    (hseen : overlooked s r = false) : InCustody (due r) s r := by
  have hlisted : r ∈ s.listed := by
    refine (h.registry.live r hr hl).resolve_right fun hR => ?_
    have hoff := hR.handedOff
    rw [h.classic.noHandoff] at hoff
    cases hoff
  have hreg : (∀ phase half, s.drain.pc ≠ .sync phase half) → r ∈ s.registry := by
    intro hpc
    rwa [listed_eq fun _ _ _ => hpc _ _] at hlisted
  unfold overlooked at hseen
  unfold InCustody
  split
  next todo half hpc =>
    simp only [hpc, decide_eq_false_iff_not, not_not] at hseen
    exact Or.inr (Or.inl hseen)
  next todo half hpc => simp [hpc] at hseen
  next i half hpc =>
    simp only [hpc, decide_eq_false_iff_not, not_not] at hseen
    exact Or.inr ⟨hlast, hseen⟩
  next todo half hpc =>
    simp only [hpc, decide_eq_false_iff_not, not_not] at hseen
    exact Or.inr ⟨hlast, hseen⟩
  next todo kept half hpc => exact Or.inr ⟨hlast, hc.retaining _ _ _ hpc r hr hl⟩
  next hpc => exact Or.inr (Or.inr ⟨hlast, Or.inl (hreg (by rw [hpc]; nofun))⟩)
  next hpc => exact Or.inr (Or.inr ⟨hlast, Or.inl (hreg (by rw [hpc]; nofun))⟩)
  next hpc => exact Or.inr ⟨hlast, Or.inl (hreg (by rw [hpc]; nofun))⟩
  next hpc => exact Or.inr ⟨hlast, Or.inl (hreg (by rw [hpc]; nofun))⟩
  next hpc => exact Or.inl (hreg (by rw [hpc]; nofun))
  next hn₁ hn₂ hn₃ hn₄ hn₅ _ _ _ _ _ =>
    refine ⟨hlast, Or.inl (hreg fun phase half hpc => ?_)⟩
    cases phase with
    | scanRegistry => exact hn₁ _ _ hpc
    | scanLocal => exact hn₂ _ _ hpc
    | reconcile => exact hn₃ _ _ hpc
    | addNew => exact hn₄ _ _ hpc
    | retain => exact hn₅ _ _ _ hpc

/-- Other agents leave the registry alone or, between two scans, add to it. -/
theorem step_listed {a : Action} (ha : a ≠ .drain) (hstep : step cfg s a = some s') :
    (s'.registry = s.registry ∧ s'.registered = s.registered) ∨
      (s.registry ⊆ s'.registry ∧ ∀ phase half, s.drain.pc ≠ .sync phase half) := by
  rcases step_registers hstep with ⟨hregd, hreg⟩ | ⟨t, r, rfl, hpc, hl, rfl⟩
  · exact Or.inl ⟨hreg ha, hregd⟩
  · exact Or.inr ⟨registerRing_registry, unlocked_not_sync hl⟩

/-- Custody while the drain stands still. -/
theorem inCustody_still {due r : Nat} (hd : s'.drain = s.drain)
    (hreg : s'.registry = s.registry ∨
      (s.registry ⊆ s'.registry ∧ ∀ phase half, s.drain.pc ≠ .sync phase half))
    (h : InCustody due s r) : InCustody due s' r := by
  have hlater : Later s r → Later s' r := by
    rintro ⟨hl, hr⟩
    refine ⟨hd ▸ hl, ?_⟩
    rw [hd]
    rcases hreg with heq | ⟨hsub, -⟩
    · rwa [heq]
    · exact hr.imp (fun hr => hsub hr) id
  rcases hreg with heq | ⟨hsub, hno⟩
  · unfold InCustody Later at *
    rw [hd, heq]
    exact h
  · unfold InCustody at h ⊢
    rw [hd]
    split at h
    next hpc => exact absurd hpc (hno _ _)
    next hpc => exact absurd hpc (hno _ _)
    next hpc => exact absurd hpc (hno _ _)
    next hpc => exact absurd hpc (hno _ _)
    next hpc => exact absurd hpc (hno _ _)
    next => exact h.imp id (Or.imp id hlater)
    next => exact h.imp id (Or.imp id hlater)
    next => exact h.imp id hlater
    next => exact h.imp id hlater
    next => exact h.imp (fun h => hsub h) id
    next => exact hlater h

/-- Custody under the steps of the other agents. -/
theorem other_custody {due : Nat → Nat} {a : Action} (ha : a ≠ .drain) (h : ClassicRun s)
    (hc : Custody due s) (hdue : ∀ r, due r ≤ (s.rings r).head) (hmark : DueMarked due s)
    (hok : Attended s a) (hstep : step cfg s a = some s') : Custody due s' := by
  have hp := h.plain.1.1
  obtain ⟨hd, -⟩ := step_drain_frame ha hstep
  have hlisted := step_listed ha hstep
  refine ⟨fun todo half hpc r hr hl => ?_, fun todo kept half hpc r hr hl => ?_,
    fun r hr hdead hlt => ?_⟩
  · rw [hd] at hpc ⊢
    rcases hlisted with ⟨-, hregd⟩ | ⟨-, hno⟩
    · rw [hregd] at hr
      exact hc.adding todo half hpc r hr ((step_grows hp hstep hr).live hl)
    · exact absurd hpc (hno _ _)
  · rw [hd] at hpc ⊢
    rcases hlisted with ⟨-, hregd⟩ | ⟨-, hno⟩
    · rw [hregd] at hr
      exact hc.retaining todo kept half hpc r hr ((step_grows hp hstep hr).live hl)
    · exact absurd hpc (hno _ _)
  · obtain ⟨hr₀, hwhy⟩ := dies hp hstep hr hdead
    have hlt₀ : done s r < due r := Nat.lt_of_le_of_lt (done_mono hstep r) hlt
    refine inCustody_still hd (hlisted.imp And.left id) ?_
    cases hl : (s.rings r).live with
    | false => exact hc.dead r hr₀ hl hlt₀
    | true =>
      have hpos : 0 < due r := Nat.lt_of_le_of_lt (Nat.zero_le _) hlt₀
      have hm := hmark r hpos hl
      rcases hwhy with hwas | ⟨t, rfl, hring⟩ | ⟨rfl, todo, hg⟩
      · rw [hl] at hwas
        cases hwas
      · -- an exit: alive or marking, the guard has not told the drain to leave
        by_cases hsync : overlooked s r = true
        · cases hg : s.guard with
          | alive =>
            exfalso
            simp only [Attended, hring] at hok
            have hidle : (s.rings r).tail = done s r := by
              have hread := (h.plain.2 r).reader
              rw [reading_of_not_inside] at hread
              · exact hread.1
              · unfold overlooked at hsync
                cases hpc : s.drain.pc <;> first | rfl | (rw [hpc] at hsync; cases hsync)
            have := hok hg hsync
            have := hdue r
            omega
          | marking todo =>
            exfalso
            unfold overlooked at hsync
            cases hpc : s.drain.pc with
            | sync phase half => exact h.guard.excluded _ hg _ _ hpc
            | _ =>
              rw [hpc] at hsync
              cases hsync
          | signal | joining | dropped =>
            simp only [hg] at hm
        · refine dying_inCustody h hc hr₀ hl ?_ (Bool.eq_false_iff.mpr hsync)
          refine Bool.eq_false_iff.mpr fun hlast => ?_
          rcases h.guard.signalled (h.guard.left hlast) with hg | hg <;> simp only [hg] at hm
      · -- the guard marks while no scan is under way
        refine dying_inCustody h hc hr₀ hl ?_ ?_
        · refine Bool.eq_false_iff.mpr fun hlast => ?_
          rcases h.guard.signalled (h.guard.left hlast) with hg' | hg'
          all_goals
            rw [hg] at hg'
            cases hg'
        · refine Bool.eq_false_iff.mpr fun hsync => ?_
          unfold overlooked at hsync
          cases hpc : s.drain.pc with
          | sync phase half => exact h.guard.excluded _ hg _ _ hpc
          | _ =>
            rw [hpc] at hsync
            cases hsync

theorem step_custody (hseg : cfg.segmented = false) {due : Nat → Nat} {a : Action}
    (h : ClassicRun s) (hc : Custody due s) (hdue : ∀ r, due r ≤ (s.rings r).head)
    (hmark : DueMarked due s) (hok : Attended s a) (hstep : step cfg s a = some s') :
    Custody due s' := by
  by_cases ha : a = .drain
  · subst ha
    exact drain_custody hseg h hc hdue hstep
  · exact other_custody ha h hc hdue hmark hok hstep

/-! ## Before the guard drops -/

/-- Custody of everything published. -/
def AllHeld (s : Sys) : Prop := Custody (fun r => (s.rings r).head) s

theorem init_held : AllHeld (Sys.init cfg) := ⟨nofun, nofun, nofun⟩

/-- What a dead ring owes depends on the dead rings only. -/
theorem Custody.congr {due due' : Nat → Nat} (h : Custody due s)
    (heq : ∀ r, r ∈ s.registered → (s.rings r).live = false → due' r = due r) :
    Custody due' s := by
  refine ⟨h.adding, h.retaining, fun r hr hd hlt => ?_⟩
  rw [heq r hr hd] at hlt ⊢
  exact h.dead r hr hd hlt

/-- While the guard is alive nobody publishes in a dead ring. -/
theorem dead_head {a : Action} (h : ClassicRun s) (h' : DeliveryInv s') (hg : s.guard = .alive)
    (hstep : step cfg s a = some s') {r : Nat} (hr : r ∈ s.registered)
    (hd : (s'.rings r).live = false) : (s'.rings r).head = (s.rings r).head := by
  have hp := h.plain.1.1
  have hcells : s'.published.filter (·.ring = r) = s.published.filter (·.ring = r) := by
    rcases step_publishes hstep with ⟨t, r₀, rfl, hpc, hr₀, rfl⟩ | ⟨hpub, -⟩
    · have hne : r₀ ≠ r := by
        rintro rfl
        have hdead : (s.rings r₀).live = false := by
          rwa [show (publish t r₀ s).rings = Function.update s.rings r₀ { s.rings r₀ with
            cells := (s.rings r₀).cells ++ [⟨t, (s.threads t).seq, r₀, (s.threads t).total⟩] }
            from rfl, Function.update_self] at hd
        have hex := h.guard.dead hg r₀ hr hdead
        rw [(hp.ring_mine hr₀).2, hpc] at hex
        cases hex
      rw [show (publish t r₀ s).published
        = s.published ++ [⟨t, (s.threads t).seq, r₀, (s.threads t).total⟩] from rfl,
        List.filter_append]
      simp [hne]
    · rw [hpub]
  unfold Ring.head
  rw [← (h' r).history, ← (h.plain.2 r).history, hcells]

theorem step_held (hpol : cfg.policy ≠ .nanoLog) (hseg : cfg.segmented = false) {a : Action}
    (h : ClassicRun s) (hc : AllHeld s) (hg : s.guard = .alive) (hok : Attended s a)
    (hstep : step cfg s a = some s') : AllHeld s' := by
  have hmark : DueMarked (fun r => (s.rings r).head) s := by
    intro r _ _
    rw [hg]
    trivial
  have hc' := step_custody hseg h hc (fun _ => Nat.le_refl _) hmark hok hstep
  refine hc'.congr fun r hr hd => ?_
  have hplain := step_delivery hpol h.plain hstep
  exact dead_head h hplain.2 hg hstep (dies h.plain.1.1 hstep hr hd).1 hd

/-! ## After it -/

/-- Everything a run carries that has started to drop its guard. -/
structure OwedRun (due : Nat → Nat) (s : Sys) : Prop where
  run : ClassicRun s
  known : ∀ r, 0 < due r → r ∈ s.registered
  head : ∀ r, due r ≤ (s.rings r).head
  marked : DueMarked due s
  custody : Custody due s

theorem step_marked {due : Nat → Nat} {a : Action} (h : OwedRun due s)
    (hstep : step cfg s a = some s') : DueMarked due s' := by
  intro r hpos hl
  have hr := h.known r hpos
  have hl₀ := (step_grows h.run.plain.1.1 hstep hr).live hl
  have hm := h.marked r hpos hl₀
  have hsame : s'.guard = s.guard → match s'.guard with
      | .alive => True
      | .marking todo => r ∈ todo
      | _ => False := by
    intro hg
    rw [hg]
    exact hm
  cases a with
  | log t total =>
    have hst := hstep
    simp only [step, log] at hst
    repeat' split at hst
    all_goals cases hst
    all_goals exact hsame rfl
  | exit t =>
    have hst := hstep
    simp only [step, exit] at hst
    repeat' split at hst
    all_goals cases hst
    all_goals exact hsame rfl
  | thread t => exact hsame (threadStep_move hstep).frame.2.1
  | wake t =>
    have hst := hstep
    simp only [step, wake] at hst
    split at hst <;> cases hst
    exact hsame rfl
  | drain => exact hsame (drain_keeps (drainStep_move hstep)).guard
  | guard =>
    simp only [step, guardStep] at hstep
    split at hstep
    next hg =>
      split at hstep
      next => cases hstep
      next hlock =>
        cases hstep
        -- every live ring is found in the registry
        refine (h.run.registry.live r hr hl₀).elim (fun hmem => ?_) fun hR => ?_
        · rwa [listed_eq fun todo kept half hpc => ?_] at hmem
          unfold registryLocked at hlock
          rw [hpc] at hlock
          exact hlock rfl
        · have hoff := hR.handedOff
          rw [h.run.classic.noHandoff] at hoff
          cases hoff
    next r₀ rest hg =>
      cases hstep
      simp only [hg, List.mem_cons] at hm
      refine hm.resolve_left fun heq => ?_
      rw [heq] at hl
      rw [show ({ s.setRing r₀ { s.rings r₀ with live := false } with
        guard := .marking rest } : Sys).rings
        = Function.update s.rings r₀ { s.rings r₀ with live := false } from rfl,
        Function.update_self] at hl
      cases hl
    next hg =>
      cases hstep
      simp only [hg] at hm
      exact absurd hm List.not_mem_nil
    next hg =>
      cases hstep
      simp only [hg] at hm
    next hg =>
      split at hstep
      next =>
        cases hstep
        simp only [hg] at hm
      next => cases hstep
    next => cases hstep

theorem step_owed (hpol : cfg.policy ≠ .nanoLog) (hseg : cfg.segmented = false)
    {due : Nat → Nat} {a : Action} (h : OwedRun due s) (hok : Attended s a)
    (hstep : step cfg s a = some s') : OwedRun due s' where
  run := step_classicRun hpol hseg h.run hstep
  known := fun r hpos => step_registered hstep (h.known r hpos)
  head := by
    intro r
    rcases Nat.eq_zero_or_pos (due r) with hz | hpos
    · rw [hz]
      exact Nat.zero_le _
    · have hg := step_grows h.run.plain.1.1 hstep (h.known r hpos)
      exact Nat.le_trans (h.head r) hg.cells.length_le
  marked := step_marked h hstep
  custody := step_custody hseg h.run h.custody h.head h.marked hok hstep

/-- Once the drain has stopped nothing is owed. -/
theorem OwedRun.paid {due : Nat → Nat} (h : OwedRun due s) (hstop : s.drain.pc = .stopped)
    (r : Nat) : due r ≤ done s r := by
  by_contra hlt
  have hlt : done s r < due r := Nat.lt_of_not_le hlt
  have hpos : 0 < due r := Nat.lt_of_le_of_lt (Nat.zero_le _) hlt
  have hlast := h.run.guard.stopped hstop
  have hdead : (s.rings r).live = false := by
    refine Bool.eq_false_iff.mpr fun hl => ?_
    have hm := h.marked r hpos hl
    rcases h.run.guard.signalled (h.run.guard.left hlast) with hg | hg <;> simp only [hg] at hm
  have hcust := h.custody.dead r (h.known r hpos) hdead hlt
  have hlater := (inCustody_later (by rw [hstop]; rfl)).mp hcust
  have hlast' := hlater.1
  rw [hlast] at hlast'
  cases hlast'

/-! ## The guarantee -/

/-- What a run carries before the guard drops. -/
def HeldRun (s : Sys) : Prop := ClassicRun s ∧ (s.guard = .alive → AllHeld s)

theorem runs_held (hpol : cfg.policy ≠ .nanoLog) (hseg : cfg.segmented = false)
    (h : (system cfg).Runs Attended (Sys.init cfg) s) : HeldRun s := by
  refine Machine.Runs.invariant (I := HeldRun) ?_ h ⟨init_classicRun hpol, fun _ => init_held⟩
  rintro s₁ a s₂ ⟨hrun, hheld⟩ hok hst
  refine ⟨step_classicRun hpol hseg hrun hst, fun hg => ?_⟩
  have hg₁ := alive_before hst hg
  exact step_held hpol hseg hrun (hheld hg₁) hg₁ hok hst

/-- The records of `s₀` stay owed, and in their rings. -/
theorem runs_owed (hpol : cfg.policy ≠ .nanoLog) (hseg : cfg.segmented = false) {s₀ : Sys}
    (h₀ : HeldRun s₀) (halive : s₀.guard = .alive) (h : (system cfg).Runs Attended s₀ s) :
    OwedRun (fun r => (s₀.rings r).head) s ∧
      ∀ r, (s₀.rings r).cells <+: (s.rings r).cells := by
  have hknown : ∀ r, 0 < (s₀.rings r).head → r ∈ s₀.registered := by
    intro r hpos
    by_contra hr
    have hcells := (h₀.1.plain.1.1.blank r hr).cells
    unfold Ring.head at hpos
    rw [hcells] at hpos
    exact Nat.lt_irrefl 0 hpos
  have hstart : OwedRun (fun r => (s₀.rings r).head) s₀ := by
    refine ⟨h₀.1, hknown, fun _ => Nat.le_refl _, fun r _ _ => ?_, h₀.2 halive⟩
    rw [halive]
    trivial
  refine Machine.Runs.invariant (I := fun s₁ => OwedRun (fun r => (s₀.rings r).head) s₁ ∧
    ∀ r, (s₀.rings r).cells <+: (s₁.rings r).cells) ?_ h ⟨hstart, fun _ => List.prefix_rfl⟩
  rintro s₁ a s₂ ⟨howed, hcells⟩ hok hst
  refine ⟨step_owed hpol hseg howed hok hst, fun r => ?_⟩
  rcases Nat.eq_zero_or_pos (s₀.rings r).head with hz | hpos
  · rw [List.length_eq_zero_iff.mp hz]
    exact List.nil_prefix
  · exact (hcells r).trans (step_grows howed.run.plain.1.1 hst (howed.known r hpos)).cells

/-- The sink was handed published records only. -/
theorem DeliveryInv.published (h : DeliveryInv s) {x : Rec} (hx : x ∈ s.delivered) :
    x ∈ s.published := by
  have hfrom : x ∈ s.deliveredFrom x.ring := List.mem_filter.mpr ⟨hx, by simp⟩
  have hcells := (h x.ring).inOrder.subset hfrom
  rw [← (h x.ring).history] at hcells
  exact (List.mem_filter.mp hcells).1

/-- With one ring each, a thread's records are delivered in the order it logged them. -/
theorem ClassicRun.inOrder (h : ClassicRun s) (t : Nat) :
    s.delivered.filter (·.thread = t) <+: s.publishedBy t := by
  cases hd : s.delivered.filter (·.thread = t) with
  | nil => exact List.nil_prefix
  | cons x rest =>
    have hx : x ∈ s.delivered.filter (·.thread = t) := by
      rw [hd]
      exact List.mem_cons_self
    obtain ⟨hmem, ht⟩ := List.mem_filter.mp hx
    have ht : x.thread = t := of_decide_eq_true ht
    have hpub := h.plain.2.published hmem
    have hdel := h.classic.publishedBy h.authored hpub fun y hy => h.plain.2.published hy
    have hall := h.classic.publishedBy h.authored hpub fun y hy => hy
    rw [ht] at hdel hall
    rw [← hd, hdel]
    unfold publishedBy
    rw [hall, (h.plain.2 x.ring).history]
    exact (h.plain.2 x.ring).inOrder

/-- **Shutdown delivers everything, if no exit is overlooked.** Under `Drop` and `Block`,
in every run whose threads do not exit with undelivered records in the window of
`sync_rings` (`Attended`): once `Drain::run` has returned, each record published before
`Guard::drop` started has been delivered exactly once, and what is delivered of a thread
is a prefix of what it logged. -/
theorem shutdown_delivers (hpol : cfg.policy = .drop ∨ cfg.policy = .block) {s₀ : Sys}
    (h₀ : (system cfg).Runs Attended (Sys.init cfg) s₀) (halive : s₀.guard = .alive)
    (h : (system cfg).Runs Attended s₀ s) (hstop : s.drain.pc = .stopped) :
    (∀ x, x ∈ s₀.published → s.delivered.count x = 1) ∧
      ∀ t, s.delivered.filter (·.thread = t) <+: s.publishedBy t := by
  have hne : cfg.policy ≠ .nanoLog := by rcases hpol with hpol | hpol <;> simp [hpol]
  have hseg : cfg.segmented = false := by
    rcases hpol with hpol | hpol <;> simp [Config.segmented, hpol]
  have hheld := runs_held hne hseg h₀
  obtain ⟨howed, hcells⟩ := runs_owed hne hseg hheld halive h
  have hdel := howed.run.plain.2
  refine ⟨fun x hx => ?_, howed.run.inOrder⟩
  have hin : x ∈ (s₀.rings x.ring).cells := by
    rw [← (hheld.1.plain.2 x.ring).history]
    exact List.mem_filter.mpr ⟨hx, by simp⟩
  -- the records of `s₀` are among the first `done` of the ring
  have hall : (s₀.rings x.ring).cells <+: s.deliveredFrom x.ring :=
    List.prefix_of_prefix_length_le (hcells x.ring) (hdel x.ring).inOrder
      (howed.paid hstop x.ring)
  have hmem : x ∈ s.delivered := (List.mem_filter.mp (hall.subset hin)).1
  refine Nat.le_antisymm ?_ (List.count_pos_iff.mpr hmem)
  have hcount := count_ring (hdel x.ring) (x := x) rfl
  have honce := List.nodup_iff_count_le_one.mp howed.run.numbered.nodup x
  omega

/-- A thread logs once and exits before the first sync; its record is there at the end. -/
theorem shutdown_delivers_firstLog :
    ∃ s₀ s, (system (smallConfig .drop)).runWhile Attended (Sys.init (smallConfig .drop))
        (firstLog 0 64 ++ [.exit 0]) = some s₀ ∧
      (system (smallConfig .drop)).runWhile Attended s₀
        (List.replicate 4 .guard ++ List.replicate 28 .drain) = some s ∧
      s.drain.pc = .stopped ∧ ∀ x, x ∈ s₀.published → s.delivered.count x = 1 := by
  obtain ⟨s₀, hs₀⟩ := Option.isSome_iff_exists.mp
    (show ((system (smallConfig .drop)).runWhile Attended (Sys.init (smallConfig .drop))
      (firstLog 0 64 ++ [.exit 0])).isSome = true by decide +kernel)
  have hend : ((system (smallConfig .drop)).runWhile Attended (Sys.init (smallConfig .drop))
      (firstLog 0 64 ++ [.exit 0])).bind (fun s₀ =>
        ((system (smallConfig .drop)).runWhile Attended s₀
          (List.replicate 4 .guard ++ List.replicate 28 .drain)).map fun s =>
            (decide (s₀.guard = .alive), decide (s.drain.pc = .stopped)))
      = some (true, true) := by decide +kernel
  rw [hs₀, Option.bind_some] at hend
  obtain ⟨s, hs, hpair⟩ := Option.map_eq_some_iff.mp hend
  rw [Prod.mk.injEq] at hpair
  have halive : s₀.guard = .alive := of_decide_eq_true hpair.1
  have hstop : s.drain.pc = .stopped := of_decide_eq_true hpair.2
  have hsafe := shutdown_delivers (Or.inl rfl) (Machine.runWhile_runs hs₀) halive
    (Machine.runWhile_runs hs) hstop
  exact ⟨s₀, s, hs₀, hs, hstop, hsafe.1⟩

/-- A thread logs its first record and exits right after the first scan of `sync_rings` saw
its ring alive: the record is published and never delivered. -/
theorem overlooked_exit_loses :
    ∃ s₀ s x, (system (smallConfig .drop)).Reach (Sys.init (smallConfig .drop)) s₀ ∧
      s₀.guard = .alive ∧ (system (smallConfig .drop)).Reach s₀ s ∧ s.drain.pc = .stopped ∧
      x ∈ s₀.published ∧ s.delivered.count x = 0 := by
  have hend : ((system (smallConfig .drop)).run (Sys.init (smallConfig .drop))
      (firstLog 0 64 ++ [.drain, .drain, .drain, .exit 0])).bind (fun s₀ =>
        ((system (smallConfig .drop)).run s₀
          (List.replicate 10 .drain ++ List.replicate 3 .guard ++ List.replicate 14 .drain)).map
          fun s => (decide (s₀.guard = .alive), decide (s.drain.pc = .stopped), s₀.published,
            s.delivered))
      = some (true, true, [⟨0, 0, 0, 64⟩], []) := by decide +kernel
  obtain ⟨s₀, hs₀, hend⟩ := Option.bind_eq_some_iff.mp hend
  obtain ⟨s, hs, hpair⟩ := Option.map_eq_some_iff.mp hend
  simp only [Prod.mk.injEq] at hpair
  obtain ⟨halive, hstop, hpub, hdel⟩ := hpair
  refine ⟨s₀, s, ⟨0, 0, 0, 64⟩, Machine.run_runs hs₀, of_decide_eq_true halive,
    Machine.run_runs hs, of_decide_eq_true hstop, ?_, ?_⟩
  · rw [hpub]
    exact List.mem_singleton.mpr rfl
  · rw [hdel]
    rfl

end Sys

end Ticklog
