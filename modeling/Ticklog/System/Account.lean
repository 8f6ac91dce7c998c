import Ticklog.System.Backlog

/-!
# Every record is in one place

A published record is still in its ring behind whoever reads it, in the hands of the helper
that formats the ring, in the line queue, or delivered, and in one of them once. `Account`
says so of one ring: its reader, the drain or a helper, has handed over the first `d` of its
records, and the helper holds `payload`.
-/

namespace Ticklog

open Lib

namespace Sys

variable {cfg : Config} {s s' : Sys}

/-! ## Who reads a ring -/

/-- A helper's ring and its position inside `drain_ring_inner`. -/
def formatting (th : Thread) : Option (Nat × Pass) :=
  match th.pc, th.ring with
  | .format p _, some r => some (r, p)
  | _, _ => none

/-- Somebody is at `p` inside `drain_ring_inner` on ring `r`. -/
def Reader (s : Sys) (r : Nat) (p : Pass) : Prop :=
  (∃ ctx, s.drain.pc = .pass ctx r p) ∨ ∃ t, formatting (s.threads t) = some (r, p)

/-- A rewind of ring `r` is past its first store. -/
def Rewound (s : Sys) (r : Nat) : Prop := ∃ t why k, (s.threads t).pc = .reset why r (k + 1)

/-- A reader nobody publishes against has seen the last `head`. -/
def Complete (ring : Ring) : Pass → Prop
  | .scan _ headCache | .storeTail _ headCache | .storeCache headCache => headCache = ring.head
  | .finished => ring.tail = ring.head
  | _ => True

/-- The ring a thread has emptied or is about to use afresh. -/
def giving (th : Thread) : Option Nat :=
  match th.pc with
  | .pushLines _ | .recycle => th.ring
  | pc => inHand pc

/-- Ring `r` is in the pool or on its way into or out of it. -/
def Spent (s : Sys) (r : Nat) : Prop :=
  r ∈ s.spares ∨ (∃ t, giving (s.threads t) = some r) ∨
    (r ∈ due s.drain ∧ (s.rings r).recyclable = true) ∨
    ∃ i k, s.drain.pc = .retire i r k .locked ∧ (s.rings r).serial = k ∧ r ∈ s.registry

/-- The records on their way through the line queue. -/
def queued (s : Sys) : List Rec :=
  (match s.drain.pc with
    | .deliver todo => todo
    | _ => []) ++ s.lines

/-- The account of one ring. -/
structure Account (s : Sys) (r d : Nat) (payload : List Rec) : Prop where
  le : d ≤ (s.rings r).head
  reader : ∀ p, Reader s r p → PassAt (s.rings r) d p
  rest : (∀ p, ¬ Reader s r p) → ¬ Rewound s r →
    (s.rings r).tail = d ∧ (s.rings r).headCache = d
  behind : ¬ Rewound s r → (s.rings r).tail ≤ d
  complete : ∀ t p, formatting (s.threads t) = some (r, p) → Complete (s.rings r) p
  spent : Spent s r → d = (s.rings r).head
  backlog : d < (s.rings r).head → r ∈ s.registry
  carries : ∀ t xs, loaded (s.threads t) = some (r, xs) → xs = payload
  carriesNone : (∀ t xs, loaded (s.threads t) ≠ some (r, xs)) → payload = []
  tally : ∀ x, x.ring = r → s.published.count x =
    s.delivered.count x + s.queued.count x + payload.count x +
      ((s.rings r).cells.drop d).count x

theorem init_account (r : Nat) : Account (Sys.init cfg) r 0 [] where
  le := Nat.le_refl _
  reader := by
    rintro p (⟨ctx, hpc⟩ | ⟨t, ht⟩)
    · cases hpc
    · cases ht
  rest := fun _ _ => ⟨rfl, rfl⟩
  behind := fun _ => Nat.le_refl _
  complete := nofun
  spent := fun _ => rfl
  backlog := nofun
  carries := nofun
  carriesNone := fun _ => rfl
  tally := fun _ _ => rfl

theorem formatting_ring {th : Thread} {r : Nat} {p : Pass} (h : formatting th = some (r, p)) :
    th.ring = some r ∧ ∃ payload, th.pc = .format p payload := by
  unfold formatting at h
  split at h
  next p' payload r' hpc hr =>
    cases h
    exact ⟨hr, payload, hpc⟩
  next => cases h

theorem formatting_holds {t r : Nat} {p : Pass} (h : formatting (s.threads t) = some (r, p)) :
    Holds s t r := by
  obtain ⟨hr, payload, hpc⟩ := formatting_ring h
  exact Or.inl ⟨hr, Or.inr (Or.inl (by rw [hpc]; rfl))⟩

theorem loaded_ring {th : Thread} {r : Nat} {xs : List Rec} (h : loaded th = some (r, xs)) :
    th.ring = some r ∧ ((∃ p, th.pc = .format p xs) ∨ th.pc = .pushLines xs) := by
  unfold loaded at h
  split at h
  next p payload r' hpc hr =>
    cases h
    exact ⟨hr, Or.inl ⟨p, hpc⟩⟩
  next payload r' hpc hr =>
    cases h
    exact ⟨hr, Or.inr hpc⟩
  next => cases h

theorem loaded_holds {t r : Nat} {xs : List Rec} (h : loaded (s.threads t) = some (r, xs)) :
    Holds s t r := by
  obtain ⟨hr, ⟨p, hpc⟩ | hpc⟩ := loaded_ring h
  all_goals exact Or.inl ⟨hr, Or.inr (Or.inl (by rw [hpc]; rfl))⟩

/-- Other threads read and carry what they did. -/
theorem step_alike {a : Action} {t : Nat} (hact : a.actor ≠ some t)
    (hstep : step cfg s a = some s') :
    formatting (s'.threads t) = formatting (s.threads t) ∧
      loaded (s'.threads t) = loaded (s.threads t) ∧
      giving (s'.threads t) = giving (s.threads t) ∧
      ∀ why r k, (s'.threads t).pc = .reset why r k ↔ (s.threads t).pc = .reset why r k := by
  rcases step_wakes hact hstep with hth | ⟨hpc, hth, -⟩
  · rw [hth]
    exact ⟨rfl, rfl, rfl, fun _ _ _ => Iff.rfl⟩
  · rw [hth]
    unfold formatting loaded giving
    rw [hpc]
    exact ⟨rfl, rfl, rfl, fun _ _ _ => ⟨nofun, nofun⟩⟩

/-! ## Emptied rings -/

/-- How a thread comes to give a ring. -/
theorem thread_gives {t r : Nat} (hhelp : HelpersOwn s) (hm : ThreadMove cfg t s s')
    (h : giving (s'.threads t) = some r) :
    giving (s.threads t) = some r ∨ r ∈ s.spares ∨ r = s.nextRing ∨
      formatting (s.threads t) = some (r, .finished) := by
  cases hm with
  | takeFirst hpc hseg hsp =>
    rw [threads_goto] at h
    obtain rfl := Option.some.inj h
    rw [hsp]
    exact Or.inr (Or.inl List.mem_cons_self)
  | takeSpare hpc hr hsp =>
    rw [threads_goto] at h
    obtain rfl := Option.some.inj h
    rw [hsp]
    exact Or.inr (Or.inl List.mem_cons_self)
  | allocFirst | allocFresh =>
    rw [show (alloc t s).threads t = _ from threads_goto _ _ _] at h
    exact Or.inr (Or.inr (Or.inl (Option.some.inj h).symm))
  | @reset why r₀ k hpc hk =>
    rw [threads_goto] at h
    refine Or.inl ?_
    unfold giving
    rw [hpc]
    exact h
  | @resetLast why r₀ k hpc hk =>
    rw [threads_goto] at h
    refine Or.inl ?_
    unfold giving
    rw [hpc]
    cases why with
    | initial | handoff => exact h
    | helper => exact (hhelp t r₀ k hpc).symm.trans h
  | setInfo hpc | register hpc =>
    rw [threads_goto] at h
    refine Or.inl ?_
    unfold giving
    rw [hpc]
    exact h
  | @formatDone r₀ payload hpc hr =>
    rw [threads_goto] at h
    refine Or.inr (Or.inr (Or.inr ?_))
    unfold formatting
    rw [hpc, show (s.threads t).ring = some r from h]
  | @pushLines r₀ payload hpc hr =>
    rw [threads_goto] at h
    refine Or.inl ?_
    unfold giving
    rw [hpc]
    exact hr.trans h
  | formatSpin => exact Or.inl h
  | full hpc hr hroom hnext =>
    rw [threads_goto] at h
    rcases hnext with ⟨-, rfl⟩ | ⟨-, rfl⟩ | ⟨-, rfl⟩ <;> cases h
  | noSpare hpc =>
    rw [threads_goto] at h
    rcases hpc with ⟨-, rfl⟩ | ⟨-, rfl⟩ | ⟨-, rfl⟩ <;> cases h
  | spin hpc hr | poolLive hpc hr =>
    rw [threads_goto] at h
    cases hl : (s.rings _).live
    all_goals
      rw [hl] at h
      cases h
  | markHandedOff hpc hr =>
    rw [threads_goto] at h
    by_cases hp : cfg.policy = .nanoLog
    · rw [if_pos hp] at h
      cases h
    · rw [if_neg hp] at h
      cases h
  | switch =>
    rw [threads_self] at h
    cases h
  | publish =>
    rw [show (publish t _ s).threads t = _ from threads_self _ _ _] at h
    cases h
  | granted | reserveHelper | formatEnter | format | recycle | poolWait =>
    rw [threads_goto] at h
    cases h

/-- A ring is given when it was given before, or is new, formatted to its end, or found
drained by `maybe_retire`. -/
theorem step_spent (h : BacklogInv s) {a : Action} (hok : FormatOk s a)
    (hstep : step cfg s a = some s') {r : Nat} (hsp : Spent s' r) :
    Spent s r ∨ r = s.nextRing ∨ (∃ t, formatting (s.threads t) = some (r, .finished)) ∨
      ∃ i k, s.drain.pc = .retire i r k (.tail (s.rings r).tail) ∧ r ∈ s.registry ∧
        (s.rings r).serial = k := by
  have hhold := h.format.own.hold
  have hi' : Intact s' := step_intact h.format.intact hok.undying hstep
  rcases hsp with hin | ⟨t, ht⟩ | ⟨hdue, hrec⟩ | ⟨i, k, hpc, hser, hreg⟩
  · rcases step_pool hstep hin with hin | ⟨t, rfl, hpc, hr⟩ | ⟨rfl, ctx, hpc⟩
    · exact Or.inl (Or.inl hin)
    · refine Or.inl (Or.inr (Or.inl ⟨t, ?_⟩))
      unfold giving
      rw [hpc]
      exact hr
    · refine Or.inl (Or.inr (Or.inr (Or.inl ⟨?_, h.format.own.drain.pushes ctx r hpc⟩)))
      unfold due
      rw [hpc]
      cases ctx with
      | final => exact List.mem_cons_self
      | poll i k => exact List.mem_singleton_self r
  · by_cases hact : a.actor = some t
    · cases a with
      | thread t' =>
        obtain rfl : t' = t := Option.some.inj hact
        rcases thread_gives hhold.helpersOwn (threadStep_move hstep) ht with hg | hin | hnew | hf
        · exact Or.inl (Or.inr (Or.inl ⟨t', hg⟩))
        · exact Or.inl (Or.inl hin)
        · exact Or.inr (Or.inl hnew)
        · exact Or.inr (Or.inr (Or.inl ⟨t', hf⟩))
      | log t' total =>
        obtain rfl : t' = t := Option.some.inj hact
        obtain ⟨-, pc, hpc, rfl⟩ := log_inv hstep
        rw [threads_self] at ht
        rcases hpc with rfl | rfl <;> cases ht
      | wake t' =>
        obtain rfl : t' = t := Option.some.inj hact
        obtain ⟨-, rfl⟩ := wake_inv hstep
        rw [threads_goto] at ht
        cases ht
      | exit | guard => exact hok.elim
      | drain => cases hact
    · exact Or.inl (Or.inr (Or.inl ⟨t, (step_alike hact hstep).2.2.1 ▸ ht⟩))
  · refine Or.inl (Or.inr (Or.inr ?_))
    by_cases ha : a = .drain
    · subst ha
      have hm : DrainMove cfg s s' := drainStep_move hstep
      rcases due_step hi' hm hdue with ⟨hdue, -⟩ | ⟨i, k, hpc, hk, hreg⟩
      · rw [(drain_ring_frame hm r).recyclable] at hrec
        exact Or.inl ⟨hdue, hrec⟩
      · exact Or.inr ⟨i, k, hpc, hk, hreg⟩
    · rw [(step_drain_frame ha hstep).1] at hdue
      have hr := hhold.bounded r (Or.inl (due_known hdue))
      rw [step_recyclable hstep hr] at hrec
      exact Or.inl ⟨hdue, hrec⟩
  · by_cases ha : a = .drain
    · subst ha
      rcases drain_retires (drainStep_move hstep) hpc with heq |
        ⟨hreg', hrings, test', hpc', -, -, hlast⟩
      · cases heq
      · rw [hreg'] at hreg
        rw [hrings] at hser
        exact Or.inr (Or.inr (Or.inr ⟨i, k, hlast rfl ▸ hpc', hreg, hser⟩))
    · obtain ⟨hpc', -, hreg', hser', -⟩ := h.format.own.tested_same ha hstep hpc hreg hser
      exact Or.inl (Or.inr (Or.inr (Or.inr ⟨i, k, hpc', hser', hreg'⟩)))

/-- A rewind empties its ring first. -/
theorem BacklogInv.rewound_cells (h : BacklogInv s) {r : Nat} (hr : Rewound s r) :
    (s.rings r).cells = [] := by
  obtain ⟨t, why, k, hpc⟩ := hr
  have hw := h.wiped t
  unfold Wiped at hw
  simp only [hpc] at hw
  exact hw.1 (Nat.succ_le_succ (Nat.zero_le k))

/-- Whichever way, everything in it has been handed over. -/
theorem Account.spent_step {r d : Nat} {payload : List Rec} (h : Account s r d payload)
    (hB : BacklogInv s) {a : Action} (hok : FormatOk s a) (hstep : step cfg s a = some s')
    (hsp : Spent s' r) : d = (s.rings r).head := by
  have hle := h.le
  have hempty : (s.rings r).cells = [] → d = (s.rings r).head := by
    intro hnil
    unfold Ring.head at hle ⊢
    rw [hnil] at hle ⊢
    exact Nat.le_zero.mp hle
  rcases step_spent hB hok hstep hsp with hsp | rfl | ⟨t, ht⟩ | ⟨i, k, hpc, hreg, hser⟩
  · exact h.spent hsp
  · obtain ⟨b, hb⟩ := hB.unmade s.nextRing (Nat.le_refl _)
    exact hempty (by rw [hb]; rfl)
  · have hat : (s.rings r).tail = d := (h.reader _ (Or.inr ⟨t, ht⟩)).1
    have hall : (s.rings r).tail = (s.rings r).head := h.complete t _ ht
    exact hat.symm.trans hall
  · rcases hB.sized i r k _ hpc hreg hser with hlen | hnil
    · by_cases hnil : (s.rings r).cells = []
      · exact hempty hnil
      · have hb := h.behind fun hr => hnil (hB.rewound_cells hr)
        unfold Ring.head at hle ⊢
        omega
    · exact hempty hnil

/-! ## Steps that leave a ring alone -/

/-- A ring with the records and indices it had. -/
structure SameContent (a b : Ring) : Prop where
  cells : b.cells = a.cells
  tail : b.tail = a.tail
  headCache : b.headCache = a.headCache

theorem SameContent.refl (a : Ring) : SameContent a a := ⟨rfl, rfl, rfl⟩

/-- One ring replaced, another ring or one with the same content. -/
theorem SameContent.update {r₀ r : Nat} {v : Ring} (h : r = r₀ → SameContent (s.rings r₀) v) :
    SameContent (s.rings r) (Function.update s.rings r₀ v r) := by
  by_cases hr : r = r₀
  · have hv := h hr
    subst hr
    rwa [Function.update_self]
  · rw [Function.update_of_ne hr]
    exact .refl _

/-- A thread that neither reads nor rewinds ring `r`, before and after. -/
structure Aloof (a b : Thread) (r : Nat) : Prop where
  formatting : ∀ p, formatting b = some (r, p) ↔ formatting a = some (r, p)
  loaded : ∀ xs, loaded b = some (r, xs) ↔ loaded a = some (r, xs)
  rewinds : ∀ why k, a.pc ≠ .reset why r (k + 1)

/-- Ring `r` keeps its content, its reader and its counts. -/
theorem Account.frame {r d : Nat} {payload : List Rec} (h : Account s r d payload)
    (hB : BacklogInv s) {a : Action} (hok : FormatOk s a) (hstep : step cfg s a = some s')
    (hcontent : SameContent (s.rings r) (s'.rings r))
    (hpass : ∀ ctx p, s'.drain.pc = .pass ctx r p ↔ s.drain.pc = .pass ctx r p)
    (hself : ∀ t, a.actor = some t → Aloof (s.threads t) (s'.threads t) r)
    (htally : ∀ x, x.ring = r → s'.published.count x = s.published.count x ∧
      s'.delivered.count x + s'.queued.count x = s.delivered.count x + s.queued.count x) :
    Account s' r d payload := by
  have hhead : (s'.rings r).head = (s.rings r).head := congrArg List.length hcontent.cells
  have hform : ∀ t p, formatting (s'.threads t) = some (r, p) ↔
      formatting (s.threads t) = some (r, p) := by
    intro t p
    by_cases hact : a.actor = some t
    · exact (hself t hact).formatting p
    · rw [(step_alike hact hstep).1]
  have hload : ∀ t xs, loaded (s'.threads t) = some (r, xs) ↔
      loaded (s.threads t) = some (r, xs) := by
    intro t xs
    by_cases hact : a.actor = some t
    · exact (hself t hact).loaded xs
    · rw [(step_alike hact hstep).2.1]
  have hreader : ∀ p, Reader s' r p ↔ Reader s r p := fun p =>
    or_congr (exists_congr fun ctx => hpass ctx p) (exists_congr fun t => hform t p)
  have hrew : Rewound s r → Rewound s' r := by
    rintro ⟨t, why, k, hpc⟩
    by_cases hact : a.actor = some t
    · exact absurd hpc ((hself t hact).rewinds why k)
    · exact ⟨t, why, k, ((step_alike hact hstep).2.2.2 why r (k + 1)).mpr hpc⟩
  refine ⟨hhead ▸ h.le, fun p hp => ?_, fun hno hnot => ?_, fun hnot => ?_, fun t p ht => ?_,
    fun hsp => ?_, fun hlt => ?_, fun t xs ht => ?_, fun hno => ?_, fun x hx => ?_⟩
  · exact (h.reader p ((hreader p).mp hp)).mono hcontent.tail hcontent.headCache hhead.ge
  · rw [hcontent.tail, hcontent.headCache]
    exact h.rest (fun p hp => hno p ((hreader p).mpr hp)) fun hr => hnot (hrew hr)
  · rw [hcontent.tail]
    exact h.behind fun hr => hnot (hrew hr)
  · have hc := h.complete t p ((hform t p).mp ht)
    cases p with
    | scan | storeTail | storeCache => exact hc.trans hhead.symm
    | finished => exact hcontent.tail.trans (hc.trans hhead.symm)
    | loadTail | loadCache | loadHead => trivial
  · rw [hhead]
    exact h.spent_step hB hok hstep hsp
  · rw [hhead] at hlt
    rcases keeps_registered hB.format.intact hstep (h.backlog hlt) with hreg | ⟨-, i, k, hpc, hk⟩
    · exact hreg
    · have hd := h.spent (Or.inr (Or.inr (Or.inr ⟨i, k, hpc, hk, h.backlog hlt⟩)))
      omega
  · exact h.carries t xs ((hload t xs).mp ht)
  · exact h.carriesNone fun t xs ht => hno t xs ((hload t xs).mpr ht)
  · obtain ⟨hpub, hsum⟩ := htally x hx
    rw [hpub, hcontent.cells, h.tally x hx, hsum]

end Sys

end Ticklog
