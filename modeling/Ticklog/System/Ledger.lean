import Ticklog.System.Account

/-!
# The ledger

No step loses a record or hands it over twice: each passes one record, if any, along its way
from `publish` through a reader to the sink, or empties a ring that is read to its end.
-/

namespace Ticklog

open Lib

namespace Sys

variable {cfg : Config} {s s' : Sys}

/-! ## A ring in one thread's hands -/

theorem giving_holds {t r : Nat} (h : giving (s.threads t) = some r) : Holds s t r := by
  unfold giving at h
  unfold Holds
  cases hpc : (s.threads t).pc with
  | pushLines | recycle =>
    rw [hpc] at h
    exact Or.inl ⟨h, Or.inr (Or.inl rfl)⟩
  | _ =>
    rw [hpc] at h
    exact Or.inr h

/-- Nobody else reads, carries or rewinds the ring a thread holds, before its access or
after. -/
theorem held_alone (hh : HoldInv s) {t r : Nat} (hold : Holds s t r)
    (hstep : step cfg s (.thread t) = some s') {t' : Nat} (hne : t' ≠ t) :
    (∀ p, formatting (s'.threads t') ≠ some (r, p)) ∧
      (∀ xs, loaded (s'.threads t') ≠ some (r, xs)) ∧
      ∀ why k, (s'.threads t').pc ≠ .reset why r k := by
  have hact : (Action.thread t).actor ≠ some t' := fun heq => hne (Option.some.inj heq).symm
  obtain ⟨hf, hl, -, hr⟩ := step_alike hact hstep
  refine ⟨fun p ht => ?_, fun xs ht => ?_, fun why k ht => ?_⟩
  · rw [hf] at ht
    exact hne (hh.alone r t' t (formatting_holds ht) hold)
  · rw [hl] at ht
    exact hne (hh.alone r t' t (loaded_holds ht) hold)
  · exact hne (hh.alone r t' t (Or.inr (by rw [(hr why r k).mp ht]; rfl)) hold)

/-- The account of a ring after an access of the thread that holds it. -/
theorem Account.ofHolder {t r d : Nat} {payload : List Rec} (hh : HoldInv s)
    (hold : Holds s t r) (hstep : step cfg s (.thread t) = some s')
    (hle : d ≤ (s'.rings r).head)
    (hdrain : ∀ ctx p, s.drain.pc = .pass ctx r p → PassAt (s'.rings r) d p)
    (hself : ∀ p, formatting (s'.threads t) = some (r, p) →
      PassAt (s'.rings r) d p ∧ Complete (s'.rings r) p)
    (hrest : (∀ ctx p, s.drain.pc ≠ .pass ctx r p) →
      (∀ p, formatting (s'.threads t) ≠ some (r, p)) →
      (∀ why k, (s'.threads t).pc ≠ .reset why r (k + 1)) →
      (s'.rings r).tail = d ∧ (s'.rings r).headCache = d)
    (hbehind : (∀ why k, (s'.threads t).pc ≠ .reset why r (k + 1)) → (s'.rings r).tail ≤ d)
    (hspent : Spent s' r → d = (s'.rings r).head)
    (hbacklog : d < (s'.rings r).head → r ∈ s'.registry)
    (hcarries : ∀ xs, loaded (s'.threads t) = some (r, xs) → xs = payload)
    (hnone : (∀ xs, loaded (s'.threads t) ≠ some (r, xs)) → payload = [])
    (htally : ∀ x, x.ring = r → s'.published.count x =
      s'.delivered.count x + s'.queued.count x + payload.count x +
        ((s'.rings r).cells.drop d).count x) : Account s' r d payload := by
  have hd : s'.drain = s.drain := (threadStep_move hstep).frame.1
  have hother : ∀ {u : Nat}, u ≠ t → _ := fun hne => held_alone hh hold hstep hne
  have hrewound : ¬ Rewound s' r → ∀ why k, (s'.threads t).pc ≠ .reset why r (k + 1) :=
    fun hnot why k hpc => hnot ⟨t, why, k, hpc⟩
  refine ⟨hle, fun p hp => ?_, fun hno hnot => ?_, fun hnot => hbehind (hrewound hnot),
    fun t' p ht => ?_, hspent, hbacklog, fun t' xs ht => ?_, fun hno => hnone fun xs => hno t xs,
    htally⟩
  · rcases hp with ⟨ctx, hpc⟩ | ⟨t', ht⟩
    · exact hdrain ctx p (hd ▸ hpc)
    · by_cases hne : t' = t
      · exact (hself p (hne ▸ ht)).1
      · exact absurd ht ((hother hne).1 p)
  · exact hrest (fun ctx p hpc => hno p (Or.inl ⟨ctx, hd ▸ hpc⟩))
      (fun p ht => hno p (Or.inr ⟨t, ht⟩)) (hrewound hnot)
  · by_cases hne : t' = t
    · exact (hself p (hne ▸ ht)).2
    · exact absurd ht ((hother hne).1 p)
  · by_cases hne : t' = t
    · exact hcarries xs (hne ▸ ht)
    · exact absurd ht ((hother hne).2.1 xs)

/-- Its holder carries the records on their way from ring `r`, if anybody does. -/
theorem Account.payload_nil {t r d : Nat} {payload : List Rec} (h : Account s r d payload)
    (hh : HoldInv s) (hold : Holds s t r) (hno : ∀ xs, loaded (s.threads t) ≠ some (r, xs)) :
    payload = [] := by
  refine h.carriesNone fun t' xs ht => ?_
  obtain rfl := hh.alone r t' t (loaded_holds ht) hold
  exact hno xs ht

/-- A ring its holder does not rewind is not being rewound. -/
theorem not_rewound (hh : HoldInv s) {t r : Nat} (hold : Holds s t r)
    (hno : ∀ why k, (s.threads t).pc ≠ .reset why r (k + 1)) : ¬ Rewound s r := by
  rintro ⟨t', why, k, hpc⟩
  obtain rfl := hh.alone r t' t (Or.inr (by rw [hpc]; rfl)) hold
  exact hno why k hpc

/-- A ring somebody publishes in is in nobody else's hands. -/
theorem BacklogInv.unspent (h : BacklogInv s) {t r : Nat} (hpc : (s.threads t).pc = .publish)
    (hr : (s.threads t).ring = some r) (hok : FormatOk s (.thread t))
    (hstep : step cfg s (.thread t) = some s') : ¬ Spent s' r := by
  have hw : Writes s t r := ⟨hr, by rw [hpc]; rfl⟩
  have hh := h.format.own.hold
  intro hsp
  rcases step_spent h hok hstep hsp with
    (hin | ⟨t', ht⟩ | ⟨hdue, hrec⟩ | ⟨i, k, hpc', hk, hreg⟩) | rfl | ⟨t', ht⟩ |
      ⟨i, k, hpc', hreg, hk⟩
  · exact hh.pooled r hin t hw.holds
  · obtain rfl := hh.alone r t' t (giving_holds ht) hw.holds
    unfold giving at ht
    rw [hpc] at ht
    cases ht
  · exact (h.format.own.drain.dueFree r hdue hrec).2 t hw.holds
  · exact h.unwritten i r k _ hpc' nofun hreg hk t (Or.inl hw)
  · exact absurd (hh.bounded _ hw.holds.inUse) (Nat.lt_irrefl _)
  · obtain rfl := hh.alone r t' t (formatting_holds ht) hw.holds
    obtain ⟨-, xs, hpc'⟩ := formatting_ring ht
    rw [hpc] at hpc'
    cases hpc'
  · exact h.unwritten i r k _ hpc' nofun hreg hk t (Or.inl hw)

/-- A publication. -/
theorem Account.publish {t r d : Nat} {payload : List Rec} (h : Account s r d payload)
    (hB : BacklogInv s) (hok : FormatOk s (.thread t)) (hpc : (s.threads t).pc = .publish)
    (hr : (s.threads t).ring = some r) (hstep : step cfg s (.thread t) = some (publish t r s)) :
    Account (Sys.publish t r s) r d payload := by
  have hh := hB.format.own.hold
  have hw : Writes s t r := ⟨hr, by rw [hpc]; rfl⟩
  have hth : (Sys.publish t r s).threads t
      = { s.threads t with pc := .idle, seq := (s.threads t).seq + 1 } := threads_self _ _ _
  have hring : (Sys.publish t r s).rings r = { s.rings r with
      cells := (s.rings r).cells ++ [⟨t, (s.threads t).seq, r, (s.threads t).total⟩] } :=
    Function.update_self ..
  have hhead : ((Sys.publish t r s).rings r).head = (s.rings r).head + 1 := by
    rw [hring]
    exact List.length_append
  have hnorew : ¬ Rewound s r := not_rewound hh hw.holds (by rw [hpc]; nofun)
  have hnoself : ∀ p, formatting (s.threads t) ≠ some (r, p) := by
    intro p ht
    obtain ⟨-, xs, hpc'⟩ := formatting_ring ht
    rw [hpc] at hpc'
    cases hpc'
  have hnil : payload = [] := by
    refine h.payload_nil hh hw.holds fun xs ht => ?_
    obtain ⟨-, ⟨p, hpc'⟩ | hpc'⟩ := loaded_ring ht
    all_goals
      rw [hpc] at hpc'
      cases hpc'
  have hmore : (s.rings r).head ≤ ((Sys.publish t r s).rings r).head := by omega
  have hle := h.le
  refine Account.ofHolder hh hw.holds hstep (by omega) (fun ctx p hp => ?_) ?_ (fun hno _ _ => ?_)
    (fun _ => ?_) (fun hsp => absurd hsp (hB.unspent hpc hr hok hstep))
    (fun _ => hB.enlisted t r (Or.inl hw)) ?_ (fun _ => hnil) (fun x hx => ?_)
  · refine (h.reader p (Or.inl ⟨ctx, hp⟩)).mono ?_ ?_ hmore
    all_goals rw [hring]
  · rw [hth]
    nofun
  · rw [hring]
    refine h.rest (fun p hp => ?_) hnorew
    rcases hp with ⟨ctx, hp⟩ | ⟨t', ht⟩
    · exact hno ctx p hp
    · obtain rfl := hh.alone r t' t (formatting_holds ht) hw.holds
      exact hnoself p ht
  · rw [hring]
    exact h.behind hnorew
  · rw [hth]
    nofun
  · rw [hring]
    have ht := h.tally x hx
    change (s.published ++ [_]).count x = s.delivered.count x + s.queued.count x +
      payload.count x + _
    rw [List.drop_append_of_le_length h.le, List.count_append, List.count_append, ht]
    omega

/-! ## A helper's pass -/

/-- A reader that has seen the last `head` goes on to the end of the ring. -/
theorem Complete.step {ring ring' : Ring} {d : Nat} {p p' : Pass} {x : Option Rec}
    (h : Complete ring p) (hat : PassAt ring d p) (hp : p ≠ .finished)
    (hst : Pass.step ring p = (p', ring', x)) : Complete ring' p' := by
  cases p with
  | loadTail =>
    cases hst
    trivial
  | loadCache tail =>
    obtain ⟨rfl, -, hc⟩ := hat
    simp only [Pass.step, hc, if_true] at hst
    cases hst
    trivial
  | loadHead tail =>
    simp only [Pass.step] at hst
    split at hst
    next heq =>
      cases hst
      exact hat.2.1.trans (hat.1.symm.trans heq)
    next =>
      cases hst
      rfl
  | scan tail headCache =>
    have hring : ring' = ring ∧
        (p' = .scan (tail + 1) headCache ∨ p' = .storeTail tail headCache) := by
      simp only [Pass.step] at hst
      repeat' split at hst
      all_goals
        cases hst
        simp
    rcases hring with ⟨rfl, rfl | rfl⟩ <;> exact h
  | storeTail tail headCache =>
    cases hst
    exact h
  | storeCache headCache =>
    cases hst
    exact hat.1.trans (hat.2.symm.trans h)
  | finished => exact absurd rfl hp

/-- An access inside `drain_ring_inner`, for the drain and for a helper: the reader moves on by
what it hands over. -/
theorem pass_moves {ring ring' : Ring} {d : Nat} {p p' : Pass} {x : Option Rec}
    (hat : PassAt ring d p) (hle : d ≤ ring.head) (hp : p ≠ .finished)
    (hst : Pass.step ring p = (p', ring', x)) :
    ∃ d', d ≤ d' ∧ d' ≤ ring'.head ∧ ring'.head = ring.head ∧ PassAt ring' d' p' ∧
      ring.cells.drop d = x.toList ++ ring'.cells.drop d' := by
  have hcells := Pass.step_cells hst
  have hhead : ring'.head = ring.head := congrArg List.length hcells
  rcases Pass.step_at hat hle hp hst with ⟨rfl, hat'⟩ | ⟨y, rfl, hy, hat'⟩
  · exact ⟨d, Nat.le_refl _, hhead ▸ hle, hhead, hat', by rw [hcells]; rfl⟩
  · obtain ⟨hlt, hget⟩ := List.getElem?_eq_some_iff.mp hy
    refine ⟨d + 1, Nat.le_succ _, hhead ▸ hlt, hhead, hat', ?_⟩
    rw [hcells, List.drop_eq_getElem_cons hlt, hget]
    rfl

/-- A helper enters its pass. -/
theorem Account.formatEnter {t r d : Nat} {payload : List Rec} (h : Account s r d payload)
    (hB : BacklogInv s) (hok : FormatOk s (.thread t)) (hpc : (s.threads t).pc = .formatWait)
    (hr : (s.threads t).ring = some r) (hoff : (s.rings r).draining = false)
    (hstep : step cfg s (.thread t) = some (s.goto t (.format .loadTail []))) :
    Account (s.goto t (.format .loadTail [])) r d payload := by
  have hh := hB.format.own.hold
  have hold : Holds s t r := Or.inl ⟨hr, Or.inr (Or.inl (by rw [hpc]; rfl))⟩
  have hnopass : ∀ ctx p, s.drain.pc ≠ .pass ctx r p := by
    intro ctx p hpc'
    rw [hB.format.apart.marked r (by rw [hpc']; rfl)] at hoff
    cases hoff
  have hnorew : ¬ Rewound s r := not_rewound hh hold (by rw [hpc]; nofun)
  have hnoreader : ∀ p, ¬ Reader s r p := by
    rintro p (⟨ctx, hpc'⟩ | ⟨t', ht⟩)
    · exact hnopass ctx p hpc'
    · obtain rfl := hh.alone r t' t (formatting_holds ht) hold
      obtain ⟨-, xs, hpc'⟩ := formatting_ring ht
      rw [hpc] at hpc'
      cases hpc'
  have hnil : payload = [] := by
    refine h.payload_nil hh hold fun xs ht => ?_
    obtain ⟨-, ⟨p, hpc'⟩ | hpc'⟩ := loaded_ring ht
    all_goals
      rw [hpc] at hpc'
      cases hpc'
  obtain ⟨htail, hcache⟩ := h.rest hnoreader hnorew
  refine Account.ofHolder hh hold hstep h.le (fun ctx p hp => absurd hp (hnopass ctx p))
    (fun p hp => ?_) (fun _ hno _ => ?_) (fun _ => htail.le)
    (fun hsp => h.spent_step hB hok hstep hsp) h.backlog (fun xs hxs => ?_) (fun _ => hnil) h.tally
  · rw [threads_goto] at hp
    unfold formatting at hp
    simp only [hr] at hp
    cases hp
    exact ⟨⟨htail, hcache⟩, trivial⟩
  · exact ⟨htail, hcache⟩
  · rw [threads_goto] at hxs
    unfold loaded at hxs
    simp only [hr] at hxs
    cases hxs
    exact hnil.symm

/-- A helper's access inside its pass. -/
theorem Account.format {t r d : Nat} {payload xs : List Rec} {p p' : Pass} {ring' : Ring}
    {x : Option Rec} (h : Account s r d payload) (hB : BacklogInv s)
    (hok : FormatOk s (.thread t)) (hpc : (s.threads t).pc = .format p xs)
    (hr : (s.threads t).ring = some r) (hp : p ≠ .finished)
    (hst : Pass.step (s.rings r) p = (p', ring', x))
    (hstep : step cfg s (.thread t)
      = some ((s.setRing r ring').goto t (.format p' (xs ++ x.toList)))) :
    ∃ d', Account ((s.setRing r ring').goto t (.format p' (xs ++ x.toList))) r d'
      (payload ++ x.toList) := by
  have hh := hB.format.own.hold
  have hold : Holds s t r := Or.inl ⟨hr, Or.inr (Or.inl (by rw [hpc]; rfl))⟩
  have hform : formatting (s.threads t) = some (r, p) := by
    unfold formatting
    rw [hpc, hr]
  have hat := h.reader p (Or.inr ⟨t, hform⟩)
  have hxs : xs = payload := h.carries t xs (loaded_format hpc hr)
  obtain ⟨d', hle, hle', hhead, hat', hdrop⟩ := pass_moves hat h.le hp hst
  have hnopass : ∀ ctx p, s.drain.pc ≠ .pass ctx r p := fun ctx q hpc' =>
    hB.format.apart.unformatted r (by rw [hpc']; rfl) t p xs hr hpc
  have hring : ((s.setRing r ring').goto t (.format p' (xs ++ x.toList))).rings r = ring' :=
    rings_self s r t ring' _
  have hth : ((s.setRing r ring').goto t (.format p' (xs ++ x.toList))).threads t
      = { s.threads t with pc := .format p' (xs ++ x.toList) } := threads_goto _ _ _
  have hform' : formatting { s.threads t with pc := .format p' (xs ++ x.toList) }
      = some (r, p') := by
    unfold formatting
    simp only [hr]
  have hload' : loaded { s.threads t with pc := .format p' (xs ++ x.toList) }
      = some (r, xs ++ x.toList) := by
    unfold loaded
    simp only [hr]
  refine ⟨d', Account.ofHolder hh hold hstep (by rw [hring]; exact hle')
    (fun ctx q hq => absurd hq (hnopass ctx q)) (fun q hq => ?_) (fun _ hno _ => ?_)
    (fun _ => ?_) (fun hsp => ?_) (fun hlt => ?_) (fun ys hys => ?_) (fun hno => ?_)
    (fun y hy => ?_)⟩
  · rw [hth, hform'] at hq
    cases hq
    rw [hring]
    exact ⟨hat', (h.complete t p hform).step hat hp hst⟩
  · exact absurd (hth ▸ hform') (hno p')
  · have hb := h.behind (not_rewound hh hold (by rw [hpc]; nofun))
    rw [hring]
    rcases Pass.step_tail hat hst with heq | heq <;> omega
  · have hd := h.spent_step hB hok hstep hsp
    rw [hring]
    omega
  · rw [hring] at hlt
    exact h.backlog (by omega)
  · rw [hth, hload'] at hys
    cases hys
    rw [hxs]
  · exact absurd (hth ▸ hload') (hno _)
  · have ht := h.tally y hy
    rw [hring]
    rw [hdrop, List.count_append] at ht
    rw [List.count_append]
    change s.published.count y = s.delivered.count y + s.queued.count y + _ + _
    omega

/-- A helper leaves its pass. -/
theorem Account.formatDone {t r d : Nat} {payload xs : List Rec} (h : Account s r d payload)
    (hB : BacklogInv s) (hok : FormatOk s (.thread t))
    (hpc : (s.threads t).pc = .format .finished xs) (hr : (s.threads t).ring = some r)
    (hstep : step cfg s (.thread t) = some (s.goto t (.pushLines xs))) :
    Account (s.goto t (.pushLines xs)) r d payload := by
  have hh := hB.format.own.hold
  have hold : Holds s t r := Or.inl ⟨hr, Or.inr (Or.inl (by rw [hpc]; rfl))⟩
  have hform : formatting (s.threads t) = some (r, .finished) := by
    unfold formatting
    rw [hpc, hr]
  obtain ⟨htail, hcache⟩ := h.reader _ (Or.inr ⟨t, hform⟩)
  have hxs : xs = payload := h.carries t xs (loaded_format hpc hr)
  have hload' : loaded { s.threads t with pc := .pushLines xs } = some (r, xs) := by
    unfold loaded
    simp only [hr]
  refine Account.ofHolder hh hold hstep h.le (fun ctx p hp => h.reader p (Or.inl ⟨ctx, hp⟩))
    (fun p hp => ?_) (fun _ _ _ => ⟨htail, hcache⟩) (fun _ => htail.le)
    (fun hsp => h.spent_step hB hok hstep hsp) h.backlog (fun ys hys => ?_) (fun hno => ?_) h.tally
  · rw [threads_goto] at hp
    cases hp
  · rw [threads_goto, hload'] at hys
    cases hys
    exact hxs
  · rw [threads_goto] at hno
    exact absurd hload' (hno xs)

/-- A helper's lines join the queue. -/
theorem Account.pushLines {t r d : Nat} {payload xs : List Rec} (h : Account s r d payload)
    (hB : BacklogInv s) (hok : FormatOk s (.thread t))
    (hpc : (s.threads t).pc = .pushLines xs) (hr : (s.threads t).ring = some r)
    (hstep : step cfg s (.thread t)
      = some ({ s with lines := s.lines ++ xs }.goto t (.reset .helper r 0))) :
    Account ({ s with lines := s.lines ++ xs }.goto t (.reset .helper r 0)) r d [] := by
  have hh := hB.format.own.hold
  have hold : Holds s t r := Or.inl ⟨hr, Or.inr (Or.inl (by rw [hpc]; rfl))⟩
  have hxs : xs = payload := h.carries t xs (loaded_pushLines hpc hr)
  have hnorew : ¬ Rewound s r := not_rewound hh hold (by rw [hpc]; nofun)
  refine Account.ofHolder hh hold hstep h.le (fun ctx p hp => h.reader p (Or.inl ⟨ctx, hp⟩))
    (fun p hp => ?_) (fun hno _ _ => ?_) (fun _ => h.behind hnorew)
    (fun hsp => h.spent_step hB hok hstep hsp) h.backlog (fun ys hys => ?_) (fun _ => rfl)
    (fun x hx => ?_)
  · rw [threads_goto] at hp
    cases hp
  · refine h.rest (fun p hp => ?_) hnorew
    rcases hp with ⟨ctx, hp⟩ | ⟨t', ht⟩
    · exact hno ctx p hp
    · obtain rfl := hh.alone r t' t (formatting_holds ht) hold
      obtain ⟨-, ys, hpc'⟩ := formatting_ring ht
      rw [hpc] at hpc'
      cases hpc'
  · rw [threads_goto] at hys
    cases hys
  · have ht := h.tally x hx
    have hq : (({ s with lines := s.lines ++ xs } : Sys).goto t (.reset .helper r 0)).queued
        = s.queued ++ xs := (List.append_assoc _ _ _).symm
    rw [hq, List.count_append, List.count_nil, hxs]
    change s.published.count x = s.delivered.count x + _ + 0 + ((s.rings r).cells.drop d).count x
    omega

/-! ## Rewound and new rings -/

/-- A store of a rewind: everything in the ring has been handed over before the first. -/
theorem Account.rewind {t r d k : Nat} {why : Reset} {pc : ThreadPc} {payload : List Rec}
    (h : Account s r d payload) (hB : BacklogInv s) (hok : FormatOk s (.thread t))
    (hpc : (s.threads t).pc = .reset why r k)
    (hnext : pc = .reset why r (k + 1) ∨ (2 ≤ k ∧ pc = afterReset why r))
    (hstep : step cfg s (.thread t)
      = some ((s.setRing r ((s.rings r).resetStore k)).goto t pc)) :
    Account ((s.setRing r ((s.rings r).resetStore k)).goto t pc) r 0 [] := by
  have hh := hB.format.own.hold
  have hold : Holds s t r := Or.inr (by rw [hpc]; rfl)
  have hring : ((s.setRing r ((s.rings r).resetStore k)).goto t pc).rings r
      = (s.rings r).resetStore k := rings_self s r t _ _
  have hw := hB.wiped t
  unfold Wiped at hw
  simp only [hpc] at hw
  obtain ⟨hcells, htail, hcache⟩ := resetStore_wipes hw.1 hw.2.1 hw.2.2
  have hhead : ((s.rings r).resetStore k).head = 0 := congrArg List.length hcells
  have hnil : payload = [] := by
    refine h.payload_nil hh hold fun xs ht => ?_
    obtain ⟨-, ⟨p, hpc'⟩ | hpc'⟩ := loaded_ring ht
    all_goals
      rw [hpc] at hpc'
      cases hpc'
  have hall : d = (s.rings r).head := by
    refine h.spent (Or.inr (Or.inl ⟨t, ?_⟩))
    unfold giving
    rw [hpc]
    rfl
  have hidle : ∀ p xs, pc ≠ .format p xs ∧ pc ≠ .pushLines xs := by
    intro p xs
    rcases hnext with rfl | ⟨-, rfl⟩
    · exact ⟨nofun, nofun⟩
    · cases why <;> exact ⟨nofun, nofun⟩
  have hlast : (∀ why' k', pc ≠ .reset why' r (k' + 1)) → 2 ≤ k := by
    intro hno
    rcases hnext with rfl | ⟨hk, -⟩
    · exact absurd rfl (hno why k)
    · exact hk
  refine Account.ofHolder hh hold hstep (Nat.zero_le _) (fun ctx p hp => ?_) (fun p hp => ?_)
    (fun _ _ hno => ?_) (fun hno => ?_) (fun _ => ?_) (fun hlt => ?_) (fun xs hxs => ?_)
    (fun _ => rfl) (fun x hx => ?_)
  · exact absurd (by rw [hp]; rfl) (hok.2 why r k hpc)
  · obtain ⟨-, xs, hpc'⟩ := formatting_ring hp
    rw [threads_goto] at hpc'
    exact absurd hpc' (hidle p xs).1
  · rw [threads_goto] at hno
    have hk := hlast hno
    rw [hring]
    exact ⟨htail (by omega), hcache hk⟩
  · rw [threads_goto] at hno
    have hk := hlast hno
    rw [hring, htail (by omega)]
  · rw [hring]
    exact hhead.symm
  · rw [hring, hhead] at hlt
    cases hlt
  · obtain ⟨-, hpc'⟩ := loaded_ring hxs
    rw [threads_goto] at hpc'
    rcases hpc' with ⟨p, hpc'⟩ | hpc'
    · exact absurd hpc' (hidle p xs).1
    · exact absurd hpc' (hidle .finished xs).2
  · have ht := h.tally x hx
    rw [hall] at ht
    rw [show (s.rings r).cells.drop (s.rings r).head = [] from List.drop_length, hnil] at ht
    rw [hring, hcells]
    exact ht

/-- A new ring. -/
theorem Account.alloc {t d : Nat} {payload : List Rec} (h : Account s s.nextRing d payload)
    (hB : BacklogInv s) (hstep : step cfg s (.thread t) = some (alloc t s)) :
    Account (Sys.alloc t s) s.nextRing 0 [] := by
  have hb := hB.format.own.hold.bounded
  have hnew : ¬ InUse s s.nextRing := fun hin => Nat.lt_irrefl _ (hb _ hin)
  have hring : (Sys.alloc t s).rings s.nextRing = Ring.fresh false := Function.update_self ..
  have hth : (Sys.alloc t s).threads t = { s.threads t with pc := .setInfo s.nextRing } :=
    threads_goto _ _ _
  have hnoform : ∀ t' p, formatting ((Sys.alloc t s).threads t') ≠ some (s.nextRing, p) := by
    intro t' p ht
    by_cases hne : t' = t
    · rw [hne, hth] at ht
      cases ht
    · have hact : (Action.thread t).actor ≠ some t' := fun heq => hne (Option.some.inj heq).symm
      rw [(step_alike hact hstep).1] at ht
      exact hnew (formatting_holds ht).inUse
  have hnoload : ∀ t' xs, loaded ((Sys.alloc t s).threads t') ≠ some (s.nextRing, xs) := by
    intro t' xs ht
    by_cases hne : t' = t
    · rw [hne, hth] at ht
      cases ht
    · have hact : (Action.thread t).actor ≠ some t' := fun heq => hne (Option.some.inj heq).symm
      rw [(step_alike hact hstep).2.1] at ht
      exact hnew (loaded_holds ht).inUse
  have hnil : payload = [] := h.carriesNone fun t' xs ht => hnew (loaded_holds ht).inUse
  obtain ⟨b, hblank⟩ := hB.unmade s.nextRing (Nat.le_refl _)
  refine ⟨Nat.zero_le _, fun p hp => ?_, fun _ _ => ?_, fun _ => ?_,
    fun t' p ht => absurd ht (hnoform t' p), fun _ => ?_, fun hlt => ?_,
    fun t' xs ht => absurd ht (hnoload t' xs), fun _ => rfl, fun x hx => ?_⟩
  · rcases hp with ⟨ctx, hpc⟩ | ⟨t', ht⟩
    · refine (hnew (Or.inl (passing_known ?_))).elim
      rw [show s.drain.pc = _ from hpc]
      rfl
    · exact absurd ht (hnoform t' p)
  · rw [hring]
    exact ⟨rfl, rfl⟩
  · rw [hring]
    exact Nat.le_refl _
  · rw [hring]
    rfl
  · rw [hring] at hlt
    cases hlt
  · have ht := h.tally x hx
    rw [hblank, hnil] at ht
    rw [hring]
    change s.published.count x = s.delivered.count x + s.queued.count x + _ + _
    simpa [Ring.fresh] using ht

/-! ## Every step of a thread -/

theorem count_append_of_not_mem {xs ys : List Rec} {x : Rec} (h : x ∉ ys) :
    (xs ++ ys).count x = xs.count x := by
  rw [List.count_append, List.count_eq_zero_of_not_mem h, Nat.add_zero]

/-- The positions of a thread with no records in its hands. -/
def aside : ThreadPc → Bool
  | .format _ _ | .pushLines _ => false
  | _ => true

theorem aside_formatting {th : Thread} (h : aside th.pc = true) : formatting th = none := by
  unfold formatting
  split
  next hpc _ =>
    rw [hpc] at h
    cases h
  next => rfl

theorem aside_loaded {th : Thread} (h : aside th.pc = true) : loaded th = none := by
  unfold loaded
  split
  next hpc _ =>
    rw [hpc] at h
    cases h
  next hpc _ =>
    rw [hpc] at h
    cases h
  next => rfl

theorem Aloof.of_aside {a b : Thread} {r : Nat} (ha : aside a.pc = true) (hb : aside b.pc = true)
    (hr : ∀ why k, a.pc ≠ .reset why r (k + 1)) : Aloof a b r := by
  refine ⟨fun p => ?_, fun xs => ?_, hr⟩
  · rw [aside_formatting ha, aside_formatting hb]
  · rw [aside_loaded ha, aside_loaded hb]

/-- A thread at work on another ring. -/
theorem Aloof.of_ring {a b : Thread} {r r₀ : Nat} (hne : r ≠ r₀) (ha : a.ring = some r₀)
    (hb : b.ring = some r₀) (hr : ∀ why k, a.pc ≠ .reset why r (k + 1)) : Aloof a b r := by
  have hcon : ∀ {th : Thread}, th.ring = some r₀ → th.ring = some r → False := by
    intro th h₀ h
    exact hne (Option.some.inj (h.symm.trans h₀))
  exact ⟨fun p => ⟨fun h => (hcon hb (formatting_ring h).1).elim,
      fun h => (hcon ha (formatting_ring h).1).elim⟩,
    fun xs => ⟨fun h => (hcon hb (loaded_ring h).1).elim,
      fun h => (hcon ha (loaded_ring h).1).elim⟩, hr⟩

theorem thread_account (hB : BacklogInv s) (h : ∀ r, ∃ d payload, Account s r d payload) {t : Nat}
    (hok : FormatOk s (.thread t)) (hstep : step cfg s (.thread t) = some s') (r : Nat) :
    ∃ d payload, Account s' r d payload := by
  obtain ⟨d, payload, hr⟩ := h r
  have hm : ThreadMove cfg t s s' := threadStep_move hstep
  have hd : s'.drain = s.drain := hm.frame.1
  -- the accesses of other rings, and those that touch no records
  have hframe : SameContent (s.rings r) (s'.rings r) →
      Aloof (s.threads t) (s'.threads t) r →
      (∀ x, x.ring = r → s'.published.count x = s.published.count x ∧
        s'.lines.count x = s.lines.count x) → ∃ d payload, Account s' r d payload := by
    intro hcontent haloof hcount
    refine ⟨d, payload, hr.frame hB hok hstep hcontent (fun ctx p => by rw [hd])
      (fun t' ht' => ?_) fun x hx => ⟨(hcount x hx).1, ?_⟩⟩
    · obtain rfl := Option.some.inj ht'
      exact haloof
    · unfold delivered queued
      rw [hm.frame.2.2.2, hd, List.count_append, List.count_append, (hcount x hx).2]
  have hflag : ∀ {r₀ : Nat} {v : Ring}, SameContent (s.rings r₀) v →
      SameContent (s.rings r) (Function.update s.rings r₀ v r) :=
    fun hv => SameContent.update fun _ => hv
  have hother : ∀ {r₀ : Nat} {v : Ring}, r ≠ r₀ →
      SameContent (s.rings r) (Function.update s.rings r₀ v r) :=
    fun hne => SameContent.update fun heq => absurd heq hne
  have hsame : ∀ x : Rec, x.ring = r → s.published.count x = s.published.count x ∧
      s.lines.count x = s.lines.count x := fun _ _ => ⟨rfl, rfl⟩
  have haside : ∀ {s₁ : Sys} {pc pc' : ThreadPc}, (s.threads t).pc = pc → aside pc = true →
      aside pc' = true → (∀ why k, pc ≠ .reset why r (k + 1)) →
      Aloof (s.threads t) ((s₁.goto t pc').threads t) r := by
    rintro s₁ pc pc' rfl ha hb hr
    refine .of_aside ha ?_ hr
    rw [threads_goto]
    exact hb
  cases hm with
  | takeFirst hpc => exact hframe (.refl _) (haside hpc rfl rfl nofun) hsame
  | takeSpare hpc =>
    rcases hpc with hpc | hpc | hpc
    all_goals exact hframe (.refl _) (haside hpc rfl rfl nofun) hsame
  | allocFirst hpc | allocFresh hpc =>
    by_cases hne : r = s.nextRing
    · subst hne
      exact ⟨0, [], hr.alloc hB hstep⟩
    · exact hframe (hother hne) (haside hpc rfl rfl nofun) hsame
  | @reset why r₀ k hpc hk =>
    by_cases hne : r = r₀
    · subst hne
      exact ⟨0, [], hr.rewind hB hok hpc (Or.inl rfl) hstep⟩
    · refine hframe (hother hne) (haside hpc rfl rfl fun why' k' heq => ?_) hsame
      cases heq
      exact hne rfl
  | @resetLast why r₀ k hpc hk =>
    have hk2 : 2 ≤ k := by
      unfold Ring.resetSteps at hk
      omega
    by_cases hne : r = r₀
    · subst hne
      exact ⟨0, [], hr.rewind hB hok hpc (Or.inr ⟨hk2, rfl⟩) hstep⟩
    · refine hframe (hother hne) (haside hpc rfl ?_ fun why' k' heq => ?_) hsame
      · cases why <;> rfl
      · cases heq
        exact hne rfl
  | setInfo hpc => exact hframe (hflag ⟨rfl, rfl, rfl⟩) (haside hpc rfl rfl nofun) hsame
  | register hpc => exact hframe (hflag ⟨rfl, rfl, rfl⟩) (haside hpc rfl rfl nofun) hsame
  | switch hpc =>
    refine hframe (.refl _) (.of_aside (by rw [hpc]; rfl) ?_ (by rw [hpc]; nofun)) hsame
    rw [threads_self]
    rfl
  | granted hpc => exact hframe (.refl _) (haside hpc rfl rfl nofun) hsame
  | full hpc hr₀ hroom hnext =>
    rcases hnext with ⟨-, rfl⟩ | ⟨-, rfl⟩ | ⟨-, rfl⟩
    all_goals exact hframe (.refl _) (haside hpc rfl rfl nofun) hsame
  | spin hpc hr₀ =>
    refine hframe (.refl _) (haside hpc rfl ?_ nofun) hsame
    split <;> rfl
  | @publish r₀ hpc hr₀ =>
    by_cases hne : r = r₀
    · subst hne
      exact ⟨d, payload, hr.publish hB hok hpc hr₀ hstep⟩
    · refine hframe (hother hne) (.of_aside (by rw [hpc]; rfl) ?_ (by rw [hpc]; nofun))
        fun x hx => ⟨?_, rfl⟩
      · rw [show (publish t r₀ s).threads t = _ from threads_self _ _ _]
        rfl
      · -- the new record is another ring's
        refine count_append_of_not_mem fun hmem => ?_
        rw [List.mem_singleton.mp hmem] at hx
        exact hne hx.symm
  | markHandedOff hpc =>
    refine hframe (hflag ⟨rfl, rfl, rfl⟩) (haside hpc rfl ?_ nofun) hsame
    split <;> rfl
  | noSpare hpc =>
    rcases hpc with ⟨hpc, rfl⟩ | ⟨hpc, rfl⟩ | ⟨hpc, rfl⟩
    all_goals exact hframe (.refl _) (haside hpc rfl rfl nofun) hsame
  | reserveHelper hpc => exact hframe (hflag ⟨rfl, rfl, rfl⟩) (haside hpc rfl rfl nofun) hsame
  | formatSpin hpc =>
    exact hframe (.refl _) (.of_aside (by rw [hpc]; rfl) (by rw [hpc]; rfl) (by rw [hpc]; nofun))
      hsame
  | @formatEnter r₀ hpc hr₀ hoff =>
    by_cases hne : r = r₀
    · subst hne
      exact ⟨d, payload, hr.formatEnter hB hok hpc hr₀ hoff hstep⟩
    · refine hframe (.refl _) (.of_ring hne hr₀ ?_ (by rw [hpc]; nofun)) hsame
      rw [threads_goto]
      exact hr₀
  | @format r₀ p p' xs ring' x hpc hr₀ hp hst =>
    by_cases hne : r = r₀
    · subst hne
      obtain ⟨d', hd'⟩ := hr.format hB hok hpc hr₀ hp hst hstep
      exact ⟨d', _, hd'⟩
    · refine hframe (hother hne) (.of_ring hne hr₀ ?_ (by rw [hpc]; nofun)) hsame
      rw [threads_goto]
      exact hr₀
  | @formatDone r₀ xs hpc hr₀ =>
    by_cases hne : r = r₀
    · subst hne
      exact ⟨d, payload, hr.formatDone hB hok hpc hr₀ hstep⟩
    · refine hframe (.refl _) (.of_ring hne hr₀ ?_ (by rw [hpc]; nofun)) hsame
      rw [threads_goto]
      exact hr₀
  | @pushLines r₀ xs hpc hr₀ =>
    by_cases hne : r = r₀
    · subst hne
      exact ⟨d, [], hr.pushLines hB hok hpc hr₀ hstep⟩
    · refine hframe (.refl _) (.of_ring hne hr₀ ?_ (by rw [hpc]; nofun)) fun x hx => ⟨rfl, ?_⟩
      · rw [threads_goto]
        exact hr₀
      · -- the lines pushed are another ring's
        refine count_append_of_not_mem fun hmem => ?_
        have hring := hB.named.loaded t r₀ xs x (loaded_pushLines hpc hr₀) hmem
        exact hne (hx.symm.trans hring)
  | recycle hpc => exact hframe (.refl _) (haside hpc rfl rfl nofun) hsame
  | poolLive hpc hr₀ =>
    refine hframe (.refl _) (haside hpc rfl ?_ nofun) hsame
    split <;> rfl
  | poolWait hpc => exact hframe (.refl _) (haside hpc rfl rfl nofun) hsame

/-! ## The drain's pass -/

/-- The account of a ring after an access of the drain, while no helper formats it. -/
theorem Account.ofDrain {r d d' : Nat} {payload : List Rec} (h : Account s r d payload)
    (hstep : step cfg s .drain = some s')
    (hno : ∀ t p, formatting (s.threads t) ≠ some (r, p))
    (hle : d' ≤ (s'.rings r).head)
    (hdrain : ∀ ctx p, s'.drain.pc = .pass ctx r p → PassAt (s'.rings r) d' p)
    (hrest : (∀ ctx p, s'.drain.pc ≠ .pass ctx r p) → ¬ Rewound s r →
      (s'.rings r).tail = d' ∧ (s'.rings r).headCache = d')
    (hbehind : ¬ Rewound s r → (s'.rings r).tail ≤ d')
    (hspent : Spent s' r → d' = (s'.rings r).head)
    (hbacklog : d' < (s'.rings r).head → r ∈ s'.registry)
    (htally : ∀ x, x.ring = r → s'.published.count x =
      s'.delivered.count x + s'.queued.count x + payload.count x +
        ((s'.rings r).cells.drop d').count x) : Account s' r d' payload := by
  have halike : ∀ t, _ := fun t =>
    step_alike (t := t) (a := .drain) (show Action.drain.actor ≠ some t by nofun) hstep
  have hnot : ∀ t p, formatting (s'.threads t) ≠ some (r, p) := fun t p ht =>
    hno t p ((halike t).1 ▸ ht)
  have hrew : ¬ Rewound s' r → ¬ Rewound s r := by
    rintro hr' ⟨t, why, k, hpc⟩
    exact hr' ⟨t, why, k, ((halike t).2.2.2 why r (k + 1)).mpr hpc⟩
  refine ⟨hle, fun p hp => ?_, fun hno' hr' => ?_, fun hr' => hbehind (hrew hr'),
    fun t p ht => absurd ht (hnot t p), hspent, hbacklog, fun t xs ht => ?_, fun hno' => ?_, htally⟩
  · rcases hp with ⟨ctx, hpc⟩ | ⟨t, ht⟩
    · exact hdrain ctx p hpc
    · exact absurd ht (hnot t p)
  · exact hrest (fun ctx p hpc => hno' p (Or.inl ⟨ctx, hpc⟩)) (hrew hr')
  · exact h.carries t xs ((halike t).2.1 ▸ ht)
  · exact h.carriesNone fun t xs ht => hno' t xs ((halike t).2.1.trans ht)

/-- The drain enters its pass. -/
theorem Account.mark {ctx : PassCtx} {r d : Nat} {payload : List Rec} (h : Account s r d payload)
    (hB : BacklogInv s) (hok : FormatOk s .drain) (hpc : s.drain.pc = .mark ctx r)
    (hstep : step cfg s .drain = some
      ((s.setRing r { s.rings r with draining := true }).drainTo (.pass ctx r .loadTail))) :
    Account ((s.setRing r { s.rings r with draining := true }).drainTo (.pass ctx r .loadTail))
      r d payload := by
  have hring : ((s.setRing r { s.rings r with draining := true }).drainTo
      (.pass ctx r .loadTail)).rings r = { s.rings r with draining := true } :=
    Function.update_self ..
  have hfree := hok.2 ctx r hpc
  have hno : ∀ t p, formatting (s.threads t) ≠ some (r, p) := by
    intro t p ht
    obtain ⟨hr, xs, hpc'⟩ := formatting_ring ht
    refine hfree t ?_
    unfold reworking
    rw [hpc']
    exact hr
  have hnorew : ¬ Rewound s r := by
    rintro ⟨t, why, k, hpc'⟩
    refine hfree t ?_
    unfold reworking
    rw [hpc']
  have hnoreader : ∀ p, ¬ Reader s r p := by
    rintro p (⟨ctx', hpc'⟩ | ⟨t, ht⟩)
    · rw [hpc] at hpc'
      cases hpc'
    · exact hno t p ht
  obtain ⟨htail, hcache⟩ := h.rest hnoreader hnorew
  refine h.ofDrain hstep hno (by rw [hring]; exact h.le) (fun ctx' p hp => ?_)
    (fun hno' _ => absurd rfl (hno' ctx .loadTail)) (fun _ => ?_) (fun hsp => ?_) (fun hlt => ?_)
    (fun x hx => ?_)
  · cases hp
    rw [hring]
    exact ⟨htail, hcache⟩
  · rw [hring]
    exact htail.le
  · rw [hring]
    exact h.spent_step hB hok hstep hsp
  · rw [hring] at hlt
    exact h.backlog hlt
  · have ht := h.tally x hx
    rw [hring]
    have hq : s.queued = s.lines := by
      unfold queued
      rw [hpc]
      rfl
    rw [hq] at ht
    exact ht

/-- An access of the drain inside its pass. -/
theorem Account.pass {ctx : PassCtx} {r d : Nat} {payload : List Rec} {p p' : Pass} {ring' : Ring}
    {x : Option Rec} (h : Account s r d payload) (hB : BacklogInv s) (hok : FormatOk s .drain)
    (hpc : s.drain.pc = .pass ctx r p) (hp : p ≠ .finished)
    (hst : Pass.step (s.rings r) p = (p', ring', x))
    (hstep : step cfg s .drain = some
      ((acceptAll (PassCtx.path ctx) x.toList (s.setRing r ring')).drainTo (.pass ctx r p'))) :
    ∃ d', Account
      ((acceptAll (PassCtx.path ctx) x.toList (s.setRing r ring')).drainTo (.pass ctx r p'))
      r d' payload := by
  have hring : ((acceptAll (PassCtx.path ctx) x.toList (s.setRing r ring')).drainTo
      (.pass ctx r p')).rings r = ring' := Function.update_self ..
  have hat := h.reader p (Or.inl ⟨ctx, hpc⟩)
  obtain ⟨d', hle, hle', hhead, hat', hdrop⟩ := pass_moves hat h.le hp hst
  have hpassing : passing s.drain.pc = some r := by rw [hpc]; rfl
  have hno : ∀ t p, formatting (s.threads t) ≠ some (r, p) := by
    intro t q ht
    obtain ⟨hr, xs, hpc'⟩ := formatting_ring ht
    exact hB.format.apart.unformatted r hpassing t q xs hr hpc'
  refine ⟨d', h.ofDrain hstep hno (by rw [hring]; exact hle') (fun ctx' q hq => ?_)
    (fun hno' _ => absurd rfl (hno' ctx p')) (fun hr => ?_) (fun hsp => ?_) (fun hlt => ?_)
    (fun y hy => ?_)⟩
  · cases hq
    rw [hring]
    exact hat'
  · have hb := h.behind hr
    rw [hring]
    rcases Pass.step_tail hat hst with heq | heq <;> omega
  · have hd := h.spent_step hB hok hstep hsp
    rw [hring]
    omega
  · rw [hring] at hlt
    exact h.backlog (by omega)
  · have ht := h.tally y hy
    have hdel : ((acceptAll (PassCtx.path ctx) x.toList (s.setRing r ring')).drainTo
        (.pass ctx r p')).delivered = s.delivered ++ x.toList := delivered_acceptAll _ _
    have hq : s.queued = s.lines := by
      unfold queued
      rw [hpc]
      rfl
    rw [hq, hdrop, List.count_append] at ht
    rw [hring, hdel, List.count_append]
    change s.published.count y = _ + s.lines.count y + _ + _
    omega

/-- The drain leaves its pass. -/
theorem Account.passDone {ctx : PassCtx} {r d : Nat} {payload : List Rec}
    (h : Account s r d payload) (hB : BacklogInv s) (hok : FormatOk s .drain)
    (hpc : s.drain.pc = .pass ctx r .finished)
    (hstep : step cfg s .drain = some (s.drainTo (.clear ctx r))) :
    Account (s.drainTo (.clear ctx r)) r d payload := by
  obtain ⟨htail, hcache⟩ := h.reader _ (Or.inl ⟨ctx, hpc⟩)
  have hpassing : passing s.drain.pc = some r := by rw [hpc]; rfl
  have hno : ∀ t p, formatting (s.threads t) ≠ some (r, p) := by
    intro t q ht
    obtain ⟨hr, xs, hpc'⟩ := formatting_ring ht
    exact hB.format.apart.unformatted r hpassing t q xs hr hpc'
  refine h.ofDrain hstep hno h.le nofun (fun _ _ => ⟨htail, hcache⟩) (fun _ => htail.le)
    (fun hsp => h.spent_step hB hok hstep hsp) h.backlog (fun x hx => ?_)
  have ht := h.tally x hx
  have hq : s.queued = s.lines := by
    unfold queued
    rw [hpc]
    rfl
  rw [hq] at ht
  exact ht

/-! ## Every step of the drain -/

/-- The positions of the drain outside its passes and away from the queue. -/
def offPass : LoopPc → Bool
  | .pass _ _ _ | .deliver _ => false
  | _ => true

theorem syncing_offPass {pc : LoopPc} (h : syncing pc = true) : offPass pc = true := by
  cases pc <;> first | rfl | cases h

theorem queued_offPass (h : offPass s.drain.pc = true) : s.queued = s.lines := by
  unfold queued
  cases hpc : s.drain.pc with
  | deliver todo =>
    rw [hpc] at h
    cases h
  | _ => rfl

theorem offPass_pass {pc : LoopPc} (h : offPass pc = true) (ctx : PassCtx) (r : Nat) (p : Pass) :
    pc ≠ .pass ctx r p := by
  rintro rfl
  cases h

theorem offPass_afterPass (ctx : PassCtx) (r : Nat) : offPass (afterPass cfg ctx r) = true := by
  cases ctx with
  | final =>
    unfold afterPass
    dsimp only
    cases cfg.segmented <;> rfl
  | poll i k => rfl

theorem drain_account (hB : BacklogInv s) (h : ∀ r, ∃ d payload, Account s r d payload)
    (hok : FormatOk s .drain) (hstep : step cfg s .drain = some s') (r : Nat) :
    ∃ d payload, Account s' r d payload := by
  obtain ⟨d, payload, hr⟩ := h r
  have hm : DrainMove cfg s s' := drainStep_move hstep
  have hpub : s'.published = s.published := (drain_keeps hm).published
  have hframe : SameContent (s.rings r) (s'.rings r) →
      (∀ ctx p, s'.drain.pc = .pass ctx r p ↔ s.drain.pc = .pass ctx r p) →
      (∀ x, x.ring = r → s'.delivered.count x + s'.queued.count x
        = s.delivered.count x + s.queued.count x) → ∃ d payload, Account s' r d payload :=
    fun hcontent hpass hcount => ⟨d, payload, hr.frame hB hok hstep hcontent hpass nofun
      fun x hx => ⟨by rw [hpub], hcount x hx⟩⟩
  -- away from the passes and the queue
  have hoff : SameContent (s.rings r) (s'.rings r) → s'.delivered = s.delivered →
      s'.lines = s.lines → offPass s.drain.pc = true → offPass s'.drain.pc = true →
      ∃ d payload, Account s' r d payload := by
    intro hcontent hdel hlines hpc hpc'
    refine hframe hcontent (fun ctx p => ?_) fun x _ => ?_
    · exact ⟨fun hp => absurd hp (offPass_pass hpc' ctx r p),
        fun hp => absurd hp (offPass_pass hpc ctx r p)⟩
    · rw [hdel, queued_offPass hpc, queued_offPass hpc', hlines]
  have hscan : ∀ {s₁ : Sys}, ScanFrame s s₁ → s₁ = s' → syncing s'.drain.pc = true →
      offPass s.drain.pc = true → ∃ d payload, Account s' r d payload := by
    rintro s₁ hf rfl hs hpc
    refine hoff ?_ ?_ hf.lines hpc (syncing_offPass hs)
    · rw [hf.rings]
      exact .refl _
    · unfold delivered
      rw [hf.sink]
  have hflag : ∀ {r₀ : Nat} {v : Ring}, SameContent (s.rings r₀) v →
      SameContent (s.rings r) (Function.update s.rings r₀ v r) :=
    fun hv => SameContent.update fun _ => hv
  -- a pass over another ring
  have hnot : ∀ {pc pc' : LoopPc} {r₀ : Nat}, r ≠ r₀ → (∀ ctx p, pc = .pass ctx r p → False) →
      (∀ ctx p, pc' = .pass ctx r p → False) →
      ∀ ctx p, pc' = .pass ctx r p ↔ pc = .pass ctx r p := fun _ h h' ctx p =>
    ⟨fun hp => (h' ctx p hp).elim, fun hp => (h ctx p hp).elim⟩
  cases hm with
  | syncNext hpc hsub =>
    exact hscan (syncNext_frame _) rfl (syncNext_syncing _) (by rw [hpc]; rfl)
  | syncLive hpc hsub hl =>
    exact hscan (syncDecide_frame _ _) rfl (syncDecide_syncing hpc) (by rw [hpc]; rfl)
  | syncDead hpc hsub =>
    exact hscan (syncDecide_frame _ _) rfl (syncDecide_syncing hpc) (by rw [hpc]; rfl)
  | enter hpc hsh hnext =>
    rcases hnext with rfl | ⟨-, rfl⟩
    all_goals exact hoff (.refl _) rfl rfl (by rw [hpc]; rfl) rfl
  | pollDone hpc he hnext =>
    rcases hnext with ⟨-, rfl⟩ | ⟨-, rfl⟩
    all_goals exact hoff (.refl _) rfl rfl (by rw [hpc]; rfl) rfl
  | @mark ctx r₀ hpc =>
    by_cases hne : r = r₀
    · subst hne
      exact ⟨d, payload, hr.mark hB hok hpc hstep⟩
    · refine hframe (hflag ⟨rfl, rfl, rfl⟩) (hnot hne ?_ ?_) fun x _ => ?_
      · rw [hpc]
        nofun
      · rintro ctx' p hp
        cases hp
        exact hne rfl
      · rw [queued_offPass (s := s) (by rw [hpc]; rfl)]
        rfl
  | @passDone ctx r₀ hpc =>
    by_cases hne : r = r₀
    · subst hne
      exact ⟨d, payload, hr.passDone hB hok hpc hstep⟩
    · refine hframe (.refl _) (hnot hne ?_ nofun) fun x _ => ?_
      · rw [hpc]
        rintro ctx' p hp
        cases hp
        exact hne rfl
      · unfold queued
        rw [hpc]
        rfl
  | @pass ctx r₀ p p' ring' x hpc hp hst =>
    by_cases hne : r = r₀
    · subst hne
      obtain ⟨d', hd'⟩ := hr.pass hB hok hpc hp hst hstep
      exact ⟨d', payload, hd'⟩
    · obtain ⟨d₀, payload₀, h₀⟩ := h r₀
      obtain ⟨d', -, -, -, -, hdrop⟩ := pass_moves (h₀.reader p (Or.inl ⟨ctx, hpc⟩)) h₀.le hp hst
      refine hframe ?_ (hnot hne ?_ ?_) fun y hy => ?_
      · exact SameContent.update fun heq => absurd heq hne
      · rw [hpc]
        rintro ctx' q hq
        cases hq
        exact hne rfl
      · rintro ctx' q hq
        cases hq
        exact hne rfl
      · rw [show ((acceptAll (PassCtx.path ctx) x.toList (s.setRing r₀ ring')).drainTo
          (.pass ctx r₀ p')).delivered = s.delivered ++ x.toList from delivered_acceptAll _ _,
          count_append_of_not_mem]
        · unfold queued
          rw [hpc]
          rfl
        · -- the record handed over is the other ring's
          intro hmem
          have hin : y ∈ (s.rings r₀).cells := by
            refine List.mem_of_mem_drop (i := d₀) ?_
            rw [hdrop]
            exact List.mem_append_left _ hmem
          exact hne (hy.symm.trans (hB.named.storage r₀ y (List.mem_append_left _ hin)))
  | clear hpc =>
    next ctx r₀ =>
      refine hoff (hflag ⟨rfl, rfl, rfl⟩) rfl rfl (by rw [hpc]; rfl) ?_
      exact offPass_afterPass ctx r₀
  | retired hpc =>
    refine hoff (.refl _) rfl rfl (by rw [hpc]; rfl) ?_
    dsimp only
    cases cfg.segmented <;> rfl
  | markRecycled hpc => exact hoff (hflag ⟨rfl, rfl, rfl⟩) rfl rfl (by rw [hpc]; rfl) rfl
  | @notRecycled ctx r₀ hpc =>
    refine hoff (.refl _) rfl rfl (by rw [hpc]; rfl) ?_
    cases ctx <;> rfl
  | @recycle ctx r₀ hpc =>
    refine hoff (.refl _) rfl rfl (by rw [hpc]; rfl) ?_
    cases ctx <;> rfl
  | takeLines hpc =>
    refine hframe (.refl _) (fun ctx p => by rw [hpc]; exact ⟨nofun, nofun⟩) fun x _ => ?_
    rw [queued_offPass (s := s) (by rw [hpc]; rfl)]
    unfold queued
    rw [drainTo_drain, drainTo_lines, List.append_nil]
    rfl
  | @deliver x rest hpc =>
    refine hframe (.refl _) (fun ctx p => by rw [hpc]; exact ⟨nofun, nofun⟩) fun y _ => ?_
    have hdel : ((acceptAll .queue [x] s).drainTo (.deliver rest)).delivered = s.delivered ++ [x] :=
      delivered_acceptAll _ _
    have hq : s.queued = x :: rest ++ s.lines := by
      unfold queued
      rw [hpc]
    have hq' : ((acceptAll .queue [x] s).drainTo (.deliver rest)).queued = rest ++ s.lines := rfl
    rw [hdel, hq, hq', ← List.count_append, ← List.count_append, List.append_assoc]
    rfl
  | delivered hpc =>
    refine hframe (.refl _) (fun ctx p => by rw [hpc]; exact ⟨nofun, nofun⟩) fun x _ => ?_
    unfold queued
    rw [hpc]
    rfl
  | lastFlush hpc =>
    refine hoff (.refl _) ?_ rfl (by rw [hpc]; rfl) rfl
    simp [Sys.delivered]
  | flush hpc =>
    refine hoff (.refl _) ?_ rfl (by rw [hpc]; rfl) rfl
    simp [Sys.delivered]
  | leave hpc | lock hpc | syncHalf hpc | finalRing hpc | finalDone hpc | entry hpc | stale hpc
  | skip hpc | unreserved hpc | keepEntry hpc | handedOff hpc | notReserved hpc | sameSerial hpc
  | loadHead hpc | drained hpc | lastPoll hpc | worked hpc | idleDirty hpc | idleClean hpc
  | again hpc =>
    exact hoff (.refl _) rfl rfl (by rw [hpc]; rfl) rfl

/-- The ledger: an account for each ring. -/
structure LedgerInv (s : Sys) : Prop where
  backlog : BacklogInv s
  account : ∀ r, ∃ d payload, Account s r d payload

theorem init_ledger : LedgerInv (Sys.init cfg) := ⟨init_backlog, fun r => ⟨0, [], init_account r⟩⟩

theorem step_ledger {a : Action} (h : LedgerInv s) (hok : FormatOk s a)
    (hstep : step cfg s a = some s') : LedgerInv s' := by
  refine ⟨step_backlog h.backlog hok hstep, fun r => ?_⟩
  -- a thread that starts a log call or wakes touches no ring
  have hidle : ∀ {t : Nat}, a.actor = some t → a ≠ .drain → s'.rings = s.rings →
      s'.published = s.published → s'.lines = s.lines → aside (s.threads t).pc = true →
      aside (s'.threads t).pc = true → (∀ why r k, (s.threads t).pc ≠ .reset why r k) →
      ∃ d payload, Account s' r d payload := by
    intro t hact ha hrings hpub hlines hpc hpc' hno
    obtain ⟨d, payload, hr⟩ := h.account r
    obtain ⟨hd, hsink⟩ := step_drain_frame ha hstep
    refine ⟨d, payload, hr.frame h.backlog hok hstep ?_ (fun ctx p => by rw [hd])
      (fun t' ht' => ?_) fun x _ => ⟨by rw [hpub], ?_⟩⟩
    · rw [hrings]
      exact .refl _
    · obtain rfl := Option.some.inj (hact.symm.trans ht')
      exact .of_aside hpc hpc' fun why k => hno why r (k + 1)
    · unfold Sys.delivered queued
      rw [hsink, hd, hlines]
  cases a with
  | log t total =>
    obtain ⟨hpc, pc, hpc', rfl⟩ := log_inv hstep
    refine hidle rfl nofun rfl rfl rfl (by rw [hpc]; rfl) ?_ (by rw [hpc]; nofun)
    rw [threads_self]
    rcases hpc' with rfl | rfl <;> rfl
  | wake t =>
    obtain ⟨hpc, rfl⟩ := wake_inv hstep
    refine hidle rfl nofun rfl rfl rfl (by rw [hpc]; rfl) ?_ (by rw [hpc]; nofun)
    rw [threads_goto]
    rfl
  | thread t => exact thread_account h.backlog h.account hok hstep r
  | drain => exact drain_account h.backlog h.account hok hstep r
  | exit | guard => exact hok.elim

end Sys

end Ticklog
