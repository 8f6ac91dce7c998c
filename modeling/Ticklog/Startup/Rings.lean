import Mathlib.Data.List.Nodup
import Ticklog.Startup.Calls

/-!
# Every thread gets one ring of its own

A ring that is allocated goes from the pool, or from nowhere, into the hands of one thread and
stays its ring: nobody else gets it, and the registry lists it once, under that thread's id and
name. A thread's calls run their closures, but for calls from inside a closure and calls that
find no registry.
-/

namespace Ticklog

open Lib

namespace Startup

variable {ι : Type} {b : Build} {options : ι → Options} {names : Nat → Option String}
  {s s' : State ι}

/-! ## Names -/

theorem boundaryAt_le (name : List UInt8) (n : Nat) : boundaryAt name n ≤ n := by
  induction n with
  | zero => exact Nat.le_refl 0
  | succ n ih =>
    unfold boundaryAt
    split
    · split
      · exact Nat.le_succ_of_le ih
      · exact Nat.le_refl _
    · exact Nat.le_refl _

/-- The walk back stops at the first place where a character starts. -/
theorem le_boundaryAt {name : List UInt8} {m n : Nat} {byte : UInt8} (hm : m ≤ n)
    (hb : name[m]? = some byte) (hstart : ¬ Continues byte) : m ≤ boundaryAt name n := by
  induction n with
  | zero => omega
  | succ n ih =>
    unfold boundaryAt
    by_cases heq : m = n + 1
    · subst heq
      rw [hb]
      dsimp only
      rw [if_neg hstart]
    · have hle := ih (by omega)
      split
      · split
        · exact hle
        · omega
      · omega

/-- What comes before the boundary is text. -/
theorem take_boundaryAt {name : List UInt8} (h : Utf8 name) {n : Nat} (hn : n < name.length) :
    Utf8 (name.take (boundaryAt name n)) := by
  induction n with
  | zero => exact Utf8.nil
  | succ n ih =>
    unfold boundaryAt
    have hget : name[n + 1]? = some name[n + 1] := List.getElem?_eq_getElem hn
    rw [hget]
    dsimp only
    by_cases hc : Continues name[n + 1]
    · rw [if_pos hc]
      exact ih (by omega)
    · rw [if_neg hc]
      have hsplit : name.take (n + 1) ++ name[n + 1] :: name.drop (n + 2) = name := by
        rw [← List.drop_eq_getElem_cons hn]
        exact List.take_append_drop _ _
      exact (Utf8.cut_at hc (hsplit ▸ h)).1

/-- The start of a name that is shown for it: all of a short one, and of a long one at most 256
bytes, cut between two characters and not too early. -/
structure Shown (name shown : List UInt8) : Prop where
  start : shown <+: name
  text : Utf8 shown
  short : shown.length ≤ 256
  whole : name.length ≤ 256 → shown = name
  long : 256 < name.length → 252 < shown.length

theorem shortName_shown {name : List UInt8} (h : Utf8 name) : Shown name (shortName name) := by
  unfold shortName
  by_cases hlong : maxThreadNameLen < name.length
  · rw [if_pos hlong]
    have hle : boundaryAt name maxThreadNameLen ≤ 256 := boundaryAt_le name maxThreadNameLen
    have hlen : 256 < name.length := hlong
    have hcut : (name.take (boundaryAt name maxThreadNameLen)).length
        = boundaryAt name maxThreadNameLen := by
      rw [List.length_take]
      omega
    refine ⟨List.take_prefix _ _, take_boundaryAt h hlong, by omega, fun _ => by omega, ?_⟩
    rintro -
    obtain ⟨m, byte, hm, hnear, hb, hstart⟩ := Utf8.starts_within h hlong
    have hback := le_boundaryAt hm hb hstart
    have hmax : maxThreadNameLen = 256 := rfl
    omega
  · rw [if_neg hlong]
    have hmax : maxThreadNameLen = 256 := rfl
    exact ⟨List.prefix_refl _, h, by omega, fun _ => rfl, fun _ => by omega⟩

/-! ## The slots -/

/-- The thread is on its way to its first ring. -/
def starting : SlotPc → Bool
  | .idle | .running => false
  | _ => true

/-- The call that has neither run its closure nor ended. -/
def pending : SlotPc → Nat
  | .idle | .running => 0
  | _ => 1

/-- The ring a thread has in hand, not registered yet. -/
def inHand : SlotPc → Option NewRing
  | .setThreadInfo ring | .register ring => some ring
  | _ => none

/-- What `with_thread_buf` has made of a thread's slot. -/
structure SlotOk (name : Option String) (t : Nat) (th : ThreadSlot) : Prop where
  /-- The flag is up exactly inside: a call from outside is never refused. -/
  active : th.active = true ↔ th.pc ≠ .idle
  unset : starting th.pc = true → th.buf = none
  set : th.pc = .running → th.buf.isSome = true
  counted : th.entered = th.ran + th.refused + th.panicked + pending th.pc
  named : ∀ ring, th.pc = .register ring → ring.threadId = t ∧ ring.threadName = threadName name

theorem move_others {name : Option String} {t t' : Nat} (h : SlotMove b name s t s')
    (ht : t' ≠ t) : s'.threads t' = s.threads t' := by
  cases h with
  | refuse | again | first | unready | ringCapacity | installed | spare | carve | heap
  | setThreadInfo | register | panic | leave => exact Function.update_of_ne ht _ _

/-- The thread's ring, or the one it is about to register. -/
def Owned (s : State ι) (t : Nat) (ring : NewRing) : Prop :=
  inHand (s.threads t).pc = some ring ∨ (s.threads t).buf = some ring

/-- The pool's segments. -/
def spares (s : State ι) : List Nat :=
  match s.segments with
  | some pool => pool.spares
  | none => []

/-- A ring is one thread's, or the pool's, or not made yet. -/
structure Ids (s : State ι) : Prop where
  pooled : (spares s).Nodup
  spareMade : ∀ r, r ∈ spares s → r < s.nextRing
  made : ∀ t ring, Owned s t ring → ring.id < s.nextRing
  apart : ∀ t ring, Owned s t ring → ring.id ∉ spares s
  alone : ∀ t t' ring ring', Owned s t ring → Owned s t' ring' → ring.id = ring'.id → t = t'

/-- The registry lists the threads' rings. -/
structure Listed (names : Nat → Option String) (s : State ι) : Prop where
  kept : ∀ t ring, (s.threads t).buf = some ring → ring.threadId = t ∧
    ring.threadName = threadName (names t) ∧ ∃ rings, s.registry = some rings ∧ ring ∈ rings
  once : ∀ rings, s.registry = some rings → (rings.map (·.threadId)).Nodup
  listed : ∀ rings, s.registry = some rings →
    ∀ ring, ring ∈ rings → (s.threads ring.threadId).buf = some ring

structure RingInv (names : Nat → Option String) (s : State ι) : Prop where
  slots : ∀ t, SlotOk (names t) t (s.threads t)
  ids : Ids s
  list : Listed names s

/-- Rings stay with their threads, but for one that thread `t` gets: from the pool, or new. -/
theorem Ids.step (h : Ids s) {t r : Nat}
    (howned : ∀ t' ring, Owned s' t' ring → (∃ ring₀, Owned s t' ring₀ ∧ ring₀.id = ring.id) ∨
      (t' = t ∧ ring.id = r ∧ (r ∈ spares s ∨ s.nextRing ≤ r) ∧ r ∉ spares s' ∧
        r < s'.nextRing))
    (hnodup : (spares s').Nodup)
    (hspares : ∀ q, q ∈ spares s' → q ∈ spares s ∨ (s.nextRing ≤ q ∧ q < s'.nextRing))
    (hnext : s.nextRing ≤ s'.nextRing) : Ids s' := by
  -- what is new to thread `t` was nobody's
  have hnobody : ∀ t' ring₀, Owned s t' ring₀ → (r ∈ spares s ∨ s.nextRing ≤ r) →
      ring₀.id ≠ r := by
    rintro t' ring₀ hold hfrom heq
    rcases hfrom with hspare | hnew
    · exact h.apart t' ring₀ hold (heq ▸ hspare)
    · have hlt := h.made t' ring₀ hold
      omega
  refine ⟨hnodup, ?_, ?_, ?_, ?_⟩
  · intro q hq
    rcases hspares q hq with hold | ⟨-, hlt⟩
    · exact Nat.lt_of_lt_of_le (h.spareMade q hold) hnext
    · exact hlt
  · intro t' ring hring
    rcases howned t' ring hring with ⟨ring₀, hold, heq⟩ | ⟨-, heq, -, -, hlt⟩
    · exact heq ▸ Nat.lt_of_lt_of_le (h.made t' ring₀ hold) hnext
    · exact heq ▸ hlt
  · intro t' ring hring
    rcases howned t' ring hring with ⟨ring₀, hold, heq⟩ | ⟨-, heq, -, hno, -⟩
    · intro hmem
      rcases hspares _ hmem with hspare | ⟨hge, -⟩
      · exact h.apart t' ring₀ hold (heq ▸ hspare)
      · have hlt := h.made t' ring₀ hold
        omega
    · exact heq ▸ hno
  · intro t₁ t₂ ring₁ ring₂ h₁ h₂ heq
    rcases howned t₁ ring₁ h₁ with ⟨old₁, ho₁, he₁⟩ | ⟨ht₁, he₁, hfrom, -, -⟩
    · rcases howned t₂ ring₂ h₂ with ⟨old₂, ho₂, he₂⟩ | ⟨-, he₂, hfrom, -, -⟩
      · exact h.alone t₁ t₂ old₁ old₂ ho₁ ho₂ (by omega)
      · exact absurd (by omega) (hnobody t₁ old₁ ho₁ hfrom)
    · rcases howned t₂ ring₂ h₂ with ⟨old₂, ho₂, he₂⟩ | ⟨ht₂, -, -, -, -⟩
      · exact absurd (by omega) (hnobody t₂ old₂ ho₂ hfrom)
      · rw [ht₁, ht₂]

/-- Nothing is allocated. -/
theorem Ids.keep (h : Ids s)
    (howned : ∀ t ring, Owned s' t ring → ∃ ring₀, Owned s t ring₀ ∧ ring₀.id = ring.id)
    (hspares : spares s' = spares s) (hnext : s'.nextRing = s.nextRing) : Ids s' := by
  refine h.step (t := 0) (r := 0) (fun t ring hring => .inl (howned t ring hring)) ?_ ?_ ?_
  · rw [hspares]
    exact h.pooled
  · intro q hq
    exact .inl (hspares ▸ hq)
  · exact Nat.le_of_eq hnext.symm

theorem Listed.same (h : Listed names s) (hbuf : ∀ t, (s'.threads t).buf = (s.threads t).buf)
    (hreg : s'.registry = s.registry) : Listed names s' where
  kept := by
    intro t ring
    rw [hbuf, hreg]
    exact h.kept t ring
  once := by
    rw [hreg]
    exact h.once
  listed := by
    intro rings hrings ring hmem
    rw [hbuf]
    exact h.listed rings (hreg ▸ hrings) ring hmem

/-- The ring of a thread's own action, and the rings of the others. -/
theorem owned_cases {name : Option String} {t : Nat} (hm : SlotMove b name s t s')
    {t' : Nat} {ring : NewRing} (h : Owned s' t' ring) :
    (t' ≠ t ∧ Owned s t' ring) ∨ (t' = t ∧ Owned s' t ring) := by
  by_cases ht : t' = t
  · subst ht
    exact .inr ⟨rfl, h⟩
  · refine .inl ⟨ht, ?_⟩
    unfold Owned at h
    rwa [move_others hm ht] at h

/-- The thread may have let go of its ring, no more. -/
theorem RingInv.quiet {name : Option String} {t : Nat} (h : RingInv names s)
    (hm : SlotMove b name s t s') (hslots : ∀ t', SlotOk (names t') t' (s'.threads t'))
    (hbuf : (s'.threads t).buf = (s.threads t).buf)
    (hhand : ∀ ring, inHand (s'.threads t).pc = some ring →
      ∃ ring₀, inHand (s.threads t).pc = some ring₀ ∧ ring₀.id = ring.id)
    (hreg : s'.registry = s.registry) (hspares : spares s' = spares s)
    (hnext : s'.nextRing = s.nextRing) : RingInv names s' where
  slots := hslots
  ids := by
    refine h.ids.keep ?_ hspares hnext
    intro t' ring hring
    rcases owned_cases hm hring with ⟨-, hold⟩ | ⟨rfl, hring⟩
    · exact ⟨ring, hold, rfl⟩
    · rcases hring with hring | hring
      · obtain ⟨ring₀, hold, heq⟩ := hhand ring hring
        exact ⟨ring₀, .inl hold, heq⟩
      · exact ⟨ring, .inr (hbuf ▸ hring), rfl⟩
  list := by
    refine h.list.same ?_ hreg
    intro t'
    by_cases ht : t' = t
    · subst ht
      exact hbuf
    · rw [move_others hm ht]

/-- A ring a thread gets into its hand. -/
theorem RingInv.take {name : Option String} {t : Nat} {ring : NewRing} (h : RingInv names s)
    (hm : SlotMove b name s t s') (hslots : ∀ t', SlotOk (names t') t' (s'.threads t'))
    (hstart : starting (s.threads t).pc = true)
    (hth : s'.threads t = { s.threads t with pc := .setThreadInfo ring })
    (hfrom : ring.id ∈ spares s ∨ s.nextRing ≤ ring.id) (hout : ring.id ∉ spares s')
    (hmade : ring.id < s'.nextRing) (hnodup : (spares s').Nodup)
    (hspares : ∀ q, q ∈ spares s' → q ∈ spares s) (hreg : s'.registry = s.registry)
    (hnext : s.nextRing ≤ s'.nextRing) : RingInv names s' where
  slots := hslots
  ids := by
    refine h.ids.step (t := t) (r := ring.id) ?_ hnodup (fun q hq => .inl (hspares q hq)) hnext
    intro t' ring' hring
    rcases owned_cases hm hring with ⟨-, hold⟩ | ⟨rfl, hring⟩
    · exact .inl ⟨ring', hold, rfl⟩
    · unfold Owned at hring
      rw [hth] at hring
      rcases hring with hhand | hbuf
      · cases hhand
        exact .inr ⟨rfl, rfl, hfrom, hout, hmade⟩
      · -- it had none before
        have hnone := (h.slots t').unset hstart
        replace hbuf : (s.threads t').buf = some ring' := hbuf
        rw [hnone] at hbuf
        cases hbuf
  list := by
    refine h.list.same ?_ hreg
    intro t'
    by_cases ht : t' = t
    · subst ht
      rw [hth]
    · rw [move_others hm ht]

end Startup

end Ticklog
