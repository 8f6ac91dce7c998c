import Mathlib.Data.List.Basic
import Ticklog.Lib.Machine

/-!
# A channel between one writer and one reader

The writer asks for room, is granted it or not, and pushes one payload behind each grant. The
reader gets at the payloads by accesses of its own, between which the writer goes on; what an
access hands it is a stretch of elements, not of payloads. A `Channel` is these operations and
nothing else.

`Lossless` is what an implementation has to show for each of them, on a relation `Holds` that says
which payloads are on their way: a push puts its payload behind the others, an access hands over
whole payloads from the front, and room once granted stays. From that, `Lossless.runs` is every
interleaving: the payloads pushed are those handed over, in order and whole, and those on their
way; and `Lossless.drained` lets the reader come to the end when the writer has stopped.
-/

namespace Ticklog.Lib

universe u v w x

/-- The operations on channels whose states are `σ`: a writer asks with a `κ`, a reader stands at
an `ι`, and the elements are `α`. -/
structure Channel (σ : Type u) (κ : Type v) (ι : Type w) (α : Type x) where
  /-- Whether a payload of this length may be pushed. -/
  grants : σ → Nat → κ → Bool
  push : σ → List α → σ
  /-- The writer is gone, or is told to be. -/
  close : σ → σ
  /-- The reader's next access, and what it hands over. -/
  pull : σ → ι → σ × ι × List α

namespace Channel

variable {σ : Type u} {κ : Type v} {ι : Type w} {α : Type x}

/-- A channel with its two sides, and what went in and came out. -/
structure Run (σ : Type u) (ι : Type w) (α : Type x) where
  chan : σ
  /-- The length granted to the push that comes next. -/
  grant : Option Nat
  reader : ι
  pushed : List (List α)
  pulled : List (List α)

inductive Action (κ : Type v) (α : Type x) where
  | ask (n : Nat) (k : κ)
  | push (payload : List α)
  | close
  | pull
deriving DecidableEq, Repr

def Run.start (c : σ) (i : ι) : Run σ ι α := ⟨c, none, i, [], []⟩

variable (C : Channel σ κ ι α)

/-- The reader's next access. -/
def Run.pull (s : Run σ ι α) : Run σ ι α :=
  let (c, i, out) := C.pull s.chan s.reader
  { s with chan := c, reader := i, pulled := s.pulled ++ [out] }

def Run.step (s : Run σ ι α) : Action κ α → Option (Run σ ι α)
  | .ask n k =>
    if s.grant = none then
      if C.grants s.chan n k then some { s with grant := some n } else some s
    else none
  | .push payload =>
    if s.grant = some payload.length then
      some { s with
        chan := C.push s.chan payload
        grant := none
        pushed := s.pushed ++ [payload] }
    else none
  | .close => some { s with chan := C.close s.chan }
  | .pull => some (Run.pull C s)

/-- The writer and the reader in any order. -/
def machine : Machine (Run σ ι α) (Action κ α) where
  step := Run.step C

/-- No payload is empty. -/
def Pushes (_ : Run σ ι α) : Action κ α → Prop
  | .push payload => payload ≠ []
  | .ask _ _ | .close | .pull => True

end Channel

/-- Nothing is lost, doubled or torn on its way through `C`. -/
structure Lossless {σ : Type u} {κ : Type v} {ι : Type w} {α : Type x} (C : Channel σ κ ι α) where
  /-- The payloads on their way. -/
  Holds : σ → ι → List (List α) → Prop
  /-- A payload of this length may be pushed. -/
  Room : σ → Nat → Prop
  /-- How many accesses of the reader bring it to the end. -/
  left : σ → ι → Nat
  ask : ∀ {c i ps n k}, Holds c i ps → C.grants c n k = true → Room c n
  push : ∀ {c i ps payload}, Holds c i ps → payload ≠ [] → Room c payload.length →
    Holds (C.push c payload) i (ps ++ [payload])
  close : ∀ {c i ps}, Holds c i ps → Holds (C.close c) i ps
  close_room : ∀ {c n}, Room c n → Room (C.close c) n
  pull : ∀ {c i ps}, Holds c i ps → ∃ taken rest, ps = taken ++ rest ∧
    (C.pull c i).2.2 = taken.flatten ∧ Holds (C.pull c i).1 (C.pull c i).2.1 rest ∧
    (rest ≠ [] → left (C.pull c i).1 (C.pull c i).2.1 < left c i)
  pull_room : ∀ {c i ps n}, Holds c i ps → Room c n → Room (C.pull c i).1 n
  left_pos : ∀ {c i ps}, Holds c i ps → ps ≠ [] → 0 < left c i

namespace Lossless

open Channel

variable {σ : Type u} {κ : Type v} {ι : Type w} {α : Type x} {C : Channel σ κ ι α}
  (L : Lossless C) {s s' : Run σ ι α}

/-- What was pushed was handed over, in the groups the accesses took, or is on its way. -/
structure Carried (s : Run σ ι α) (groups : List (List (List α))) (ps : List (List α)) : Prop where
  pulled : s.pulled = groups.map List.flatten
  pushed : s.pushed = groups.flatten ++ ps
  holds : L.Holds s.chan s.reader ps
  room : ∀ n, s.grant = some n → L.Room s.chan n

variable {L} {groups : List (List (List α))} {ps : List (List α)}

theorem pull_carried (h : L.Carried s groups ps) :
    ∃ taken rest, ps = taken ++ rest ∧ L.Carried (Run.pull C s) (groups ++ [taken]) rest ∧
      (rest ≠ [] →
        L.left (Run.pull C s).chan (Run.pull C s).reader < L.left s.chan s.reader) := by
  obtain ⟨taken, rest, hps, hout, hholds, hleft⟩ := L.pull h.holds
  refine ⟨taken, rest, hps, ⟨?_, ?_, hholds, ?_⟩, hleft⟩
  · show s.pulled ++ [(C.pull s.chan s.reader).2.2] = _
    rw [hout, h.pulled, List.map_append]
    rfl
  · show s.pushed = _
    rw [h.pushed, hps, List.flatten_append, List.append_assoc, List.flatten_singleton]
  · intro n hn
    exact L.pull_room h.holds (h.room n hn)

/-- **One step.** -/
theorem step_carried {a : Action κ α} (h : L.Carried s groups ps) (hok : Pushes s a)
    (hstep : Run.step C s a = some s') : ∃ groups' ps', L.Carried s' groups' ps' := by
  cases a with
  | ask n k =>
    unfold Run.step at hstep
    dsimp only at hstep
    split at hstep
    next =>
      split at hstep
      next hgrants =>
        cases hstep
        refine ⟨groups, ps, h.pulled, h.pushed, h.holds, ?_⟩
        intro m hm
        cases hm
        exact L.ask h.holds hgrants
      next =>
        cases hstep
        exact ⟨groups, ps, h⟩
    next => cases hstep
  | push payload =>
    unfold Run.step at hstep
    dsimp only at hstep
    split at hstep
    next hgrant =>
      cases hstep
      refine ⟨groups, ps ++ [payload], h.pulled, ?_, ?_, nofun⟩
      · show s.pushed ++ [payload] = _
        rw [h.pushed, List.append_assoc]
      · exact L.push h.holds hok (h.room _ hgrant)
    next => cases hstep
  | close =>
    cases hstep
    exact ⟨groups, ps, h.pulled, h.pushed, L.close h.holds,
      fun n hn => L.close_room (h.room n hn)⟩
  | pull =>
    cases hstep
    obtain ⟨taken, rest, -, hcarried, -⟩ := pull_carried h
    exact ⟨_, _, hcarried⟩

/-- **Every interleaving.** -/
theorem runs {ok : Run σ ι α → Action κ α → Prop} (hok : ∀ s a, ok s a → Pushes s a) {c : σ}
    {i : ι} (hstart : L.Holds c i []) (h : (machine C).Runs ok (Run.start c i) s) :
    ∃ groups ps, L.Carried s groups ps := by
  refine h.invariant (I := fun s => ∃ groups ps, L.Carried s groups ps) ?_
    ⟨[], [], rfl, rfl, hstart, nofun⟩
  rintro s a s' ⟨groups, ps, hcarried⟩ ha hstep
  exact step_carried hcarried (hok s a ha) hstep

/-- One more access in front of a row of them. -/
theorem run_pull {t : Run σ ι α} {n : Nat}
    (h : (machine C).run (Run.pull C s) (List.replicate n .pull) = some t) :
    (machine C).run s (List.replicate (n + 1) .pull) = some t := by
  rw [List.replicate_succ]
  exact Machine.run_cons (m := machine C) rfl h

/-- Behind the end nothing more comes. -/
theorem pulls_end {n : Nat} (h : L.Carried s groups []) :
    ∃ t groups', (machine C).run s (List.replicate n .pull) = some t ∧
      L.Carried t groups' [] ∧ t.pushed = s.pushed := by
  induction n generalizing s groups with
  | zero => exact ⟨s, groups, rfl, h, rfl⟩
  | succ n ih =>
    obtain ⟨taken, rest, hps, hcarried, -⟩ := pull_carried h
    obtain ⟨rfl, rfl⟩ := List.append_eq_nil_iff.mp hps.symm
    obtain ⟨t, groups', ht, hend, hpushed⟩ := ih hcarried
    exact ⟨t, groups', run_pull ht, hend, hpushed⟩

/-- **The reader on its own comes to the end.** -/
theorem pulls_drained {n : Nat} (h : L.Carried s groups ps) (hn : L.left s.chan s.reader ≤ n) :
    ∃ t groups', (machine C).run s (List.replicate n .pull) = some t ∧
      L.Carried t groups' [] ∧ t.pushed = s.pushed := by
  induction n generalizing s groups ps with
  | zero =>
    by_cases hempty : ps = []
    · subst hempty
      exact pulls_end h
    · have hpos := L.left_pos h.holds hempty
      omega
  | succ n ih =>
    obtain ⟨taken, rest, -, hcarried, hleft⟩ := pull_carried h
    by_cases hempty : rest = []
    · subst hempty
      obtain ⟨t, groups', ht, hend, hpushed⟩ := pulls_end (n := n) hcarried
      exact ⟨t, groups', run_pull ht, hend, hpushed⟩
    · have hlt := hleft hempty
      obtain ⟨t, groups', ht, hend, hpushed⟩ := ih hcarried (by omega)
      exact ⟨t, groups', run_pull ht, hend, hpushed⟩

end Lossless

end Ticklog.Lib
