import Ticklog.Drain.Streams
import Ticklog.Pipeline.Feed

/-!
# The lines are the calls

What reaches the sink from a thread's ring is what the thread's calls mean. `Inv` puts the
feeds (`FeedInv`), the drain's turns and the lines already delivered together; the ring's
contract (`Ring.SpscSafe`) says that a record read is a record published, so it formats, to its
call's line (`Call.formats`), and the drain never panics.
-/

namespace Ticklog.Pipeline

open Lib

variable {env : Env} {g : Geometry} {fast : Bool} {policy : Backpressure}

/-! ## Which side a step belongs to -/

/-- A thread's steps leave the drain's side alone. -/
theorem step_drainSide {s s' : Spsc} {a : SpscAction} (ha : a ≠ .drain)
    (hstep : Spsc.step g fast policy s a = some s') : s'.sink = s.sink ∧ s'.drain = s.drain := by
  cases a with
  | reserve total =>
    simp only [Spsc.step, Spsc.reserve] at hstep
    repeat' split at hstep
    all_goals cases hstep <;> exact ⟨rfl, rfl⟩
  | loadTail =>
    simp only [Spsc.step, Spsc.loadTail] at hstep
    repeat' split at hstep
    all_goals cases hstep <;> exact ⟨rfl, rfl⟩
  | eobByte =>
    simp only [Spsc.step, Spsc.eobByte] at hstep
    split at hstep
    all_goals cases hstep <;> exact ⟨rfl, rfl⟩
  | write k byte =>
    simp only [Spsc.step, Spsc.write] at hstep
    repeat' split at hstep
    all_goals cases hstep <;> exact ⟨rfl, rfl⟩
  | publish =>
    simp only [Spsc.step, Spsc.publish] at hstep
    repeat' split at hstep
    all_goals cases hstep <;> exact ⟨rfl, rfl⟩
  | abandon =>
    simp only [Spsc.step, Spsc.abandon] at hstep
    split at hstep
    all_goals cases hstep <;> exact ⟨rfl, rfl⟩
  | setDead =>
    cases hstep
    exact ⟨rfl, rfl⟩
  | drain => exact absurd rfl ha

/-- Every access of a thread is one of its ring, or the gate dropped the call. -/
theorem Feed.step_spsc {f f' : Feed env} {move : Move env}
    (hstep : Feed.step g fast policy f move = some f') :
    f'.spsc = f.spsc ∨
      ∃ a, a ≠ .drain ∧ Spsc.step g fast policy f.spsc a = some f'.spsc := by
  cases move with
  | log c =>
    replace hstep : log g fast c f = some f' := hstep
    unfold log at hstep
    split at hstep
    next =>
      dsimp only at hstep
      split at hstep
      next =>
        cases hstep
        exact .inl rfl
      next =>
        obtain ⟨s, hres, rfl⟩ := Option.map_eq_some_iff.mp hstep
        exact .inr ⟨.reserve (macroTotalSize c.args), nofun, hres⟩
    next => cases hstep
  | loadTail =>
    obtain ⟨s, hload, rfl⟩ := Option.map_eq_some_iff.mp hstep
    exact .inr ⟨.loadTail, nofun, hload⟩
  | eobByte =>
    obtain ⟨s, heob, rfl⟩ := Option.map_eq_some_iff.mp hstep
    exact .inr ⟨.eobByte, nofun, heob⟩
  | store k =>
    replace hstep : store g k f = some f' := hstep
    unfold store at hstep
    split at hstep
    next =>
      obtain ⟨byte, -, hstep⟩ := Option.bind_eq_some_iff.mp hstep
      obtain ⟨s, hwrite, hstep⟩ := Option.bind_eq_some_iff.mp hstep
      cases hstep
      exact .inr ⟨.write k byte, nofun, hwrite⟩
    next => cases hstep
  | publish =>
    replace hstep : publish g f = some f' := hstep
    unfold publish at hstep
    split at hstep
    next =>
      split at hstep
      next =>
        obtain ⟨s, hpublish, rfl⟩ := Option.map_eq_some_iff.mp hstep
        exact .inr ⟨.publish, nofun, hpublish⟩
      next => cases hstep
    next => cases hstep
  | unwind =>
    obtain ⟨s, habandon, rfl⟩ := Option.map_eq_some_iff.mp hstep
    exact .inr ⟨.abandon, nofun, habandon⟩
  | setDead =>
    cases hstep
    exact .inr ⟨.setDead, nofun, rfl⟩

theorem Feed.step_drainSide {f f' : Feed env} {move : Move env}
    (hstep : Feed.step g fast policy f move = some f') :
    f'.spsc.sink = f.spsc.sink ∧ f'.spsc.drain = f.spsc.drain := by
  rcases Feed.step_spsc hstep with heq | ⟨a, ha, hspsc⟩
  · rw [heq]
    exact ⟨rfl, rfl⟩
  · exact Pipeline.step_drainSide ha hspsc

theorem Feed.step_written {f f' : Feed env} {move : Move env}
    (hstep : Feed.step g fast policy f move = some f') : f.spsc.written ≤ f'.spsc.written := by
  rcases Feed.step_spsc hstep with heq | ⟨a, -, hspsc⟩
  · rw [heq]
  · exact Spsc.step_written_le hspsc

/-! ## All rings and the drain -/

section

variable {ι : Type} [DecidableEq ι] {pattern : LinePattern} {thread : ι → ThreadInfo}
  {data : ι → Nat → UInt8} {s s' : State env ι}

/-- `item` is what formatting the record gave, with the record's level. -/
def Formatted (env : Env) (pattern : LinePattern) (info : ThreadInfo) (record : List UInt8)
    (item : List UInt8 × Level) : Prop :=
  (∃ cursor, decodeAndFormat env pattern.template info.id info.name record []
    = some (cursor, item.1)) ∧ item.2 = levelOf record

/-- The state of a run. -/
structure Inv (g : Geometry) (fast : Bool) (policy : Backpressure) (pattern : LinePattern)
    (thread : ι → ThreadInfo) (data : ι → Nat → UInt8) (s : State env ι) : Prop where
  feeds : ∀ i, FeedInv g fast policy (data i) (s.feeds i)
  calm : s.panicked = false
  /-- The ring being visited is the one in a pass. -/
  visits : ∀ i, s.visiting = some i ↔ (s.feeds i).spsc.drain ≠ .idle
  lines : ∀ i, List.Forall₂ (Formatted env pattern (thread i)) (s.feeds i).spsc.sink (s.linesOf i)

/-- No ring has been written around a whole `u64`. -/
def Below (s : State env ι) : Prop := ∀ i, (s.feeds i).spsc.written < wordSize

theorem init_inv (data : ι → Nat → UInt8) :
    Inv g fast policy pattern thread data (State.init data : State env ι) where
  feeds i := init_feed g fast policy (data i)
  calm := rfl
  visits _ := ⟨nofun, fun hne => absurd rfl hne⟩
  lines _ := .nil

/-- What a drain access does, by cases: nothing is completed, or a record is formatted, or the
formatting panics. -/
theorem drain_cases {i : ι} (hstep : drain g pattern thread i s = some s') :
    s.panicked = false ∧ (s.visiting = none ∨ s.visiting = some i) ∧
    ((∃ record, completed (s.feeds i).spsc = some record ∧
        decodeAndFormat env pattern.template (thread i).id (thread i).name record [] = none ∧
        s'.feeds = s.feeds) ∨
      (s'.feeds = Function.update s.feeds i
          { s.feeds i with spsc := Spsc.drainStep g (s.feeds i).spsc } ∧
        s'.panicked = s.panicked ∧
        s'.visiting = (if (Spsc.drainStep g (s.feeds i).spsc).drain = .idle then none
          else some i) ∧
        ((completed (s.feeds i).spsc = none ∧ s'.lines = s.lines) ∨
          ∃ record cursor text, completed (s.feeds i).spsc = some record ∧
            decodeAndFormat env pattern.template (thread i).id (thread i).name record []
              = some (cursor, text) ∧
            s'.lines = s.lines ++ [⟨i, text, levelOf record⟩]))) := by
  unfold drain at hstep
  split at hstep
  next hturn =>
    refine ⟨hturn.1, hturn.2, ?_⟩
    dsimp only at hstep
    split at hstep
    next hnone =>
      cases hstep
      exact .inr ⟨rfl, rfl, rfl, .inl ⟨hnone, rfl⟩⟩
    next record hrecord =>
      split at hstep
      next hpanic =>
        cases hstep
        exact .inl ⟨record, hrecord, hpanic, rfl⟩
      next cursor text hformat =>
        cases hstep
        exact .inr ⟨rfl, rfl, rfl, .inr ⟨record, cursor, text, hrecord, hformat, rfl⟩⟩
  next => cases hstep

/-- Only a drain access to its own ring adds a line of a ring. -/
theorem linesOf_append {i j : ι} {text : List UInt8} {level : Level}
    (hlines : s'.lines = s.lines ++ [⟨i, text, level⟩]) :
    s'.linesOf j = if i = j then s.linesOf j ++ [(text, level)] else s.linesOf j := by
  unfold State.linesOf
  rw [hlines, List.filter_append, List.map_append]
  by_cases hij : i = j
  · rw [if_pos hij, List.filter_cons_of_pos (by simpa using hij)]
    rfl
  · rw [if_neg hij, List.filter_cons_of_neg (by simpa using hij)]
    exact List.append_nil _

/-- What the sink of a ring has is what its first calls are. -/
theorem Inv.sink_calls (h : Inv g fast policy pattern thread data s) (hb : Below s) (i : ι) :
    ∃ done rest, (s.feeds i).logged = done ++ rest ∧
      (s.feeds i).spsc.sink = done.map Call.record := by
  have hfeed := h.feeds i
  obtain ⟨rest, hrest⟩ := Spsc.sink_le_published (Spsc.reach_inv hfeed.reach (hb i))
  rw [hfeed.published] at hrest
  obtain ⟨done, rest', hlogged, hdone, -⟩ := List.append_eq_map_iff.mp hrest
  exact ⟨done, rest', hlogged, hdone.symm⟩

/-- A record the drain has read is a record of a call that was logged. -/
theorem Inv.completed_call (h : Inv g fast policy pattern thread data s) (hb : Below s) {i : ι}
    {record : List UInt8} (hrecord : completed (s.feeds i).spsc = some record) :
    ∃ c ∈ (s.feeds i).logged, record = c.record := by
  have hfeed := (h.feeds i).drain
  have hinv := Spsc.reach_inv hfeed.reach (by
    show (Spsc.drainStep g (s.feeds i).spsc).written < wordSize
    rw [Spsc.drainStep_written]
    exact hb i)
  have hmem : record ∈ (Spsc.drainStep g (s.feeds i).spsc).sink := by
    rw [drainStep_sink, hrecord]
    exact List.mem_append_right _ (List.mem_singleton.mpr rfl)
  have hpub := (Spsc.sink_le_published hinv).subset hmem
  rw [hfeed.published] at hpub
  obtain ⟨c, hc, heq⟩ := List.mem_map.mp hpub
  exact ⟨c, hc, heq.symm⟩

/-- So it formats. -/
theorem Inv.completed_formats (h : Inv g fast policy pattern thread data s) (hb : Below s)
    {i : ι} {record : List UInt8} (hrecord : completed (s.feeds i).spsc = some record) :
    decodeAndFormat env pattern.template (thread i).id (thread i).name record [] ≠ none := by
  obtain ⟨parts, hread⟩ := exists_readAs pattern.parsed
  obtain ⟨c, hc, rfl⟩ := h.completed_call hb hrecord
  obtain ⟨cursor, text, hformat, -⟩ := c.formats hread (thread i) ((h.feeds i).fits c hc)
  intro hpanic
  rw [hpanic] at hformat
  cases hformat

theorem thread_inv {i : ι} {move : Move env} (h : Inv g fast policy pattern thread data s)
    (hstep : step g fast policy pattern thread s (.thread i move) = some s') :
    Inv g fast policy pattern thread data s' := by
  obtain ⟨f, hfeed, rfl⟩ := Option.map_eq_some_iff.mp hstep
  obtain ⟨hsink, hdrain⟩ := Feed.step_drainSide hfeed
  refine ⟨fun j => ?_, h.calm, fun j => ?_, fun j => ?_⟩
  · show FeedInv g fast policy (data j) (Function.update s.feeds i f j)
    by_cases hji : j = i
    · subst hji
      rw [Function.update_self]
      exact (h.feeds j).step hfeed
    · rw [Function.update_of_ne hji]
      exact h.feeds j
  · show s.visiting = some j ↔ (Function.update s.feeds i f j).spsc.drain ≠ .idle
    by_cases hji : j = i
    · subst hji
      rw [Function.update_self, hdrain]
      exact h.visits j
    · rw [Function.update_of_ne hji]
      exact h.visits j
  · show List.Forall₂ _ (Function.update s.feeds i f j).spsc.sink (s.linesOf j)
    by_cases hji : j = i
    · subst hji
      rw [Function.update_self, hsink]
      exact h.lines j
    · rw [Function.update_of_ne hji]
      exact h.lines j

theorem drain_inv {i : ι} (h : Inv g fast policy pattern thread data s) (hb : Below s)
    (hstep : drain g pattern thread i s = some s') :
    Inv g fast policy pattern thread data s' := by
  obtain ⟨-, hturn, hcases⟩ := drain_cases hstep
  rcases hcases with ⟨record, hrecord, hpanic, -⟩ | ⟨hfeeds, hcalm, hvisiting, hlines⟩
  · exact absurd hpanic (h.completed_formats hb hrecord)
  · refine ⟨fun j => ?_, hcalm.trans h.calm, fun j => ?_, fun j => ?_⟩
    · rw [hfeeds]
      by_cases hji : j = i
      · subst hji
        rw [Function.update_self]
        exact (h.feeds j).drain
      · rw [Function.update_of_ne hji]
        exact h.feeds j
    · rw [hfeeds, hvisiting]
      by_cases hji : j = i
      · subst hji
        rw [Function.update_self]
        show _ ↔ (Spsc.drainStep g (s.feeds j).spsc).drain ≠ .idle
        split
        next hidle => exact ⟨nofun, fun hne => absurd hidle hne⟩
        next hbusy => exact ⟨fun _ => hbusy, fun _ => rfl⟩
      · -- ring `i` had the turn, so this one is between two passes
        rw [Function.update_of_ne hji]
        have hidle : (s.feeds j).spsc.drain = .idle := by
          by_contra hbusy
          have hvisit := (h.visits j).mpr hbusy
          rcases hturn with hturn | hturn
          · rw [hturn] at hvisit
            cases hvisit
          · rw [hturn] at hvisit
            exact hji (Option.some.inj hvisit).symm
        constructor
        · intro hvisit
          split at hvisit
          next => cases hvisit
          next => exact absurd (Option.some.inj hvisit).symm hji
        · intro hbusy
          exact absurd hidle hbusy
    · rw [hfeeds]
      rcases hlines with ⟨hnone, hlines⟩ | ⟨record, cursor, text, hrecord, hformat, hlines⟩
      · have hsame : s'.linesOf j = s.linesOf j := by
          unfold State.linesOf
          rw [hlines]
        rw [hsame]
        by_cases hji : j = i
        · subst hji
          rw [Function.update_self]
          show List.Forall₂ _ (Spsc.drainStep g (s.feeds j).spsc).sink _
          rw [drainStep_sink, hnone, Option.toList_none, List.append_nil]
          exact h.lines j
        · rw [Function.update_of_ne hji]
          exact h.lines j
      · rw [linesOf_append hlines]
        by_cases hji : j = i
        · subst hji
          rw [Function.update_self, if_pos rfl]
          show List.Forall₂ _ (Spsc.drainStep g (s.feeds j).spsc).sink _
          rw [drainStep_sink, hrecord]
          exact List.rel_append (h.lines j) (.cons ⟨⟨cursor, hformat⟩, rfl⟩ .nil)
        · rw [Function.update_of_ne hji, if_neg fun hij => hji hij.symm]
          exact h.lines j

theorem step_inv {a : Action env ι} (h : Inv g fast policy pattern thread data s)
    (hb : Below s) (hstep : step g fast policy pattern thread s a = some s') :
    Inv g fast policy pattern thread data s' := by
  cases a with
  | thread i move => exact thread_inv h hstep
  | drain i => exact drain_inv h hb hstep

/-- The bytes written only grow. -/
theorem step_written {a : Action env ι} (hstep : step g fast policy pattern thread s a = some s')
    (j : ι) : (s.feeds j).spsc.written ≤ (s'.feeds j).spsc.written := by
  cases a with
  | thread i move =>
    obtain ⟨f, hfeed, rfl⟩ := Option.map_eq_some_iff.mp hstep
    show _ ≤ (Function.update s.feeds i f j).spsc.written
    by_cases hji : j = i
    · subst hji
      rw [Function.update_self]
      exact Feed.step_written hfeed
    · rw [Function.update_of_ne hji]
  | drain i =>
    obtain ⟨-, -, ⟨-, -, -, hfeeds⟩ | ⟨hfeeds, -⟩⟩ := drain_cases hstep
    · rw [hfeeds]
    · rw [hfeeds]
      by_cases hji : j = i
      · subst hji
        rw [Function.update_self]
        exact Nat.le_of_eq Spsc.drainStep_written.symm
      · rw [Function.update_of_ne hji]

theorem reach_inv
    (h : (pipeline g fast policy pattern thread).Reach (State.init data) s)
    (hb : Below s) : Inv g fast policy pattern thread data s := by
  have hrun : Below s → Inv g fast policy pattern thread data s := by
    refine Machine.Runs.invariant
      (I := fun s => Below s → Inv g fast policy pattern thread data s) ?_ h
      fun _ => init_inv data
    intro s₁ a s₂ ih _ hstep hb₂
    have hb₁ : Below s₁ := fun i => Nat.lt_of_le_of_lt (step_written hstep i) (hb₂ i)
    exact step_inv (ih hb₁) hb₁ hstep
  exact hrun hb

/-! ## A visit -/

/-- When it is its turn the drain is never stuck: what it reads formats. -/
theorem drain_moves (h : Inv g fast policy pattern thread data s) (hb : Below s) {i : ι}
    (hturn : s.visiting = none ∨ s.visiting = some i) :
    ∃ s', drain g pattern thread i s = some s' ∧
      s'.feeds i = { s.feeds i with spsc := Spsc.drainStep g (s.feeds i).spsc } ∧
      s'.visiting = (if (Spsc.drainStep g (s.feeds i).spsc).drain = .idle then none
        else some i) := by
  have hsome : (drain g pattern thread i s).isSome = true := by
    unfold drain
    rw [if_pos ⟨h.calm, hturn⟩]
    dsimp only
    split
    next => rfl
    next => split <;> rfl
  obtain ⟨s', hstep⟩ := Option.isSome_iff_exists.mp hsome
  obtain ⟨-, -, ⟨record, hrecord, hpanic, -⟩ | ⟨hfeeds, -, hvisiting, -⟩⟩ := drain_cases hstep
  · exact absurd hpanic (h.completed_formats hb hrecord)
  · refine ⟨s', hstep, ?_, hvisiting⟩
    rw [hfeeds, Function.update_self]

theorem drain_below {i : ι} (hb : Below s) (hstep : drain g pattern thread i s = some s') :
    Below s' := by
  obtain ⟨-, -, ⟨-, -, -, hfeeds⟩ | ⟨hfeeds, -⟩⟩ := drain_cases hstep
  · intro j
    rw [hfeeds]
    exact hb j
  · intro j
    rw [hfeeds]
    by_cases hji : j = i
    · subst hji
      rw [Function.update_self]
      exact Nat.lt_of_le_of_lt (Nat.le_of_eq Spsc.drainStep_written) (hb j)
    · rw [Function.update_of_ne hji]
      exact hb j

/-- The drain's accesses to one ring, one after the other, are a visit when the pass ends with
the last of them and not before. -/
theorem drain_visit (h : Inv g fast policy pattern thread data s) (hb : Below s) {i : ι}
    (hturn : s.visiting = none ∨ s.visiting = some i) (n : Nat)
    (hin : ∀ k, 0 < k → k ≤ n → ((Spsc.drainStep g)^[k] (s.feeds i).spsc).drain ≠ .idle)
    (hend : ((Spsc.drainStep g)^[n + 1] (s.feeds i).spsc).drain = .idle) :
    ∃ s', Visit g pattern thread i s s' ∧ Inv g fast policy pattern thread data s' ∧ Below s' ∧
      s'.feeds i = { s.feeds i with spsc := (Spsc.drainStep g)^[n + 1] (s.feeds i).spsc } := by
  induction n generalizing s with
  | zero =>
    obtain ⟨s', hstep, hfeed, hvisiting⟩ := drain_moves h hb hturn
    have hidle : (Spsc.drainStep g (s.feeds i).spsc).drain = .idle := hend
    rw [if_pos hidle] at hvisiting
    exact ⟨s', .last hstep hvisiting, drain_inv h hb hstep, drain_below hb hstep, hfeed⟩
  | succ n ih =>
    obtain ⟨s₁, hstep, hfeed, hvisiting⟩ := drain_moves h hb hturn
    have hbusy : (Spsc.drainStep g (s.feeds i).spsc).drain ≠ .idle :=
      hin 1 (by omega) (by omega)
    rw [if_neg hbusy] at hvisiting
    -- the accesses from the second on
    have hshift : ∀ k, (Spsc.drainStep g)^[k] (s₁.feeds i).spsc
        = (Spsc.drainStep g)^[k + 1] (s.feeds i).spsc := by
      intro k
      rw [hfeed]
      exact (Function.iterate_succ_apply _ _ _).symm
    obtain ⟨s', hvisit, hinv, hb', hfeeds⟩ :=
      ih (drain_inv h hb hstep) (drain_below hb hstep) (.inr hvisiting)
        (fun k hk hkn => by rw [hshift]; exact hin (k + 1) (by omega) (by omega))
        (by rw [hshift]; exact hend)
    refine ⟨s', .access hstep hvisiting hvisit, hinv, hb', ?_⟩
    rw [hfeeds, hshift, hfeed]

/-- A visit to a ring delivers all that is published on it. -/
theorem visit_delivers (h : Inv g fast policy pattern thread data s) (hb : Below s)
    (hnone : s.visiting = none) (i : ι) :
    ∃ s', Visit g pattern thread i s s' ∧ Inv g fast policy pattern thread data s' ∧
      (s'.feeds i).spsc.sink = (s.feeds i).spsc.published ∧
      (s'.feeds i).logged = (s.feeds i).logged := by
  have hidle : (s.feeds i).spsc.drain = .idle := by
    by_contra hbusy
    have hvisit := (h.visits i).mpr hbusy
    rw [hnone] at hvisit
    cases hvisit
  have hring := Spsc.reach_inv (h.feeds i).reach (hb i)
  -- the first access finds nothing cached, so the pass loads `head`
  have hload : ∃ t, (Spsc.drainStep g (s.feeds i).spsc).drain = .loadHead t := by
    have hd := hring.drain
    unfold Spsc.DrainInv at hd
    rw [hidle] at hd
    refine ⟨(s.feeds i).spsc.ring.tail, ?_⟩
    unfold Spsc.drainStep
    rw [hidle]
    dsimp only
    rw [if_pos hd.1.symm]
  obtain ⟨t, hload⟩ := hload
  obtain ⟨n, hin, hend, hsink⟩ := Spsc.pass_delivers (Spsc.drainStep_inv hring (hb i))
    (Nat.lt_of_le_of_lt (Nat.le_of_eq Spsc.drainStep_written) (hb i)) hload
  have hiter : ∀ k, (Spsc.drainStep g)^[k + 1] (s.feeds i).spsc
      = (Spsc.drainStep g)^[k] (Spsc.drainStep g (s.feeds i).spsc) :=
    fun _ => Function.iterate_succ_apply _ _ _
  obtain ⟨s', hvisit, hinv, -, hfeed⟩ := drain_visit h hb (.inl hnone) n
    (fun k hk hkn => by
      obtain ⟨k, rfl⟩ := Nat.exists_eq_add_one.mpr hk
      rw [hiter]
      exact hin k (by omega))
    (by rw [hiter]; exact hend)
  refine ⟨s', hvisit, hinv, ?_, ?_⟩
  · rw [hfeed]
    show ((Spsc.drainStep g)^[n + 1] (s.feeds i).spsc).sink = _
    rw [hiter]
    exact hsink.trans Spsc.drainStep_published
  · rw [hfeed]

/-! ## The lines -/

/-- The lines of a ring show the first calls logged there. -/
theorem Inv.shows (h : Inv g fast policy pattern thread data s) {parts : List Part}
    (hread : ReadAs (strBytes pattern.text) parts) {i : ι} {done rest : List (Call env)}
    (hlogged : (s.feeds i).logged = done ++ rest)
    (hsink : (s.feeds i).spsc.sink = done.map Call.record) :
    List.Forall₂ (fun c item => c.Shows (thread i) parts item) done (s.linesOf i) := by
  have hlines := h.lines i
  rw [hsink, List.forall₂_map_left_iff] at hlines
  have hfits : ∀ c ∈ done, recordSize c.args ≤ maxRecordSize := by
    intro c hc
    refine (h.feeds i).fits c ?_
    rw [hlogged]
    exact List.mem_append_left _ hc
  clear hlogged hsink
  generalize s.linesOf i = items at hlines
  induction hlines with
  | nil => exact .nil
  | @cons c item cs items hitem _ ih =>
    obtain ⟨⟨cursor, hformat⟩, hlevel⟩ := hitem
    obtain ⟨cursor', text, hformat', hshows⟩ :=
      c.formats hread (thread i) (hfits c List.mem_cons_self)
    rw [hformat] at hformat'
    cases hformat'
    refine .cons ?_ (ih fun c' hc' => hfits c' (List.mem_cons_of_mem _ hc'))
    rw [← hlevel] at hshows
    exact hshows

/-- A slot filled to the end can be published. -/
theorem publish_enabled {f : Feed env} {d : Nat → UInt8} (h : FeedInv g fast policy d f)
    {head total : Nat} (hpc : f.spsc.producer = .filling head total)
    (hall : ∀ k < total, k ∈ f.stored) : (publish g f).isSome = true := by
  obtain ⟨c, hcall, htotal, hgate⟩ := h.asked total (by rw [hpc]; rfl)
  obtain ⟨-, hlen, hslot⟩ := h.slot_eq hpc hcall hall
  have hrecord : Fifo.IsRecord c.record := by
    refine Fifo.recordBytes_isRecord c.level c.timestamp c.site ?_
    rw [← c.macroTotalSize_eq]
    exact hgate
  have hframed : framed total c.record = true := by
    refine decide_eq_true ⟨hlen.symm, ?_⟩
    rw [hlen]
    exact hrecord.2
  unfold publish
  rw [hpc, hcall]
  dsimp only
  rw [if_pos hall, Option.isSome_map]
  unfold Spsc.publish
  rw [hpc]
  dsimp only
  rw [hslot, hframed]
  rfl

/-- **What the sink gets is what the threads logged.** Any number of threads log through rings
of their own, in any storage, under any interleaving with the drain, before `2^64` bytes are
written to a ring. A call has at most 255 arguments (`Call.counted`): the count is one byte.

* The drain never panics, and every storage byte its next access loads is a published byte of
  the ring that has not been released, so no store of the thread can hit it;
* the lines that came from a thread's ring are, in order, the lines of the first calls the
  thread logged: each is the configured pattern filled in with that call's level, timestamp
  and site, that thread's id and name, and the message the format string and the arguments
  give, handed over at the call's level;
* a record stored to the last byte can be published;
* between two visits, one visit to a ring, which is one pass, shows every call logged there. -/
theorem lines_are_calls (g : Geometry) (fast : Bool) (policy : Backpressure)
    (pattern : LinePattern) (thread : ι → ThreadInfo) (data : ι → Nat → UInt8)
    {parts : List Part} (hread : ReadAs (strBytes pattern.text) parts) {s : State env ι}
    (h : (pipeline g fast policy pattern thread).Reach (State.init data) s)
    (hw : ∀ i, (s.feeds i).spsc.written < 2 ^ 64) :
    (s.panicked = false ∧ ∀ i addr, Spsc.readAddr g (s.feeds i).spsc = some addr →
      ∃ p, (s.feeds i).spsc.ring.tail ≤ p ∧ p < (s.feeds i).spsc.ring.head ∧
        g.offset p = addr) ∧
    (∀ i, ∃ done rest, (s.feeds i).logged = done ++ rest ∧
      List.Forall₂ (fun c item => c.Shows (thread i) parts item) done (s.linesOf i)) ∧
    (∀ i head total, (s.feeds i).spsc.producer = .filling head total →
      (∀ k < total, k ∈ (s.feeds i).stored) →
      ((pipeline g fast policy pattern thread).step s (.thread i .publish)).isSome = true) ∧
    (s.visiting = none → ∀ i, ∃ s', Visit g pattern thread i s s' ∧
      List.Forall₂ (fun c item => c.Shows (thread i) parts item)
        (s.feeds i).logged (s'.linesOf i)) := by
  have hinv := reach_inv h hw
  refine ⟨⟨hinv.calm, fun i addr haddr => ?_⟩, fun i => ?_, fun i head total hpc hall => ?_,
    fun hnone i => ?_⟩
  · exact Spsc.readAddr_published (Spsc.reach_inv (hinv.feeds i).reach (hw i)) haddr
  · obtain ⟨done, rest, hlogged, hsink⟩ := hinv.sink_calls hw i
    exact ⟨done, rest, hlogged, hinv.shows hread hlogged hsink⟩
  · show (Option.map _ (publish g (s.feeds i))).isSome = true
    rw [Option.isSome_map]
    exact publish_enabled (hinv.feeds i) hpc hall
  · obtain ⟨s', hvisit, hinv', hsink, hlogged⟩ := visit_delivers hinv hw hnone i
    rw [(hinv.feeds i).published] at hsink
    exact ⟨s', hvisit, hinv'.shows hread (hlogged.trans (List.append_nil _).symm) hsink⟩

end

/-! ## Two threads -/

/-- Call sites with the format string of one placeholder. -/
def holeEnv : Env := { exampleEnv with site := fun _ => ⟨[openBrace, closeBrace], [], 1⟩ }

def logByte (v : UInt8) : Call holeEnv where
  level := .info
  timestamp := 5
  site := 64
  args := [.u8 v]
  checked := rfl
  counted := by
    show 1 ≤ 255
    omega
  sized := by
    show 27 < wordSize
    decide

/-- The thread's name in front of the message. -/
def named : LinePattern where
  text := "\x7bthread_name\x7d \x7bmessage\x7d"
  template := [.place .threadName FormatSpec.default, .lit [0x20],
    .place .message FormatSpec.default]
  parsed := rfl

def mainAndWorker (i : Bool) : ThreadInfo := if i then ⟨2, "worker"⟩ else ⟨1, "main"⟩

/-- A whole call. -/
def logged (i : Bool) (v : UInt8) : List (Action holeEnv Bool) :=
  [.thread i (.log (logByte v)), .thread i .loadTail]
    ++ ((List.range 27).map fun k => .thread i (.store k)) ++ [.thread i .publish]

theorem lines_are_calls_twoThreads :
    ∃ s s',
      (pipeline Spsc.twoSlots false .drop named mainAndWorker).run (State.init fun _ _ => 9)
        (logged false 7 ++ logged true 8) = some s ∧
      Visit Spsc.twoSlots named mainAndWorker true s s' ∧
      (s.feeds true).logged.length = 1 ∧
      ∃ parts, List.Forall₂ (fun c item => c.Shows ⟨2, "worker"⟩ parts item)
        (s.feeds true).logged (s'.linesOf true) := by
  have hread : ((pipeline Spsc.twoSlots false .drop named mainAndWorker).run
      (State.init fun _ _ => 9) (logged false 7 ++ logged true 8)).map (fun s =>
        ((s.feeds true).spsc.written, (s.feeds false).spsc.written, s.visiting,
          (s.feeds true).logged.length)) = some (64, 64, none, 1) := by
    decide +kernel
  obtain ⟨s, hs, hfields⟩ := Option.map_eq_some_iff.mp hread
  simp only [Prod.mk.injEq] at hfields
  obtain ⟨htrue, hfalse, hnone, hlogged⟩ := hfields
  have hw : ∀ i, (s.feeds i).spsc.written < 2 ^ 64 := by
    intro i
    cases i with
    | false => rw [hfalse]; decide
    | true => rw [htrue]; decide
  obtain ⟨parts, hparts⟩ := exists_readAs named.parsed
  obtain ⟨-, -, -, hvisit⟩ := lines_are_calls Spsc.twoSlots false .drop named mainAndWorker
    (fun _ _ => 9) hparts (Machine.run_runs hs) hw
  obtain ⟨s', hpass, hshows⟩ := hvisit hnone true
  exact ⟨s, s', hs, hpass, hlogged, parts, hshows⟩

end Ticklog.Pipeline
