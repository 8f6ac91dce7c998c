import Mathlib.Data.List.Forall2
import Mathlib.Data.List.Induction
import Ticklog.Sink.Output
import Ticklog.System.Flush

/-!
# What has been written when the drain is done

One leaf of the sink tree over a whole run: step by step, each line the drain delivers comes to
it if the fan-outs on the way let it through, and a flush always does (`Wrote.see`). A leaf
whose stream works has accepted each of its lines in full, whatever the other streams do, and
holds back at most the end of what was delivered since the last flush. The drain's last access
is a flush (`StopInv`), so when it has stopped nothing is held back.
-/

namespace Ticklog

open Lib

/-! ## A leaf over many calls -/

namespace Output

universe u

variable {σ : Type u} {W : ByteWriter σ}

/-- The lines handed to the root. -/
def given (calls : List Call) : List (List UInt8 × Level) :=
  calls.filterMap fun c =>
    match c with
    | .accept line level => some (line, level)
    | .flush => none

/-- Those since the last flush, when `before` were unflushed. -/
def pending (before : List (List UInt8 × Level)) (calls : List Call) :
    List (List UInt8 × Level) :=
  calls.foldl (fun acc c =>
    match c with
    | .accept line level => acc ++ [(line, level)]
    | .flush => []) before

/-- Those that come to a leaf behind the levels `gs`. -/
def through (gs : List Level) (xs : List (List UInt8 × Level)) : List (List UInt8 × Level) :=
  xs.filter fun x => Sink.allows gs x.2

/-- What became of the leaf `d`, to which `lines` came, `unflushed` of them since a flush. -/
structure Wrote (W : ByteWriter σ) (d : Dest σ) (lines unflushed : List (List UInt8 × Level))
    (d' : Dest σ) : Prop where
  shown : d'.shown = d.shown
  /-- Of each line there is a part from the front, in order, and nothing else. -/
  parts : ∃ parts, List.Forall₂ (fun part x => part <+: d.shown x) parts lines ∧
    d'.total W = d.total W ++ parts.flatten
  /-- A stream that works has all of them. -/
  whole : ∀ P, W.Works P → P d.stream →
    P d'.stream ∧ d'.total W = d.total W ++ lines.flatMap d.shown
  held : ∀ P, W.Works P → P d.stream → d.held = [] → d'.held <:+ unflushed.flatMap d.shown

theorem Wrote.refl (W : ByteWriter σ) (d : Dest σ) : Wrote W d [] [] d where
  shown := rfl
  parts := ⟨[], .nil, (List.append_nil _).symm⟩
  whole := fun _ _ hd => ⟨hd, (List.append_nil _).symm⟩
  held := fun _ _ _ hnil => hnil ▸ List.nil_suffix

variable {d d' : Dest σ} {lines unflushed : List (List UInt8 × Level)}

theorem Wrote.accept (h : Wrote W d lines unflushed d') (x : List UInt8 × Level) :
    Wrote W d (lines ++ [x]) (unflushed ++ [x]) (d'.accept W x.1 x.2).2 where
  shown := (Dest.accept_shown x d').trans h.shown
  parts := by
    obtain ⟨parts, hparts, htotal⟩ := h.parts
    obtain ⟨part, hpart, hafter, -⟩ := Dest.accept_took (W := W) x d'
    refine ⟨parts ++ [part], ?_, ?_⟩
    · rw [h.shown] at hpart
      exact List.rel_append hparts (.cons hpart .nil)
    · rw [hafter, htotal, List.flatten_append, List.flatten_singleton, List.append_assoc]
  whole := by
    intro P hW hd
    obtain ⟨hd', htotal⟩ := h.whole P hW hd
    obtain ⟨hok, hnext⟩ := Dest.accept_works hW x hd'
    have htook := Dest.accept_took (W := W) x d'
    rw [hok, h.shown] at htook
    refine ⟨hnext, ?_⟩
    rw [htook.ok, htotal, List.flatMap_append, List.flatMap_singleton, List.append_assoc]
  held := by
    intro P hW hd hnil
    obtain ⟨front, hfront⟩ := h.held P hW hd hnil
    obtain ⟨hok, -⟩ := Dest.accept_works hW x (h.whole P hW hd).1
    refine (Dest.accept_held x hok).trans ⟨front, ?_⟩
    rw [h.shown, ← List.append_assoc, hfront, List.flatMap_append, List.flatMap_singleton]

theorem Wrote.flush (h : Wrote W d lines unflushed d') :
    Wrote W d lines [] (d'.flush W).2 where
  shown := (Dest.flush_shown d').trans h.shown
  parts := by
    rw [Dest.flush_total]
    exact h.parts
  whole := by
    intro P hW hd
    obtain ⟨hd', htotal⟩ := h.whole P hW hd
    rw [Dest.flush_total]
    exact ⟨(Dest.flush_works hW hd').2, htotal⟩
  held := by
    intro P hW hd hnil
    have hok := (Dest.flush_works hW (h.whole P hW hd).1).1
    rw [Dest.flush_held hok]
    exact List.nil_suffix

/-- One call of the root, at the leaf. -/
theorem Wrote.see {gs : List Level} {before : List (List UInt8 × Level)}
    (h : Wrote W d lines (through gs before) d') (c : Call) :
    Wrote W d (lines ++ through gs (given [c])) (through gs (pending before [c]))
      (Out.see W gs d' c) := by
  cases c with
  | accept line level =>
    show Wrote W d (lines ++ through gs [(line, level)]) (through gs (before ++ [(line, level)]))
      (if Sink.allows gs level then (d'.accept W line level).2 else d')
    unfold through
    rw [List.filter_append]
    by_cases hpass : Sink.allows gs level = true
    · rw [if_pos hpass, List.filter_singleton, hpass]
      exact h.accept (line, level)
    · rw [if_neg hpass, List.filter_singleton, Bool.eq_false_iff.mpr hpass]
      show Wrote W d (lines ++ []) (_ ++ []) d'
      rw [List.append_nil, List.append_nil]
      exact h
  | flush =>
    show Wrote W d (lines ++ []) [] (d'.flush W).2
    rw [List.append_nil]
    exact h.flush

/-- All calls so far. -/
theorem wrote_play (W : ByteWriter σ) (gs : List Level) (d : Dest σ) (calls : List Call) :
    Wrote W d (through gs (given calls)) (through gs (pending [] calls))
      (calls.foldl (Out.see W gs) d) := by
  induction calls using List.reverseRecOn with
  | nil => exact Wrote.refl W d
  | append_singleton calls c ih =>
    have hgiven : through gs (given (calls ++ [c]))
        = through gs (given calls) ++ through gs (given [c]) := by
      unfold through given
      rw [List.filterMap_append, List.filter_append]
    have hpending : pending [] (calls ++ [c]) = pending (pending [] calls) [c] := by
      unfold pending
      rw [List.foldl_append]
    rw [hgiven, hpending, List.foldl_append]
    exact ih.see c

end Output

/-! ## The drain's calls -/

namespace Sys

variable {cfg : Config} {s s' : Sys}

/-- A stopped drain has flushed. -/
def StopInv (s : Sys) : Prop := s.drain.pc = .stopped → unflushed s.sink = []

theorem drain_stop (hm : DrainMove cfg s s') : StopInv s' := by
  unfold StopInv
  have hscan : ∀ {s₁ : Sys}, syncing s₁.drain.pc = true →
      s₁.drain.pc = .stopped → unflushed s₁.sink = [] := by
    intro s₁ hs hst
    rw [hst] at hs
    cases hs
  cases hm with
  | lastFlush hpc hl =>
    intro _
    exact unflushed_flush s.sink
  | syncNext hpc hsub => exact hscan (syncNext_syncing _)
  | syncLive hpc hsub hl => exact hscan (syncDecide_syncing hpc)
  | syncDead hpc hsub => exact hscan (syncDecide_syncing hpc)
  | enter hpc hsh hnext =>
    rcases hnext with rfl | ⟨-, rfl⟩
    all_goals
      intro hst
      cases hst
  | pollDone hpc he hnext =>
    rcases hnext with ⟨-, rfl⟩ | ⟨-, rfl⟩
    all_goals
      intro hst
      cases hst
  | @clear ctx r hpc =>
    cases ctx with
    | final =>
      simp only [drainTo_drain, afterPass]
      cases cfg.segmented
      all_goals
        intro hst
        cases hst
    | poll i k =>
      intro hst
      cases hst
  | retired hpc hl hk hr =>
    simp only
    cases cfg.segmented
    all_goals
      intro hst
      cases hst
  | @notRecycled ctx r hpc hr =>
    cases ctx
    all_goals
      intro hst
      cases hst
  | @recycle ctx r hpc =>
    cases ctx
    all_goals
      intro hst
      cases hst
  | lock | syncHalf | leave | finalRing | finalDone | entry | stale | skip | unreserved | mark
  | passDone | pass | keepEntry | handedOff | notReserved | sameSerial | loadHead | drained
  | markRecycled | takeLines | deliver | delivered | lastPoll | worked | idleDirty | idleClean
  | flush | again =>
    intro hst
    cases hst

theorem step_stop {a : Action} (h : StopInv s) (hstep : step cfg s a = some s') :
    StopInv s' := by
  by_cases ha : a = .drain
  · subst ha
    exact drain_stop (drainStep_move hstep)
  · obtain ⟨hd, hs⟩ := step_drain_frame ha hstep
    unfold StopInv
    rw [hd, hs]
    exact h

theorem reach_stop (h : (system cfg).Reach (Sys.init cfg) s) : StopInv s :=
  h.invariant (I := StopInv) (fun _ _ _ hi _ (hst : step cfg _ _ = some _) => step_stop hi hst)
    nofun

/-- What `drain_ring` and `poll_once` call the sink with: `line` is what a record is rendered
to. -/
def callOf (line : Rec → List UInt8) (level : Rec → Level) : Event → Output.Call
  | .accept _ x => .accept (line x) (level x)
  | .flush => .flush

theorem given_events (line : Rec → List UInt8) (level : Rec → Level) (s : Sys) :
    Output.given (s.sink.map (callOf line level))
      = s.delivered.map fun x => (line x, level x) := by
  unfold Output.given delivered
  rw [List.filterMap_map, List.map_filterMap]
  apply List.filterMap_congr
  intro e _
  cases e <;> rfl

theorem pending_events (line : Rec → List UInt8) (level : Rec → Level) (s : Sys) :
    Output.pending [] (s.sink.map (callOf line level))
      = (unflushed s.sink).map fun e => (line e.2, level e.2) := by
  induction s.sink using List.reverseRecOn with
  | nil => rfl
  | append_singleton events e ih =>
    unfold Output.pending unflushed at ih ⊢
    rw [List.map_append, List.foldl_append, List.foldl_append, ih]
    cases e with
    | accept path x =>
      show (unflushed events).map (fun e => (line e.2, level e.2)) ++ [(line x, level x)]
        = (unflushed events ++ [(path, x)]).map fun e => (line e.2, level e.2)
      rw [List.map_append]
      rfl
    | flush => rfl

/-- **Every sink has its lines.** For every run of the logger, every tree of sinks and whatever
the streams under them do: each leaf has taken of every line delivered so far that the fan-outs
let through to it a part from the front, in the order of delivery, and nothing else. If its own
stream works it has taken all of each, and what it holds back is the end of what came since the
last flush; once the drain has stopped its stream has everything. -/
theorem sinks_have_their_lines {cfg : Config} {s : Sys}
    (h : (system cfg).Reach (Sys.init cfg) s) {σ : Type} (W : Lib.ByteWriter σ)
    (line : Rec → List UInt8) (level : Rec → Level) (out : Output.Out σ) (i : Nat)
    {gs : List Level} {d : Output.Dest σ} (hd : out.leaves[i]? = some (gs, d)) :
    ∃ d', (out.play W (s.sink.map (callOf line level))).leaves[i]? = some (gs, d') ∧
      Output.Wrote W d (Output.through gs (s.delivered.map fun x => (line x, level x)))
        (Output.through gs ((unflushed s.sink).map fun e => (line e.2, level e.2))) d' ∧
      (s.drain.pc = .stopped → ∀ P, W.Works P → P d.stream → d.held = [] →
        W.written d'.stream = W.written d.stream ++
          (Output.through gs (s.delivered.map fun x => (line x, level x))).flatMap d.shown) := by
  have hwrote := Output.wrote_play W gs d (s.sink.map (callOf line level))
  rw [given_events, pending_events] at hwrote
  refine ⟨_, ?_, hwrote, ?_⟩
  · rw [Output.Out.leaves_play, List.getElem?_map, hd]
    rfl
  · intro hstop P hW hP hnil
    obtain ⟨-, htotal⟩ := hwrote.whole P hW hP
    have hheld := hwrote.held P hW hP hnil
    rw [reach_stop h hstop] at hheld
    have hnone := List.suffix_nil.mp hheld
    unfold Output.Dest.total at htotal
    rw [hnone, hnil, List.append_nil, List.append_nil] at htotal
    exact htotal

/-- A pipe that takes three bytes at a time, or is broken. -/
def pipe : Lib.ByteWriter (Bool × List UInt8) where
  write w bytes :=
    if w.1 then (some (min 3 bytes.length), (true, w.2 ++ bytes.take (min 3 bytes.length)))
    else (none, w)
  flush w := (w.1, w)
  written := Prod.snd
  taken := by
    rintro ⟨sound, w⟩ bytes n hn
    cases sound with
    | false => cases hn
    | true =>
      cases hn
      exact ⟨Nat.min_le_right 3 bytes.length, rfl⟩
  failed := by
    rintro ⟨sound, w⟩ bytes hn
    cases sound with
    | false => rfl
    | true => cases hn
  flushed := fun _ => rfl

theorem pipe_works : pipe.Works fun w => w.1 = true where
  write := by
    rintro ⟨sound, w⟩ bytes rfl hne
    have hlen : 0 < bytes.length := List.length_pos_of_ne_nil hne
    refine ⟨⟨min 3 bytes.length - 1, ?_⟩, rfl⟩
    show some (min 3 bytes.length) = _
    congr 1
    omega
  flush := fun _ hw => ⟨hw, hw⟩

/-- A console on a broken pipe, and a file for what is not above `info`. -/
def tee : Output.Out (Bool × List UInt8) :=
  .fanOut [.leaf (.console true (false, [])),
    .withLevel (.leaf (.file ⟨[], (true, [0x23])⟩)) .info]

theorem sinks_have_their_lines_tee :
    ∃ s d', (system (smallConfig .drop)).run (Sys.init (smallConfig .drop))
        (firstLog 0 64 ++ [.exit 0] ++ List.replicate 4 .guard ++ List.replicate 28 .drain)
          = some s ∧
      (tee.play pipe (s.sink.map (callOf (fun _ => [0x68, 0x69]) fun _ => .info))).leaves[1]?
        = some ([.info], d') ∧
      pipe.written d'.stream = [0x23, 0x68, 0x69, 0x0a] := by
  have hend : ((system (smallConfig .drop)).run (Sys.init (smallConfig .drop))
      (firstLog 0 64 ++ [.exit 0] ++ List.replicate 4 .guard ++ List.replicate 28 .drain)).map
        (fun s => (s.drain.pc, s.delivered)) = some (.stopped, [⟨0, 0, 0, 64⟩]) := by
    decide +kernel
  obtain ⟨s, hs, hpair⟩ := Option.map_eq_some_iff.mp hend
  rw [Prod.mk.injEq] at hpair
  obtain ⟨hstop, hdel⟩ := hpair
  obtain ⟨d', hleaf, -, hfile⟩ := sinks_have_their_lines (Machine.run_runs hs) pipe
    (fun _ => [0x68, 0x69]) (fun _ => .info) tee 1 (d := .file ⟨[], (true, [0x23])⟩) rfl
  refine ⟨s, d', hs, hleaf, ?_⟩
  rw [hfile hstop _ pipe_works rfl rfl, hdel]
  rfl

end Sys

end Ticklog
