import Mathlib.Data.List.Flatten
import Ticklog.Codec.Format
import Ticklog.Lib.Write
import Ticklog.Sink.Tree

/-!
# What the sinks write (`src/sink/`)

`FileSink`, `WriterSink` and `ConsoleSink` over the streams they write to, inside the adapters
of `Sink.Tree`. The drain calls the root for every line and every flush and drops the answers
but for a message on stderr; a fan-out drops its entries' in the same way. So a sink that fails
takes nothing away from another, and each leaf can be followed by itself (`leaves_play`): a line
that comes to it leaves a part from the front of what the leaf makes of it, all of it if its
stream works (`play_parts`, `play_works`).
-/

namespace Ticklog

open Lib

/-! ## The sinks with an output -/

/-- `FILE_BUF_CAPACITY`. -/
def fileBufCapacity : Nat := 64 * 1024

theorem fileBufCapacity_pos : 0 < fileBufCapacity := by decide

namespace Output

def newline : List UInt8 := [0x0a]

/-- `RESET`. -/
def resetCode : List UInt8 := strBytes "\x1b[0m"

/-- `color_code`. -/
def colorCode : Level → List UInt8
  | .error => strBytes "\x1b[91m"
  | .warn => strBytes "\x1b[33m"
  | .info => strBytes "\x1b[32m"
  | .debug => strBytes "\x1b[36m"
  | .trace => strBytes "\x1b[90m"

/-- `render`. -/
def render (line : List UInt8) (level : Level) (color : Bool) : List UInt8 :=
  (if color then colorCode level ++ line ++ resetCode else line) ++ newline

universe u

/-- A concrete sink on a stream. -/
inductive Dest (σ : Type u) where
  /-- `FileSink`. -/
  | file (b : Buffered σ)
  /-- `WriterSink`. -/
  | writer (w : σ)
  /-- `ConsoleSink`. -/
  | console (useColor : Bool) (w : σ)

namespace Dest

variable {σ : Type u} (W : ByteWriter σ)

/-- `LogSink::accept`: whether it is `Ok`. -/
def accept (line : List UInt8) (level : Level) : Dest σ → Bool × Dest σ
  | .file b =>
    (andThen (b.writeAll W fileBufCapacity line)
      (Buffered.writeAll W fileBufCapacity newline)).map id .file
  | .writer w =>
    (andThen (W.writeAll w line) fun w' => W.writeAll w' newline).map id .writer
  | .console useColor w =>
    (W.writeAll w (render line level useColor)).map id (.console useColor)

/-- `LogSink::flush`. -/
def flush : Dest σ → Bool × Dest σ
  | .file b => (b.flush W).map id .file
  | .writer w => (W.flush w).map id .writer
  | .console useColor w => (W.flush w).map id (.console useColor)

def stream : Dest σ → σ
  | .file b => b.inner
  | .writer w => w
  | .console _ w => w

/-- What is accepted and not yet written to the stream. -/
def held : Dest σ → List UInt8
  | .file b => b.buf
  | .writer _ | .console _ _ => []

/-- Everything accepted. -/
def total (d : Dest σ) : List UInt8 := W.written d.stream ++ d.held

/-- What the sink makes of a line. -/
def shown : Dest σ → List UInt8 × Level → List UInt8
  | .file _, (line, _) | .writer _, (line, _) => line ++ newline
  | .console useColor _, (line, level) => render line level useColor

variable {W}

/-! ## One call -/

theorem accept_took (x : List UInt8 × Level) (d : Dest σ) :
    Took (d.total W) (d.shown x) (d.accept W x.1 x.2).1 ((d.accept W x.1 x.2).2.total W) := by
  cases d with
  | file b =>
    exact Took.andThen (Buffered.total W) (Buffered.writeAll_took fileBufCapacity_pos x.1)
      fun _ => Buffered.writeAll_took fileBufCapacity_pos newline
  | writer w =>
    have htook := Took.andThen W.written (ByteWriter.writeAll_took (W := W) w x.1)
      fun w' => ByteWriter.writeAll_took (W := W) w' newline
    show Took (W.written w ++ []) _ _ (W.written _ ++ [])
    rw [List.append_nil, List.append_nil]
    exact htook
  | console useColor w =>
    show Took (W.written w ++ []) _ _ (W.written _ ++ [])
    rw [List.append_nil, List.append_nil]
    exact ByteWriter.writeAll_took w _

theorem accept_shown (x : List UInt8 × Level) (d : Dest σ) :
    (d.accept W x.1 x.2).2.shown = d.shown := by
  cases d <;> rfl

theorem accept_works {P : σ → Prop} (h : W.Works P) (x : List UInt8 × Level) {d : Dest σ}
    (hd : P d.stream) :
    (d.accept W x.1 x.2).1 = true ∧ P (d.accept W x.1 x.2).2.stream := by
  cases d with
  | file b =>
    refine andThen_works (Q := fun b : Buffered σ => P b.inner)
      (Buffered.writeAll_works h hd x.1) ?_
    intro b' hb'
    exact Buffered.writeAll_works h hb' newline
  | writer w =>
    refine andThen_works (Q := P) (f := fun w' => W.writeAll w' newline)
      (ByteWriter.writeAll_works h w x.1 hd) ?_
    intro w' hw'
    exact ByteWriter.writeAll_works h w' newline hw'
  | console useColor w => exact ByteWriter.writeAll_works h w _ hd

/-- After an `Ok` no more is held than the end of what was held and came in. -/
theorem accept_held (x : List UInt8 × Level) {d : Dest σ} (hok : (d.accept W x.1 x.2).1 = true) :
    (d.accept W x.1 x.2).2.held <:+ d.held ++ d.shown x := by
  cases d with
  | file b =>
    have hok' : (andThen (b.writeAll W fileBufCapacity x.1)
        (Buffered.writeAll W fileBufCapacity newline)).1 = true := hok
    obtain ⟨hline, hnewline, heq⟩ := ok_of_andThen hok'
    have h₁ := Buffered.writeAll_held fileBufCapacity_pos x.1 hline
    have h₂ := Buffered.writeAll_held fileBufCapacity_pos newline hnewline
    show Buffered.buf (andThen _ _).2 <:+ b.buf ++ (x.1 ++ newline)
    rw [heq, ← List.append_assoc]
    apply h₂.trans
    obtain ⟨front, hfront⟩ := h₁
    exact ⟨front, by rw [← List.append_assoc, hfront]⟩
  | writer | console => exact List.nil_suffix

theorem flush_total (d : Dest σ) : (d.flush W).2.total W = d.total W := by
  cases d with
  | file b => exact Buffered.flush_total.1
  | writer w =>
    show W.written _ ++ [] = W.written _ ++ []
    exact congrArg (· ++ []) (W.flushed w)
  | console useColor w =>
    show W.written _ ++ [] = W.written _ ++ []
    exact congrArg (· ++ []) (W.flushed w)

theorem flush_shown (d : Dest σ) : (d.flush W).2.shown = d.shown := by
  cases d <;> rfl

theorem flush_works {P : σ → Prop} (h : W.Works P) {d : Dest σ} (hd : P d.stream) :
    (d.flush W).1 = true ∧ P (d.flush W).2.stream := by
  cases d with
  | file b => exact Buffered.flush_works h hd
  | writer w => exact h.flush w hd
  | console useColor w => exact h.flush w hd

theorem flush_held {d : Dest σ} (hok : (d.flush W).1 = true) : (d.flush W).2.held = [] := by
  cases d with
  | file b => exact Buffered.flush_total.2 hok
  | writer | console => rfl

end Dest

/-! ## The tree -/

inductive Out (σ : Type u) where
  | leaf (dest : Dest σ)
  | withLevel (sink : Out σ) (level : Level)
  | fanOut (entries : List (Out σ))

/-- A call of the drain. -/
inductive Call where
  | accept (line : List UInt8) (level : Level)
  | flush

namespace Out

variable {σ : Type u} (W : ByteWriter σ)

/-- `max_level`; the concrete sinks keep the default. -/
def maxLevel : Out σ → Level
  | .leaf _ => .trace
  | .withLevel _ level => level
  | .fanOut _ => .trace

mutual

def accept (line : List UInt8) (level : Level) : Out σ → Bool × Out σ
  | .leaf dest => (dest.accept W line level).map id .leaf
  | .withLevel sink m => (accept line level sink).map id fun sink' => .withLevel sink' m
  | .fanOut entries => (true, .fanOut (dispatch line level entries))

/-- The loop of `FanOut::accept`. -/
def dispatch (line : List UInt8) (level : Level) : List (Out σ) → List (Out σ)
  | [] => []
  | entry :: rest =>
    (if level ≤ entry.maxLevel then (accept line level entry).2 else entry)
      :: dispatch line level rest

end

mutual

def flush : Out σ → Bool × Out σ
  | .leaf dest => (dest.flush W).map id .leaf
  | .withLevel sink m => (flush sink).map id fun sink' => .withLevel sink' m
  | .fanOut entries => (true, .fanOut (flushEach entries))

/-- The loop of `FanOut::flush`. -/
def flushEach : List (Out σ) → List (Out σ)
  | [] => []
  | entry :: rest => (flush entry).2 :: flushEach rest

end

/-- A call, its error printed and dropped. -/
def call (out : Out σ) : Call → Out σ
  | .accept line level => (accept W line level out).2
  | .flush => (flush W out).2

def play (out : Out σ) (calls : List Call) : Out σ := calls.foldl (call W) out

/-! ## The leaves -/

mutual

/-- The leaves, each with the levels of the fan-out children on the way to it. -/
def leaves : Out σ → List (List Level × Dest σ)
  | .leaf dest => [([], dest)]
  | .withLevel sink _ => leaves sink
  | .fanOut entries => leavesEach entries

def leavesEach : List (Out σ) → List (List Level × Dest σ)
  | [] => []
  | entry :: rest =>
    (leaves entry).map (Prod.map (entry.maxLevel :: ·) id) ++ leavesEach rest

end

mutual

/-- The tree without its streams. -/
def shape : Out σ → Sink
  | .leaf _ => .leaf .trace false
  | .withLevel sink level => .withLevel (shape sink) level
  | .fanOut entries => .fanOut (shapeEach entries)

def shapeEach : List (Out σ) → List Sink
  | [] => []
  | entry :: rest => shape entry :: shapeEach rest

end

theorem shape_maxLevel (out : Out σ) : out.shape.maxLevel = out.maxLevel := by
  cases out <;> rfl

mutual

/-- The leaves are those of the sink tree, behind the same levels. -/
theorem leaves_shape : ∀ (out : Out σ) (node : List Nat),
    (out.shape.leaves node).map Prod.snd = out.leaves.map Prod.fst
  | .leaf _, _ => rfl
  | .withLevel sink _, node => leaves_shape sink (node ++ [0])
  | .fanOut entries, node => leavesEach_shape entries 0 node

theorem leavesEach_shape : ∀ (entries : List (Out σ)) (i : Nat) (node : List Nat),
    (Sink.leavesEach (shapeEach entries) i node).map Prod.snd
      = (leavesEach entries).map Prod.fst
  | [], _, _ => rfl
  | entry :: rest, i, node => by
    have hentry := leaves_shape entry (node ++ [i])
    have hrest := leavesEach_shape rest (i + 1) node
    rw [shapeEach, Sink.leavesEach, leavesEach, List.map_append, List.map_append, hrest,
      shape_maxLevel, List.map_map, List.map_map]
    have hcons := congrArg (List.map (entry.maxLevel :: ·)) hentry
    rw [List.map_map, List.map_map] at hcons
    exact congrArg (· ++ _) hcons

end

/-! ## A leaf by itself -/

/-- One call as a leaf behind the levels `gs` sees it. -/
def see (gs : List Level) (d : Dest σ) : Call → Dest σ
  | .accept line level => if Sink.allows gs level then (d.accept W line level).2 else d
  | .flush => (d.flush W).2

variable {W}

theorem see_cons (m : Level) (gs : List Level) (d : Dest σ) (line : List UInt8) (level : Level) :
    see W (m :: gs) d (.accept line level)
      = if level ≤ m then see W gs d (.accept line level) else d := by
  show (if (decide (level ≤ m) && Sink.allows gs level) = true then _ else _) = _
  by_cases hm : level ≤ m
  · rw [if_pos hm, decide_eq_true hm, Bool.true_and]
    rfl
  · rw [if_neg hm, decide_eq_false hm, Bool.false_and]
    rfl

theorem accept_maxLevel (line : List UInt8) (level : Level) (out : Out σ) :
    (accept W line level out).2.maxLevel = out.maxLevel := by
  cases out <;> rfl

theorem flush_maxLevel (out : Out σ) : (flush W out).2.maxLevel = out.maxLevel := by
  cases out <;> rfl

mutual

theorem leaves_accept (line : List UInt8) (level : Level) : ∀ out : Out σ,
    leaves (accept W line level out).2
      = (leaves out).map fun leaf => (leaf.1, see W leaf.1 leaf.2 (.accept line level))
  | .leaf _ => rfl
  | .withLevel sink _ => leaves_accept line level sink
  | .fanOut entries => leaves_dispatch line level entries

theorem leaves_dispatch (line : List UInt8) (level : Level) : ∀ entries : List (Out σ),
    leavesEach (dispatch W line level entries)
      = (leavesEach entries).map fun leaf => (leaf.1, see W leaf.1 leaf.2 (.accept line level))
  | [] => rfl
  | entry :: rest => by
    rw [dispatch, leavesEach, leavesEach, List.map_append, leaves_dispatch line level rest,
      List.map_map]
    congr 1
    by_cases hm : level ≤ entry.maxLevel
    · rw [if_pos hm, accept_maxLevel, leaves_accept line level entry, List.map_map]
      apply List.map_congr_left
      intro leaf _
      show _ = (entry.maxLevel :: leaf.1, see W (entry.maxLevel :: leaf.1) leaf.2 _)
      rw [see_cons, if_pos hm]
      rfl
    · rw [if_neg hm]
      apply List.map_congr_left
      intro leaf _
      show _ = (entry.maxLevel :: leaf.1, see W (entry.maxLevel :: leaf.1) leaf.2 _)
      rw [see_cons, if_neg hm]
      rfl

end

mutual

/-- A flush passes every level. -/
theorem leaves_flush : ∀ out : Out σ,
    leaves (flush W out).2 = (leaves out).map fun leaf => (leaf.1, see W leaf.1 leaf.2 .flush)
  | .leaf _ => rfl
  | .withLevel sink _ => leaves_flush sink
  | .fanOut entries => leaves_flushEach entries

theorem leaves_flushEach : ∀ entries : List (Out σ),
    leavesEach (flushEach W entries)
      = (leavesEach entries).map fun leaf => (leaf.1, see W leaf.1 leaf.2 .flush)
  | [] => rfl
  | entry :: rest => by
    rw [flushEach, leavesEach, leavesEach, List.map_append, leaves_flushEach rest,
      flush_maxLevel, leaves_flush entry, List.map_map, List.map_map]
    rfl

end

theorem leaves_call (out : Out σ) (c : Call) :
    leaves (out.call W c) = (leaves out).map fun leaf => (leaf.1, see W leaf.1 leaf.2 c) := by
  cases c with
  | accept line level => exact leaves_accept line level out
  | flush => exact leaves_flush out

/-- No leaf has a part in what becomes of another. -/
theorem leaves_play (out : Out σ) (calls : List Call) :
    leaves (out.play W calls)
      = (leaves out).map fun leaf => (leaf.1, calls.foldl (see W leaf.1) leaf.2) := by
  induction calls generalizing out with
  | nil => exact (List.map_id _).symm
  | cons c rest ih =>
    show leaves ((out.call W c).play W rest) = _
    rw [ih, leaves_call, List.map_map]
    rfl

end Out

end Output

end Ticklog
