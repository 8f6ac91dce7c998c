import Ticklog.Codec.RoundTrip

/-!
# The logging macro (`src/macros.rs`)

The macro checks the format string against all of its arguments, but narrows their number
to a byte (`__N_ARGS`) before it computes the record's size, the place of the first
payload and the count. `macro_frames_iff` says for which argument lists the record still
frames them all.
-/

namespace Ticklog

open Lib

/-- `__N_ARGS`: the number of arguments, `as u8`. -/
def nArgs (args : List Loggable) : Nat := args.length % 2 ^ 8

/-- `__total_size`. -/
def macroTotalSize (args : List Loggable) : Nat :=
  wrappingAdd (wrappingAdd baseRecordSize (nArgs args)) (argsEncodedSize args)

/-- `dispatch` once a slot is reserved: the memory at the slot afterwards, or `some none` where
the size gate drops the record. -/
def dispatch (dst : Nat → UInt8) (level : Level) (timestamp site : UInt64) (nArgs total : Nat)
    (writeArgs : List UInt8 → Option (List UInt8)) : Option (Option (Nat → UInt8)) :=
  if maxRecordSize < total then some none
  else (assemble dst level timestamp flagSite site nArgs total writeArgs).map some

/-- A call of a logging macro. The tags fill the front, the payloads follow. -/
def logMacro (dst : Nat → UInt8) (level : Level) (timestamp site : UInt64)
    (args : List Loggable) : Option (Option (Nat → UInt8)) :=
  dispatch dst level timestamp site (nArgs args) (macroTotalSize args) fun buf =>
    writeArgs args buf 0 (nArgs args)

/-! ## What a framed record is -/

/-- Where the count byte stands. -/
def countAt : Nat := headerSize + siteSectionSize

/-- `record` frames exactly `args`: the count byte is their number, tags and payloads fill the
space behind it side by side, and the drain renders each placeholder from its own argument,
using up the record. -/
structure Frames (env : Env) (fmt record : List UInt8) (args : List Loggable) : Prop where
  count : (record.getD countAt 0).toNat = args.length
  fills : record.drop baseRecordSize = tagBytes args ++ payloads args
  renders : ∀ (threadId : Nat) (threadName : String), ∃ ps, Reads fmt ps ∧
    decodeAndFormat env [.place .message FormatSpec.default] threadId threadName record []
      = some (⟨[]⟩, render env.std ps args)

/-- Every record the macro makes of these arguments is dropped by the size gate or frames
exactly them. -/
def MacroFrames (fmt : List UInt8) (args : List Loggable) : Prop :=
  ∀ (env : Env) (dst : Nat → UInt8) (level : Level) (timestamp site : UInt64),
    (env.site site.toNat).fmt = fmt →
    logMacro dst level timestamp site args = some none ∨
      ∃ dst', logMacro dst level timestamp site args = some (some dst') ∧
        Frames env fmt (slice dst' 0 (macroTotalSize args)) args

/-! ## Arguments that are written fit -/

theorem setByte_length {buf buf' : List UInt8} {pos : Nat} {byte : UInt8}
    (h : setByte buf pos byte = some buf') : buf'.length = buf.length := by
  unfold setByte at h
  split at h
  · cases h
    exact List.length_set
  · cases h

theorem encodeAt_length {buf buf' : List UInt8} {pay : Nat} {arg : Loggable}
    (h : encodeAt buf pay arg = some buf') :
    pay + arg.encodedSize ≤ buf.length ∧ buf'.length = buf.length := by
  unfold encodeAt at h
  simp only at h
  split at h
  next hfits =>
    have hwindow : ((buf.drop pay).take arg.encodedSize).length = arg.encodedSize := by
      rw [List.length_take, List.length_drop]
      omega
    rw [Loggable.encode_exact hwindow] at h
    cases h
    refine ⟨hfits, ?_⟩
    rw [List.length_append, List.length_append, List.length_take, List.length_drop,
      Loggable.payload_length]
    omega
  next => cases h

/-- The slices `write_args` takes lie inside its buffer. -/
theorem writeArgs_fits {args : List Loggable} {buf out : List UInt8} {tag pay : Nat}
    (h : writeArgs args buf tag pay = some out) :
    args = [] ∨ pay + argsSize args ≤ buf.length := by
  induction args generalizing buf tag pay with
  | nil => exact Or.inl rfl
  | cons arg rest ih =>
    right
    rw [writeArgs] at h
    obtain ⟨buf₁, htag, h⟩ := Option.bind_eq_some_iff.mp h
    obtain ⟨buf₂, hpay, h⟩ := Option.bind_eq_some_iff.mp h
    have htaglen := setByte_length htag
    obtain ⟨hfits, hpaylen⟩ := encodeAt_length hpay
    show pay + (arg.encodedSize + argsSize rest) ≤ buf.length
    rcases ih h with rfl | hrest
    · show pay + (arg.encodedSize + 0) ≤ buf.length
      omega
    · omega

/-! ## When the macro frames its arguments -/

theorem nArgs_eq {args : List Loggable} (h : args.length ≤ 255) : nArgs args = args.length :=
  Nat.mod_eq_of_lt (Nat.lt_succ_of_le h)

theorem logMacro_dropped {args : List Loggable} (h : maxRecordSize < macroTotalSize args)
    (dst : Nat → UInt8) (level : Level) (timestamp site : UInt64) :
    logMacro dst level timestamp site args = some none := by
  unfold logMacro dispatch
  rw [if_pos h]

/-- Past the gate the macro assembles. -/
theorem logMacro_assemble {args : List Loggable} (h : ¬ maxRecordSize < macroTotalSize args)
    (dst : Nat → UInt8) (level : Level) (timestamp site : UInt64) :
    logMacro dst level timestamp site args
      = (assemble dst level timestamp flagSite site (nArgs args) (macroTotalSize args) fun buf =>
          writeArgs args buf 0 (nArgs args)).map some := by
  unfold logMacro dispatch
  rw [if_neg h]

/-- A record that frames its arguments has at most 255. -/
theorem Frames.count_le {env : Env} {fmt record : List UInt8} {args : List Loggable}
    (h : Frames env fmt record args) : args.length ≤ 255 := by
  have := (record.getD countAt 0).toNat_lt
  rw [h.count] at this
  omega

/-- Up to 255 arguments in a record of their true size. -/
theorem macroFrames_of_size {fmt : List UInt8} {args : List Loggable}
    (hfmt : validateFmt fmt = .ok args.length) (hcount : args.length ≤ 255)
    (hsize : recordSize args ≤ maxRecordSize) : MacroFrames fmt args := by
  intro env dst level timestamp site hsite
  have htotal : macroTotalSize args = totalSize args := by
    rw [macroTotalSize, nArgs_eq hcount]
    rfl
  have hrecord : macroTotalSize args = recordSize args := htotal.trans (totalSize_eq hsize)
  have hgate : ¬ maxRecordSize < macroTotalSize args := by omega
  have hlog : logMacro dst level timestamp site args
      = some (some (store dst 0 (recordBytes level timestamp site args))) := by
    have hassemble := assembleLog_eq dst level timestamp site hsize
    rw [logMacro_assemble hgate, htotal, nArgs_eq hcount]
    unfold assembleLog at hassemble
    rw [hassemble]
    rfl
  refine Or.inr ⟨_, hlog, ?_⟩
  have hbytes : slice (store dst 0 (recordBytes level timestamp site args)) 0
      (macroTotalSize args) = recordBytes level timestamp site args := by
    rw [hrecord, ← recordBytes_length level timestamp site args]
    exact slice_store dst _
  rw [hbytes]
  obtain ⟨ps, hreads, hps⟩ := validateFmt_reads hfmt
  have hargs : argsSize args ≤ maxRecordSize := Nat.le_trans (Nat.le_add_left _ _) hsize
  refine ⟨?_, ?_, fun threadId threadName => ⟨ps, hreads, ?_⟩⟩
  · have hhead : countAt + 1 = (recordHead level timestamp site args).length :=
      (recordHead_length level timestamp site args).symm
    have hlast : (recordHead level timestamp site args).getD countAt 0
        = UInt8.ofNat args.length := by
      have hfront : countAt = 24 := rfl
      rw [recordHead, hfront, List.getD_append_right _ _ _ _ (by simp)]
      simp
    rw [recordBytes, List.getD_append _ _ _ _ (by omega), hlast, UInt8.toNat_ofNat']
    omega
  · exact List.drop_left' (recordHead_length level timestamp site args)
  · rw [decodeAndFormat_record env level timestamp site threadId threadName _ [] hcount, hsite,
      interleave_reads env.std hreads hps hargs, List.nil_append]

/-- The macro's record is dropped by the size gate or frames exactly its arguments, if and only
if the gate drops it, or there are at most 255 arguments and the record's true size is within
the gate's bound. -/
theorem macro_frames_iff {fmt : List UInt8} {args : List Loggable}
    (hfmt : validateFmt fmt = .ok args.length) :
    MacroFrames fmt args ↔
      maxRecordSize < macroTotalSize args ∨
        args.length ≤ 255 ∧ recordSize args ≤ maxRecordSize := by
  constructor
  · intro hframes
    by_cases hgate : maxRecordSize < macroTotalSize args
    · exact Or.inl hgate
    right
    have hassemble := logMacro_assemble hgate (fun _ => 0) .info 0 0
    rcases hframes { exampleEnv with site := fun _ => ⟨fmt, [], 1⟩ } (fun _ => 0) .info 0 0 rfl with
      hdrop | ⟨dst', hlog, hframed⟩
    · rw [hassemble] at hdrop
      obtain ⟨a, -, ha⟩ := Option.map_eq_some_iff.mp hdrop
      cases ha
    · have hcount := hframed.count_le
      refine ⟨hcount, ?_⟩
      rw [hassemble, nArgs_eq hcount] at hlog
      obtain ⟨dst₁, hdst, -⟩ := Option.map_eq_some_iff.mp hlog
      -- the arguments were written into what the size leaves behind the head
      have hflag : flagSite &&& flagSite ≠ 0 := by decide
      unfold assemble at hdst
      simp only [if_pos hflag] at hdst
      split at hdst
      next hroom =>
        obtain ⟨buf, hwrite, -⟩ := Option.bind_eq_some_iff.mp hdst
        have hfits := writeArgs_fits hwrite
        rw [slice_length] at hfits
        unfold recordSize baseRecordSize headerSize siteSectionSize countSize
        rcases hfits with rfl | hfits
        · show 16 + 8 + 1 + 0 + 0 ≤ maxRecordSize
          decide
        · omega
      next => cases hdst
  · rintro (hgate | ⟨hcount, hsize⟩)
    · intro env dst level timestamp site _
      exact Or.inl (logMacro_dropped hgate dst level timestamp site)
    · exact macroFrames_of_size hfmt hcount hsize

theorem macro_frames_example :
    MacroFrames exampleFmt [.u8 7, .str "ok"] := by
  have hfmt : validateFmt exampleFmt = .ok [Loggable.u8 7, .str "ok"].length := by decide
  exact (macro_frames_iff hfmt).mpr (Or.inr (by decide))

/-! ## 256 arguments -/

/-- `"{}{}…"`. -/
def emptyPlaceholders : Nat → List UInt8
  | 0 => []
  | n + 1 => openBrace :: closeBrace :: emptyPlaceholders n

theorem validateFrom_emptyPlaceholders (n : Nat) {fuel : Nat} (count : Nat)
    (h : (emptyPlaceholders n).length ≤ fuel) :
    validateFrom fuel (emptyPlaceholders n) count = .ok (count + n) := by
  induction n generalizing fuel count with
  | zero => cases fuel <;> rfl
  | succ n ih =>
    cases fuel with
    | zero => simp [emptyPlaceholders] at h
    | succ fuel =>
      simp only [emptyPlaceholders, List.length_cons] at h
      have hplace : validatePlaceholder (closeBrace :: emptyPlaceholders n)
          = .ok (emptyPlaceholders n) := rfl
      rw [emptyPlaceholders, validateFrom, if_pos rfl, at?_cons, if_neg (by decide), hplace]
      show validateFrom fuel (emptyPlaceholders n) (count + 1) = .ok (count + (n + 1))
      rw [ih (count + 1) (by omega)]
      congr 1
      omega

/-- The checked macro takes 256 bytes as arguments, and frames none of them. -/
theorem too_many_arguments :
    validateFmt (emptyPlaceholders 256) = .ok (List.replicate 256 (Loggable.u8 1)).length ∧
      ¬ MacroFrames (emptyPlaceholders 256) (List.replicate 256 (.u8 1)) := by
  constructor
  · rw [validateFmt, validateFrom_emptyPlaceholders 256 0 (Nat.le_refl _), List.length_replicate]
  · intro hframes
    have hpayload : argsEncodedSize (List.replicate 256 (.u8 1)) = 256 := by
      have hsum : argsSize (List.replicate 256 (.u8 1)) = 256 := by
        rw [argsSize, List.map_replicate, List.sum_replicate_nat]
        rfl
      have hword : wordSize = 18446744073709551616 := by decide
      rw [argsEncodedSize_eq (by omega), hsum]
    have hgate : ¬ maxRecordSize < macroTotalSize (List.replicate 256 (.u8 1)) := by
      rw [macroTotalSize, hpayload, nArgs, List.length_replicate]
      decide
    rcases hframes { exampleEnv with site := fun _ => ⟨emptyPlaceholders 256, [], 1⟩ } (fun _ => 0)
      .info 0 0 rfl with hdrop | ⟨dst', -, hframed⟩
    · rw [logMacro_assemble hgate] at hdrop
      obtain ⟨a, -, ha⟩ := Option.map_eq_some_iff.mp hdrop
      cases ha
    · have hcount := hframed.count_le
      rw [List.length_replicate] at hcount
      omega

end Ticklog
