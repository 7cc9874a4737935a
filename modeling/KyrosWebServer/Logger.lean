import KyrosWebServer.LogRecord
import KyrosWebServer.Timestamp

/-!
# The log

`Logger` from base/Logger: the level from the environment, the conditions in
front of the macros, and the heading that its constructor writes into the stream
of a record. `fwrite` is atomic, so that a log is the records of all threads one
behind the other. Lines come back from it one for each call that is enabled, and
they sort as the times in their headings.
-/

namespace KyrosWebServer.Base

open CMemory Admission Lexicographic

/-- `Logger::LogLevel`. -/
inductive LogLevel
  | TRACE | DEBUG | INFO | WARN | ERROR
  deriving DecidableEq, Repr

namespace LogLevel

/-- The enumerator as a number. -/
def value : LogLevel → ℕ
  | TRACE => 0
  | DEBUG => 1
  | INFO => 2
  | WARN => 3
  | ERROR => 4

/-- `LogLevelName[level]`. -/
def name : LogLevel → CStr
  | TRACE => ⟨chars "TRACE".toList, by decide⟩
  | DEBUG => ⟨chars "DEBUG".toList, by decide⟩
  | INFO => ⟨chars "INFO".toList, by decide⟩
  | WARN => ⟨chars "WARN".toList, by decide⟩
  | ERROR => ⟨chars "ERROR".toList, by decide⟩

/-- The condition of the macro of a level, given `gLogLevel`. Only the macros of
the lowest two have one. -/
def macroEmits (gLogLevel : LogLevel) : LogLevel → Bool
  | TRACE => gLogLevel.value ≤ TRACE.value
  | DEBUG => gLogLevel.value ≤ DEBUG.value
  | INFO | WARN | ERROR => true

end LogLevel

/-- The environment variables that are looked at, by whether they are set. -/
structure Environment where
  /-- For all levels. -/
  SET_LOG_TRACE : Bool
  /-- For all levels but the lowest. -/
  SET_LOG_DEBUG : Bool

/-- `initLogLevel`. -/
def initLogLevel (env : Environment) : LogLevel :=
  if env.SET_LOG_TRACE then .TRACE else if env.SET_LOG_DEBUG then .DEBUG else .INFO

/-- What is behind the last `c` of a text. -/
def behindLast (c : UInt8) (text : List UInt8) : List UInt8 :=
  (text.reverse.takeWhile (· != c)).reverse

theorem behindLast_subset (c : UInt8) (text : List UInt8) : behindLast c text ⊆ text := by
  intro x hx
  have hmem := (List.takeWhile_sublist _).subset (List.mem_reverse.mp hx)
  exact List.mem_reverse.mp hmem

/-- `FileName::get`: null when there is no slash. -/
def FileName.get (mName : CStr) : Option CStr :=
  if Char.toUInt8 '/' ∈ mName.text then
    some ⟨behindLast (Char.toUInt8 '/') mName.text,
      fun hzero => mName.zero_notMem (behindLast_subset _ _ hzero)⟩
  else none

theorem zero_notMem_decimalText (z : ℤ) : (0 : UInt8) ∉ decimalText z := by
  have hdigits : (0 : UInt8) ∉ decimal.numeral z.natAbs :=
    fun hmem => absurd (decimal.numeral_subset _ hmem) (by decide)
  unfold decimalText
  split
  · exact List.not_mem_cons_of_ne_of_not_mem (by decide) hdigits
  · exact hdigits

/-- `CurrentThread::getStr`: `Tid` as a text. -/
def CurrentThread.getStr (Tid : Int32) : CStr := ⟨decimalText Tid.toInt, zero_notMem_decimalText _⟩

/-- A use of a log macro: the arguments of the constructor, what it reads, and
the operands that follow. -/
structure LogCall where
  /-- `__FILE__`. -/
  file : CStr
  /-- `__LINE__`. -/
  line : Int32
  /-- The level of the macro. -/
  level : LogLevel
  /-- `__func__`. -/
  func : CStr
  /-- `Timestamp::now()`. -/
  now : Timestamp
  /-- The thread. -/
  Tid : Int32
  /-- What is logged. -/
  ops : List Operand
  /-- The storage of the buffer. -/
  raw : List UInt8
  /-- It is a whole buffer. -/
  length_raw : raw.length = kBufferSize

namespace LogCall

/-- The constructor of `Logger`, as the operands that it logs. -/
def heading (c : LogCall) : List Operand :=
  [.string (c.now.toFormattedString false), .cstring (some ⟨chars [' '], by decide⟩),
    .cstring (some ⟨chars "Tid:".toList, by decide⟩), .cstring (some (CurrentThread.getStr c.Tid)),
    .cstring (some ⟨chars " [".toList, by decide⟩), .cstring (some c.level.name),
    .cstring (some ⟨chars "] ".toList, by decide⟩), .cstring (FileName.get c.file),
    .cstring (some ⟨chars " line:".toList, by decide⟩), .int c.line,
    .cstring (some ⟨chars "  func:".toList, by decide⟩), .cstring (some c.func),
    .cstring (some ⟨chars [' '], by decide⟩)]

/-- The record of a call: a `Logger` lives to the end of the statement. -/
def record (c : LogCall) : Except Fault (List UInt8) :=
  LogStream.record c.raw c.length_raw (c.heading ++ c.ops)

/-- The text of the record without its newline. -/
def text (c : LogCall) : List UInt8 := operands.content kBufferSize (c.heading ++ c.ops)

/-- The caller's texts have no newlines. -/
structure NewlineFree (c : LogCall) : Prop where
  /-- That of the file. -/
  file : newline ∉ c.file.text
  /-- That of the function. -/
  func : newline ∉ c.func.text
  /-- The operands. -/
  ops : ∀ op ∈ c.ops, op.NewlineFree

end LogCall

/-- What calls write into the log, in the order of their records. -/
def logFile (gLogLevel : LogLevel) : List LogCall → Except Fault (List UInt8)
  | [] => .ok []
  | c :: calls =>
    if gLogLevel.macroEmits c.level then do
      let bytes ← c.record
      let rest ← logFile gLogLevel calls
      return bytes ++ rest
    else logFile gLogLevel calls

/-- The conditions of the macros are the order of the levels. -/
theorem macroEmits_iff (env : Environment) (level : LogLevel) :
    (initLogLevel env).macroEmits level = true ↔ (initLogLevel env).value ≤ level.value := by
  obtain ⟨trace, debug⟩ := env
  cases trace <;> cases debug <;> cases level <;> decide

/-- The bytes of a numeral that is filled up. -/
theorem mem_filled {fill c : UInt8} {w n : ℕ} (h : c ∈ filled decimal fill w n) :
    c = fill ∨ c ∈ decimal.glyphs := by
  rcases List.mem_append.mp h with hfill | hdigit
  · exact .inl (List.eq_of_mem_replicate hfill)
  · exact .inr (decimal.numeral_subset n hdigit)

theorem newline_notMem_toFormattedString (t : Timestamp) :
    newline ∉ t.toFormattedString false := by
  have hzero : ∀ w n, newline ∉ zeroFilled w n := fun w n hmem => by
    rcases mem_filled hmem with h | h
    · exact absurd h (by decide)
    · exact absurd h (by decide)
  have hblank : ∀ w n, newline ∉ blankFilled w n := fun w n hmem => by
    rcases mem_filled hmem with h | h
    · exact absurd h (by decide)
    · exact absurd h (by decide)
  have hpoint : newline ∉ chars [' '] ∧ newline ∉ chars [':'] := by decide
  intro hmem
  have hformat : newline ∈ (gmtime_r t.seconds).format := by
    simp only [Timestamp.toFormattedString, Bool.false_eq_true, if_false] at hmem
    exact (List.take_subset _ _) hmem
  simp only [tm.format, List.mem_append, hzero, hblank, hpoint, or_self] at hformat

/-- A string that comes first is there if there is room for it. -/
theorem string_front {v : List UInt8} (ops : List Operand) {room : ℕ} (h : v.length ≤ room) :
    v <+: operands.content room (.string v :: ops) := by
  have hneed : operands.need (.string v) ≤ room := h
  rw [operands.content_of_le ops hneed]
  exact List.prefix_append _ _

namespace LogCall

variable {c c' : LogCall}

/-- The constructor adds no newline. -/
theorem NewlineFree.notMem_text (h : c.NewlineFree) : newline ∉ c.text := by
  have hname : newline ∉ c.level.name.text := by
    cases c.level <;> decide
  have hfile : ∀ str, FileName.get c.file = some str → newline ∉ str.text := by
    intro str hget hmem
    unfold FileName.get at hget
    split at hget
    · cases hget
      exact h.file (behindLast_subset _ _ hmem)
    · cases hget
  apply operands.notMem_content
  intro op hop
  apply Operand.NewlineFree.notMem_text
  rcases List.mem_append.mp hop with hheading | hops
  · simp only [heading, List.mem_cons, List.not_mem_nil, or_false] at hheading
    rcases hheading with rfl | rfl | rfl | rfl | rfl | rfl | rfl | rfl | rfl | rfl | rfl | rfl | rfl
    · exact newline_notMem_toFormattedString c.now
    · exact (by decide : newline ∉ chars [' '])
    · exact (by decide : newline ∉ chars "Tid:".toList)
    · exact newline_notMem_decimalText _
    · exact (by decide : newline ∉ chars " [".toList)
    · exact hname
    · exact (by decide : newline ∉ chars "] ".toList)
    · cases hget : FileName.get c.file with
      | none => exact trivial
      | some str => exact hfile str hget
    · exact (by decide : newline ∉ chars " line:".toList)
    · exact trivial
    · exact (by decide : newline ∉ chars "  func:".toList)
    · exact h.func
    · exact (by decide : newline ∉ chars [' '])
  · exact h.ops op hops

/-- The time is in front, and there is always room for it. -/
theorem time_front (c : LogCall) : c.now.toFormattedString false <+: c.text := by
  have hlen : (c.now.toFormattedString false).length ≤ 63 := by
    simp only [Timestamp.toFormattedString, Bool.false_eq_true, if_false, snprintf, List.length_take]
    exact Nat.min_le_left 63 _
  have hk := kBufferSize_eq
  exact string_front _ (by omega)

/-- A call that leaves a byte of room writes its text and a newline. -/
theorem record_text (h : c.text.length < kBufferSize) : c.record = .ok (c.text ++ [newline]) := by
  have hrecord := LogStream.record_eq c.length_raw (c.heading ++ c.ops)
  rw [← text, if_pos h] at hrecord
  exact hrecord

end LogCall

/-- Lines that are joined come back. -/
theorem splitOn_flatMap {texts : List (List UInt8)} (h : ∀ text ∈ texts, newline ∉ text) :
    (texts.flatMap (· ++ [newline])).splitOn newline = texts ++ [[]] := by
  induction texts with
  | nil => rfl
  | cons text texts ih =>
    have hfree : ∀ x ∈ text, (x == newline) = false := by
      intro x hx
      rw [beq_eq_false_iff_ne]
      rintro rfl
      exact h text List.mem_cons_self hx
    rw [List.flatMap_cons, List.append_assoc, List.singleton_append, List.splitOn,
      List.splitOnP_append_cons_of_forall_mem hfree newline (beq_self_eq_true newline), List.cons_append]
    exact congrArg (text :: ·) (ih fun other hother => h other (List.mem_cons_of_mem _ hother))

/-- The log is the texts of the calls that are enabled, each with a newline. -/
theorem logFile_eq {gLogLevel : LogLevel} {calls : List LogCall}
    (hroom : ∀ c ∈ calls, gLogLevel.macroEmits c.level = true → c.text.length < kBufferSize) :
    logFile gLogLevel calls = .ok
      (((calls.filter fun c => gLogLevel.macroEmits c.level).map LogCall.text).flatMap
        (· ++ [newline])) := by
  induction calls with
  | nil => rfl
  | cons c calls ih =>
    have hrest := ih fun other hother => hroom other (List.mem_cons_of_mem _ hother)
    by_cases hlevel : gLogLevel.macroEmits c.level = true
    · rw [logFile, if_pos hlevel, LogCall.record_text (hroom c List.mem_cons_self hlevel), ok_bind,
        hrest, ok_bind, List.filter_cons, if_pos hlevel, List.map_cons, List.flatMap_cons]
      rfl
    · rw [logFile, if_neg hlevel, hrest, List.filter_cons, if_neg hlevel]

/-- The calls whose level is at least the configured one. -/
def enabled (env : Environment) (calls : List LogCall) : List LogCall :=
  calls.filter fun c => (initLogLevel env).value ≤ c.level.value

/-- A log whose records leave room for their newlines falls apart at its newlines
into the texts of the enabled calls. -/
theorem logFile_splits (env : Environment) {calls : List LogCall} (hfree : ∀ c ∈ calls, c.NewlineFree)
    (hroom : ∀ c ∈ enabled env calls, c.text.length < kBufferSize) :
    ∃ file, logFile (initLogLevel env) calls = .ok file ∧
      file.splitOn newline = (enabled env calls).map LogCall.text ++ [[]] := by
  have hmacros : calls.filter (fun c => (initLogLevel env).macroEmits c.level) = enabled env calls := by
    refine List.filter_congr fun c _ => ?_
    rw [Bool.eq_iff_iff, decide_eq_true_iff]
    exact macroEmits_iff env c.level
  have hfile : logFile (initLogLevel env) calls = _ := logFile_eq fun c hc hlevel =>
    hroom c (hmacros ▸ List.mem_filter.mpr ⟨hc, hlevel⟩)
  rw [hmacros] at hfile
  refine ⟨_, hfile, splitOn_flatMap fun text htext => ?_⟩
  obtain ⟨c, hc, rfl⟩ := List.mem_map.mp htext
  exact (hfree c (List.mem_of_mem_filter hc)).notMem_text

/-- A log whose records leave room for their newlines reads back: at its
newlines it splits into one line for each call of an enabled level, in order,
and each line begins with the time of its call. -/
theorem log_lines (env : Environment) {calls : List LogCall} (hfree : ∀ c ∈ calls, c.NewlineFree)
    (hroom : ∀ c ∈ enabled env calls, c.text.length < kBufferSize) :
    ∃ file, logFile (initLogLevel env) calls = .ok file ∧
      file.splitOn newline = (enabled env calls).map LogCall.text ++ [[]] ∧
      ∀ c ∈ enabled env calls, c.now.toFormattedString false <+: c.text := by
  obtain ⟨file, hfile, hsplit⟩ := logFile_splits env hfree hroom
  exact ⟨file, hfile, hsplit, fun c _ => c.time_front⟩

/-- The announcement of `Server`, at a given time. -/
def portCall (now : Timestamp) : LogCall where
  file := ⟨chars "src/net/Server.cpp".toList, by decide⟩
  line := 44
  level := .INFO
  func := ⟨chars "Server".toList, by decide⟩
  now := now
  Tid := 4711
  ops := [.cstring (some ⟨chars "Port".toList, by decide⟩), .int 2333,
    .cstring (some ⟨chars "Listening...".toList, by decide⟩)]
  raw := List.replicate kBufferSize 0
  length_raw := length_zeros

/-- It has no newlines. -/
theorem portCall_newlineFree (now : Timestamp) : (portCall now).NewlineFree := by
  refine ⟨(by decide : newline ∉ chars "src/net/Server.cpp".toList),
    (by decide : newline ∉ chars "Server".toList), fun op hop => ?_⟩
  rcases List.mem_cons.mp hop with rfl | hop
  · exact (by decide : newline ∉ chars "Port".toList)
  rcases List.mem_cons.mp hop with rfl | hop
  · exact trivial
  · rw [List.mem_singleton.mp hop]
    exact (by decide : newline ∉ chars "Listening...".toList)

/-- It is one line of the log. -/
theorem log_lines_portCall :
    let c := portCall ⟨1649318400000000⟩
    ∃ file, logFile (initLogLevel ⟨false, false⟩) [c] = .ok file ∧
      file.splitOn newline = (enabled ⟨false, false⟩ [c]).map LogCall.text ++ [[]] := by
  intro c
  have hfree : ∀ c' ∈ [c], c'.NewlineFree := by
    intro c' hc'
    rw [List.mem_singleton.mp hc']
    exact portCall_newlineFree _
  have hroom : ∀ c' ∈ enabled ⟨false, false⟩ [c], c'.text.length < kBufferSize := by
    intro c' hc'
    rw [List.mem_singleton.mp (List.mem_of_mem_filter hc')]
    decide +kernel
  obtain ⟨file, hfile, hlines, -⟩ := log_lines ⟨false, false⟩ hfree hroom
  exact ⟨file, hfile, hlines⟩

end KyrosWebServer.Base
