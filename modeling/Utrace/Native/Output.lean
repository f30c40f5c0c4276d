import Utrace.Native.Types

/-!
# The trace: `output.c`

What is written is kept as a list of records, the newest first. A record names the
thread it is written for; its column layout and its arguments are left out. The two
static variables decide whether a result joins the line that is still open.
-/

namespace Utrace

/-- The format strings handed to `output_line`, with their arguments. -/
inductive Diag where
  /-- `--- %s (%s) ---`. -/
  | signal (signum : Int)
  /-- `+++ exited (status %d) +++`. -/
  | exited (retVal : Int)
  /-- `+++ killed by %s +++`. -/
  | killed (signum : Int)
  /-- `breakpointed at %p (?)`. -/
  | breakpointed (brkAddr : Addr)
  deriving DecidableEq, Repr

/-- One piece of text put on the trace. -/
inductive Record where
  /-- ` <unfinished ...>`. -/
  | unfinished
  /-- A line of `output_line`. -/
  | line (tid : Pid) (diag : Diag)
  /-- An enter line of `output_left`; `shown` is the number `add_prefix_space` puts in front. -/
  | left (tid shown : Pid) (depth : Nat) (name : String)
  /-- A result of `output_right`, with the prefix number when it starts a line of its own. -/
  | right (tid : Pid) (resumed : Option Pid) (depth : Nat) (name : String)
  deriving DecidableEq, Repr

/-- The state of `output.c`. -/
structure Output where
  /-- `current_pid`: the thread whose line is open, or zero. -/
  currentPid : Pid := 0
  /-- `current_depth`. -/
  currentDepth : Nat := 0
  /-- The text written, newest first. -/
  records : List Record := []
  deriving DecidableEq

/-- Add one record to the trace. -/
def Output.write (o : Output) (r : Record) : Output := { o with records := r :: o.records }

/-- Close the open line, if there is one. -/
def Output.close (o : Output) : Output :=
  if o.currentPid ≠ 0 then { o.write .unfinished with currentPid := 0 } else o

/-- `output_line`. -/
def outputLine (env : Env) (o : Output) (thr : Thread) (diag : Diag) : Output :=
  if env.optc then o else o.close.write (.line thr.tid diag)

/-- `output_left`. -/
def outputLeft (env : Env) (o : Output) (thr : Thread) (functionName : String) : Output :=
  if env.optc then o
  else
    let o := { o.close with currentPid := thr.tid, currentDepth := thr.callstack.depth }
    o.write (.left thr.tid o.currentPid o.currentDepth functionName)

/-- `output_right`; the call counts of `opt_c` are left out. -/
def outputRight (env : Env) (o : Output) (thr : Thread) (functionName : String) : Output :=
  if env.optc then o
  else
    let o := if o.currentPid ≠ thr.tid ∨ o.currentDepth ≠ thr.callstack.depth then o.close else o
    let resumed := if o.currentPid ≠ thr.tid then some o.currentPid else none
    { o.write (.right thr.tid resumed thr.callstack.depth functionName) with currentPid := 0 }

/-- The thread a record is written for. -/
def Record.tid? : Record → Option Pid
  | .unfinished => none
  | .line tid _ | .left tid _ _ _ | .right tid _ _ _ => some tid

/-- The records written for one thread. -/
def Output.log (o : Output) (tid : Pid) : List Record :=
  o.records.filter fun r => r.tid? = some tid

/-- A record enters the log of the thread it is written for, and no other. -/
theorem log_write (o : Output) (r : Record) (tid : Pid) :
    (o.write r).log tid = if r.tid? = some tid then r :: o.log tid else o.log tid := by
  unfold Output.log Output.write
  rw [List.filter_cons]
  simp only [decide_eq_true_eq]

/-- The log is read off the records alone. -/
theorem log_congr {o o' : Output} (h : o.records = o'.records) (tid : Pid) :
    o.log tid = o'.log tid := by
  unfold Output.log
  rw [h]

/-- Closing the open line adds no thread's record. -/
@[simp] theorem log_close (o : Output) (tid : Pid) : o.close.log tid = o.log tid := by
  unfold Output.close
  split
  · change (o.write .unfinished).log tid = o.log tid
    rw [log_write]
    rfl
  · rfl

/-- A line is recorded for its own thread, and under `-c` for none. -/
theorem log_outputLine (env : Env) (o : Output) (thr : Thread) (diag : Diag) (tid : Pid) :
    (outputLine env o thr diag).log tid =
      if env.optc = false ∧ thr.tid = tid then .line thr.tid diag :: o.log tid else o.log tid := by
  unfold outputLine
  cases env.optc with
  | true => simp
  | false => simp [log_write, Record.tid?]

/-- An open line is recorded for its own thread, and under `-c` for none. -/
theorem log_outputLeft (env : Env) (o : Output) (thr : Thread) (name : String) (tid : Pid) :
    (outputLeft env o thr name).log tid =
      if env.optc = false ∧ thr.tid = tid then
        .left thr.tid thr.tid thr.callstack.depth name :: o.log tid
      else o.log tid := by
  unfold outputLeft
  cases env.optc with
  | true => simp
  | false =>
    have hopen : ∀ pid depth,
        Output.log { o.close with currentPid := pid, currentDepth := depth } tid = o.log tid :=
      fun _ _ => (log_congr rfl tid).trans (log_close o tid)
    simp [log_write, Record.tid?, hopen]

/-- A result adds one record to its own thread's log, whatever line was open. -/
theorem log_outputRight (env : Env) (o : Output) (thr : Thread) (name : String) (tid : Pid) :
    ∃ resumed, (outputRight env o thr name).log tid =
      if env.optc = false ∧ thr.tid = tid then
        .right thr.tid resumed thr.callstack.depth name :: o.log tid
      else o.log tid := by
  unfold outputRight
  cases env.optc with
  | true => exact ⟨none, by simp⟩
  | false =>
    let o' := if o.currentPid ≠ thr.tid ∨ o.currentDepth ≠ thr.callstack.depth then o.close else o
    let r : Record := .right thr.tid (if o'.currentPid ≠ thr.tid then some o'.currentPid else none)
      thr.callstack.depth name
    have hlog : o'.log tid = o.log tid := by
      dsimp only [o']
      split
      · exact log_close o tid
      · rfl
    refine ⟨if o'.currentPid ≠ thr.tid then some o'.currentPid else none, ?_⟩
    have hlast : Output.log { o'.write r with currentPid := 0 } tid = (o'.write r).log tid :=
      log_congr rfl tid
    rw [log_write, hlog] at hlast
    simpa [r, Record.tid?] using hlast

end Utrace
