import Utrace.Core.Credentials

/-!
# Starting the program: `execute_program.c`

The child takes on the ids the program is to run with before it lets itself be traced and
executes it. A message is what is written before `exit(1)`.
-/

namespace Utrace

/-- `struct passwd`. -/
structure Passwd where
  pwUid : UserId
  pwGid : UserId

/-- The accounts of the system, and the calls about them that can fail. -/
structure Accounts where
  getpwnam : List Char → Option Passwd
  /-- The groups `initgroups` sets. -/
  initgroups : List Char → UserId → Option (List UserId)

/-- The message of `perror`. -/
def perror (text strerror : String) : String := s!"{text}: {strerror}\n"

/-- What is left to the system while the child starts. -/
structure Starting where
  accounts : Accounts
  calls : IdCalls
  /-- `stat(filename)`. -/
  stat : Option FileStat
  /-- `strerror(errno)`. -/
  strerror : String
  /-- Whether `ptrace(PTRACE_TRACEME, 0, 1, 0)` succeeds. -/
  traces : Bool
  /-- The file, where `execvp` succeeds. -/
  executes : Option FileStat

namespace Starting

variable (w : Starting)

/-- The first half of `change_uid`: the real ids to run with, and the groups set. -/
def runIds (optu : Option (List Char)) (c : Credentials) :
    Except String (UserId × UserId × Credentials) :=
  match optu with
  | some user =>
    if c.user.real ≠ 0 ∨ c.user.effective ≠ 0 then
      .error "you must be root to use the -u option\n"
    else
      match w.accounts.getpwnam user with
      | none => .error s!"cannot find user `{String.ofList user}'\n"
      | some pent =>
        match w.accounts.initgroups user pent.pwGid with
        | none => .error (perror "ltrace: initgroups" w.strerror)
        | some groups => .ok (pent.pwUid, pent.pwGid, { c with groups := groups })
  | none => .ok (c.user.real, c.group.real, c)

/-- The effective ids to run with. -/
def runEffective (runUid runGid : UserId) : UserId × UserId :=
  match w.stat with
  | none => (runUid, runGid)
  | some statbuf =>
    (if statbuf.setsUser then statbuf.stUid else runUid,
      if statbuf.setsGroup then statbuf.stGid else runGid)

/-- `change_uid`. -/
def changeUid (optu : Option (List Char)) (c : Credentials) : Except String Credentials :=
  (w.runIds optu c).bind fun run =>
    let c := run.2.2
    if optu.isSome ∨ c.user.effective = 0 then
      let effective := w.runEffective run.1 run.2.1
      match w.calls.setregid c run.2.1 effective.2 with
      | none => .error (perror "ltrace: setregid" w.strerror)
      | some c =>
        match w.calls.setreuid c run.1 effective.1 with
        | none => .error (perror "ltrace: setreuid" w.strerror)
        | some c => .ok c
    else .ok c

/-- The child of `execute_program`: the ids the program runs with. -/
def child (filename : List Char) (optu : Option (List Char)) (c : Credentials) :
    Except String Credentials :=
  (w.changeUid optu c).bind fun c =>
    -- `trace_me`
    if w.traces then
      match w.executes with
      | none => .error s!"Can't execute `{String.ofList filename}': {w.strerror}\n"
      | some file => .ok (w.calls.execve true file c)
    else .error (perror "PTRACE_TRACEME" w.strerror)

end Starting

end Utrace
