import Mathlib.Tactic.Common

/-!
# The ids of a process

A process has a real, an effective and a saved user id, the same three group ids, and
supplementary groups. Two system calls set a real and an effective id at once; executing a file
may take the ids of the file. The system calls are the kernel's: of them only what their manual
says is known.
-/

namespace Utrace

/-- `uid_t` or `gid_t`. -/
abbrev UserId := BitVec 32

/-- The argument that leaves an id as it is. -/
def keepId : UserId := -1

/-- The three user ids, or the three group ids. -/
structure Ids where
  real : UserId
  effective : UserId
  saved : UserId
  deriving DecidableEq

/-- The ids of a process. -/
structure Credentials where
  user : Ids
  group : Ids
  groups : List UserId
  deriving DecidableEq

/-- What the kernel reads of a file before it executes it. -/
structure FileStat where
  stMode : BitVec 32
  stUid : UserId
  stGid : UserId

namespace Ids

/-- The ids of someone who has only one. -/
def single (id : UserId) : Ids := ⟨id, id, id⟩

end Ids

namespace FileStat

/-- `S_ISUID`. -/
def setsUser (file : FileStat) : Bool := file.stMode &&& 0o4000 ≠ 0

/-- `S_ISGID`. -/
def setsGroup (file : FileStat) : Bool := file.stMode &&& 0o2000 ≠ 0

/-- `S_IXGRP`. -/
def groupExecutes (file : FileStat) : Bool := file.stMode &&& 0o10 ≠ 0

end FileStat

namespace Credentials

/-- The process is privileged. -/
def privileged (c : Credentials) : Bool := c.user.effective = 0

/-- Someone logged in. -/
def login (uid gid : UserId) (groups : List UserId) : Credentials where
  user := .single uid
  group := .single gid
  groups := groups

end Credentials

/-- The system calls that change the ids of a process. -/
structure IdCalls where
  setreuid : Credentials → UserId → UserId → Option Credentials
  setregid : Credentials → UserId → UserId → Option Credentials
  /-- `execve` of a file, by a process that is traced or not. -/
  execve : Bool → FileStat → Credentials → Credentials

namespace IdCalls

/-- What the manual says of the system calls. -/
structure Documented (k : IdCalls) : Prop where
  /-- A privileged process gets the ids it asks for, and the effective one is saved. -/
  setreuid : ∀ c ruid euid, c.privileged = true → ruid ≠ keepId → euid ≠ keepId →
    k.setreuid c ruid euid = some { c with user := ⟨ruid, euid, euid⟩ }
  setregid : ∀ c rgid egid, c.privileged = true → rgid ≠ keepId → egid ≠ keepId →
    k.setregid c rgid egid = some { c with group := ⟨rgid, egid, egid⟩ }
  /-- Executing a file changes neither the real ids nor the groups, and saves the effective ids. -/
  real : ∀ traced file c, (k.execve traced file c).user.real = c.user.real ∧
    (k.execve traced file c).group.real = c.group.real
  groups : ∀ traced file c, (k.execve traced file c).groups = c.groups
  saved : ∀ traced file c,
    (k.execve traced file c).user.saved = (k.execve traced file c).user.effective ∧
      (k.execve traced file c).group.saved = (k.execve traced file c).group.effective
  /-- The set-id bits give the effective ids of the file, the one for the group only where the
  group may execute the file. -/
  setsUser : ∀ file c, (k.execve false file c).user.effective =
    if file.setsUser then file.stUid else c.user.effective
  setsGroup : ∀ file c, (k.execve false file c).group.effective =
    if file.setsGroup ∧ file.groupExecutes then file.stGid else c.group.effective
  /-- Where the process is traced, they may be ignored. -/
  tracedUser : ∀ file c, (k.execve true file c).user.effective = c.user.effective ∨
    (k.execve true file c).user.effective = (k.execve false file c).user.effective
  tracedGroup : ∀ file c, (k.execve true file c).group.effective = c.group.effective ∨
    (k.execve true file c).group.effective = (k.execve false file c).group.effective

variable {k : IdCalls}

/-- A privileged process takes on any ids, first the groups and then the users. -/
theorem Documented.setre_both (hk : k.Documented) {c : Credentials} (hc : c.privileged = true)
    {rgid egid ruid euid : UserId} (hrgid : rgid ≠ keepId) (hegid : egid ≠ keepId)
    (hruid : ruid ≠ keepId) (heuid : euid ≠ keepId) :
    ∃ c', k.setregid c rgid egid = some c' ∧ k.setreuid c' ruid euid =
      some { c with user := ⟨ruid, euid, euid⟩, group := ⟨rgid, egid, egid⟩ } :=
  ⟨_, hk.setregid c rgid egid hc hrgid hegid, hk.setreuid _ ruid euid hc hruid heuid⟩

/-- What a process runs with after `execve` is told by its effective ids. -/
theorem Documented.execve_eq (hk : k.Documented) (traced : Bool) (file : FileStat)
    (c : Credentials) : k.execve traced file c =
      { user := ⟨c.user.real, (k.execve traced file c).user.effective,
          (k.execve traced file c).user.effective⟩
        group := ⟨c.group.real, (k.execve traced file c).group.effective,
          (k.execve traced file c).group.effective⟩
        groups := c.groups } := by
  obtain ⟨huser, hgroup⟩ := hk.real traced file c
  obtain ⟨husaved, hgsaved⟩ := hk.saved traced file c
  have hgroups := hk.groups traced file c
  generalize k.execve traced file c = running at *
  obtain ⟨⟨_, _, _⟩, ⟨_, _, _⟩, _⟩ := running
  dsimp only at huser hgroup husaved hgsaved hgroups
  rw [huser, hgroup, husaved, hgsaved, hgroups]

end IdCalls

end Utrace
