import Utrace.Native.Execute

/-!
# The ids a traced program runs with

Where utrace may choose, the program runs with the ids it would have if the user had executed it
without utrace, whether or not the kernel honours the set-id bits of a traced program.
-/

namespace Utrace.Starting

variable {w : Starting} {optu : Option (List Char)} {c c' : Credentials}

/-- The user the program is to run as, and the groups. -/
def runAs (w : Starting) (optu : Option (List Char)) (c : Credentials) : Option Credentials :=
  match optu with
  | none => some (.login c.user.real c.group.real c.groups)
  | some user => (w.accounts.getpwnam user).bind fun pent =>
    (w.accounts.initgroups user pent.pwGid).map fun groups =>
      .login pent.pwUid pent.pwGid groups

/-- No id of an account or of a file is the one that stands for no change. -/
structure Proper (w : Starting) (c : Credentials) : Prop where
  accounts : ∀ user pent, w.accounts.getpwnam user = some pent →
    pent.pwUid ≠ keepId ∧ pent.pwGid ≠ keepId
  stat : ∀ file, w.stat = some file → file.stUid ≠ keepId ∧ file.stGid ≠ keepId
  real : c.user.real ≠ keepId ∧ c.group.real ≠ keepId

/-- The ids are left to the kernel where utrace is not privileged. -/
def Chooses (optu : Option (List Char)) (c : Credentials) : Prop :=
  optu.isSome = true ∨ c.user.effective = 0

/-- The first half of `change_uid` goes through for root, and for a known account. -/
theorem runIds_eq_ok {run : UserId × UserId × Credentials} :
    w.runIds optu c = .ok run ↔
      (optu.isSome = true → c.user.real = 0 ∧ c.user.effective = 0) ∧
        ∃ user, w.runAs optu c = some user ∧
          run = (user.user.real, user.group.real, { c with groups := user.groups }) := by
  cases optu with
  | none =>
    constructor
    · rintro ⟨⟩
      exact ⟨nofun, _, rfl, rfl⟩
    · rintro ⟨-, user, hrun, rfl⟩
      cases hrun
      rfl
  | some user =>
    unfold runIds runAs
    dsimp only
    by_cases hroot : c.user.real ≠ 0 ∨ c.user.effective ≠ 0
    · rw [if_pos hroot]
      constructor
      · nofun
      · rintro ⟨hboth, -⟩
        obtain ⟨hreal, heffective⟩ := hboth rfl
        exact (hroot.elim (· hreal) (· heffective)).elim
    · obtain ⟨hreal, heffective⟩ := not_or.mp hroot
      rw [if_neg hroot]
      cases hpent : w.accounts.getpwnam user with
      | none => simp
      | some pent =>
        dsimp only [Option.bind_some]
        cases hgroups : w.accounts.initgroups user pent.pwGid with
        | none => simp
        | some groups =>
          constructor
          · rintro ⟨⟩
            exact ⟨fun _ => ⟨not_not.mp hreal, not_not.mp heffective⟩, _, rfl, rfl⟩
          · rintro ⟨-, user', hrun, rfl⟩
            cases hrun
            rfl

/-- The ids `change_uid` sets, where it may choose. -/
def chosen (w : Starting) (user : Credentials) : Credentials :=
  let effective := w.runEffective user.user.real user.group.real
  { user with
    user := ⟨user.user.real, effective.1, effective.1⟩
    group := ⟨user.group.real, effective.2, effective.2⟩ }

/-- The user it is to run as has proper ids. -/
theorem proper_runAs (h : w.Proper c) {user : Credentials} (hrun : w.runAs optu c = some user) :
    user.user.real ≠ keepId ∧ user.group.real ≠ keepId := by
  cases optu with
  | none =>
    cases hrun
    exact h.real
  | some name =>
    unfold runAs at hrun
    obtain ⟨pent, hpent, hrest⟩ := Option.bind_eq_some_iff.mp hrun
    obtain ⟨groups, -, rfl⟩ := Option.map_eq_some_iff.mp hrest
    exact h.accounts name pent hpent

/-- So are the effective ids to run with. -/
theorem proper_runEffective (h : w.Proper c) {runUid runGid : UserId} (huid : runUid ≠ keepId)
    (hgid : runGid ≠ keepId) :
    (w.runEffective runUid runGid).1 ≠ keepId ∧ (w.runEffective runUid runGid).2 ≠ keepId := by
  unfold runEffective
  cases hstat : w.stat with
  | none => exact ⟨huid, hgid⟩
  | some statbuf =>
    obtain ⟨huser, hgroup⟩ := h.stat statbuf hstat
    constructor
    · dsimp only
      split
      · exact huser
      · exact huid
    · dsimp only
      split
      · exact hgroup
      · exact hgid

/-- Where utrace may choose, `change_uid` fails for want of root, of the user or of the groups
only; the ids themselves are always set. -/
theorem changeUid_eq_ok (hk : w.calls.Documented) (h : w.Proper c)
    (hchooses : Chooses optu c) :
    w.changeUid optu c = .ok c' ↔
      (optu.isSome = true → c.user.real = 0 ∧ c.user.effective = 0) ∧
        ∃ user, w.runAs optu c = some user ∧ c' = w.chosen user := by
  have hset : ∀ user, w.runAs optu c = some user →
      (optu.isSome = true → c.user.real = 0 ∧ c.user.effective = 0) →
      w.changeUid optu c = .ok (w.chosen user) := by
    intro user hrun hroot
    have hids := runIds_eq_ok.mpr ⟨hroot, user, hrun, rfl⟩
    have hprivileged : Credentials.privileged { c with groups := user.groups } = true := by
      rcases hchooses with hsome | hzero
      · exact decide_eq_true (hroot hsome).2
      · exact decide_eq_true hzero
    obtain ⟨huid, hgid⟩ := proper_runAs h hrun
    obtain ⟨heuid, hegid⟩ := proper_runEffective h huid hgid
    obtain ⟨c₁, hgroup, huser⟩ := hk.setre_both hprivileged hgid hegid huid heuid
    have hasked : optu.isSome = true ∨ c.user.effective = 0 := hchooses
    unfold changeUid
    rw [hids]
    dsimp only [Except.bind]
    rw [if_pos hasked, hgroup]
    dsimp only
    rw [huser]
    rfl
  constructor
  · intro hc'
    cases hids : w.runIds optu c with
    | error message =>
      rw [changeUid, hids] at hc'
      cases hc'
    | ok run =>
      obtain ⟨hroot, user, hrun, -⟩ := runIds_eq_ok.mp hids
      rw [hset user hrun hroot] at hc'
      cases hc'
      exact ⟨hroot, user, hrun, rfl⟩
  · rintro ⟨hroot, user, hrun, rfl⟩
    exact hset user hrun hroot

/-! ## Executing the file -/

/-- The user of the program is that of an execution by the user, whether or not the kernel honours
the bit of a traced program. -/
theorem execve_chosen_user (hk : w.calls.Documented) {user : Credentials}
    (hlogin : user.user.effective = user.user.real) {file : FileStat} (hstat : w.stat = some file) :
    (w.calls.execve true file (w.chosen user)).user.effective =
      (w.calls.execve false file user).user.effective := by
  have hchosen : (w.chosen user).user.effective =
      if file.setsUser then file.stUid else user.user.real := by
    rw [chosen, runEffective, hstat]
  rcases hk.tracedUser file (w.chosen user) with htraced | htraced
  · rw [htraced, hk.setsUser, hchosen, hlogin]
  · rw [htraced, hk.setsUser, hk.setsUser, hchosen, hlogin]
    cases file.setsUser <;> simp

/-- Its group is, unless the file has the bit for the group while the group may not execute it:
then the kernel would not set the group. -/
theorem execve_chosen_group (hk : w.calls.Documented) {user : Credentials}
    (hlogin : user.group.effective = user.group.real) {file : FileStat}
    (hstat : w.stat = some file) :
    (w.calls.execve true file (w.chosen user)).group.effective =
        (w.calls.execve false file user).group.effective ↔
      (file.setsGroup = true → file.groupExecutes = true ∨ file.stGid = user.group.real) := by
  have hchosen : (w.chosen user).group.effective =
      if file.setsGroup then file.stGid else user.group.real := by
    rw [chosen, runEffective, hstat]
  have hrun : (w.calls.execve true file (w.chosen user)).group.effective =
      if file.setsGroup then file.stGid else user.group.real := by
    rcases hk.tracedGroup file (w.chosen user) with htraced | htraced
    · rw [htraced, hchosen]
    · rw [htraced, hk.setsGroup, hchosen]
      cases file.setsGroup <;> simp
  rw [hrun, hk.setsGroup, hlogin]
  cases file.setsGroup <;> cases file.groupExecutes <;> simp

/-- All ids are, then. -/
theorem execve_chosen (hk : w.calls.Documented) {user : Credentials}
    (hlogin : ∃ uid gid groups, user = .login uid gid groups) {file : FileStat}
    (hstat : w.stat = some file) :
    w.calls.execve true file (w.chosen user) = w.calls.execve false file user ↔
      (file.setsGroup = true → file.groupExecutes = true ∨ file.stGid = user.group.real) := by
  obtain ⟨uid, gid, groups, rfl⟩ := hlogin
  rw [← execve_chosen_group hk rfl hstat]
  constructor
  · intro hsame
    rw [hsame]
  · intro hgroup
    rw [hk.execve_eq true, hk.execve_eq false, hgroup, execve_chosen_user hk rfl hstat]
    rfl

/-- The user is someone logged in. -/
theorem login_of_runAs {user : Credentials} (hrun : w.runAs optu c = some user) :
    ∃ uid gid groups, user = .login uid gid groups := by
  cases optu with
  | none =>
    cases hrun
    exact ⟨_, _, _, rfl⟩
  | some name =>
    unfold runAs at hrun
    obtain ⟨pent, -, hrest⟩ := Option.bind_eq_some_iff.mp hrun
    obtain ⟨groups, -, rfl⟩ := Option.map_eq_some_iff.mp hrest
    exact ⟨_, _, _, rfl⟩

/-- Where utrace may choose, that is under `-u` or as root, and the system does its part: the
program is started exactly if utrace is root and the account and its groups are found, where `-u`
names one. It then runs with the ids it would have if the user had executed the file, whether or
not the kernel honours the set-id bits of a traced program; only a file with the bit for a group
that may not execute it gives the program the group of the file instead of the user's. -/
theorem program_runs_as_user (hk : w.calls.Documented) (h : w.Proper c)
    (hchooses : Chooses optu c) {file : FileStat} (hstat : w.stat = some file)
    (hexecutes : w.executes = some file) (htraces : w.traces = true) (filename : List Char) :
    ((∃ running, w.child filename optu c = .ok running) ↔
      (optu.isSome = true → c.user.real = 0 ∧ c.user.effective = 0) ∧
        (w.runAs optu c).isSome = true) ∧
    ∀ running, w.child filename optu c = .ok running → ∃ user, w.runAs optu c = some user ∧
      (running = w.calls.execve false file user ↔
        (file.setsGroup = true → file.groupExecutes = true ∨ file.stGid = user.group.real)) := by
  have hchild : ∀ running, w.child filename optu c = .ok running ↔
      ∃ c', w.changeUid optu c = .ok c' ∧ running = w.calls.execve true file c' := by
    intro running
    unfold child
    cases hids : w.changeUid optu c with
    | error message => simp [Except.bind]
    | ok c' => simp [Except.bind, htraces, hexecutes, eq_comm]
  have hstarted : ∀ running, w.child filename optu c = .ok running ↔
      (optu.isSome = true → c.user.real = 0 ∧ c.user.effective = 0) ∧
        ∃ user, w.runAs optu c = some user ∧
          running = w.calls.execve true file (w.chosen user) := by
    intro running
    rw [hchild]
    constructor
    · rintro ⟨c', hc', rfl⟩
      obtain ⟨hroot, user, hrun, rfl⟩ := (changeUid_eq_ok hk h hchooses).mp hc'
      exact ⟨hroot, user, hrun, rfl⟩
    · rintro ⟨hroot, user, hrun, rfl⟩
      exact ⟨_, (changeUid_eq_ok hk h hchooses).mpr ⟨hroot, user, hrun, rfl⟩, rfl⟩
  constructor
  · constructor
    · rintro ⟨running, hrunning⟩
      obtain ⟨hroot, user, hrun, -⟩ := (hstarted running).mp hrunning
      exact ⟨hroot, by rw [hrun]; rfl⟩
    · rintro ⟨hroot, hsome⟩
      obtain ⟨user, hrun⟩ := Option.isSome_iff_exists.mp hsome
      exact ⟨_, (hstarted _).mpr ⟨hroot, user, hrun, rfl⟩⟩
  · intro running hrunning
    obtain ⟨-, user, hrun, rfl⟩ := (hstarted running).mp hrunning
    exact ⟨user, hrun, execve_chosen hk (login_of_runAs hrun) hstat⟩

/-! ## A program that sets its user -/

/-- `setreuid` or `setregid`; an unprivileged process only moves its ids around. -/
def setre (privileged : Bool) (ids : Ids) (r e : UserId) : Option Ids :=
  let real := if r = keepId then ids.real else r
  let effective := if e = keepId then ids.effective else e
  let saved := if r ≠ keepId ∨ e ≠ keepId ∧ effective ≠ ids.real then effective else ids.saved
  if privileged = true ∨ real ∈ [ids.real, ids.effective] ∧
      effective ∈ [ids.real, ids.effective, ids.saved] then some ⟨real, effective, saved⟩
  else none

/-- The system calls of a kernel that ignores the set-id bits of a traced program. -/
def ignoring : IdCalls where
  setreuid c ruid euid := (setre c.privileged c.user ruid euid).map ({ c with user := · })
  setregid c rgid egid := (setre c.privileged c.group rgid egid).map ({ c with group := · })
  execve traced file c :=
    let euid := if !traced ∧ file.setsUser then file.stUid else c.user.effective
    let egid := if !traced ∧ file.setsGroup ∧ file.groupExecutes then file.stGid
      else c.group.effective
    { c with user := ⟨c.user.real, euid, euid⟩, group := ⟨c.group.real, egid, egid⟩ }

/-- The sample does what the manual says. -/
theorem documented_ignoring : ignoring.Documented where
  setreuid c ruid euid hc hr he := by simp [ignoring, setre, hc, hr, he]
  setregid c rgid egid hc hr he := by simp [ignoring, setre, hc, hr, he]
  real _ _ _ := ⟨rfl, rfl⟩
  groups _ _ _ := rfl
  saved _ _ _ := ⟨rfl, rfl⟩
  setsUser file c := by simp [ignoring]
  setsGroup file c := by simp [ignoring]
  tracedUser file c := Or.inl (by simp [ignoring])
  tracedGroup file c := Or.inl (by simp [ignoring])

/-- Root starts a program that sets its user, as the user `ann`, on a system that does not honour
that for a traced program. -/
def asAnn : Starting where
  accounts :=
    { getpwnam := fun user => if user = "ann".toList then some ⟨1000, 100⟩ else none
      initgroups := fun _ gid => some [gid, 27] }
  calls := ignoring
  stat := some ⟨0o4755, 5, 50⟩
  strerror := ""
  traces := true
  executes := some ⟨0o4755, 5, 50⟩

/-- It runs with the user of the file, and the real ids and the groups of `ann`. -/
theorem program_runs_as_user_set :
    asAnn.child "a.out".toList (some "ann".toList) (.login 0 0 []) =
      .ok ⟨⟨1000, 5, 5⟩, ⟨100, 100, 100⟩, [100, 27]⟩ := by
  have hproper : asAnn.Proper (.login 0 0 []) := by
    refine ⟨fun user pent hpent => ?_, fun file hfile => ?_, by decide⟩
    · have hsome : (if user = "ann".toList then some ⟨1000, 100⟩ else none : Option Passwd) =
          some pent := hpent
      split at hsome
      · cases hsome
        decide
      · cases hsome
    · cases hfile
      decide
  have hchooses : Chooses (some "ann".toList) (.login 0 0 []) := Or.inl rfl
  obtain ⟨hstarts, hruns⟩ := program_runs_as_user documented_ignoring hproper
    hchooses rfl rfl rfl "a.out".toList
  obtain ⟨running, hrunning⟩ := hstarts.mpr ⟨fun _ => ⟨rfl, rfl⟩, rfl⟩
  obtain ⟨user, hrun, hids⟩ := hruns running hrunning
  cases hrun
  rw [hrunning, hids.mpr (by decide)]
  rfl

end Utrace.Starting
