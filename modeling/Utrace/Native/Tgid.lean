import Utrace.Native.Config

/-!
# Thread groups: `sysdeps/linux-gnu/proc.c`

The group id of a thread is read from its status file and kept in a small cache. What the
kernel answers comes in as data, and so does what the stack holds before the file is read.
-/

namespace Utrace

/-! ## The cache -/

/-- `PID2TGID_ENTRY`, with the four-byte `long` of i386. -/
structure Pid2tgidEntry where
  pid : Pid := 0
  tgid : Pid := 0
  refCount : BitVec 32 := 0
  deriving DecidableEq, Repr

/-- `PID2TGID_CACHE_SIZE`. -/
def pid2tgidCacheSize : Nat := 10

/-- `g_pid2tgid_cache`. -/
structure Pid2tgidCache where
  entries : List Pid2tgidEntry
  size : entries.length = pid2tgidCacheSize
  deriving DecidableEq

namespace Pid2tgidCache

/-- `pid2tgid_cache_flush`, and the cache at the start. -/
def zeroed : Pid2tgidCache := ⟨List.replicate pid2tgidCacheSize {}, List.length_replicate⟩

/-- Write through a pointer to an entry. -/
def write (cache : Pid2tgidCache) (i : Nat) (entry : Pid2tgidEntry → Pid2tgidEntry) :
    Pid2tgidCache :=
  ⟨cache.entries.modify i entry, by rw [List.length_modify, cache.size]⟩

end Pid2tgidCache

/-- `pid2tgid_cache_get`. -/
def pid2tgidCacheGet (cache : Pid2tgidCache) (pid : Pid) : Pid × Pid2tgidCache :=
  if pid = 0 then (0, cache)
  else
    match cache.entries.findIdx? fun entry => entry.pid = pid with
    | none => (0, cache)
    | some i => ((cache.entries[i]?.getD {}).tgid,
        cache.write i fun entry => { entry with refCount := entry.refCount + 1 })

/-- The loop of `pid2tgid_cache_put`, from entry `i` on: the entry to write, unless the pid is
there. The local `ref_count` is never changed. -/
def putScan (pid : Pid) (i idx : Nat) : List Pid2tgidEntry → Option Nat
  | [] => some idx
  | entry :: entries =>
    if entry.pid = pid then none
    else if entry.pid = 0 then some i
    else putScan pid (i + 1) (if entry.refCount < 0xFFFFFFFF then i else idx) entries

/-- `pid2tgid_cache_put`; a free entry and a replaced one are written alike, and keep their
`ref_count`. -/
def pid2tgidCachePut (cache : Pid2tgidCache) (pid tgid : Pid) : Pid2tgidCache :=
  if pid = 0 then cache
  else
    match putScan pid 0 0 cache.entries with
    | none => cache
    | some i => cache.write i fun entry => { entry with pid := pid, tgid := tgid }

/-! ## The status file -/

/-- `strstr`. -/
def strstr (needle : List Char) : List Char → Option (List Char)
  | [] => if needle = [] then some [] else none
  | c :: str => if needle.isPrefixOf (c :: str) then some (c :: str) else strstr needle str

/-- `isspace`. -/
def isSpace (c : Char) : Bool := c = ' ' || '\t' ≤ c && c ≤ '\r'

/-- The number `strtol` reads to base ten, before it is clamped. -/
def strtolValue (str : List Char) : Int :=
  match str.dropWhile isSpace with
  | '-' :: digits => -Nat.ofDigitChars 10 (digits.takeWhile Char.isDigit) 0
  | '+' :: digits => Nat.ofDigitChars 10 (digits.takeWhile Char.isDigit) 0
  | digits => Nat.ofDigitChars 10 (digits.takeWhile Char.isDigit) 0

/-- `atoi`: the result of `strtol`, which is clamped to the four-byte `long` of i386. -/
def atoi (str : List Char) : Int := max (-2 ^ 31) (min (2 ^ 31 - 1) (strtolValue str))

example : atoi " -12x".toList = -12 := by decide

example : atoi "4294967303".toList = 2147483647 := by decide

/-- `parse_tgid_str`; there is room for nine digits. The test between the loops never holds. -/
def parseTgidStr (procStr : List Char) : Pid :=
  match strstr "Tgid:".toList (cString procStr) with
  | none => 0
  | some p =>
    let p := (p.drop "Tgid:".length).dropWhile fun c => c ≠ '\n' && !c.isDigit
    let digits := p.takeWhile Char.isDigit
    if 9 < digits.length then 0 else atoi digits

/-- What the kernel answers about one thread, and the stack from `proc_status_output` on. -/
structure ProcAnswer where
  /-- `kill(pid, 0)` finds the thread. -/
  killed : Bool := true
  /-- `open` returns a descriptor. -/
  opened : Bool := true
  /-- The file, where `read` does not fail. -/
  content : Option (List Char)
  stale : List Char := []

/-- The part of `pid2tgid` behind the cache: the group id read, or zero, and the number of
descriptors opened. None is closed. -/
def procTgid (answer : ProcAnswer) : Pid × Nat :=
  if answer.killed then
    if answer.opened then
      match answer.content with
      | none => (0, 1)
      | some content =>
        let read := content.take 1024
        (parseTgidStr (read ++ answer.stale.drop read.length), 1)
    else (0, 0)
  else (parseTgidStr answer.stale, 0)

/-- The cache, and the descriptors `pid2tgid` has opened and not closed. -/
structure Tgids where
  cache : Pid2tgidCache := .zeroed
  fds : Nat := 0

/-- `pid2tgid`. -/
def pid2tgid (s : Tgids) (pid : Pid) (answer : ProcAnswer) : Pid × Tgids :=
  let got := pid2tgidCacheGet s.cache pid
  if got.1 ≠ 0 then (got.1, { s with cache := got.2 })
  else
    let read := procTgid answer
    let s := { cache := got.2, fds := s.fds + read.2 }
    if read.1 ≠ 0 then (read.1, { s with cache := pid2tgidCachePut s.cache pid read.1 })
    else (0, s)

end Utrace
