import Utrace.Core.Latest
import Utrace.Interpretation.Trailing
import Utrace.Native.ConfigFile

/-!
# The lines of a file, as the buffer cuts them

`fgets` stops at the end of a line or when its buffer is full, so `process_line` is handed a
long line in pieces. Beside the reading an observer notes for each function the line whose
text it was made of.
-/

namespace Utrace

variable {filename : String} {lineNo room k : Nat} {line buf rest stream : List Char}

/-! ## What a line declares -/

/-- The function returned for a line, of any file and with any number. -/
def declares (buf : List Char) : Option Function :=
  match processLine "" 0 buf with
  | .function func => some func
  | _ => none

/-- A buffer declares what `process_line` reads from it. -/
theorem declares_eq_some {func : Function} :
    declares buf = some func ↔ processLine filename lineNo buf = .function func := by
  have hfile : processLine filename lineNo buf = .function func ↔
      processLine "" 0 buf = .function func :=
    processLine_eq_function_iff.trans processLine_eq_function_iff.symm
  rw [hfile]
  unfold declares
  cases processLine "" 0 buf <;> simp

/-- An empty buffer declares nothing. -/
theorem declares_nil : declares [] = none := by decide

/-- The end of the line does not matter. -/
theorem declares_newline (hzero : '\x00' ∉ line) : declares (line ++ ['\n']) = declares line := by
  have hboth : '\x00' ∉ line ++ ['\n'] := by simp [hzero]
  have hparens : NoParens ['\n'] := by simp [NoParens]
  ext func
  have hwhole : declares (line ++ ['\n']) = some func ↔
      processLine "" 0 (line ++ ['\n']) = .function func := declares_eq_some
  rw [hwhole, processLine_append hboth hparens, declares_eq_some]

/-! ## One buffer -/

/-- A line that fits is read up to its end. -/
theorem fgetsLoop_line (hline : '\n' ∉ line) (hroom : line.length < room) (rest : List Char) :
    fgetsLoop room (line ++ '\n' :: rest) = (line ++ ['\n'], rest) := by
  induction line generalizing room with
  | nil =>
    obtain ⟨room, rfl⟩ : ∃ n, room = n + 1 := ⟨room - 1, by simp at hroom; omega⟩
    rfl
  | cons c line ih =>
    rw [List.mem_cons, not_or] at hline
    rw [List.length_cons] at hroom
    obtain ⟨room, rfl⟩ : ∃ n, room = n + 1 := ⟨room - 1, by omega⟩
    have hrest := ih hline.2 (Nat.lt_of_succ_lt_succ hroom)
    rw [List.cons_append, fgetsLoop, if_neg (Ne.symm hline.1), hrest]
    rfl

/-- Of a line that fills the buffer, that much is read. -/
theorem fgetsLoop_full (hline : '\n' ∉ line) (hroom : room ≤ line.length) (rest : List Char) :
    fgetsLoop room (line ++ rest) = (line.take room, line.drop room ++ rest) := by
  induction line generalizing room with
  | nil =>
    obtain rfl := Nat.le_zero.mp hroom
    rfl
  | cons c line ih =>
    cases room with
    | zero => rfl
    | succ room =>
      rw [List.mem_cons, not_or] at hline
      have hrest := ih hline.2 (Nat.le_of_succ_le_succ hroom)
      rw [List.cons_append, fgetsLoop, if_neg (Ne.symm hline.1), hrest]
      rfl

/-- At the end of the file, what there is. -/
theorem fgetsLoop_end (hline : '\n' ∉ line) (hroom : line.length ≤ room) :
    fgetsLoop room line = (line, []) := by
  induction line generalizing room with
  | nil => cases room <;> rfl
  | cons c line ih =>
    rw [List.mem_cons, not_or] at hline
    rw [List.length_cons] at hroom
    obtain ⟨room, rfl⟩ : ∃ n, room = n + 1 := ⟨room - 1, by omega⟩
    rw [fgetsLoop, if_neg (Ne.symm hline.1), ih hline.2 (Nat.le_of_succ_le_succ hroom)]

/-- Where something is left, `fgets` reads. -/
theorem fgets_of_ne_nil (h : stream ≠ []) :
    fgets bufSize stream = some (fgetsLoop (bufSize - 1) stream) := if_neg h

/-! ## The pieces of a line -/

/-- What the buffer holds, one filling after the other, while a line is read. -/
def pieces (line : List Char) : List (List Char) :=
  if line = [] then [] else line.take (bufSize - 1) :: pieces (line.drop (bufSize - 1))
termination_by line.length
decreasing_by
  rename_i hline
  have hpos := List.length_pos_iff.mpr hline
  rw [List.length_drop]
  simp only [bufSize]
  omega

/-- The functions returned for the pieces of a line. -/
def piecesDeclare (line : List Char) : List Function := (pieces line).filterMap declares

/-- A line that does not fit is read piece by piece. -/
theorem piecesDeclare_full (hline : bufSize - 1 ≤ line.length) :
    piecesDeclare line = (declares (line.take (bufSize - 1))).toList ++
      piecesDeclare (line.drop (bufSize - 1)) := by
  have hne : line ≠ [] := by
    rintro rfl
    simp [bufSize] at hline
  rw [piecesDeclare, pieces, if_neg hne, List.filterMap_cons]
  cases declares (line.take (bufSize - 1)) <;> rfl

/-- A line that fits into the buffer is one piece. -/
theorem piecesDeclare_short (hline : line.length < bufSize) :
    piecesDeclare line = (declares line).toList := by
  by_cases hne : line = []
  · subst hne
    rw [piecesDeclare, pieces, if_pos rfl, declares_nil]
    rfl
  · have hfits : line.length ≤ bufSize - 1 := Nat.le_sub_one_of_lt hline
    have hrest : pieces [] = [] := by rw [pieces, if_pos rfl]
    rw [piecesDeclare, pieces, if_neg hne, List.take_of_length_le hfits,
      List.drop_of_length_le hfits, hrest, List.filterMap_cons]
    cases declares line <;> rfl

/-! ## The observer -/

/-- The functions of a stream in the order they are made, each with the number of lines
finished before its text begins. -/
def origins (k : Nat) (stream : List Char) : List (Function × Nat) :=
  match _h : fgets bufSize stream with
  | none => []
  | some (buf, rest) => (declares buf).toList.map (·, k) ++
      origins (if buf.getLast? = some '\n' then k + 1 else k) rest
termination_by stream.length
decreasing_by exact length_of_fgets (by decide) _h

/-- An empty stream declares nothing. -/
theorem origins_nil (k : Nat) : origins k [] = [] := by
  rw [origins]
  rfl

/-- What a piece declares is from the line it is in. -/
theorem origins_eq (h : fgets bufSize stream = some (buf, rest)) :
    origins k stream = (declares buf).toList.map (·, k) ++
      origins (if buf.getLast? = some '\n' then k + 1 else k) rest := by
  rw [origins]
  split
  · rename_i hnone
    rw [h] at hnone
    cases hnone
  · rename_i buf' rest' hsome
    rw [h, Option.some.injEq, Prod.mk.injEq] at hsome
    rw [hsome.1, hsome.2]

/-- A buffer puts on the list what it declares. -/
theorem listOfFunctions_take (s : ConfigFile) (buf : List Char) :
    (s.take buf).listOfFunctions = (declares buf).toList ++ s.listOfFunctions := by
  have hiff : ∀ func, declares buf = some func ↔
      processLine s.filename (s.lineNo + 1) buf = .function func := fun _ => declares_eq_some
  have hnone : (∀ func, processLine s.filename (s.lineNo + 1) buf ≠ .function func) →
      declares buf = none := by
    intro hread
    rw [Option.eq_none_iff_forall_ne_some]
    exact fun func hfunc => hread func ((hiff func).mp hfunc)
  unfold ConfigFile.take
  dsimp only
  cases hread : processLine s.filename (s.lineNo + 1) buf with
  | function func =>
    rw [(hiff func).mpr hread]
    rfl
  | _ =>
    rw [hnone (by simp [hread])]
    rfl

/-- The observer sees the functions that are put on the list. -/
theorem listOfFunctions_readStream (s : ConfigFile) (k : Nat) (stream : List Char) :
    (s.readStream stream).listOfFunctions =
      ((origins k stream).map Prod.fst).reverse ++ s.listOfFunctions := by
  induction s, stream using ConfigFile.readStream.induct generalizing k with
  | case1 s stream hend =>
    have hnil : stream = [] := by
      by_contra hne
      rw [fgets_of_ne_nil hne] at hend
      cases hend
    rw [hnil, origins_nil, ConfigFile.readStream]
    rfl
  | case2 s stream buf rest hread ih =>
    have hstep : s.readStream stream = (s.take buf).readStream rest := by
      rw [ConfigFile.readStream]
      split
      · rename_i hend
        rw [hread] at hend
        cases hend
      · rename_i buf' rest' hread'
        rw [hread, Option.some.injEq, Prod.mk.injEq] at hread'
        rw [hread'.1, hread'.2]
    rw [hstep, ih (if buf.getLast? = some '\n' then k + 1 else k), listOfFunctions_take,
      origins_eq hread]
    cases declares buf <;> simp

/-- A filled buffer that ends no line. -/
theorem origins_full (hline : '\n' ∉ line) (hfull : bufSize - 1 ≤ line.length)
    (rest : List Char) :
    origins k (line ++ rest) = (declares (line.take (bufSize - 1))).toList.map (·, k) ++
      origins k (line.drop (bufSize - 1) ++ rest) := by
  have hne : line ++ rest ≠ [] := by
    intro hnil
    rw [(List.append_eq_nil_iff.mp hnil).1] at hfull
    simp [bufSize] at hfull
  have hread := fgets_of_ne_nil hne
  rw [fgetsLoop_full hline hfull] at hread
  have hlast : (line.take (bufSize - 1)).getLast? ≠ some '\n' := by
    intro hlast
    exact hline (List.mem_of_mem_take (List.mem_of_getLast? hlast))
  rw [origins_eq hread, if_neg hlast]

/-- A line with an end to it gives the functions of its pieces. -/
theorem origins_line (hzero : '\x00' ∉ line) (hline : '\n' ∉ line) (rest : List Char) :
    origins k (line ++ '\n' :: rest) =
      (piecesDeclare line).map (·, k) ++ origins (k + 1) rest := by
  induction line using pieces.induct with
  | case1 =>
    have hread := fgets_of_ne_nil (List.cons_ne_nil '\n' rest)
    have hnone : declares ['\n'] = none := by decide
    rw [List.nil_append, origins_eq hread, piecesDeclare_short (by decide), declares_nil]
    change (declares ['\n']).toList.map (·, k) ++ origins (k + 1) rest = _
    rw [hnone]
  | case2 line _ ih =>
    by_cases hshort : line.length < bufSize - 1
    · have hread := fgets_of_ne_nil (List.append_ne_nil_of_right_ne_nil line
        (List.cons_ne_nil '\n' rest))
      rw [fgetsLoop_line hline hshort] at hread
      rw [origins_eq hread, declares_newline hzero, List.getLast?_concat, if_pos rfl,
        piecesDeclare_short (by omega)]
    · have hfull : bufSize - 1 ≤ line.length := Nat.le_of_not_lt hshort
      have hrest := ih (fun hmem => hzero (List.mem_of_mem_drop hmem))
        (fun hmem => hline (List.mem_of_mem_drop hmem))
      rw [origins_full hline hfull, hrest, piecesDeclare_full hfull, List.map_append,
        List.append_assoc]

/-- So does the last line of a file that does not end. -/
theorem origins_last (hline : '\n' ∉ line) :
    origins k line = (piecesDeclare line).map (·, k) := by
  induction line using pieces.induct with
  | case1 => rw [origins_nil, piecesDeclare_short (by decide), declares_nil]; rfl
  | case2 line hne ih =>
    by_cases hshort : line.length < bufSize - 1
    · have hread := fgets_of_ne_nil hne
      rw [fgetsLoop_end hline hshort.le] at hread
      rw [origins_eq hread, origins_nil, List.append_nil, piecesDeclare_short (by omega)]
    · have hfull : bufSize - 1 ≤ line.length := Nat.le_of_not_lt hshort
      have hstep := origins_full (k := k) hline hfull []
      rw [List.append_nil, List.append_nil] at hstep
      rw [hstep, ih fun hmem => hline (List.mem_of_mem_drop hmem), piecesDeclare_full hfull,
        List.map_append]

/-- A file gives the functions of the pieces of its lines. -/
theorem origins_eq_placed (hzero : '\x00' ∉ stream) :
    origins k stream = placed piecesDeclare k (stream.splitOn '\n') := by
  induction hlength : stream.length using Nat.strong_induction_on generalizing k stream with
  | _ n ih =>
    by_cases hnewline : '\n' ∈ stream
    · obtain ⟨line, rest, rfl, hline⟩ := List.eq_append_cons_of_mem hnewline
      have hlineZero : '\x00' ∉ line := fun hmem => hzero (by simp [hmem])
      have hrestZero : '\x00' ∉ rest := fun hmem => hzero (by simp [hmem])
      have hshort : rest.length < n := by
        rw [← hlength, List.length_append, List.length_cons]
        omega
      rw [List.splitOn_append_cons_self_of_not_mem hline, placed, origins_line hlineZero hline,
        ih rest.length hshort hrestZero rfl]
    · rw [List.splitOn_eq_singleton hnewline, origins_last hnewline]
      exact (List.append_nil _).symm

end Utrace
