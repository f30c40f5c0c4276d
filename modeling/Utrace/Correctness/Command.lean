import Utrace.Core.Segments
import Utrace.Native.Options
import Utrace.Native.Config

/-!
# The command that is run: `search_for_command`

The components of `PATH` are tried in order, each with the name behind it. The buffer holds any
name that passes the check of its length, with the slash between its parts and the zero that
ends it.
-/

namespace Utrace

variable {str component filename path : List Char}

/-! ## The buffer -/

namespace Pathname

variable (pathname : Pathname)

/-- A copy in two parts. -/
theorem copy_append (i : Nat) (str str' : List Char) :
    pathname.copy i (str ++ str') = (pathname.copy i str).copy (i + str.length) str' := by
  induction str generalizing pathname i with
  | nil => rfl
  | cons c str ih =>
    rw [List.cons_append, copy, copy, ih, List.length_cons]
    congr 1
    omega

/-- Storing a string and another behind it. -/
theorem copy_zero_append (str str' : List Char) :
    pathname.copy 0 (str ++ str') = (pathname.copy 0 str).copy str.length str' := by
  rw [copy_append, Nat.zero_add]

/-- A copy stores from its start on, and nowhere else. -/
theorem stores_copy (i : Nat) (str : List Char) (k : Nat) :
    k ∈ (pathname.copy i str).stores ↔ k ∈ pathname.stores ∨ i ≤ k ∧ k < i + str.length := by
  induction str generalizing pathname i with
  | nil =>
    rw [copy, List.length_nil]
    exact (or_iff_left (by omega)).symm
  | cons c str ih =>
    rw [copy, ih, store, List.mem_cons, List.length_cons]
    constructor
    · rintro ((rfl | hmem) | hin)
      · exact Or.inr (by omega)
      · exact Or.inl hmem
      · exact Or.inr (by omega)
    · rintro (hmem | hin)
      · exact Or.inl (Or.inr hmem)
      · by_cases hk : k = i
        · exact Or.inl (Or.inl hk)
        · exact Or.inr (by omega)

/-- It leaves what stands in front of it. -/
theorem chars_copy_of_lt {i k : Nat} (hk : k < i) (str : List Char) :
    (pathname.copy i str).chars k = pathname.chars k := by
  induction str generalizing pathname i with
  | nil => rfl
  | cons c str ih =>
    rw [copy, ih _ (Nat.lt_succ_of_lt hk)]
    exact Function.update_of_ne hk.ne ..

/-- It puts its characters where they belong. -/
theorem chars_copy (i : Nat) {k : Nat} (hk : k < str.length) :
    (pathname.copy i str).chars (i + k) = str[k] := by
  induction str generalizing pathname i k with
  | nil => cases hk
  | cons c str ih =>
    rw [copy]
    cases k with
    | zero =>
      have hfirst := chars_copy_of_lt (pathname.store i c) (Nat.lt_add_one i) str
      exact hfirst.trans (Function.update_self ..)
    | succ k =>
      have hrest := ih (pathname.store i c) (i + 1) (Nat.lt_of_succ_lt_succ hk)
      rw [Nat.add_assoc, Nat.add_comm 1 k] at hrest
      exact hrest

/-- A string that was stored is read back. -/
theorem text_copy (hzero : '\x00' ∉ str) (hlength : str.length < pathMax) :
    (pathname.copy 0 (str ++ ['\x00'])).text = str := by
  have hread : ((List.range pathMax).map (pathname.copy 0 (str ++ ['\x00'])).chars).take
      (str.length + 1) = str ++ ['\x00'] := by
    rw [← List.map_take, List.take_range, Nat.min_eq_left hlength]
    apply List.ext_getElem (by simp)
    intro k hk hk'
    have hchar := pathname.chars_copy 0 hk'
    rw [Nat.zero_add] at hchar
    simpa using hchar
  unfold text
  rw [← List.take_append_drop (str.length + 1)
    ((List.range pathMax).map (pathname.copy 0 (str ++ ['\x00'])).chars), hread,
    List.append_assoc, List.takeWhile_append_of_pos]
  · simp
  · intro c hc
    exact decide_eq_true fun heq => hzero (heq ▸ hc)

end Pathname

/-! ## One turn -/

/-- The name that is tried for a component. -/
def candidate (filename component : List Char) : List Char :=
  if component = [] then filename
  else if component.getLast? = some '/' then component ++ filename
  else component ++ '/' :: filename

/-- A component is copied up to its end. -/
theorem strncpy_append (rest : List Char) : strncpy (component ++ rest) component.length =
    component := by
  simp [strncpy]

/-- The buffer is filled with the name to try, from its start on. -/
theorem fillPathname_eq (pathname : Pathname) (component rest filename : List Char) :
    fillPathname pathname (component ++ rest) filename component.length =
      pathname.copy 0 (candidate filename component ++ ['\x00']) := by
  unfold fillPathname candidate
  rw [strncpy_append]
  dsimp only
  rcases List.eq_nil_or_concat component with rfl | ⟨init, last, rfl⟩
  · rw [if_neg (by simp), if_pos rfl]
    rfl
  · have hlast : (pathname.copy 0 (init ++ [last])).chars ((init ++ [last]).length - 1) =
        last := by
      have hlength : init.length < (init ++ [last]).length := by simp
      have hchar := pathname.chars_copy 0 hlength
      simpa using hchar
    have hlength : (init ++ [last]).length ≠ 0 := by simp
    rw [List.concat_eq_append, hlast, if_neg (List.append_ne_nil_of_right_ne_nil init (by simp)),
      List.getLast?_concat]
    by_cases hslash : last = '/'
    · rw [if_neg fun h => h.2 hslash, if_pos (congrArg some hslash), List.append_assoc,
        pathname.copy_zero_append (init ++ [last])]
    · rw [if_pos ⟨hlength, hslash⟩, if_neg fun h => hslash (Option.some.inj h),
        List.append_assoc, pathname.copy_zero_append (init ++ [last])]
      rfl

/-! ## The loop -/

/-- The search over the components: what it returns, and the names it tries. -/
def searchSegments (executable : List Char → Bool) (filename : List Char) :
    List (List Char) → Except String (List Char) × List (List Char)
  | [] => (.ok filename, [])
  | component :: components =>
    if component.length + filename.length + 1 ≥ pathMax then
      (.error "Error: filename too long\n", [])
    else if executable (candidate filename component) then
      (.ok (candidate filename component), [candidate filename component])
    else
      let rest := searchSegments executable filename components
      (rest.1, candidate filename component :: rest.2)

/-- A candidate is a component, a slash and the name at most. -/
theorem length_candidate_le (filename component : List Char) :
    (candidate filename component).length ≤ component.length + filename.length + 1 := by
  unfold candidate
  split
  · omega
  · split
    · rw [List.length_append]
      omega
    · rw [List.length_append, List.length_cons]
      omega

/-- It has no zero byte inside. -/
theorem zero_notMem_candidate (hfilename : '\x00' ∉ filename) (hcomponent : '\x00' ∉ component) :
    '\x00' ∉ candidate filename component := by
  unfold candidate
  split
  · exact hfilename
  · split <;> simp [hfilename, hcomponent]

/-- One turn, for the first component. -/
theorem searchPath_turn {rest : List Char} {m : Nat} (executable : List Char → Bool)
    (pathname : Pathname) (hpath : component ++ rest ≠ [])
    (hlength : componentLength (component ++ rest) = (component.length, m))
    (hfilename : '\x00' ∉ filename) (hcomponent : '\x00' ∉ component) :
    ∃ pathname' : Pathname, (∀ k ∈ pathname'.stores, k ∈ pathname.stores ∨ k < pathMax) ∧
      searchPath executable filename pathname (component ++ rest) =
        if component.length + filename.length + 1 ≥ pathMax then
          { result := .error "Error: filename too long\n", pathname := pathname }
        else if executable (candidate filename component) then
          { result := .ok (candidate filename component)
            tried := [candidate filename component]
            pathname := pathname' }
        else
          let searched := searchPath executable filename pathname' ((component ++ rest).drop m)
          { searched with tried := candidate filename component :: searched.tried } := by
  by_cases hlong : component.length + filename.length + 1 ≥ pathMax
  · refine ⟨pathname, fun k hk => Or.inl hk, ?_⟩
    rw [searchPath, dif_neg hpath, hlength]
    dsimp only
    rw [if_pos hlong, if_pos hlong]
  · refine ⟨pathname.copy 0 (candidate filename component ++ ['\x00']), fun k hk => ?_, ?_⟩
    · rw [Pathname.stores_copy, List.length_append, List.length_singleton] at hk
      have hle := length_candidate_le filename component
      exact hk.imp id fun hk => by omega
    · have htext : (pathname.copy 0 (candidate filename component ++ ['\x00'])).text =
          candidate filename component := by
        have hle := length_candidate_le filename component
        exact pathname.text_copy (zero_notMem_candidate hfilename hcomponent) (by omega)
      rw [searchPath, dif_neg hpath, hlength]
      dsimp only
      rw [if_neg hlong, if_neg hlong, fillPathname_eq, htext]

/-- The last component goes to the end. -/
theorem componentLength_single (hcolon : ':' ∉ component) :
    componentLength component = (component.length, component.length) := by
  rw [componentLength, strchr_of_notMem hcolon]

/-- Any other goes to its colon. -/
theorem componentLength_cons (hcolon : ':' ∉ component) (rest : List Char) :
    componentLength (component ++ ':' :: rest) = (component.length, component.length + 1) := by
  rw [componentLength, strchr_append hcolon]
  simp

/-- The loop searches the components, and stores inside the buffer only. -/
theorem searchPath_eq (executable : List Char → Bool) (hfilename : '\x00' ∉ filename)
    (pathname : Pathname) (hpath : '\x00' ∉ path) :
    let searched := searchPath executable filename pathname path
    (searched.result, searched.tried) = searchSegments executable filename (segments ':' path) ∧
      ∀ k ∈ searched.pathname.stores, k ∈ pathname.stores ∨ k < pathMax := by
  induction path using segments_induction ':' generalizing pathname with
  | nil =>
    rw [searchPath, dif_pos rfl, segments_nil]
    exact ⟨rfl, fun k hk => Or.inl hk⟩
  | last component hcolon hne =>
    have hlength : componentLength (component ++ []) = (component.length, component.length) := by
      rw [List.append_nil]
      exact componentLength_single hcolon
    obtain ⟨pathname', hstores, hturn⟩ := searchPath_turn executable pathname
      (by simpa using hne) hlength hfilename hpath
    rw [List.append_nil] at hturn
    rw [hturn, segments_single hcolon hne, searchSegments]
    split
    · exact ⟨rfl, fun k hk => Or.inl hk⟩
    · split
      · exact ⟨rfl, hstores⟩
      · rw [List.drop_length, searchPath, dif_pos rfl]
        exact ⟨rfl, hstores⟩
  | cons component rest hcolon ih =>
    rw [List.mem_append, List.mem_cons, not_or, not_or] at hpath
    obtain ⟨pathname', hstores, hturn⟩ := searchPath_turn executable pathname (by simp)
      (componentLength_cons hcolon rest) hfilename hpath.1
    rw [hturn, segments_cons hcolon, searchSegments]
    split
    · exact ⟨rfl, fun k hk => Or.inl hk⟩
    · split
      · exact ⟨rfl, hstores⟩
      · have hdrop : (component ++ ':' :: rest).drop (component.length + 1) = rest := by
          rw [← List.drop_drop, List.drop_left]
          rfl
        obtain ⟨hsegments, hrest⟩ := ih pathname' hpath.2.2
        rw [hdrop]
        refine ⟨?_, fun k hk => (hrest k hk).elim (hstores k) Or.inr⟩
        exact congrArg (fun r => (r.1, candidate filename component :: r.2)) hsegments

/-! ## What the search returns -/

section Search

variable {executable : List Char → Bool} {components : List (List Char)} {command : List Char}
  {message : String}

/-- Names are tried in order, up to the first that is executable. -/
theorem tried_searchSegments (executable : List Char → Bool) (filename : List Char)
    (components : List (List Char)) :
    (searchSegments executable filename components).2 <+: components.map (candidate filename) ∧
      ∀ name ∈ (searchSegments executable filename components).2.dropLast,
        executable name = false := by
  induction components with
  | nil => simp [searchSegments]
  | cons component components ih =>
    rw [searchSegments, List.map_cons]
    split
    · simp
    · split
      · simp
      · rename_i hexecutable
        refine ⟨List.cons_prefix_cons.mpr ⟨rfl, ih.1⟩, ?_⟩
        cases htried : (searchSegments executable filename components).2 with
        | nil => simp [htried]
        | cons next tried =>
          have hrest := ih.2
          rw [htried] at hrest
          dsimp only
          rw [htried, List.dropLast_cons_cons, List.forall_mem_cons]
          exact ⟨by simpa using hexecutable, hrest⟩

/-- What is returned is the first name that is executable, which was tried last, or the command
as it was given, when all names were tried. -/
theorem ok_searchSegments (h : (searchSegments executable filename components).1 = .ok command) :
    command = ((components.map (candidate filename)).find? executable).getD filename ∧
      (executable command = true ∧
          (searchSegments executable filename components).2.getLast? = some command ∨
        command = filename ∧ (searchSegments executable filename components).2 =
          components.map (candidate filename)) := by
  induction components with
  | nil =>
    cases h
    exact ⟨rfl, Or.inr ⟨rfl, rfl⟩⟩
  | cons component components ih =>
    rw [searchSegments] at h ⊢
    rw [List.map_cons]
    by_cases hlong : component.length + filename.length + 1 ≥ pathMax
    · rw [if_pos hlong] at h
      cases h
    · rw [if_neg hlong] at h ⊢
      by_cases hexecutable : executable (candidate filename component) = true
      · rw [if_pos hexecutable] at h ⊢
        cases h
        rw [List.find?_cons_of_pos hexecutable]
        exact ⟨rfl, Or.inl ⟨hexecutable, rfl⟩⟩
      · rw [if_neg hexecutable] at h ⊢
        rw [List.find?_cons_of_neg hexecutable]
        obtain ⟨hcommand, htried⟩ := ih h
        refine ⟨hcommand, htried.imp (fun hlast => ⟨hlast.1, ?_⟩) fun hall => ⟨hall.1, ?_⟩⟩
        · rw [List.getLast?_cons, hlast.2]
          rfl
        · exact congrArg (List.cons _) hall.2

/-- The search fails at a component that is too long with the command. -/
theorem error_searchSegments
    (h : (searchSegments executable filename components).1 = .error message) :
    message = "Error: filename too long\n" ∧ ∃ before component after,
      components = before ++ component :: after ∧
      (∀ name ∈ before.map (candidate filename), executable name = false) ∧
      component.length + filename.length + 1 ≥ pathMax := by
  induction components with
  | nil => cases h
  | cons component components ih =>
    rw [searchSegments] at h
    split at h
    · rename_i hlong
      cases h
      exact ⟨rfl, [], component, components, rfl, by simp, hlong⟩
    · split at h
      · cases h
      · rename_i hexecutable
        obtain ⟨hmessage, before, last, after, rfl, hbefore, hlong⟩ := ih h
        refine ⟨hmessage, component :: before, last, after, rfl, ?_, hlong⟩
        rw [List.map_cons, List.forall_mem_cons]
        exact ⟨by simpa using hexecutable, hbefore⟩

end Search

/-- A last component that is empty adds no other name. -/
theorem find?_candidate (sep : Char) (executable : List Char → Bool) (filename path : List Char) :
    (((path.splitOn sep).map (candidate filename)).find? executable).getD filename =
      (((segments sep path).map (candidate filename)).find? executable).getD filename := by
  rcases splitOn_eq_segments sep path with heq | heq
  · rw [heq]
  · rw [heq, List.map_append, List.find?_append]
    cases ((segments sep path).map (candidate filename)).find? executable with
    | some name => rfl
    | none =>
      have hname : candidate filename [] = filename := if_pos rfl
      rw [Option.none_or, List.map_singleton, hname, List.find?_singleton]
      split <;> rfl

/-- A command without a slash is searched for in the components. -/
theorem searchForCommand_eq {getenvPath : Option (List Char)} (executable : List Char → Bool)
    (chars : Nat → Char) (hslash : '/' ∉ filename) (hfilename : '\x00' ∉ filename)
    (hpath : ∀ path, getenvPath = some path → '\x00' ∉ path) :
    let searched := searchForCommand getenvPath executable filename ⟨chars, []⟩
    (searched.result, searched.tried) =
        searchSegments executable filename (getenvPath.elim [] (segments ':')) ∧
      ∀ k ∈ searched.pathname.stores, k < pathMax := by
  unfold searchForCommand
  rw [strchr_of_notMem hslash]
  cases getenvPath with
  | none => exact ⟨rfl, List.forall_mem_nil _⟩
  | some path =>
    obtain ⟨hsegments, hstores⟩ := searchPath_eq executable hfilename ⟨chars, []⟩ (hpath path rfl)
    exact ⟨hsegments, fun k hk => (hstores k hk).resolve_left List.not_mem_nil⟩

/-- For every `PATH` and every set of executables: a command with a slash is returned as it is.
For any other, the names of the components are tried in order, and the first that is executable
is returned, or the command itself where none is. The search fails only at a component that is
too long. Nothing is stored outside the buffer. An empty component behind the last colon is not
tried: its name is the command itself, which is returned then. -/
theorem command_searched {getenvPath : Option (List Char)} (executable : List Char → Bool)
    (chars : Nat → Char) (hfilename : '\x00' ∉ filename)
    (hpath : ∀ path, getenvPath = some path → '\x00' ∉ path) :
    (∀ k ∈ (searchForCommand getenvPath executable filename ⟨chars, []⟩).pathname.stores,
      k < pathMax) ∧
    let searched := searchForCommand getenvPath executable filename ⟨chars, []⟩
    let components := getenvPath.elim [] fun path => path.splitOn ':'
    let tried := (getenvPath.elim [] (segments ':')).map (candidate filename)
    ('/' ∈ filename → searched.result = .ok filename ∧ searched.tried = []) ∧
      ('/' ∉ filename →
        searched.tried <+: tried ∧ (∀ name ∈ searched.tried.dropLast, executable name = false) ∧
        (∀ command, searched.result = .ok command →
          command = ((components.map (candidate filename)).find? executable).getD filename ∧
            (executable command = true ∧ searched.tried.getLast? = some command ∨
              command = filename ∧ searched.tried = tried)) ∧
        ∀ message, searched.result = .error message →
          message = "Error: filename too long\n" ∧ ∃ before component after,
            components = before ++ component :: after ∧
            (∀ name ∈ before.map (candidate filename), executable name = false) ∧
            component.length + filename.length + 1 ≥ pathMax) := by
  set searched := searchForCommand getenvPath executable filename ⟨chars, []⟩
  set components := getenvPath.elim [] fun path => path.splitOn ':'
  set tried := (getenvPath.elim [] (segments ':')).map (candidate filename)
  by_cases hslash : '/' ∈ filename
  · have hstrchr : (strchr filename '/').isSome = true := by
      obtain ⟨before, after, rfl, hbefore⟩ := List.eq_append_cons_of_mem hslash
      rw [strchr_append hbefore]
      rfl
    have hsearched : searched = { result := .ok filename, pathname := ⟨chars, []⟩ } := by
      simp only [searched, searchForCommand, hstrchr, if_true]
    rw [hsearched]
    exact ⟨List.forall_mem_nil _, fun _ => ⟨rfl, rfl⟩, fun hnone => absurd hslash hnone⟩
  · obtain ⟨hsegments, hstores⟩ := searchForCommand_eq executable chars hslash hfilename hpath
    have hresult : searched.result =
        (searchSegments executable filename (getenvPath.elim [] (segments ':'))).1 :=
      congrArg Prod.fst hsegments
    have htried : searched.tried =
        (searchSegments executable filename (getenvPath.elim [] (segments ':'))).2 :=
      congrArg Prod.snd hsegments
    refine ⟨hstores, fun hin => absurd hin hslash, fun _ => ?_⟩
    rw [hresult, htried]
    obtain ⟨horder, hbefore⟩ := tried_searchSegments executable filename
      (getenvPath.elim [] (segments ':'))
    refine ⟨horder, hbefore, fun command hok => ?_, fun message herror => ?_⟩
    · obtain ⟨hcommand, hlast⟩ := ok_searchSegments hok
      refine ⟨hcommand.trans ?_, hlast⟩
      cases getenvPath with
      | none => rfl
      | some path => exact (find?_candidate ':' executable filename path).symm
    · obtain ⟨hmessage, before, component, after, hsplit, hnames, hlong⟩ :=
        error_searchSegments herror
      refine ⟨hmessage, before, component, ?_⟩
      cases getenvPath with
      | none => exact ⟨after, hsplit, hnames, hlong⟩
      | some path =>
        rcases splitOn_eq_segments ':' path with heq | heq
        · exact ⟨after, heq.trans hsplit, hnames, hlong⟩
        · refine ⟨after ++ [[]], heq.trans ?_, hnames, hlong⟩
          have hsplit : segments ':' path = before ++ component :: after := hsplit
          rw [hsplit, List.append_assoc]
          rfl

/-- With `PATH=/sbin:/bin/`, the name in the second directory. -/
theorem command_searched_bin :
    (searchForCommand (some "/sbin:/bin/".toList) (· = "/bin/ls".toList) "ls".toList
      ⟨fun _ => '\x00', []⟩).result = .ok "/bin/ls".toList := by
  have hpath : ∀ path, some "/sbin:/bin/".toList = some path → '\x00' ∉ path := by
    rintro path ⟨⟩
    decide
  obtain ⟨_, _, hsearch⟩ := @command_searched "ls".toList (some "/sbin:/bin/".toList)
    (· = "/bin/ls".toList) (fun _ => '\x00') (by decide) hpath
  obtain ⟨_, _, hok, herror⟩ := hsearch (by decide)
  cases hresult : (searchForCommand (some "/sbin:/bin/".toList) (· = "/bin/ls".toList)
      "ls".toList ⟨fun _ => '\x00', []⟩).result with
  | ok command =>
    rw [(hok command hresult).1]
    decide
  | error message =>
    obtain ⟨_, before, component, after, hsplit, _, hlong⟩ := herror message hresult
    have hmem : component ∈ "/sbin:/bin/".toList.splitOn ':' := by
      have hsplit : "/sbin:/bin/".toList.splitOn ':' = before ++ component :: after := hsplit
      rw [hsplit]
      exact List.mem_append_cons_self
    have hshort : ∀ c ∈ "/sbin:/bin/".toList.splitOn ':', c.length ≤ 5 := by decide
    have hle := hshort component hmem
    have hlong : component.length + 2 + 1 ≥ 4096 := hlong
    omega

/-- With `PATH=/bin:` and nothing to be found, the empty component behind the colon is not tried. -/
theorem last_component_untried :
    ¬∀ (getenvPath : Option (List Char)) (executable : List Char → Bool) (chars : Nat → Char)
      (filename : List Char), filename ≠ [] → '\x00' ∉ filename → '/' ∉ filename →
      (∀ path, getenvPath = some path → '\x00' ∉ path) → (∀ name, executable name = false) →
      (searchForCommand getenvPath executable filename ⟨chars, []⟩).result = .ok filename →
      (searchForCommand getenvPath executable filename ⟨chars, []⟩).tried =
        (getenvPath.elim [] fun path => path.splitOn ':').map (candidate filename) := by
  intro hclaim
  have hpath : ∀ path, some "/bin:".toList = some path → '\x00' ∉ path := by
    rintro path ⟨⟩
    decide
  obtain ⟨hsearched, _⟩ := @searchForCommand_eq "ls".toList (some "/bin:".toList) (fun _ => false)
    (fun _ => '\x00') (by decide) (by decide) hpath
  have hsegments : searchSegments (fun _ => false) "ls".toList (segments ':' "/bin:".toList) =
      (.ok "ls".toList, ["/bin/ls".toList]) := by decide +kernel
  obtain ⟨hresult, htried⟩ := Prod.mk.inj (hsearched.trans hsegments)
  have hall := hclaim (some "/bin:".toList) (fun _ => false) (fun _ => '\x00') "ls".toList
    (by decide) (by decide) (by decide) hpath (fun _ => rfl) hresult
  rw [htried] at hall
  exact absurd hall (by decide)

end Utrace
