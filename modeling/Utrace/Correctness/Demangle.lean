import Utrace.Native.Demangle

/-!
# The table of demangled names

Whatever names were asked for before, a name is shown and declarations are found as without the
table, and `cplus_demangle` is called at most once for each name.
-/

namespace Utrace.Demangler

variable (cplusDemangle : CString → Option CString) {α : Type*} {s : Demangler}

/-- The name a line should show. -/
def demangled (optC : Bool) (name : CString) : CString :=
  if optC then (cplusDemangle name).getD name else name

/-- What a use should yield. -/
def Use.meaning (optC : Bool) : Use α → CString ⊕ Option α
  | .shown name => .inl (demangled cplusDemangle optC name)
  | .declared listOfFunctions name => .inr ((listOfFunctions.find? fun func =>
      demangled cplusDemangle optC func.1 = demangled cplusDemangle optC name).map Prod.snd)

/-- The value found for a name in the table, if there is a table. -/
def find (s : Demangler) (name : CString) : Option CString := s.d.bind fun d => d.find name

/-- The table holds the names asked for, each with its demangled form, and no name was asked for
twice. -/
structure Caches (s : Demangler) : Prop where
  find : ∀ name, s.find name = if name ∈ s.asked then
    some (demangled cplusDemangle true name) else none
  nodup : s.asked.Nodup

variable {cplusDemangle}

/-- Nothing wrong is kept at first. -/
theorem caches_start : Caches cplusDemangle {} := by
  constructor
  · intro name
    rfl
  · exact List.nodup_nil

/-- The table made at the first call is empty. -/
theorem find_getD (s : Demangler) (name : CString) : (s.d.getD .init).find name = s.find name := by
  rw [Demangler.find]
  cases s.d with
  | none => exact DemangleDict.find_init name
  | some d => rfl

/-- `my_demangle` returns what it keeps, and keeps it right. -/
theorem Caches.myDemangle (hs : s.Caches cplusDemangle) (name : CString) :
    (s.myDemangle cplusDemangle name).1 = demangled cplusDemangle true name ∧
      (s.myDemangle cplusDemangle name).2.Caches cplusDemangle := by
  have hfind := (s.find_getD name).trans (hs.find name)
  rw [Demangler.myDemangle]
  by_cases hasked : name ∈ s.asked
  · rw [if_pos hasked] at hfind
    dsimp only
    rw [hfind]
    refine ⟨rfl, fun name' => ?_, hs.nodup⟩
    exact (s.find_getD name').trans (hs.find name')
  · rw [if_neg hasked] at hfind
    dsimp only
    rw [hfind]
    refine ⟨rfl, fun name' => ?_, List.nodup_cons.mpr ⟨hasked, hs.nodup⟩⟩
    refine (DemangleDict.find_enter ..).trans ?_
    rw [s.find_getD name', hs.find name']
    by_cases hname : name' = name
    · subst hname
      simp [hasked, demangled]
    · simp [hname]

/-- So does a name that is shown. -/
theorem Caches.shownName (hs : s.Caches cplusDemangle) (optC : Bool) (name : CString) :
    (s.shownName cplusDemangle optC name).1 = demangled cplusDemangle optC name ∧
      (s.shownName cplusDemangle optC name).2.Caches cplusDemangle := by
  cases optC with
  | true => exact hs.myDemangle name
  | false => exact ⟨rfl, hs⟩

/-- The loop stops at the first declaration with the same shown name. -/
theorem Caches.name2func (hs : s.Caches cplusDemangle) (optC : Bool) (name : CString)
    (listOfFunctions : List (CString × α)) :
    (s.name2func cplusDemangle optC name listOfFunctions).1 =
        (listOfFunctions.find? fun func => demangled cplusDemangle optC func.1 =
          demangled cplusDemangle optC name).map Prod.snd ∧
      (s.name2func cplusDemangle optC name listOfFunctions).2.Caches cplusDemangle := by
  induction listOfFunctions generalizing s with
  | nil => exact ⟨rfl, hs⟩
  | cons func funcs ih =>
    obtain ⟨hstr1, hs1⟩ := hs.shownName optC func.1
    obtain ⟨hstr2, hs2⟩ := hs1.shownName optC name
    have hcmp := dictKeyCmpString_eq_zero_iff (demangled cplusDemangle optC func.1)
      (demangled cplusDemangle optC name)
    rw [dictKeyCmpString] at hcmp
    rw [Demangler.name2func, hstr1, hstr2, List.find?_cons]
    by_cases heq : demangled cplusDemangle optC func.1 = demangled cplusDemangle optC name
    · rw [if_pos (hcmp.mpr heq)]
      simp only [heq, decide_true]
      exact ⟨rfl, hs2⟩
    · rw [if_neg (mt hcmp.mp heq)]
      simp only [heq, decide_false]
      exact ih hs2

/-- So does every use of the table. -/
theorem Caches.use (hs : s.Caches cplusDemangle) (optC : Bool) (u : Use α) :
    (s.use cplusDemangle optC u).1 = u.meaning cplusDemangle optC ∧
      (s.use cplusDemangle optC u).2.Caches cplusDemangle := by
  cases u with
  | shown name =>
    obtain ⟨hshown, hkept⟩ := hs.shownName optC name
    exact ⟨congrArg Sum.inl hshown, hkept⟩
  | declared listOfFunctions name =>
    obtain ⟨hfound, hkept⟩ := hs.name2func optC name listOfFunctions
    exact ⟨congrArg Sum.inr hfound, hkept⟩

/-- So do uses in sequence. -/
theorem Caches.uses (hs : s.Caches cplusDemangle) (optC : Bool) (us : List (Use α)) :
    (s.uses cplusDemangle optC us).1 = us.map (Use.meaning cplusDemangle optC) ∧
      (s.uses cplusDemangle optC us).2.Caches cplusDemangle := by
  induction us generalizing s with
  | nil => exact ⟨rfl, hs⟩
  | cons u us ih =>
    obtain ⟨hfirst, hkept⟩ := hs.use optC u
    obtain ⟨hrest, hlast⟩ := ih hkept
    refine ⟨?_, hlast⟩
    rw [List.map_cons, ← hfirst, ← hrest]
    rfl

/-- Whatever names are used and in whatever order, each use yields what it would without the
table, and `cplus_demangle` is never called twice for a name. -/
theorem demangled_through_table (cplusDemangle : CString → Option CString) (optC : Bool)
    (us : List (Use α)) :
    (uses cplusDemangle optC {} us).1 = us.map (Use.meaning cplusDemangle optC) ∧
      (uses cplusDemangle optC {} us).2.asked.Nodup := by
  obtain ⟨hyield, hkept⟩ := caches_start.uses optC us
  exact ⟨hyield, hkept.nodup⟩

end Utrace.Demangler
