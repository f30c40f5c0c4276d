import Mathlib.Tactic.Common
import Mathlib.Data.List.TakeWhile
import Mathlib.Order.Basic

/-!
# Command lines

`getopt_long`, with an option string that begins with a plus: reading stops at the first argument
that is no option. Short options come in clusters, the last of which may take what is left of the
cluster or the next argument. Long options may be abbreviated. A program acts on each option as it
is read; what it reads are exactly the command lines of the grammar below.
-/

namespace Utrace.Getopt

/-- A string of the argument vector. -/
abbrev Arg := List Char

/-- An option as it is returned, with `optarg`. -/
abbrev Opt := Char × Option Arg

/-- `struct option`, with a null flag and an argument that is there or not. -/
structure LongOption where
  name : List Char
  hasArg : Bool
  val : Char

/-- The option string behind its plus, and the long options. -/
structure Table where
  shortOptions : List Char
  longOptions : List LongOption

namespace Table

variable (t : Table)

/-- Whether a short option is known, and whether it takes an argument: a colon follows it. -/
def short (c : Char) : Option Bool :=
  if c = ':' then none
  else
    match t.shortOptions.dropWhile (· ≠ c) with
    | [] => none
    | _ :: more => some (more.head? = some ':')

/-- The long option of this name, or the only one with a longer name. No two of them return the
same character. -/
def long (name : List Char) : Option LongOption :=
  match t.longOptions.find? fun p => p.name = name with
  | some p => some p
  | none =>
    match t.longOptions.filter fun p => name.isPrefixOf p.name with
    | [p] => some p
    | _ => none

end Table

/-! ## One call -/

/-- The outcome of a call: -1, an option or a question mark, with the arguments from `optind` on.
Within a cluster, `optind` is taken to be behind it and `nextchar` is what is left of it. -/
inductive Returned where
  | done (args : List Arg)
  | option (o : Opt) (nextchar : List Char) (args : List Arg)
  | unknown

section

variable (t : Table)

/-- A short option, with what follows it in its argument. -/
def shortOption (c : Char) (nextchar : List Char) (args : List Arg) : Returned :=
  match t.short c with
  | none => .unknown
  | some false => .option (c, none) nextchar args
  | some true =>
    if nextchar ≠ [] then .option (c, some nextchar) [] args
    else
      match args with
      | [] => .unknown
      | optarg :: args => .option (c, some optarg) [] args

/-- A long option, behind its dashes. -/
def longOption (text : List Char) (args : List Arg) : Returned :=
  match t.long (text.takeWhile (· ≠ '=')) with
  | none => .unknown
  | some p =>
    match text.dropWhile (· ≠ '='), p.hasArg with
    | _ :: value, true => .option (p.val, some value) [] args
    | _ :: _, false => .unknown
    | [], false => .option (p.val, none) [] args
    | [], true =>
      match args with
      | [] => .unknown
      | optarg :: args => .option (p.val, some optarg) [] args

/-- `getopt_long`. -/
def getoptLong : List Char → List Arg → Returned
  | c :: nextchar, args => shortOption t c nextchar args
  | [], [] => .done []
  | [], ['-', '-'] :: args => .done args
  | [], ('-' :: '-' :: text) :: args => longOption t text args
  | [], ('-' :: c :: nextchar) :: args => shortOption t c nextchar args
  | [], arg :: args => .done (arg :: args)

end

/-! ## The loop around it -/

/-- What is left to read. -/
def size (nextchar : List Char) (args : List Arg) : Nat :=
  nextchar.length + args.length + args.flatten.length

variable {t : Table} {c : Char} {o : Opt} {text nextchar nextchar' : List Char}
  {args args' : List Arg}

/-- A letter leaves no more to read than there was. -/
theorem size_shortOption (h : shortOption t c nextchar args = .option o nextchar' args') :
    size nextchar' args' ≤ size nextchar args := by
  unfold shortOption at h
  split at h
  · cases h
  · cases h
    exact Nat.le_refl _
  · split at h
    · cases h
      simp [size]
    · cases args with
      | nil => cases h
      | cons arg args =>
        cases h
        simp only [size, List.flatten_cons, List.length_append, List.length_cons, List.length_nil]
        omega

/-- Nor does a long option. -/
theorem size_longOption (h : longOption t text args = .option o nextchar' args') :
    size nextchar' args' ≤ size [] args := by
  unfold longOption at h
  split at h
  · cases h
  · split at h
    · cases h
      exact Nat.le_refl _
    · cases h
    · cases h
      exact Nat.le_refl _
    · cases args with
      | nil => cases h
      | cons arg args =>
        cases h
        simp only [size, List.flatten_cons, List.length_append, List.length_cons]
        omega

/-- Every option takes something from what is left. -/
theorem size_getoptLong (h : getoptLong t nextchar args = .option o nextchar' args') :
    size nextchar' args' < size nextchar args := by
  unfold getoptLong at h
  split at h
  · have hle := size_shortOption h
    simp only [size, List.length_cons] at hle ⊢
    omega
  · cases h
  · cases h
  · have hle := size_longOption h
    simp only [size, List.flatten_cons, List.length_append, List.length_cons,
      List.length_nil] at hle ⊢
    omega
  · have hle := size_shortOption h
    simp only [size, List.flatten_cons, List.length_append, List.length_cons,
      List.length_nil] at hle ⊢
    omega
  · cases h

variable {σ ε : Type*}

/-- The loop of a program that acts on each option in turn and gives up at a question mark. -/
def read (t : Table) (act : σ → Opt → Except ε σ) (unknown : ε) (s : σ) (nextchar : List Char)
    (args : List Arg) : Except ε (σ × List Arg) :=
  match _h : getoptLong t nextchar args with
  | .done args => .ok (s, args)
  | .unknown => .error unknown
  | .option o nextchar args =>
    match act s o with
    | .error e => .error e
    | .ok s => read t act unknown s nextchar args
termination_by size nextchar args
decreasing_by exact size_getoptLong _h

/-! ## The grammar -/

/-- A cluster of short options, with the arguments behind it: the options it spells and the
arguments that are left. -/
inductive Cluster (t : Table) : List Char → List Arg → List Opt → List Arg → Prop
  | nil (args : List Arg) : Cluster t [] args [] args
  | flag {c : Char} (h : t.short c = some false) {text : List Char} {args rest : List Arg}
      {opts : List Opt} (hrest : Cluster t text args opts rest) :
      Cluster t (c :: text) args ((c, none) :: opts) rest
  | attached {c : Char} (h : t.short c = some true) {value : List Char} (hvalue : value ≠ [])
      (args : List Arg) : Cluster t (c :: value) args [(c, some value)] args
  | separate {c : Char} (h : t.short c = some true) (value : Arg) (args : List Arg) :
      Cluster t [c] (value :: args) [(c, some value)] args

/-- Arguments that spell options, up to the arguments that are left. -/
inductive Spelled (t : Table) : List Arg → List Opt → List Arg → Prop
  | nothing : Spelled t [] [] []
  | operand {arg : Arg} (h : arg.head? ≠ some '-' ∨ arg = ['-']) (args : List Arg) :
      Spelled t (arg :: args) [] (arg :: args)
  | dashes (args : List Arg) : Spelled t (['-', '-'] :: args) [] args
  | cluster {text : List Char} {args args' rest : List Arg} {opts opts' : List Opt}
      (hne : text ≠ []) (h : Cluster t text args opts args') (hrest : Spelled t args' opts' rest) :
      Spelled t (('-' :: text) :: args) (opts ++ opts') rest
  | long {name : List Char} {p : LongOption} (h : t.long name = some p) (hname : '=' ∉ name)
      (hne : name ≠ []) (harg : p.hasArg = false) {args rest : List Arg} {opts : List Opt}
      (hrest : Spelled t args opts rest) :
      Spelled t (('-' :: '-' :: name) :: args) ((p.val, none) :: opts) rest
  | longAttached {name : List Char} {p : LongOption} (h : t.long name = some p)
      (hname : '=' ∉ name) (harg : p.hasArg = true) (value : List Char) {args rest : List Arg}
      {opts : List Opt} (hrest : Spelled t args opts rest) :
      Spelled t (('-' :: '-' :: (name ++ '=' :: value)) :: args) ((p.val, some value) :: opts) rest
  | longSeparate {name : List Char} {p : LongOption} (h : t.long name = some p)
      (hname : '=' ∉ name) (hne : name ≠ []) (harg : p.hasArg = true) (value : Arg)
      {args rest : List Arg} {opts : List Opt} (hrest : Spelled t args opts rest) :
      Spelled t (('-' :: '-' :: name) :: value :: args) ((p.val, some value) :: opts) rest

/-! ## What is read is what is spelled -/

section

variable {act : σ → Opt → Except ε σ} {unknown : ε} {s s' : σ} {opts : List Opt} {rest : List Arg}

/-- Where the options end, the state is what was made of them. -/
theorem read_done (h : getoptLong t nextchar args = .done rest) :
    read t act unknown s nextchar args = .ok (s, rest) := by
  rw [read]
  split <;> simp_all

/-- An unknown option ends the reading. -/
theorem read_unknown (h : getoptLong t nextchar args = .unknown) :
    read t act unknown s nextchar args = .error unknown := by
  rw [read]
  split <;> simp_all

/-- The program goes on unless it gives up on the option. -/
theorem read_option (h : getoptLong t nextchar args = .option o nextchar' args') :
    read t act unknown s nextchar args =
      (act s o).bind fun s => read t act unknown s nextchar' args' := by
  rw [read]
  split
  · simp_all
  · simp_all
  · rename_i h'
    obtain ⟨rfl, rfl, rfl⟩ := Returned.option.inj (h.symm.trans h')
    cases act s o <;> simp [Except.bind]

/-- Two places from which the next call finds the same. -/
theorem read_congr (h : getoptLong t nextchar args = getoptLong t nextchar' args') :
    read t act unknown s nextchar args = read t act unknown s nextchar' args' := by
  cases hcall : getoptLong t nextchar' args' with
  | done rest => rw [read_done hcall, read_done (h.trans hcall)]
  | unknown => rw [read_unknown hcall, read_unknown (h.trans hcall)]
  | option o n a => rw [read_option hcall, read_option (h.trans hcall)]

/-- Behind a single dash a cluster begins. -/
theorem getoptLong_dash (h : c ≠ '-') (text : List Char) (args : List Arg) :
    getoptLong t [] (('-' :: c :: text) :: args) = getoptLong t (c :: text) args := by
  simp [getoptLong, h]

/-- An operand ends the options. -/
theorem getoptLong_operand {arg : Arg} (h : arg.head? ≠ some '-' ∨ arg = ['-'])
    (args : List Arg) : getoptLong t [] (arg :: args) = .done (arg :: args) := by
  rcases h with h | rfl
  · cases arg with
    | nil => rfl
    | cons c text =>
      have hc : c ≠ '-' := fun heq => h (congrArg some heq)
      simp [getoptLong, hc]
  · rfl

/-- Behind two dashes a long option is read. -/
theorem getoptLong_long (h : text ≠ []) (args : List Arg) :
    getoptLong t [] (('-' :: '-' :: text) :: args) = longOption t text args := by
  cases text with
  | nil => exact absurd rfl h
  | cons c text => rfl

/-! ### From the grammar to the loop -/

/-- The letters of a cluster are known. -/
theorem Cluster.short_ne_none (h : Cluster t (c :: text) args opts rest) : t.short c ≠ none := by
  cases h <;> simp_all

/-- An empty cluster spells no option. -/
theorem Cluster.of_nil (h : Cluster t [] args opts rest) : opts = [] ∧ args = rest := by
  cases h
  exact ⟨rfl, rfl⟩

/-- A cluster is acted on option by option. -/
theorem Cluster.read_eq (h : Cluster t text args opts args') (s : σ) :
    read t act unknown s text args =
      (opts.foldlM act s).bind fun s => read t act unknown s [] args' := by
  induction h generalizing s with
  | nil args => rfl
  | @flag c hc text args rest opts hrest ih =>
    have hcall : getoptLong t (c :: text) args = .option (c, none) text args := by
      simp [getoptLong, shortOption, hc]
    rw [read_option hcall, List.foldlM_cons]
    cases act s (c, none) with
    | error e => rfl
    | ok s => exact ih s
  | @attached c hc value hvalue args =>
    have hcall : getoptLong t (c :: value) args = .option (c, some value) [] args := by
      simp [getoptLong, shortOption, hc, hvalue]
    rw [read_option hcall, List.foldlM_cons]
    cases act s (c, some value) <;> rfl
  | @separate c hc value args =>
    have hcall : getoptLong t [c] (value :: args) = .option (c, some value) [] args := by
      simp [getoptLong, shortOption, hc]
    rw [read_option hcall, List.foldlM_cons]
    cases act s (c, some value) <;> rfl

/-- The search for an equals sign passes a name without one. -/
theorem decide_ne_of_not_mem {name : List Char} (hname : '=' ∉ name) :
    ∀ c ∈ name, decide (c ≠ '=') = true := by
  intro c hc
  exact decide_eq_true fun heq => hname (heq ▸ hc)

/-- A long option without an argument. -/
theorem longOption_flag {name : List Char} {p : LongOption} (h : t.long name = some p)
    (hname : '=' ∉ name) (harg : p.hasArg = false) (args : List Arg) :
    longOption t name args = .option (p.val, none) [] args := by
  have hall := decide_ne_of_not_mem hname
  simp only [longOption, List.takeWhile_eq_self_iff.mpr hall, h,
    List.dropWhile_eq_nil_iff.mpr hall, harg]

/-- A long option whose argument is the next one of the vector. -/
theorem longOption_separate {name : List Char} {p : LongOption} (h : t.long name = some p)
    (hname : '=' ∉ name) (harg : p.hasArg = true) (value : Arg) (args : List Arg) :
    longOption t name (value :: args) = .option (p.val, some value) [] args := by
  have hall := decide_ne_of_not_mem hname
  simp only [longOption, List.takeWhile_eq_self_iff.mpr hall, h,
    List.dropWhile_eq_nil_iff.mpr hall, harg]

/-- A long option with its argument attached. -/
theorem longOption_attached {name : List Char} {p : LongOption} (h : t.long name = some p)
    (hname : '=' ∉ name) (harg : p.hasArg = true) (value : List Char) (args : List Arg) :
    longOption t (name ++ '=' :: value) args = .option (p.val, some value) [] args := by
  have hall := decide_ne_of_not_mem hname
  have htake : (name ++ '=' :: value).takeWhile (· ≠ '=') = name := by
    rw [List.takeWhile_append_of_pos hall]
    simp
  have hdrop : (name ++ '=' :: value).dropWhile (· ≠ '=') = '=' :: value := by
    rw [List.dropWhile_append_of_pos hall]
    simp
  simp only [longOption, htake, h, hdrop, harg]

/-- What the grammar spells is acted on option by option, and the rest is left. -/
theorem Spelled.read_eq (hdash : t.short '-' = none) (h : Spelled t args opts rest) (s : σ) :
    read t act unknown s [] args = (opts.foldlM act s).map fun s => (s, rest) := by
  induction h generalizing s with
  | nothing => exact read_done rfl
  | operand harg args => exact read_done (getoptLong_operand harg args)
  | dashes args => exact read_done rfl
  | @cluster text args args' rest opts opts' hne hcluster _ ih =>
    cases text with
    | nil => exact absurd rfl hne
    | cons c text =>
      have hc : c ≠ '-' := fun heq => hcluster.short_ne_none (heq ▸ hdash)
      rw [read_congr (getoptLong_dash hc text args), hcluster.read_eq, List.foldlM_append]
      cases opts.foldlM act s with
      | error e => rfl
      | ok s => exact ih s
  | @long name p hlong hname hne harg args rest opts _ ih =>
    have hcall := (getoptLong_long hne args).trans (longOption_flag hlong hname harg args)
    rw [read_option hcall, List.foldlM_cons]
    cases act s (p.val, none) with
    | error e => rfl
    | ok s => exact ih s
  | @longAttached name p hlong hname harg value args rest opts _ ih =>
    have hne : name ++ '=' :: value ≠ [] := by simp
    have hcall :=
      (getoptLong_long hne args).trans (longOption_attached hlong hname harg value args)
    rw [read_option hcall, List.foldlM_cons]
    cases act s (p.val, some value) with
    | error e => rfl
    | ok s => exact ih s
  | @longSeparate name p hlong hname hne harg value args rest opts _ ih =>
    have hcall :=
      (getoptLong_long hne (value :: args)).trans
        (longOption_separate hlong hname harg value args)
    rw [read_option hcall, List.foldlM_cons]
    cases act s (p.val, some value) with
    | error e => rfl
    | ok s => exact ih s

/-! ### From the loop to the grammar -/

/-- A letter that is read is the first of a cluster. -/
theorem cluster_of_shortOption {opts : List Opt} {args'' : List Arg}
    (h : shortOption t c text args = .option o nextchar' args')
    (hrest : Cluster t nextchar' args' opts args'') :
    Cluster t (c :: text) args (o :: opts) args'' := by
  unfold shortOption at h
  split at h
  · cases h
  · rename_i hc
    cases h
    exact .flag hc hrest
  · rename_i hc
    split at h
    · rename_i hvalue
      cases h
      obtain ⟨rfl, rfl⟩ := hrest.of_nil
      exact .attached hc hvalue _
    · rename_i hvalue
      obtain rfl : text = [] := by simpa using hvalue
      cases args with
      | nil => cases h
      | cons value args =>
        cases h
        obtain ⟨rfl, rfl⟩ := hrest.of_nil
        exact .separate hc value _

/-- The text behind the dashes, cut at its first equals sign. -/
theorem cut_equals (text : List Char) :
    '=' ∉ text.takeWhile (· ≠ '=') ∧
      (text.dropWhile (· ≠ '=') = [] ∧ text.takeWhile (· ≠ '=') = text ∨
        ∃ value, text.dropWhile (· ≠ '=') = '=' :: value ∧
          text = text.takeWhile (· ≠ '=') ++ '=' :: value) := by
  induction text with
  | nil => simp
  | cons c text ih =>
    by_cases hc : c = '='
    · subst hc
      simp
    · obtain ⟨hname, hcut⟩ := ih
      simp only [ne_eq, hc, not_false_eq_true, decide_true, List.takeWhile_cons_of_pos,
        List.dropWhile_cons_of_pos, List.mem_cons, not_or, List.cons.injEq, true_and,
        List.cons_append]
      exact ⟨⟨fun heq => hc heq.symm, hname⟩, hcut⟩

/-- A long option that is read is spelled by its argument. -/
theorem spelled_of_longOption (hne : text ≠ [])
    (h : longOption t text args = .option o nextchar' args') :
    nextchar' = [] ∧ ∀ {opts : List Opt} {rest : List Arg}, Spelled t args' opts rest →
      Spelled t (('-' :: '-' :: text) :: args) (o :: opts) rest := by
  obtain ⟨hname, ⟨hdrop, htake⟩ | ⟨value, hdrop, htext⟩⟩ := cut_equals text
  · rw [htake] at hname
    simp only [longOption, htake, hdrop] at h
    cases hlong : t.long text with
    | none => simp only [hlong, reduceCtorEq] at h
    | some p =>
      cases harg : p.hasArg with
      | false =>
        simp only [hlong, harg] at h
        cases h
        exact ⟨rfl, .long hlong hname hne harg⟩
      | true =>
        simp only [hlong, harg] at h
        cases args with
        | nil => cases h
        | cons value args =>
          cases h
          exact ⟨rfl, .longSeparate hlong hname hne harg value⟩
  · simp only [longOption, hdrop] at h
    cases hlong : t.long (text.takeWhile (· ≠ '=')) with
    | none => simp only [hlong, reduceCtorEq] at h
    | some p =>
      cases harg : p.hasArg with
      | false => simp only [hlong, harg, reduceCtorEq] at h
      | true =>
        simp only [hlong, harg] at h
        cases h
        rw [htext]
        exact ⟨rfl, .longAttached hlong hname harg value⟩

/-- One call, read as the grammar's first option. -/
theorem spelled_of_getoptLong {opts₁ opts₂ : List Opt} {args'' : List Arg}
    (h : getoptLong t nextchar args = .option o nextchar' args')
    (hcluster : Cluster t nextchar' args' opts₁ args'') (hrest : Spelled t args'' opts₂ rest) :
    ∃ opts₃ opts₄ args₃, Cluster t nextchar args opts₃ args₃ ∧ Spelled t args₃ opts₄ rest ∧
      opts₃ ++ opts₄ = o :: (opts₁ ++ opts₂) := by
  cases nextchar with
  | cons c text => exact ⟨_, opts₂, args'', cluster_of_shortOption h hcluster, hrest, rfl⟩
  | nil =>
    rcases args with _ | ⟨_ | ⟨c, text⟩, args⟩
    · cases h
    · cases h
    · by_cases hc : c = '-'
      · subst hc
        rcases text with _ | ⟨c, text⟩
        · cases h
        · by_cases hc : c = '-'
          · subst hc
            cases text with
            | nil => cases h
            | cons c text =>
              have hne : c :: text ≠ [] := by simp
              obtain ⟨rfl, hspelled⟩ := spelled_of_longOption hne h
              obtain ⟨rfl, rfl⟩ := hcluster.of_nil
              exact ⟨[], o :: opts₂, _, .nil _, hspelled hrest, rfl⟩
          · rw [getoptLong_dash hc] at h
            have hopts := cluster_of_shortOption h hcluster
            exact ⟨[], (o :: opts₁) ++ opts₂, _, .nil _, .cluster (by simp) hopts hrest, rfl⟩
      · rw [getoptLong_operand (.inl (by simpa using hc))] at h
        cases h

/-- A letter is never the end of the options. -/
theorem shortOption_ne_done : shortOption t c text args ≠ .done rest := by
  intro h
  unfold shortOption at h
  split at h
  · cases h
  · cases h
  · split at h
    · cases h
    · cases args <;> cases h

/-- Nor is a long option. -/
theorem longOption_ne_done : longOption t text args ≠ .done rest := by
  intro h
  unfold longOption at h
  split at h
  · cases h
  · split at h
    · cases h
    · cases h
    · cases h
    · cases args <;> cases h

/-- Where the options end, none is spelled in front of the operands. -/
theorem spelled_of_done (h : getoptLong t nextchar args = .done rest) :
    nextchar = [] ∧ Spelled t args [] rest := by
  cases nextchar with
  | cons c text => exact absurd h shortOption_ne_done
  | nil =>
    refine ⟨rfl, ?_⟩
    rcases args with _ | ⟨_ | ⟨c, text⟩, args⟩
    · cases h
      exact .nothing
    · cases h
      exact .operand (.inl (by simp)) args
    · by_cases hc : c = '-'
      · subst hc
        rcases text with _ | ⟨c, text⟩
        · cases h
          exact .operand (.inr rfl) args
        · by_cases hc : c = '-'
          · subst hc
            cases text with
            | nil =>
              cases h
              exact .dashes _
            | cons c text => exact absurd h longOption_ne_done
          · rw [getoptLong_dash hc] at h
            exact absurd h shortOption_ne_done
      · have harg : (c :: text).head? ≠ some '-' := by simpa using hc
        rw [getoptLong_operand (.inl harg)] at h
        cases h
        exact .operand (.inl harg) _

/-- What is read is spelled: the rest of a cluster, and the options behind it. -/
theorem spelled_of_read (h : read t act unknown s nextchar args = .ok (s', rest)) :
    ∃ opts₁ opts₂ args', Cluster t nextchar args opts₁ args' ∧ Spelled t args' opts₂ rest ∧
      (opts₁ ++ opts₂).foldlM act s = .ok s' := by
  induction hn : size nextchar args using Nat.strongRecOn
    generalizing s nextchar args with
  | _ n ih =>
  cases hcall : getoptLong t nextchar args with
  | done rest' =>
    rw [read_done hcall] at h
    cases h
    obtain ⟨rfl, hspelled⟩ := spelled_of_done hcall
    exact ⟨[], [], args, .nil args, hspelled, rfl⟩
  | unknown =>
    rw [read_unknown hcall] at h
    cases h
  | option o nextchar' args' =>
    rw [read_option hcall] at h
    cases hact : act s o with
    | error e =>
      rw [hact] at h
      cases h
    | ok s₁ =>
      rw [hact] at h
      obtain ⟨opts₁, opts₂, args'', hcluster, hspelled, hfold⟩ :=
        ih _ (hn ▸ size_getoptLong hcall) h rfl
      obtain ⟨opts₃, opts₄, args₃, hcluster, hspelled, hopts⟩ :=
        spelled_of_getoptLong hcall hcluster hspelled
      refine ⟨opts₃, opts₄, args₃, hcluster, hspelled, ?_⟩
      rw [hopts, List.foldlM_cons, hact]
      exact hfold

/-- The loop accepts what the grammar spells, acts on the options in their order and leaves the
rest. -/
theorem read_eq_ok_iff (hdash : t.short '-' = none) :
    read t act unknown s [] args = .ok (s', rest) ↔
      ∃ opts, Spelled t args opts rest ∧ opts.foldlM act s = .ok s' := by
  constructor
  · intro h
    obtain ⟨opts₁, opts₂, args', hcluster, hspelled, hfold⟩ := spelled_of_read h
    obtain ⟨rfl, rfl⟩ := hcluster.of_nil
    exact ⟨opts₂, hspelled, hfold⟩
  · rintro ⟨opts, hspelled, hfold⟩
    rw [hspelled.read_eq hdash, hfold]
    rfl

/-! ## The options that are returned -/

/-- An option of the tables, with its argument if it has one. -/
def Table.Knows (t : Table) (o : Opt) : Prop :=
  t.short o.1 = some o.2.isSome ∨ ∃ p ∈ t.longOptions, p.val = o.1 ∧ p.hasArg = o.2.isSome

/-- A letter that is known is in the option string. -/
theorem Table.mem_of_short {b : Bool} (h : t.short c = some b) : c ∈ t.shortOptions := by
  by_contra hmem
  have hdrop : t.shortOptions.dropWhile (· ≠ c) = [] := by
    apply List.dropWhile_eq_nil_iff.mpr
    intro d hd
    exact decide_eq_true fun heq => hmem (heq ▸ hd)
  rw [Table.short, hdrop] at h
  split at h <;> cases h

/-- A long option that is found is in the table. -/
theorem Table.mem_of_long {name : List Char} {p : LongOption} (h : t.long name = some p) :
    p ∈ t.longOptions := by
  unfold Table.long at h
  split at h
  · rename_i q hfind
    cases h
    exact List.mem_of_find?_eq_some hfind
  · split at h
    · rename_i q hfilter
      cases h
      have hmem : p ∈ t.longOptions.filter fun q => name.isPrefixOf q.name := by simp [hfilter]
      exact (List.mem_filter.mp hmem).1
    · cases h

/-- A cluster spells known options only. -/
theorem Cluster.knows (h : Cluster t text args opts rest) : ∀ o ∈ opts, t.Knows o := by
  induction h with
  | nil args => simp
  | flag hc _ ih => exact List.forall_mem_cons.mpr ⟨.inl hc, ih⟩
  | attached hc hvalue args => exact List.forall_mem_singleton.mpr (.inl hc)
  | separate hc value args => exact List.forall_mem_singleton.mpr (.inl hc)

/-- So does a command line. -/
theorem Spelled.knows (h : Spelled t args opts rest) : ∀ o ∈ opts, t.Knows o := by
  induction h with
  | nothing => simp
  | operand harg args => simp
  | dashes args => simp
  | cluster hne hcluster _ ih =>
    intro o ho
    rcases List.mem_append.mp ho with ho | ho
    · exact hcluster.knows o ho
    · exact ih o ho
  | long hlong hname hne harg _ ih =>
    exact List.forall_mem_cons.mpr ⟨.inr ⟨_, Table.mem_of_long hlong, rfl, harg⟩, ih⟩
  | longAttached hlong hname harg value _ ih =>
    exact List.forall_mem_cons.mpr ⟨.inr ⟨_, Table.mem_of_long hlong, rfl, harg⟩, ih⟩
  | longSeparate hlong hname hne harg value _ ih =>
    exact List.forall_mem_cons.mpr ⟨.inr ⟨_, Table.mem_of_long hlong, rfl, harg⟩, ih⟩

end

end Utrace.Getopt
