import Mathlib.Data.List.Infix
import Tern.CommandLine
import Tern.Files.Tree
import Tern.Proofs.Decimal.Count
import Tern.Yaml.Reader

/-!
# Configurations that load

A configuration comes from three sources: the variables, the entries of the nearest file, and the
usual values, in this order. It loads if and only if the file is a mapping of known keys to values
of their types and the variable for the call depth is absent, blank or a small enough number in
digits. A value that the variables hide still has to be right. The call depth that comes out is one
that a session takes as it is.

* `Config.Nearest`: the file of the nearest directory at or above another;
* `Config.Contents`, `Config.Accepted`: the entries of a file, and those that may stand there;
* `Config.Asks`: the call depths that the variable can ask for;
* `Config.Resolves`: the configuration that the three sources make;
* `Config.load_resolves`: loading gives that configuration exactly where there is one.
-/

namespace Tern

/-- A tree as a file system that nothing changes. -/
def FileTree.view (directory : Path) (t : FileTree) : Files Id where
  directory := directory
  kind? := t.kind?
  read := t.read directory
  write _ _ := .ok ()

namespace Config

/-! ## The three sources -/

/-- The directory where the search starts: a path to a file stands for the directory it lies in. -/
def base (files : Files Id) (start : Path) : Path :=
  if (files.kind? start).run = some .file then start.tail else start

/-- The configuration file of the nearest directory at or above another, if any of them has one. A
directory of that name is none. -/
inductive Nearest (files : Files Id) (directory : Path) : Option Path → Prop where
  | found {above : Path} (hAbove : above <:+ directory)
      (hFile : files.kind? (fileName :: above) = some .file)
      (hCloser : ∀ closer, closer <:+ directory → above.length < closer.length →
        files.kind? (fileName :: closer) ≠ some .file) : Nearest files directory (fileName :: above)
  | missing (hNone : ∀ above, above <:+ directory →
      files.kind? (fileName :: above) ≠ some .file) : Nearest files directory none

/-- The entries of a configuration file, as the reader of the format finds them. Without a file
there are none, and a file that stands for nothing has none either. -/
inductive Contents (parse : String → Option Yaml) (files : Files Id) :
    Option Path → List (String × Yaml) → Prop where
  | missing : Contents parse files none []
  | empty {path : Path} {text : String} (hRead : files.read path.text = .ok text)
      (hText : parse text = some .null) : Contents parse files path []
  | mapping {path : Path} {text : String} {entries : List (String × Yaml)}
      (hRead : files.read path.text = .ok text)
      (hText : parse text = some (.mapping entries)) : Contents parse files path entries

/-- A number that is a call depth: whole, positive and at most a thousand. -/
def IsDepth (value : Yaml) (n : Nat) : Prop :=
  ∃ x, value = .number x ∧ Number.toInt? x = some (n : ℤ) ∧ 1 ≤ n ∧ n ≤ 1000

/-- The entries that may stand in a configuration file: known keys with values of their types. -/
inductive Accepted : String × Yaml → Prop where
  | depth {value : Yaml} {n : Nat} (h : IsDepth value n) : Accepted ("max_call_depth", value)
  | prompt (s : String) : Accepted ("prompt", .string s)
  | debug (b : Bool) : Accepted ("debug", .bool b)

/-- The call depth that the variable asks for, if it asks for one. It is absent or blank, or it
spells a number from one to a thousand in decimal digits between blanks. -/
inductive Asks (given : String → Option String) : Option Nat → Prop where
  | unset (h : given "TERN_MAX_CALL_DEPTH" = none) : Asks given none
  | blank {text : String} (h : given "TERN_MAX_CALL_DEPTH" = some text)
      (hBlank : Text.trim text = "") : Asks given none
  | digits {text : String} {n : Nat} (h : given "TERN_MAX_CALL_DEPTH" = some text)
      (hSome : Text.trim text ≠ "") (hDigits : ∀ c ∈ (Text.trim text).toList, isDigit c = true)
      (hValue : Decimal.valueOfDigits (Text.trim text).toList = n) (hPos : 1 ≤ n)
      (hMax : n ≤ 1000) : Asks given (some n)

/-- The value of a key. Of two entries with one key the last counts. -/
def valueOf (entries : List (String × Yaml)) (key : String) : Option Yaml :=
  entries.reverse.lookup key

/-- What is taken of three sources: what was asked for, else what the file says, else the usual. -/
def Takes {α : Type} (asked : Option α) (written : Option Yaml) (Says : Yaml → α → Prop)
    (usual result : α) : Prop :=
  match asked, written with
  | some a, _ => result = a
  | none, some value => Says value result
  | none, none => result = usual

/-- The configuration that the variables, the entries of a file and the usual values make. -/
structure Resolves (given : String → Option String) (site : Option Path)
    (entries : List (String × Yaml)) (c : Config) : Prop where
  path : c.path = site.map Path.text
  depth : ∃ asked, Asks given asked ∧
    Takes asked (valueOf entries "max_call_depth") IsDepth defaultCallDepth c.maxCallDepth
  prompt : Takes none (valueOf entries "prompt") (fun value s => value = .string s) "tern> " c.prompt
  debug : Takes ((given "TERN_DEBUG").map Logger.isFlagOn) (valueOf entries "debug")
    (fun value b => value = .bool b) false c.debug

/-! ## Results -/

section

variable {ε α β : Type}

theorem map_eq_ok {x : Except ε α} {f : α → β} {b : β} :
    x.map f = .ok b ↔ ∃ a, x = .ok a ∧ f a = b := by
  cases x <;> simp [Except.map]

theorem bind_eq_ok {x : Except ε α} {f : α → Except ε β} {b : β} :
    x.bind f = .ok b ↔ ∃ a, x = .ok a ∧ f a = .ok b := by
  cases x <;> simp [Except.bind]

end

/-! ## Searching -/

theorem findFrom_nil (files : Files Id) : (findFrom files []).run =
    if (files.kind? [fileName]).run = some .file then some [fileName] else none := by
  unfold findFrom
  generalize files.kind? [fileName] = kind
  rcases kind with _ | _ | _ <;> rfl

theorem findFrom_cons (files : Files Id) (name : String) (above : Path) :
    (findFrom files (name :: above)).run =
      if (files.kind? (fileName :: name :: above)).run = some .file then
        some (fileName :: name :: above)
      else (findFrom files above).run := by
  conv_lhs => unfold findFrom
  generalize files.kind? (fileName :: name :: above) = kind
  rcases kind with _ | _ | _ <;> rfl

theorem nearest_of_file {files : Files Id} {directory : Path}
    (hFile : files.kind? (fileName :: directory) = some .file) :
    Nearest files directory (some (fileName :: directory)) := by
  refine .found List.suffix_rfl hFile fun closer hCloser hLonger => ?_
  exact absurd hCloser.length_le (Nat.not_le.mpr hLonger)

/-- A directory without the file leaves the choice to those above it. -/
theorem Nearest.below {files : Files Id} {name : String} {above : Path} {site : Option Path}
    (h : Nearest files above site) (hNone : files.kind? (fileName :: name :: above) ≠ some .file) :
    Nearest files (name :: above) site := by
  have hAbove : ∀ {closer : Path}, closer <:+ name :: above →
      files.kind? (fileName :: closer) = some .file → closer <:+ above := by
    intro closer hCloser hFile
    refine (List.suffix_cons_iff.mp hCloser).resolve_left fun hHere => hNone ?_
    rw [← hHere]
    exact hFile
  cases h with
  | found hThere hFile hCloser =>
    refine .found (hThere.trans (List.suffix_cons name above)) hFile fun closer hc hLonger hHas => ?_
    exact hCloser closer (hAbove hc hHas) hLonger hHas
  | missing hThere => exact .missing fun closer hc hHas => hThere closer (hAbove hc hHas) hHas

theorem nearest_findFrom (files : Files Id) (directory : Path) :
    Nearest files directory (findFrom files directory).run := by
  induction directory with
  | nil =>
    rw [findFrom_nil]
    split
    · next hFile => exact nearest_of_file hFile
    · next hNone =>
      refine .missing fun above hAbove => ?_
      rw [List.suffix_nil.mp hAbove]
      exact hNone
  | cons name above ih =>
    rw [findFrom_cons]
    split
    · next hFile => exact nearest_of_file hFile
    · next hNone => exact ih.below hNone

theorem nearest_find (files : Files Id) (start : Path) :
    Nearest files (base files start) (find files start).run := by
  have hFind : (find files start).run = (findFrom files (base files start)).run := by
    unfold find base
    generalize files.kind? start = kind
    rcases kind with _ | _ | _ <;> rfl
  rw [hFind]
  exact nearest_findFrom files _

/-! ## Values -/

theorem depthOf_eq_ok {origin : DepthOrigin} {x : Float} {n : Nat} :
    depthOf origin x = .ok n ↔ Number.toInt? x = some (n : ℤ) ∧ 1 ≤ n ∧ n ≤ 1000 := by
  unfold depthOf
  constructor
  · intro h
    split at h
    · next k hk =>
      split_ifs at h with hMax
      cases h
      exact ⟨hk, Nat.le_add_left 1 k, hMax⟩
    · cases h
  · rintro ⟨hInt, hPos, hMax⟩
    obtain ⟨k, rfl⟩ : ∃ k, n = k + 1 := ⟨n - 1, by omega⟩
    rw [hInt]
    exact if_pos hMax

theorem depthOfYaml_eq_ok {origin : DepthOrigin} {value : Yaml} {n : Nat} :
    depthOfYaml origin value = .ok n ↔ IsDepth value n := by
  cases value with
  | number x =>
    rw [depthOfYaml, depthOf_eq_ok]
    exact ⟨fun h => ⟨x, rfl, h⟩, fun ⟨_, hSame, h⟩ => by cases hSame; exact h⟩
  | _ => exact iff_of_false nofun fun ⟨_, hSame, _⟩ => by cases hSame

/-! ## Entries -/

theorem valueOf_cons (entry : String × Yaml) (entries : List (String × Yaml)) (key : String) :
    valueOf (entry :: entries) key = (valueOf entries key).or (valueOf [entry] key) := by
  rw [valueOf, List.reverse_cons, List.lookup_append]
  rfl

/-- What entries make of a configuration. -/
structure Fills (entries : List (String × Yaml)) (c c' : Config) : Prop where
  path : c'.path = c.path
  depth : Takes none (valueOf entries "max_call_depth") IsDepth c.maxCallDepth c'.maxCallDepth
  prompt : Takes none (valueOf entries "prompt") (fun value s => value = .string s) c.prompt c'.prompt
  debug : Takes none (valueOf entries "debug") (fun value b => value = .bool b) c.debug c'.debug

theorem Takes.or {α : Type} {first second : Option Yaml} {Says : Yaml → α → Prop} {x y z : α}
    (h : Takes none first Says x y) (h' : Takes none second Says y z) :
    Takes none (second.or first) Says x z := by
  cases second with
  | some value => exact h'
  | none =>
    obtain rfl : z = y := h'
    exact h

theorem Fills.cons {entry : String × Yaml} {entries : List (String × Yaml)} {c c' c'' : Config}
    (h : Fills [entry] c c') (h' : Fills entries c' c'') : Fills (entry :: entries) c c'' := by
  constructor
  · rw [h'.path, h.path]
  all_goals rw [valueOf_cons]
  · exact h.depth.or h'.depth
  · exact h.prompt.or h'.prompt
  · exact h.debug.or h'.debug

theorem set_eq_ok {path : String} {c c' : Config} {key : String} {value : Yaml}
    (h : set path c key value = .ok c') : Accepted (key, value) ∧ Fills [(key, value)] c c' := by
  unfold set at h
  split_ifs at h with hDepth hPrompt hDebug
  · subst hDepth
    obtain ⟨n, hValue, rfl⟩ := map_eq_ok.mp h
    have hDepth := depthOfYaml_eq_ok.mp hValue
    exact ⟨.depth hDepth, rfl, hDepth, rfl, rfl⟩
  · subst hPrompt
    split at h
    · cases h
      exact ⟨.prompt _, rfl, rfl, rfl, rfl⟩
    · cases h
  · subst hDebug
    split at h
    · cases h
      exact ⟨.debug _, rfl, rfl, rfl, rfl⟩
    · cases h

theorem exists_set {path : String} {entry : String × Yaml} (h : Accepted entry) (c : Config) :
    ∃ c', set path c entry.1 entry.2 = .ok c' := by
  cases h with
  | depth h =>
    unfold set
    rw [if_pos rfl, depthOfYaml_eq_ok.mpr h]
    exact ⟨_, rfl⟩
  | prompt s => exact ⟨{ c with prompt := s }, rfl⟩
  | debug b => exact ⟨{ c with debug := b }, rfl⟩

theorem setAll_eq_ok {path : String} {c c' : Config} {entries : List (String × Yaml)}
    (h : setAll path c entries = .ok c') : (∀ e ∈ entries, Accepted e) ∧ Fills entries c c' := by
  induction entries generalizing c with
  | nil =>
    cases h
    exact ⟨nofun, rfl, rfl, rfl, rfl⟩
  | cons entry entries ih =>
    obtain ⟨next, hSet, hSetAll⟩ := bind_eq_ok.mp h
    obtain ⟨hEntry, hFills⟩ := set_eq_ok hSet
    obtain ⟨hEntries, hRest⟩ := ih hSetAll
    exact ⟨List.forall_mem_cons.mpr ⟨hEntry, hEntries⟩, hFills.cons hRest⟩

theorem exists_setAll {path : String} {entries : List (String × Yaml)}
    (h : ∀ e ∈ entries, Accepted e) (c : Config) : ∃ c', setAll path c entries = .ok c' := by
  induction entries generalizing c with
  | nil => exact ⟨c, rfl⟩
  | cons entry entries ih =>
    obtain ⟨hEntry, hEntries⟩ := List.forall_mem_cons.mp h
    obtain ⟨next, hSet⟩ := exists_set hEntry c
    obtain ⟨c', hRest⟩ := ih hEntries next
    exact ⟨c', bind_eq_ok.mpr ⟨next, hSet, hRest⟩⟩

/-! ## Variables -/

/-- Digits spell the number that they are read as, however many they are, as far as small numbers
go. -/
theorem depthOf_digits {cs : List Char} {n : Nat} :
    depthOf .environment (Decimal.ofDigits false cs [] 0).toFloat = .ok n ↔
      Decimal.valueOfDigits cs = n ∧ 1 ≤ n ∧ n ≤ 1000 := by
  have hDecimal : Decimal.ofDigits false cs [] 0 = .ofNat (Decimal.valueOfDigits cs) := by
    rw [Decimal.ofDigits, List.append_nil]
    rfl
  have hBound : Decimal.exactBound = 9007199254740992 := rfl
  rw [depthOf_eq_ok, hDecimal]
  by_cases hMax : n ≤ 1000
  · rw [Decimal.toInt_ofNat_iff (by omega)]
  · exact iff_of_false (fun h => hMax h.2.2) (fun h => hMax h.2.2)

theorem digits_eq_some {text : String} {x : Float} :
    digits? text = some x ↔ text ≠ "" ∧ (∀ c ∈ text.toList, isDigit c = true) ∧
      (Decimal.ofDigits false text.toList [] 0).toFloat = x := by
  unfold digits?
  rw [Option.ite_none_right_eq_some, Option.some.injEq, Bool.and_eq_true, decide_eq_true_eq,
    List.all_eq_true, and_assoc, Ne, Ne, String.toList_eq_nil_iff]

/-- A variable that is not blank asks for the number that it spells in digits. -/
theorem depthVariable_eq_ok {text : String} {asked : Option Nat} (h : Text.trim text ≠ "") :
    depthVariable? text = .ok asked ↔ (∀ c ∈ (Text.trim text).toList, isDigit c = true) ∧
      ∃ n, Decimal.valueOfDigits (Text.trim text).toList = n ∧ 1 ≤ n ∧ n ≤ 1000 ∧ asked = some n := by
  unfold depthVariable?
  dsimp only
  rw [if_neg h]
  cases hText : digits? (Text.trim text) with
  | none =>
    refine iff_of_false nofun fun hDigits => ?_
    rw [digits_eq_some.mpr ⟨h, hDigits.1, rfl⟩] at hText
    cases hText
  | some x =>
    obtain ⟨-, hDigits, rfl⟩ := digits_eq_some.mp hText
    rw [and_iff_right hDigits]
    refine map_eq_ok.trans ⟨?_, ?_⟩
    · rintro ⟨n, hNumber, rfl⟩
      obtain ⟨hValue, hPos, hMax⟩ := depthOf_digits.mp hNumber
      exact ⟨n, hValue, hPos, hMax, rfl⟩
    · rintro ⟨n, hValue, hPos, hMax, rfl⟩
      exact ⟨n, depthOf_digits.mpr ⟨hValue, hPos, hMax⟩, rfl⟩

/-- The call depth that the variables ask for. -/
def asked? (given : String → Option String) : Except ConfigError (Option Nat) :=
  match given depthVariable with
  | some text => depthVariable? text
  | none => .ok none

theorem asked_eq_ok {given : String → Option String} {asked : Option Nat} :
    asked? given = .ok asked ↔ Asks given asked := by
  constructor
  · intro h
    unfold asked? at h
    split at h
    · next text hGiven =>
      by_cases hBlank : Text.trim text = ""
      · rw [depthVariable?, if_pos hBlank] at h
        cases h
        exact .blank hGiven hBlank
      · obtain ⟨hDigits, n, hValue, hPos, hMax, rfl⟩ := (depthVariable_eq_ok hBlank).mp h
        exact .digits hGiven hBlank hDigits hValue hPos hMax
    · next hGiven =>
      cases h
      exact .unset hGiven
  · intro h
    cases h with
    | unset hGiven => rw [asked?, depthVariable, hGiven]
    | blank hGiven hBlank =>
      rw [asked?, depthVariable, hGiven]
      exact if_pos hBlank
    | digits hGiven hSome hDigits hValue hPos hMax =>
      rw [asked?, depthVariable, hGiven]
      exact (depthVariable_eq_ok hSome).mpr ⟨hDigits, _, hValue, hPos, hMax, rfl⟩

theorem Asks.unique {given : String → Option String} {asked asked' : Option Nat}
    (h : Asks given asked) (h' : Asks given asked') : asked = asked' :=
  Except.ok.inj ((asked_eq_ok.mpr h).symm.trans (asked_eq_ok.mpr h'))

/-- A configuration with what the variables ask for in the place of what it has. -/
def overridden (given : String → Option String) (asked : Option Nat) (c : Config) : Config :=
  { c with
    maxCallDepth := asked.getD c.maxCallDepth
    debug := ((given debugVariable).map Logger.isFlagOn).getD c.debug }

theorem override_eq (given : String → Option String) (c : Config) :
    override given c = (asked? given).map (overridden given · c) := by
  unfold override asked?
  cases given depthVariable with
  | none => rfl
  | some text =>
    dsimp only
    cases depthVariable? text <;> rfl

/-- What the variables do not ask for is as the file says, or as it is without one. -/
theorem resolves_overridden {given : String → Option String} {site : Option Path}
    {entries : List (String × Yaml)} {c : Config} {asked : Option Nat} (h : Asks given asked)
    (hFills : Fills entries { Config.default with path := site.map Path.text } c) :
    Resolves given site entries (overridden given asked c) where
  path := hFills.path
  depth := by
    refine ⟨asked, h, ?_⟩
    cases asked with
    | none => exact hFills.depth
    | some n => exact rfl
  prompt := hFills.prompt
  debug := by
    unfold overridden debugVariable
    cases given "TERN_DEBUG" with
    | none => exact hFills.debug
    | some text => exact rfl

/-! ## Loading -/

section

variable {parse : String → Option Yaml}

theorem Contents.unique {files : Files Id} {site : Option Path}
    {entries entries' : List (String × Yaml)} (h : Contents parse files site entries)
    (h' : Contents parse files site entries') : entries = entries' := by
  cases h with
  | missing =>
    cases h'
    rfl
  | empty hRead hText =>
    cases h' with
    | empty => rfl
    | mapping hRead' hText' =>
      cases hRead.symm.trans hRead'
      cases hText.symm.trans hText'
  | mapping hRead hText =>
    cases h' with
    | empty hRead' hText' =>
      cases hRead.symm.trans hRead'
      cases hText.symm.trans hText'
    | mapping hRead' hText' =>
      cases hRead.symm.trans hRead'
      cases hText.symm.trans hText'
      rfl

/-- The configuration that the entries of a file make. -/
def filled (site : Option Path) (entries : List (String × Yaml)) : Except ConfigError Config :=
  let path := site.map Path.text
  setAll (path.getD "") { Config.default with path := path } entries

theorem ofYaml_eq_ok {path : Path} {value : Yaml} {c : Config} :
    ofYaml path.text value = .ok c ↔ ∃ entries,
      (value = .null ∧ entries = [] ∨ value = .mapping entries) ∧
        filled path entries = .ok c := by
  cases value with
  | null => exact ⟨fun h => ⟨[], .inl ⟨rfl, rfl⟩, h⟩, by rintro ⟨_, ⟨-, rfl⟩ | ⟨⟨⟩⟩, h⟩; exact h⟩
  | mapping entries =>
    exact ⟨fun h => ⟨entries, .inr rfl, h⟩, by rintro ⟨_, ⟨⟨⟩, -⟩ | ⟨⟨⟩⟩, h⟩; exact h⟩
  | _ => exact iff_of_false nofun (by rintro ⟨_, ⟨⟨⟩, -⟩ | ⟨⟨⟩⟩, -⟩)

theorem read_of_ok {files : Files Id} {path : Path} {text : String}
    (h : files.read path.text = .ok text) : (read parse files path).run = ofText parse path.text text := by
  unfold read
  rw [h]
  rfl

theorem read_of_error {files : Files Id} {path : Path} {e : FileError}
    (h : files.read path.text = .error e) :
    (read parse files path).run = .error (.unreadable path.text) := by
  unfold read
  rw [h]
  rfl

theorem ofText_of_some {path text : String} {value : Yaml} (h : parse text = some value) :
    ofText parse path text = ofYaml path value := by
  rw [ofText, h]

/-- A file gives a configuration if and only if it has entries that make it. -/
theorem read_eq_ok {files : Files Id} {path : Path} {c : Config} :
    (read parse files path).run = .ok c ↔
      ∃ entries, Contents parse files path entries ∧ filled path entries = .ok c := by
  constructor
  · intro h
    rcases hRead : files.read path.text with e | text
    · rw [read_of_error hRead] at h
      cases h
    · rw [read_of_ok hRead] at h
      cases hValue : parse text with
      | none =>
        rw [ofText, hValue] at h
        cases h
      | some value =>
        rw [ofText_of_some hValue] at h
        obtain ⟨entries, ⟨rfl, rfl⟩ | rfl, hFilled⟩ := ofYaml_eq_ok.mp h
        · exact ⟨[], .empty hRead hValue, hFilled⟩
        · exact ⟨entries, .mapping hRead hValue, hFilled⟩
  · rintro ⟨entries, hContents, h⟩
    cases hContents with
    | empty hRead hValue => rwa [read_of_ok hRead, ofText_of_some hValue]
    | mapping hRead hValue => rwa [read_of_ok hRead, ofText_of_some hValue]

theorem load_eq (files : Files Id) (given : String → Option String) (start : Path) :
    (load parse files given start).run = match (find files start).run with
      | none => override given Config.default
      | some path => (read parse files path).run.bind (override given) := by
  unfold load
  generalize find files start = site
  cases site <;> rfl

theorem load_eq_ok {files : Files Id} {given : String → Option String} {start : Path} {c : Config} :
    (load parse files given start).run = .ok c ↔ ∃ entries c' asked,
      Contents parse files (find files start).run entries ∧
        filled (find files start).run entries = .ok c' ∧ Asks given asked ∧
        overridden given asked c' = c := by
  rw [load_eq]
  generalize (find files start).run = site
  have hOverride {c' : Config} : override given c' = .ok c ↔
      ∃ asked, Asks given asked ∧ overridden given asked c' = c := by
    simp only [override_eq, map_eq_ok, asked_eq_ok]
  cases site with
  | none =>
    dsimp only
    rw [hOverride]
    constructor
    · rintro ⟨asked, hAsks, hSame⟩
      exact ⟨[], _, asked, .missing, rfl, hAsks, hSame⟩
    · rintro ⟨entries, c', asked, hContents, hFilled, hAsks, hSame⟩
      cases hContents
      cases hFilled
      exact ⟨asked, hAsks, hSame⟩
  | some path =>
    refine bind_eq_ok.trans ⟨?_, ?_⟩
    · rintro ⟨c', hRead, h⟩
      obtain ⟨entries, hContents, hFilled⟩ := read_eq_ok.mp hRead
      obtain ⟨asked, hAsks, hSame⟩ := hOverride.mp h
      exact ⟨entries, c', asked, hContents, hFilled, hAsks, hSame⟩
    · rintro ⟨entries, c', asked, hContents, hFilled, hAsks, hSame⟩
      exact ⟨c', read_eq_ok.mpr ⟨entries, hContents, hFilled⟩, hOverride.mpr ⟨asked, hAsks, hSame⟩⟩

theorem Resolves.bounds {given : String → Option String} {site : Option Path}
    {entries : List (String × Yaml)} {c : Config} (h : Resolves given site entries c) :
    1 ≤ c.maxCallDepth ∧ c.maxCallDepth ≤ 1000 := by
  obtain ⟨asked, hAsks, hTakes⟩ := h.depth
  cases asked with
  | some n =>
    cases hAsks with
    | digits _ _ _ _ hPos hMax =>
      rw [show c.maxCallDepth = n from hTakes]
      exact ⟨hPos, hMax⟩
  | none =>
    cases hValue : valueOf entries "max_call_depth" with
    | some value =>
      rw [hValue] at hTakes
      obtain ⟨x, -, -, hBounds⟩ := hTakes
      exact hBounds
    | none =>
      rw [hValue] at hTakes
      rw [show c.maxCallDepth = defaultCallDepth from hTakes]
      decide

/-- A session takes a call depth up to a thousand as it is. -/
theorem callDepthOf_ofNat {n : Nat} (hPos : 1 ≤ n) (hMax : n ≤ 1000) :
    callDepthOf (Number.ofNat n) = .ok n := by
  have hBound : Decimal.exactBound = 9007199254740992 := rfl
  obtain ⟨k, rfl⟩ : ∃ k, n = k + 1 := ⟨n - 1, by omega⟩
  have hInt := (Decimal.toInt_ofNat_iff (n := k + 1) (k := k + 1) (by omega)).mpr rfl
  rw [callDepthOf, Number.ofNat, hInt]
  exact congrArg Except.ok (Nat.min_eq_left hMax)

/-- However the format is read: loading takes the file of the nearest directory that has one, gives
a configuration if and only if the entries of that file and the variable for the call depth are
right, and then gives what the sources make, with a call depth that a session takes as it is. -/
theorem load_resolves (parse : String → Option Yaml) (files : Files Id)
    (given : String → Option String) (start : Path) :
    Nearest files (base files start) (find files start).run ∧
    ((∃ c, (load parse files given start).run = .ok c) ↔
      ∃ entries, Contents parse files (find files start).run entries ∧ (∀ e ∈ entries, Accepted e) ∧
        ∃ asked, Asks given asked) ∧
    ∀ entries c, Contents parse files (find files start).run entries →
      (load parse files given start).run = .ok c →
      Resolves given (find files start).run entries c ∧
      callDepthOf (Number.ofNat c.maxCallDepth) = .ok c.maxCallDepth ∧
      ∀ input, (CommandLine.openSession c input).settings.maxCallDepth = c.maxCallDepth := by
  refine ⟨nearest_find files start, ⟨?_, ?_⟩, ?_⟩
  · rintro ⟨c, h⟩
    obtain ⟨entries, c', asked, hContents, hFilled, hAsks, -⟩ := load_eq_ok.mp h
    exact ⟨entries, hContents, (setAll_eq_ok hFilled).1, asked, hAsks⟩
  · rintro ⟨entries, hContents, hAccepted, asked, hAsks⟩
    obtain ⟨c', hFilled⟩ := exists_setAll hAccepted _
    exact ⟨_, load_eq_ok.mpr ⟨entries, c', asked, hContents, hFilled, hAsks, rfl⟩⟩
  · intro entries c hContents h
    obtain ⟨entries', c', asked, hContents', hFilled, hAsks, rfl⟩ := load_eq_ok.mp h
    obtain rfl := hContents.unique hContents'
    have hResolves := resolves_overridden hAsks (setAll_eq_ok hFilled).2
    obtain ⟨hPos, hMax⟩ := hResolves.bounds
    exact ⟨hResolves, callDepthOf_ofNat hPos hMax, fun _ => rfl⟩

end

/-! ## File trees -/

theorem kind_files (directory : Path) (t : FileTree) (p : Path) :
    ((FileTree.files directory).kind? p).run t = (t.kind? p, t) := rfl

theorem kind_view (directory : Path) (t : FileTree) (p : Path) :
    (t.view directory).kind? p = t.kind? p := rfl

theorem findFrom_files (directory base : Path) (t : FileTree) :
    (findFrom (FileTree.files directory) base).run t =
      ((findFrom (t.view directory) base).run, t) := by
  induction base with
  | nil =>
    rw [findFrom, findFrom, StateT.run_bind, kind_files, kind_view]
    rcases t.kind? [fileName] with _ | _ | _ <;> rfl
  | cons name above ih =>
    rw [findFrom, findFrom, StateT.run_bind, kind_files, kind_view]
    rcases t.kind? (fileName :: name :: above) with _ | _ | _
    · exact ih
    · rfl
    · exact ih

theorem find_files (directory start : Path) (t : FileTree) :
    (find (FileTree.files directory) start).run t = ((find (t.view directory) start).run, t) := by
  rw [find, find, StateT.run_bind, kind_files, kind_view]
  rcases t.kind? start with _ | _ | _ <;> exact findFrom_files directory _ t

theorem read_files (parse : String → Option Yaml) (directory path : Path) (t : FileTree) :
    (read parse (FileTree.files directory) path).run t =
      ((read parse (t.view directory) path).run, t) := by
  have hFiles : ((FileTree.files directory).read path.text).run t =
      (t.read directory path.text, t) := rfl
  have hView : (t.view directory).read path.text = t.read directory path.text := rfl
  rw [read, read, StateT.run_bind, hFiles, hView]
  rcases t.read directory path.text with _ | _ <;> rfl

/-- Loading from a tree leaves the tree as it is. -/
theorem load_files (parse : String → Option Yaml) (directory : Path) (t : FileTree)
    (given : String → Option String) (start : Path) :
    (load parse (FileTree.files directory) given start).run t =
      ((load parse (t.view directory) given start).run, t) := by
  rw [load, load, StateT.run_bind, find_files]
  generalize find (t.view directory) start = site
  rcases site with _ | path
  · rfl
  · change StateT.run (read parse (FileTree.files directory) path >>= fun c =>
      pure (c.bind (override given))) t = _
    rw [StateT.run_bind, read_files]
    rfl

/-! ## A hidden value -/

/-- A tree that has a directory with the name of the file below the file. -/
def hidingTree : FileTree where
  entries :=
    [(["main.tern", "work", "home"], .file ""), (["tern.yml", "work", "home"], .directory),
      (["tern.yml", "home"], .file "debug: true\nmax_call_depth: 7\n")]

/-- A variable that hides the call depth of a file. -/
def hidingVariable (name : String) : Option String :=
  if name = "TERN_MAX_CALL_DEPTH" then some " 0042\n" else none

/-- The nearest directory has no file of that name, and the file above gives a call depth that the
variable hides. -/
theorem load_resolves_hidden : ∃ entries c,
    c = Config.mk (some "/home/tern.yml") 42 "tern> " true ∧
      Contents Yaml.parse? (hidingTree.view []) (some ["tern.yml", "home"]) entries ∧
      (load Yaml.parse? (hidingTree.view []) hidingVariable ["main.tern", "work", "home"]).run = .ok c ∧
      Resolves hidingVariable (some ["tern.yml", "home"]) entries c ∧
      callDepthOf (Number.ofNat 42) = .ok 42 := by
  obtain ⟨-, hLoads, hResolves⟩ :=
    load_resolves Yaml.parse? (hidingTree.view []) hidingVariable ["main.tern", "work", "home"]
  have hFind : (find (hidingTree.view []) ["main.tern", "work", "home"]).run =
      some ["tern.yml", "home"] := by
    decide +kernel
  rw [hFind] at hLoads hResolves
  have hSome : (load Yaml.parse? (hidingTree.view []) hidingVariable ["main.tern", "work", "home"]).run.toOption =
      some ⟨some "/home/tern.yml", 42, "tern> ", true⟩ := by
    decide +kernel
  cases hLoad : (load Yaml.parse? (hidingTree.view []) hidingVariable ["main.tern", "work", "home"]).run with
  | error e =>
    rw [hLoad] at hSome
    cases hSome
  | ok c =>
    rw [hLoad] at hSome
    obtain ⟨entries, hContents, -⟩ := hLoads.mp ⟨c, hLoad⟩
    obtain ⟨hFields, hDepth, -⟩ := hResolves entries c hContents hLoad
    obtain rfl := Option.some.inj hSome
    exact ⟨entries, _, rfl, hContents, rfl, hFields, hDepth⟩

end Config

end Tern
