import Unid.Lib.Text

/-!
# Environment variables

`Utility::get_environment_variable` of `utility.hpp` hands the start of its key
view to `getenv`, which reads a C string from there: the view's own characters and
then whatever follows them in memory, up to the first NUL.  The environment is a
list of texts `NAME=VALUE`, and `getenv` looks for one that begins with what it has
read and a `=`, as in glibc; it does not ask whether that is a name.  The value goes
through `>>` of a string stream, which for a string reads one word; when the
extraction fails, the default is returned as if the variable were not set.

## Main definitions

* `Environment` — names and values, with `set` for `setenv`.
* `Environment.getenv` — the search for a text.
* `StringView` — a view, with the bytes that follow it.
* `getEnvironmentVariable` — the function, for any type that `>>` can extract.
* `Faithful` — the result for a view is the value of the variable it names.
-/

namespace Unid.Common
open Lib

/-- What `setenv` accepts as a name. -/
def IsEnvName (name : List Char) : Prop := name ≠ [] ∧ nul ∉ name ∧ '=' ∉ name

instance (name : List Char) : Decidable (IsEnvName name) := inferInstanceAs (Decidable (_ ∧ _ ∧ _))

/-- The environment of a process. -/
structure Environment where
  lookup : List Char → Option (List Char)
  isEnvName : ∀ {name value}, lookup name = some value → IsEnvName name
  nul_not_mem : ∀ {name value}, lookup name = some value → nul ∉ value

namespace Environment

/-- No variable is set. -/
def empty : Environment := ⟨fun _ => none, by simp, by simp⟩

/-- `setenv`. -/
def set (env : Environment) (name value : List Char) (hname : IsEnvName name)
    (hvalue : nul ∉ value) : Environment where
  lookup n := if n = name then some value else env.lookup n
  isEnvName := by
    intro n v h
    by_cases hn : n = name
    · exact hn ▸ hname
    · exact env.isEnvName ((if_neg hn).symm.trans h)
  nul_not_mem := by
    intro n v h
    by_cases hn : n = name
    · rw [if_pos hn] at h
      exact Option.some.inj h ▸ hvalue
    · exact env.nul_not_mem ((if_neg hn).symm.trans h)

variable {env : Environment} {name value : List Char} {hname : IsEnvName name}
  {hvalue : nul ∉ value}

@[simp] theorem lookup_set_self : (env.set name value hname hvalue).lookup name = some value :=
  if_pos rfl

theorem lookup_set_of_ne {n : List Char} (hn : n ≠ name) :
    (env.set name value hname hvalue).lookup n = env.lookup n := if_neg hn

theorem lookup_nil : env.lookup [] = none := by
  cases hlookup : env.lookup [] with
  | none => rfl
  | some value => exact absurd rfl (env.isEnvName hlookup).1

/-! ## The search -/

/-- The one variable that a search for this text can find. -/
def sought (text : List Char) : List Char := text.takeWhile (· != '=')

/-- `getenv`. -/
def getenv (env : Environment) (text : List Char) : Option (List Char) := do
  let value ← env.lookup (sought text)
  let entry := sought text ++ '=' :: value
  if text ++ ['='] <+: entry then some (entry.drop (text.length + 1)) else none

variable {text rest : List Char}

theorem bne_of_not_mem (h : '=' ∉ text) : ∀ c ∈ text, (c != '=') = true := by
  intro c hc
  have hne : c ≠ '=' := fun heq => h (heq ▸ hc)
  simpa using hne

theorem sought_of_not_mem (h : '=' ∉ text) : sought text = text :=
  List.takeWhile_eq_self_iff.mpr (bne_of_not_mem h)

/-- The first `=` of an entry ends its name. -/
theorem sought_entry (h : '=' ∉ name) : sought (name ++ '=' :: value) = name :=
  takeWhile_append_of_stop (bne_of_not_mem h) (by simp)

theorem sought_append (text rest : List Char) : sought (text ++ '=' :: rest) = sought text := by
  by_cases h : '=' ∈ text
  · obtain ⟨before, after, rfl, hbefore⟩ := List.eq_append_cons_of_mem h
    rw [List.append_assoc, List.cons_append, sought_entry hbefore, sought_entry hbefore]
  · rw [sought_entry h, sought_of_not_mem h]

/-- An entry that begins with the text and a `=` is of the variable that is sought. -/
theorem sought_eq_of_entry (hlookup : env.lookup name = some value)
    (hentry : name ++ '=' :: value = text ++ '=' :: rest) : sought text = name := by
  rw [← sought_append text rest, ← hentry, sought_entry (env.isEnvName hlookup).2.2]

/-- A search finds the entry that begins with the text and a `=`, whichever variable it is of. -/
theorem getenv_eq_some_iff : env.getenv text = some rest ↔
    ∃ name value, env.lookup name = some value ∧ name ++ '=' :: value = text ++ '=' :: rest := by
  have hsplit : text ++ '=' :: rest = text ++ ['='] ++ rest := by simp
  simp only [getenv, Option.bind_eq_bind, Option.bind_eq_some_iff, Option.ite_none_right_eq_some,
    Option.some.injEq]
  constructor
  · rintro ⟨value, hlookup, ⟨found, hentry⟩, rfl⟩
    refine ⟨_, value, hlookup, ?_⟩
    rw [← hentry, List.drop_left' (by simp)]
    simp
  · rintro ⟨name, value, hlookup, hentry⟩
    rw [sought_eq_of_entry hlookup hentry]
    refine ⟨value, hlookup, ?_⟩
    rw [hentry, hsplit]
    exact ⟨List.prefix_append _ _, by simp⟩

/-- A text with a `=` can match into a value. -/
example : (empty.set ['A'] "B=C".toList (by decide) (by decide)).getenv "A=B".toList =
    some ['C'] := by decide

theorem getenv_of_lookup_eq_none (h : env.lookup (sought text) = none) :
    env.getenv text = none := by
  rw [getenv, h]
  rfl

/-- A search for a name finds the variable. -/
theorem getenv_of_not_mem (h : '=' ∉ text) : env.getenv text = env.lookup text := by
  cases hlookup : env.lookup text with
  | none => exact getenv_of_lookup_eq_none (by rw [sought_of_not_mem h, hlookup])
  | some value => exact getenv_eq_some_iff.mpr ⟨text, value, hlookup, rfl⟩

end Environment

/-- A `std::string_view`: its characters, and the rest of the object it points into. -/
structure StringView where
  chars : List Char
  after : List Char

/-- The C string at `data()`, if there is one. -/
def StringView.data (key : StringView) : Option (List Char) := cString (key.chars ++ key.after)

/-- The view is a whole C string. -/
def StringView.Terminated (key : StringView) : Prop :=
  nul ∉ key.chars ∧ key.after.head? = some nul

/-- `get_environment_variable<T>`, where `extract` is what `>>` reads from a text into a `T`.
Nothing when `getenv` reads past the object, which is undefined. -/
def getEnvironmentVariable {T : Type} (extract : List Char → Option T) (env : Environment)
    (key : StringView) (default : T) : Option T := do
  let text ← key.data
  match env.getenv text with
  | none => some default
  | some rawValue =>
      match extract rawValue with
      | none => some default
      | some value => some value

/-- Whatever else is set, and whatever the default, the result is the value of the variable that
the view names, or the default when it is not set. -/
def Faithful (env : Environment) (key : StringView) : Prop :=
  ∀ env' : Environment, env'.lookup key.chars = env.lookup key.chars →
    ∀ default, getEnvironmentVariable extractWord env' key default =
      some ((env.lookup key.chars).getD default)

section Names
open Environment

variable {key : StringView} {env : Environment} {text : List Char}

theorem StringView.data_eq_some_iff : key.data = some text ↔
    nul ∉ text ∧ ∃ after, key.chars ++ key.after = text ++ nul :: after := cString_eq_some_iff

theorem StringView.data_eq_chars_iff : key.data = some key.chars ↔ key.Terminated := by
  rw [StringView.data_eq_some_iff, StringView.Terminated, List.head?_eq_some_iff]
  simp only [List.append_cancel_left_eq]

/-- The result is decided by what `getenv` finds. -/
theorem getEnvironmentVariable_of_data {T : Type} {extract : List Char → Option T}
    (hdata : key.data = some text) (default : T) :
    getEnvironmentVariable extract env key default =
      some (((env.getenv text).bind extract).getD default) := by
  simp only [getEnvironmentVariable, hdata, Option.bind_eq_bind, Option.bind_some]
  cases env.getenv text with
  | none => rfl
  | some rawValue =>
      rw [Option.bind_some]
      cases hread : extract rawValue <;> simp [hread]

theorem getEnvironmentVariable_of_data_none {T : Type} {extract : List Char → Option T}
    (hdata : key.data = none) (default : T) :
    getEnvironmentVariable extract env key default = none := by
  simp only [getEnvironmentVariable, hdata, Option.bind_eq_bind, Option.bind_none]

/-- Two results that agree whatever the default is are the same. -/
theorem eq_of_getD_eq {a b : Option (List Char)} (h : ∀ d, a.getD d = b.getD d) : a = b := by
  cases a with
  | none =>
      cases b with
      | none => rfl
      | some w => exact absurd (h ('x' :: w)) (by simp)
  | some v =>
      cases b with
      | none => exact absurd (h ('x' :: v)) (by simp)
      | some w => exact congrArg some (h [])

/-- The result is the named variable's exactly when what `getenv` finds reads as its value. -/
theorem faithful_iff_of_data (hdata : key.data = some text) :
    Faithful env key ↔ ∀ env' : Environment, env'.lookup key.chars = env.lookup key.chars →
      (env'.getenv text).bind extractWord = env.lookup key.chars := by
  refine forall₂_congr fun env' _ => ?_
  simp only [getEnvironmentVariable_of_data hdata, Option.some.injEq]
  exact ⟨eq_of_getD_eq, fun h d => by rw [h]⟩

/-- Some value of the variable that a search looks for makes it find any given text. -/
theorem exists_entry (htext : nul ∉ text) {found : List Char} (hfound : nul ∉ found) :
    ∃ value, nul ∉ value ∧ sought text ++ '=' :: value = text ++ '=' :: found := by
  have hsplit := List.takeWhile_append_dropWhile (p := (· != '=')) (l := text)
  cases hrest : text.dropWhile (· != '=') with
  | nil =>
      rw [hrest, List.append_nil] at hsplit
      exact ⟨found, hfound, by rw [sought, hsplit]⟩
  | cons c front =>
      have hc := stop_of_head?_dropWhile (p := (· != '=')) (l := text) (x := c) (by rw [hrest]; rfl)
      obtain rfl : c = '=' := by simpa using hc
      rw [hrest] at hsplit
      have hfront : nul ∉ front := fun h => htext (by rw [← hsplit]; simp [h])
      refine ⟨front ++ '=' :: found, ?_, ?_⟩
      · have hne : nul ≠ '=' := by decide
        simp [hfront, hfound, hne]
      · conv_rhs => rw [← hsplit]
        simp [sought]

/-- Another variable that `getenv` may find can be set so that the result is wrong. -/
theorem not_faithful_of_ne (hdata : key.data = some text) (hne : sought text ≠ key.chars)
    (hnil : sought text ≠ []) : ¬ Faithful env key := by
  rw [faithful_iff_of_data hdata]
  intro h
  have htext := (StringView.data_eq_some_iff.mp hdata).1
  have hvalid : IsEnvName (sought text) := by
    refine ⟨hnil, fun hnul => htext ((List.takeWhile_sublist _).mem hnul), ?_⟩
    intro hmem
    simpa using List.mem_takeWhile_imp hmem
  have hfind : ∀ found, nul ∉ found → extractWord found = env.lookup key.chars := by
    intro found hfound
    obtain ⟨value, hvalue, hentry⟩ := exists_entry htext hfound
    have hset := h (env.set _ value hvalid hvalue) (lookup_set_of_ne hne.symm)
    rwa [getenv_eq_some_iff.mpr ⟨_, value, lookup_set_self, hentry⟩] at hset
  have hempty := hfind [] (by decide)
  have hword := hfind ['x'] (by decide)
  exact absurd (hempty.trans hword.symm) (by decide)

/-- A value that comes back whole was found by its own name. -/
theorem text_eq_of_getenv {value found : List Char} (hvalue : env.lookup (sought text) = some value)
    (hfound : env.getenv text = some found) (hword : extractWord found = some value) :
    text = sought text := by
  obtain ⟨name, value', hlookup, hentry⟩ := getenv_eq_some_iff.mp hfound
  have hname := sought_eq_of_entry hlookup hentry
  rw [← hname, hvalue] at hlookup
  obtain rfl := Option.some.inj hlookup
  have hlen := congrArg List.length hentry
  have hle := length_le_of_extractWord hword
  simp only [List.length_append, List.length_cons, ← hname] at hlen
  have hpre : sought text <+: text := List.takeWhile_prefix _
  exact (hpre.eq_of_length_le (by omega)).symm

/-- The search can find no variable but the one that the view names. -/
theorem sought_of_faithful (h : Faithful env key) (hdata : key.data = some text) :
    sought text = [] ∨ sought text = key.chars := by
  by_contra hother
  rw [not_or] at hother
  exact not_faithful_of_ne hdata hother.2 hother.1 h

theorem terminated_of_faithful {value : List Char} (h : Faithful env key)
    (hdata : key.data = some text) (hlookup : env.lookup key.chars = some value) :
    key.Terminated ∧ IsWord value := by
  have hread := (faithful_iff_of_data hdata).mp h env rfl
  rw [hlookup, Option.bind_eq_some_iff] at hread
  obtain ⟨found, hfound, hword⟩ := hread
  have hchars : sought text = key.chars := by
    refine (sought_of_faithful h hdata).resolve_left ?_
    intro hnil
    rw [getenv_of_lookup_eq_none (by rw [hnil, lookup_nil])] at hfound
    cases hfound
  have htext := text_eq_of_getenv (hchars ▸ hlookup) hfound hword
  refine ⟨StringView.data_eq_chars_iff.mp ?_, isWord_of_extractWord hword⟩
  rw [hdata, htext, hchars]

/-- The result for a view is the value of the variable it names exactly when the variable is set,
the view is a whole C string and the value is one word; or the variable is not set and the search
can find no other. -/
theorem faithful_iff (env : Environment) (key : StringView) :
    Faithful env key ↔
      (key.Terminated ∧ ∃ value, env.lookup key.chars = some value ∧ IsWord value) ∨
        (env.lookup key.chars = none ∧
          ∃ text, key.data = some text ∧ (sought text = [] ∨ sought text = key.chars)) := by
  constructor
  · intro h
    cases hdata : key.data with
    | none =>
        have hnone := h env rfl []
        rw [getEnvironmentVariable_of_data_none hdata] at hnone
        cases hnone
    | some text =>
        cases hlookup : env.lookup key.chars with
        | none => exact .inr ⟨rfl, text, rfl, sought_of_faithful h hdata⟩
        | some value =>
            obtain ⟨hterm, hword⟩ := terminated_of_faithful h hdata hlookup
            exact .inl ⟨hterm, value, rfl, hword⟩
  · rintro (⟨hterm, value, hvalue, hword⟩ | ⟨hunset, text, hdata, hsought⟩)
    · rw [faithful_iff_of_data (StringView.data_eq_chars_iff.mpr hterm)]
      intro env' henv
      rw [getenv_of_not_mem (env.isEnvName hvalue).2.2, henv, hvalue]
      exact extractWord_of_isWord hword
    · rw [faithful_iff_of_data hdata]
      intro env' henv
      have hnone : env'.lookup (sought text) = none := by
        rcases hsought with hnil | hchars
        · rw [hnil, lookup_nil]
        · rw [hchars, henv, hunset]
      rw [getenv_of_lookup_eq_none hnone, hunset]
      rfl

end Names

/-- The environment with one variable, `HOME`. -/
def withHome (value : String) (hvalue : nul ∉ value.toList) : Environment :=
  Environment.empty.set "HOME".toList value.toList (by decide) hvalue

/-- The view of a string literal. -/
def literal (s : String) : StringView := ⟨s.toList, [nul]⟩

/-- A home directory with a blank in its name is cut at the blank, and an empty value reads as the
default; a view of the first four characters of `"HOMEPATH"` misses the variable. -/
theorem home_cut_short :
    let home := withHome "/home/a b" (by decide)
    getEnvironmentVariable extractWord home (literal "HOME") "Not home".toList =
        some "/home/a".toList ∧
      home.lookup "HOME".toList = some "/home/a b".toList ∧
      ¬ Faithful home (literal "HOME") ∧
      getEnvironmentVariable extractWord (withHome "" (by decide)) (literal "HOME")
        "Not home".toList = some "Not home".toList ∧
      getEnvironmentVariable extractWord home ⟨"HOME".toList, "PATH".toList ++ [nul]⟩
        "Not home".toList = some "Not home".toList := by
  refine ⟨by decide +kernel, by decide +kernel, ?_, by decide +kernel, by decide +kernel⟩
  intro h
  exact absurd (h _ rfl []) (by decide +kernel)

end Unid.Common
