import Unid.Common.Systime

/-!
# What the dated getters look up

Each getter looks up its node twice, once to test for it and once to take its
value.  The test is for presence only, so a node of another kind is a null
pointer to the second lookup (`null_safe_iff`).  `get_as_systime(table, key)`
makes the second lookup in the root, and so answers for another value than the
table's (`local_iff`).  All getters with a table take its name as one key, where
`get_as` walks the dotted path (`same_as_path_iff`).

## Main definitions

* `Getter.sourceIn` — the node a getter with a table takes its value from.
* `Getter.Alike` — values that a getter converts to the same.
* `NullSafe` — no null pointer is used, and what is not there is reported so.
* `Getter.viaPath` — what `get_as` finds, converted.
-/

namespace Unid.Common
open Lib Toml

/-! ## The common text -/

section Fetch
variable {α β : Type} {found : View} {typed : Option α} {convert : α → Answer β}

theorem fetch_eq_nullopt_iff (hconvert : ∀ a, convert a ≠ .nullopt) :
    fetch found typed convert = .nullopt ↔ found = none := by
  cases found with
  | none => simp [fetch]
  | some node => cases typed <;> simp [fetch, hconvert]

theorem fetch_eq_nullDeref_iff (hconvert : ∀ a, convert a ≠ .undefined .nullDeref) :
    fetch found typed convert = .undefined .nullDeref ↔ found ≠ none ∧ typed = none := by
  cases found with
  | none => simp [fetch]
  | some node => cases typed <;> simp [fetch, hconvert]

theorem fetch_eq_convert_iff {a : α} (hnullopt : convert a ≠ .nullopt)
    (hnull : convert a ≠ .undefined .nullDeref) :
    fetch found typed convert = convert a ↔
      found ≠ none ∧ ∃ b, typed = some b ∧ convert b = convert a := by
  cases found with
  | none => simp [fetch, hnullopt.symm]
  | some node => cases typed <;> simp [fetch, hnull.symm]

end Fetch

theorem toYearMonthDay_inj {d d' : Date} :
    toYearMonthDay d = toYearMonthDay d' ↔ d.toCivilDate = d'.toCivilDate := by
  simp [toYearMonthDay, CivilDate.ext_iff]

/-- The fields can be told from the number of seconds. -/
theorem toHhMmSs_inj {t t' : Time} : toHhMmSs t = toHhMmSs t' ↔
    t.hour = t'.hour ∧ t.minute = t'.minute ∧ t.second = t'.second := by
  have hminute := t.minute_lt
  have hminute' := t'.minute_lt
  have hsecond := t.second_lt
  have hsecond' := t'.second_lt
  simp only [toHhMmSs, HhMmSs.ofSeconds, Answer.value.injEq, HhMmSs.mk.injEq]
  omega

namespace Getter
variable (g : Getter) (c : Config) (table key : Key)

/-- The node that the getter with a table takes its value from. -/
def sourceIn : View :=
  match g with
  | systime => c.index key
  | date | time => (c.index table).index key

theorem get_eq : g.get c key = fetch (c.index key) (g.as (c.index key)) g.convert := by
  cases g <;> rfl

theorem getIn_eq : g.getIn c table key =
    fetch ((c.index table).index key) (g.as (g.sourceIn c table key)) g.convert := by
  cases g <;> rfl

theorem as_none : g.as none = none := by
  cases g <;> rfl

/-- The same day; the same time to the second; the same instant, which the sums for both reach or
neither does. -/
def Alike : (g : Getter) → g.Source → g.Source → Prop
  | date, d, d' => d.toCivilDate = d'.toCivilDate
  | time, t, t' => t.hour = t'.hour ∧ t.minute = t'.minute ∧ t.second = t'.second
  | systime, dt, dt' => dt.instant = dt'.instant ∧ (dt.Representable ↔ dt'.Representable)

variable {g}

/-- A conversion gives a value or overflows. -/
theorem convert_cases (v : g.Source) :
    (∃ a, g.convert v = .value a) ∨ ∃ n, g.convert v = .undefined (.overflow n) := by
  cases g with
  | date => exact .inl ⟨_, rfl⟩
  | time => exact .inl ⟨_, rfl⟩
  | systime => exact (toSystime_cases v).imp (fun h => ⟨_, h.2⟩) (fun h => ⟨_, h.2⟩)

theorem convert_ne_nullopt (v : g.Source) : g.convert v ≠ .nullopt := by
  rcases convert_cases v with ⟨a, h⟩ | ⟨n, h⟩ <;> rw [h] <;> nofun

theorem convert_ne_nullDeref (v : g.Source) : g.convert v ≠ .undefined .nullDeref := by
  rcases convert_cases v with ⟨a, h⟩ | ⟨n, h⟩ <;> rw [h] <;> nofun

theorem convert_inj {v w : g.Source} : g.convert w = g.convert v ↔ g.Alike w v := by
  cases g with
  | date => exact toYearMonthDay_inj
  | time => exact toHhMmSs_inj
  | systime => exact toSystime_inj

end Getter

/-! ## Null pointers -/

/-- No null pointer is used, and a node that is absent or of another kind gives nothing. -/
def NullSafe {α β : Type} (typed : Option α) (answer : Answer β) : Prop :=
  answer ≠ .undefined .nullDeref ∧ (typed = none → answer = .nullopt)

theorem nullSafe_fetch_iff {α β : Type} {found : View} {node typed : Option α}
    {convert : α → Answer β} (hnullopt : ∀ a, convert a ≠ .nullopt)
    (hnull : ∀ a, convert a ≠ .undefined .nullDeref) :
    NullSafe node (fetch found typed convert) ↔
      found = none ∨ node.isSome = true ∧ typed.isSome = true := by
  rw [NullSafe, fetch_eq_nullopt_iff hnullopt, ne_eq, fetch_eq_nullDeref_iff hnull]
  cases found with
  | none => simp
  | some view => cases node <;> cases typed <;> simp

/-- A getter is safe when what it finds is of its kind; `get_as_systime(table, key)` also needs a
date-time by that key in the root. -/
theorem null_safe_iff (g : Getter) (c : Config) (table key : Key) :
    (NullSafe (g.as (c.index key)) (g.get c key) ↔
      c.index key = none ∨ (g.as (c.index key)).isSome = true) ∧
    (NullSafe (g.as ((c.index table).index key)) (g.getIn c table key) ↔
      (c.index table).index key = none ∨ (g.as ((c.index table).index key)).isSome = true ∧
        (g = .systime → (c.index key).asDateTime.isSome = true)) := by
  constructor
  · rw [g.get_eq, nullSafe_fetch_iff Getter.convert_ne_nullopt Getter.convert_ne_nullDeref,
      and_self]
  · rw [g.getIn_eq, nullSafe_fetch_iff Getter.convert_ne_nullopt Getter.convert_ne_nullDeref]
    cases g with
    | date => simp [Getter.sourceIn]
    | time => simp [Getter.sourceIn]
    | systime => simp [Getter.sourceIn, Getter.as]

/-- A string where a date is expected, and a date-time that is only in the table. -/
theorem null_unsafe_config :
    let c : Config := ⟨[("start".toList, .string "tomorrow".toList),
      ("job".toList, .table [("at".toList, .dateTime may27)])]⟩
    c.getAsDate "start".toList = .undefined .nullDeref ∧
      ¬ NullSafe (Getter.date.as (c.index "start".toList)) (c.getAsDate "start".toList) ∧
      c.getAsSystimeIn "job".toList "at".toList = .undefined .nullDeref := by
  intro c
  have hnull : c.getAsDate "start".toList = .undefined .nullDeref := by decide
  exact ⟨hnull, fun hsafe => hsafe.1 hnull, by decide⟩

/-! ## Which node is read -/

theorem Config.index_mk (sub : Table) (key : Key) : Config.index ⟨sub⟩ key = sub.lookup key := rfl

theorem Toml.View.index_table (sub : Table) (key : Key) :
    View.index (some (.table sub)) key = sub.lookup key := rfl

namespace Getter
variable {g : Getter} {c : Config} {table key : Key} {sub : Table} {v : g.Source}

theorem ne_none_of_as {view : View} (h : g.as view = some v) : view ≠ none := by
  rintro rfl
  rw [g.as_none] at h
  cases h

/-- On a value of its kind, a getter with a key converts it. -/
theorem get_of_as (hkey : g.as (sub.lookup key) = some v) : g.get ⟨sub⟩ key = g.convert v := by
  rw [g.get_eq, fetch_eq_convert_iff (convert_ne_nullopt v) (convert_ne_nullDeref v)]
  exact ⟨ne_none_of_as hkey, v, hkey, rfl⟩

/-- On a value of its kind, a getter with a table agrees when the node it reads does. -/
theorem getIn_eq_convert_iff (htable : c.index table = some (.table sub))
    (hkey : g.as (sub.lookup key) = some v) :
    g.getIn c table key = g.convert v ↔
      ∃ w, g.as (g.sourceIn c table key) = some w ∧ g.Alike w v := by
  rw [g.getIn_eq, fetch_eq_convert_iff (convert_ne_nullopt v) (convert_ne_nullDeref v), htable]
  simp only [convert_inj]
  exact and_iff_right (ne_none_of_as hkey)

theorem sourceIn_eq (hg : g ≠ .systime) :
    g.sourceIn c table key = (c.index table).index key := by
  cases g with
  | date => rfl
  | time => rfl
  | systime => exact absurd rfl hg

/-- When a getter with a table answers as on a file that is that table. -/
theorem getIn_eq_get_iff (htable : c.index table = some (.table sub))
    (hkey : g.as (sub.lookup key) = some v) :
    g.getIn c table key = g.get ⟨sub⟩ key ↔
      g ≠ .systime ∨ ∃ w, g.as (c.index key) = some w ∧ g.Alike w v := by
  rw [get_of_as hkey, getIn_eq_convert_iff htable hkey]
  by_cases hg : g = .systime
  · subst hg
    exact (or_iff_right (not_not.mpr rfl)).symm
  · rw [sourceIn_eq hg, htable]
    exact iff_of_true ⟨v, hkey, convert_inj.mp rfl⟩ (.inl hg)

end Getter

/-- `get_as_date` and `get_as_time` with a table answer as on a file that is that table, whatever
else the file holds. `get_as_systime` never does: its answer agrees only when the root has a
date-time by the same key that converts alike. -/
theorem local_iff (g : Getter) (c : Config) (table key : Key) (sub : Table) (v : g.Source)
    (htable : c.index table = some (.table sub)) (hkey : g.as (sub.lookup key) = some v) :
    (g.getIn c table key = g.get ⟨sub⟩ key ∧
        (∀ c' : Config, c'.index table = some (.table sub) →
          g.getIn c' table key = g.getIn c table key) ↔
      g ≠ .systime) ∧
    (g.getIn c table key = g.get ⟨sub⟩ key ↔
      g ≠ .systime ∨ ∃ w, g.as (c.index key) = some w ∧ g.Alike w v) := by
  refine ⟨⟨?_, ?_⟩, Getter.getIn_eq_get_iff htable hkey⟩
  · rintro ⟨hsame, halone⟩ rfl
    -- a file with nothing but the table has no date-time in its root
    have hsub : Config.index ⟨[(table, .table sub)]⟩ table = some (.table sub) :=
      List.lookup_cons_self
    have hroot : View.asDateTime (Config.index ⟨[(table, .table sub)]⟩ key) = none := by
      rw [Config.index_mk, List.lookup_cons]
      split <;> rfl
    have hother := (halone _ hsub).trans hsame
    rcases (Getter.getIn_eq_get_iff hsub hkey).mp hother with hne | ⟨w, hw, -⟩
    · exact hne rfl
    · cases hroot.symm.trans hw
  · intro hg
    refine ⟨(Getter.getIn_eq_get_iff htable hkey).mpr (.inl hg), ?_⟩
    intro c' htable'
    rw [(Getter.getIn_eq_get_iff htable' hkey).mpr (.inl hg),
      (Getter.getIn_eq_get_iff htable hkey).mpr (.inl hg)]

theorem local_date :
    let d := may27.date
    let sub : Table := [("day".toList, .date d)]
    let c : Config := ⟨[("day".toList, .boolean true), ("job".toList, .table sub)]⟩
    c.getAsDateIn "job".toList "day".toList = .value ⟨1979, 5, 27⟩ ∧
      Getter.date.getIn c "job".toList "day".toList = Getter.date.get ⟨sub⟩ "day".toList := by
  intro d sub c
  exact ⟨by decide, ((local_iff .date c _ _ sub d rfl rfl).1.mpr nofun).1⟩

/-- The root's date-time, a day earlier, is returned for the table's. -/
theorem root_diverts_systime :
    let sub : Table := [("at".toList, .dateTime may27)]
    let c : Config := ⟨[("job".toList, .table sub),
      ("at".toList, .dateTime { may27 with date :=
        ⟨⟨1979, 5, 26, by decide, by decide, by decide, by decide⟩, by decide, by decide⟩ })]⟩
    c.index "job".toList = some (.table sub) ∧
      View.asDateTime (sub.lookup "at".toList) = some may27 ∧
      c.getAsSystimeIn "job".toList "at".toList = .value 296551920500000000 ∧
      Config.getAsSystime ⟨sub⟩ "at".toList = .value 296638320500000000 ∧
      c.getAsSystimeIn "job".toList "at".toList ≠ Config.getAsSystime ⟨sub⟩ "at".toList := by
  intro sub c
  have hroot : c.getAsSystimeIn "job".toList "at".toList = .value 296551920500000000 := by
    decide +kernel
  have hsub : Config.getAsSystime ⟨sub⟩ "at".toList = .value 296638320500000000 := by
    decide +kernel
  refine ⟨rfl, rfl, hroot, hsub, ?_⟩
  rw [hroot, hsub]
  decide

/-! ## Dotted paths -/

/-- What `get_as` finds by a path, converted as the getters do. -/
def Getter.viaPath (g : Getter) (c : Config) (keypath : Key) : Answer g.Result :=
  match c.getAs g keypath with
  | some v => g.convert v
  | none => .nullopt

/-- A bare key after a path is one more step. -/
theorem Config.atPath_append {c : Config} {table key : Key} (hkey : '.' ∉ key) :
    c.atPath (table ++ '.' :: key) = (c.atPath table).index key := by
  rw [Config.atPath, View.atPath, List.splitOn_append_cons_self, List.splitOn_eq_singleton hkey,
    List.foldl_append]
  rfl

/-- A path without dots is a key. -/
theorem Config.atPath_of_not_mem {c : Config} {key : Key} (hkey : '.' ∉ key) :
    c.atPath key = c.index key := by
  rw [Config.atPath, View.atPath, List.splitOn_eq_singleton hkey]
  rfl

namespace Getter
variable {g : Getter} {c : Config} {table key : Key} {sub : Table}

/-- A getter with a table finds what `get_as` finds by the path when the literal lookup does: on a
path that leads to a value of its kind, it must find some node and read a value like it; otherwise
it must find nothing. -/
theorem getIn_eq_viaPath_iff (htable : c.atPath table = some (.table sub)) (hkey : '.' ∉ key) :
    g.getIn c table key = g.viaPath c (table ++ '.' :: key) ↔
      (∃ v, g.as (sub.lookup key) = some v ∧ (c.index table).index key ≠ none ∧
        ∃ w, g.as (g.sourceIn c table key) = some w ∧ g.Alike w v) ∨
      g.as (sub.lookup key) = none ∧ (c.index table).index key = none := by
  rw [viaPath, Config.getAs, Config.atPath_append hkey, htable, View.index_table, g.getIn_eq]
  cases g.as (sub.lookup key) with
  | none => simp [fetch_eq_nullopt_iff convert_ne_nullopt]
  | some v =>
      simp [fetch_eq_convert_iff (convert_ne_nullopt v) (convert_ne_nullDeref v), convert_inj]

/-- In a table of the root the two lookups meet, and only the kind matters. -/
theorem getIn_eq_viaPath_iff_of_not_mem (htable : c.atPath table = some (.table sub))
    (hkey : '.' ∉ key) (hdot : '.' ∉ table) (hg : g ≠ .systime) :
    g.getIn c table key = g.viaPath c (table ++ '.' :: key) ↔
      sub.lookup key = none ∨ (g.as (sub.lookup key)).isSome = true := by
  have hindex : c.index table = some (.table sub) := by
    rw [← Config.atPath_of_not_mem hdot, htable]
  rw [getIn_eq_viaPath_iff htable hkey, sourceIn_eq hg, hindex, View.index_table]
  cases hnode : sub.lookup key with
  | none => simp [g.as_none]
  | some node =>
      cases g.as (some node) with
      | none => simp
      | some v => simp [convert_inj.mp (rfl : g.convert v = g.convert v)]

/-- Deeper in the file the literal lookup finds nothing, and the getters miss every value. -/
theorem getIn_eq_viaPath_iff_of_index_eq_none (htable : c.atPath table = some (.table sub))
    (hkey : '.' ∉ key) (hindex : c.index table = none) :
    g.getIn c table key = g.viaPath c (table ++ '.' :: key) ↔ g.as (sub.lookup key) = none := by
  rw [getIn_eq_viaPath_iff htable hkey, hindex]
  simp [View.index]

end Getter

/-- When the getters with a table find what `get_as` finds by the dotted path: in general, in a
table of the root, and in a nested table. -/
theorem same_as_path_iff (g : Getter) (c : Config) (table key : Key) (sub : Table)
    (htable : c.atPath table = some (.table sub)) (hkey : '.' ∉ key) :
    (g.getIn c table key = g.viaPath c (table ++ '.' :: key) ↔
      (∃ v, g.as (sub.lookup key) = some v ∧ (c.index table).index key ≠ none ∧
        ∃ w, g.as (g.sourceIn c table key) = some w ∧ g.Alike w v) ∨
      g.as (sub.lookup key) = none ∧ (c.index table).index key = none) ∧
    ('.' ∉ table → g ≠ .systime →
      (g.getIn c table key = g.viaPath c (table ++ '.' :: key) ↔
        sub.lookup key = none ∨ (g.as (sub.lookup key)).isSome = true)) ∧
    (c.index table = none →
      (g.getIn c table key = g.viaPath c (table ++ '.' :: key) ↔
        g.as (sub.lookup key) = none)) :=
  ⟨Getter.getIn_eq_viaPath_iff htable hkey,
    Getter.getIn_eq_viaPath_iff_of_not_mem htable hkey,
    Getter.getIn_eq_viaPath_iff_of_index_eq_none htable hkey⟩

/-- A date in a table of the root. -/
theorem same_as_path_date :
    let sub : Table := [("day".toList, .date may27.date)]
    let c : Config := ⟨[("job".toList, .table sub)]⟩
    Getter.date.getIn c "job".toList "day".toList =
      Getter.date.viaPath c "job.day".toList := by
  intro sub c
  exact ((same_as_path_iff .date c "job".toList "day".toList sub rfl (by decide)).2.1
    (by decide) nofun).mpr (.inr rfl)

/-- `get_as_date("net.peer", "since")` finds nothing where `get_as<toml::date>` finds a date by
`net.peer.since`. -/
theorem nested_table_missed :
    let peer : Table := [("since".toList, .date may27.date)]
    let c : Config := ⟨[("net".toList, .table [("peer".toList, .table peer)])]⟩
    c.atPath "net.peer".toList = some (.table peer) ∧
      c.getAsDateIn "net.peer".toList "since".toList = .nullopt ∧
      c.getAs .date "net.peer.since".toList = some may27.date ∧
      Getter.date.getIn c "net.peer".toList "since".toList ≠
        Getter.date.viaPath c "net.peer.since".toList := by
  intro peer c
  exact ⟨rfl, by decide, rfl, by decide⟩

end Unid.Common
