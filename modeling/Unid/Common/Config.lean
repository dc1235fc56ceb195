import Unid.Lib.Calendar

/-!
# Configuration values

`Config` of `config.hpp` over a parsed TOML file.  A TOML file is a tree of
tables; a view is a node of it or nothing.  Dates, times and date-times are valid
by construction, as the parser guarantees.  Of toml++ the development uses that
`operator[]` takes its argument as one key, that `at_path` splits its argument at
the dots, and that a typed access gives null when the node is absent or of
another kind.

`get_as_systime` adds up durations of ever finer units in `std::chrono`; every
intermediate count is an `int64_t`, and one that does not fit is undefined
behaviour, as is the use of a null pointer.  An overflow is kept apart from others
by the instant that the sum stands for.

## Main definitions

* `Toml.Node`, `View` — parsed files and views of them.
* `Config.getAs` — `get_as<T>`.
* `Config.getAsDate`, `Config.getAsTime`, `Config.getAsSystime` — the getters with a key, and
  `Config.getAsDateIn`, `Config.getAsTimeIn`, `Config.getAsSystimeIn` — with table and key.
* `Getter` — the three families of getters, so as to speak of all of them.
-/

namespace Unid.Common
open Lib

/-- A `std::string_view`. -/
abbrev Key := List Char

namespace Toml

/-- A local date of a TOML file. -/
structure Date extends CivilDate where
  year_nonneg : 0 ≤ year
  year_le : year ≤ 9999
  deriving DecidableEq

/-- A local time of a TOML file. -/
abbrev Time := TimeOfDay

/-- The offset of a date-time, less than a day either way. -/
structure TimeOffset where
  minutes : ℤ
  ge : -1439 ≤ minutes
  le : minutes ≤ 1439
  deriving DecidableEq

structure DateTime where
  date : Date
  time : Time
  offset : Option TimeOffset
  deriving DecidableEq

namespace DateTime

def offsetMinutes (dt : DateTime) : ℤ :=
  match dt.offset with
  | none => 0
  | some offset => offset.minutes

/-- Nanoseconds since 1970-01-01T00:00:00 UTC. -/
def instant (dt : DateTime) : ℤ :=
  (dt.date.dayNumber * 86400 + dt.time.hour * 3600 + dt.time.minute * 60 + dt.time.second -
    dt.offsetMinutes * 60) * 1000000000 + dt.time.nanosecond

end DateTime

/-- A node of a parsed TOML file. -/
inductive Node
  | table (entries : List (Key × Node))
  | array (items : List Node)
  | string (text : List Char)
  | integer (n : BitVec 64)
  | float (bits : BitVec 64)
  | boolean (b : Bool)
  | date (d : Date)
  | time (t : Time)
  | dateTime (dt : DateTime)

/-- The entries of a table. -/
abbrev Table := List (Key × Node)

/-- A `toml::node_view`. -/
abbrev View := Option Node

namespace View

/-- `operator[]`: the entry of a table, by one literal key. -/
def index (v : View) (key : Key) : View :=
  match v with
  | some (.table entries) => entries.lookup key
  | _ => none

/-- `at_path`: one step into the tree for each part of the path between dots. -/
def atPath (v : View) (path : Key) : View := (path.splitOn '.').foldl index v

/-- `as_date()`, null or the value. -/
def asDate : View → Option Date
  | some (.date d) => some d
  | _ => none

def asTime : View → Option Time
  | some (.time t) => some t
  | _ => none

def asDateTime : View → Option DateTime
  | some (.dateTime dt) => some dt
  | _ => none

end View
end Toml

open Toml

/-! ## `std::chrono` -/

/-- What the language leaves undefined. -/
inductive Undefined
  | nullDeref
  /-- The sum for this count goes through one that does not fit. -/
  | overflow (count : ℤ)
  deriving DecidableEq

/-- How a getter ends. -/
inductive Answer (α : Type)
  | value (a : α)
  | nullopt
  | undefined (why : Undefined)
  deriving DecidableEq

structure YearMonthDay where
  year : ℤ
  month : ℕ
  day : ℕ
  deriving DecidableEq

/-- A `hh_mm_ss<seconds>`. -/
structure HhMmSs where
  hours : ℕ
  minutes : ℕ
  seconds : ℕ
  deriving DecidableEq

/-- Hours, minutes and seconds of a duration in seconds. -/
def HhMmSs.ofSeconds (t : ℕ) : HhMmSs := ⟨t / 3600, t % 3600 / 60, t % 60⟩

/-- A `system_clock::time_point`, by its count of nanoseconds. -/
abbrev TimePoint := ℤ

/-- An `int64_t` can represent it. -/
def Fits (n : ℤ) : Prop := -9223372036854775808 ≤ n ∧ n ≤ 9223372036854775807

instance (n : ℤ) : Decidable (Fits n) := inferInstanceAs (Decidable (_ ∧ _))

/-- A count of a duration, if it fits. -/
def rep (n : ℤ) : Option ℤ := if Fits n then some n else none

/-- `if (tdt.offset) tp -= minutes{tdt.offset->minutes}`. -/
def lessOffset (tp : ℤ) : Option TimeOffset → Option ℤ
  | none => some tp
  | some offset => do rep (tp - (← rep (offset.minutes * 60000000000)))

/-- `sd + hours{..} + minutes{..} + seconds{..} + nanoseconds{..}`, less the offset: each sum is
made in the finer unit of its operands. Nothing when a count overflows. -/
def toTimePoint (tdt : DateTime) : Option TimePoint := do
  let sd ← rep tdt.date.dayNumber
  let hours ← rep ((← rep (sd * 24)) + tdt.time.hour)
  let minutes ← rep ((← rep (hours * 60)) + tdt.time.minute)
  let seconds ← rep ((← rep (minutes * 60)) + tdt.time.second)
  let tp ← rep ((← rep (seconds * 1000000000)) + tdt.time.nanosecond)
  lessOffset tp tdt.offset

/-! ## The getters -/

/-- The getters' common text: nothing when `found` is not there, else the conversion of the value
that the typed access points to. -/
def fetch {α β : Type} (found : View) (typed : Option α) (convert : α → Answer β) : Answer β :=
  match found with
  | none => .nullopt
  | some _ =>
      match typed with
      | none => .undefined .nullDeref
      | some a => convert a

def toYearMonthDay (td : Date) : Answer YearMonthDay := .value ⟨td.year, td.month, td.day⟩

/-- The sub-seconds are dropped. -/
def toHhMmSs (tt : Time) : Answer HhMmSs :=
  .value (.ofSeconds (tt.hour * 3600 + tt.minute * 60 + tt.second))

def toSystime (tdt : DateTime) : Answer TimePoint :=
  match toTimePoint tdt with
  | some tp => .value tp
  | none => .undefined (.overflow tdt.instant)

/-- The member `config_`, the root table of the file. -/
structure Config where
  root : Table

namespace Config

def index (c : Config) (key : Key) : View := View.index (some (.table c.root)) key

def atPath (c : Config) (path : Key) : View := View.atPath (some (.table c.root)) path

def getAsDate (c : Config) (key : Key) : Answer YearMonthDay :=
  fetch (c.index key) (c.index key).asDate toYearMonthDay

def getAsDateIn (c : Config) (table key : Key) : Answer YearMonthDay :=
  fetch ((c.index table).index key) ((c.index table).index key).asDate toYearMonthDay

def getAsTime (c : Config) (key : Key) : Answer HhMmSs :=
  fetch (c.index key) (c.index key).asTime toHhMmSs

def getAsTimeIn (c : Config) (table key : Key) : Answer HhMmSs :=
  fetch ((c.index table).index key) ((c.index table).index key).asTime toHhMmSs

def getAsSystime (c : Config) (key : Key) : Answer TimePoint :=
  fetch (c.index key) (c.index key).asDateTime toSystime

/-- Looks for the key in the table, and takes the value from the root. -/
def getAsSystimeIn (c : Config) (table key : Key) : Answer TimePoint :=
  fetch ((c.index table).index key) (c.index key).asDateTime toSystime

end Config

/-- What the getters are for. -/
inductive Getter
  | date
  | time
  | systime
  deriving DecidableEq

namespace Getter

/-- The type of the TOML value. -/
abbrev Source : Getter → Type
  | date => Date
  | time => Time
  | systime => DateTime

/-- The type of the result. -/
abbrev Result : Getter → Type
  | date => YearMonthDay
  | time => HhMmSs
  | systime => TimePoint

/-- The typed access. -/
def as : (g : Getter) → View → Option g.Source
  | date => View.asDate
  | time => View.asTime
  | systime => View.asDateTime

def convert : (g : Getter) → g.Source → Answer g.Result
  | date => toYearMonthDay
  | time => toHhMmSs
  | systime => toSystime

/-- The getter with a key. -/
def get : (g : Getter) → Config → Key → Answer g.Result
  | date => Config.getAsDate
  | time => Config.getAsTime
  | systime => Config.getAsSystime

/-- The getter with table and key. -/
def getIn : (g : Getter) → Config → Key → Key → Answer g.Result
  | date => Config.getAsDateIn
  | time => Config.getAsTimeIn
  | systime => Config.getAsSystimeIn

end Getter

/-- `get_as<T>` for the three TOML types: `value<T>()` gives the value or nothing. -/
def Config.getAs (g : Getter) (c : Config) (keypath : Key) : Option g.Source :=
  g.as (c.atPath keypath)

end Unid.Common
