import Unid.Lib.Prog
import Mathlib.Data.Fintype.Defs
import Mathlib.Order.Lattice

/-!
# Release and acquire

A memory of atomic and plain variables as threads of a C++ program see it.  An
atomic keeps all the values that were ever stored to it, in their order, and a
load may return any of them from the last one on that its thread has seen.  With
each value goes the view of the thread that stored it; an acquiring load takes
that view over.  A thread's view counts what it knows of: how far it has seen each
atomic, and which accesses to each plain variable happened before.

A plain access races when its thread does not know of all earlier accesses that
conflict with it.  Races are recorded by variable.

Stores are releasing, and an atomic is stored to by one thread only, so that the
order of the stores is the order in which they are made.

## Main definitions

* `Coord`, `View` — what there is to know of, and how much of it is known.
* `WeakMem` — the memory.
* `Access`, `WeakMem.handle`, `WeakMem.Allowed` — the accesses of a thread.
* `WeakMem.Wf` — what every access keeps.
* `WeakMem.Private` — a plain variable of one thread.
-/

namespace Unid.Lib

/-- What a thread can know of: the stores to an atomic, the writes to a plain variable, and the
reads of it by a thread. -/
inductive Coord (T A D : Type)
  | seen (a : A)
  | wrote (d : D)
  | read (d : D) (t : T)
  deriving DecidableEq

/-- How many of each are known. -/
abbrev View (T A D : Type) := Coord T A D → ℕ

/-- A value stored to an atomic, with what its thread knew. -/
structure Message (T A D V : Type) where
  value : V
  view : View T A D

structure WeakMem (T A D V : Type) (W : D → Type) where
  /-- The stores to each atomic; number 0 is its first value. -/
  history : A → ℕ → Message T A D V
  data : (d : D) → W d
  /-- How many there are of each. -/
  now : View T A D
  view : T → View T A D
  raced : D → Bool

/-- The memory order of a load. -/
inductive Order
  | relaxed
  | acquire
  deriving DecidableEq

inductive Access (A D V : Type) (W : D → Type)
  | load (o : Order) (a : A)
  | store (a : A) (v : V)
  | read (d : D)
  | write (d : D) (w : W d)

section
variable {T A D V : Type} {W : D → Type}

abbrev Access.Ans : Access A D V W → Type
  | .load .. => V
  | .store .. => Unit
  | .read d => W d
  | .write .. => Unit

abbrev AccessSig (A D V : Type) (W : D → Type) : Sig := ⟨Access A D V W, Access.Ans⟩

def Access.ask (e : Access A D V W) : Prog (AccessSig A D V W) e.Ans :=
  Prog.ask (E := AccessSig A D V W) e

namespace WeakMem
variable [DecidableEq T] [DecidableEq A] [DecidableEq D]

/-- As the threads start. -/
def init (value : A → V) (data : (d : D) → W d) : WeakMem T A D V W :=
  ⟨fun a _ => ⟨value a, fun _ => 0⟩, data, fun _ => 0, fun _ _ => 0, fun _ => false⟩

/-- What a load of store number `i` lets its thread know. -/
def learn (m : WeakMem T A D V W) (t : T) (o : Order) (a : A) (i : ℕ) : View T A D :=
  match o with
  | .relaxed => Function.update (m.view t) (.seen a) i
  | .acquire => m.view t ⊔ (m.history a i).view

def load (m : WeakMem T A D V W) (t : T) (o : Order) (a : A) (i : ℕ) : WeakMem T A D V W :=
  { m with view := Function.update m.view t (m.learn t o a i) }

/-- One more of `x`, by thread `t`. -/
def count (m : WeakMem T A D V W) (t : T) (x : Coord T A D) : WeakMem T A D V W :=
  { m with
    now := Function.update m.now x (m.now x + 1)
    view := Function.update m.view t (Function.update (m.view t) x (m.now x + 1)) }

def store (m : WeakMem T A D V W) (t : T) (a : A) (v : V) : WeakMem T A D V W :=
  let m' := m.count t (.seen a)
  { m' with
    history := Function.update m.history a
      (Function.update (m.history a) (m.now (.seen a) + 1) ⟨v, m'.view t⟩) }

/-- The thread knows of all writes. -/
def KnowsWrites (m : WeakMem T A D V W) (w : View T A D) (d : D) : Prop :=
  w (.wrote d) = m.now (.wrote d)

/-- The thread knows of all reads. -/
def KnowsReads (m : WeakMem T A D V W) (w : View T A D) (d : D) : Prop :=
  ∀ u, w (.read d u) = m.now (.read d u)

instance (m : WeakMem T A D V W) (w : View T A D) (d : D) : Decidable (m.KnowsWrites w d) :=
  inferInstanceAs (Decidable (_ = _))

instance [Fintype T] (m : WeakMem T A D V W) (w : View T A D) (d : D) :
    Decidable (m.KnowsReads w d) :=
  inferInstanceAs (Decidable (∀ _, _ = _))

/-- The access races unless `ok`. -/
def check (m : WeakMem T A D V W) (d : D) (ok : Bool) : WeakMem T A D V W :=
  { m with raced := Function.update m.raced d (m.raced d || !ok) }

def read (m : WeakMem T A D V W) (t : T) (d : D) : WeakMem T A D V W :=
  (m.check d (m.KnowsWrites (m.view t) d)).count t (.read d t)

def write [Fintype T] (m : WeakMem T A D V W) (t : T) (d : D) (w : W d) : WeakMem T A D V W :=
  let m' := (m.check d (m.KnowsWrites (m.view t) d ∧ m.KnowsReads (m.view t) d)).count t (.wrote d)
  { m' with data := Function.update m.data d w }

/-- An access of a thread; a load returns store number `i`. -/
def handle [Fintype T] (t : T) (i : ℕ) : Handler (AccessSig A D V W) (WeakMem T A D V W)
  | .load o a, m => ((m.history a i).value, m.load t o a i)
  | .store a v, m => ((), m.store t a v)
  | .read d, m => (m.data d, m.read t d)
  | .write d w, m => ((), m.write t d w)

/-- A load returns nothing older than its thread has seen. -/
def Allowed (t : T) (i : ℕ) : Access A D V W → WeakMem T A D V W → Prop
  | .load _ a, m => m.view t (.seen a) ≤ i ∧ i ≤ m.now (.seen a)
  | _, _ => True

instance (t : T) (i : ℕ) (e : Access A D V W) (m : WeakMem T A D V W) :
    Decidable (Allowed t i e m) :=
  match e with
  | .load _ _ => inferInstanceAs (Decidable (_ ∧ _))
  | .store _ _ | .read _ | .write _ _ => .isTrue trivial

/-! ## What each access changes -/

section Changes
variable (m : WeakMem T A D V W) {t u : T} {a a' : A} {d d' : D} {o : Order} {i j : ℕ}
  {x y : Coord T A D}

@[simp] theorem load_history : (m.load t o a i).history = m.history := rfl
@[simp] theorem load_data : (m.load t o a i).data = m.data := rfl
@[simp] theorem load_now : (m.load t o a i).now = m.now := rfl
@[simp] theorem load_raced : (m.load t o a i).raced = m.raced := rfl

@[simp] theorem load_view_self : (m.load t o a i).view t = m.learn t o a i :=
  Function.update_self ..

theorem load_view_of_ne (h : u ≠ t) : (m.load t o a i).view u = m.view u :=
  Function.update_of_ne h ..

/-- Loading again what was seen last teaches nothing. -/
theorem load_relaxed_seen (h : i = m.view t (.seen a)) : m.load t .relaxed a i = m := by
  simp only [load, learn, h, Function.update_eq_self]

@[simp] theorem count_history : (m.count t x).history = m.history := rfl
@[simp] theorem count_data : (m.count t x).data = m.data := rfl
@[simp] theorem count_raced : (m.count t x).raced = m.raced := rfl
@[simp] theorem count_now_self : (m.count t x).now x = m.now x + 1 := Function.update_self ..

theorem count_now_of_ne (h : y ≠ x) : (m.count t x).now y = m.now y := Function.update_of_ne h ..

@[simp] theorem count_view_self : (m.count t x).view t x = m.now x + 1 := by
  simp [count]

theorem count_view_of_ne (h : y ≠ x) : (m.count t x).view u y = m.view u y := by
  by_cases hu : u = t
  · subst hu
    simp [count, h]
  · simp [count, hu]

theorem count_view_other (h : u ≠ t) : (m.count t x).view u = m.view u :=
  Function.update_of_ne h ..

@[simp] theorem store_data (v : V) : (m.store t a v).data = m.data := rfl
@[simp] theorem store_raced (v : V) : (m.store t a v).raced = m.raced := rfl

theorem store_now_self (v : V) : (m.store t a v).now (.seen a) = m.now (.seen a) + 1 :=
  m.count_now_self (t := t)

theorem store_now_of_ne (v : V) (h : y ≠ .seen a) : (m.store t a v).now y = m.now y :=
  m.count_now_of_ne (t := t) h

theorem store_view_self (v : V) : (m.store t a v).view t (.seen a) = m.now (.seen a) + 1 :=
  m.count_view_self

theorem store_view_of_ne (v : V) (h : y ≠ .seen a) : (m.store t a v).view u y = m.view u y :=
  m.count_view_of_ne h

theorem store_view_other (v : V) (h : u ≠ t) : (m.store t a v).view u = m.view u :=
  m.count_view_other h

@[simp] theorem store_history_new (v : V) :
    (m.store t a v).history a (m.now (.seen a) + 1) = ⟨v, (m.store t a v).view t⟩ := by
  simp [store]

theorem store_history_old (v : V) (h : i ≤ m.now (.seen a)) :
    (m.store t a v).history a i = m.history a i := by
  have hne : i ≠ m.now (.seen a) + 1 := by omega
  simp [store, hne]

theorem store_history_other (v : V) (h : a' ≠ a) : (m.store t a v).history a' = m.history a' :=
  Function.update_of_ne h ..

@[simp] theorem read_history : (m.read t d).history = m.history := rfl
@[simp] theorem read_data : (m.read t d).data = m.data := rfl

theorem read_now_of_ne (h : y ≠ .read d t) : (m.read t d).now y = m.now y :=
  (m.check d _).count_now_of_ne (t := t) h

theorem read_view_of_ne (h : y ≠ .read d t) : (m.read t d).view u y = m.view u y :=
  (m.check d _).count_view_of_ne h

theorem read_raced_other (h : d' ≠ d) : (m.read t d).raced d' = m.raced d' :=
  Function.update_of_ne h ..

theorem read_now_self : (m.read t d).now (.read d t) = m.now (.read d t) + 1 :=
  (m.check d _).count_now_self (t := t)

/-- A race is not forgotten. -/
theorem read_raced_of_raced (h : m.raced d = true) : (m.read t d).raced d = true := by
  simp [read, check, h]

/-- A read races with a write it does not know of. -/
theorem read_raced_of_lt (h : m.view t (.wrote d) < m.now (.wrote d)) :
    (m.read t d).raced d = true := by
  simp [read, check, KnowsWrites, h.ne]

/-- A read that knows of all writes does not race. -/
theorem read_raced (h : m.KnowsWrites (m.view t) d) : (m.read t d).raced = m.raced := by
  simp [read, check, h]

variable [Fintype T]

@[simp] theorem write_history (w : W d) : (m.write t d w).history = m.history := rfl

theorem write_now_of_ne (w : W d) (h : y ≠ .wrote d) : (m.write t d w).now y = m.now y :=
  (m.check d _).count_now_of_ne (t := t) h

theorem write_view_of_ne (w : W d) (h : y ≠ .wrote d) : (m.write t d w).view u y = m.view u y :=
  (m.check d _).count_view_of_ne h

/-- A thread knows of its own write. -/
theorem write_known_self (w : W d) :
    (m.write t d w).view t (.wrote d) = (m.write t d w).now (.wrote d) :=
  (m.check d _).count_view_self.trans ((m.check d _).count_now_self (t := t)).symm

@[simp] theorem write_data_self (w : W d) : (m.write t d w).data d = w := Function.update_self ..

theorem write_data_other (w : W d) (h : d' ≠ d) : (m.write t d w).data d' = m.data d' :=
  Function.update_of_ne h ..

theorem write_raced_other (w : W d) (h : d' ≠ d) : (m.write t d w).raced d' = m.raced d' :=
  Function.update_of_ne h ..

theorem write_now_self (w : W d) : (m.write t d w).now (.wrote d) = m.now (.wrote d) + 1 :=
  (m.check d _).count_now_self (t := t)

theorem write_view_other (w : W d) (h : u ≠ t) : (m.write t d w).view u = m.view u :=
  (m.check d _).count_view_other h

/-- A race is not forgotten. -/
theorem write_raced_of_raced (w : W d) (h : m.raced d = true) :
    (m.write t d w).raced d = true := by
  simp [write, check, h]

/-- A write races with a read it does not know of. -/
theorem write_raced_of_lt (w : W d) (h : m.view t (.read d u) < m.now (.read d u)) :
    (m.write t d w).raced d = true := by
  have hnot : ¬ m.KnowsReads (m.view t) d := fun hall => h.ne (hall u)
  simp [write, check, hnot]

/-- A write that knows of all accesses does not race. -/
theorem write_raced (w : W d) (h : m.KnowsWrites (m.view t) d) (h' : m.KnowsReads (m.view t) d) :
    (m.write t d w).raced = m.raced := by
  simp [write, check, h, h']

end Changes

/-! ## What every access keeps -/

/-- Nobody knows of what has not happened, and every thread knows of its own reads. -/
structure Wf (m : WeakMem T A D V W) : Prop where
  view_le : ∀ t, m.view t ≤ m.now
  message_le : ∀ a i, i ≤ m.now (.seen a) → (m.history a i).view ≤ m.now
  message_seen : ∀ a i, i ≤ m.now (.seen a) → (m.history a i).view (.seen a) = i
  own : ∀ t d, m.view t (.read d t) = m.now (.read d t)

omit [DecidableEq T] [DecidableEq A] [DecidableEq D] in
theorem wf_init (value : A → V) (data : (d : D) → W d) :
    (init value data : WeakMem T A D V W).Wf :=
  ⟨fun _ _ => le_rfl, fun _ _ _ _ => le_rfl, fun _ _ h => (Nat.le_zero.mp h).symm,
    fun _ _ => rfl⟩

namespace Wf
variable {m : WeakMem T A D V W} {t : T} {a : A} {d : D} {o : Order} {i : ℕ}

theorem learn_le (h : m.Wf) (hi : i ≤ m.now (.seen a)) : m.learn t o a i ≤ m.now := by
  cases o with
  | relaxed => exact update_le_iff.mpr ⟨hi, fun y _ => h.view_le t y⟩
  | acquire => exact sup_le (h.view_le t) (h.message_le a i hi)

/-- A load sees the store it returns. -/
theorem learn_seen (h : m.Wf) (hseen : m.view t (.seen a) ≤ i) (hi : i ≤ m.now (.seen a)) :
    m.learn t o a i (.seen a) = i := by
  cases o with
  | relaxed => exact Function.update_self ..
  | acquire =>
      rw [learn, Pi.sup_apply, h.message_seen a i hi]
      exact max_eq_right hseen

/-- What a thread knows in full it still knows in full. -/
theorem learn_eq_now (h : m.Wf) (hi : i ≤ m.now (.seen a)) {x : Coord T A D}
    (hx : x ≠ .seen a ∨ o = .acquire) (hnow : m.view t x = m.now x) :
    m.learn t o a i x = m.now x := by
  refine Nat.le_antisymm (h.learn_le hi x) ?_
  cases o with
  | relaxed =>
      have hne : x ≠ .seen a := hx.resolve_right (by simp)
      rw [learn, Function.update_of_ne hne, hnow]
  | acquire => exact hnow ▸ le_sup_left (a := m.view t x)

/-- An acquiring load brings what the storing thread knew in full. -/
theorem learn_message (h : m.Wf) (hi : i ≤ m.now (.seen a)) {x : Coord T A D}
    (hx : (m.history a i).view x = m.now x) : m.learn t .acquire a i x = m.now x :=
  Nat.le_antisymm (h.learn_le hi x) (hx ▸ le_sup_right)

theorem load (h : m.Wf) (hi : i ≤ m.now (.seen a)) : (m.load t o a i).Wf := by
  refine ⟨?_, h.message_le, h.message_seen, ?_⟩
  · intro u
    by_cases hu : u = t
    · subst hu
      rw [load_view_self]
      exact h.learn_le hi
    · rw [load_view_of_ne _ hu]
      exact h.view_le u
  · intro u d
    by_cases hu : u = t
    · subst hu
      rw [load_view_self]
      exact h.learn_eq_now hi (.inl (by simp)) (h.own u d)
    · rw [load_view_of_ne _ hu]
      exact h.own u d

theorem le_count (m : WeakMem T A D V W) (t : T) (x : Coord T A D) : m.now ≤ (m.count t x).now := by
  intro y
  by_cases hy : y = x
  · subst hy
    rw [count_now_self]
    exact Nat.le_succ _
  · rw [count_now_of_ne _ hy]

theorem view_le_count (h : m.Wf) (x : Coord T A D) (u : T) :
    (m.count t x).view u ≤ (m.count t x).now := by
  intro y
  by_cases hu : u = t
  · subst hu
    by_cases hy : y = x
    · subst hy
      rw [count_view_self, count_now_self]
    · rw [count_view_of_ne _ hy, count_now_of_ne _ hy]
      exact h.view_le u y
  · rw [count_view_other _ hu]
    exact (h.view_le u y).trans (le_count m t x y)

/-- A thread's own accesses are known to it. -/
theorem own_count (h : m.Wf) {x : Coord T A D} (hx : ∀ d u, x = .read d u → u = t) (u : T) (d : D) :
    (m.count t x).view u (.read d u) = (m.count t x).now (.read d u) := by
  by_cases hy : Coord.read d u = x
  · obtain rfl := hx d u hy.symm
    rw [hy, count_view_self, count_now_self]
  · rw [count_view_of_ne _ hy, count_now_of_ne _ hy]
    exact h.own u d

theorem count (h : m.Wf) {x : Coord T A D} (hseen : ∀ a, x ≠ .seen a)
    (hx : ∀ d u, x = .read d u → u = t) : (m.count t x).Wf := by
  refine ⟨h.view_le_count x, ?_, ?_, h.own_count hx⟩
  · intro a i hi
    rw [count_now_of_ne _ (hseen a).symm] at hi
    exact (h.message_le a i hi).trans (le_count m t x)
  · intro a i hi
    rw [count_now_of_ne _ (hseen a).symm] at hi
    exact h.message_seen a i hi

omit [DecidableEq T] [DecidableEq A] in
theorem check (h : m.Wf) (ok : Bool) : (m.check d ok).Wf :=
  ⟨h.view_le, h.message_le, h.message_seen, h.own⟩

theorem store (h : m.Wf) (v : V) : (m.store t a v).Wf := by
  have hview := h.view_le_count (t := t) (.seen a)
  have hmessage : ∀ a' i, i ≤ (m.count t (.seen a)).now (.seen a') →
      (a' = a ∧ i = m.now (.seen a) + 1) ∨
        (i ≤ m.now (.seen a') ∧ (m.store t a v).history a' i = m.history a' i) := by
    intro a' i hi
    by_cases ha : a' = a
    · subst ha
      rw [count_now_self] at hi
      rcases Nat.le_or_eq_of_le_succ hi with hi | hi
      · exact .inr ⟨hi, store_history_old m v hi⟩
      · exact .inl ⟨rfl, hi⟩
    · rw [count_now_of_ne _ (by simpa using ha)] at hi
      exact .inr ⟨hi, by rw [store_history_other m v ha]⟩
  refine ⟨hview, ?_, ?_, h.own_count (by simp)⟩
  · intro a' i hi
    rcases hmessage a' i hi with ⟨rfl, rfl⟩ | ⟨hi, heq⟩
    · rw [store_history_new]
      exact hview t
    · rw [heq]
      exact (h.message_le a' i hi).trans (le_count m t _)
  · intro a' i hi
    rcases hmessage a' i hi with ⟨rfl, rfl⟩ | ⟨hi, heq⟩
    · rw [store_history_new]
      exact store_view_self m v
    · rw [heq]
      exact h.message_seen a' i hi

theorem read (h : m.Wf) : (m.read t d).Wf :=
  (h.check _).count (by simp) (by simp)

theorem write [Fintype T] (h : m.Wf) (w : W d) : (m.write t d w).Wf :=
  have h' := (h.check (d := d) (m.KnowsWrites (m.view t) d ∧ m.KnowsReads (m.view t) d)).count
    (t := t) (x := .wrote d) (by simp) (by simp)
  ⟨h'.view_le, h'.message_le, h'.message_seen, h'.own⟩

end Wf

/-! ## Variables of one thread -/

/-- The thread knows of all accesses, and there has been no race. -/
structure Private (m : WeakMem T A D V W) (t : T) (d : D) : Prop where
  writes : m.KnowsWrites (m.view t) d
  reads : m.KnowsReads (m.view t) d
  quiet : m.raced d = false

omit [DecidableEq T] [DecidableEq A] [DecidableEq D] in
theorem private_init (value : A → V) (data : (d : D) → W d) (t : T) (d : D) :
    (init value data : WeakMem T A D V W).Private t d :=
  ⟨rfl, fun _ => rfl, rfl⟩

namespace Private
variable {m : WeakMem T A D V W} {t u : T} {d d' : D}

theorem load {o : Order} {a : A} {i : ℕ} (P : m.Private t d) (h : m.Wf)
    (hi : i ≤ m.now (.seen a)) : (m.load u o a i).Private t d := by
  by_cases hu : t = u
  · subst hu
    refine ⟨?_, ?_, P.quiet⟩
    · exact (congrFun m.load_view_self _).trans (h.learn_eq_now hi (.inl (by simp)) P.writes)
    · intro v
      exact (congrFun m.load_view_self _).trans (h.learn_eq_now hi (.inl (by simp)) (P.reads v))
  · have hview : (m.load u o a i).view t = m.view t := m.load_view_of_ne hu
    exact ⟨hview ▸ P.writes, fun v => hview ▸ P.reads v, P.quiet⟩

theorem store {a : A} (P : m.Private t d) (v : V) : (m.store u a v).Private t d := by
  refine ⟨?_, ?_, P.quiet⟩
  · exact (m.store_view_of_ne v (by simp)).trans
      (P.writes.trans (m.store_now_of_ne v (by simp)).symm)
  · intro w
    exact (m.store_view_of_ne v (by simp)).trans
      ((P.reads w).trans (m.store_now_of_ne v (by simp)).symm)

theorem read_other (P : m.Private t d) (h : d ≠ d') : (m.read u d').Private t d := by
  refine ⟨?_, ?_, (m.read_raced_other h).trans P.quiet⟩
  · exact (m.read_view_of_ne (by simp)).trans (P.writes.trans (m.read_now_of_ne (by simp)).symm)
  · intro w
    have hne : (Coord.read d w : Coord T A D) ≠ .read d' u := by simp [h]
    exact (m.read_view_of_ne hne).trans ((P.reads w).trans (m.read_now_of_ne hne).symm)

/-- The thread itself reads its variable. -/
theorem read (P : m.Private t d) (h : m.Wf) : (m.read t d).Private t d := by
  refine ⟨?_, ?_, ?_⟩
  · exact (m.read_view_of_ne (by simp)).trans (P.writes.trans (m.read_now_of_ne (by simp)).symm)
  · intro w
    by_cases hw : w = t
    · subst hw
      exact h.read.own w d
    · have hne : (Coord.read d w : Coord T A D) ≠ .read d t := by simp [hw]
      exact (m.read_view_of_ne hne).trans ((P.reads w).trans (m.read_now_of_ne hne).symm)
  · rw [m.read_raced P.writes]
    exact P.quiet

variable [Fintype T]

theorem write_other (P : m.Private t d) (h : d ≠ d') (w : W d') :
    (m.write u d' w).Private t d := by
  refine ⟨?_, ?_, (m.write_raced_other w h).trans P.quiet⟩
  · have hne : (Coord.wrote d : Coord T A D) ≠ .wrote d' := by simp [h]
    exact (m.write_view_of_ne w hne).trans (P.writes.trans (m.write_now_of_ne w hne).symm)
  · intro v
    exact (m.write_view_of_ne w (by simp)).trans
      ((P.reads v).trans (m.write_now_of_ne w (by simp)).symm)

/-- The thread itself writes its variable. -/
theorem write (P : m.Private t d) (w : W d) : (m.write t d w).Private t d := by
  refine ⟨m.write_known_self w, ?_, ?_⟩
  · intro v
    exact (m.write_view_of_ne w (by simp)).trans
      ((P.reads v).trans (m.write_now_of_ne w (by simp)).symm)
  · rw [m.write_raced w P.writes P.reads]
    exact P.quiet

end Private
end WeakMem
end
end Unid.Lib
