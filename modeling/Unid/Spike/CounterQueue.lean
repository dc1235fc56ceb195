import Unid.Spike.QueueTests

/-!
# The counter-based circular queue

`circular_queue.cpp` and `ipc_circular_queue.cpp` both keep a bounded queue of
unids in an array.  The first tells a full queue from an empty one by a counter
and starts `rear` at `-1`; the second leaves one slot free.  Run one call after
the other, a `Circular_queue(n)` of the first and a `Circular_queue(n + 1)` of
the second are the same bounded queue (`queues_agree`).

## Main definitions

* `Trap`, `CounterQueue` — the class of `circular_queue.cpp`, on 32-bit integers.
* `QueueOp`, `CounterQueue.run`, `CircularQueue.run` — sequences of calls of either class.
* `CircularQueue.SafeRun` — no index outside the array, no remainder by zero.
* `CounterQueue.Holds`, `CircularQueue.Holds` — what either class says of a list of unids.
-/

namespace Unid.Spike
open Lib

/-- What C++ leaves undefined in this code. -/
inductive Trap
  | overflow
  | remainder
  | bounds
  deriving DecidableEq

/-- The result of signed 32-bit arithmetic. -/
def int32 (x : ℤ) : Except Trap ℤ :=
  if -2 ^ 31 ≤ x ∧ x < 2 ^ 31 then .ok x else .error .overflow

/-- The operator `%`, which truncates towards zero. -/
def remainder (a b : ℤ) : Except Trap ℤ :=
  if b = 0 then .error .remainder else int32 (a.tmod b)

/-- The members of the counter-based `Circular_queue`; its numbers are `std::int32_t`. -/
structure CounterQueue where
  arr : ℕ → UnidVal
  front : ℤ
  rear : ℤ
  capacity : ℤ
  size : ℤ

namespace CounterQueue

/-- The constructor; `garbage` is what `new[]` leaves in the slots. -/
def new (k : Index) (garbage : ℕ → UnidVal) : Except String CounterQueue :=
  let capacity := k.toInt
  if capacity < 0 then .error "std::bad_array_new_length"
  else .ok { arr := garbage, front := 0, rear := -1, capacity, size := 0 }

def isEmpty (q : CounterQueue) : Bool := q.size == 0

def isFull (q : CounterQueue) : Bool := q.size == q.capacity

/-- `arr[i] = value`. -/
def store (q : CounterQueue) (i : ℤ) (value : UnidVal) : Except Trap (ℕ → UnidVal) :=
  if 0 ≤ i ∧ i < q.capacity then .ok fun k => if k = i.toNat then value else q.arr k
  else .error .bounds

/-- `(i + 1) % capacity`. -/
def advance (q : CounterQueue) (i : ℤ) : Except Trap ℤ := do
  remainder (← int32 (i + 1)) q.capacity

def enqueue (q : CounterQueue) (value : UnidVal) : Except Trap (Bool × CounterQueue) :=
  if q.isFull then .ok (false, q)
  else do
    let rear ← q.advance q.rear
    let arr ← q.store rear value
    let size ← int32 (q.size + 1)
    pure (true, { q with rear, arr, size })

def dequeue (q : CounterQueue) : Except Trap (Bool × CounterQueue) :=
  if q.isEmpty then .ok (false, q)
  else do
    let front ← q.advance q.front
    let size ← int32 (q.size - 1)
    pure (true, { q with front, size })

/-- The unids in the queue, from `front` on. -/
def contents (q : CounterQueue) : List UnidVal :=
  window q.arr q.capacity.toNat q.front.toNat q.size.toNat

end CounterQueue

/-- The unids in the queue, from `front` on. -/
def CircularQueue.contents (q : CircularQueue) : List UnidVal :=
  window q.queue q.capacity.toNat q.front.toNat q.size.toNat

/-! ## Sequences of calls -/

/-- A call of either class. -/
inductive QueueOp
  | enqueue (unid : UnidVal)
  | dequeue
  deriving DecidableEq

namespace CounterQueue

/-- One call: whether it was accepted, and the queue after it. -/
def call (q : CounterQueue) : QueueOp → Except Trap (Bool × CounterQueue)
  | .enqueue unid => q.enqueue unid
  | .dequeue => q.dequeue

/-- One call after the other. -/
def run (q : CounterQueue) : List QueueOp → Except Trap (List Bool × CounterQueue)
  | [] => .ok ([], q)
  | op :: ops => do
      let (accepted, q) ← q.call op
      let (answers, q) ← q.run ops
      pure (accepted :: answers, q)

end CounterQueue

namespace CircularQueue

/-- One call: whether it was accepted, an exception counting as a rejection, and the queue
after it. -/
def call (q : CircularQueue) : QueueOp → Bool × CircularQueue
  | .enqueue unid =>
      match (Spike.enqueue q.capacity unid).run handle q with
      | (.ok accepted, q) => (accepted, q)
      | (.error _, q) => (false, q)
  | .dequeue =>
      let (taken, q) := (Spike.dequeue q.capacity).run handle q
      (taken.isSome, q)

/-- One call after the other. -/
def run (q : CircularQueue) : List QueueOp → List Bool × CircularQueue
  | [] => ([], q)
  | op :: ops => ((q.call op).1 :: ((q.call op).2.run ops).1, ((q.call op).2.run ops).2)

/-- The accesses inside the array. -/
def InBounds : QReq → CircularQueue → Prop
  | .loadSlot i, q | .storeSlot i _, q => i < q.capacity
  | _, _ => True

/-- A call that takes no remainder by zero and stays inside the array. -/
def Safe (q : CircularQueue) (op : QueueOp) : Prop :=
  q.capacity ≠ 0 ∧ match op with
  | .enqueue unid => (Spike.enqueue q.capacity unid).Always handle InBounds q
  | .dequeue => (Spike.dequeue q.capacity).Always handle InBounds q

/-- Every call of the sequence is safe. -/
def SafeRun (q : CircularQueue) : List QueueOp → Prop
  | [] => True
  | op :: ops => q.Safe op ∧ (q.call op).2.SafeRun ops

end CircularQueue

/-- Two queues that look alike from outside. -/
structure Alike (c : CounterQueue) (q : CircularQueue) : Prop where
  contents : c.contents = q.contents
  empty : ∀ frontFirst, c.isEmpty = (wasEmpty frontFirst).val CircularQueue.handle q
  full : c.isFull = (wasFull q.capacity).val CircularQueue.handle q
  /-- `was_full` takes no remainder by zero either. -/
  divisor : q.capacity ≠ 0

/-! ## The counter-based queue holds a list -/

theorem int32_eq_ok {x : ℤ} (hlo : -2 ^ 31 ≤ x) (hhi : x < 2 ^ 31) : int32 x = .ok x :=
  if_pos ⟨hlo, hhi⟩

/-- A remainder of natural numbers. -/
theorem remainder_eq_ok {a n : ℕ} (hn : 0 < n) (hlt : n < 2 ^ 31) :
    remainder a n = .ok ((a % n : ℕ) : ℤ) := by
  have hmod := Nat.mod_lt a hn
  rw [remainder, if_neg (by omega), ← Int.ofNat_tmod]
  exact int32_eq_ok (by omega) (by omega)

namespace CounterQueue

/-- The queue has room for `n` unids and holds those of `xs`.  Where the next one goes, `rear`
says but for a lap. -/
structure Holds (q : CounterQueue) (n : ℕ) (xs : List UnidVal) : Prop where
  capacity : q.capacity = n
  lt : n < 2 ^ 31
  size : q.size = xs.length
  le : xs.length ≤ n
  front_nonneg : 0 ≤ q.front
  front_lt : 0 < n → q.front < n
  rear_ge : -1 ≤ q.rear
  rear_lt : q.rear < n
  rear : (q.rear + 1).toNat % n = (q.front.toNat + xs.length) % n
  contents : q.contents = xs

theorem holds_new {k : Index} (hk : k.toNat < 2 ^ 31) (garbage : ℕ → UnidVal) :
    ∃ q, new k garbage = .ok q ∧ q.Holds k.toNat [] := by
  have hint : k.toInt = k.toNat := BitVec.toInt_eq_toNat_of_lt (by omega)
  refine ⟨_, if_neg (by omega), ?_⟩
  exact ⟨hint, hk, rfl, Nat.zero_le _, le_rfl, fun h => by simpa using h, le_rfl,
    by simp; omega, by simp, rfl⟩

namespace Holds
variable {q : CounterQueue} {n : ℕ} {xs : List UnidVal}

theorem isEmpty_eq (H : q.Holds n xs) : q.isEmpty = decide (xs.length = 0) := by
  rw [isEmpty, H.size, Bool.eq_iff_iff]
  simp

theorem isFull_eq (H : q.Holds n xs) : q.isFull = decide (xs.length = n) := by
  rw [isFull, H.size, H.capacity, Bool.eq_iff_iff]
  simp only [beq_iff_eq, decide_eq_true_eq, Int.natCast_inj]

theorem toNat_capacity (H : q.Holds n xs) : q.capacity.toNat = n := by
  rw [H.capacity, Int.toNat_natCast]

/-- The slots from `front` on hold the unids. -/
theorem window_eq (H : q.Holds n xs) : window q.arr n q.front.toNat xs.length = xs := by
  have hcontents := H.contents
  rwa [CounterQueue.contents, H.toNat_capacity, H.size, Int.toNat_natCast] at hcontents

/-- Where the next unid goes. -/
theorem advance_rear (H : q.Holds n xs) (hn : 0 < n) :
    q.advance q.rear = .ok (((q.front.toNat + xs.length) % n : ℕ) : ℤ) := by
  have hlt := H.lt
  have hge := H.rear_ge
  have hrear := H.rear_lt
  obtain ⟨r, hr⟩ : ∃ r : ℕ, q.rear + 1 = r := ⟨(q.rear + 1).toNat, by omega⟩
  have hslot := H.rear
  rw [hr, Int.toNat_natCast] at hslot
  rw [← hslot, advance, hr, int32_eq_ok (by omega) (by omega), H.capacity]
  exact remainder_eq_ok hn hlt

/-- Where the second unid is. -/
theorem advance_front (H : q.Holds n xs) (hn : 0 < n) :
    q.advance q.front = .ok (((q.front.toNat + 1) % n : ℕ) : ℤ) := by
  have hlt := H.lt
  have hge := H.front_nonneg
  have hfront := H.front_lt hn
  rw [advance, show q.front + 1 = ((q.front.toNat + 1 : ℕ) : ℤ) by omega,
    int32_eq_ok (by omega) (by omega), H.capacity]
  exact remainder_eq_ok hn hlt

/-- A full queue rejects. -/
theorem enqueue_full (H : q.Holds n xs) (hfull : xs.length = n) (unid : UnidVal) :
    q.enqueue unid = .ok (false, q) := by
  rw [enqueue, if_pos (by rw [H.isFull_eq]; exact decide_eq_true hfull)]

/-- A queue with room takes the unid. -/
theorem enqueue_room (H : q.Holds n xs) (hroom : xs.length ≠ n) (unid : UnidVal) :
    ∃ q', q.enqueue unid = .ok (true, q') ∧ q'.Holds n (xs ++ [unid]) := by
  have hle := H.le
  have hlt := H.lt
  have hsize := H.size
  have hn : 0 < n := by omega
  let slot := (q.front.toNat + xs.length) % n
  have hslot : slot < n := Nat.mod_lt _ hn
  let q' : CounterQueue := { q with
    arr := fun k => if k = slot then unid else q.arr k
    rear := slot
    size := q.size + 1 }
  refine ⟨q', ?_, ?_⟩
  · have hstore : q.store (slot : ℤ) unid = .ok q'.arr := by
      rw [store, if_pos ⟨by omega, by rw [H.capacity]; omega⟩, Int.toNat_natCast]
    have hcount : int32 (q.size + 1) = .ok (q.size + 1) := int32_eq_ok (by omega) (by omega)
    have hrear : q.advance q.rear = .ok (slot : ℤ) := H.advance_rear hn
    rw [enqueue, if_neg (by rw [H.isFull_eq]; simpa using hroom)]
    simp only [hrear, hstore, hcount, bind, Except.bind]
    rfl
  · have hlen : q'.size.toNat = xs.length + 1 := by simp only [q', hsize]; omega
    refine ⟨H.capacity, H.lt, by simp [q', hsize], by simp; omega, H.front_nonneg, H.front_lt,
      by simp only [q']; omega, by simp only [q']; omega, ?_, ?_⟩
    · have hr : ((slot : ℤ) + 1).toNat = slot + 1 := by omega
      rw [hr, Nat.mod_add_mod, List.length_append, List.length_singleton, Nat.add_assoc]
    · rw [CounterQueue.contents, hlen, H.toNat_capacity]
      conv_rhs => rw [← H.window_eq]
      exact window_write (by omega) (fun j hj => if_neg hj) (if_pos rfl)

/-- An empty queue rejects. -/
theorem dequeue_empty (H : q.Holds n []) : q.dequeue = .ok (false, q) := by
  rw [dequeue, if_pos (by rw [H.isEmpty_eq]; rfl)]

/-- Any other gives up its first unid. -/
theorem dequeue_cons {x : UnidVal} (H : q.Holds n (x :: xs)) :
    ∃ q', q.dequeue = .ok (true, q') ∧ q'.Holds n xs := by
  have hle := H.le
  have hlt := H.lt
  have hsize := H.size
  rw [List.length_cons] at hle hsize
  have hn : 0 < n := by omega
  let front := (q.front.toNat + 1) % n
  have hfront : front < n := Nat.mod_lt _ hn
  let q' : CounterQueue := { q with front := front, size := q.size - 1 }
  refine ⟨q', ?_, ?_⟩
  · have hcount : int32 (q.size - 1) = .ok (q.size - 1) := int32_eq_ok (by omega) (by omega)
    have hfront : q.advance q.front = .ok (front : ℤ) := H.advance_front hn
    rw [dequeue, if_neg (by rw [H.isEmpty_eq]; simp)]
    simp only [hfront, hcount, bind, Except.bind]
    rfl
  · have hwindow := H.window_eq
    have hlen : q'.size.toNat = xs.length := by simp only [q']; omega
    rw [List.length_cons, window_succ] at hwindow
    refine ⟨H.capacity, H.lt, by simp only [q']; omega, by omega, by simp only [q']; omega,
      fun _ => by simp only [q']; omega, H.rear_ge, H.rear_lt, ?_, ?_⟩
    · have hrear := H.rear
      rw [List.length_cons] at hrear
      rw [hrear, Int.toNat_natCast, Nat.mod_add_mod, Nat.add_assoc, Nat.add_comm 1]
    · rw [CounterQueue.contents, hlen, H.toNat_capacity, Int.toNat_natCast, window_mod]
      exact (List.cons.inj hwindow).2

end Holds
end CounterQueue

/-! ## The queue with a free slot holds a list -/

namespace CircularQueue

/-- The queue has `cap` slots and holds the unids of `xs`. -/
structure Holds (q : CircularQueue) (cap : ℕ) (xs : List UnidVal) : Prop where
  capacity : q.capacity.toNat = cap
  lt : xs.length < cap
  front_lt : q.front.toNat < cap
  rear : q.rear.toNat = (q.front.toNat + xs.length) % cap
  size : q.size.toNat = xs.length
  contents : q.contents = xs

theorem holds_new {cap : Index} (hcap : 0 < cap) (garbage : ℕ → UnidVal) :
    ∃ q, new cap garbage = .ok q ∧ q.Holds cap.toNat [] :=
  ⟨_, new_eq_ok hcap garbage, rfl, hcap, hcap, (Nat.zero_mod _).symm, rfl, rfl⟩

/-- `enqueue` from start to end. -/
theorem run_enqueue (q : CircularQueue) (unid : UnidVal) :
    (Spike.enqueue q.capacity unid).run handle q =
      if increment q.capacity q.rear ≠ q.front then
        (.ok true, { q with
          queue := fun k => if k = q.rear.toNat then unid else q.queue k
          rear := increment q.capacity q.rear
          size := q.size + 1 })
      else (.error "enqueue(): Queue overflow", q) := by
  change Prog.run handle (if increment q.capacity q.rear ≠ q.front then
    enqueueWrite q.capacity unid q.rear else pure (.error "enqueue(): Queue overflow")) q = _
  split <;> rfl

/-- `dequeue` from start to end. -/
theorem run_dequeue (q : CircularQueue) :
    (Spike.dequeue q.capacity).run handle q =
      if q.front = q.rear then (none, q)
      else (some (q.queue q.front.toNat), { q with
        front := increment q.capacity q.front
        size := q.size - 1 }) := by
  change Prog.run handle (if q.front = q.rear then pure none
    else dequeueTake q.capacity q.front) q = _
  split <;> rfl

namespace Holds
variable {q : CircularQueue} {cap : ℕ} {xs : List UnidVal}

theorem capacity_ne_zero (H : q.Holds cap xs) : q.capacity ≠ 0 := by
  have hcap := H.capacity
  have hlt := H.lt
  intro hzero
  rw [hzero] at hcap
  simp at hcap
  omega

theorem rear_lt (H : q.Holds cap xs) : q.rear.toNat < cap := by
  rw [H.rear]
  exact Nat.mod_lt _ (by have := H.lt; omega)

theorem increment_rear (H : q.Holds cap xs) :
    (increment q.capacity q.rear).toNat = (q.front.toNat + xs.length + 1) % cap := by
  rw [increment_toNat (by rw [H.capacity]; exact H.rear_lt), H.capacity, H.rear, Nat.mod_add_mod]

theorem full_iff (H : q.Holds cap xs) :
    increment q.capacity q.rear = q.front ↔ xs.length + 1 = cap := by
  have hlt := H.lt
  have hlap : (q.front.toNat + xs.length + 1) % cap = q.front.toNat % cap ↔ _ :=
    mod_eq_mod_iff_of_lap (by omega) (by omega)
  rw [Nat.mod_eq_of_lt H.front_lt] at hlap
  rw [← BitVec.toNat_inj, H.increment_rear, hlap]
  omega

theorem empty_iff (H : q.Holds cap xs) : q.front = q.rear ↔ xs = [] := by
  have hlt := H.lt
  have hlap : (q.front.toNat + xs.length) % cap = q.front.toNat % cap ↔ _ :=
    mod_eq_mod_iff_of_lap (by omega) (by omega)
  rw [Nat.mod_eq_of_lt H.front_lt] at hlap
  rw [eq_comm, ← BitVec.toNat_inj, H.rear, hlap, ← List.length_eq_zero_iff]
  omega

/-- The slots from `front` on hold the unids. -/
theorem window_eq (H : q.Holds cap xs) : window q.queue cap q.front.toNat xs.length = xs := by
  have hcontents := H.contents
  rwa [CircularQueue.contents, H.capacity, H.size] at hcontents

/-- A full queue rejects. -/
theorem call_enqueue_full (H : q.Holds cap xs) (hfull : xs.length + 1 = cap) (unid : UnidVal) :
    q.call (.enqueue unid) = (false, q) := by
  rw [call, run_enqueue, if_neg (not_not.mpr (H.full_iff.mpr hfull))]

/-- A queue with room takes the unid. -/
theorem call_enqueue_room (H : q.Holds cap xs) (hroom : xs.length + 1 ≠ cap) (unid : UnidVal) :
    ∃ q', q.call (.enqueue unid) = (true, q') ∧ q'.Holds cap (xs ++ [unid]) := by
  have hlt := H.lt
  have hcap := H.capacity
  have hsize : (q.size + 1).toNat = xs.length + 1 := by
    have := q.capacity.isLt
    rw [BitVec.toNat_add, H.size]
    exact Nat.mod_eq_of_lt (by simp; omega)
  rw [call, run_enqueue, if_pos (mt H.full_iff.mp hroom)]
  refine ⟨_, rfl, hcap, by simp; omega, H.front_lt, ?_, ?_, ?_⟩
  · rw [H.increment_rear, List.length_append, List.length_singleton, Nat.add_assoc]
  · rw [hsize, List.length_append, List.length_singleton]
  · rw [CircularQueue.contents, hcap, hsize]
    conv_rhs => rw [← H.window_eq]
    rw [H.rear]
    exact window_write (by omega) (fun j hj => if_neg hj) (if_pos rfl)

/-- An empty queue rejects. -/
theorem call_dequeue_empty (H : q.Holds cap []) : q.call .dequeue = (false, q) := by
  rw [call, run_dequeue, if_pos (H.empty_iff.mpr rfl)]
  rfl

/-- Any other gives up its first unid. -/
theorem call_dequeue_cons {x : UnidVal} (H : q.Holds cap (x :: xs)) :
    ∃ q', q.call .dequeue = (true, q') ∧ q'.Holds cap xs := by
  have hlt := H.lt
  have hcap := H.capacity
  rw [List.length_cons] at hlt
  have hfront : (increment q.capacity q.front).toNat = (q.front.toNat + 1) % cap := by
    rw [increment_toNat (by rw [hcap]; exact H.front_lt), hcap]
  have hsize : (q.size - 1).toNat = xs.length := by
    have hold := H.size
    rw [List.length_cons] at hold
    bv_omega
  have hwindow := H.window_eq
  rw [List.length_cons, window_succ] at hwindow
  rw [call, run_dequeue, if_neg (mt H.empty_iff.mp (by simp))]
  refine ⟨_, rfl, hcap, by omega, ?_, ?_, hsize, ?_⟩
  · rw [hfront]
    exact Nat.mod_lt _ (by omega)
  · rw [hfront, H.rear, List.length_cons, Nat.mod_add_mod, Nat.add_assoc, Nat.add_comm 1]
  · rw [CircularQueue.contents, hcap, hsize, hfront, window_mod]
    exact (List.cons.inj hwindow).2

/-- Every access of a call is inside the array. -/
theorem safe (H : q.Holds cap xs) (op : QueueOp) : q.Safe op := by
  refine ⟨H.capacity_ne_zero, ?_⟩
  have hrear : q.rear < q.capacity := by
    rw [BitVec.lt_def, H.capacity]
    exact H.rear_lt
  have hfront : q.front < q.capacity := by
    rw [BitVec.lt_def, H.capacity]
    exact H.front_lt
  cases op with
  | enqueue unid =>
      refine ⟨trivial, trivial, ?_⟩
      change Prog.Always handle InBounds (if increment q.capacity q.rear ≠ q.front then
        enqueueWrite q.capacity unid q.rear else pure (.error "enqueue(): Queue overflow")) q
      split
      · exact ⟨hrear, trivial, trivial, trivial, trivial⟩
      · trivial
  | dequeue =>
      refine ⟨trivial, trivial, ?_⟩
      change Prog.Always handle InBounds (if q.front = q.rear then pure none
        else dequeueTake q.capacity q.front) q
      split
      · trivial
      · exact ⟨hfront, trivial, trivial, trivial, trivial⟩

end Holds
end CircularQueue

/-! ## The two classes side by side -/

section Couple
variable {c : CounterQueue} {q : CircularQueue} {n : ℕ} {xs : List UnidVal}

theorem alike_of_holds (C : c.Holds n xs) (Q : q.Holds (n + 1) xs) : Alike c q where
  contents := C.contents.trans Q.contents.symm
  empty := by
    intro frontFirst
    have hval : (wasEmpty frontFirst).val CircularQueue.handle q = (q.front == q.rear) := by
      cases frontFirst <;> rfl
    rw [hval, C.isEmpty_eq, Bool.eq_iff_iff]
    simp [Q.empty_iff]
  full := by
    have hval : (wasFull q.capacity).val CircularQueue.handle q =
        (CircularQueue.increment q.capacity q.rear == q.front) := rfl
    rw [hval, C.isFull_eq, Bool.eq_iff_iff]
    simp [Q.full_iff]
  divisor := Q.capacity_ne_zero

/-- One call: both accept or both reject, and hold the same list again. -/
theorem call_of_holds (C : c.Holds n xs) (Q : q.Holds (n + 1) xs) (op : QueueOp) :
    ∃ c' ys, c.call op = .ok ((q.call op).1, c') ∧ c'.Holds n ys ∧
      (q.call op).2.Holds (n + 1) ys := by
  cases op with
  | enqueue unid =>
      by_cases hfull : xs.length = n
      · have hq := Q.call_enqueue_full (by omega) unid
        rw [hq]
        exact ⟨c, xs, C.enqueue_full hfull unid, C, Q⟩
      · obtain ⟨q', hq, Q'⟩ := Q.call_enqueue_room (by omega) unid
        obtain ⟨c', hc, C'⟩ := C.enqueue_room hfull unid
        rw [hq]
        exact ⟨c', _, hc, C', Q'⟩
  | dequeue =>
      cases xs with
      | nil =>
          rw [Q.call_dequeue_empty]
          exact ⟨c, [], C.dequeue_empty, C, Q⟩
      | cons x xs =>
          obtain ⟨q', hq, Q'⟩ := Q.call_dequeue_cons
          obtain ⟨c', hc, C'⟩ := C.dequeue_cons
          rw [hq]
          exact ⟨c', xs, hc, C', Q'⟩

theorem run_of_holds (C : c.Holds n xs) (Q : q.Holds (n + 1) xs) (ops : List QueueOp) :
    ∃ c', c.run ops = .ok ((q.run ops).1, c') ∧ Alike c' (q.run ops).2 ∧ q.SafeRun ops := by
  induction ops generalizing c q xs with
  | nil => exact ⟨c, rfl, alike_of_holds C Q, trivial⟩
  | cons op ops ih =>
      obtain ⟨c₁, ys, hcall, C₁, Q₁⟩ := call_of_holds C Q op
      obtain ⟨c₂, hrun, halike, hsafe⟩ := ih C₁ Q₁
      refine ⟨c₂, ?_, halike, Q.safe op, hsafe⟩
      simp only [CounterQueue.run, hcall, hrun, bind, Except.bind]
      rfl

end Couple

/-- For every `n` an `int32_t` can hold, and every sequence of calls, a counter-based queue of
capacity `n` meets no undefined behaviour, a queue with a free slot of capacity `n + 1` stays
inside its array, and the two answer alike and are alike after it. -/
theorem queues_agree (n : Index) (hn : n.toNat < 2 ^ 31) (garbage garbage' : ℕ → UnidVal) :
    ∃ c q, CounterQueue.new n garbage = .ok c ∧ CircularQueue.new (n + 1) garbage' = .ok q ∧
      ∀ ops, ∃ c', c.run ops = .ok ((q.run ops).1, c') ∧ Alike c' (q.run ops).2 ∧
        q.SafeRun ops := by
  have hcap : (n + 1).toNat = n.toNat + 1 := by bv_omega
  obtain ⟨c, hc, C⟩ := CounterQueue.holds_new hn garbage
  have hpos : 0 < n + 1 := by bv_omega
  obtain ⟨q, hq, Q⟩ := CircularQueue.holds_new hpos garbage'
  rw [hcap] at Q
  exact ⟨c, q, hc, hq, run_of_holds C Q⟩

/-- Two unids fit, the third is rejected, and the next ones go around the array. -/
theorem queues_agree_run :
    let ops : List QueueOp :=
      [.enqueue 7, .enqueue 8, .enqueue 9, .dequeue, .enqueue 9, .dequeue, .dequeue, .dequeue]
    ∃ c q, CounterQueue.new 2 (fun _ => 1) = .ok c ∧ CircularQueue.new 3 (fun _ => 2) = .ok q ∧
      (q.run ops).1 = [true, true, false, true, true, true, true, false] ∧
      ∃ c', c.run ops = .ok ((q.run ops).1, c') ∧ Alike c' (q.run ops).2 ∧ q.SafeRun ops := by
  intro ops
  obtain ⟨c, q, hc, hq, hrun⟩ := queues_agree 2 (by decide) (fun _ => 1) fun _ => 2
  refine ⟨c, q, hc, hq, ?_, hrun ops⟩
  cases hq
  decide +kernel

end Unid.Spike
