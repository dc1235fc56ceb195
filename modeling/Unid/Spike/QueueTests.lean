import Unid.Spike.QueueContract

/-!
# The state tests of the circular queue

`was_empty` and `was_full` load the two indices one after the other, and the
header warns that their answer may be out of date.  It may, but on one side only:
what the producer sees of `front` can only have made less room than there is, and
what the consumer sees of `rear` fewer unids than there are.  So `was_full` is
reliable when it returns `false` to the producer, and `was_empty` when it returns
`false` to the consumer (`tests_reliable`).

## Main definitions

* `wasEmpty`, `wasFull` — the two tests, as programs over loads.
* `TestedQueue`, `spscTests` — producer and consumer that also call the tests.
* `TestedQueue.Reliable` — a call that a test has promised success succeeds.
* `TestedQueue.Tracks` — the invariant.
-/

namespace Unid.Spike
open Lib

/-- `was_empty`.  Which operand of `==` is loaded first is left to the compiler. -/
def wasEmpty (frontFirst : Bool) : Q Bool :=
  if frontFirst then do
    let front ← QReq.ask .loadFront
    let rear ← QReq.ask .loadRear
    pure (front == rear)
  else do
    let rear ← QReq.ask .loadRear
    let front ← QReq.ask .loadFront
    pure (front == rear)

def wasFull (capacity : Index) : Q Bool := do
  let nextRear := CircularQueue.increment capacity (← QReq.ask .loadRear)
  pure (nextRear == (← QReq.ask .loadFront))

/-- The two tests. -/
inductive Test
  | wasEmpty (frontFirst : Bool)
  | wasFull
  deriving DecidableEq

namespace Test

def code (capacity : Index) : Test → Q Bool
  | wasEmpty frontFirst => Spike.wasEmpty frontFirst
  | wasFull => Spike.wasFull capacity

/-- The test that concerns the consumer. -/
def isWasEmpty : Test → Bool
  | wasEmpty _ => true
  | wasFull => false

/-- The test that concerns the producer. -/
def isWasFull : Test → Bool
  | wasEmpty _ => false
  | wasFull => true

end Test

/-! ## Producer and consumer that call the tests -/

/-- A side of the queue as a caller of tests. -/
structure Tester where
  /-- The test that is running, with what is left of it. -/
  asks : Option (Test × Q Bool)
  /-- The test of this side has returned `false`, and the call it is about is yet to end. -/
  assured : Bool

/-- The test `t` has `p` left to do; `own` if it is the test of this side. -/
def Tester.answered (c : Tester) (own : Bool) (t : Test) : Q Bool → Tester
  | .ret b => ⟨none, c.assured || (own && !b)⟩
  | .req e k => ⟨some (t, .req e k), c.assured⟩

structure TestedQueue where
  base : QueueState
  producer : Tester
  consumer : Tester
  /-- How each `enqueue` ended, and whether `was_full` had returned `false` before it. -/
  enqueues : List (Bool × Except String Bool)
  /-- How each `dequeue` ended, and whether `was_empty` had returned `false` before it. -/
  dequeues : List (Bool × Option UnidVal)

/-- What may happen next: a step of the queue, or of a test. -/
inductive TestEvent
  | queue (e : QueueEvent)
  | producerTest (t : Test)
  | producerLoad
  | consumerTest (t : Test)
  | consumerLoad
  deriving DecidableEq

/-- What the `enqueue` that is running returns, if its next load or store is its last. -/
def Producer.last (q : CircularQueue) : Producer → Option (Except String Bool)
  | idle => none
  | running _ p => p.last CircularQueue.handle q

/-- What the `dequeue` that is running returns, if its next load or store is its last. -/
def Consumer.last (q : CircularQueue) : Consumer → Option (Option UnidVal)
  | idle => none
  | running p => p.last CircularQueue.handle q

namespace TestedQueue

/-- Producer and consumer come to a new queue. -/
def start (q : CircularQueue) : TestedQueue :=
  ⟨.start q, ⟨none, false⟩, ⟨none, false⟩, [], []⟩

/-- A step of the queue; the end of a call uses up what its test has promised. -/
def step (s : TestedQueue) (e : QueueEvent) : TestedQueue :=
  let t := { s with base := s.base.next e }
  match e with
  | .produce =>
      match s.base.producer.last s.base.queue with
      | some r => { t with
          producer := { s.producer with assured := false }
          enqueues := (s.producer.assured, r) :: s.enqueues }
      | none => t
  | .consume =>
      match s.base.consumer.last s.base.queue with
      | some r => { t with
          consumer := { s.consumer with assured := false }
          dequeues := (s.consumer.assured, r) :: s.dequeues }
      | none => t
  | .enqueue _ | .dequeue => t

/-- The queue after a request. -/
def requested (s : TestedQueue) (e : QReq) : QueueState :=
  { s.base with queue := (CircularQueue.handle e s.base.queue).2 }

/-- The producer's test makes its next load. -/
def producerLoad (s : TestedQueue) : TestedQueue :=
  match s.producer.asks with
  | some (t, .req e k) => { s with
      base := s.requested e
      producer := s.producer.answered t.isWasFull t (k (CircularQueue.handle e s.base.queue).1) }
  | _ => s

/-- The consumer's test makes its next load. -/
def consumerLoad (s : TestedQueue) : TestedQueue :=
  match s.consumer.asks with
  | some (t, .req e k) => { s with
      base := s.requested e
      consumer := s.consumer.answered t.isWasEmpty t (k (CircularQueue.handle e s.base.queue).1) }
  | _ => s

def next (s : TestedQueue) : TestEvent → TestedQueue
  | .queue e => s.step e
  | .producerTest t =>
      { s with producer := { s.producer with asks := some (t, t.code s.base.queue.capacity) } }
  | .producerLoad => s.producerLoad
  | .consumerTest t =>
      { s with consumer := { s.consumer with asks := some (t, t.code s.base.queue.capacity) } }
  | .consumerLoad => s.consumerLoad

/-- Each side makes one call at a time. -/
def guard (s : TestedQueue) : TestEvent → Prop
  | .queue (.enqueue unid) => s.base.guard (.enqueue unid) ∧ s.producer.asks.isNone = true
  | .queue .dequeue => s.base.guard .dequeue ∧ s.consumer.asks.isNone = true
  | .queue e => s.base.guard e
  | .producerTest _ => s.base.producer.isIdle = true ∧ s.producer.asks.isNone = true
  | .producerLoad => s.producer.asks.isSome = true
  | .consumerTest _ => s.base.consumer.isIdle = true ∧ s.consumer.asks.isNone = true
  | .consumerLoad => s.consumer.asks.isSome = true

instance (s : TestedQueue) : (e : TestEvent) → Decidable (s.guard e)
  | .queue (.enqueue _) | .queue .dequeue | .producerTest _ | .consumerTest _ =>
      inferInstanceAs (Decidable (_ ∧ _))
  | .queue .produce | .queue .consume | .producerLoad | .consumerLoad =>
      inferInstanceAs (Decidable (_ = _))

/-- A call whose side had been told `false` succeeds, and a call that is running ends within
six loads and stores of its own. -/
structure Reliable (s : TestedQueue) : Prop where
  enqueues : ∀ r, (true, r) ∈ s.enqueues → r = .ok true
  dequeues : ∀ r, (true, r) ∈ s.dequeues → ∃ unid, r = some unid
  enqueue_ends : ∀ unid p, s.base.producer = .running unid p → p.Within 6
  dequeue_ends : ∀ p, s.base.consumer = .running p → p.Within 6

end TestedQueue

/-- One producer and one consumer on one queue, which they also test. -/
def spscTests : Machine TestedQueue TestEvent := ⟨TestedQueue.next, TestedQueue.guard⟩

instance (s : TestedQueue) (e : TestEvent) : Decidable (spscTests.guard s e) :=
  inferInstanceAs (Decidable (s.guard e))

/-! ## What a side sees of the other -/

namespace QueueState

/-- A step of the consumer, as the producer sees it: it may make room. -/
structure Drained (s t : QueueState) : Prop where
  capacity : t.queue.capacity = s.queue.capacity
  rear : t.queue.rear = s.queue.rear
  stored : t.stored = s.stored
  taken : s.taken ≤ t.taken

/-- A step of the producer, as the consumer sees it: it may add unids. -/
structure Fed (s t : QueueState) : Prop where
  capacity : t.queue.capacity = s.queue.capacity
  front : t.queue.front = s.queue.front
  taken : t.taken = s.taken
  stored : s.stored.length ≤ t.stored.length

namespace Tracks
variable {s : QueueState} {ps : PStage} {cs : CStage}

theorem drained (T : s.Tracks ps cs) : s.Drained s.consume := by
  have hcons := T.consumer
  cases cs with
  | idle => rw [consume_idle hcons]; exact ⟨rfl, rfl, rfl, le_rfl⟩
  | reading => rw [consume_reading hcons]; exact ⟨rfl, rfl, rfl, le_rfl⟩
  | testing f =>
      by_cases hempty : f = s.queue.rear
      · rw [consume_empty hcons hempty]; exact ⟨rfl, rfl, rfl, le_rfl⟩
      · rw [consume_found hcons hempty]; exact ⟨rfl, rfl, rfl, le_rfl⟩
  | taking f => rw [consume_taking hcons]; exact ⟨rfl, rfl, rfl, le_rfl⟩
  | advancing f unid => rw [consume_advancing hcons]; exact ⟨rfl, rfl, rfl, Nat.le_succ _⟩
  | counting unid => rw [consume_counting hcons]; exact ⟨rfl, rfl, rfl, le_rfl⟩
  | subtracting unid n => rw [consume_subtracting hcons]; exact ⟨rfl, rfl, rfl, le_rfl⟩

theorem fed (T : s.Tracks ps cs) : s.Fed s.produce := by
  have hprod := T.producer
  cases ps with
  | idle => rw [produce_idle hprod]; exact ⟨rfl, rfl, rfl, le_rfl⟩
  | reading unid => rw [produce_reading hprod]; exact ⟨rfl, rfl, rfl, le_rfl⟩
  | testing unid r =>
      by_cases hroom : CircularQueue.increment s.queue.capacity r ≠ s.queue.front
      · rw [produce_room hprod hroom]; exact ⟨rfl, rfl, rfl, le_rfl⟩
      · rw [produce_full hprod (not_not.mp hroom)]; exact ⟨rfl, rfl, rfl, le_rfl⟩
  | writing unid r => rw [produce_writing hprod]; exact ⟨rfl, rfl, rfl, le_rfl⟩
  | publishing unid r =>
      rw [produce_publishing hprod]
      exact ⟨rfl, rfl, rfl, by simp⟩
  | counting unid => rw [produce_counting hprod]; exact ⟨rfl, rfl, rfl, le_rfl⟩
  | adding unid n => rw [produce_adding hprod]; exact ⟨rfl, rfl, rfl, le_rfl⟩

end Tracks
end QueueState

/-! ## How a call ends -/

/-- What `enqueue` returns with its next load or store. -/
def PStage.last (q : CircularQueue) : PStage → Option (Except String Bool)
  | testing _ r =>
      if CircularQueue.increment q.capacity r ≠ q.front then none
      else some (.error "enqueue(): Queue overflow")
  | adding .. => some (.ok true)
  | _ => none

/-- What `dequeue` returns with its next load or store. -/
def CStage.last (q : CircularQueue) : CStage → Option (Option UnidVal)
  | testing f => if f = q.rear then some none else none
  | subtracting unid _ => some (some unid)
  | _ => none

/-- An `enqueue` that ends has found no room, or has been counted. -/
theorem PStage.of_last_eq_some {q : CircularQueue} {ps : PStage} {r : Except String Bool}
    (h : ps.last q = some r) : (∃ unid i, ps = testing unid i ∧
      ¬ CircularQueue.increment q.capacity i ≠ q.front) ∨ r = .ok true := by
  cases ps with
  | testing unid i =>
      refine .inl ⟨unid, i, rfl, ?_⟩
      intro hroom
      rw [last, if_pos hroom] at h
      cases h
  | adding unid n => exact .inr (Option.some.inj h).symm
  | _ => cases h

/-- A `dequeue` that ends has found no unid, or returns one. -/
theorem CStage.of_last_eq_some {q : CircularQueue} {cs : CStage} {r : Option UnidVal}
    (h : cs.last q = some r) :
    (∃ f, cs = testing f ∧ f = q.rear) ∨ ∃ unid, r = some unid := by
  cases cs with
  | testing f =>
      refine .inl ⟨f, rfl, ?_⟩
      by_contra hne
      rw [last, if_neg hne] at h
      cases h
  | subtracting unid n => exact .inr ⟨unid, (Option.some.inj h).symm⟩
  | _ => cases h

theorem PStage.last_producer (q : CircularQueue) (ps : PStage) :
    (ps.producer q.capacity).last q = ps.last q := by
  cases ps with
  | testing unid r =>
      change Prog.returned (if CircularQueue.increment q.capacity r ≠ q.front then
        enqueueWrite q.capacity unid r else pure (.error "enqueue(): Queue overflow")) = _
      rw [last]
      split <;> rfl
  | _ => rfl

theorem CStage.last_consumer (q : CircularQueue) (cs : CStage) :
    (cs.consumer q.capacity).last q = cs.last q := by
  cases cs with
  | testing f =>
      change Prog.returned (if f = q.rear then pure none else dequeueTake q.capacity f) = _
      rw [last]
      split <;> rfl
  | _ => rfl

section Within
variable (capacity i : Index) (unid : UnidVal)

theorem enqueueAdd_within (k : ℕ) : (enqueueAdd i).Within (k + 1) := fun _ => trivial

theorem enqueueCount_within (k : ℕ) : enqueueCount.Within (k + 2) :=
  fun n => enqueueAdd_within n k

theorem enqueuePublish_within (k : ℕ) : (enqueuePublish capacity i).Within (k + 3) :=
  fun _ => enqueueCount_within k

theorem enqueueWrite_within (k : ℕ) : (enqueueWrite capacity unid i).Within (k + 4) :=
  fun _ => enqueuePublish_within capacity i k

theorem enqueueTest_within (k : ℕ) : (enqueueTest capacity unid i).Within (k + 5) := by
  intro f
  change Prog.Within (if CircularQueue.increment capacity i ≠ f then
    enqueueWrite capacity unid i else pure (.error "enqueue(): Queue overflow")) (k + 4)
  split
  · exact enqueueWrite_within capacity i unid k
  · trivial

theorem dequeueSubtract_within (k : ℕ) : (dequeueSubtract unid i).Within (k + 1) :=
  fun _ => trivial

theorem dequeueCount_within (k : ℕ) : (dequeueCount unid).Within (k + 2) :=
  fun n => dequeueSubtract_within n unid k

theorem dequeueAdvance_within (k : ℕ) : (dequeueAdvance capacity i unid).Within (k + 3) :=
  fun _ => dequeueCount_within unid k

theorem dequeueTake_within (k : ℕ) : (dequeueTake capacity i).Within (k + 4) :=
  fun unid => dequeueAdvance_within capacity i unid k

theorem dequeueTest_within (k : ℕ) : (dequeueTest capacity i).Within (k + 5) := by
  intro r
  change Prog.Within (if i = r then pure none else dequeueTake capacity i) (k + 4)
  split
  · trivial
  · exact dequeueTake_within capacity i k

end Within

/-- Wherever it is, an `enqueue` ends within six loads and stores. -/
theorem PStage.within_six {capacity : Index} {ps : PStage} {unid : UnidVal}
    {p : Q (Except String Bool)} (h : ps.producer capacity = .running unid p) : p.Within 6 := by
  cases ps with
  | idle => cases h
  | reading v =>
      cases h
      exact fun r => enqueueTest_within capacity r unid 0
  | testing v r =>
      cases h
      exact enqueueTest_within capacity r unid 1
  | writing v r =>
      cases h
      exact enqueueWrite_within capacity r unid 2
  | publishing v r =>
      cases h
      exact enqueuePublish_within capacity r 3
  | counting v =>
      cases h
      exact enqueueCount_within 4
  | adding v n =>
      cases h
      exact enqueueAdd_within n 5

/-- Wherever it is, a `dequeue` ends within six loads and stores. -/
theorem CStage.within_six {capacity : Index} {cs : CStage} {p : Q (Option UnidVal)}
    (h : cs.consumer capacity = .running p) : p.Within 6 := by
  cases cs with
  | idle => cases h
  | reading =>
      cases h
      exact fun f => dequeueTest_within capacity f 0
  | testing f =>
      cases h
      exact dequeueTest_within capacity f 1
  | taking f =>
      cases h
      exact dequeueTake_within capacity f 2
  | advancing f unid =>
      cases h
      exact dequeueAdvance_within capacity f unid 3
  | counting unid =>
      cases h
      exact dequeueCount_within unid 4
  | subtracting unid n =>
      cases h
      exact dequeueSubtract_within n unid 5

/-! ## Where a test can be -/

/-- The points between the loads of a test, with what has been loaded. -/
inductive TStage
  | none
  | reading (t : Test)
  | emptyFront (f : Index)
  | emptyRear (r : Index)
  | fullRear (r : Index)

namespace TStage

def asks (capacity : Index) : TStage → Option (Test × Q Bool)
  | none => .none
  | reading t => some (t, t.code capacity)
  | emptyFront f => some (.wasEmpty true, do pure (f == (← QReq.ask .loadRear)))
  | emptyRear r => some (.wasEmpty false, do pure ((← QReq.ask .loadFront) == r))
  | fullRear r =>
      some (.wasFull, do pure (CircularQueue.increment capacity r == (← QReq.ask .loadFront)))

/-- The stage after the next load. -/
def next (q : CircularQueue) : TStage → TStage
  | reading (.wasEmpty true) => emptyFront q.front
  | reading (.wasEmpty false) => emptyRear q.rear
  | reading .wasFull => fullRear q.rear
  | _ => none

/-- With its next load `was_full` returns `false`. -/
def findsRoom (q : CircularQueue) : TStage → Bool
  | fullRear r => !(CircularQueue.increment q.capacity r == q.front)
  | _ => false

/-- With its next load `was_empty` returns `false`. -/
def findsValue (q : CircularQueue) : TStage → Bool
  | emptyFront f => !(f == q.rear)
  | emptyRear r => !(q.front == r)
  | _ => false

theorem eq_none_of_isNone {capacity : Index} {ts : TStage}
    (h : (ts.asks capacity).isNone = true) : ts = none := by
  cases ts <;> first | rfl | cases h

/-- What the producer's test can rely on. -/
def ProducerKnows (s : QueueState) : TStage → Prop
  | fullRear r => r = s.queue.rear
  | _ => True

/-- What the consumer's test can rely on; a copy of `rear` may be old. -/
def ConsumerKnows (s : QueueState) : TStage → Prop
  | emptyFront f => f = s.queue.front
  | emptyRear r =>
      ∃ n, s.taken ≤ n ∧ n ≤ s.stored.length ∧ r.toNat = n % s.queue.capacity.toNat
  | _ => True

end TStage

namespace TestedQueue
variable {s : TestedQueue} {ts : TStage}

/-- An `enqueue` goes on. -/
theorem step_produce_of_none (h : s.base.producer.last s.base.queue = none) :
    s.step .produce = { s with base := s.base.produce } := by
  simp only [step, h]
  rfl

/-- An `enqueue` ends. -/
theorem step_produce_of_some {r : Except String Bool}
    (h : s.base.producer.last s.base.queue = some r) :
    s.step .produce = { s with
      base := s.base.produce
      producer := { s.producer with assured := false }
      enqueues := (s.producer.assured, r) :: s.enqueues } := by
  simp only [step, h]
  rfl

/-- A `dequeue` goes on. -/
theorem step_consume_of_none (h : s.base.consumer.last s.base.queue = none) :
    s.step .consume = { s with base := s.base.consume } := by
  simp only [step, h]
  rfl

/-- A `dequeue` ends. -/
theorem step_consume_of_some {r : Option UnidVal}
    (h : s.base.consumer.last s.base.queue = some r) :
    s.step .consume = { s with
      base := s.base.consume
      consumer := { s.consumer with assured := false }
      dequeues := (s.consumer.assured, r) :: s.dequeues } := by
  simp only [step, h]
  rfl

/-- One more call has ended as promised, if it was promised. -/
theorem promised_cons {α : Type} {P : α → Prop} {assured : Bool} {r : α} {ended : List (Bool × α)}
    (hr : assured = true → P r) (hended : ∀ r', (true, r') ∈ ended → P r') :
    ∀ r', (true, r') ∈ (assured, r) :: ended → P r' := by
  intro r' hr'
  rcases List.mem_cons.mp hr' with heq | hold
  · obtain ⟨hassured, rfl⟩ := Prod.mk.inj heq
    exact hr hassured.symm
  · exact hended r' hold

/-- A load of the producer's test. -/
theorem producerLoad_eq (h : s.producer.asks = ts.asks s.base.queue.capacity) :
    s.producerLoad = { s with producer := ⟨(ts.next s.base.queue).asks s.base.queue.capacity,
      s.producer.assured || ts.findsRoom s.base.queue⟩ } := by
  obtain ⟨base, ⟨asks, assured⟩, consumer, enqueues, dequeues⟩ := s
  obtain rfl : asks = ts.asks base.queue.capacity := h
  cases ts with
  | none => simp [producerLoad, TStage.asks, TStage.next, TStage.findsRoom]
  | reading t => obtain (_ | _) | _ := t <;> simp only [TStage.findsRoom, Bool.or_false] <;> rfl
  | emptyFront f | emptyRear r | fullRear r => rfl

/-- A load of the consumer's test. -/
theorem consumerLoad_eq (h : s.consumer.asks = ts.asks s.base.queue.capacity) :
    s.consumerLoad = { s with consumer := ⟨(ts.next s.base.queue).asks s.base.queue.capacity,
      s.consumer.assured || ts.findsValue s.base.queue⟩ } := by
  obtain ⟨base, producer, ⟨asks, assured⟩, enqueues, dequeues⟩ := s
  obtain rfl : asks = ts.asks base.queue.capacity := h
  cases ts with
  | none => simp [consumerLoad, TStage.asks, TStage.next, TStage.findsValue]
  | reading t => obtain (_ | _) | _ := t <;> simp only [TStage.findsValue, Bool.or_false] <;> rfl
  | emptyFront f | emptyRear r | fullRear r => rfl

end TestedQueue

/-! ## The invariant -/

/-- An `enqueue` that has not yet found room, or none. -/
def PStage.undecided : PStage → Bool
  | idle | reading _ | testing .. => true
  | _ => false

/-- A `dequeue` that has not yet found a unid, or none. -/
def CStage.undecided : CStage → Bool
  | idle | reading | testing _ => true
  | _ => false

/-- An `enqueue` that goes on without having found room has just loaded `rear`. -/
theorem PStage.eq_reading {s : QueueState} {ps : PStage} (hrun : ps ≠ idle)
    (hlast : ps.last s.queue = none) (h : (ps.next s).undecided = true) :
    ∃ unid, ps = reading unid := by
  cases ps with
  | idle => exact absurd rfl hrun
  | reading unid => exact ⟨unid, rfl⟩
  | testing unid r =>
      by_cases hroom : CircularQueue.increment s.queue.capacity r ≠ s.queue.front
      · rw [next, if_pos hroom] at h
        cases h
      · rw [last, if_neg hroom] at hlast
        cases hlast
  | adding unid n => cases hlast
  | _ => cases h

/-- A `dequeue` that goes on without having found a unid has just loaded `front`. -/
theorem CStage.eq_reading {s : QueueState} {cs : CStage} (hrun : cs ≠ idle)
    (hlast : cs.last s.queue = none) (h : (cs.next s).undecided = true) : cs = reading := by
  cases cs with
  | idle => exact absurd rfl hrun
  | reading => rfl
  | testing f =>
      by_cases hempty : f = s.queue.rear
      · rw [last, if_pos hempty] at hlast
        cases hlast
      · rw [next, if_neg hempty] at h
        cases h
  | subtracting unid n => cases hlast
  | _ => cases h

namespace TestedQueue

/-- The producer, its test and the promise it holds. -/
structure ProducerSide (s : TestedQueue) (ps : PStage) (ts : TStage) : Prop where
  asks : s.producer.asks = ts.asks s.base.queue.capacity
  one : ts = .none ∨ ps = .idle
  knows : ts.ProducerKnows s.base
  room : s.producer.assured = true → ps.undecided = true →
    s.base.stored.length + 1 < s.base.taken + s.base.queue.capacity.toNat
  enqueues : ∀ r, (true, r) ∈ s.enqueues → r = .ok true

/-- The consumer, its test and the promise it holds. -/
structure ConsumerSide (s : TestedQueue) (cs : CStage) (ts : TStage) : Prop where
  asks : s.consumer.asks = ts.asks s.base.queue.capacity
  one : ts = .none ∨ cs = .idle
  knows : ts.ConsumerKnows s.base
  value : s.consumer.assured = true → cs.undecided = true → s.base.taken < s.base.stored.length
  dequeues : ∀ r, (true, r) ∈ s.dequeues → ∃ unid, r = some unid

/-- What the consumer does leaves the producer's side alone. -/
theorem ProducerSide.mono {s t : TestedQueue} {ps : PStage} {ts : TStage}
    (P : s.ProducerSide ps ts) (hD : s.base.Drained t.base) (hprod : t.producer = s.producer)
    (henq : t.enqueues = s.enqueues) : t.ProducerSide ps ts where
  asks := by rw [hprod, hD.capacity, P.asks]
  one := P.one
  knows := by
    have hknows := P.knows
    cases ts with
    | fullRear r => exact Eq.trans hknows hD.rear.symm
    | _ => trivial
  room := by
    intro hassured hstage
    have hroom := P.room (hprod ▸ hassured) hstage
    have htaken := hD.taken
    rw [hD.stored, hD.capacity]
    omega
  enqueues := by rw [henq]; exact P.enqueues

/-- What the producer does leaves the consumer's side alone. -/
theorem ConsumerSide.mono {s t : TestedQueue} {cs : CStage} {ts : TStage}
    (C : s.ConsumerSide cs ts) (hF : s.base.Fed t.base) (hcons : t.consumer = s.consumer)
    (hdeq : t.dequeues = s.dequeues) : t.ConsumerSide cs ts where
  asks := by rw [hcons, hF.capacity, C.asks]
  one := C.one
  knows := by
    have hknows := C.knows
    cases ts with
    | emptyFront f => exact Eq.trans hknows hF.front.symm
    | emptyRear r =>
        obtain ⟨n, hlo, hhi, hr⟩ := hknows
        exact ⟨n, hF.taken ▸ hlo, hhi.trans hF.stored, by rw [hr, hF.capacity]⟩
    | _ => trivial
  value := by
    intro hassured hstage
    have hvalue := C.value (hcons ▸ hassured) hstage
    have hstored := hF.stored
    rw [hF.taken]
    omega
  dequeues := by rw [hdeq]; exact C.dequeues

/-- Both sides, and the queue between them. -/
structure Tracks (s : TestedQueue) (ps : PStage) (cs : CStage) (pt ct : TStage) : Prop where
  base : s.base.Tracks ps cs
  producer : s.ProducerSide ps pt
  consumer : s.ConsumerSide cs ct

namespace Tracks
variable {s : TestedQueue} {ps : PStage} {cs : CStage} {pt ct : TStage}

/-- A promised `enqueue` that is at its test finds room. -/
theorem room_of_assured (T : s.Tracks ps cs pt ct) {unid : UnidVal} {r : Index}
    (hstage : ps = .testing unid r) (hassured : s.producer.assured = true) :
    CircularQueue.increment s.base.queue.capacity r ≠ s.base.queue.front := by
  subst hstage
  obtain ⟨-, rfl⟩ := T.base.produces
  exact T.base.room_iff.mpr (T.producer.room hassured rfl)

/-- A promised `dequeue` that is at its test finds a unid. -/
theorem value_of_assured (T : s.Tracks ps cs pt ct) {f : Index} (hstage : cs = .testing f)
    (hassured : s.consumer.assured = true) : f ≠ s.base.queue.rear := by
  subst hstage
  obtain rfl := T.base.consumes
  have hvalue := T.consumer.value hassured rfl
  exact mt T.base.empty_iff.mp (by omega)

/-- The producer makes its next load or store. -/
theorem produce (T : s.Tracks ps cs pt ct) (hg : s.base.producer.isIdle = false) :
    (s.step .produce).Tracks (ps.next s.base) cs pt ct := by
  have hrun : ps ≠ .idle := by
    rintro rfl
    rw [T.base.producer] at hg
    cases hg
  obtain rfl : pt = .none := T.producer.one.resolve_right hrun
  have hlast : s.base.producer.last s.base.queue = ps.last s.base.queue := by
    rw [T.base.producer, PStage.last_producer]
  cases hend : ps.last s.base.queue with
  | none =>
      rw [step_produce_of_none (hlast.trans hend)]
      refine ⟨T.base.produce, ?_, T.consumer.mono T.base.fed rfl rfl⟩
      refine ⟨T.producer.asks, .inl rfl, trivial, ?_, T.producer.enqueues⟩
      intro hassured hstage
      obtain ⟨unid, rfl⟩ := PStage.eq_reading hrun hend hstage
      have hroom := T.producer.room hassured rfl
      rwa [QueueState.produce_reading T.base.producer]
  | some r =>
      rw [step_produce_of_some (hlast.trans hend)]
      refine ⟨T.base.produce, ?_, T.consumer.mono T.base.fed rfl rfl⟩
      refine ⟨T.producer.asks, .inl rfl, trivial, by rintro ⟨⟩, ?_⟩
      refine promised_cons ?_ T.producer.enqueues
      intro hassured
      rcases PStage.of_last_eq_some hend with ⟨unid, i, hstage, hfull⟩ | hok
      · exact absurd (T.room_of_assured hstage hassured) hfull
      · exact hok

/-- The consumer makes its next load or store. -/
theorem consume (T : s.Tracks ps cs pt ct) (hg : s.base.consumer.isIdle = false) :
    (s.step .consume).Tracks ps (cs.next s.base) pt ct := by
  have hrun : cs ≠ .idle := by
    rintro rfl
    rw [T.base.consumer] at hg
    cases hg
  obtain rfl : ct = .none := T.consumer.one.resolve_right hrun
  have hlast : s.base.consumer.last s.base.queue = cs.last s.base.queue := by
    rw [T.base.consumer, CStage.last_consumer]
  cases hend : cs.last s.base.queue with
  | none =>
      rw [step_consume_of_none (hlast.trans hend)]
      refine ⟨T.base.consume, T.producer.mono T.base.drained rfl rfl, ?_⟩
      refine ⟨T.consumer.asks, .inl rfl, trivial, ?_, T.consumer.dequeues⟩
      intro hassured hstage
      obtain rfl := CStage.eq_reading hrun hend hstage
      have hvalue := T.consumer.value hassured rfl
      rwa [QueueState.consume_reading T.base.consumer]
  | some r =>
      rw [step_consume_of_some (hlast.trans hend)]
      refine ⟨T.base.consume, T.producer.mono T.base.drained rfl rfl, ?_⟩
      refine ⟨T.consumer.asks, .inl rfl, trivial, by rintro ⟨⟩, ?_⟩
      refine promised_cons ?_ T.consumer.dequeues
      intro hassured
      rcases CStage.of_last_eq_some hend with ⟨f, hstage, hempty⟩ | hsome
      · exact absurd hempty (T.value_of_assured hstage hassured)
      · exact hsome

/-- The producer's test makes its next load; finding room, it promises it. -/
theorem producerLoad (T : s.Tracks ps cs pt ct) :
    s.producerLoad.Tracks ps cs (pt.next s.base.queue) ct := by
  rw [producerLoad_eq T.producer.asks]
  have hknows := T.producer.knows
  refine ⟨T.base, ⟨rfl, ?_, ?_, ?_, T.producer.enqueues⟩,
    T.consumer.mono ⟨rfl, rfl, rfl, le_rfl⟩ rfl rfl⟩
  · rcases T.producer.one with rfl | hidle
    · exact .inl rfl
    · exact .inr hidle
  · obtain _ | ((_ | _) | _) | _ | _ | _ := pt <;> trivial
  · intro hassured hstage
    rcases Bool.or_eq_true_iff.mp hassured with hold | hnew
    · exact T.producer.room hold hstage
    · cases pt with
      | fullRear r =>
          obtain rfl : r = s.base.queue.rear := hknows
          exact T.base.room_iff.mp (by simpa [TStage.findsRoom] using hnew)
      | _ => cases hnew

/-- The consumer's test makes its next load; finding a unid, it promises one. -/
theorem consumerLoad (T : s.Tracks ps cs pt ct) :
    s.consumerLoad.Tracks ps cs pt (ct.next s.base.queue) := by
  rw [consumerLoad_eq T.consumer.asks]
  have hknows := T.consumer.knows
  refine ⟨T.base, T.producer.mono ⟨rfl, rfl, rfl, le_rfl⟩ rfl rfl,
    ⟨rfl, ?_, ?_, ?_, T.consumer.dequeues⟩⟩
  · rcases T.consumer.one with rfl | hidle
    · exact .inl rfl
    · exact .inr hidle
  · obtain _ | ((_ | _) | _) | _ | _ | _ := ct
    case reading.wasEmpty.false => exact ⟨_, T.base.taken_le, le_rfl, T.base.rear⟩
    all_goals trivial
  · intro hassured hstage
    rcases Bool.or_eq_true_iff.mp hassured with hold | hnew
    · exact T.consumer.value hold hstage
    · cases ct with
      | emptyFront f =>
          obtain rfl : f = s.base.queue.front := hknows
          exact T.base.taken_lt (by simpa [TStage.findsValue] using hnew)
      | emptyRear r =>
          -- the copy of `rear` is an earlier end of the queue, which `front` has not reached
          obtain ⟨n, hlo, hhi, hr⟩ := hknows
          have hne : n ≠ s.base.taken := by
            rintro rfl
            have : s.base.queue.front = r := BitVec.eq_of_toNat_eq (T.base.front.trans hr.symm)
            simp [TStage.findsValue, this] at hnew
          exact (lt_of_le_of_ne hlo hne.symm).trans_le hhi
      | _ => cases hnew

theorem enqueue (T : s.Tracks ps cs pt ct) {unid : UnidVal}
    (hg : s.guard (.queue (.enqueue unid))) :
    (s.step (.enqueue unid)).Tracks (.reading unid) cs .none ct := by
  obtain rfl := T.base.producer_idle hg.1
  obtain rfl := TStage.eq_none_of_isNone (T.producer.asks ▸ hg.2)
  exact ⟨T.base.next hg.1,
    ⟨T.producer.asks, .inl rfl, trivial, fun h _ => T.producer.room h rfl, T.producer.enqueues⟩,
    T.consumer.mono ⟨rfl, rfl, rfl, le_rfl⟩ rfl rfl⟩

theorem dequeue (T : s.Tracks ps cs pt ct) (hg : s.guard (.queue .dequeue)) :
    (s.step .dequeue).Tracks ps .reading pt .none := by
  obtain rfl := T.base.consumer_idle hg.1
  obtain rfl := TStage.eq_none_of_isNone (T.consumer.asks ▸ hg.2)
  exact ⟨T.base.next hg.1, T.producer.mono ⟨rfl, rfl, rfl, le_rfl⟩ rfl rfl,
    ⟨T.consumer.asks, .inl rfl, trivial, fun h _ => T.consumer.value h rfl, T.consumer.dequeues⟩⟩

/-- Any step keeps the invariant. -/
theorem next (T : s.Tracks ps cs pt ct) {e : TestEvent} (hg : s.guard e) :
    ∃ ps' cs' pt' ct', (s.next e).Tracks ps' cs' pt' ct' := by
  cases e with
  | queue e =>
      cases e with
      | enqueue unid => exact ⟨_, _, _, _, T.enqueue hg⟩
      | dequeue => exact ⟨_, _, _, _, T.dequeue hg⟩
      | produce => exact ⟨_, _, _, _, T.produce hg⟩
      | consume => exact ⟨_, _, _, _, T.consume hg⟩
  | producerTest t =>
      have hidle := T.base.producer_idle hg.1
      exact ⟨ps, cs, .reading t, ct, T.base,
        ⟨rfl, .inr hidle, trivial, T.producer.room, T.producer.enqueues⟩,
        T.consumer.mono ⟨rfl, rfl, rfl, le_rfl⟩ rfl rfl⟩
  | producerLoad => exact ⟨_, _, _, _, T.producerLoad⟩
  | consumerTest t =>
      have hidle := T.base.consumer_idle hg.1
      exact ⟨ps, cs, pt, .reading t, T.base, T.producer.mono ⟨rfl, rfl, rfl, le_rfl⟩ rfl rfl,
        ⟨rfl, .inr hidle, trivial, T.consumer.value, T.consumer.dequeues⟩⟩
  | consumerLoad => exact ⟨_, _, _, _, T.consumerLoad⟩

theorem reliable (T : s.Tracks ps cs pt ct) : s.Reliable where
  enqueues := T.producer.enqueues
  dequeues := T.consumer.dequeues
  enqueue_ends := fun _ _ h => PStage.within_six (T.base.producer.symm.trans h)
  dequeue_ends := fun _ h => CStage.within_six (T.base.consumer.symm.trans h)

end Tracks

theorem tracks_start {cap : Index} (hcap : 0 < cap) (queue : ℕ → UnidVal) :
    (start ⟨queue, 0, 0, cap, 0⟩).Tracks .idle .idle .none .none where
  base := QueueState.tracks_start hcap queue 0
  producer := ⟨rfl, .inl rfl, trivial, by rintro ⟨⟩, fun _ h => absurd h List.not_mem_nil⟩
  consumer := ⟨rfl, .inl rfl, trivial, by rintro ⟨⟩, fun _ h => absurd h List.not_mem_nil⟩

end TestedQueue

/-- In every run, from a new queue of any capacity, the `enqueue` after a `was_full` that returned
`false` to the producer succeeds, and so does the `dequeue` after a `was_empty` that returned
`false` to the consumer. -/
theorem tests_reliable (cap : Index) (hcap : 0 < cap) (garbage : ℕ → UnidVal) :
    ∃ q, CircularQueue.new cap garbage = .ok q ∧
      ∀ es, spscTests.Admits (.start q) es → (spscTests.exec (.start q) es).Reliable := by
  refine ⟨_, CircularQueue.new_eq_ok hcap garbage, ?_⟩
  intro es hes
  obtain ⟨ps, cs, pt, ct, T⟩ := Machine.exec_induction (M := spscTests)
    (I := fun s => ∃ ps cs pt ct, s.Tracks ps cs pt ct)
    (fun _ _ ⟨_, _, _, _, T⟩ hg => T.next hg) ⟨_, _, _, _, TestedQueue.tracks_start hcap _⟩ hes
  exact T.reliable

/-- On two slots: `was_full` is called while the consumer is in `dequeue`, and `was_empty` while
the producer is in `enqueue`. -/
theorem tests_reliable_run :
    let es : List TestEvent := [.queue .dequeue, .queue .consume, .producerTest .wasFull,
      .producerLoad, .queue .consume, .producerLoad, .queue (.enqueue 7), .queue .produce,
      .queue .produce, .queue .produce, .queue .produce, .consumerTest (.wasEmpty false),
      .consumerLoad, .queue .produce, .consumerLoad, .queue .produce, .queue .dequeue,
      .queue .consume, .queue .consume, .queue .consume, .queue .consume, .queue .consume,
      .queue .consume]
    ∃ q, CircularQueue.new 2 (fun _ => 0) = .ok q ∧ spscTests.Admits (.start q) es ∧
      (spscTests.exec (.start q) es).enqueues = [(true, .ok true)] ∧
      (spscTests.exec (.start q) es).dequeues = [(true, some 7), (false, none)] ∧
      (spscTests.exec (.start q) es).Reliable := by
  intro es
  obtain ⟨q, hq, hreliable⟩ := tests_reliable 2 (by decide) fun _ => 0
  have hes : spscTests.Admits (.start q) es := by
    cases hq
    decide +kernel
  refine ⟨q, hq, hes, ?_, ?_, hreliable es hes⟩
  · cases hq
    decide +kernel
  · cases hq
    decide +kernel

end Unid.Spike
