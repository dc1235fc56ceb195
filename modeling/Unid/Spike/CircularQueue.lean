import Unid.Lib.Prog
import Unid.Lib.Machine
import Unid.Lib.Ring

/-!
# The inter-process circular queue

`Circular_queue` of `ipc_circular_queue.cpp`, by which unids reach an
application: one producer calls `enqueue`, one consumer calls `dequeue`, and
each load and store of a member is a step of its own.  The members `front` and
`rear` are atomics; `size` is a plain counter that both sides update after they
have published their index.

## Main definitions

* `CircularQueue`, `CircularQueue.new` — the members and the constructor.
* `QSig`, `enqueue`, `dequeue` — the two calls, as programs over loads and stores.
* `QueueState`, `QueueEvent`, `spsc` — producer and consumer, as a machine.
-/

namespace Unid.Spike
open Lib

/-- A unique id. -/
abbrev UnidVal := BitVec 64

/-- A `uint32_t` index or count. -/
abbrev Index := BitVec 32

/-- The members of `Circular_queue`. -/
structure CircularQueue where
  queue : ℕ → UnidVal
  front : Index
  rear : Index
  capacity : Index
  size : Index

namespace CircularQueue

/-- `memset(queue, 0, capacity)`: the first `capacity` bytes of the array, not words. -/
def memset (queue : ℕ → UnidVal) (capacity : Index) (i : ℕ) : UnidVal :=
  let cleared := 8 * min 8 (capacity.toNat - 8 * i)
  (queue i >>> cleared) <<< cleared

/-- The constructor; `garbage` is what `new[]` leaves in the slots. -/
def new (cap : Index) (garbage : ℕ → UnidVal) : Except String CircularQueue :=
  if cap = 0 then .error "Circular_queue: Capacity must be > 0"
  else .ok { queue := memset garbage cap, front := 0, rear := 0, capacity := cap, size := 0 }

def increment (capacity index : Index) : Index := (index + 1) % capacity

end CircularQueue

/-- The loads and stores of the members. -/
inductive QReq
  | loadFront
  | storeFront (i : Index)
  | loadRear
  | storeRear (i : Index)
  | loadSlot (i : Index)
  | storeSlot (i : Index) (unid : UnidVal)
  | loadSize
  | storeSize (n : Index)
  deriving DecidableEq

abbrev QReq.Ans : QReq → Type
  | .loadFront | .loadRear | .loadSize => Index
  | .loadSlot _ => UnidVal
  | _ => Unit

abbrev QSig : Sig := ⟨QReq, QReq.Ans⟩

/-- Queue code. -/
abbrev Q (α : Type) := Prog QSig α

/-- One load or store. -/
def CircularQueue.handle : Handler QSig CircularQueue
  | .loadFront, q => (q.front, q)
  | .storeFront i, q => ((), { q with front := i })
  | .loadRear, q => (q.rear, q)
  | .storeRear i, q => ((), { q with rear := i })
  | .loadSlot i, q => (q.queue i.toNat, q)
  | .storeSlot i unid, q =>
      ((), { q with queue := fun k => if k = i.toNat then unid else q.queue k })
  | .loadSize, q => (q.size, q)
  | .storeSize n, q => ((), { q with size := n })

namespace QReq

def ask (r : QReq) : Q r.Ans := Prog.ask (E := QSig) r

def isStore : QReq → Bool
  | storeFront _ | storeRear _ | storeSlot .. | storeSize _ => true
  | _ => false

end QReq

/-- `enqueue`: `true`, or the exception. -/
def enqueue (capacity : Index) (unid : UnidVal) : Q (Except String Bool) := do
  let currentRear ← QReq.ask .loadRear
  let nextRear := CircularQueue.increment capacity currentRear
  if nextRear ≠ (← QReq.ask .loadFront) then do
    QReq.ask (.storeSlot currentRear unid)
    QReq.ask (.storeRear nextRear)
    QReq.ask (.storeSize ((← QReq.ask .loadSize) + 1))
    pure (.ok true)
  else pure (.error "enqueue(): Queue overflow")

/-- `dequeue`: the unid it writes into its argument when it returns `true`. -/
def dequeue (capacity : Index) : Q (Option UnidVal) := do
  let currentFront ← QReq.ask .loadFront
  if currentFront = (← QReq.ask .loadRear) then pure none
  else do
    let unid ← QReq.ask (.loadSlot currentFront)
    QReq.ask (.storeFront (CircularQueue.increment capacity currentFront))
    QReq.ask (.storeSize ((← QReq.ask .loadSize) - 1))
    pure (some unid)

/-! ## Producer and consumer -/

/-- The producer: idle, or in an `enqueue` with this left to do. -/
inductive Producer
  | idle
  | running (unid : UnidVal) (p : Q (Except String Bool))

/-- The consumer: idle, or in a `dequeue` with this left to do. -/
inductive Consumer
  | idle
  | running (p : Q (Option UnidVal))

def Producer.isIdle : Producer → Bool
  | idle => true
  | running .. => false

def Consumer.isIdle : Consumer → Bool
  | idle => true
  | running _ => false

structure QueueState where
  queue : CircularQueue
  producer : Producer
  consumer : Consumer
  /-- The stores of the `enqueue` that is running, newest first. -/
  writes : List QReq
  /-- The slot and the unid of each `enqueue` that has stored `rear`. -/
  stored : List (ℕ × UnidVal)
  /-- How many `dequeue`s have stored `front`. -/
  taken : ℕ
  /-- What the `dequeue`s have returned. -/
  returned : List UnidVal
  /-- The stores that each `enqueue` that threw had made. -/
  throws : List (List QReq)

/-- What may happen next. -/
inductive QueueEvent
  | enqueue (unid : UnidVal)
  | dequeue
  /-- The next load or store of the producer. -/
  | produce
  /-- The next load or store of the consumer. -/
  | consume
  deriving DecidableEq

namespace QueueState

/-- Producer and consumer come to a new queue. -/
def start (q : CircularQueue) : QueueState := ⟨q, .idle, .idle, [], [], 0, [], []⟩

/-- The slot the running `enqueue` has stored to. -/
def slotOf : List QReq → ℕ
  | .storeSlot i _ :: _ => i.toNat
  | _ :: ws => slotOf ws
  | [] => 0

/-- The producer has made the request `e` and has `p` left to do; storing `rear` publishes
its unid. -/
def produced (s : QueueState) (unid : UnidVal) (e : QReq) (p : Q (Except String Bool)) :
    QueueState :=
  let writes := if e.isStore then e :: s.writes else s.writes
  let t : QueueState := { s with
    queue := (CircularQueue.handle e s.queue).2
    writes := writes
    stored := match e with
      | .storeRear _ => s.stored ++ [(slotOf writes, unid)]
      | _ => s.stored }
  match p with
  | .ret (.ok _) => { t with producer := .idle }
  | .ret (.error _) => { t with producer := .idle, throws := writes :: s.throws }
  | .req e' k' => { t with producer := .running unid (.req e' k') }

/-- The producer makes its next request. -/
def produce (s : QueueState) : QueueState :=
  match s.producer with
  | .running unid (.req e k) => s.produced unid e (k (CircularQueue.handle e s.queue).1)
  | _ => s

/-- The consumer has made the request `e` and has `p` left to do. -/
def consumed (s : QueueState) (e : QReq) (p : Q (Option UnidVal)) : QueueState :=
  let t : QueueState := { s with
    queue := (CircularQueue.handle e s.queue).2
    taken := match e with
      | .storeFront _ => s.taken + 1
      | _ => s.taken }
  match p with
  | .ret none => { t with consumer := .idle }
  | .ret (some unid) => { t with consumer := .idle, returned := s.returned ++ [unid] }
  | .req e' k' => { t with consumer := .running (.req e' k') }

/-- The consumer makes its next request. -/
def consume (s : QueueState) : QueueState :=
  match s.consumer with
  | .running (.req e k) => s.consumed e (k (CircularQueue.handle e s.queue).1)
  | _ => s

def next (s : QueueState) : QueueEvent → QueueState
  | .enqueue unid =>
      { s with producer := .running unid (Spike.enqueue s.queue.capacity unid), writes := [] }
  | .dequeue => { s with consumer := .running (Spike.dequeue s.queue.capacity) }
  | .produce => s.produce
  | .consume => s.consume

/-- Each side makes one call at a time. -/
def guard (s : QueueState) : QueueEvent → Prop
  | .enqueue _ => s.producer.isIdle = true
  | .dequeue => s.consumer.isIdle = true
  | .produce => s.producer.isIdle = false
  | .consume => s.consumer.isIdle = false

instance (s : QueueState) (e : QueueEvent) : Decidable (s.guard e) :=
  match e with
  | .enqueue _ | .dequeue | .produce | .consume => inferInstanceAs (Decidable (_ = _))

end QueueState

/-- One producer and one consumer on one queue. -/
def spsc : Machine QueueState QueueEvent := ⟨QueueState.next, QueueState.guard⟩

instance (s : QueueState) (e : QueueEvent) : Decidable (spsc.guard s e) :=
  inferInstanceAs (Decidable (s.guard e))

end Unid.Spike
