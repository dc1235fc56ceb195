import Unid.Lib.Spsc
import Unid.Spike.CircularQueue

/-!
# The circular queue with its memory orders

`Circular_queue` again, now with the memory orders that its code asks for instead
of one order of all loads and stores.  Each side loads its own index relaxed and
the other's acquiring, and publishes its own with a releasing store.  The slots
and `size` are plain members; `size++` and `size--` read the counter and write it,
after the index has been published.

## Main definitions

* `Ordered.enqueue`, `Ordered.dequeue` — the two calls.
* `orderedQueue` — a producer and a consumer, as threads on one queue.
* `newQueue` — the queue as its constructor leaves it.
-/

namespace Unid.Spike
open Lib

abbrev OqSig : Sig := RingSig Index UnidVal Unit fun _ => Index

/-- Queue code. -/
abbrev Oq (α : Type) := Prog OqSig α

/-- The members, with the record of what the two sides have done. -/
abbrev OqShared := RingShared Index UnidVal Unit fun _ => Index

namespace Ordered

/-! ## The members -/

abbrev loadFront (o : Order) : Oq Index :=
  Access.ask (W := Cell.Val UnidVal fun _ : Unit => Index) (.load o .read)

abbrev storeFront (i : Index) : Oq Unit :=
  Access.ask (W := Cell.Val UnidVal fun _ : Unit => Index) (.store .read i)

abbrev loadRear (o : Order) : Oq Index :=
  Access.ask (W := Cell.Val UnidVal fun _ : Unit => Index) (.load o .write)

abbrev storeRear (i : Index) : Oq Unit :=
  Access.ask (W := Cell.Val UnidVal fun _ : Unit => Index) (.store .write i)

/-- `queue[i]`. -/
abbrev readSlot (i : Index) : Oq UnidVal :=
  Access.ask (W := Cell.Val UnidVal fun _ : Unit => Index) (.read (.slot i.toNat))

abbrev writeSlot (i : Index) (unid : UnidVal) : Oq Unit :=
  Access.ask (W := Cell.Val UnidVal fun _ : Unit => Index) (.write (.slot i.toNat) unid)

abbrev readSize : Oq Index :=
  Access.ask (W := Cell.Val UnidVal fun _ : Unit => Index) (.read (.own ()))

abbrev writeSize (n : Index) : Oq Unit :=
  Access.ask (W := Cell.Val UnidVal fun _ : Unit => Index) (.write (.own ()) n)

/-! ## The code -/

/-- `enqueue`: `true`, or the exception. -/
def enqueue (capacity : Index) (unid : UnidVal) : Oq (Except String Bool) := do
  let currentRear ← loadRear .relaxed
  let nextRear := CircularQueue.increment capacity currentRear
  if nextRear ≠ (← loadFront .acquire) then do
    writeSlot currentRear unid
    storeRear nextRear
    writeSize ((← readSize) + 1)
    pure (.ok true)
  else pure (.error "enqueue(): Queue overflow")

/-- `dequeue`: the unid it writes into its argument when it returns `true`. -/
def dequeue (capacity : Index) : Oq (Option UnidVal) := do
  let currentFront ← loadFront .relaxed
  if currentFront = (← loadRear .acquire) then pure none
  else do
    let unid ← readSlot currentFront
    storeFront (CircularQueue.increment capacity currentFront)
    writeSize ((← readSize) - 1)
    pure (some unid)

end Ordered

/-! ## Producer and consumer -/

inductive QueueCall
  | enqueue (unid : UnidVal)
  | dequeue
  deriving DecidableEq

inductive QueueResult
  | enqueued (r : Except String Bool)
  | dequeued (r : Option UnidVal)

/-- What a call sends. -/
def QueueCall.value : QueueCall → Option UnidVal
  | enqueue unid => some unid
  | dequeue => none

/-- The side a call is for. -/
def QueueCall.side : QueueCall → Side
  | enqueue _ => .producer
  | dequeue => .consumer

def queueCode (capacity : Index) : QueueCall → Prog OqSig QueueResult
  | .enqueue unid => do pure (.enqueued (← Ordered.enqueue capacity unid))
  | .dequeue => do pure (.dequeued (← Ordered.dequeue capacity))

/-- A call's result goes on the record. -/
def finishQueueCall (s : OqShared) : QueueCall → QueueResult → OqShared
  | .enqueue unid, .enqueued (.ok _) => { s with accepted := s.accepted ++ [unid] }
  | .dequeue, .dequeued (some unid) => { s with popped := s.popped ++ [unid] }
  | _, _ => s

/-- The producer enqueues and the consumer dequeues, as often as they like. -/
def orderedQueue (capacity : Index) : Threads OqSig OqShared Side QueueCall QueueResult where
  code _ := queueCode capacity
  mayCall t c _ := c.side = t
  handle t c := RingShared.perform capacity.toNat t c.value
  allowed t i e s := WeakMem.Allowed t i e s.mem
  finish _ c r s := finishQueueCall s c r

instance (capacity : Index) (t : Side) (c : QueueCall) (s : OqShared) :
    Decidable ((orderedQueue capacity).mayCall t c s) :=
  inferInstanceAs (Decidable (c.side = t))

instance (capacity : Index) (t : Side) (i : ℕ) (e : OqSig.Req) (s : OqShared) :
    Decidable ((orderedQueue capacity).allowed t i e s) :=
  inferInstanceAs (Decidable (WeakMem.Allowed t i e s.mem))

/-- The two sides come to a new queue. -/
def newQueue (q : CircularQueue) : OqShared :=
  .start (.init
    (fun
      | .read => q.front
      | .write => q.rear)
    fun
      | .slot i => q.queue i
      | .own _ => q.size)

end Unid.Spike
