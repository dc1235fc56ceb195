import Unid.Spike.CircularQueue

/-!
# What the circular queue guarantees

Producer and consumer each act on a copy of the other's index that may be out of
date by the time they use it.  Counting every `enqueue` that has stored `rear`
and every `dequeue` that has stored `front`, the two indices are these counts
modulo the capacity and the slots are a `Ring`; an old copy of the other's index
only makes a side more careful (`queue_fifo`).

## Main definitions

* `QueueState.Fifo` — nothing is lost, doubled, reordered or overwritten.
* `PStage`, `CStage` — where the two sides can be in a call, and what they know.
* `QueueState.Tracks` — the invariant.
-/

namespace Unid.Spike
open Lib

/-- The values come out in the order they went in, the indices are indices, no store hits a
slot whose value is still to be taken, and an `enqueue` that threw had stored nothing. -/
structure QueueState.Fifo (s : QueueState) : Prop where
  order : s.returned <+: s.stored.map Prod.snd
  front_lt : s.queue.front < s.queue.capacity
  rear_lt : s.queue.rear < s.queue.capacity
  spares : ∀ unid i v k, s.producer = .running unid (.req (.storeSlot i v) k) →
    ∀ e ∈ s.stored.drop s.taken, e.1 ≠ i.toNat
  clean : ∀ ws ∈ s.throws, ws = []

/-! ## Where the two sides can be -/

section Rest
variable (capacity : Index)

/-- What is left of `enqueue` once it has loaded `size`. -/
def enqueueAdd (n : Index) : Q (Except String Bool) := do
  QReq.ask (.storeSize (n + 1))
  pure (.ok true)

/-- What is left of `enqueue` once it has stored `rear`. -/
def enqueueCount : Q (Except String Bool) := do
  enqueueAdd (← QReq.ask .loadSize)

/-- What is left of `enqueue` once it has stored the slot. -/
def enqueuePublish (r : Index) : Q (Except String Bool) := do
  QReq.ask (.storeRear (CircularQueue.increment capacity r))
  enqueueCount

/-- What is left of `enqueue` once it has found room. -/
def enqueueWrite (unid : UnidVal) (r : Index) : Q (Except String Bool) := do
  QReq.ask (.storeSlot r unid)
  enqueuePublish capacity r

/-- What is left of `enqueue` once it has loaded `rear`. -/
def enqueueTest (unid : UnidVal) (r : Index) : Q (Except String Bool) := do
  if CircularQueue.increment capacity r ≠ (← QReq.ask .loadFront) then
    enqueueWrite capacity unid r
  else pure (.error "enqueue(): Queue overflow")

/-- What is left of `dequeue` once it has loaded `size`. -/
def dequeueSubtract (unid : UnidVal) (n : Index) : Q (Option UnidVal) := do
  QReq.ask (.storeSize (n - 1))
  pure (some unid)

/-- What is left of `dequeue` once it has stored `front`. -/
def dequeueCount (unid : UnidVal) : Q (Option UnidVal) := do
  dequeueSubtract unid (← QReq.ask .loadSize)

/-- What is left of `dequeue` once it has loaded the slot. -/
def dequeueAdvance (f : Index) (unid : UnidVal) : Q (Option UnidVal) := do
  QReq.ask (.storeFront (CircularQueue.increment capacity f))
  dequeueCount unid

/-- What is left of `dequeue` once it has found a value. -/
def dequeueTake (f : Index) : Q (Option UnidVal) := do
  dequeueAdvance capacity f (← QReq.ask (.loadSlot f))

/-- What is left of `dequeue` once it has loaded `front`. -/
def dequeueTest (f : Index) : Q (Option UnidVal) := do
  if f = (← QReq.ask .loadRear) then pure none else dequeueTake capacity f

end Rest

/-- The points between the loads and stores of `enqueue`, with what has been loaded. -/
inductive PStage
  | idle
  | reading (unid : UnidVal)
  | testing (unid : UnidVal) (r : Index)
  | writing (unid : UnidVal) (r : Index)
  | publishing (unid : UnidVal) (r : Index)
  | counting (unid : UnidVal)
  | adding (unid : UnidVal) (n : Index)

/-- The points between the loads and stores of `dequeue`, with what has been loaded. -/
inductive CStage
  | idle
  | reading
  | testing (f : Index)
  | taking (f : Index)
  | advancing (f : Index) (unid : UnidVal)
  | counting (unid : UnidVal)
  | subtracting (unid : UnidVal) (n : Index)

namespace PStage

def producer (capacity : Index) : PStage → Producer
  | idle => .idle
  | reading unid => .running unid (enqueue capacity unid)
  | testing unid r => .running unid (enqueueTest capacity unid r)
  | writing unid r => .running unid (enqueueWrite capacity unid r)
  | publishing unid r => .running unid (enqueuePublish capacity r)
  | counting unid => .running unid enqueueCount
  | adding unid n => .running unid (enqueueAdd n)

/-- The stage after the next load or store. -/
def next (s : QueueState) : PStage → PStage
  | idle => idle
  | reading unid => testing unid s.queue.rear
  | testing unid r =>
      if CircularQueue.increment s.queue.capacity r ≠ s.queue.front then writing unid r else idle
  | writing unid r => publishing unid r
  | publishing unid _ => counting unid
  | counting unid => adding unid s.queue.size
  | adding .. => idle

/-- The stage after an event. -/
def after (s : QueueState) (ps : PStage) : QueueEvent → PStage
  | .enqueue unid => reading unid
  | .produce => ps.next s
  | _ => ps

theorem eq_idle_of_isIdle {capacity : Index} {ps : PStage}
    (h : (ps.producer capacity).isIdle = true) : ps = idle := by
  cases ps <;> first | rfl | cases h

/-- The producer is about to store to a slot in one stage only. -/
theorem eq_writing_of_storeSlot {capacity i : Index} {unid v : UnidVal} {ps : PStage}
    {k : Unit → Q (Except String Bool)}
    (h : ps.producer capacity = .running unid (.req (.storeSlot i v) k)) :
    ∃ unid', ps = writing unid' i := by
  cases ps with
  | writing unid' r =>
      cases h
      exact ⟨_, rfl⟩
  | _ => cases h

end PStage

namespace CStage

def consumer (capacity : Index) : CStage → Consumer
  | idle => .idle
  | reading => .running (dequeue capacity)
  | testing f => .running (dequeueTest capacity f)
  | taking f => .running (dequeueTake capacity f)
  | advancing f unid => .running (dequeueAdvance capacity f unid)
  | counting unid => .running (dequeueCount unid)
  | subtracting unid n => .running (dequeueSubtract unid n)

/-- The stage after the next load or store. -/
def next (s : QueueState) : CStage → CStage
  | idle => idle
  | reading => testing s.queue.front
  | testing f => if f = s.queue.rear then idle else taking f
  | taking f => advancing f (s.queue.queue f.toNat)
  | advancing _ unid => counting unid
  | counting unid => subtracting unid s.queue.size
  | subtracting .. => idle

/-- The stage after an event. -/
def after (s : QueueState) (cs : CStage) : QueueEvent → CStage
  | .dequeue => reading
  | .consume => cs.next s
  | _ => cs

theorem eq_idle_of_isIdle {capacity : Index} {cs : CStage}
    (h : (cs.consumer capacity).isIdle = true) : cs = idle := by
  cases cs <;> first | rfl | cases h

/-- The value that has left the queue and is not yet returned. -/
def carried : CStage → List UnidVal
  | counting unid | subtracting unid _ => [unid]
  | _ => []

end CStage

namespace QueueState
variable {s : QueueState} {unid : UnidVal} {capacity r f n : Index}

/-! ### What each step of the producer does -/

theorem produce_idle (h : s.producer = .idle) : s.produce = s := by
  simp only [produce, h]

theorem produce_reading (h : s.producer = (PStage.reading unid).producer capacity) :
    s.produce = { s with producer := (PStage.testing unid s.queue.rear).producer capacity } := by
  simp only [produce, h]
  rfl

theorem produce_testing (h : s.producer = (PStage.testing unid r).producer capacity) :
    s.produce = s.produced unid .loadFront
      (if CircularQueue.increment capacity r ≠ s.queue.front then enqueueWrite capacity unid r
        else pure (.error "enqueue(): Queue overflow")) := by
  simp only [produce, h]
  rfl

theorem produce_room (h : s.producer = (PStage.testing unid r).producer capacity)
    (hroom : CircularQueue.increment capacity r ≠ s.queue.front) :
    s.produce = { s with producer := (PStage.writing unid r).producer capacity } := by
  rw [produce_testing h, if_pos hroom]
  rfl

theorem produce_full (h : s.producer = (PStage.testing unid r).producer capacity)
    (hfull : CircularQueue.increment capacity r = s.queue.front) :
    s.produce = { s with producer := .idle, throws := s.writes :: s.throws } := by
  rw [produce_testing h, if_neg (not_not.mpr hfull)]
  rfl

theorem produce_writing (h : s.producer = (PStage.writing unid r).producer capacity) :
    s.produce = { s with
      queue := (CircularQueue.handle (.storeSlot r unid) s.queue).2
      producer := (PStage.publishing unid r).producer capacity
      writes := .storeSlot r unid :: s.writes } := by
  simp only [produce, h]
  rfl

theorem produce_publishing (h : s.producer = (PStage.publishing unid r).producer capacity) :
    s.produce = { s with
      queue := { s.queue with rear := CircularQueue.increment capacity r }
      producer := (PStage.counting unid).producer capacity
      writes := .storeRear (CircularQueue.increment capacity r) :: s.writes
      stored := s.stored ++ [(slotOf s.writes, unid)] } := by
  simp only [produce, h]
  rfl

theorem produce_counting (h : s.producer = (PStage.counting unid).producer capacity) :
    s.produce = { s with producer := (PStage.adding unid s.queue.size).producer capacity } := by
  simp only [produce, h]
  rfl

theorem produce_adding (h : s.producer = (PStage.adding unid n).producer capacity) :
    s.produce = { s with
      queue := { s.queue with size := n + 1 }
      producer := .idle
      writes := .storeSize (n + 1) :: s.writes } := by
  simp only [produce, h]
  rfl

/-! ### What each step of the consumer does -/

theorem consume_idle (h : s.consumer = .idle) : s.consume = s := by
  simp only [consume, h]

theorem consume_reading (h : s.consumer = CStage.reading.consumer capacity) :
    s.consume = { s with consumer := (CStage.testing s.queue.front).consumer capacity } := by
  simp only [consume, h]
  rfl

theorem consume_testing (h : s.consumer = (CStage.testing f).consumer capacity) :
    s.consume = s.consumed .loadRear
      (if f = s.queue.rear then pure none else dequeueTake capacity f) := by
  simp only [consume, h]
  rfl

theorem consume_empty (h : s.consumer = (CStage.testing f).consumer capacity)
    (hempty : f = s.queue.rear) : s.consume = { s with consumer := .idle } := by
  rw [consume_testing h, if_pos hempty]
  rfl

theorem consume_found (h : s.consumer = (CStage.testing f).consumer capacity)
    (hne : f ≠ s.queue.rear) :
    s.consume = { s with consumer := (CStage.taking f).consumer capacity } := by
  rw [consume_testing h, if_neg hne]
  rfl

theorem consume_taking (h : s.consumer = (CStage.taking f).consumer capacity) :
    s.consume = { s with
      consumer := (CStage.advancing f (s.queue.queue f.toNat)).consumer capacity } := by
  simp only [consume, h]
  rfl

theorem consume_advancing (h : s.consumer = (CStage.advancing f unid).consumer capacity) :
    s.consume = { s with
      queue := { s.queue with front := CircularQueue.increment capacity f }
      consumer := (CStage.counting unid).consumer capacity
      taken := s.taken + 1 } := by
  simp only [consume, h]
  rfl

theorem consume_counting (h : s.consumer = (CStage.counting unid).consumer capacity) :
    s.consume = { s with
      consumer := (CStage.subtracting unid s.queue.size).consumer capacity } := by
  simp only [consume, h]
  rfl

theorem consume_subtracting (h : s.consumer = (CStage.subtracting unid n).consumer capacity) :
    s.consume = { s with
      queue := { s.queue with size := n - 1 }
      consumer := .idle
      returned := s.returned ++ [unid] } := by
  simp only [consume, h]
  rfl

end QueueState

/-! ## The invariant -/

/-- What the producer can rely on; the consumer only makes more room. -/
def PStage.Knows (s : QueueState) : PStage → Prop
  | idle | counting _ | adding .. => True
  | reading _ => s.writes = []
  | testing _ r => s.writes = [] ∧ r = s.queue.rear
  | writing _ r =>
      s.writes = [] ∧ r = s.queue.rear ∧ s.stored.length + 1 < s.taken + s.queue.capacity.toNat
  | publishing unid r =>
      s.writes = [.storeSlot r unid] ∧ r = s.queue.rear ∧
        s.stored.length + 1 < s.taken + s.queue.capacity.toNat ∧ s.queue.queue r.toNat = unid

/-- What the consumer can rely on; the producer only adds values. -/
def CStage.Knows (s : QueueState) : CStage → Prop
  | idle | reading | counting _ | subtracting .. => True
  | testing f => f = s.queue.front
  | taking f => f = s.queue.front ∧ s.taken < s.stored.length
  | advancing f unid => f = s.queue.front ∧ (s.stored.map Prod.snd)[s.taken]? = some unid

theorem PStage.Knows.mono {s t : QueueState} {ps : PStage} (K : ps.Knows s)
    (hcap : t.queue.capacity = s.queue.capacity) (hrear : t.queue.rear = s.queue.rear)
    (hslots : t.queue.queue = s.queue.queue) (hwrites : t.writes = s.writes)
    (hstored : t.stored = s.stored) (htaken : s.taken ≤ t.taken) : ps.Knows t := by
  cases ps with
  | idle => trivial
  | counting unid => trivial
  | adding unid n => trivial
  | reading unid => exact hwrites.trans K
  | testing unid r => exact ⟨hwrites.trans K.1, K.2.trans hrear.symm⟩
  | writing unid r =>
      obtain ⟨hw, hr, hroom⟩ := K
      refine ⟨hwrites.trans hw, hr.trans hrear.symm, ?_⟩
      rw [hstored, hcap]
      omega
  | publishing unid r =>
      obtain ⟨hw, hr, hroom, hslot⟩ := K
      refine ⟨hwrites.trans hw, hr.trans hrear.symm, ?_, by rw [hslots, hslot]⟩
      rw [hstored, hcap]
      omega

theorem CStage.Knows.mono {s t : QueueState} {cs : CStage} (K : cs.Knows s)
    (hfront : t.queue.front = s.queue.front) (htaken : t.taken = s.taken)
    (hstored : s.stored <+: t.stored) : cs.Knows t := by
  cases cs with
  | idle => trivial
  | reading => trivial
  | counting unid => trivial
  | subtracting unid n => trivial
  | testing f => exact Eq.trans K hfront.symm
  | taking f =>
      refine ⟨K.1.trans hfront.symm, ?_⟩
      rw [htaken]
      exact K.2.trans_le hstored.length_le
  | advancing f unid =>
      refine ⟨K.1.trans hfront.symm, ?_⟩
      obtain ⟨more, hmore⟩ := hstored.map Prod.snd
      obtain ⟨hlt, -⟩ := List.getElem?_eq_some_iff.mp K.2
      rw [htaken, ← hmore, List.getElem?_append_left hlt]
      exact K.2

theorem increment_toNat {capacity i : Index} (h : i.toNat < capacity.toNat) :
    (CircularQueue.increment capacity i).toNat = (i.toNat + 1) % capacity.toNat := by
  have hcap := capacity.isLt
  rw [CircularQueue.increment, BitVec.toNat_umod, BitVec.toNat_add]
  congr 1
  exact Nat.mod_eq_of_lt (by simp; omega)

namespace QueueState

/-- The two indices and the slots follow the values stored and the values taken. -/
structure Tracks (s : QueueState) (ps : PStage) (cs : CStage) : Prop where
  producer : s.producer = ps.producer s.queue.capacity
  consumer : s.consumer = cs.consumer s.queue.capacity
  ring : Ring s.queue.queue s.queue.capacity.toNat s.taken (s.stored.map Prod.snd)
  front : s.queue.front.toNat = s.taken % s.queue.capacity.toNat
  rear : s.queue.rear.toNat = s.stored.length % s.queue.capacity.toNat
  slots : s.stored.map Prod.fst =
    (List.range s.stored.length).map (· % s.queue.capacity.toNat)
  returned : s.returned ++ cs.carried = (s.stored.map Prod.snd).take s.taken
  clean : ∀ ws ∈ s.throws, ws = []
  produces : ps.Knows s
  consumes : cs.Knows s

namespace Tracks
variable {s : QueueState} {ps : PStage} {cs : CStage}

theorem producer_idle (T : s.Tracks ps cs) (h : s.producer.isIdle = true) : ps = .idle :=
  PStage.eq_idle_of_isIdle (T.producer ▸ h)

theorem consumer_idle (T : s.Tracks ps cs) (h : s.consumer.isIdle = true) : cs = .idle :=
  CStage.eq_idle_of_isIdle (T.consumer ▸ h)

theorem capacity_pos (T : s.Tracks ps cs) : 0 < s.queue.capacity.toNat := T.ring.pos

theorem rear_lt (T : s.Tracks ps cs) : s.queue.rear.toNat < s.queue.capacity.toNat := by
  rw [T.rear]
  exact Nat.mod_lt _ T.capacity_pos

theorem front_lt (T : s.Tracks ps cs) : s.queue.front.toNat < s.queue.capacity.toNat := by
  rw [T.front]
  exact Nat.mod_lt _ T.capacity_pos

theorem increment_rear (T : s.Tracks ps cs) :
    (CircularQueue.increment s.queue.capacity s.queue.rear).toNat =
      (s.stored.length + 1) % s.queue.capacity.toNat := by
  rw [increment_toNat T.rear_lt, T.rear, Nat.mod_add_mod]

theorem increment_front (T : s.Tracks ps cs) :
    (CircularQueue.increment s.queue.capacity s.queue.front).toNat =
      (s.taken + 1) % s.queue.capacity.toNat := by
  rw [increment_toNat T.front_lt, T.front, Nat.mod_add_mod]

/-- The producer's test is exact at the moment it is made. -/
theorem room_iff (T : s.Tracks ps cs) :
    CircularQueue.increment s.queue.capacity s.queue.rear ≠ s.queue.front ↔
      s.stored.length + 1 < s.taken + s.queue.capacity.toNat := by
  have hfull := T.ring.full_iff
  have hlt := T.ring.lt
  rw [List.length_map] at hfull hlt
  rw [ne_eq, BitVec.toNat_inj.symm, T.increment_rear, T.front, hfull]
  omega

/-- So is the consumer's. -/
theorem empty_iff (T : s.Tracks ps cs) :
    s.queue.front = s.queue.rear ↔ s.stored.length = s.taken := by
  have hempty := T.ring.empty_iff
  rw [List.length_map] at hempty
  rw [BitVec.toNat_inj.symm, T.front, T.rear, ← hempty, eq_comm]

theorem taken_le (T : s.Tracks ps cs) : s.taken ≤ s.stored.length := by
  have hle := T.ring.le
  rwa [List.length_map] at hle

/-- Indices that differ leave a value to be taken. -/
theorem taken_lt (T : s.Tracks ps cs) (hne : s.queue.front ≠ s.queue.rear) :
    s.taken < s.stored.length := by
  have hlen : s.stored.length ≠ s.taken := mt T.empty_iff.mpr hne
  exact lt_of_le_of_ne T.taken_le hlen.symm

/-- Writing the slot at `rear` leaves the values alone. -/
theorem ring_write (T : s.Tracks ps cs) (unid : UnidVal) :
    Ring (fun k => if k = s.queue.rear.toNat then unid else s.queue.queue k)
      s.queue.capacity.toNat s.taken (s.stored.map Prod.snd) := by
  refine T.ring.write ?_
  intro i hi
  rw [List.length_map, ← T.rear] at hi
  exact if_neg hi

/-- The slot at `front` holds the next value to be taken. -/
theorem value_at_front (T : s.Tracks ps cs) (hne : s.taken < s.stored.length) :
    (s.stored.map Prod.snd)[s.taken]? = some (s.queue.queue s.queue.front.toNat) := by
  have hlen : s.taken < (s.stored.map Prod.snd).length := by rwa [List.length_map]
  rw [T.front, T.ring.holds s.taken hlen le_rfl]
  exact List.getElem?_eq_getElem hlen

/-- The producer makes its next load or store. -/
theorem produce (T : s.Tracks ps cs) : s.produce.Tracks (ps.next s) cs := by
  have hprod := T.producer
  have hknows := T.produces
  cases ps with
  | idle =>
      rw [produce_idle hprod]
      exact T
  | reading unid =>
      rw [produce_reading hprod]
      exact { T with
        producer := rfl
        produces := ⟨hknows, rfl⟩
        consumes := T.consumes.mono rfl rfl List.prefix_rfl }
  | testing unid r =>
      obtain ⟨hwrites, rfl⟩ := hknows
      by_cases hroom : CircularQueue.increment s.queue.capacity s.queue.rear ≠ s.queue.front
      · rw [produce_room hprod hroom, PStage.next, if_pos hroom]
        exact { T with
          producer := rfl
          produces := ⟨hwrites, rfl, T.room_iff.mp hroom⟩
          consumes := T.consumes.mono rfl rfl List.prefix_rfl }
      · rw [produce_full hprod (not_not.mp hroom), PStage.next, if_neg hroom]
        exact { T with
          producer := rfl
          clean := List.forall_mem_cons.mpr ⟨hwrites, T.clean⟩
          produces := trivial
          consumes := T.consumes.mono rfl rfl List.prefix_rfl }
  | writing unid r =>
      obtain ⟨hwrites, rfl, hroom⟩ := hknows
      rw [produce_writing hprod]
      exact { T with
        producer := rfl
        ring := T.ring_write unid
        produces := ⟨congrArg _ hwrites, rfl, hroom, if_pos rfl⟩
        consumes := T.consumes.mono rfl rfl List.prefix_rfl }
  | publishing unid r =>
      obtain ⟨hwrites, rfl, hroom, hslot⟩ := hknows
      rw [produce_publishing hprod]
      have hring := T.ring.push (x := unid) (by rwa [List.length_map])
        (by rwa [List.length_map, ← T.rear])
      refine { T with
        producer := rfl
        ring := by simpa using hring
        rear := by simpa using T.increment_rear
        slots := ?_
        returned := ?_
        produces := trivial
        consumes := T.consumes.mono rfl rfl (List.prefix_append _ _) }
      · simp [hwrites, slotOf, T.slots, List.range_succ, T.rear]
      · have hle := T.ring.le
        rw [List.map_append, List.take_append_of_le_length hle]
        exact T.returned
  | counting unid =>
      rw [produce_counting hprod]
      exact { T with
        producer := rfl
        produces := trivial
        consumes := T.consumes.mono rfl rfl List.prefix_rfl }
  | adding unid n =>
      rw [produce_adding hprod]
      exact { T with
        producer := rfl
        produces := trivial
        consumes := T.consumes.mono rfl rfl List.prefix_rfl }

/-- The consumer makes its next load or store. -/
theorem consume (T : s.Tracks ps cs) : s.consume.Tracks ps (cs.next s) := by
  have hcons := T.consumer
  have hknows := T.consumes
  cases cs with
  | idle =>
      rw [consume_idle hcons]
      exact T
  | reading =>
      rw [consume_reading hcons]
      exact { T with
        consumer := rfl
        produces := T.produces.mono rfl rfl rfl rfl rfl le_rfl
        consumes := rfl }
  | testing f =>
      obtain rfl := hknows
      by_cases hempty : s.queue.front = s.queue.rear
      · rw [consume_empty hcons hempty, CStage.next, if_pos hempty]
        exact { T with
          consumer := rfl
          produces := T.produces.mono rfl rfl rfl rfl rfl le_rfl
          consumes := trivial }
      · rw [consume_found hcons hempty, CStage.next, if_neg hempty]
        exact { T with
          consumer := rfl
          produces := T.produces.mono rfl rfl rfl rfl rfl le_rfl
          consumes := ⟨rfl, T.taken_lt hempty⟩ }
  | taking f =>
      obtain ⟨rfl, hne⟩ := hknows
      rw [consume_taking hcons]
      exact { T with
        consumer := rfl
        produces := T.produces.mono rfl rfl rfl rfl rfl le_rfl
        consumes := ⟨rfl, T.value_at_front hne⟩ }
  | advancing f unid =>
      obtain ⟨rfl, hvalue⟩ := hknows
      rw [consume_advancing hcons]
      obtain ⟨hlen, -⟩ := List.getElem?_eq_some_iff.mp hvalue
      refine { T with
        consumer := rfl
        ring := T.ring.pop hlen
        front := T.increment_front
        returned := ?_
        produces := T.produces.mono rfl rfl rfl rfl rfl (Nat.le_succ _)
        consumes := trivial }
      have hbefore := T.returned
      simp only [CStage.carried, List.append_nil] at hbefore
      rw [List.take_add_one, hvalue, ← hbefore]
      rfl
  | counting unid =>
      rw [consume_counting hcons]
      exact { T with
        consumer := rfl
        produces := T.produces.mono rfl rfl rfl rfl rfl le_rfl
        consumes := trivial }
  | subtracting unid n =>
      rw [consume_subtracting hcons]
      exact { T with
        consumer := rfl
        returned := by simpa [CStage.carried, CStage.next] using T.returned
        produces := T.produces.mono rfl rfl rfl rfl rfl le_rfl
        consumes := trivial }

/-- Any step keeps the invariant. -/
theorem next (T : s.Tracks ps cs) {e : QueueEvent} (hg : s.guard e) :
    (s.next e).Tracks (ps.after s e) (cs.after s e) := by
  cases e with
  | enqueue unid =>
      exact { T with
        producer := rfl
        produces := rfl
        consumes := T.consumes.mono rfl rfl List.prefix_rfl }
  | dequeue =>
      obtain rfl := T.consumer_idle hg
      exact { T with
        consumer := rfl
        produces := T.produces.mono rfl rfl rfl rfl rfl le_rfl
        consumes := trivial }
  | produce => exact T.produce
  | consume => exact T.consume

/-- No value still to be taken lies in the slot the producer is about to store to. -/
theorem slot_ne_rear (T : s.Tracks ps cs) {e : ℕ × UnidVal} (he : e ∈ s.stored.drop s.taken) :
    e.1 ≠ s.queue.rear.toNat := by
  obtain ⟨j, hj, rfl⟩ := List.getElem_of_mem he
  rw [List.length_drop] at hj
  have hslot : s.stored[s.taken + j].1 = (s.taken + j) % s.queue.capacity.toNat := by
    have hget := congrArg (·[s.taken + j]?) T.slots
    simpa [show s.taken + j < s.stored.length by omega] using hget
  rw [List.getElem_drop, hslot, T.rear]
  have hne := T.ring.slot_ne (j := s.taken + j) (by omega) (by rw [List.length_map]; omega)
  rwa [List.length_map] at hne

theorem fifo (T : s.Tracks ps cs) : s.Fifo where
  order := (List.prefix_append _ _).trans (T.returned ▸ List.take_prefix _ _)
  front_lt := T.front_lt
  rear_lt := T.rear_lt
  spares := by
    intro unid i v k hstore e he
    obtain ⟨v', rfl⟩ := PStage.eq_writing_of_storeSlot (T.producer.symm.trans hstore)
    obtain ⟨-, rfl, -⟩ := T.produces
    exact T.slot_ne_rear he
  clean := T.clean

end Tracks

/-- A queue of capacity `cap` with nothing in it. -/
theorem tracks_start {cap : Index} (hcap : 0 < cap) (queue : ℕ → UnidVal) (size : Index) :
    (start ⟨queue, 0, 0, cap, size⟩).Tracks .idle .idle where
  producer := rfl
  consumer := rfl
  ring := ⟨hcap, le_rfl, (Nat.zero_add cap.toNat).symm ▸ hcap,
    fun j hj => absurd hj (Nat.not_lt_zero j)⟩
  front := (Nat.zero_mod _).symm
  rear := (Nat.zero_mod _).symm
  slots := rfl
  returned := rfl
  clean := fun _ h => absurd h List.not_mem_nil
  produces := trivial
  consumes := trivial

end QueueState

theorem CircularQueue.new_eq_ok {cap : Index} (hcap : 0 < cap) (garbage : ℕ → UnidVal) :
    CircularQueue.new cap garbage = .ok ⟨memset garbage cap, 0, 0, cap, 0⟩ :=
  if_neg (by rintro rfl; exact absurd hcap (by decide))

/-- In every run, from a new queue of any capacity, values come out as they went in. -/
theorem queue_fifo (cap : Index) (hcap : 0 < cap) (garbage : ℕ → UnidVal) :
    ∃ q, CircularQueue.new cap garbage = .ok q ∧
      ∀ es, spsc.Admits (.start q) es → (spsc.exec (.start q) es).Fifo := by
  refine ⟨_, CircularQueue.new_eq_ok hcap garbage, ?_⟩
  intro es hes
  obtain ⟨ps, cs, T⟩ := Machine.exec_induction (M := spsc)
    (I := fun s => ∃ ps cs, s.Tracks ps cs)
    (fun _ _ ⟨_, _, T⟩ hg => ⟨_, _, T.next hg⟩) ⟨_, _, QueueState.tracks_start hcap _ _⟩ hes
  exact T.fifo

/-- A lap over two slots: the second `enqueue` throws, as it runs before `front` is stored, and
the third comes while the first `dequeue` has still to count down. -/
theorem queue_fifo_run :
    let es : List QueueEvent := [.enqueue 7, .produce, .produce, .produce, .produce, .dequeue,
      .consume, .produce, .produce, .enqueue 8, .consume, .produce, .produce, .consume, .consume,
      .enqueue 9, .produce, .produce, .produce, .produce, .consume, .consume]
    ∃ q, CircularQueue.new 2 (fun _ => 0) = .ok q ∧ spsc.Admits (.start q) es ∧
      (spsc.exec (.start q) es).stored = [(0, 7), (1, 9)] ∧
      (spsc.exec (.start q) es).Fifo := by
  intro es
  obtain ⟨q, hq, hfifo⟩ := queue_fifo 2 (by decide) fun _ => 0
  have hes : spsc.Admits (.start q) es := by
    cases hq
    decide +kernel
  refine ⟨q, hq, hes, ?_, hfifo es hes⟩
  cases hq
  decide +kernel

end Unid.Spike
