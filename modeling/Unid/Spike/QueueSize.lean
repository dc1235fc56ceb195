import Unid.Spike.QueueContract

/-!
# The counter of the circular queue

`size++` and `size--` are a load and a store each, made after the index was
published, and nothing keeps the two sides apart.  `size_counts` says that the
counter is right between calls as long as no side stores it between the other's
load and store; one update lost is lost for good.

## Main definitions

* `QueueState.Counted` — between calls, `size` is the number of unids in the queue.
* `QueueState.Exclusive` — the steps that lose no update.
* `QueueState.Counts` — the invariant: `size` is right but for what the sides owe it.
-/

namespace Unid.Spike
open Lib

/-- Between its load and its store of `size`. -/
def Producer.holdsSize : Producer → Bool
  | running _ (.req (.storeSize _) _) => true
  | _ => false

/-- Between its load and its store of `size`. -/
def Consumer.holdsSize : Consumer → Bool
  | running (.req (.storeSize _) _) => true
  | _ => false

/-- Between calls, `size` is the number of unids in the queue, which the two indices tell. -/
def QueueState.Counted (s : QueueState) : Prop :=
  s.producer.isIdle = true → s.consumer.isIdle = true →
    s.queue.size.toNat = s.stored.length - s.taken ∧
    s.queue.size.toNat = (s.queue.rear.toNat + s.queue.capacity.toNat - s.queue.front.toNat) %
      s.queue.capacity.toNat

/-- No side stores `size` between the other's load and store of it. -/
def QueueState.Exclusive (s : QueueState) : QueueEvent → Prop
  | .produce => s.producer.holdsSize = true → s.consumer.holdsSize = false
  | .consume => s.consumer.holdsSize = true → s.producer.holdsSize = false
  | _ => True

instance (s : QueueState) (e : QueueEvent) : Decidable (s.Exclusive e) :=
  match e with
  | .produce | .consume => inferInstanceAs (Decidable (_ → _))
  | .enqueue _ | .dequeue => inferInstanceAs (Decidable True)

/-- What the producer has stored in the queue and not yet in `size`. -/
def PStage.owed : PStage → Index
  | counting _ | adding .. => 1
  | _ => 0

/-- What the consumer has taken from the queue and not yet from `size`. -/
def CStage.owed : CStage → Index
  | counting _ | subtracting .. => 1
  | _ => 0

namespace QueueState

/-- `size` is right but for what the two sides still owe it, and a copy of it is up to date. -/
structure Counts (s : QueueState) (ps : PStage) (cs : CStage) : Prop where
  balance : s.queue.size + ps.owed + BitVec.ofNat 32 s.taken =
    BitVec.ofNat 32 s.stored.length + cs.owed
  adds : ∀ unid n, ps = .adding unid n → n = s.queue.size
  subtracts : ∀ unid n, cs = .subtracting unid n → n = s.queue.size

namespace Counts
variable {s : QueueState} {ps : PStage} {cs : CStage}

theorem produce (C : s.Counts ps cs) (T : s.Tracks ps cs) (hx : s.Exclusive .produce) :
    s.produce.Counts (ps.next s) cs := by
  have hprod := T.producer
  have hbalance := C.balance
  cases ps with
  | idle =>
      rw [produce_idle hprod]
      exact C
  | reading unid =>
      rw [produce_reading hprod]
      exact { C with adds := by rintro _ _ ⟨⟩ }
  | testing unid r =>
      by_cases hroom : CircularQueue.increment s.queue.capacity r ≠ s.queue.front
      · rw [produce_room hprod hroom, PStage.next, if_pos hroom]
        exact { C with adds := by rintro _ _ ⟨⟩ }
      · rw [produce_full hprod (not_not.mp hroom), PStage.next, if_neg hroom]
        exact { C with adds := by rintro _ _ ⟨⟩ }
  | writing unid r =>
      rw [produce_writing hprod]
      exact { C with adds := by rintro _ _ ⟨⟩ }
  | publishing unid r =>
      rw [produce_publishing hprod]
      refine { C with balance := ?_, adds := by rintro _ _ ⟨⟩ }
      simp only [PStage.owed, PStage.next, List.length_append, List.length_singleton,
        BitVec.ofNat_add] at hbalance ⊢
      bv_omega
  | counting unid =>
      rw [produce_counting hprod]
      exact { C with adds := by rintro _ _ ⟨⟩; rfl }
  | adding unid n =>
      obtain rfl := C.adds unid n rfl
      rw [produce_adding hprod]
      refine { C with balance := ?_, adds := by rintro _ _ ⟨⟩, subtracts := ?_ }
      · simpa [PStage.owed, PStage.next] using hbalance
      · rintro v n rfl
        have := hx (by rw [hprod]; rfl)
        rw [T.consumer] at this
        cases this

theorem consume (C : s.Counts ps cs) (T : s.Tracks ps cs) (hx : s.Exclusive .consume) :
    s.consume.Counts ps (cs.next s) := by
  have hcons := T.consumer
  have hbalance := C.balance
  cases cs with
  | idle =>
      rw [consume_idle hcons]
      exact C
  | reading =>
      rw [consume_reading hcons]
      exact { C with subtracts := by rintro _ _ ⟨⟩ }
  | testing f =>
      by_cases hempty : f = s.queue.rear
      · rw [consume_empty hcons hempty, CStage.next, if_pos hempty]
        exact { C with subtracts := by rintro _ _ ⟨⟩ }
      · rw [consume_found hcons hempty, CStage.next, if_neg hempty]
        exact { C with subtracts := by rintro _ _ ⟨⟩ }
  | taking f =>
      rw [consume_taking hcons]
      exact { C with subtracts := by rintro _ _ ⟨⟩ }
  | advancing f unid =>
      rw [consume_advancing hcons]
      refine { C with balance := ?_, subtracts := by rintro _ _ ⟨⟩ }
      simp only [CStage.owed, CStage.next, BitVec.ofNat_add] at hbalance ⊢
      bv_omega
  | counting unid =>
      rw [consume_counting hcons]
      exact { C with subtracts := by rintro _ _ ⟨⟩; rfl }
  | subtracting unid n =>
      obtain rfl := C.subtracts unid n rfl
      rw [consume_subtracting hcons]
      refine { C with balance := ?_, adds := ?_, subtracts := by rintro _ _ ⟨⟩ }
      · simp only [CStage.owed, CStage.next] at hbalance ⊢
        bv_omega
      · rintro v n rfl
        have hother := hx (by rw [hcons]; rfl)
        rw [T.producer] at hother
        cases hother

theorem next (C : s.Counts ps cs) (T : s.Tracks ps cs) {e : QueueEvent} (hg : s.guard e)
    (hx : s.Exclusive e) : (s.next e).Counts (ps.after s e) (cs.after s e) := by
  cases e with
  | enqueue unid =>
      obtain rfl := T.producer_idle hg
      exact { C with adds := by rintro _ _ ⟨⟩ }
  | dequeue =>
      obtain rfl := T.consumer_idle hg
      exact { C with subtracts := by rintro _ _ ⟨⟩ }
  | produce => exact C.produce T hx
  | consume => exact C.consume T hx

theorem counted (C : s.Counts ps cs) (T : s.Tracks ps cs) : s.Counted := by
  intro hp hc
  obtain rfl := T.producer_idle hp
  obtain rfl := T.consumer_idle hc
  have hbalance := C.balance
  have hle := T.ring.le
  have hlt := T.ring.lt
  have hwindow := T.ring.length_window
  rw [List.length_map] at hle hlt hwindow
  have hsize : s.queue.size.toNat = s.stored.length - s.taken := by
    obtain ⟨d, hd⟩ := Nat.exists_eq_add_of_le hle
    simp only [PStage.owed, CStage.owed, hd, BitVec.ofNat_add] at hbalance
    have hcap := s.queue.capacity.isLt
    rw [show s.queue.size = BitVec.ofNat 32 d by bv_omega, BitVec.toNat_ofNat]
    rw [Nat.mod_eq_of_lt (by omega)]
    omega
  exact ⟨hsize, by rw [hsize, T.rear, T.front, hwindow]⟩

end Counts

theorem counts_start (cap : Index) (queue : ℕ → UnidVal) :
    (start ⟨queue, 0, 0, cap, 0⟩).Counts .idle .idle where
  balance := by simp [start, PStage.owed, CStage.owed]
  adds := by rintro _ _ ⟨⟩
  subtracts := by rintro _ _ ⟨⟩

end QueueState

/-- In every run in which no side stores `size` between the other's load and store of it, `size`
is right whenever both are between calls. -/
theorem size_counts (cap : Index) (hcap : 0 < cap) (garbage : ℕ → UnidVal) :
    ∃ q, CircularQueue.new cap garbage = .ok q ∧
      ∀ es, (spsc.restrict QueueState.Exclusive).Admits (.start q) es →
        (spsc.exec (.start q) es).Counted := by
  refine ⟨_, CircularQueue.new_eq_ok hcap garbage, ?_⟩
  intro es hes
  obtain ⟨ps, cs, T, C⟩ := Machine.exec_induction (M := spsc.restrict QueueState.Exclusive)
    (I := fun s => ∃ ps cs, s.Tracks ps cs ∧ s.Counts ps cs)
    (fun _ _ ⟨_, _, T, C⟩ hg => ⟨_, _, T.next hg.1, C.next T hg.1 hg.2⟩)
    ⟨_, _, QueueState.tracks_start hcap _ _, QueueState.counts_start cap _⟩ hes
  exact C.counted T

theorem size_counts_run :
    let es : List QueueEvent := [.enqueue 7, .produce, .produce, .produce, .produce, .dequeue,
      .consume, .consume, .consume, .consume, .consume, .consume, .produce, .produce, .enqueue 8,
      .produce, .produce, .produce, .produce, .produce, .produce]
    ∃ q, CircularQueue.new 4 (fun _ => 0) = .ok q ∧ (spsc.exec (.start q) es).queue.size = 1 ∧
      (spsc.exec (.start q) es).Counted := by
  intro es
  obtain ⟨q, hq, hcounted⟩ := size_counts 4 (by decide) fun _ => 0
  refine ⟨q, hq, ?_, hcounted es ?_⟩
  all_goals
    cases hq
    decide +kernel

/-- The consumer counts down between the producer's load and store of `size`: the queue is empty,
and `size` is one for good. -/
theorem size_loses_update :
    let es : List QueueEvent := [.enqueue 7, .produce, .produce, .produce, .produce, .produce,
      .dequeue, .consume, .consume, .consume, .consume, .consume, .consume, .produce]
    ∃ q, CircularQueue.new 4 (fun _ => 0) = .ok q ∧ spsc.Admits (.start q) es ∧
      (spsc.exec (.start q) es).queue.front = (spsc.exec (.start q) es).queue.rear ∧
      (spsc.exec (.start q) es).queue.size = 1 ∧ ¬ (spsc.exec (.start q) es).Counted := by
  intro es
  refine ⟨_, CircularQueue.new_eq_ok (by decide) _, by decide +kernel, by decide +kernel,
    by decide +kernel, ?_⟩
  intro hcounted
  have hzero := (hcounted (by decide +kernel) (by decide +kernel)).1
  revert hzero
  decide +kernel

end Unid.Spike
