import Unid.Spike.OrderedQueue
import Unid.Spike.QueueContract

/-!
# What the memory orders of the circular queue are good for

The indices hand the slots over: in every interleaving, and whatever the loads
return within their memory orders, the unids come out in order and no two accesses
to a slot race.  Nothing hands `size` over.  The store of `rear` that lets the
consumer take a unid comes before the `size++` of the same `enqueue`, so a
`dequeue` that goes by it does not know of that `size++`, and either its own
`size--` races with it or the `size++` that comes later races with the `size--`.

## Main definitions

* `Alone` — as long as the consumer has not come to `size`.
* `Calm`, `Pending` — `size` before and after the producer publishes.
* `wp_enqueue`, `wp_dequeue` — the calls, access by access.
-/

namespace Unid.Spike
open Lib
open RingShared (Inv Guar Step Sends Takes)

variable {capacity : Index} {s a b : OqShared} {sent accepted popped : List UnidVal}
  {unid : UnidVal} {taken q w i : ℕ}

theorem increment_ofNat (hcap : 0 < capacity.toNat) (k : ℕ) :
    CircularQueue.increment capacity (BitVec.ofNat 32 (k % capacity.toNat)) =
      BitVec.ofNat 32 ((k + 1) % capacity.toNat) := by
  apply BitVec.eq_of_toNat_eq
  rw [increment_toNat, toNat_ofNat_mod hcap, toNat_ofNat_mod hcap, Nat.mod_add_mod]
  rw [toNat_ofNat_mod hcap]
  exact Nat.mod_lt k hcap

/-! ## The counter -/

abbrev sizeCell : Cell Unit := .own ()

/-- How often the consumer has read `size`. -/
def sizeReads (s : OqShared) : ℕ := s.mem.now (.read sizeCell .consumer)

/-- How often `size` has been written. -/
def sizeWrites (s : OqShared) : ℕ := s.mem.now (.wrote sizeCell)

/-- The consumer has not come to `size`: it is the producer's, and what the consumer could know of
it lags behind what has been published. -/
structure Alone (s : OqShared) : Prop where
  mine : s.mem.Private .producer sizeCell
  messages : ∀ k ≤ s.sent.length, (s.mem.history .write k).view (.wrote sizeCell) ≤ k - 1
  behind : s.mem.view .consumer (.wrote sizeCell) ≤ s.mem.view .consumer (.seen .write) - 1

/-- All that is published is counted, or there has been a race. -/
structure Calm (s : OqShared) : Prop where
  raced : sizeReads s ≠ 0 → s.mem.raced sizeCell = true
  counted : sizeReads s = 0 → sizeWrites s = s.sent.length

/-- The producer has published and not counted yet; it knows of no read by the consumer. -/
structure Pending (s : OqShared) : Prop where
  unknown : s.mem.raced sizeCell = true ∨ s.mem.view .producer (.read sizeCell .consumer) = 0
  counted : sizeReads s = 0 → sizeWrites s + 1 = s.sent.length

/-- What a step of one side leaves to the other of `size`. -/
def Spares : Side → OqShared → OqShared → Prop
  | .producer, a, b => sizeReads b = sizeReads a
  | .consumer, a, b => (Calm a → Calm b) ∧ (Pending a → Pending b)

abbrev OqInv (capacity : Index) : OqShared → Prop :=
  Inv (BitVec.ofNat 32) capacity.toNat (fun _ => none) fun _ => True

abbrev OqGuar (capacity : Index) : Side → OqShared → OqShared → Prop :=
  Guar capacity.toNat fun _ => none

/-- What both sides keep. -/
structure SizeInv (capacity : Index) (s : OqShared) : Prop where
  ring : OqInv capacity s
  alone : sizeReads s = 0 → Alone s

/-- What each side knows between calls. -/
def queueIdle (capacity : Index) : Side → OqShared → Prop
  | .producer, s => ∃ sent q, Sends capacity.toNat s sent sent q ∧ Calm s
  | .consumer, s => ∃ taken popped w, Takes capacity.toNat s taken popped w ∧
      popped.length = taken ∧ sizeReads s = taken

def sizeContract (capacity : Index) : Contract (orderedQueue capacity) where
  inv := SizeInv capacity
  guar t a b := OqGuar capacity t a b ∧ Spares t a b
  idle := queueIdle capacity

/-- From `a`, an access of `t` has led to `b`. -/
structure SizeStep (capacity : Index) (t : Side) (a b : OqShared) : Prop where
  ring : Step (BitVec.ofNat 32) capacity.toNat (fun _ => none) (fun _ => True) t a b
  alone : sizeReads b = 0 → Alone b
  spares : Spares t a b

theorem Spares.refl (t : Side) (s : OqShared) : Spares t s s := by
  cases t with
  | producer => rfl
  | consumer => exact ⟨id, id⟩

theorem SizeStep.refl (h : SizeInv capacity s) (t : Side) : SizeStep capacity t s s :=
  ⟨⟨h.ring, .refl t s⟩, h.alone, .refl t s⟩

/-- The rule for one access. -/
theorem wp_size {t : Side} {c : QueueCall}
    {e : Access RingIndex (Cell Unit) Index (Cell.Val UnidVal fun _ => Index)}
    {Q : e.Ans → OqShared → Prop} (P : OqShared → Prop)
    (hstable : ∀ a b, OqGuar capacity t.other a b → Spares t.other a b → P a → P b)
    (hinv : SizeInv capacity s) (hs : P s)
    (hstep : ∀ s i, SizeInv capacity s → P s → WeakMem.Allowed t i e s.mem →
      SizeStep capacity t s (RingShared.perform capacity.toNat t c.value i e s).2 ∧
        Q (RingShared.perform capacity.toNat t c.value i e s).1
          (RingShared.perform capacity.toNat t c.value i e s).2) :
    (sizeContract capacity).Wp t c Q e.ask s := by
  refine Contract.Wp.ask (K := sizeContract capacity) (e := e) P ?_ hinv hs ?_
  · intro u hu a b _ _ hguar
    obtain rfl := Side.eq_other_of_ne hu
    exact hstable a b hguar.1 hguar.2
  · intro s i hinv hs hi
    obtain ⟨hnext, hQ⟩ := hstep s i hinv hs hi
    exact ⟨⟨hnext.ring.inv, hnext.alone⟩, ⟨hnext.ring.guar, hnext.spares⟩, hQ⟩

/-! ## The producer and the counter -/

section Producer

/-- Before the producer publishes. -/
structure Filling (capacity : Index) (s : OqShared) (sent accepted : List UnidVal) (q : ℕ) :
    Prop where
  sends : Sends capacity.toNat s sent accepted q
  calm : Calm s

/-- After the producer has published. -/
structure Counting (capacity : Index) (s : OqShared) (sent accepted : List UnidVal) (q : ℕ) :
    Prop where
  sends : Sends capacity.toNat s sent accepted q
  pending : Pending s

theorem Filling.guar (F : Filling capacity a sent accepted q)
    (h : OqGuar capacity .consumer a b) (hsize : Spares .consumer a b) :
    Filling capacity b sent accepted q :=
  ⟨F.sends.guar h, hsize.1 F.calm⟩

theorem Counting.guar (C : Counting capacity a sent accepted q)
    (h : OqGuar capacity .consumer a b) (hsize : Spares .consumer a b) :
    Counting capacity b sent accepted q :=
  ⟨C.sends.guar h, hsize.2 C.pending⟩

theorem step_load_front (h : SizeInv capacity s)
    (hi : WeakMem.Allowed .producer i (.load .acquire .read) s.mem) :
    SizeStep capacity .producer s { s with mem := s.mem.load .producer .acquire .read i } := by
  refine ⟨h.ring.load_read hi, ?_, rfl⟩
  intro hnone
  obtain ⟨hmine, hmessages, hbehind⟩ := h.alone hnone
  refine ⟨hmine.load h.ring.handover.wf hi.2, hmessages, ?_⟩
  rw [s.mem.load_view_of_ne (by decide)]
  exact hbehind

theorem step_write_slot (h : SizeInv capacity s) (F : Filling capacity s sent accepted q)
    (unid : UnidVal) :
    SizeStep capacity .producer s
      { s with mem := s.mem.write .producer (.slot (sent.length % capacity.toNat)) unid } := by
  have hne : sizeCell ≠ .slot (sent.length % capacity.toNat) := by simp
  refine ⟨h.ring.write_slot F.sends unid, ?_, s.mem.write_now_of_ne _ (by simp)⟩
  intro hnone
  rw [sizeReads, s.mem.write_now_of_ne _ (by simp)] at hnone
  obtain ⟨hmine, hmessages, hbehind⟩ := h.alone hnone
  refine ⟨hmine.write_other hne unid, hmessages, ?_⟩
  rw [s.mem.write_view_other _ (by decide)]
  exact hbehind

theorem calm_write_slot (C : Calm s) (k : ℕ) (unid : UnidVal) :
    Calm { s with mem := s.mem.write .producer (.slot k) unid } := by
  have hreads : sizeReads { s with mem := s.mem.write .producer (.slot k) unid } = sizeReads s :=
    s.mem.write_now_of_ne _ (by simp)
  have hwrites : sizeWrites { s with mem := s.mem.write .producer (.slot k) unid } =
      sizeWrites s := s.mem.write_now_of_ne _ (by simp)
  refine ⟨?_, ?_⟩
  · intro h
    rw [s.mem.write_raced_other _ (by simp)]
    exact C.raced (hreads ▸ h)
  · intro h
    rw [hwrites]
    exact C.counted (hreads ▸ h)

/-- What goes out with the new `rear` does not include the `size++` to come. -/
theorem step_store_rear (h : SizeInv capacity s) (F : Filling capacity s sent sent q)
    (hroom : sent.length + 1 < q + capacity.toNat)
    (hunid : s.mem.data (.slot (sent.length % capacity.toNat)) = unid) :
    SizeStep capacity .producer s
      { s with
        mem := s.mem.store .producer .write
          (BitVec.ofNat 32 ((sent.length + 1) % capacity.toNat))
        sent := s.sent ++ [unid] } := by
  refine ⟨h.ring.store_write F.sends hroom hunid trivial, ?_, s.mem.store_now_of_ne _ (by simp)⟩
  intro hnone
  rw [sizeReads, s.mem.store_now_of_ne _ (by simp)] at hnone
  obtain ⟨hmine, hmessages, hbehind⟩ := h.alone hnone
  have hwrites := h.ring.handover.writes
  have hknown : s.mem.view .producer (.wrote sizeCell) ≤ s.sent.length :=
    calc s.mem.view .producer (.wrote sizeCell)
        ≤ sizeWrites s := h.ring.handover.wf.view_le _ _
      _ = s.sent.length := F.calm.counted hnone
  refine ⟨hmine.store _, ?_, ?_⟩
  · intro k hk
    rw [List.length_append, List.length_singleton] at hk
    rcases Nat.le_or_eq_of_le_succ hk with hk | rfl
    · rw [s.mem.store_history_old _ (hwrites ▸ hk)]
      exact hmessages k hk
    · rw [← hwrites, s.mem.store_history_new, hwrites]
      dsimp only
      rw [s.mem.store_view_of_ne _ (by simp)]
      exact hknown
  · rw [s.mem.store_view_other _ (by decide)]
    exact hbehind

theorem pending_store_rear (h : SizeInv capacity s) (C : Calm s) (v : Index) (unid : UnidVal) :
    Pending { s with mem := s.mem.store .producer .write v, sent := s.sent ++ [unid] } := by
  have hreads : sizeReads { s with
      mem := s.mem.store .producer .write v, sent := s.sent ++ [unid] } = sizeReads s :=
    s.mem.store_now_of_ne _ (by simp)
  have hwrites : sizeWrites { s with
      mem := s.mem.store .producer .write v, sent := s.sent ++ [unid] } = sizeWrites s :=
    s.mem.store_now_of_ne _ (by simp)
  refine ⟨?_, ?_⟩
  · by_cases hnone : sizeReads s = 0
    · refine .inr ((s.mem.store_view_of_ne _ (by simp)).trans ?_)
      exact Nat.le_zero.mp (hnone ▸ h.ring.handover.wf.view_le _ _)
    · exact .inl (C.raced hnone)
  · intro hnone
    rw [hwrites, C.counted (hreads ▸ hnone), List.length_append, List.length_singleton]

theorem step_read_size (h : SizeInv capacity s) :
    SizeStep capacity .producer s { s with mem := s.mem.read .producer sizeCell } := by
  refine ⟨h.ring.read_own nofun, ?_, s.mem.read_now_of_ne (by simp)⟩
  intro hnone
  rw [sizeReads, s.mem.read_now_of_ne (by simp)] at hnone
  obtain ⟨hmine, hmessages, hbehind⟩ := h.alone hnone
  refine ⟨hmine.read h.ring.handover.wf, hmessages, ?_⟩
  rw [s.mem.read_view_of_ne (by simp), s.mem.read_view_of_ne (by simp)]
  exact hbehind

theorem pending_read_size (P : Pending s) :
    Pending { s with mem := s.mem.read .producer sizeCell } := by
  have hreads : sizeReads { s with mem := s.mem.read .producer sizeCell } = sizeReads s :=
    s.mem.read_now_of_ne (by simp)
  have hwrites : sizeWrites { s with mem := s.mem.read .producer sizeCell } = sizeWrites s :=
    s.mem.read_now_of_ne (by simp)
  refine ⟨?_, ?_⟩
  · rcases P.unknown with hraced | hknown
    · exact .inl (s.mem.read_raced_of_raced hraced)
    · exact .inr ((s.mem.read_view_of_ne (by simp)).trans hknown)
  · intro hnone
    rw [hwrites]
    exact P.counted (hreads ▸ hnone)

theorem step_write_size (h : SizeInv capacity s) (n : Index) :
    SizeStep capacity .producer s { s with mem := s.mem.write .producer sizeCell n } := by
  refine ⟨h.ring.write_own nofun n, ?_, s.mem.write_now_of_ne _ (by simp)⟩
  intro hnone
  rw [sizeReads, s.mem.write_now_of_ne _ (by simp)] at hnone
  obtain ⟨hmine, hmessages, hbehind⟩ := h.alone hnone
  refine ⟨hmine.write n, hmessages, ?_⟩
  rw [s.mem.write_view_other _ (by decide)]
  exact hbehind

/-- The `size++` is made before the consumer has come to `size`, or it races. -/
theorem calm_write_size (P : Pending s) (n : Index) :
    Calm { s with mem := s.mem.write .producer sizeCell n } := by
  have hreads : sizeReads { s with mem := s.mem.write .producer sizeCell n } = sizeReads s :=
    s.mem.write_now_of_ne _ (by simp)
  refine ⟨?_, ?_⟩
  · intro hsome
    rw [hreads] at hsome
    rcases P.unknown with hraced | hknown
    · exact s.mem.write_raced_of_raced n hraced
    · refine s.mem.write_raced_of_lt (u := .consumer) n ?_
      rw [hknown]
      exact Nat.pos_of_ne_zero hsome
  · intro hnone
    exact (s.mem.write_now_self n).trans (P.counted (hreads ▸ hnone))

end Producer

/-! ## The consumer and the counter -/

section Consumer

/-- In a `dequeue`, with the number of reads of `size` so far. -/
structure Emptying (capacity : Index) (s : OqShared) (taken : ℕ) (popped : List UnidVal) (w : ℕ)
    (reads : ℕ) : Prop where
  takes : Takes capacity.toNat s taken popped w
  reads : sizeReads s = reads

theorem Emptying.guar {n : ℕ} (E : Emptying capacity a taken popped w n)
    (h : OqGuar capacity .producer a b) (hsize : Spares .producer a b) :
    Emptying capacity b taken popped w n :=
  ⟨E.takes.guar h, hsize.trans E.reads⟩

/-- Nothing that concerns `size` has changed. -/
structure SameSize (a b : OqShared) : Prop where
  raced : b.mem.raced sizeCell = a.mem.raced sizeCell
  reads : sizeReads b = sizeReads a
  writes : sizeWrites b = sizeWrites a
  known : b.mem.view .producer (.read sizeCell .consumer) =
    a.mem.view .producer (.read sizeCell .consumer)
  sent : b.sent = a.sent

theorem SameSize.spares (h : SameSize a b) : Spares .consumer a b := by
  refine ⟨fun C => ⟨?_, ?_⟩, fun P => ⟨?_, ?_⟩⟩
  · rw [h.reads, h.raced]
    exact C.raced
  · rw [h.reads, h.writes, h.sent]
    exact C.counted
  · rw [h.raced, h.known]
    exact P.unknown
  · rw [h.reads, h.writes, h.sent]
    exact P.counted

theorem sameSize_load : SameSize s { s with mem := s.mem.load .consumer .acquire .write i } :=
  ⟨rfl, rfl, rfl, congrFun (s.mem.load_view_of_ne (by decide)) _, rfl⟩

theorem step_load_rear (h : SizeInv capacity s)
    (hi : WeakMem.Allowed .consumer i (.load .acquire .write) s.mem) :
    SizeStep capacity .consumer s { s with mem := s.mem.load .consumer .acquire .write i } := by
  refine ⟨h.ring.load_write hi, ?_, sameSize_load.spares⟩
  intro hnone
  obtain ⟨hmine, hmessages, hbehind⟩ := h.alone hnone
  have hwf := h.ring.handover.wf
  refine ⟨hmine.load hwf hi.2, hmessages, ?_⟩
  have hmessage := hmessages i (h.ring.handover.writes ▸ hi.2)
  have hseen := hi.1
  simp only [WeakMem.load_view_self, hwf.learn_seen hi.1 hi.2]
  exact sup_le (hbehind.trans (by omega)) hmessage

theorem step_read_slot (h : SizeInv capacity s) {n : ℕ} (E : Emptying capacity s taken popped w n)
    (hlt : taken < w) :
    SizeStep capacity .consumer s
      { s with mem := s.mem.read .consumer (.slot (taken % capacity.toNat)) } := by
  have hne : sizeCell ≠ .slot (taken % capacity.toNat) := by simp
  have hreads : s.mem.now (.read sizeCell .consumer) =
      (s.mem.read .consumer (.slot (taken % capacity.toNat))).now (.read sizeCell .consumer) :=
    (s.mem.read_now_of_ne (by simp)).symm
  refine ⟨h.ring.read_slot E.takes hlt, ?_, SameSize.spares ⟨?_, hreads.symm, ?_, ?_, rfl⟩⟩
  · intro hnone
    obtain ⟨hmine, hmessages, hbehind⟩ := h.alone (hreads.trans hnone)
    refine ⟨hmine.read_other hne, hmessages, ?_⟩
    rw [s.mem.read_view_of_ne (by simp), s.mem.read_view_of_ne (by simp)]
    exact hbehind
  · exact s.mem.read_raced_other hne
  · exact s.mem.read_now_of_ne (by simp)
  · exact s.mem.read_view_of_ne (by simp)

theorem step_store_front (h : SizeInv capacity s) {n : ℕ}
    (E : Emptying capacity s taken popped w n) (hlt : taken < w) (hpopped : popped.length = taken) :
    SizeStep capacity .consumer s
      { s with
        mem := s.mem.store .consumer .read (BitVec.ofNat 32 ((taken + 1) % capacity.toNat))
        taken := s.taken + 1 } := by
  refine ⟨h.ring.store_read E.takes hlt hpopped, ?_, SameSize.spares ⟨rfl, ?_, ?_, ?_, rfl⟩⟩
  · intro hnone
    rw [sizeReads, s.mem.store_now_of_ne _ (by simp)] at hnone
    obtain ⟨hmine, hmessages, hbehind⟩ := h.alone hnone
    refine ⟨hmine.store _, ?_, ?_⟩
    · rw [s.mem.store_history_other _ (by decide)]
      exact hmessages
    · rw [s.mem.store_view_of_ne _ (by simp), s.mem.store_view_of_ne _ (by simp)]
      exact hbehind
  · exact s.mem.store_now_of_ne _ (by simp)
  · exact s.mem.store_now_of_ne _ (by simp)
  · exact s.mem.store_view_of_ne _ (by simp)

/-- The consumer comes to `size`: it does not know of the last `size++`, if that has been made. -/
theorem step_consumer_read_size (h : SizeInv capacity s) (htaken : s.taken ≠ 0) :
    SizeStep capacity .consumer s { s with mem := s.mem.read .consumer sizeCell } := by
  have hsome : sizeReads { s with mem := s.mem.read .consumer sizeCell } ≠ 0 := by
    rw [sizeReads, s.mem.read_now_self]
    exact Nat.succ_ne_zero _
  refine ⟨h.ring.read_own nofun, fun hnone => absurd hnone hsome, fun C => ⟨fun _ => ?_, ?_⟩,
    fun P => ⟨?_, ?_⟩⟩
  · by_cases hnone : sizeReads s = 0
    · apply s.mem.read_raced_of_lt
      have hle := h.ring.handover.ring.le
      have hseen : s.mem.view .consumer (.seen .write) ≤ s.sent.length :=
        h.ring.handover.writes ▸ h.ring.handover.wf.view_le .consumer (.seen .write)
      calc s.mem.view .consumer (.wrote sizeCell)
          ≤ s.mem.view .consumer (.seen .write) - 1 := (h.alone hnone).behind
        _ < s.sent.length := by omega
        _ = sizeWrites s := (C.counted hnone).symm
    · exact s.mem.read_raced_of_raced (C.raced hnone)
  · exact fun hnone => absurd hnone hsome
  · rcases P.unknown with hraced | hknown
    · exact .inl (s.mem.read_raced_of_raced hraced)
    · refine .inr (Eq.trans ?_ hknown)
      exact congrFun ((s.mem.check sizeCell _).count_view_other (by decide)) _
  · exact fun hnone => absurd hnone hsome

theorem step_consumer_write_size (h : SizeInv capacity s) (hsome : sizeReads s ≠ 0) (n : Index) :
    SizeStep capacity .consumer s { s with mem := s.mem.write .consumer sizeCell n } := by
  have hreads : sizeReads { s with mem := s.mem.write .consumer sizeCell n } = sizeReads s :=
    s.mem.write_now_of_ne _ (by simp)
  refine ⟨h.ring.write_own nofun n, ?_, fun C => ⟨fun _ => ?_, ?_⟩, fun P => ⟨?_, ?_⟩⟩
  · exact fun hnone => absurd (hreads ▸ hnone) hsome
  · exact s.mem.write_raced_of_raced n (C.raced hsome)
  · exact fun hnone => absurd (hreads ▸ hnone) hsome
  · rcases P.unknown with hraced | hknown
    · exact .inl (s.mem.write_raced_of_raced n hraced)
    · exact .inr ((s.mem.write_view_of_ne _ (by simp)).trans hknown)
  · exact fun hnone => absurd (hreads ▸ hnone) hsome

end Consumer

/-! ## The code, access by access -/

/-- After an `enqueue`: its unid is published unless it throws. -/
def Enqueued (capacity : Index) (sent : List UnidVal) (unid : UnidVal) :
    Except String Bool → OqShared → Prop
  | .ok _, s => ∃ q, Filling capacity s (sent ++ [unid]) sent q
  | .error _, s => ∃ q, Filling capacity s sent sent q

/-- After a `dequeue`: its slot is given back when it has a unid, and the unid is the next one. -/
def Dequeued (capacity : Index) (taken : ℕ) (popped : List UnidVal) (r : Option UnidVal)
    (s : OqShared) : Prop :=
  ∃ w, Emptying capacity s (taken + r.toList.length) popped w (taken + r.toList.length) ∧
    ∀ unid, r = some unid → s.sent[taken]? = some unid

theorem wp_enqueue (hinv : SizeInv capacity s) (F : Filling capacity s sent sent q) :
    (sizeContract capacity).Wp .producer (.enqueue unid) (Enqueued capacity sent unid)
      (Ordered.enqueue capacity unid) s := by
  have hcap := hinv.ring.handover.pos
  refine .bind (wp_size (fun s => Filling capacity s sent sent q) (fun _ _ h h' F => F.guar h h')
    hinv F ?_) hinv
  intro s i hinv F hi
  rw [hinv.ring.load_own_write _ F.sends hi]
  refine ⟨.refl hinv _, fun _ => ?_⟩
  rw [increment_ofNat hcap]
  refine .bind (wp_size (fun s => Filling capacity s sent sent q) (fun _ _ h h' F => F.guar h h')
    hinv F ?_) hinv
  intro s i hinv F hi
  have htaken : i ≤ s.taken := hinv.ring.handover.reads ▸ hi.2
  have S := F.sends.acquire hinv.ring hi
  rw [RingShared.perform_load, hinv.ring.handover.readIdx i htaken]
  refine ⟨step_load_front hinv hi, fun hinv' => ?_⟩
  have F' : Filling capacity { s with mem := s.mem.load .producer .acquire .read i } sent sent i :=
    ⟨S, F.calm.raced, F.calm.counted⟩
  split
  · next hne =>
      have hroom := room_of_ne hcap (S.sent ▸ S.freed.room) hne
      refine .bind (wp_size (fun s => Filling capacity s sent sent i)
        (fun _ _ h h' F => F.guar h h') hinv' F' ?_) hinv'
      intro s j hinv F _
      rw [toNat_ofNat_mod hcap, RingShared.perform_write_slot _ _ (hinv.ring.slot_lt _)]
      refine ⟨step_write_slot hinv F unid, fun hinv' => ?_⟩
      refine .bind (wp_size
        (fun s => Filling capacity s sent sent i ∧
          s.mem.data (.slot (sent.length % capacity.toNat)) = unid)
        (fun _ _ h h' F => ⟨F.1.guar h h', (h.ring.slots _).trans F.2⟩) hinv'
        ⟨⟨F.sends.write_slot hinv.ring unid, calm_write_slot F.calm _ unid⟩,
          s.mem.write_data_self _⟩ ?_) hinv'
      rintro s j hinv ⟨F, hunid⟩ _
      rw [RingShared.perform_store_write]
      refine ⟨step_store_rear hinv F hroom hunid, fun hinv' => ?_⟩
      refine .bind (wp_size (fun s => Counting capacity s (sent ++ [unid]) sent i)
        (fun _ _ h h' C => C.guar h h') hinv'
        ⟨F.sends.store_write hinv.ring hroom hunid, pending_store_rear hinv F.calm _ unid⟩ ?_) hinv'
      intro s j hinv C _
      rw [RingShared.perform_read_own]
      refine ⟨step_read_size hinv, fun hinv' => ?_⟩
      refine .bind (wp_size (fun s => Counting capacity s (sent ++ [unid]) sent i)
        (fun _ _ h h' C => C.guar h h') hinv'
        ⟨C.sends.of_mem (sameRing_read s.mem .producer ()), pending_read_size C.pending⟩ ?_) hinv'
      intro s j hinv C _
      rw [RingShared.perform_write_own]
      exact ⟨step_write_size hinv _, fun _ => ⟨i, C.sends.of_mem (sameRing_write _ _ _ _),
        calm_write_size C.pending _⟩⟩
  · exact ⟨i, F'⟩

theorem wp_dequeue (hinv : SizeInv capacity s) (E : Emptying capacity s taken popped w taken)
    (hpopped : popped.length = taken) :
    (sizeContract capacity).Wp .consumer .dequeue (Dequeued capacity taken popped)
      (Ordered.dequeue capacity) s := by
  have hcap := hinv.ring.handover.pos
  refine .bind (wp_size (fun s => Emptying capacity s taken popped w taken)
    (fun _ _ h h' E => E.guar h h') hinv E ?_) hinv
  intro s i hinv E hi
  rw [hinv.ring.load_own_read _ E.takes hi]
  refine ⟨.refl hinv _, fun _ => ?_⟩
  refine .bind (wp_size (fun s => Emptying capacity s taken popped w taken)
    (fun _ _ h h' E => E.guar h h') hinv E ?_) hinv
  intro s i hinv E hi
  have hsent : i ≤ s.sent.length := hinv.ring.handover.writes ▸ hi.2
  have T := E.takes.acquire hinv.ring hi
  rw [RingShared.perform_load, hinv.ring.handover.writeIdx i hsent]
  refine ⟨step_load_rear hinv hi, fun hinv' => ?_⟩
  split
  · exact ⟨i, ⟨T, E.reads⟩, nofun⟩
  · next hne =>
      have hlt := found_of_ne (T.taken ▸ T.found.le) hne
      refine .bind (wp_size (fun s => Emptying capacity s taken popped i taken)
        (fun _ _ h h' E => E.guar h h') hinv' ⟨T, E.reads⟩ ?_) hinv'
      intro s j hinv E _
      have hunid := E.takes.data_slot hinv.ring hlt
      rw [toNat_ofNat_mod hcap, RingShared.perform_read_slot _ _ (hinv.ring.slot_lt _)]
      refine ⟨step_read_slot hinv E hlt, fun hinv' => ?_⟩
      refine .bind (wp_size
        (fun t => Emptying capacity t taken popped i taken ∧
          t.sent[taken]? = some (s.mem.data (.slot (taken % capacity.toNat))))
        (fun _ _ h h' E => ⟨E.1.guar h h', h.ring.getElem?_sent E.2⟩) hinv'
        ⟨⟨E.takes.read_slot hinv.ring hlt, ?_⟩, hunid⟩ ?_) hinv'
      · exact (s.mem.read_now_of_ne (by simp)).trans E.reads
      rintro t j hinv ⟨E, hunid⟩ _
      rw [increment_ofNat hcap, RingShared.perform_store_read]
      refine ⟨step_store_front hinv E hlt hpopped, fun hinv' => ?_⟩
      refine .bind (wp_size
        (fun t => Emptying capacity t (taken + 1) popped i taken ∧
          t.sent[taken]? = some (s.mem.data (.slot (taken % capacity.toNat))))
        (fun _ _ h h' E => ⟨E.1.guar h h', h.ring.getElem?_sent E.2⟩) hinv'
        ⟨⟨E.takes.store_read hinv.ring hlt, ?_⟩, hunid⟩ ?_) hinv'
      · exact (t.mem.store_now_of_ne _ (by simp)).trans E.reads
      rintro t j hinv ⟨E, hunid⟩ _
      rw [RingShared.perform_read_own]
      refine ⟨step_consumer_read_size hinv (E.takes.taken ▸ Nat.succ_ne_zero _), fun hinv' => ?_⟩
      refine .bind (wp_size
        (fun t => Emptying capacity t (taken + 1) popped i (taken + 1) ∧
          t.sent[taken]? = some (s.mem.data (.slot (taken % capacity.toNat))))
        (fun _ _ h h' E => ⟨E.1.guar h h', h.ring.getElem?_sent E.2⟩) hinv'
        ⟨⟨E.takes.of_mem (sameRing_read t.mem .consumer ()), ?_⟩, hunid⟩ ?_) hinv'
      · exact t.mem.read_now_self.trans (congrArg (· + 1) E.reads)
      rintro t j hinv ⟨E, hunid⟩ _
      rw [RingShared.perform_write_own]
      refine ⟨step_consumer_write_size hinv (E.reads ▸ Nat.succ_ne_zero _) _, fun _ =>
        ⟨i, ⟨E.takes.of_mem (sameRing_write _ _ _ _), ?_⟩, ?_⟩⟩
      · exact (t.mem.write_now_of_ne _ (by simp)).trans E.reads
      · rintro _ ⟨⟩
        exact hunid

/-! ## Returning -/

theorem stable_of_spares {t : Side} {P : OqShared → Prop}
    (hP : ∀ a b, OqGuar capacity t.other a b → Spares t.other a b → P a → P b) :
    (sizeContract capacity).Stable t P := by
  intro u hu a b _ _ hguar
  obtain rfl := Side.eq_other_of_ne hu
  exact hP a b hguar.1 hguar.2

theorem queueIdle_guar {t : Side} (h : OqGuar capacity t.other a b) (hsize : Spares t.other a b)
    (hidle : queueIdle capacity t a) : queueIdle capacity t b := by
  cases t with
  | producer =>
      obtain ⟨sent, q, S, C⟩ := hidle
      exact ⟨sent, q, S.guar h, hsize.1 C⟩
  | consumer =>
      obtain ⟨taken, popped, w, T, hpopped, hreads⟩ := hidle
      exact ⟨taken, popped, w, T.guar h, hpopped, hsize.trans hreads⟩

theorem Enqueued.guar {r : Except String Bool} (h : OqGuar capacity .consumer a b)
    (hsize : Spares .consumer a b) (E : Enqueued capacity sent unid r a) :
    Enqueued capacity sent unid r b := by
  cases r with
  | ok _ =>
      obtain ⟨q, F⟩ := E
      exact ⟨q, F.guar h hsize⟩
  | error _ =>
      obtain ⟨q, F⟩ := E
      exact ⟨q, F.guar h hsize⟩

theorem Dequeued.guar {r : Option UnidVal} (h : OqGuar capacity .producer a b)
    (hsize : Spares .producer a b) (D : Dequeued capacity taken popped r a) :
    Dequeued capacity taken popped r b := by
  obtain ⟨w, E, hunid⟩ := D
  exact ⟨w, E.guar h hsize, fun unid hr => h.ring.getElem?_sent (hunid unid hr)⟩

/-- An `enqueue` returns. -/
theorem Enqueued.finish {r : Except String Bool} (hinv : SizeInv capacity s)
    (E : Enqueued capacity sent unid r s) :
    SizeStep capacity .producer s (finishQueueCall s (.enqueue unid) (.enqueued r)) ∧
      queueIdle capacity .producer (finishQueueCall s (.enqueue unid) (.enqueued r)) := by
  cases r with
  | ok ok =>
      obtain ⟨q, F⟩ := E
      have haccepted : s.accepted ++ [unid] = sent ++ [unid] := by rw [F.sends.accepted]
      refine ⟨⟨hinv.ring.accept F.sends, ?_, rfl⟩, sent ++ [unid], q,
        ⟨F.sends.sent, haccepted, F.sends.freed⟩, F.calm.raced, F.calm.counted⟩
      intro hnone
      obtain ⟨hmine, hmessages, hbehind⟩ := hinv.alone hnone
      exact ⟨hmine, hmessages, hbehind⟩
  | error msg =>
      obtain ⟨q, F⟩ := E
      exact ⟨.refl hinv _, sent, q, F.sends, F.calm⟩

/-- A `dequeue` returns. -/
theorem Dequeued.finish {r : Option UnidVal} (hinv : SizeInv capacity s)
    (D : Dequeued capacity taken popped r s) (hpopped : popped.length = taken) :
    SizeStep capacity .consumer s (finishQueueCall s .dequeue (.dequeued r)) ∧
      queueIdle capacity .consumer (finishQueueCall s .dequeue (.dequeued r)) := by
  obtain ⟨w, E, hunid⟩ := D
  cases r with
  | none => exact ⟨.refl hinv _, taken, popped, w, E.takes, hpopped, E.reads⟩
  | some unid =>
      have hgone : s.popped ++ [unid] = popped ++ [unid] := by rw [E.takes.popped]
      refine ⟨⟨hinv.ring.give_back E.takes hpopped (hunid unid rfl), ?_,
        SameSize.spares ⟨rfl, rfl, rfl, rfl, rfl⟩⟩, taken + 1, popped ++ [unid], w,
        ⟨E.takes.taken, hgone, E.takes.found⟩, ?_, E.reads⟩
      · intro hnone
        obtain ⟨hmine, hmessages, hbehind⟩ := hinv.alone hnone
        exact ⟨hmine, hmessages, hbehind⟩
      · rw [List.length_append, hpopped, List.length_singleton]

/-- The calls keep to the contract. -/
theorem safe_queueCode {t : Side} {c : QueueCall} (hinv : SizeInv capacity s)
    (hidle : queueIdle capacity t s) (hc : c.side = t) :
    (sizeContract capacity).Safe t c (queueCode capacity c) s := by
  subst hc
  cases c with
  | enqueue unid =>
      obtain ⟨sent, q, S, C⟩ := hidle
      refine .bind (.mono (wp_enqueue hinv ⟨S, C⟩) ?_) hinv
      intro r s E hinv s' hrely
      have E' := (stable_of_spares fun _ _ => Enqueued.guar).rely hrely E
      obtain ⟨hstep, hidle⟩ := E'.finish (hrely.inv hinv)
      exact ⟨⟨hstep.ring.inv, hstep.alone⟩, ⟨hstep.ring.guar, hstep.spares⟩, hidle⟩
  | dequeue =>
      obtain ⟨taken, popped, w, T, hpopped, hreads⟩ := hidle
      refine .bind (.mono (wp_dequeue hinv ⟨T, hreads⟩ hpopped) ?_) hinv
      intro r s D hinv s' hrely
      have D' := (stable_of_spares fun _ _ => Dequeued.guar).rely hrely D
      obtain ⟨hstep, hidle⟩ := D'.finish (hrely.inv hinv) hpopped
      exact ⟨⟨hstep.ring.inv, hstep.alone⟩, ⟨hstep.ring.guar, hstep.spares⟩, hidle⟩

/-! ## All interleavings -/

section Runs
variable {garbage : ℕ → UnidVal} {x : CircularQueue}

theorem sizeInv_newQueue (hx : CircularQueue.new capacity garbage = .ok x) :
    SizeInv capacity (newQueue x) := by
  unfold CircularQueue.new at hx
  split at hx
  · cases hx
  · next hcap =>
      cases hx
      have hpos : 0 < capacity.toNat := Nat.pos_of_ne_zero fun h => hcap (BitVec.eq_of_toNat_eq h)
      refine ⟨.start (handover_init hpos ?_ _) nofun trivial, fun _ => ⟨?_, ?_, le_rfl⟩⟩
      · intro a
        cases a <;> rfl
      · exact WeakMem.private_init _ _ _ _
      · exact fun _ _ => Nat.zero_le _

theorem queueIdle_newQueue (hx : CircularQueue.new capacity garbage = .ok x) (t : Side) :
    queueIdle capacity t (newQueue x) := by
  cases t with
  | producer =>
      exact ⟨[], 0, ⟨rfl, rfl, freed_init (sizeInv_newQueue hx).ring.handover.pos _⟩,
        fun h => absurd rfl h, fun _ => rfl⟩
  | consumer => exact ⟨0, [], 0, ⟨rfl, rfl, found_init _⟩, rfl, rfl⟩

theorem holds_orderedQueue (hx : CircularQueue.new capacity garbage = .ok x)
    {es : List (ThreadsEvent Side QueueCall)}
    (hes : (orderedQueue capacity).machine.Admits (Threads.start (newQueue x)) es) :
    (sizeContract capacity).Holds
      ((orderedQueue capacity).machine.exec (Threads.start (newQueue x)) es) :=
  Contract.holds_exec (fun _ => stable_of_spares fun _ _ => queueIdle_guar)
    (fun t s => ⟨Guar.refl t s, .refl t s⟩) (fun _ _ _ => safe_queueCode)
    (.start (sizeInv_newQueue hx) (queueIdle_newQueue hx)) hes

/-- The unids come out in the order they went in, the slots suffice, no access is out of bounds,
and no two accesses to a slot race. -/
structure HandedOver (capacity : Index) (s : OqShared) : Prop where
  order : s.popped <+: s.sent
  accepted : s.accepted <+: s.sent
  pending : s.sent.length ≤ s.accepted.length + 1
  room : s.sent.length < s.taken + capacity.toNat
  checks : s.checks = true
  quiet : ∀ i, s.mem.raced (.slot i) = false

/-- The memory orders that the code asks for are enough for the indices and the slots. -/
theorem ordered_fifo (hx : CircularQueue.new capacity garbage = .ok x)
    {es : List (ThreadsEvent Side QueueCall)}
    (hes : (orderedQueue capacity).machine.Admits (Threads.start (newQueue x)) es) :
    HandedOver capacity
      ((orderedQueue capacity).machine.exec (Threads.start (newQueue x)) es).shared := by
  have hinv := (holds_orderedQueue hx hes).inv.ring
  exact ⟨hinv.popped.trans (List.take_prefix _ _), hinv.accepted, hinv.pending,
    hinv.handover.ring.lt, hinv.checks, hinv.handover.quiet⟩

/-- A queue of two slots. -/
def twoSlots : CircularQueue := ⟨CircularQueue.memset (fun _ => 0) 2, 0, 0, 2, 0⟩

/-- An `enqueue` and then a `dequeue` that sees it. -/
def oneUnid : List (ThreadsEvent Side QueueCall) :=
  .call .producer (.enqueue 7) :: List.replicate 7 (.step .producer 0) ++
    [.call .consumer .dequeue, .step .consumer 0] ++ List.replicate 6 (.step .consumer 1)

theorem admits_oneUnid :
    (orderedQueue 2).machine.Admits (Threads.start (newQueue twoSlots)) oneUnid := by
  decide +kernel

theorem ordered_fifo_oneUnid :
    (orderedQueue 2).machine.Admits (Threads.start (newQueue twoSlots)) oneUnid ∧
      HandedOver 2
        ((orderedQueue 2).machine.exec (Threads.start (newQueue twoSlots)) oneUnid).shared :=
  have hx : CircularQueue.new 2 (fun _ => 0) = .ok twoSlots := rfl
  ⟨admits_oneUnid, ordered_fifo hx admits_oneUnid⟩

/-- Whenever both sides are between calls, `size` has been raced on if and only if a unid has been
dequeued. -/
theorem size_races_iff (hx : CircularQueue.new capacity garbage = .ok x)
    {es : List (ThreadsEvent Side QueueCall)}
    (hes : (orderedQueue capacity).machine.Admits (Threads.start (newQueue x)) es)
    (hidle : ∀ t, ((orderedQueue capacity).machine.exec (Threads.start (newQueue x)) es).running
      t = none) :
    ((orderedQueue capacity).machine.exec (Threads.start (newQueue x)) es).shared.mem.raced
        sizeCell = true ↔
      ((orderedQueue capacity).machine.exec (Threads.start (newQueue x)) es).shared.popped ≠
        [] := by
  have H := holds_orderedQueue hx hes
  generalize (orderedQueue capacity).machine.exec (Threads.start (newQueue x)) es = S at H hidle ⊢
  obtain ⟨-, -, -, C⟩ := H.idle .producer (hidle .producer)
  obtain ⟨taken, popped, _, T, hpopped, hreads⟩ := H.idle .consumer (hidle .consumer)
  have hcount : sizeReads S.shared = S.shared.popped.length := by
    rw [hreads, ← hpopped, T.popped]
  constructor
  · intro hraced hnil
    rw [hnil] at hcount
    rw [(H.inv.alone hcount).mine.quiet] at hraced
    cases hraced
  · intro hne
    exact C.raced (hcount ▸ mt List.length_eq_zero_iff.mp hne)

theorem size_races_iff_oneUnid :
    ((orderedQueue 2).machine.exec (Threads.start (newQueue twoSlots)) oneUnid).shared.popped =
        [7] ∧
      ((orderedQueue 2).machine.exec (Threads.start (newQueue twoSlots)) oneUnid).shared.mem.raced
        sizeCell = true := by
  have hx : CircularQueue.new 2 (fun _ => 0) = .ok twoSlots := rfl
  have hpopped : ((orderedQueue 2).machine.exec (Threads.start (newQueue twoSlots))
      oneUnid).shared.popped = [7] := by decide +kernel
  refine ⟨hpopped, (size_races_iff hx admits_oneUnid ?_).mpr (by rw [hpopped]; nofun)⟩
  intro t
  cases t <;> rfl

end Runs

end Unid.Spike
