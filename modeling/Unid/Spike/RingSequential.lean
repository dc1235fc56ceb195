import Unid.Spike.RingContract

/-!
# The two ring buffers agree

Run one call after the other, with every load returning the newest store, both
ring buffers are a queue of at most `size - 1` values, from any state that the two
threads can come to between their calls.  In particular the copies of
`ringbuffer2`, however old, change no answer: a copy that says that a side can not
go on is made up for by a load, and one that says it can is never too hopeful.

## Main definitions

* `runCall`, `answers` — calls that run without interruption.
* `Bounded.call`, `Bounded.answers` — a bounded queue.
-/

namespace Unid.Spike
open Lib
open RingShared (Inv Guar Step Sends Takes Accesses perform)

/-- The newest store. -/
def newest : RbSig.Req → RbShared → ℕ
  | .load _ a, s => s.mem.now (.seen a)
  | _, _ => 0

/-- The side that makes a call. -/
def RingCall.side : RingCall → Side
  | .push _ | .drained _ => .producer
  | .pop => .consumer

/-- One access of a call, with the newest store for a load. -/
def fresh (size : Size) (c : RingCall) : Handler RbSig RbShared :=
  fun e s => perform size.toNat c.side c.value (newest e s) e s

/-- A call from start to return. -/
def runCall (kind : Kind) (size : Size) (c : RingCall) (s : RbShared) : RingResult × RbShared :=
  let r := (ringCode kind size c).val (fresh size c) s
  (r, finishCall ((ringCode kind size c).state (fresh size c) s) c r)

def answers (kind : Kind) (size : Size) : List RingCall → RbShared → List RingResult
  | [], _ => []
  | c :: cs, s => (runCall kind size c s).1 :: answers kind size cs (runCall kind size c s).2

/-! ## A bounded queue -/

namespace Bounded

def call (bound : ℕ) : RingCall → List IntVal → RingResult × List IntVal
  | .push val, xs => if xs.length < bound then (.pushed true, xs ++ [val]) else (.pushed false, xs)
  | .pop, [] => (.popped none, [])
  | .pop, x :: xs => (.popped (some x), xs)
  | .drained _, xs => (.drained xs.isEmpty, xs)

def answers (bound : ℕ) : List RingCall → List IntVal → List RingResult
  | [], _ => []
  | c :: cs, xs => (call bound c xs).1 :: answers bound cs (call bound c xs).2

end Bounded

/-! ## Between calls -/

variable {kind : Kind} {size : Size} {s : RbShared} {c : RingCall} {val : IntVal}
  {sent popped : List IntVal} {taken q w : ℕ} {copy : Size}

/-- Both threads are between calls. -/
structure Ready (kind : Kind) (size : Size) (s : RbShared) : Prop where
  inv : RbInv size (fun _ => True) s
  idle : ∀ t, idle kind size t s

/-- What is in the ring. -/
def contents (s : RbShared) : List IntVal := s.sent.drop s.taken

theorem allowed_newest (t : Side) (e : RbSig.Req) (hinv : RbInv size (fun _ => True) s) :
    (ringThreads kind size).allowed t (newest e s) e s := by
  cases e with
  | load o a => exact ⟨hinv.handover.wf.view_le t _, le_rfl⟩
  | store a v => trivial
  | read d => trivial
  | write d v => trivial

theorem mayCall_side (c : RingCall) : mayCall c.side c := by
  cases c <;> trivial

/-- A call that runs through leaves both threads between calls. -/
theorem Ready.runCall (h : Ready kind size s) (c : RingCall) :
    Ready kind size (runCall kind size c s).2 := by
  have hsafe := safe_ringCode (accesses_ringThreads kind size) (fun _ _ _ _ _ _ => rfl) h.inv
    (h.idle c.side) (mayCall_side c) fun _ _ _ => trivial
  obtain ⟨hinv, hreturns, hrely⟩ := hsafe.run newest (fun e s => allowed_newest c.side e) h.inv
  obtain ⟨hinv', hguar, hidle⟩ := hreturns _ .refl
  refine ⟨hinv', ?_⟩
  intro t
  by_cases ht : t = c.side
  · rw [ht]
    exact hidle
  · have hstable : (ringContract kind size).Stable t (Spike.idle kind size t) :=
      RingShared.stable_of_guar fun _ _ => idle_guar
    exact hstable _ (Ne.symm ht) _ _ hinv hinv' hguar (hstable.rely (hrely t ht) (h.idle t))

/-! ## What a call answers -/

/-- Code goes on from what its first access answers. -/
theorem val_access {α : Type} {H : Handler RbSig RbShared} {e : RbSig.Req} {x : RbSig.Ans e}
    {s' : RbShared} (k : RbSig.Ans e → Rb α) (he : H e s = (x, s')) :
    (Prog.ask e >>= k).val H s = (k x).val H s' := by
  rw [Prog.val_bind, Prog.val_ask, Prog.state_ask, he]

theorem isSome_access {α : Type} {H : Handler RbSig RbShared} {e : RbSig.Req} {x : RbSig.Ans e}
    {s' : RbShared} {b : Bool} (k : RbSig.Ans e → Rb (Option α)) (he : H e s = (x, s'))
    (h : ((k x).val H s').isSome = b) : ((Prog.ask e >>= k).val H s).isSome = b := by
  rw [val_access k he, h]

/-- The index after the last value meets the read index when no slot is left. -/
theorem full_iff (hinv : RbInv size (fun _ => True) s) (hq : q ≤ s.taken)
    (hroom : s.sent.length < q + size.toNat) :
    BitVec.ofNat 64 ((s.sent.length + 1) % size.toNat) = BitVec.ofNat 64 (q % size.toNat) ↔
      s.sent.length + 1 = q + size.toNat := by
  have hle := hinv.handover.ring.le
  rw [ofNat_mod_inj hinv.handover.pos, mod_eq_mod_iff_of_lap (by omega) (by omega)]
  omega

/-- The indices meet when no value is left. -/
theorem empty_iff (hinv : RbInv size (fun _ => True) s) (hw : w ≤ s.sent.length)
    (hle : s.taken ≤ w) :
    BitVec.ofNat 64 (s.taken % size.toNat) = BitVec.ofNat 64 (w % size.toNat) ↔ s.taken = w := by
  have hlt := hinv.handover.ring.lt
  rw [eq_comm, ofNat_mod_inj hinv.handover.pos, mod_eq_mod_iff_of_lap hle (by omega)]
  omega

theorem fresh_read_own (x : Cached) (s : RbShared) :
    fresh size c (.read (.own x)) s =
      (s.mem.data (.own x), { s with mem := s.mem.read c.side (.own x) }) :=
  RingShared.perform_read_own ..

theorem fresh_write_own (x : Cached) (i : Size) (s : RbShared) :
    fresh size c (.write (.own x) i) s =
      ((), { s with mem := s.mem.write c.side (.own x) i }) :=
  RingShared.perform_write_own ..

section Producer
variable (hinv : RbInv size (fun _ => True) s)
include hinv

theorem fresh_load_own_write (S : Sends size.toNat s s.sent s.sent q) (hc : c.side = .producer) :
    fresh size c (.load .relaxed .write) s =
      (BitVec.ofNat 64 (s.sent.length % size.toNat), s) := by
  rw [fresh, hc]
  exact hinv.load_own_write _ S ⟨hinv.handover.wf.view_le .producer _, le_rfl⟩

/-- The producer loads the read index. -/
theorem fresh_load_read {o : Order} (hc : c.side = .producer) :
    fresh size c (.load o .read) s =
      (BitVec.ofNat 64 (s.taken % size.toNat),
        { s with mem := s.mem.load .producer o .read s.taken }) := by
  rw [fresh, hc, RingShared.perform_load, newest, hinv.handover.reads,
    hinv.handover.readIdx _ le_rfl]

theorem val_push_ringbuffer (S : Sends size.toNat s s.sent s.sent q) :
    (Ringbuffer.push size val).val (fresh size (.push val)) s =
      decide (s.sent.length + 1 < s.taken + size.toNat) := by
  have hlt := hinv.handover.ring.lt
  have hfull := full_iff hinv le_rfl hlt
  refine (val_access _ (fresh_load_own_write hinv S rfl)).trans ?_
  refine (val_access _ (fresh_load_read hinv rfl)).trans ?_
  rw [nextIdx_ofNat hinv.handover.pos, Prog.val_ite]
  split
  · next heq => exact (decide_eq_false (by have := hfull.mp heq; omega)).symm
  · next hne => exact (decide_eq_true (by have := mt hfull.mpr hne; omega)).symm

theorem val_push_ringbuffer2 (S : Sends size.toNat s s.sent s.sent q)
    (hcopy : s.mem.data (.own .readIdx) = BitVec.ofNat 64 (q % size.toNat)) :
    (Ringbuffer2.push size val).val (fresh size (.push val)) s =
      decide (s.sent.length + 1 < s.taken + size.toNat) := by
  have hlt := hinv.handover.ring.lt
  have hq := hinv.handover.freed_le S.freed
  have hroom := S.freed.room
  have hstale := full_iff hinv hq hroom
  have hfull := full_iff hinv le_rfl hlt
  have howner : ∀ u, Cached.owner .readIdx = some u → u = .producer := by
    rintro _ ⟨⟩
    rfl
  refine (val_access _ (fresh_load_own_write hinv S rfl)).trans ?_
  refine (val_access _ (fresh_read_own .readIdx s)).trans ?_
  rw [nextIdx_ofNat hinv.handover.pos, hcopy, Prog.val_ite]
  split
  · refine (val_access _ (fresh_load_read (hinv.read_own howner).inv rfl)).trans ?_
    refine (val_access _ (fresh_write_own .readIdx _ _)).trans ?_
    refine (val_access _ (fresh_read_own .readIdx _)).trans ?_
    rw [WeakMem.write_data_self, Prog.val_ite]
    split
    · next heq => exact (decide_eq_false (by have := hfull.mp heq; omega)).symm
    · next hne => exact (decide_eq_true (by have := mt hfull.mpr hne; omega)).symm
  · next hne => exact (decide_eq_true (by have := mt hstale.mpr hne; omega)).symm

theorem val_push (P : Producing size s s.sent s.sent q copy) (hcopy : kind.Copies size copy q) :
    (kind.push size val).val (fresh size (.push val)) s =
      decide (s.sent.length + 1 < s.taken + size.toNat) :=
  match kind, hcopy with
  | .ringbuffer, _ => val_push_ringbuffer hinv P.sends
  | .ringbuffer2, hcopy => val_push_ringbuffer2 hinv P.sends (P.copy.trans (hcopy rfl))

theorem val_drained (S : Sends size.toNat s s.sent s.sent q) (readFirst : Bool) :
    (drained readFirst).val (fresh size (.drained readFirst)) s =
      decide (s.taken = s.sent.length) := by
  cases readFirst with
  | true =>
      refine (val_access _ (fresh_load_read hinv rfl)).trans ?_
      have hstep := hinv.load_read (i := s.taken) (o := .relaxed)
        ⟨hinv.handover.reads ▸ hinv.handover.wf.view_le .producer _, hinv.handover.reads.ge⟩
      have S' := S.relaxed (i := s.taken)
        ⟨hinv.handover.reads ▸ hinv.handover.wf.view_le .producer _, hinv.handover.reads.ge⟩
      refine (val_access _ (fresh_load_own_write hstep.inv S' rfl)).trans ?_
      exact decide_eq_decide.mpr (empty_iff hinv le_rfl hinv.handover.ring.le)
  | false =>
      refine (val_access _ (fresh_load_own_write hinv S rfl)).trans ?_
      refine (val_access _ (fresh_load_read hinv rfl)).trans ?_
      exact decide_eq_decide.mpr (empty_iff hinv le_rfl hinv.handover.ring.le)

end Producer

section Consumer
variable (hinv : RbInv size (fun _ => True) s)
include hinv

theorem fresh_load_own_read (T : Takes size.toNat s s.taken popped w) :
    fresh size .pop (.load .relaxed .read) s = (BitVec.ofNat 64 (s.taken % size.toNat), s) :=
  hinv.load_own_read _ T ⟨hinv.handover.wf.view_le .consumer _, le_rfl⟩

/-- The consumer loads the write index. -/
theorem fresh_load_write {o : Order} :
    fresh size .pop (.load o .write) s =
      (BitVec.ofNat 64 (s.sent.length % size.toNat),
        { s with mem := s.mem.load .consumer o .write s.sent.length }) := by
  rw [fresh, RingShared.perform_load, newest, hinv.handover.writes,
    hinv.handover.writeIdx _ le_rfl]
  rfl

theorem isSome_pop_ringbuffer (T : Takes size.toNat s s.taken popped w) :
    ((Ringbuffer.pop size).val (fresh size .pop) s).isSome = decide (s.taken < s.sent.length) := by
  have hle := hinv.handover.ring.le
  have hempty := empty_iff hinv le_rfl hle
  refine isSome_access _ (fresh_load_own_read hinv T) (isSome_access _ (fresh_load_write hinv) ?_)
  rw [Prog.val_ite]
  split
  · next heq => exact (decide_eq_false (by have := hempty.mp heq; omega)).symm
  · next hne => exact (decide_eq_true (by have := mt hempty.mpr hne; omega)).symm

theorem isSome_pop_ringbuffer2 (T : Takes size.toNat s s.taken popped w)
    (hcopy : s.mem.data (.own .writeIdx) = BitVec.ofNat 64 (w % size.toNat)) :
    ((Ringbuffer2.pop size).val (fresh size .pop) s).isSome =
      decide (s.taken < s.sent.length) := by
  have hle := hinv.handover.ring.le
  have hw := hinv.handover.found_le T.found
  have htaken := T.found.le
  have hstale := empty_iff hinv hw htaken
  have hempty := empty_iff hinv le_rfl hle
  have howner : ∀ u, Cached.owner .writeIdx = some u → u = .consumer := by
    rintro _ ⟨⟩
    rfl
  refine isSome_access _ (fresh_load_own_read hinv T)
    (isSome_access _ (fresh_read_own .writeIdx s) ?_)
  rw [hcopy, Prog.val_ite]
  split
  · refine isSome_access _ (fresh_load_write (hinv.read_own howner).inv)
      (isSome_access _ (fresh_write_own .writeIdx _ _)
        (isSome_access _ (fresh_read_own .writeIdx _) ?_))
    rw [WeakMem.write_data_self, Prog.val_ite]
    split
    · next heq => exact (decide_eq_false (by have := hempty.mp heq; omega)).symm
    · next hne => exact (decide_eq_true (by have := mt hempty.mpr hne; omega)).symm
  · next hne => exact (decide_eq_true (by have := mt hstale.mpr hne; omega)).symm

theorem isSome_pop (P : Consuming size s s.taken popped w copy) (hcopy : kind.Copies size copy w) :
    ((kind.pop size).val (fresh size .pop) s).isSome = decide (s.taken < s.sent.length) :=
  match kind, hcopy with
  | .ringbuffer, _ => isSome_pop_ringbuffer hinv P.takes
  | .ringbuffer2, hcopy => isSome_pop_ringbuffer2 hinv P.takes (P.copy.trans (hcopy rfl))

end Consumer

/-! ## A bounded queue of one slot less -/

theorem runCall_push (kind : Kind) (val : IntVal) (s : RbShared) :
    runCall kind size (.push val) s =
      (.pushed ((kind.push size val).val (fresh size (.push val)) s),
        finishCall ((kind.push size val).state (fresh size (.push val)) s) (.push val)
          (.pushed ((kind.push size val).val (fresh size (.push val)) s))) := by
  simp [runCall, ringCode]

theorem runCall_pop (kind : Kind) (s : RbShared) :
    runCall kind size .pop s =
      (.popped ((kind.pop size).val (fresh size .pop) s),
        finishCall ((kind.pop size).state (fresh size .pop) s) .pop
          (.popped ((kind.pop size).val (fresh size .pop) s))) := by
  simp [runCall, ringCode]

theorem runCall_drained (kind : Kind) (readFirst : Bool) (s : RbShared) :
    runCall kind size (.drained readFirst) s =
      (.drained ((drained readFirst).val (fresh size (.drained readFirst)) s),
        finishCall ((drained readFirst).state (fresh size (.drained readFirst)) s)
          (.drained readFirst)
          (.drained ((drained readFirst).val (fresh size (.drained readFirst)) s))) := by
  simp [runCall, ringCode]

/-- The record of a result leaves the ring alone. -/
theorem contents_finishCall (s : RbShared) (c : RingCall) (r : RingResult) :
    contents (finishCall s c r) = contents s := by
  unfold finishCall
  split <;> rfl

theorem length_contents (s : RbShared) : (contents s).length = s.sent.length - s.taken :=
  List.length_drop

namespace Ready
variable (h : Ready kind size s)
include h

theorem push (val : IntVal) :
    (kind.push size val).val (fresh size (.push val)) s =
        decide ((contents s).length < size.toNat - 1) ∧
      contents ((kind.push size val).state (fresh size (.push val)) s) =
        if (contents s).length < size.toNat - 1 then contents s ++ [val] else contents s := by
  have hle := h.inv.handover.ring.le
  have hpos := h.inv.handover.pos
  obtain ⟨sent, q, copy, P, hcopy⟩ := h.idle .producer
  obtain rfl := P.sends.sent
  have hroom : s.sent.length + 1 < s.taken + size.toNat ↔
      (contents s).length < size.toNat - 1 := by
    rw [length_contents]
    omega
  have hval : (kind.push size val).val (fresh size (.push val)) s =
      decide ((contents s).length < size.toNat - 1) := by
    rw [← decide_eq_decide.mpr hroom]
    exact val_push h.inv P hcopy
  refine ⟨hval, ?_⟩
  have hwp : (ringContract kind size).Wp .producer (.push val) (Pushed kind size s.sent val)
      (kind.push size val) s :=
    wp_push (accesses_ringThreads kind size) h.inv P hcopy trivial
  obtain ⟨-, ⟨q', copy', P', -⟩, hrely⟩ :=
    hwp.run newest (fun e s => allowed_newest .producer e) h.inv
  have hstable : (ringContract kind size).Stable .consumer fun t => t.taken = s.taken :=
    RingShared.stable_of_guar fun _ _ hguar ht => hguar.ring.taken.trans ht
  have htaken := hstable.rely (hrely .consumer (by decide)) rfl
  have hsent := P'.sends.sent
  change ((kind.push size val).state (fresh size (.push val)) s).taken = s.taken at htaken
  change ((kind.push size val).state (fresh size (.push val)) s).sent =
    if (kind.push size val).val (fresh size (.push val)) s then s.sent ++ [val] else s.sent at hsent
  rw [contents, hsent, htaken, hval]
  by_cases hlt : (contents s).length < size.toNat - 1
  · rw [if_pos hlt, if_pos (decide_eq_true hlt), List.drop_append_of_le_length hle]
    rfl
  · rw [if_neg hlt, if_neg (by simpa using hlt)]
    rfl

theorem pop :
    (kind.pop size).val (fresh size .pop) s = (contents s).head? ∧
      contents ((kind.pop size).state (fresh size .pop) s) = (contents s).tail := by
  obtain ⟨taken, popped, w, copy, P, hpopped, hcopy⟩ := h.idle .consumer
  obtain rfl := P.takes.taken
  have hsome := isSome_pop h.inv P hcopy
  have hwp : (ringContract kind size).Wp .consumer .pop (Popped kind size s.taken popped)
      (kind.pop size) s :=
    wp_pop (accesses_ringThreads kind size) h.inv P hcopy hpopped
  obtain ⟨-, ⟨w', copy', P', hnext, -⟩, hrely⟩ :=
    hwp.run newest (fun e s => allowed_newest .consumer e) h.inv
  have hstable : (ringContract kind size).Stable .producer fun t => t.sent = s.sent :=
    RingShared.stable_of_guar fun _ _ hguar ht => hguar.ring.sent.trans ht
  have hsent := hstable.rely (hrely .producer (by decide)) rfl
  have htaken := P'.takes.taken
  change ((kind.pop size).state (fresh size .pop) s).sent = s.sent at hsent
  change ((kind.pop size).state (fresh size .pop) s).taken =
    s.taken + ((kind.pop size).val (fresh size .pop) s).toList.length at htaken
  change ∀ val, (kind.pop size).val (fresh size .pop) s = some val →
    ((kind.pop size).state (fresh size .pop) s).sent[s.taken]? = some val at hnext
  rw [hsent] at hnext
  have hcontents : contents ((kind.pop size).state (fresh size .pop) s) =
      s.sent.drop (s.taken + ((kind.pop size).val (fresh size .pop) s).toList.length) := by
    rw [contents, hsent, htaken]
  rw [hcontents, contents]
  cases hr : (kind.pop size).val (fresh size .pop) s with
  | none =>
      rw [hr] at hsome
      have hnot : ¬ s.taken < s.sent.length := of_decide_eq_false hsome.symm
      rw [List.drop_eq_nil_of_le (by omega)]
      exact ⟨rfl, List.drop_eq_nil_of_le (by omega)⟩
  | some val =>
      have hval := hnext val hr
      rw [List.head?_drop, hval, List.tail_drop]
      exact ⟨rfl, rfl⟩

theorem drained (readFirst : Bool) :
    (drained readFirst).val (fresh size (.drained readFirst)) s = (contents s).isEmpty ∧
      contents ((drained readFirst).state (fresh size (.drained readFirst)) s) = contents s := by
  have hle := h.inv.handover.ring.le
  obtain ⟨sent, q, copy, P, hcopy⟩ := h.idle .producer
  obtain rfl := P.sends.sent
  have hempty : s.taken = s.sent.length ↔ (contents s).isEmpty = true := by
    rw [List.isEmpty_iff_length_eq_zero, length_contents]
    omega
  refine ⟨?_, ?_⟩
  · rw [val_drained h.inv P.sends, Bool.eq_iff_iff, decide_eq_true_iff]
    exact hempty
  · have hwp : (ringContract kind size).Wp .producer (.drained readFirst)
        (fun yes t => Producing size t s.sent s.sent q copy ∧
          (yes = true → s.sent.length ≤ t.taken)) (Spike.drained readFirst) s :=
      wp_drained (accesses_ringThreads kind size) h.inv P readFirst
    obtain ⟨-, ⟨P', -⟩, hrely⟩ := hwp.run newest (fun e s => allowed_newest .producer e) h.inv
    have hstable : (ringContract kind size).Stable .consumer fun t => t.taken = s.taken :=
      RingShared.stable_of_guar fun _ _ hguar ht => hguar.ring.taken.trans ht
    have htaken := hstable.rely (hrely .consumer (by decide)) rfl
    have hsent := P'.sends.sent
    change ((Spike.drained readFirst).state (fresh size (.drained readFirst)) s).taken =
      s.taken at htaken
    change ((Spike.drained readFirst).state (fresh size (.drained readFirst)) s).sent =
      s.sent at hsent
    rw [contents, htaken, hsent]
    rfl

/-- One call, against the bounded queue. -/
theorem call (c : RingCall) :
    (Spike.runCall kind size c s).1 = (Bounded.call (size.toNat - 1) c (contents s)).1 ∧
      contents (Spike.runCall kind size c s).2 =
        (Bounded.call (size.toNat - 1) c (contents s)).2 := by
  cases c with
  | push val =>
      obtain ⟨hval, hcontents⟩ := h.push val
      rw [runCall_push, contents_finishCall, hval, hcontents, Bounded.call]
      split
      · next hlt => exact ⟨congrArg _ (decide_eq_true hlt), rfl⟩
      · next hlt => exact ⟨congrArg _ (decide_eq_false hlt), rfl⟩
  | pop =>
      obtain ⟨hval, hcontents⟩ := h.pop
      rw [runCall_pop, contents_finishCall, hval, hcontents]
      cases contents s <;> exact ⟨rfl, rfl⟩
  | drained readFirst =>
      obtain ⟨hval, hcontents⟩ := h.drained readFirst
      rw [runCall_drained, contents_finishCall, hval, hcontents]
      exact ⟨rfl, rfl⟩

theorem answers_eq (cs : List RingCall) :
    answers kind size cs s = Bounded.answers (size.toNat - 1) cs (contents s) := by
  induction cs generalizing s with
  | nil => rfl
  | cons c cs ih =>
      obtain ⟨hval, hcontents⟩ := h.call c
      rw [answers, Bounded.answers, hval, ih (h.runCall c), hcontents]

end Ready

/-- From any state that the two threads can come to between their calls, either ring answers as
a queue of at most `size - 1` values does. -/
theorem ring_answers (kind : Kind) {size : Size} (hsize : size ≠ 0)
    {es : List (ThreadsEvent Side RingCall)}
    (hes : (ringThreads kind size).machine.Admits (Threads.start newRing) es)
    (hidle : ∀ t, ((ringThreads kind size).machine.exec (Threads.start newRing) es).running t =
      none) (cs : List RingCall) :
    answers kind size cs
        ((ringThreads kind size).machine.exec (Threads.start newRing) es).shared =
      Bounded.answers (size.toNat - 1) cs
        (contents ((ringThreads kind size).machine.exec (Threads.start newRing) es).shared) := by
  have H := holds_ring (toNat_pos hsize) hes
  exact Ready.answers_eq ⟨H.inv, fun t => H.idle t (hidle t)⟩ cs

/-- One value has gone into a ring of two slots. -/
def pushedOne : List (ThreadsEvent Side RingCall) :=
  .call .producer (.push 7) :: List.replicate 5 (.step .producer 0)

theorem ring_answers_two_slots :
    (ringThreads .ringbuffer2 2).machine.Admits (Threads.start newRing) pushedOne ∧
      answers .ringbuffer2 2 [.push 8, .drained true, .pop, .pop]
          ((ringThreads .ringbuffer2 2).machine.exec (Threads.start newRing) pushedOne).shared =
        Bounded.answers 1 [.push 8, .drained true, .pop, .pop] [7] :=
  have hes : (ringThreads .ringbuffer2 2).machine.Admits (Threads.start newRing) pushedOne := by
    decide +kernel
  ⟨hes, ring_answers .ringbuffer2 (by decide) hes (by intro t; cases t <;> rfl) _⟩

end Unid.Spike
