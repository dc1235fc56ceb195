import Unid.Spike.RingBuffer

/-!
# What the ring buffers guarantee

Either ring of `ipc_ringbuffer.cpp` hands its values over in order, within the
bounds of its data and without a race, in every interleaving of a producer and a
consumer and whatever their loads return within the memory orders that the code
asks for.  A copy of an index in `ringbuffer2` is one that its side has acquired
before; going by it, a side sees at most fewer free slots or fewer values than
there are.

## Main definitions

* `Producing`, `Consuming` — what each side knows as its code goes on.
* `wp_push`, `wp_pop`, `wp_drained` — the calls, access by access.
* `Fifo` — what holds of a ring at any time.
-/

namespace Unid.Spike
open Lib
open RingShared (Inv Guar Step Sends Takes Accesses)

/-! ## Indices -/

theorem nextIdx_ofNat {size : Size} (hsize : 0 < size.toNat) (k : ℕ) :
    nextIdx size (BitVec.ofNat 64 (k % size.toNat)) = BitVec.ofNat 64 ((k + 1) % size.toNat) := by
  have hlt := Nat.mod_lt k hsize
  have hmax := size.isLt
  have hsucc : (BitVec.ofNat 64 (k % size.toNat) + 1).toNat = k % size.toNat + 1 := by
    rw [BitVec.toNat_add, toNat_ofNat_mod hsize]
    exact Nat.mod_eq_of_lt (by change k % size.toNat + 1 < _; omega)
  have hlast : BitVec.ofNat 64 (k % size.toNat) + 1 = size ↔ k % size.toNat + 1 = size.toNat := by
    rw [← BitVec.toNat_inj, hsucc]
  apply BitVec.eq_of_toNat_eq
  rw [toNat_ofNat_mod hsize, nextIdx, apply_ite BitVec.toNat, hsucc, ← Nat.mod_add_mod]
  split
  · next heq => rw [hlast.mp heq, Nat.mod_self]; rfl
  · next hne =>
      have hmore : k % size.toNat + 1 ≠ size.toNat := mt hlast.mpr hne
      exact (Nat.mod_eq_of_lt (by omega)).symm

/-! ## The code, access by access -/

variable {kind : Kind} {size : Size} {s a b : RbShared} {sent accepted popped : List IntVal}
  {val : IntVal} {taken q w : ℕ} {copy : Size} {legal : List IntVal → Prop}

/-- What the producer knows, and its copy of the read index. -/
structure Producing (size : Size) (s : RbShared) (sent accepted : List IntVal) (q : ℕ)
    (copy : Size) : Prop where
  sends : Sends size.toNat s sent accepted q
  copy : s.mem.data (.own .readIdx) = copy

/-- What the consumer knows, and its copy of the write index. -/
structure Consuming (size : Size) (s : RbShared) (taken : ℕ) (popped : List IntVal) (w : ℕ)
    (copy : Size) : Prop where
  takes : Takes size.toNat s taken popped w
  copy : s.mem.data (.own .writeIdx) = copy

theorem Producing.guar (P : Producing size a sent accepted q copy)
    (h : Guar size.toNat Cached.owner .consumer a b) : Producing size b sent accepted q copy :=
  ⟨P.sends.guar h, (h.owned .readIdx .producer rfl (by decide)).trans P.copy⟩

theorem Consuming.guar (P : Consuming size a taken popped w copy)
    (h : Guar size.toNat Cached.owner .producer a b) : Consuming size b taken popped w copy :=
  ⟨P.takes.guar h, (h.owned .writeIdx .consumer rfl (by decide)).trans P.copy⟩

/-- The copies of `ringbuffer2` are what was last acquired. -/
def Kind.Copies (kind : Kind) (size copy : Size) (k : ℕ) : Prop :=
  kind = .ringbuffer2 → copy = BitVec.ofNat 64 (k % size.toNat)

/-- What each side knows between calls. -/
def idle (kind : Kind) (size : Size) : Side → RbShared → Prop
  | .producer, s => ∃ sent q copy, Producing size s sent sent q copy ∧ kind.Copies size copy q
  | .consumer, s => ∃ taken popped w copy, Consuming size s taken popped w copy ∧
      popped.length = taken ∧ kind.Copies size copy w

/-- After a `push`: its value is published when it succeeds. -/
def Pushed (kind : Kind) (size : Size) (sent : List IntVal) (val : IntVal) (ok : Bool)
    (s : RbShared) : Prop :=
  ∃ q copy, Producing size s (if ok then sent ++ [val] else sent) sent q copy ∧
    kind.Copies size copy q

/-- After a `pop`: its slot is given back when it has a value, and the value is the next one. -/
def Popped (kind : Kind) (size : Size) (taken : ℕ) (popped : List IntVal) (r : Option IntVal)
    (s : RbShared) : Prop :=
  ∃ w copy, Consuming size s (taken + r.toList.length) popped w copy ∧
    (∀ val, r = some val → s.sent[taken]? = some val) ∧ kind.Copies size copy w

abbrev RbInv (size : Size) (legal : List IntVal → Prop) : RbShared → Prop :=
  Inv (BitVec.ofNat 64) size.toNat Cached.owner legal

section Code
variable {M : Threads RbSig RbShared Side RingCall RingResult}
  {rest : Side → RbShared → Prop}

abbrev rbContract (M : Threads RbSig RbShared Side RingCall RingResult) (size : Size)
    (legal : List IntVal → Prop) (rest : Side → RbShared → Prop) : Contract M :=
  RingShared.contract M (BitVec.ofNat 64) size.toNat Cached.owner legal rest

/-! ### The producer -/

/-- The end of `push`. -/
theorem wp_put (hM : Accesses M size.toNat RingCall.value) (hinv : RbInv size legal s)
    (P : Producing size s sent sent q copy)
    (hroom : sent.length + 1 < q + size.toNat) (hcopy : kind.Copies size copy q)
    (hlegal : legal (sent ++ [val])) :
    (rbContract M size legal rest).Wp .producer (.push val) (Pushed kind size sent val)
      (Ringbuffer2.put (BitVec.ofNat 64 (sent.length % size.toNat))
        (BitVec.ofNat 64 ((sent.length + 1) % size.toNat)) val) s := by
  have hsize := hinv.handover.pos
  refine .bind (RingShared.wp_access hM
    (fun s => Producing size s sent sent q copy) (fun a b h P => P.guar h) hinv P ?_) hinv
  intro s i hinv P _
  rw [toNat_ofNat_mod hsize, RingShared.perform_write_slot _ _ (hinv.slot_lt _)]
  refine ⟨hinv.write_slot P.sends val, fun hinv' => ?_⟩
  refine .bind (RingShared.wp_access hM
    (fun s => Producing size s sent sent q copy ∧
      s.mem.data (.slot (sent.length % size.toNat)) = val)
    (fun a b h P => ⟨P.1.guar h, (h.ring.slots _).trans P.2⟩) hinv' ⟨⟨?_, ?_⟩, ?_⟩ ?_) hinv'
  · exact P.sends.write_slot hinv val
  · exact (s.mem.write_data_other _ (by simp)).trans P.copy
  · exact s.mem.write_data_self _
  · rintro s i hinv ⟨P, hval⟩ _
    rw [RingShared.perform_store_write]
    exact ⟨hinv.store_write P.sends hroom hval hlegal, fun _ =>
      ⟨q, copy, ⟨P.sends.store_write hinv hroom hval, P.copy⟩, hcopy⟩⟩

theorem wp_push_ringbuffer (hM : Accesses M size.toNat RingCall.value) (hinv : RbInv size legal s)
    (P : Producing size s sent sent q copy)
    (hlegal : legal (sent ++ [val])) :
    (rbContract M size legal rest).Wp .producer (.push val) (Pushed .ringbuffer size sent val)
      (Ringbuffer.push size val) s := by
  have hsize := hinv.handover.pos
  refine .bind (RingShared.wp_access hM
    (fun s => Producing size s sent sent q copy) (fun a b h P => P.guar h) hinv P ?_) hinv
  intro s i hinv P hi
  rw [hinv.load_own_write _ P.sends hi]
  refine ⟨⟨hinv, .refl _ _⟩, fun _ => ?_⟩
  rw [nextIdx_ofNat hsize]
  refine .bind (RingShared.wp_access hM
    (fun s => Producing size s sent sent q copy) (fun a b h P => P.guar h) hinv P ?_) hinv
  intro s i hinv P hi
  have htaken : i ≤ s.taken := hinv.handover.reads ▸ hi.2
  have P' := P.sends.acquire hinv hi
  rw [RingShared.perform_load, hinv.handover.readIdx i htaken]
  refine ⟨hinv.load_read hi, fun hinv' => ?_⟩
  split
  · exact ⟨i, copy, ⟨P', P.copy⟩, nofun⟩
  · next hne =>
      exact wp_put hM hinv' ⟨P', P.copy⟩ (room_of_ne hsize (P'.sent ▸ P'.freed.room) hne) nofun
        hlegal

theorem wp_push_ringbuffer2 (hM : Accesses M size.toNat RingCall.value) (hinv : RbInv size legal s)
    (P : Producing size s sent sent q (BitVec.ofNat 64 (q % size.toNat)))
    (hlegal : legal (sent ++ [val])) :
    (rbContract M size legal rest).Wp .producer (.push val) (Pushed .ringbuffer2 size sent val)
      (Ringbuffer2.push size val) s := by
  have hsize := hinv.handover.pos
  have howner : ∀ u, Cached.owner .readIdx = some u → u = .producer := by
    rintro _ ⟨⟩
    rfl
  refine .bind (RingShared.wp_access hM
    (fun s => Producing size s sent sent q (BitVec.ofNat 64 (q % size.toNat)))
    (fun a b h P => P.guar h) hinv P ?_) hinv
  intro s i hinv P hi
  rw [hinv.load_own_write _ P.sends hi]
  refine ⟨⟨hinv, .refl _ _⟩, fun _ => ?_⟩
  rw [nextIdx_ofNat hsize]
  refine .bind (RingShared.wp_access hM
    (fun s => Producing size s sent sent q (BitVec.ofNat 64 (q % size.toNat)))
    (fun a b h P => P.guar h) hinv P ?_) hinv
  intro s i hinv P _
  rw [RingShared.perform_read_own, P.copy]
  refine ⟨hinv.read_own howner, fun hinv' => ?_⟩
  have P' := P.sends.of_mem (sameRing_read s.mem .producer .readIdx)
  split
  · refine .bind (RingShared.wp_access hM
      (fun s => Sends size.toNat s sent sent q) (fun a b h S => S.guar h) hinv' P' ?_) hinv'
    intro s i hinv S hi
    have htaken : i ≤ s.taken := hinv.handover.reads ▸ hi.2
    have S' := S.acquire hinv hi
    rw [RingShared.perform_load, hinv.handover.readIdx i htaken]
    refine ⟨hinv.load_read hi, fun hinv' => ?_⟩
    refine .bind (RingShared.wp_access hM (fun s => Sends size.toNat s sent sent i)
      (fun a b h S => S.guar h) hinv' S' ?_) hinv'
    intro s j hinv S _
    rw [RingShared.perform_write_own]
    refine ⟨hinv.write_own howner _, fun hinv' => ?_⟩
    have hcopy : (s.mem.write .producer (.own .readIdx)
        (BitVec.ofNat 64 (i % size.toNat))).data (.own .readIdx) =
        BitVec.ofNat 64 (i % size.toNat) := s.mem.write_data_self _
    refine .bind (RingShared.wp_access hM
      (fun s => Producing size s sent sent i (BitVec.ofNat 64 (i % size.toNat)))
      (fun a b h P => P.guar h) hinv'
      ⟨S.of_mem (sameRing_write s.mem .producer .readIdx _), hcopy⟩ ?_) hinv'
    intro s j hinv P _
    rw [RingShared.perform_read_own, P.copy]
    refine ⟨hinv.read_own howner, fun hinv' => ?_⟩
    have P' := P.sends.of_mem (sameRing_read s.mem .producer .readIdx)
    split
    · exact ⟨i, _, ⟨P', P.copy⟩, fun _ => rfl⟩
    · next hne =>
        exact wp_put hM hinv' ⟨P', P.copy⟩ (room_of_ne hsize (P'.sent ▸ P'.freed.room) hne)
          (fun _ => rfl) hlegal
  · next hne =>
      exact wp_put hM hinv' ⟨P', P.copy⟩ (room_of_ne hsize (P'.sent ▸ P'.freed.room) hne)
        (fun _ => rfl) hlegal

/-! ### The consumer -/

/-- The end of `pop`. -/
theorem wp_take (hM : Accesses M size.toNat RingCall.value) (hinv : RbInv size legal s)
    (P : Consuming size s taken popped w copy) (hlt : taken < w) (hpopped : popped.length = taken)
    (hcopy : kind.Copies size copy w) :
    (rbContract M size legal rest).Wp .consumer .pop (Popped kind size taken popped)
      (Ringbuffer2.take size (BitVec.ofNat 64 (taken % size.toNat))) s := by
  have hsize := hinv.handover.pos
  refine .bind (RingShared.wp_access hM
    (fun s => Consuming size s taken popped w copy) (fun a b h P => P.guar h) hinv P ?_) hinv
  intro s i hinv P _
  have hval := P.takes.data_slot hinv hlt
  rw [toNat_ofNat_mod hsize, RingShared.perform_read_slot _ _ (hinv.slot_lt _)]
  refine ⟨hinv.read_slot P.takes hlt, fun hinv' => ?_⟩
  refine .bind (RingShared.wp_access hM
    (fun t => Consuming size t taken popped w copy ∧
      t.sent[taken]? = some (s.mem.data (.slot (taken % size.toNat))))
    (fun a b h P => ⟨P.1.guar h, h.ring.getElem?_sent P.2⟩) hinv'
    ⟨⟨P.takes.read_slot hinv hlt, P.copy⟩, hval⟩ ?_) hinv'
  rintro t i hinv ⟨P, hval⟩ _
  rw [nextIdx_ofNat hsize, RingShared.perform_store_read]
  refine ⟨hinv.store_read P.takes hlt hpopped, fun _ => ⟨w, copy, ⟨?_, P.copy⟩, ?_, hcopy⟩⟩
  · exact P.takes.store_read hinv hlt
  · rintro _ ⟨⟩
    exact hval

theorem wp_pop_ringbuffer (hM : Accesses M size.toNat RingCall.value) (hinv : RbInv size legal s)
    (P : Consuming size s taken popped w copy) (hpopped : popped.length = taken) :
    (rbContract M size legal rest).Wp .consumer .pop (Popped .ringbuffer size taken popped)
      (Ringbuffer.pop size) s := by
  refine .bind (RingShared.wp_access hM
    (fun s => Consuming size s taken popped w copy) (fun a b h P => P.guar h) hinv P ?_) hinv
  intro s i hinv P hi
  rw [hinv.load_own_read _ P.takes hi]
  refine ⟨⟨hinv, .refl _ _⟩, fun _ => ?_⟩
  refine .bind (RingShared.wp_access hM
    (fun s => Consuming size s taken popped w copy) (fun a b h P => P.guar h) hinv P ?_) hinv
  intro s i hinv P hi
  have hsent : i ≤ s.sent.length := hinv.handover.writes ▸ hi.2
  have P' := P.takes.acquire hinv hi
  rw [RingShared.perform_load, hinv.handover.writeIdx i hsent]
  refine ⟨hinv.load_write hi, fun hinv' => ?_⟩
  split
  · exact ⟨i, copy, ⟨P', P.copy⟩, nofun, nofun⟩
  · next hne =>
      exact wp_take hM hinv' ⟨P', P.copy⟩ (found_of_ne (P'.taken ▸ P'.found.le) hne) hpopped nofun

theorem wp_pop_ringbuffer2 (hM : Accesses M size.toNat RingCall.value) (hinv : RbInv size legal s)
    (P : Consuming size s taken popped w (BitVec.ofNat 64 (w % size.toNat)))
    (hpopped : popped.length = taken) :
    (rbContract M size legal rest).Wp .consumer .pop (Popped .ringbuffer2 size taken popped)
      (Ringbuffer2.pop size) s := by
  have howner : ∀ u, Cached.owner .writeIdx = some u → u = .consumer := by
    rintro _ ⟨⟩
    rfl
  refine .bind (RingShared.wp_access hM
    (fun s => Consuming size s taken popped w (BitVec.ofNat 64 (w % size.toNat)))
    (fun a b h P => P.guar h) hinv P ?_) hinv
  intro s i hinv P hi
  rw [hinv.load_own_read _ P.takes hi]
  refine ⟨⟨hinv, .refl _ _⟩, fun _ => ?_⟩
  refine .bind (RingShared.wp_access hM
    (fun s => Consuming size s taken popped w (BitVec.ofNat 64 (w % size.toNat)))
    (fun a b h P => P.guar h) hinv P ?_) hinv
  intro s i hinv P _
  rw [RingShared.perform_read_own, P.copy]
  refine ⟨hinv.read_own howner, fun hinv' => ?_⟩
  have P' := P.takes.of_mem (sameRing_read s.mem .consumer .writeIdx)
  split
  · refine .bind (RingShared.wp_access hM
      (fun s => Takes size.toNat s taken popped w) (fun a b h T => T.guar h) hinv' P' ?_) hinv'
    intro s i hinv T hi
    have hsent : i ≤ s.sent.length := hinv.handover.writes ▸ hi.2
    have T' := T.acquire hinv hi
    rw [RingShared.perform_load, hinv.handover.writeIdx i hsent]
    refine ⟨hinv.load_write hi, fun hinv' => ?_⟩
    refine .bind (RingShared.wp_access hM (fun s => Takes size.toNat s taken popped i)
      (fun a b h T => T.guar h) hinv' T' ?_) hinv'
    intro s j hinv T _
    rw [RingShared.perform_write_own]
    refine ⟨hinv.write_own howner _, fun hinv' => ?_⟩
    have hcopy : (s.mem.write .consumer (.own .writeIdx)
        (BitVec.ofNat 64 (i % size.toNat))).data (.own .writeIdx) =
        BitVec.ofNat 64 (i % size.toNat) := s.mem.write_data_self _
    refine .bind (RingShared.wp_access hM
      (fun s => Consuming size s taken popped i (BitVec.ofNat 64 (i % size.toNat)))
      (fun a b h P => P.guar h) hinv'
      ⟨T.of_mem (sameRing_write s.mem .consumer .writeIdx _), hcopy⟩ ?_) hinv'
    intro s j hinv P _
    rw [RingShared.perform_read_own, P.copy]
    refine ⟨hinv.read_own howner, fun hinv' => ?_⟩
    have P' := P.takes.of_mem (sameRing_read s.mem .consumer .writeIdx)
    split
    · exact ⟨i, _, ⟨P', P.copy⟩, nofun, fun _ => rfl⟩
    · next hne =>
        exact wp_take hM hinv' ⟨P', P.copy⟩ (found_of_ne (P'.taken ▸ P'.found.le) hne) hpopped
          fun _ => rfl
  · next hne =>
      exact wp_take hM hinv' ⟨P', P.copy⟩ (found_of_ne (P'.taken ▸ P'.found.le) hne) hpopped
        fun _ => rfl

/-! ### The waiting loop -/

/-- The producer has found the read index `i`, and it is equal to the write index. -/
theorem Producing.sent_le {i : ℕ} (P : Producing size s sent sent q copy)
    (hinv : RbInv size legal s) (hseen : q ≤ i) (htaken : i ≤ s.taken)
    (heq : BitVec.ofNat 64 (i % size.toNat) = BitVec.ofNat 64 (sent.length % size.toNat)) :
    sent.length ≤ s.taken := by
  have hroom : sent.length < q + size.toNat := P.sends.sent ▸ P.sends.freed.room
  have hle : s.taken ≤ sent.length := P.sends.sent ▸ hinv.handover.ring.le
  have hmod := (ofNat_mod_inj hinv.handover.pos).mp heq
  rcases (mod_eq_mod_iff_of_lap (by omega) (by omega)).mp hmod.symm with h | h <;> omega

/-- When a turn of the loop finds the indices equal, everything sent has been taken. -/
theorem wp_drained (hM : Accesses M size.toNat RingCall.value) (hinv : RbInv size legal s)
    (P : Producing size s sent sent q copy) (readFirst : Bool) :
    (rbContract M size legal rest).Wp .producer (.drained readFirst)
      (fun yes s => Producing size s sent sent q copy ∧ (yes = true → sent.length ≤ s.taken))
      (drained readFirst) s := by
  cases readFirst with
  | true =>
      refine .bind (RingShared.wp_access hM
        (fun s => Producing size s sent sent q copy) (fun a b h P => P.guar h) hinv P ?_) hinv
      intro s i hinv P hi
      have htaken : i ≤ s.taken := hinv.handover.reads ▸ hi.2
      have hseen : q ≤ i := P.sends.freed.seen.trans hi.1
      rw [RingShared.perform_load, hinv.handover.readIdx i htaken]
      refine ⟨hinv.load_read hi, fun hinv' => ?_⟩
      refine .bind (RingShared.wp_access hM
        (fun s => Producing size s sent sent q copy ∧ i ≤ s.taken)
        (fun a b h P => ⟨P.1.guar h, P.2.trans h.ring.taken⟩) hinv'
        ⟨⟨P.sends.relaxed hi, P.copy⟩, htaken⟩ ?_) hinv'
      rintro s j hinv ⟨P, htaken⟩ hi
      rw [hinv.load_own_write _ P.sends hi]
      exact ⟨⟨hinv, .refl _ _⟩, fun _ => ⟨P, fun hyes =>
        P.sent_le hinv hseen htaken (of_decide_eq_true hyes)⟩⟩
  | false =>
      refine .bind (RingShared.wp_access hM
        (fun s => Producing size s sent sent q copy) (fun a b h P => P.guar h) hinv P ?_) hinv
      intro s i hinv P hi
      rw [hinv.load_own_write _ P.sends hi]
      refine ⟨⟨hinv, .refl _ _⟩, fun hinv' => ?_⟩
      refine .bind (RingShared.wp_access hM
        (fun s => Producing size s sent sent q copy) (fun a b h P => P.guar h) hinv' P ?_) hinv'
      intro s i hinv P hi
      have htaken : i ≤ s.taken := hinv.handover.reads ▸ hi.2
      have hseen : q ≤ i := P.sends.freed.seen.trans hi.1
      rw [RingShared.perform_load, hinv.handover.readIdx i htaken]
      exact ⟨hinv.load_read hi, fun _ => ⟨⟨P.sends.relaxed hi, P.copy⟩, fun hyes =>
        P.sent_le hinv hseen htaken (of_decide_eq_true hyes)⟩⟩

/-! ### Returning -/

theorem idle_guar {t : Side} (h : Guar size.toNat Cached.owner t.other a b)
    (hidle : idle kind size t a) : idle kind size t b := by
  cases t with
  | producer =>
      obtain ⟨sent, q, copy, P, hcopy⟩ := hidle
      exact ⟨sent, q, copy, P.guar h, hcopy⟩
  | consumer =>
      obtain ⟨taken, popped, w, copy, P, hpopped, hcopy⟩ := hidle
      exact ⟨taken, popped, w, copy, P.guar h, hpopped, hcopy⟩

theorem Pushed.guar {ok : Bool} (h : Guar size.toNat Cached.owner .consumer a b)
    (P : Pushed kind size sent val ok a) : Pushed kind size sent val ok b := by
  obtain ⟨q, copy, P, hcopy⟩ := P
  exact ⟨q, copy, P.guar h, hcopy⟩

theorem Popped.guar {r : Option IntVal} (h : Guar size.toNat Cached.owner .producer a b)
    (P : Popped kind size taken popped r a) : Popped kind size taken popped r b := by
  obtain ⟨w, copy, P, hval, hcopy⟩ := P
  exact ⟨w, copy, P.guar h, fun val hr => h.ring.getElem?_sent (hval val hr), hcopy⟩

/-- A `push` returns. -/
theorem Pushed.finish {ok : Bool} (P : Pushed kind size sent val ok s)
    (hinv : RbInv size legal s) :
    Step (BitVec.ofNat 64) size.toNat Cached.owner legal .producer s
        (finishCall s (.push val) (.pushed ok)) ∧
      idle kind size .producer (finishCall s (.push val) (.pushed ok)) := by
  obtain ⟨q, copy, P, hcopy⟩ := P
  cases ok with
  | false => exact ⟨⟨hinv, .refl _ _⟩, sent, q, copy, P, hcopy⟩
  | true =>
      refine ⟨hinv.accept P.sends, sent ++ [val], q, copy, ⟨⟨P.sends.sent, ?_, P.sends.freed⟩,
        P.copy⟩, hcopy⟩
      rw [← P.sends.accepted]
      rfl

/-- A `pop` returns. -/
theorem Popped.finish {r : Option IntVal} (P : Popped kind size taken popped r s)
    (hinv : RbInv size legal s) (hpopped : popped.length = taken) :
    Step (BitVec.ofNat 64) size.toNat Cached.owner legal .consumer s
        (finishCall s .pop (.popped r)) ∧
      idle kind size .consumer (finishCall s .pop (.popped r)) := by
  obtain ⟨w, copy, P, hval, hcopy⟩ := P
  cases r with
  | none => exact ⟨⟨hinv, .refl _ _⟩, taken, popped, w, copy, P, hpopped, hcopy⟩
  | some val =>
      refine ⟨hinv.give_back P.takes hpopped (hval val rfl), taken + 1, popped ++ [val], w, copy,
        ⟨⟨P.takes.taken, ?_, P.takes.found⟩, P.copy⟩, ?_, hcopy⟩
      · rw [← P.takes.popped]
        rfl
      · rw [List.length_append, hpopped, List.length_singleton]

/-- A value that is returned is the next one. -/
def Fits (s : RbShared) (r : RingResult) : Prop :=
  ∀ val, r = .popped (some val) → s.sent[s.popped.length]? = some val

theorem Popped.fits {r : Option IntVal} (P : Popped kind size taken popped r s)
    (hpopped : popped.length = taken) : Fits s (.popped r) := by
  obtain ⟨w, copy, P, hval, -⟩ := P
  rintro val ⟨⟩
  rw [P.takes.popped, hpopped]
  exact hval val rfl

/-- The waiting loop makes a turn. -/
theorem Producing.finish {yes readFirst : Bool} (P : Producing size s sent sent q copy)
    (hcopy : kind.Copies size copy q) (hinv : RbInv size legal s)
    (hyes : yes = true → sent.length ≤ s.taken) :
    Step (BitVec.ofNat 64) size.toNat Cached.owner legal .producer s
        (finishCall s (.drained readFirst) (.drained yes)) ∧
      idle kind size .producer (finishCall s (.drained readFirst) (.drained yes)) := by
  have hidle : idle kind size .producer s := ⟨sent, q, copy, P, hcopy⟩
  cases yes with
  | false => exact ⟨⟨hinv, .refl _ _⟩, hidle⟩
  | true =>
      have hall : s.taken = s.sent.length := by
        have hle := hinv.handover.ring.le
        have hge := hyes rfl
        rw [← P.sends.sent] at hge
        omega
      exact ⟨hinv.check .producer (by simpa using hall),
        sent, q, copy, ⟨⟨P.sends.sent, P.sends.accepted, P.sends.freed⟩, P.copy⟩, hcopy⟩

/-! ### The calls -/

theorem wp_push (hM : Accesses M size.toNat RingCall.value) (hinv : RbInv size legal s)
    (P : Producing size s sent sent q copy) (hcopy : kind.Copies size copy q)
    (hlegal : legal (sent ++ [val])) :
    (rbContract M size legal rest).Wp .producer (.push val) (Pushed kind size sent val)
      (kind.push size val) s := by
  cases kind with
  | ringbuffer => exact wp_push_ringbuffer hM hinv P hlegal
  | ringbuffer2 =>
      obtain rfl := hcopy rfl
      exact wp_push_ringbuffer2 hM hinv P hlegal

theorem wp_pop (hM : Accesses M size.toNat RingCall.value) (hinv : RbInv size legal s)
    (P : Consuming size s taken popped w copy) (hcopy : kind.Copies size copy w)
    (hpopped : popped.length = taken) :
    (rbContract M size legal rest).Wp .consumer .pop (Popped kind size taken popped)
      (kind.pop size) s := by
  cases kind with
  | ringbuffer => exact wp_pop_ringbuffer hM hinv P hpopped
  | ringbuffer2 =>
      obtain rfl := hcopy rfl
      exact wp_pop_ringbuffer2 hM hinv P hpopped

/-- The calls keep to the contract, as long as their results go on the record. -/
theorem safe_ringCode (hM : Accesses M size.toNat RingCall.value)
    (hfinish : ∀ t c r s, RbInv size legal s → Fits s r → M.finish t c r s = finishCall s c r)
    {t : Side} {c : RingCall} (hinv : RbInv size legal s) (hidle : idle kind size t s)
    (hc : mayCall t c)
    (hlegal : ∀ val, c = .push val → s.accepted = s.sent → legal (s.sent ++ [val])) :
    (rbContract M size legal (idle kind size)).Safe t c (ringCode kind size c) s := by
  cases t with
  | producer =>
      obtain ⟨sent, q, copy, P, hcopy⟩ := hidle
      cases c with
      | push val =>
          have hsent : legal (sent ++ [val]) := by
            rw [← P.sends.sent]
            exact hlegal val rfl (P.sends.accepted.trans P.sends.sent.symm)
          refine .bind (.mono (wp_push hM hinv P hcopy hsent) ?_) hinv
          intro ok s P hinv s' hrely
          have P' := (RingShared.stable_of_guar fun _ _ => Pushed.guar).rely hrely P
          obtain ⟨hstep, hidle⟩ := P'.finish (hrely.inv hinv)
          rw [hfinish _ _ _ _ (hrely.inv hinv) (by rintro _ ⟨⟩)]
          exact ⟨hstep.inv, hstep.guar, hidle⟩
      | pop => exact hc.elim
      | drained readFirst =>
          refine .bind (.mono (wp_drained hM hinv P readFirst) ?_) hinv
          rintro yes s ⟨P, hyes⟩ hinv s' hrely
          have hstable : ∀ a b, Guar size.toNat Cached.owner .consumer a b →
              (Producing size a sent sent q copy ∧ (yes = true → sent.length ≤ a.taken)) →
              (Producing size b sent sent q copy ∧ (yes = true → sent.length ≤ b.taken)) :=
            fun a b h P => ⟨P.1.guar h, fun hy => (P.2 hy).trans h.ring.taken⟩
          obtain ⟨P', hyes'⟩ := (RingShared.stable_of_guar hstable).rely hrely ⟨P, hyes⟩
          obtain ⟨hstep, hidle⟩ := P'.finish hcopy (hrely.inv hinv) hyes'
          rw [hfinish _ _ _ _ (hrely.inv hinv) (by rintro _ ⟨⟩)]
          exact ⟨hstep.inv, hstep.guar, hidle⟩
  | consumer =>
      obtain ⟨taken, popped, w, copy, P, hpopped, hcopy⟩ := hidle
      cases c with
      | push val => exact hc.elim
      | pop =>
          refine .bind (.mono (wp_pop hM hinv P hcopy hpopped) ?_) hinv
          intro r s P hinv s' hrely
          have P' := (RingShared.stable_of_guar fun _ _ => Popped.guar).rely hrely P
          obtain ⟨hstep, hidle⟩ := P'.finish (hrely.inv hinv) hpopped
          rw [hfinish _ _ _ _ (hrely.inv hinv) (P'.fits hpopped)]
          exact ⟨hstep.inv, hstep.guar, hidle⟩
      | drained => exact hc.elim

end Code

/-! ## All interleavings -/

theorem accesses_ringThreads (kind : Kind) (size : Size) :
    Accesses (ringThreads kind size) size.toNat RingCall.value :=
  ⟨fun _ _ _ => rfl, fun _ _ _ _ => Iff.rfl⟩

abbrev ringContract (kind : Kind) (size : Size) : Contract (ringThreads kind size) :=
  rbContract (ringThreads kind size) size (fun _ => True) (idle kind size)

theorem inv_newRing (hsize : 0 < size.toNat) (hlegal : legal []) : RbInv size legal newRing :=
  .start (handover_init hsize (fun _ => rfl) _) (fun _ _ _ => WeakMem.private_init _ _ _ _) hlegal

theorem idle_newRing (hsize : 0 < size.toNat) (t : Side) : idle kind size t newRing := by
  cases t with
  | producer =>
      exact ⟨[], 0, 0, ⟨⟨rfl, rfl, freed_init hsize _⟩, rfl⟩, fun _ => by rw [Nat.zero_mod]; rfl⟩
  | consumer =>
      exact ⟨0, [], 0, 0, ⟨⟨rfl, rfl, found_init _⟩, rfl⟩, rfl, fun _ => by rw [Nat.zero_mod]; rfl⟩

/-- Everything that holds of a ring at work holds in every interleaving. -/
theorem holds_ring (hsize : 0 < size.toNat) {es : List (ThreadsEvent Side RingCall)}
    (hes : (ringThreads kind size).machine.Admits (Threads.start newRing) es) :
    (ringContract kind size).Holds
      ((ringThreads kind size).machine.exec (Threads.start newRing) es) :=
  Contract.holds_exec (fun _ => RingShared.stable_of_guar fun _ _ => idle_guar) Guar.refl
    (fun _ _ _ hinv hidle hc => safe_ringCode (accesses_ringThreads kind size)
      (fun _ _ _ _ _ _ => rfl) hinv hidle hc fun _ _ _ => trivial)
    (.start (inv_newRing hsize trivial) (idle_newRing hsize)) hes

/-- The values come out in the order they went in, the slots suffice, no access is out of bounds,
and no two accesses race. -/
structure Fifo (size : Size) (s : RbShared) : Prop where
  order : s.popped <+: s.sent
  accepted : s.accepted <+: s.sent
  pending : s.sent.length ≤ s.accepted.length + 1
  room : s.sent.length < s.taken + size.toNat
  checks : s.checks = true
  quiet : ∀ d, s.mem.raced d = false

theorem fifo_of_inv (hinv : RbInv size legal s) : Fifo size s := by
  refine ⟨hinv.popped.trans (List.take_prefix _ _), hinv.accepted, hinv.pending,
    hinv.handover.ring.lt, hinv.checks, ?_⟩
  intro d
  cases d with
  | slot i => exact hinv.handover.quiet i
  | own x =>
      cases x with
      | readIdx => exact (hinv.owned .readIdx .producer rfl).quiet
      | writeIdx => exact (hinv.owned .writeIdx .consumer rfl).quiet

theorem toNat_pos (hsize : size ≠ 0) : 0 < size.toNat := by
  rw [Nat.pos_iff_ne_zero]
  exact fun h => hsize (BitVec.eq_of_toNat_eq h)

/-- The first `push` into a ring without slots. -/
def pushNowhere : List (ThreadsEvent Side RingCall) :=
  [.call .producer (.push 0), .step .producer 0, .step .producer 0, .step .producer 0,
    .step .producer 0]

/-- Either ring works in every interleaving, unless it has no slots: then the first `push` finds
its two indices different and writes past the end of the data. -/
theorem ring_fifo_iff (kind : Kind) (size : Size) :
    (∀ es, (ringThreads kind size).machine.Admits (Threads.start newRing) es →
      Fifo size ((ringThreads kind size).machine.exec (Threads.start newRing) es).shared) ↔
      size ≠ 0 := by
  constructor
  · rintro h rfl
    cases kind with
    | ringbuffer => exact absurd (h pushNowhere (by decide)).checks (by decide)
    | ringbuffer2 => exact absurd (h pushNowhere (by decide)).checks (by decide)
  · intro hsize es hes
    exact fifo_of_inv (holds_ring (toNat_pos hsize) hes).inv

/-! ## The benchmark -/

/-- 0, 1, 2, … -/
def Counts (xs : List IntVal) : Prop := xs = (List.range xs.length).map (BitVec.ofNat 32)

theorem Counts.append {xs : List IntVal} (h : Counts xs) :
    Counts (xs ++ [BitVec.ofNat 32 xs.length]) := by
  have hxs : xs = (List.range xs.length).map (BitVec.ofNat 32) := h
  rw [Counts, List.length_append, List.length_singleton, List.range_succ, List.map_append, ← hxs]
  rfl

theorem Counts.getElem? {xs : List IntVal} (h : Counts xs) {k : ℕ} (hk : xs[k]? = some val) :
    val = BitVec.ofNat 32 k := by
  have hxs : xs = (List.range xs.length).map (BitVec.ofNat 32) := h
  rw [hxs, List.getElem?_map] at hk
  obtain ⟨j, hj, rfl⟩ := Option.map_eq_some_iff.mp hk
  obtain ⟨hlt, rfl⟩ := List.getElem?_eq_some_iff.mp hj
  rw [List.getElem_range]

theorem accesses_bench (kind : Kind) (size : Size) (iters : ℕ) :
    Accesses (bench kind size iters) size.toNat RingCall.value :=
  ⟨fun _ _ _ => rfl, fun _ _ _ _ => Iff.rfl⟩

/-- The consumer's check passes. -/
theorem finish_bench {iters : ℕ} {t : Side} {c : RingCall} {r : RingResult}
    (hinv : RbInv size Counts s) (hr : Fits s r) :
    (bench kind size iters).finish t c r s = finishCall s c r := by
  have hcheck : benchCheck s r = true := by
    cases r with
    | pushed ok => rfl
    | drained yes => rfl
    | popped v =>
        cases v with
        | none => rfl
        | some val => exact decide_eq_true (hinv.legal.getElem? (hr val rfl))
  change finishCall { s with checks := s.checks && benchCheck s r } c r = _
  rw [hcheck, Bool.and_true]

theorem mayCall_of_benchCall {iters : ℕ} {t : Side} {c : RingCall} (h : benchCall iters s t c) :
    mayCall t c := by
  cases t <;> cases c <;> trivial

/-- What the producer of `bench` sends counts up. -/
theorem counts_of_benchCall {iters : ℕ} {t : Side} (hinv : RbInv size Counts s)
    (h : benchCall iters s t (.push val)) (haccepted : s.accepted = s.sent) :
    Counts (s.sent ++ [val]) := by
  cases t with
  | producer =>
      obtain ⟨-, rfl⟩ := h
      rw [haccepted]
      exact hinv.legal.append
  | consumer => exact h.elim

/-- With either ring, in every interleaving: `bench` does not throw, and it stops the clock only
when the consumer has taken everything. -/
theorem bench_checks (kind : Kind) {size : Size} (hsize : size ≠ 0) (iters : ℕ)
    {es : List (ThreadsEvent Side RingCall)}
    (hes : (bench kind size iters).machine.Admits (Threads.start newRing) es) :
    Fifo size ((bench kind size iters).machine.exec (Threads.start newRing) es).shared := by
  have H := Contract.holds_exec
    (K := rbContract (bench kind size iters) size Counts (idle kind size))
    (fun _ => RingShared.stable_of_guar fun _ _ => idle_guar) Guar.refl
    (fun t c s hinv hidle hc => safe_ringCode (accesses_bench kind size iters)
      (fun _ _ _ _ hinv hr => finish_bench hinv hr) hinv hidle (mayCall_of_benchCall hc)
      fun _ hpush => counts_of_benchCall hinv (hpush ▸ hc))
    (.start (inv_newRing (toNat_pos hsize) rfl) (idle_newRing (toNat_pos hsize))) hes
  exact fifo_of_inv H.inv

/-- One value through a ring of two slots, up to the end of the waiting loop. -/
def benchOne : List (ThreadsEvent Side RingCall) :=
  [.call .producer (.push 0)] ++ List.replicate 5 (.step .producer 0) ++
    [.call .consumer .pop, .step .consumer 0] ++ List.replicate 4 (.step .consumer 1) ++
    [.call .producer (.drained true)] ++ List.replicate 3 (.step .producer 1)

theorem bench_checks_one :
    (bench .ringbuffer 2 1).machine.Admits (Threads.start newRing) benchOne ∧
      Fifo 2 ((bench .ringbuffer 2 1).machine.exec (Threads.start newRing) benchOne).shared :=
  ⟨by decide +kernel, bench_checks .ringbuffer (by decide) 1 (by decide +kernel)⟩

end Unid.Spike
