import Unid.Lib.Threads
import Unid.Lib.Handover

/-!
# One producer, one consumer

The state that a producer and a consumer of a ring share: its memory, and a record
of what they have done.  `perform` makes one access and keeps the record;
`Inv` is the invariant and `Guar` what a side's access leaves to the other.  For
each access that the code of a ring makes there is a lemma that says what comes
of it, to be used where that access stands in the code.

## Main definitions

* `RingShared`, `RingShared.perform` — memory and record, and one access.
* `RingShared.Inv`, `RingShared.Guar` — what both keep, and what each leaves alone.
* `RingShared.Sends`, `RingShared.Takes` — what the two sides know.
-/

namespace Unid.Lib

/-! ## Indices in machine words -/

section Indices
variable {n : ℕ} {size : BitVec n} {j k : ℕ}

theorem toNat_ofNat_mod (hsize : 0 < size.toNat) (k : ℕ) :
    (BitVec.ofNat n (k % size.toNat)).toNat = k % size.toNat := by
  have hlt := Nat.mod_lt k hsize
  rw [BitVec.toNat_ofNat, Nat.mod_eq_of_lt (hlt.trans size.isLt)]

theorem ofNat_mod_inj (hsize : 0 < size.toNat) :
    BitVec.ofNat n (j % size.toNat) = BitVec.ofNat n (k % size.toNat) ↔
      j % size.toNat = k % size.toNat := by
  rw [← BitVec.toNat_inj, toNat_ofNat_mod hsize, toNat_ofNat_mod hsize]

/-- Unequal indices mean that a slot is left. -/
theorem room_of_ne (hsize : 0 < size.toNat) (hlt : j < k + size.toNat)
    (hne : BitVec.ofNat n ((j + 1) % size.toNat) ≠ BitVec.ofNat n (k % size.toNat)) :
    j + 1 < k + size.toNat := by
  have hmod := mt (ofNat_mod_inj hsize).mpr hne
  have hfull : j + 1 ≠ k + size.toNat := by
    intro h
    rw [h, Nat.add_mod_right] at hmod
    exact hmod rfl
  omega

/-- Unequal indices mean that a value is there. -/
theorem found_of_ne (hle : j ≤ k)
    (hne : BitVec.ofNat n (j % size.toNat) ≠ BitVec.ofNat n (k % size.toNat)) : j < k := by
  have hjk : j ≠ k := by
    rintro rfl
    exact hne rfl
  omega

end Indices

/-! ## Memory and record -/

/-- The memory of a ring, and what its producer and its consumer have done. -/
structure RingShared (V α X : Type) (β : X → Type) where
  mem : RingMem V α X β
  /-- The values whose slots have been published. -/
  sent : List α
  /-- How many slots have been given back. -/
  taken : ℕ
  /-- The values whose calls have returned. -/
  accepted : List α
  /-- The values that calls have returned. -/
  popped : List α
  /-- Every check so far has passed. -/
  checks : Bool

abbrev RingSig (V α X : Type) (β : X → Type) : Sig :=
  AccessSig RingIndex (Cell X) V (Cell.Val α β)

namespace RingShared
variable {V α X : Type} {β : X → Type}

/-- Nobody has done anything. -/
def start (m : RingMem V α X β) : RingShared V α X β := ⟨m, [], 0, [], [], true⟩

/-- The check of an access: it is not to a slot past the end. -/
def Within (cap : ℕ) : Access RingIndex (Cell X) V (Cell.Val α β) → Bool
  | .read (.slot i) | .write (.slot i) _ => i < cap
  | _ => true

/-- The record after an access that left the memory `m`; storing the write index publishes the
value of the call. -/
def note (cap : ℕ) (val : Option α) (e : Access RingIndex (Cell X) V (Cell.Val α β))
    (s : RingShared V α X β) (m : RingMem V α X β) : RingShared V α X β :=
  { s with
    mem := m
    checks := s.checks && Within cap e
    sent := match e with
      | .store .write _ => s.sent ++ val.toList
      | _ => s.sent
    taken := match e with
      | .store .read _ => s.taken + 1
      | _ => s.taken }

/-- One access of a side, in a call about `val`. -/
def perform [DecidableEq X] (cap : ℕ) (t : Side) (val : Option α) (i : ℕ) :
    Handler (RingSig V α X β) (RingShared V α X β) :=
  fun e s => ((WeakMem.handle t i e s.mem).1, s.note cap val e (WeakMem.handle t i e s.mem).2)

/-! ## The contract -/

section Contract
variable (enc : ℕ → V) (cap : ℕ) (owner : X → Option Side) (legal : List α → Prop)

/-- What both sides keep; `owner` tells the variables beside the slots that one side has for
itself, `legal` what may be sent. -/
structure Inv [DecidableEq X] (s : RingShared V α X β) : Prop where
  handover : Handover enc cap s.mem s.sent s.taken
  owned : ∀ x t, owner x = some t → s.mem.Private t (.own x)
  checks : s.checks = true
  legal : legal s.sent
  accepted : s.accepted <+: s.sent
  pending : s.sent.length ≤ s.accepted.length + 1
  popped : s.popped <+: s.sent.take s.taken
  carried : s.taken ≤ s.popped.length + 1

/-- What the producer leaves to the consumer. -/
structure KeepsFound (a b : RingShared V α X β) : Prop where
  found : ∀ w, Found cap a.mem a.taken w → Found cap b.mem b.taken w
  taken : b.taken = a.taken
  popped : b.popped = a.popped
  sent : a.sent <+: b.sent

/-- What the consumer leaves to the producer. -/
structure KeepsFreed (a b : RingShared V α X β) : Prop where
  freed : ∀ q, Freed cap a.mem a.sent q → Freed cap b.mem b.sent q
  sent : b.sent = a.sent
  accepted : b.accepted = a.accepted
  taken : a.taken ≤ b.taken
  slots : ∀ i, b.mem.data (.slot i) = a.mem.data (.slot i)

/-- What a step of one side leaves to the other. -/
structure Guar (t : Side) (a b : RingShared V α X β) : Prop where
  ring : match t with
    | .producer => KeepsFound cap a b
    | .consumer => KeepsFreed cap a b
  owned : ∀ x u, owner x = some u → u ≠ t → b.mem.data (.own x) = a.mem.data (.own x)

/-- The producer knows what it has sent, what of it was accepted and that `q` slots were given
back. -/
structure Sends (s : RingShared V α X β) (sent accepted : List α) (q : ℕ) : Prop where
  sent : s.sent = sent
  accepted : s.accepted = accepted
  freed : Freed cap s.mem s.sent q

/-- The consumer knows what it has taken and returned and that `w` values were published. -/
structure Takes (s : RingShared V α X β) (taken : ℕ) (popped : List α) (w : ℕ) : Prop where
  taken : s.taken = taken
  popped : s.popped = popped
  found : Found cap s.mem s.taken w

end Contract

variable {enc : ℕ → V} {cap : ℕ} {owner : X → Option Side} {legal : List α → Prop}
  {s a b : RingShared V α X β}
  {sent accepted popped : List α} {taken q w i : ℕ}

theorem Guar.refl (t : Side) (s : RingShared V α X β) : Guar cap owner t s s := by
  refine ⟨?_, fun _ _ _ _ => rfl⟩
  cases t with
  | producer => exact ⟨fun _ F => F, rfl, rfl, List.prefix_rfl⟩
  | consumer => exact ⟨fun _ F => F, rfl, rfl, le_rfl, fun _ => rfl⟩

theorem Sends.guar (S : Sends cap a sent accepted q) (h : Guar cap owner .consumer a b) :
    Sends cap b sent accepted q :=
  ⟨h.ring.sent.trans S.sent, h.ring.accepted.trans S.accepted, h.ring.freed q S.freed⟩

theorem Takes.guar (T : Takes cap a taken popped w) (h : Guar cap owner .producer a b) :
    Takes cap b taken popped w :=
  ⟨h.ring.taken.trans T.taken, h.ring.popped.trans T.popped, h.ring.found w T.found⟩

/-- A value stays where it is while more are sent. -/
theorem KeepsFound.getElem?_sent (h : KeepsFound cap a b) {k : ℕ} {v : α}
    (hk : a.sent[k]? = some v) : b.sent[k]? = some v := by
  obtain ⟨more, hmore⟩ := h.sent
  obtain ⟨hlt, -⟩ := List.getElem?_eq_some_iff.mp hk
  rw [← hmore, List.getElem?_append_left hlt, hk]

variable [DecidableEq X] (val : Option α)

/-! ## Accesses and their record -/

theorem perform_load (t : Side) (o : Order) (x : RingIndex) :
    perform cap t val i (.load o x) s =
      ((s.mem.history x i).value, { s with mem := s.mem.load t o x i }) := by
  simp [perform, note, Within, WeakMem.handle]

theorem perform_write_slot (t : Side) {k : ℕ} (hk : k < cap) (v : α) :
    perform cap t val i (.write (.slot k) v) s =
      ((), { s with mem := s.mem.write t (.slot k) v }) := by
  simp [perform, note, Within, WeakMem.handle, hk]

theorem perform_read_slot (t : Side) {k : ℕ} (hk : k < cap) :
    perform cap t val i (.read (.slot k)) s =
      (s.mem.data (.slot k), { s with mem := s.mem.read t (.slot k) }) := by
  simp [perform, note, Within, WeakMem.handle, hk]

theorem perform_store_write (t : Side) (v : V) :
    perform cap t val i (.store .write v) s =
      ((), { s with mem := s.mem.store t .write v, sent := s.sent ++ val.toList }) := by
  simp [perform, note, Within, WeakMem.handle]

theorem perform_store_read (t : Side) (v : V) :
    perform cap t val i (.store .read v) s =
      ((), { s with mem := s.mem.store t .read v, taken := s.taken + 1 }) := by
  simp [perform, note, Within, WeakMem.handle]

theorem perform_read_own (t : Side) (x : X) :
    perform cap t val i (.read (.own x)) s =
      (s.mem.data (.own x), { s with mem := s.mem.read t (.own x) }) := by
  simp [perform, note, Within, WeakMem.handle]

theorem perform_write_own (t : Side) (x : X) (v : β x) :
    perform cap t val i (.write (.own x) v) s =
      ((), { s with mem := s.mem.write t (.own x) v }) := by
  simp [perform, note, Within, WeakMem.handle]

/-! ## What comes of each access -/

/-- From `a`, an access of `t` has led to `b`. -/
structure Step (enc : ℕ → V) (cap : ℕ) (owner : X → Option Side) (legal : List α → Prop) (t : Side)
    (a b : RingShared V α X β) : Prop where
  inv : Inv enc cap owner legal b
  guar : Guar cap owner t a b

namespace Inv

theorem start {m : RingMem V α X β} (H : Handover enc cap m [] 0)
    (hown : ∀ x t, owner x = some t → m.Private t (.own x)) (hlegal : legal []) :
    Inv enc cap owner legal (RingShared.start m) :=
  ⟨H, hown, rfl, hlegal, List.prefix_rfl, Nat.zero_le _, List.prefix_rfl, Nat.zero_le _⟩

/-- The memory changes, and nothing of the record. -/
theorem of_mem (h : Inv enc cap owner legal s) {m : RingMem V α X β}
    (H : Handover enc cap m s.sent s.taken)
    (hown : ∀ x t, owner x = some t → m.Private t (.own x)) :
    Inv enc cap owner legal { s with mem := m } :=
  { h with handover := H, owned := hown }

theorem slot_lt (h : Inv enc cap owner legal s) (k : ℕ) : k % cap < cap :=
  Nat.mod_lt _ h.handover.pos

/-! ### The producer -/

theorem load_own_write (h : Inv enc cap owner legal s) (S : Sends cap s sent accepted q)
    (hi : WeakMem.Allowed .producer i (.load .relaxed .write) s.mem) :
    perform cap .producer val i (.load .relaxed .write) s = (enc (sent.length % cap), s) := by
  obtain rfl := S.sent
  rw [perform_load, h.handover.load_write hi, h.handover.eq_length_of_allowed hi,
    h.handover.writeIdx _ le_rfl]

/-- The producer loads the read index. -/
theorem load_read {o : Order} (h : Inv enc cap owner legal s)
    (hi : WeakMem.Allowed .producer i (.load o .read) s.mem) :
    Step enc cap owner legal .producer s { s with mem := s.mem.load .producer o .read i } := by
  have htaken : i ≤ s.taken := h.handover.reads ▸ hi.2
  refine ⟨h.of_mem (h.handover.load_read htaken) ?_, ⟨?_, fun _ _ _ _ => rfl⟩⟩
  · exact fun x t hx => (h.owned x t hx).load h.handover.wf hi.2
  · exact ⟨fun _ F => F.load, rfl, rfl, List.prefix_rfl⟩

/-- The producer writes the slot after the last value. -/
theorem write_slot (h : Inv enc cap owner legal s) (S : Sends cap s sent accepted q) (v : α) :
    Step enc cap owner legal .producer s
      { s with mem := s.mem.write .producer (.slot (sent.length % cap)) v } := by
  obtain ⟨rfl, -, F⟩ := S
  have hne : ∀ x, (Cell.own x : Cell X) ≠ .slot (s.sent.length % cap) := by simp
  refine ⟨h.of_mem (h.handover.write_slot F v).1 ?_, ⟨?_, ?_⟩⟩
  · exact fun x t hx => (h.owned x t hx).write_other (hne x) v
  · exact ⟨fun _ F => F.write h.handover v, rfl, rfl, List.prefix_rfl⟩
  · exact fun x _ _ _ => s.mem.write_data_other v (hne x)

/-- The producer publishes that slot. -/
theorem store_write (h : Inv enc cap owner legal s) (S : Sends cap s sent sent q)
    (hroom : sent.length + 1 < q + cap) {v : α}
    (hv : s.mem.data (.slot (sent.length % cap)) = v) (hlegal : legal (sent ++ [v])) :
    Step enc cap owner legal .producer s
      { s with
        mem := s.mem.store .producer .write (enc ((sent.length + 1) % cap))
        sent := s.sent ++ [v] } := by
  obtain ⟨hsent, haccepted, F⟩ := S
  subst hsent
  have htaken := h.handover.ring.le
  refine ⟨⟨(h.handover.store_write F hroom hv).1, ?_, h.checks, hlegal, ?_, ?_, ?_, h.carried⟩,
    ⟨⟨fun _ F => F.store _, rfl, rfl, List.prefix_append _ _⟩, fun _ _ _ _ => rfl⟩⟩
  · exact fun x t hx => (h.owned x t hx).store _
  · exact h.accepted.trans (List.prefix_append _ _)
  · simp [haccepted]
  · rw [List.take_append_of_le_length htaken]
    exact h.popped

/-- The producer's call returns. -/
theorem accept (h : Inv enc cap owner legal s) {v : α} (S : Sends cap s (sent ++ [v]) sent q) :
    Step enc cap owner legal .producer s { s with accepted := s.accepted ++ [v] } := by
  obtain ⟨hsent, haccepted, -⟩ := S
  refine ⟨⟨h.handover, h.owned, h.checks, h.legal, ?_, ?_, h.popped, h.carried⟩,
    ⟨⟨fun _ F => F, rfl, rfl, List.prefix_rfl⟩, fun _ _ _ _ => rfl⟩⟩
  · simp [haccepted, hsent]
  · simp [haccepted, hsent]

/-! ### The consumer -/

theorem load_own_read (h : Inv enc cap owner legal s) (T : Takes cap s taken popped w)
    (hi : WeakMem.Allowed .consumer i (.load .relaxed .read) s.mem) :
    perform cap .consumer val i (.load .relaxed .read) s = (enc (taken % cap), s) := by
  obtain rfl := T.taken
  rw [perform_load, h.handover.load_read_own hi, h.handover.eq_taken_of_allowed hi,
    h.handover.readIdx _ le_rfl]

/-- The consumer loads the write index. -/
theorem load_write {o : Order} (h : Inv enc cap owner legal s)
    (hi : WeakMem.Allowed .consumer i (.load o .write) s.mem) :
    Step enc cap owner legal .consumer s { s with mem := s.mem.load .consumer o .write i } := by
  have hsent : i ≤ s.sent.length := h.handover.writes ▸ hi.2
  refine ⟨h.of_mem (h.handover.load_write_other hsent) ?_, ⟨?_, fun _ _ _ _ => rfl⟩⟩
  · exact fun x t hx => (h.owned x t hx).load h.handover.wf hi.2
  · exact ⟨fun _ F => F.load, rfl, rfl, le_rfl, fun _ => rfl⟩

/-- The consumer reads the slot of the first value. -/
theorem read_slot (h : Inv enc cap owner legal s) (T : Takes cap s taken popped w)
    (hlt : taken < w) :
    Step enc cap owner legal .consumer s
      { s with mem := s.mem.read .consumer (.slot (taken % cap)) } := by
  obtain ⟨rfl, -, F⟩ := T
  have hw := h.handover.found_le F
  refine ⟨h.of_mem (h.handover.read_slot F hlt).1 ?_, ⟨?_, fun _ _ _ _ => rfl⟩⟩
  · exact fun x t hx => (h.owned x t hx).read_other (by simp)
  · exact ⟨fun _ F => F.read h.handover (by omega), rfl, rfl, le_rfl, fun _ => rfl⟩

/-- The consumer gives that slot back. -/
theorem store_read (h : Inv enc cap owner legal s) (T : Takes cap s taken popped w)
    (hlt : taken < w) (hpopped : popped.length = taken) :
    Step enc cap owner legal .consumer s
      { s with
        mem := s.mem.store .consumer .read (enc ((taken + 1) % cap))
        taken := s.taken + 1 } := by
  obtain ⟨rfl, rfl, F⟩ := T
  have htake : s.sent.take s.taken <+: s.sent.take (s.taken + 1) :=
    List.take_prefix_take_left (Nat.le_succ _)
  refine ⟨⟨(h.handover.store_read F hlt).1, ?_, h.checks, h.legal, h.accepted, h.pending,
    h.popped.trans htake, by simp [hpopped]⟩,
    ⟨⟨fun _ F => F.store _, rfl, rfl, Nat.le_succ _, fun _ => rfl⟩, fun _ _ _ _ => rfl⟩⟩
  exact fun x t hx => (h.owned x t hx).store _

/-- The consumer's call returns. -/
theorem give_back (h : Inv enc cap owner legal s) {v : α} (T : Takes cap s (taken + 1) popped w)
    (hpopped : popped.length = taken) (hv : s.sent[taken]? = some v) :
    Step enc cap owner legal .consumer s { s with popped := s.popped ++ [v] } := by
  obtain ⟨htaken, rfl, -⟩ := T
  have htake : s.popped = s.sent.take taken := by
    have hbegins := h.popped.trans (List.take_prefix _ _)
    rw [List.prefix_iff_eq_take.mp hbegins, hpopped]
  refine ⟨⟨h.handover, h.owned, h.checks, h.legal, h.accepted, h.pending, ?_, ?_⟩,
    ⟨⟨fun _ F => F, rfl, rfl, le_rfl, fun _ => rfl⟩, fun _ _ _ _ => rfl⟩⟩
  · rw [htaken, List.take_add_one, hv, htake]
    exact List.prefix_rfl
  · have hcarried := h.carried
    simp only [List.length_append, List.length_singleton]
    omega

/-! ### Both sides -/

/-- A side makes a check that passes. -/
theorem check (h : Inv enc cap owner legal s) (t : Side) {ok : Bool} (hok : ok = true) :
    Step enc cap owner legal t s { s with checks := s.checks && ok } := by
  subst hok
  rw [Bool.and_true]
  exact ⟨h, .refl t s⟩

theorem read_own (h : Inv enc cap owner legal s) {t : Side} {x : X}
    (hx : ∀ u, owner x = some u → u = t) :
    Step enc cap owner legal t s { s with mem := s.mem.read t (.own x) } := by
  have hsame := sameRing_read s.mem t x
  have hwf := h.handover.wf.read (t := t) (d := .own x)
  refine ⟨h.of_mem (h.handover.same hsame hwf) ?_, ⟨?_, fun _ _ _ _ => rfl⟩⟩
  · intro y u hy
    by_cases hyx : y = x
    · subst hyx
      obtain rfl := hx u hy
      exact (h.owned y u hy).read h.handover.wf
    · exact (h.owned y u hy).read_other (by simpa using hyx)
  · cases t with
    | producer => exact ⟨fun _ F => F.same hsame, rfl, rfl, List.prefix_rfl⟩
    | consumer => exact ⟨fun _ F => F.same hsame, rfl, rfl, le_rfl, fun _ => rfl⟩

theorem write_own (h : Inv enc cap owner legal s) {t : Side} {x : X}
    (hx : ∀ u, owner x = some u → u = t) (v : β x) :
    Step enc cap owner legal t s { s with mem := s.mem.write t (.own x) v } := by
  have hsame := sameRing_write s.mem t x v
  have hwf := h.handover.wf.write (t := t) (d := .own x) v
  have hcell : ∀ y, y ≠ x → (Cell.own y : Cell X) ≠ .own x := by simp
  refine ⟨h.of_mem (h.handover.same hsame hwf) ?_, ⟨?_, ?_⟩⟩
  · intro y u hy
    by_cases hyx : y = x
    · subst hyx
      obtain rfl := hx u hy
      exact (h.owned y u hy).write v
    · exact (h.owned y u hy).write_other (hcell y hyx) v
  · cases t with
    | producer => exact ⟨fun _ F => F.same hsame, rfl, rfl, List.prefix_rfl⟩
    | consumer => exact ⟨fun _ F => F.same hsame, rfl, rfl, le_rfl, hsame.slots⟩
  · intro y u hy hne
    have hyx : y ≠ x := by
      rintro rfl
      exact hne (hx u hy)
    exact s.mem.write_data_other v (hcell y hyx)

end Inv

/-! ## What the two sides learn -/

namespace Sends

theorem acquire (S : Sends cap s sent accepted q) (h : Inv enc cap owner legal s)
    (hi : WeakMem.Allowed .producer i (.load .acquire .read) s.mem) :
    Sends cap { s with mem := s.mem.load .producer .acquire .read i } sent accepted i :=
  ⟨S.sent, S.accepted, S.freed.acquire h.handover hi⟩

theorem relaxed (S : Sends cap s sent accepted q)
    (hi : WeakMem.Allowed .producer i (.load .relaxed .read) s.mem) :
    Sends cap { s with mem := s.mem.load .producer .relaxed .read i } sent accepted q :=
  ⟨S.sent, S.accepted, S.freed.relaxed hi⟩

theorem write_slot (S : Sends cap s sent accepted q) (h : Inv enc cap owner legal s) (v : α) :
    Sends cap { s with mem := s.mem.write .producer (.slot (sent.length % cap)) v } sent
      accepted q := by
  obtain ⟨rfl, haccepted, F⟩ := S
  exact ⟨rfl, haccepted, (h.handover.write_slot F v).2⟩

theorem store_write (S : Sends cap s sent accepted q) (h : Inv enc cap owner legal s)
    (hroom : sent.length + 1 < q + cap) {v : α}
    (hv : s.mem.data (.slot (sent.length % cap)) = v) :
    Sends cap { s with
      mem := s.mem.store .producer .write (enc ((sent.length + 1) % cap))
      sent := s.sent ++ [v] } (sent ++ [v]) accepted q := by
  obtain ⟨rfl, haccepted, F⟩ := S
  exact ⟨rfl, haccepted, (h.handover.store_write F hroom hv).2⟩

omit [DecidableEq X] in
theorem of_mem (S : Sends cap s sent accepted q) {m : RingMem V α X β} (hsame : SameRing s.mem m) :
    Sends cap { s with mem := m } sent accepted q :=
  ⟨S.sent, S.accepted, S.freed.same hsame⟩

end Sends

namespace Takes

theorem acquire (T : Takes cap s taken popped w) (h : Inv enc cap owner legal s)
    (hi : WeakMem.Allowed .consumer i (.load .acquire .write) s.mem) :
    Takes cap { s with mem := s.mem.load .consumer .acquire .write i } taken popped i :=
  ⟨T.taken, T.popped, T.found.acquire h.handover hi⟩

theorem read_slot (T : Takes cap s taken popped w) (h : Inv enc cap owner legal s)
    (hlt : taken < w) :
    Takes cap { s with mem := s.mem.read .consumer (.slot (taken % cap)) } taken popped w := by
  obtain ⟨rfl, hpopped, F⟩ := T
  exact ⟨rfl, hpopped, (h.handover.read_slot F hlt).2⟩

/-- What the consumer reads is the next value. -/
theorem data_slot (T : Takes cap s taken popped w) (h : Inv enc cap owner legal s)
    (hlt : taken < w) :
    s.sent[taken]? = some (s.mem.data (.slot (taken % cap))) := by
  obtain ⟨rfl, -, F⟩ := T
  exact h.handover.data_slot F hlt

theorem store_read (T : Takes cap s taken popped w) (h : Inv enc cap owner legal s)
    (hlt : taken < w) :
    Takes cap { s with
      mem := s.mem.store .consumer .read (enc ((taken + 1) % cap))
      taken := s.taken + 1 } (taken + 1) popped w := by
  obtain ⟨rfl, hpopped, F⟩ := T
  exact ⟨rfl, hpopped, (h.handover.store_read F hlt).2⟩

omit [DecidableEq X] in
theorem of_mem (T : Takes cap s taken popped w) {m : RingMem V α X β} (hsame : SameRing s.mem m) :
    Takes cap { s with mem := m } taken popped w :=
  ⟨T.taken, T.popped, T.found.same hsame⟩

end Takes

/-! ## The rule for one access -/

section Rule
variable {C R : Type} {M : Threads (RingSig V α X β) (RingShared V α X β) Side C R}

/-- The contract of ring code; `idle` is what each side knows between calls. -/
def contract (M : Threads (RingSig V α X β) (RingShared V α X β) Side C R) (enc : ℕ → V) (cap : ℕ)
    (owner : X → Option Side) (legal : List α → Prop) (idle : Side → RingShared V α X β → Prop) :
    Contract M :=
  ⟨Inv enc cap owner legal, Guar cap owner, idle⟩

/-- The calls of `M` access a ring; `val` is what a call sends. -/
structure Accesses (M : Threads (RingSig V α X β) (RingShared V α X β) Side C R) (cap : ℕ)
    (val : C → Option α) : Prop where
  handle : ∀ t c i, M.handle t c i = perform cap t (val c) i
  allowed : ∀ t i e s, M.allowed t i e s ↔ WeakMem.Allowed t i e s.mem

variable {idle : Side → RingShared V α X β → Prop} {call : C → Option α} {t : Side} {c : C}

theorem stable_of_guar {P : RingShared V α X β → Prop}
    (hP : ∀ a b, Guar cap owner t.other a b → P a → P b) :
    (contract M enc cap owner legal idle).Stable t P :=
  fun _ hu a b _ _ hguar => hP a b (Side.eq_other_of_ne hu ▸ hguar)

/-- What is known before an access survives the other side's steps, and the access is one of
those above. -/
theorem wp_access (hM : Accesses M cap call) {e : Access RingIndex (Cell X) V (Cell.Val α β)}
    {Q : e.Ans → RingShared V α X β → Prop} (P : RingShared V α X β → Prop)
    (hstable : ∀ a b, Guar cap owner t.other a b → P a → P b) (hinv : Inv enc cap owner legal s)
    (hs : P s)
    (hstep : ∀ s i, Inv enc cap owner legal s → P s → WeakMem.Allowed t i e s.mem →
      Step enc cap owner legal t s (perform cap t (call c) i e s).2 ∧
        Q (perform cap t (call c) i e s).1 (perform cap t (call c) i e s).2) :
    (contract M enc cap owner legal idle).Wp t c Q e.ask s := by
  refine Contract.Wp.ask (e := e) P (stable_of_guar hstable) hinv hs ?_
  intro s i hinv hs hi
  rw [hM.handle]
  obtain ⟨hnext, hQ⟩ := hstep s i hinv hs ((hM.allowed t i e s).mp hi)
  exact ⟨hnext.inv, hnext.guar, hQ⟩

end Rule
end RingShared
end Unid.Lib
