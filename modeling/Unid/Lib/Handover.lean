import Unid.Lib.WeakMem
import Unid.Lib.Ring
import Mathlib.Data.Finset.Insert

/-!
# A ring between two threads

One thread fills the slots of a ring and publishes them through an index that it
alone stores; another empties them and gives them back through an index of its
own.  The slots are plain variables: that the two threads never meet in one
follows from what the releasing stores of the indices hand over.

Counting stores instead of indices, the producer knows of every read up to the
store of the read index it has acquired, and the consumer of every write up to the
store of the write index it has acquired.  `Handover` is what both keep,
`Freed` what the producer has learnt and `Found` what the consumer has.  Each
access of the one keeps what the other has learnt.

## Main definitions

* `Side`, `RingIndex`, `Cell`, `RingMem` — two threads, two indices, and the slots.
* `Handover` — the invariant.
* `Freed`, `Found` — what the two threads know.
-/

namespace Unid.Lib

inductive Side
  | producer
  | consumer
  deriving DecidableEq

instance : Fintype Side := ⟨{.producer, .consumer}, fun t => by cases t <;> decide⟩

def Side.other : Side → Side
  | producer => consumer
  | consumer => producer

theorem Side.eq_other_of_ne {t u : Side} (h : u ≠ t) : u = t.other := by
  cases t <;> cases u <;> first | rfl | exact absurd rfl h

/-- The two indices: the consumer stores the one, the producer the other. -/
inductive RingIndex
  | read
  | write
  deriving DecidableEq

/-- The plain variables: the slots, and others beside them. -/
inductive Cell (X : Type)
  | slot (i : ℕ)
  | own (x : X)
  deriving DecidableEq

abbrev Cell.Val {X : Type} (α : Type) (β : X → Type) : Cell X → Type
  | .slot _ => α
  | .own x => β x

abbrev RingMem (V α X : Type) (β : X → Type) :=
  WeakMem Side RingIndex (Cell X) V (Cell.Val α β)

section
variable {V α X : Type} {β : X → Type}

/-- The writes of the slots of the values from number `lo` up to `hi` are known. -/
def WritesKnown (m : RingMem V α X β) (cap lo hi : ℕ) (w : View Side RingIndex (Cell X)) : Prop :=
  ∀ j, lo ≤ j → j < hi → m.KnowsWrites w (.slot (j % cap))

/-- The consumer's reads of the slots for the values from number `lo` up to `hi` are known. -/
def ReadsKnown (m : RingMem V α X β) (cap lo hi : ℕ) (w : View Side RingIndex (Cell X)) : Prop :=
  ∀ j, lo ≤ j → j < hi →
    w (.read (.slot (j % cap)) .consumer) = m.now (.read (.slot (j % cap)) .consumer)

/-- `sent` has been published through `m`, and `taken` of it have been given back; `enc` turns a
slot number into an index. -/
structure Handover (enc : ℕ → V) (cap : ℕ) (m : RingMem V α X β) (sent : List α) (taken : ℕ) :
    Prop where
  wf : m.Wf
  ring : Ring (fun i => m.data (.slot i)) cap taken sent
  writes : m.now (.seen .write) = sent.length
  reads : m.now (.seen .read) = taken
  writeIdx : ∀ k ≤ sent.length, (m.history .write k).value = enc (k % cap)
  readIdx : ∀ k ≤ taken, (m.history .read k).value = enc (k % cap)
  ownWrite : m.view .producer (.seen .write) = sent.length
  ownRead : m.view .consumer (.seen .read) = taken
  wrote : ∀ i, m.KnowsWrites (m.view .producer) (.slot i)
  published : ∀ k ≤ sent.length, WritesKnown m cap taken k (m.history .write k).view
  released : ∀ k ≤ taken, ReadsKnown m cap sent.length (k + cap) (m.history .read k).view
  quiet : ∀ i, m.raced (.slot i) = false

/-- The producer has acquired that `q` values were given back. -/
structure Freed (cap : ℕ) (m : RingMem V α X β) (sent : List α) (q : ℕ) : Prop where
  seen : q ≤ m.view .producer (.seen .read)
  room : sent.length < q + cap
  reads : ReadsKnown m cap sent.length (q + cap) (m.view .producer)

/-- The consumer has acquired that `w` values were published. -/
structure Found (cap : ℕ) (m : RingMem V α X β) (taken w : ℕ) : Prop where
  seen : w ≤ m.view .consumer (.seen .write)
  le : taken ≤ w
  writes : WritesKnown m cap taken w (m.view .consumer)

/-- Not about a variable beside the slots. -/
def Coord.OfRing : Coord Side RingIndex (Cell X) → Prop
  | .seen _ => True
  | .wrote d | .read d _ => ∃ i, d = .slot i

theorem Coord.ofRing_seen (a : RingIndex) :
    (Coord.seen a : Coord Side RingIndex (Cell X)).OfRing := trivial

theorem Coord.ofRing_wrote (i : ℕ) :
    (Coord.wrote (.slot i) : Coord Side RingIndex (Cell X)).OfRing := ⟨i, rfl⟩

theorem Coord.ofRing_read (i : ℕ) (t : Side) :
    (Coord.read (.slot i) t : Coord Side RingIndex (Cell X)).OfRing := ⟨i, rfl⟩

/-- The same ring, seen the same way by both. -/
structure SameRing (m m' : RingMem V α X β) : Prop where
  history : m'.history = m.history
  slots : ∀ i, m'.data (.slot i) = m.data (.slot i)
  now : ∀ x : Coord Side RingIndex (Cell X), x.OfRing → m'.now x = m.now x
  view : ∀ t, ∀ x : Coord Side RingIndex (Cell X), x.OfRing → m'.view t x = m.view t x
  raced : ∀ i, m'.raced (.slot i) = m.raced (.slot i)

variable {enc : ℕ → V} {cap : ℕ} {m m' : RingMem V α X β} {sent : List α} {taken q w i : ℕ}

/-- Two values less than a lap apart lie in different slots. -/
theorem slot_ne_of_lt {j k : ℕ} (hlt : j < k) (hlap : k < j + cap) : k % cap ≠ j % cap := by
  intro heq
  rcases (mod_eq_mod_iff_of_lap hlt.le hlap.le).mp heq with h | h <;> omega

/-! ## An empty ring -/

theorem handover_init {value : RingIndex → V} (hcap : 0 < cap) (hvalue : ∀ a, value a = enc 0)
    (data : (d : Cell X) → Cell.Val α β d) :
    Handover enc cap (WeakMem.init value data : RingMem V α X β) [] 0 where
  wf := WeakMem.wf_init value data
  ring := ⟨hcap, le_rfl, by simpa using hcap, nofun⟩
  writes := rfl
  reads := rfl
  writeIdx k hk := by
    obtain rfl := Nat.le_zero.mp hk
    rw [Nat.zero_mod]
    exact hvalue _
  readIdx k hk := by
    obtain rfl := Nat.le_zero.mp hk
    rw [Nat.zero_mod]
    exact hvalue _
  ownWrite := rfl
  ownRead := rfl
  wrote _ := rfl
  published _ _ _ _ _ := rfl
  released _ _ _ _ _ := rfl
  quiet _ := rfl

theorem freed_init {value : RingIndex → V} (hcap : 0 < cap)
    (data : (d : Cell X) → Cell.Val α β d) :
    Freed cap (WeakMem.init value data : RingMem V α X β) ([] : List α) 0 :=
  ⟨le_rfl, by simpa using hcap, fun _ _ _ => rfl⟩

theorem found_init {value : RingIndex → V} (data : (d : Cell X) → Cell.Val α β d) :
    Found cap (WeakMem.init value data : RingMem V α X β) 0 0 :=
  ⟨le_rfl, le_rfl, fun _ _ _ => rfl⟩

/-! ## Reading the invariant -/

namespace Handover

theorem pos (H : Handover enc cap m sent taken) : 0 < cap := H.ring.pos

/-- What the producer has acquired is not more than was given back. -/
theorem freed_le (H : Handover enc cap m sent taken) (F : Freed cap m sent q) : q ≤ taken :=
  H.reads ▸ F.seen.trans (H.wf.view_le .producer _)

theorem found_le (H : Handover enc cap m sent taken) (F : Found cap m taken w) :
    w ≤ sent.length :=
  H.writes ▸ F.seen.trans (H.wf.view_le .consumer _)

/-- The producer's own index is the newest. -/
theorem eq_length_of_allowed {o : Order} (H : Handover enc cap m sent taken)
    (hi : WeakMem.Allowed .producer i (.load o .write) m) : i = sent.length := by
  have hlo := hi.1
  have hhi := hi.2
  rw [H.ownWrite] at hlo
  rw [H.writes] at hhi
  omega

/-- The consumer's own index is the newest. -/
theorem eq_taken_of_allowed {o : Order} (H : Handover enc cap m sent taken)
    (hi : WeakMem.Allowed .consumer i (.load o .read) m) : i = taken := by
  have hlo := hi.1
  have hhi := hi.2
  rw [H.ownRead] at hlo
  rw [H.reads] at hhi
  omega

/-- The value the consumer reads. -/
theorem data_slot (H : Handover enc cap m sent taken) (F : Found cap m taken w) (hlt : taken < w) :
    sent[taken]? = some (m.data (.slot (taken % cap))) := by
  have hw := H.found_le F
  have hin : taken < sent.length := by omega
  rw [List.getElem?_eq_getElem hin]
  exact congrArg some (H.ring.holds taken hin le_rfl).symm

end Handover

/-! ### Accesses beside the slots -/

theorem Handover.same (H : Handover enc cap m sent taken) (S : SameRing m m') (hwf : m'.Wf) :
    Handover enc cap m' sent taken := by
  have hdata : (fun i => m'.data (.slot i)) = fun i => m.data (.slot i) := funext S.slots
  refine ⟨hwf, hdata ▸ H.ring, ?_, ?_, ?_, ?_, ?_, ?_, ?_, ?_, ?_, ?_⟩
  · exact (S.now _ (Coord.ofRing_seen _)).trans H.writes
  · exact (S.now _ (Coord.ofRing_seen _)).trans H.reads
  · rw [S.history]
    exact H.writeIdx
  · rw [S.history]
    exact H.readIdx
  · exact (S.view _ _ (Coord.ofRing_seen _)).trans H.ownWrite
  · exact (S.view _ _ (Coord.ofRing_seen _)).trans H.ownRead
  · intro i
    exact (S.view _ _ (Coord.ofRing_wrote i)).trans
      ((H.wrote i).trans (S.now _ (Coord.ofRing_wrote i)).symm)
  · intro k hk j hlo hhi
    rw [S.history]
    exact (H.published k hk j hlo hhi).trans (S.now _ (Coord.ofRing_wrote _)).symm
  · intro k hk j hlo hhi
    rw [S.history]
    exact (H.released k hk j hlo hhi).trans (S.now _ (Coord.ofRing_read _ _)).symm
  · intro i
    exact (S.raced i).trans (H.quiet i)

theorem Freed.same (F : Freed cap m sent q) (S : SameRing m m') : Freed cap m' sent q := by
  refine ⟨F.seen.trans_eq (S.view _ _ (Coord.ofRing_seen _)).symm, F.room, ?_⟩
  intro j hlo hhi
  exact (S.view _ _ (Coord.ofRing_read _ _)).trans
    ((F.reads j hlo hhi).trans (S.now _ (Coord.ofRing_read _ _)).symm)

theorem Found.same (F : Found cap m taken w) (S : SameRing m m') : Found cap m' taken w := by
  refine ⟨F.seen.trans_eq (S.view _ _ (Coord.ofRing_seen _)).symm, F.le, ?_⟩
  intro j hlo hhi
  exact (S.view _ _ (Coord.ofRing_wrote _)).trans
    ((F.writes j hlo hhi).trans (S.now _ (Coord.ofRing_wrote _)).symm)

variable [DecidableEq X]

theorem sameRing_read (m : RingMem V α X β) (t : Side) (x : X) :
    SameRing m (m.read t (.own x)) := by
  have hne : ∀ y : Coord Side RingIndex (Cell X), y.OfRing → y ≠ .read (.own x) t := by
    rintro _ hy rfl
    obtain ⟨i, hi⟩ := hy
    cases hi
  exact ⟨rfl, fun _ => rfl, fun y hy => m.read_now_of_ne (hne y hy),
    fun u y hy => m.read_view_of_ne (hne y hy), fun i => m.read_raced_other (by simp)⟩

theorem sameRing_write (m : RingMem V α X β) (t : Side) (x : X) (w : β x) :
    SameRing m (m.write t (.own x) w) := by
  have hne : ∀ y : Coord Side RingIndex (Cell X), y.OfRing → y ≠ .wrote (.own x) := by
    rintro _ hy rfl
    obtain ⟨i, hi⟩ := hy
    cases hi
  have hslot : ∀ i, (Cell.slot i : Cell X) ≠ .own x := by simp
  exact ⟨rfl, fun i => m.write_data_other _ (hslot i), fun y hy => m.write_now_of_ne _ (hne y hy),
    fun u y hy => m.write_view_of_ne _ (hne y hy), fun i => m.write_raced_other _ (hslot i)⟩

/-! ## The producer's accesses -/

namespace Handover

/-- The producer loads its own index. -/
theorem load_write (H : Handover enc cap m sent taken)
    (hi : WeakMem.Allowed .producer i (.load .relaxed .write) m) :
    m.load .producer .relaxed .write i = m :=
  m.load_relaxed_seen (by rw [H.ownWrite, H.eq_length_of_allowed hi])

/-- The producer loads the consumer's index. -/
theorem load_read {o : Order} (H : Handover enc cap m sent taken) (hi : i ≤ taken) :
    Handover enc cap (m.load .producer o .read i) sent taken := by
  have hnow : i ≤ m.now (.seen .read) := H.reads ▸ hi
  refine { H with wf := H.wf.load hnow, ownWrite := ?_, ownRead := ?_, wrote := ?_ }
  · rw [WeakMem.load_view_self, H.wf.learn_eq_now hnow (.inl (by simp)), H.writes]
    rw [H.ownWrite, H.writes]
  · rw [WeakMem.load_view_of_ne _ (by simp)]
    exact H.ownRead
  · intro k
    rw [WeakMem.load_view_self]
    exact H.wf.learn_eq_now hnow (.inl (by simp)) (H.wrote k)

/-- The producer writes the slot after the last value. -/
theorem write_slot (H : Handover enc cap m sent taken) (F : Freed cap m sent q) (v : α) :
    Handover enc cap (m.write .producer (.slot (sent.length % cap)) v) sent taken ∧
      Freed cap (m.write .producer (.slot (sent.length % cap)) v) sent q := by
  have hknown : m.KnowsReads (m.view .producer) (.slot (sent.length % cap)) := by
    intro u
    cases u with
    | producer => exact H.wf.own .producer _
    | consumer => exact F.reads sent.length le_rfl F.room
  have hlt := H.ring.lt
  refine ⟨{ H with
    wf := H.wf.write (d := .slot (sent.length % cap)) v
    ring := H.ring.write ?_
    writes := ?_, reads := ?_, ownWrite := ?_, ownRead := ?_, wrote := ?_, published := ?_
    released := ?_, quiet := ?_ }, ⟨?_, F.room, ?_⟩⟩
  · intro k hk
    have hne : (Cell.slot k : Cell X) ≠ .slot (sent.length % cap) := by simpa using hk
    exact m.write_data_other v hne
  · exact (m.write_now_of_ne v (by simp)).trans H.writes
  · exact (m.write_now_of_ne v (by simp)).trans H.reads
  · exact (m.write_view_of_ne v (by simp)).trans H.ownWrite
  · exact (m.write_view_of_ne v (by simp)).trans H.ownRead
  · intro k
    by_cases hk : k = sent.length % cap
    · subst hk
      exact m.write_known_self v
    · have hne : (Coord.wrote (.slot k) : Coord Side RingIndex (Cell X)) ≠
          .wrote (.slot (sent.length % cap)) := by simpa using hk
      exact (m.write_view_of_ne v hne).trans ((H.wrote k).trans (m.write_now_of_ne v hne).symm)
  · intro k hk j hlo hhi
    have hne : sent.length % cap ≠ j % cap := slot_ne_of_lt (by omega) (by omega)
    exact (H.published k hk j hlo hhi).trans (m.write_now_of_ne v (by simpa using hne.symm)).symm
  · intro k hk j hlo hhi
    exact (H.released k hk j hlo hhi).trans (m.write_now_of_ne v (by simp)).symm
  · intro k
    rw [m.write_raced v (H.wrote _) hknown]
    exact H.quiet k
  · exact F.seen.trans_eq (m.write_view_of_ne v (by simp)).symm
  · intro j hlo hhi
    exact (m.write_view_of_ne v (by simp)).trans
      ((F.reads j hlo hhi).trans (m.write_now_of_ne v (by simp)).symm)

/-- The producer publishes the slot after the last value. -/
theorem store_write (H : Handover enc cap m sent taken) (F : Freed cap m sent q)
    (hroom : sent.length + 1 < q + cap) {v : α} (hv : m.data (.slot (sent.length % cap)) = v) :
    Handover enc cap (m.store .producer .write (enc ((sent.length + 1) % cap))) (sent ++ [v])
        taken ∧
      Freed cap (m.store .producer .write (enc ((sent.length + 1) % cap))) (sent ++ [v]) q := by
  have hq := H.freed_le F
  have hlen : (sent ++ [v]).length = sent.length + 1 := by simp
  have hnew := m.store_history_new (t := .producer) (a := .write) (enc ((sent.length + 1) % cap))
  rw [H.writes] at hnew
  have hold : ∀ k ≤ sent.length, (m.store .producer .write (enc ((sent.length + 1) % cap))).history
      .write k = m.history .write k := fun k hk => m.store_history_old _ (H.writes ▸ hk)
  have hread : (m.store .producer .write (enc ((sent.length + 1) % cap))).history .read =
      m.history .read := m.store_history_other _ (by simp)
  have hwrote : ∀ k, (m.store .producer .write (enc ((sent.length + 1) % cap))).KnowsWrites
      ((m.store .producer .write (enc ((sent.length + 1) % cap))).view .producer) (.slot k) :=
    fun k => (m.store_view_of_ne _ (by simp)).trans
      ((H.wrote k).trans (m.store_now_of_ne _ (by simp)).symm)
  refine ⟨⟨H.wf.store _, H.ring.push (by omega) hv, ?_, ?_, ?_, ?_, ?_, ?_, hwrote, ?_, ?_,
      H.quiet⟩,
    ⟨?_, by rw [hlen]; exact hroom, ?_⟩⟩
  · rw [hlen]
    exact (m.store_now_self _).trans (by rw [H.writes])
  · exact (m.store_now_of_ne _ (by simp)).trans H.reads
  · intro k hk
    rw [hlen] at hk
    rcases Nat.le_or_eq_of_le_succ hk with hk | rfl
    · rw [hold k hk]
      exact H.writeIdx k hk
    · rw [hnew]
  · intro k hk
    rw [hread]
    exact H.readIdx k hk
  · rw [hlen]
    exact (m.store_view_self _).trans (by rw [H.writes])
  · exact (m.store_view_of_ne _ (by simp)).trans H.ownRead
  · intro k hk j hlo hhi
    rw [hlen] at hk
    rcases Nat.le_or_eq_of_le_succ hk with hk | rfl
    · rw [hold k hk]
      exact (H.published k hk j hlo hhi).trans (m.store_now_of_ne _ (by simp)).symm
    · rw [hnew]
      exact hwrote _
  · intro k hk j hlo hhi
    rw [hread]
    rw [hlen] at hlo
    exact (H.released k hk j (by omega) hhi).trans (m.store_now_of_ne _ (by simp)).symm
  · exact F.seen.trans_eq (m.store_view_of_ne _ (by simp)).symm
  · intro j hlo hhi
    rw [hlen] at hlo
    exact (m.store_view_of_ne _ (by simp)).trans
      ((F.reads j (by omega) hhi).trans (m.store_now_of_ne _ (by simp)).symm)

/-! ## The consumer's accesses -/

/-- The consumer loads its own index. -/
theorem load_read_own (H : Handover enc cap m sent taken)
    (hi : WeakMem.Allowed .consumer i (.load .relaxed .read) m) :
    m.load .consumer .relaxed .read i = m :=
  m.load_relaxed_seen (by rw [H.ownRead, H.eq_taken_of_allowed hi])

/-- The consumer loads the producer's index. -/
theorem load_write_other {o : Order} (H : Handover enc cap m sent taken) (hi : i ≤ sent.length) :
    Handover enc cap (m.load .consumer o .write i) sent taken := by
  have hnow : i ≤ m.now (.seen .write) := H.writes ▸ hi
  have hproducer : (m.load .consumer o .write i).view .producer = m.view .producer :=
    m.load_view_of_ne (by simp)
  refine { H with wf := H.wf.load hnow, ownWrite := ?_, ownRead := ?_, wrote := ?_ }
  · rw [hproducer]
    exact H.ownWrite
  · rw [WeakMem.load_view_self, H.wf.learn_eq_now hnow (.inl (by simp)), H.reads]
    rw [H.ownRead, H.reads]
  · rw [hproducer]
    exact H.wrote

/-- The consumer reads the slot of the first value. -/
theorem read_slot (H : Handover enc cap m sent taken) (F : Found cap m taken w) (hlt : taken < w) :
    Handover enc cap (m.read .consumer (.slot (taken % cap))) sent taken ∧
      Found cap (m.read .consumer (.slot (taken % cap))) taken w := by
  have hw := H.found_le F
  refine ⟨{ H with
    wf := H.wf.read
    writes := ?_, reads := ?_, ownWrite := ?_, ownRead := ?_, wrote := ?_, published := ?_
    released := ?_, quiet := ?_ }, ⟨?_, F.le, ?_⟩⟩
  · exact (m.read_now_of_ne (by simp)).trans H.writes
  · exact (m.read_now_of_ne (by simp)).trans H.reads
  · exact (m.read_view_of_ne (by simp)).trans H.ownWrite
  · exact (m.read_view_of_ne (by simp)).trans H.ownRead
  · intro k
    exact (m.read_view_of_ne (by simp)).trans
      ((H.wrote k).trans (m.read_now_of_ne (by simp)).symm)
  · intro k hk j hlo hhi
    exact (H.published k hk j hlo hhi).trans (m.read_now_of_ne (by simp)).symm
  · intro k hk j hlo hhi
    have hne : j % cap ≠ taken % cap := slot_ne_of_lt (by omega) (by omega)
    exact (H.released k hk j hlo hhi).trans (m.read_now_of_ne (by simpa using hne)).symm
  · intro k
    rw [m.read_raced (F.writes taken le_rfl hlt)]
    exact H.quiet k
  · exact F.seen.trans_eq (m.read_view_of_ne (by simp)).symm
  · intro j hlo hhi
    exact (m.read_view_of_ne (by simp)).trans
      ((F.writes j hlo hhi).trans (m.read_now_of_ne (by simp)).symm)

/-- The consumer gives the slot of the first value back. -/
theorem store_read (H : Handover enc cap m sent taken) (F : Found cap m taken w)
    (hlt : taken < w) :
    Handover enc cap (m.store .consumer .read (enc ((taken + 1) % cap))) sent (taken + 1) ∧
      Found cap (m.store .consumer .read (enc ((taken + 1) % cap))) (taken + 1) w := by
  have hw := H.found_le F
  have hnew := m.store_history_new (t := .consumer) (a := .read) (enc ((taken + 1) % cap))
  rw [H.reads] at hnew
  have hold : ∀ k ≤ taken, (m.store .consumer .read (enc ((taken + 1) % cap))).history .read k =
      m.history .read k := fun k hk => m.store_history_old _ (H.reads ▸ hk)
  have hwrite : (m.store .consumer .read (enc ((taken + 1) % cap))).history .write =
      m.history .write := m.store_history_other _ (by simp)
  have hwf : (m.store .consumer .read (enc ((taken + 1) % cap))).Wf := H.wf.store _
  refine ⟨⟨hwf, H.ring.pop (by omega), ?_, ?_, ?_, ?_, ?_, ?_, ?_, ?_, ?_, H.quiet⟩,
    ⟨?_, hlt, ?_⟩⟩
  · exact (m.store_now_of_ne _ (by simp)).trans H.writes
  · exact (m.store_now_self _).trans (by rw [H.reads])
  · intro k hk
    rw [hwrite]
    exact H.writeIdx k hk
  · intro k hk
    rcases Nat.le_or_eq_of_le_succ hk with hk | rfl
    · rw [hold k hk]
      exact H.readIdx k hk
    · rw [hnew]
  · exact (m.store_view_of_ne _ (by simp)).trans H.ownWrite
  · exact (m.store_view_self _).trans (by rw [H.reads])
  · intro k
    exact (m.store_view_of_ne _ (by simp)).trans
      ((H.wrote k).trans (m.store_now_of_ne _ (by simp)).symm)
  · intro k hk j hlo hhi
    rw [hwrite]
    exact (H.published k hk j (by omega) hhi).trans (m.store_now_of_ne _ (by simp)).symm
  · intro k hk j hlo hhi
    rcases Nat.le_or_eq_of_le_succ hk with hk | rfl
    · rw [hold k hk]
      exact (H.released k hk j hlo hhi).trans (m.store_now_of_ne _ (by simp)).symm
    · rw [hnew]
      exact hwf.own .consumer _
  · exact F.seen.trans_eq (m.store_view_of_ne _ (by simp)).symm
  · intro j hlo hhi
    exact (m.store_view_of_ne _ (by simp)).trans
      ((F.writes j (by omega) hhi).trans (m.store_now_of_ne _ (by simp)).symm)

end Handover

/-! ## What the producer knows -/

namespace Freed

/-- Acquiring the consumer's index brings its reads. -/
theorem acquire (F : Freed cap m sent q) (H : Handover enc cap m sent taken)
    (hi : WeakMem.Allowed .producer i (.load .acquire .read) m) :
    Freed cap (m.load .producer .acquire .read i) sent i := by
  have hseen := F.seen.trans hi.1
  have htaken : i ≤ taken := H.reads ▸ hi.2
  refine ⟨?_, F.room.trans_le (by omega), ?_⟩
  · rw [WeakMem.load_view_self, H.wf.learn_seen hi.1 hi.2]
  · intro j hlo hhi
    rw [WeakMem.load_view_self]
    exact H.wf.learn_message hi.2 (H.released i htaken j hlo hhi)

/-- A relaxed load brings nothing. -/
theorem relaxed (F : Freed cap m sent q)
    (hi : WeakMem.Allowed .producer i (.load .relaxed .read) m) :
    Freed cap (m.load .producer .relaxed .read i) sent q := by
  refine ⟨?_, F.room, ?_⟩
  · rw [WeakMem.load_view_self, WeakMem.learn, Function.update_self]
    exact F.seen.trans hi.1
  · intro j hlo hhi
    rw [WeakMem.load_view_self, WeakMem.learn, Function.update_of_ne (by simp)]
    exact F.reads j hlo hhi

/-- The consumer loads an index. -/
theorem load (F : Freed cap m sent q) {o : Order} {a : RingIndex} :
    Freed cap (m.load .consumer o a i) sent q := by
  have hview : (m.load .consumer o a i).view .producer = m.view .producer :=
    m.load_view_of_ne (by simp)
  refine ⟨hview ▸ F.seen, F.room, ?_⟩
  intro j hlo hhi
  rw [hview]
  exact F.reads j hlo hhi

/-- The consumer reads a slot that the producer does not count as free. -/
theorem read (F : Freed cap m sent q) (H : Handover enc cap m sent taken)
    (hlt : taken < sent.length) : Freed cap (m.read .consumer (.slot (taken % cap))) sent q := by
  have hq := H.freed_le F
  refine ⟨F.seen.trans_eq (m.read_view_of_ne (by simp)).symm, F.room, ?_⟩
  intro j hlo hhi
  have hne : j % cap ≠ taken % cap := slot_ne_of_lt (by omega) (by omega)
  exact (m.read_view_of_ne (by simpa using hne)).trans
    ((F.reads j hlo hhi).trans (m.read_now_of_ne (by simpa using hne)).symm)

/-- The consumer stores its index. -/
theorem store (F : Freed cap m sent q) (v : V) : Freed cap (m.store .consumer .read v) sent q := by
  have hview : (m.store .consumer .read v).view .producer = m.view .producer :=
    m.store_view_other v (by simp)
  refine ⟨hview ▸ F.seen, F.room, ?_⟩
  intro j hlo hhi
  rw [hview]
  exact (F.reads j hlo hhi).trans (m.store_now_of_ne _ (by simp)).symm

end Freed

/-! ## What the consumer knows -/

namespace Found

/-- Acquiring the producer's index brings its writes. -/
theorem acquire (F : Found cap m taken w) (H : Handover enc cap m sent taken)
    (hi : WeakMem.Allowed .consumer i (.load .acquire .write) m) :
    Found cap (m.load .consumer .acquire .write i) taken i := by
  have hseen := F.seen.trans hi.1
  have hsent : i ≤ sent.length := H.writes ▸ hi.2
  refine ⟨?_, F.le.trans hseen, ?_⟩
  · rw [WeakMem.load_view_self, H.wf.learn_seen hi.1 hi.2]
  · intro j hlo hhi
    rw [WeakMem.load_view_self]
    exact H.wf.learn_message hi.2 (H.published i hsent j hlo hhi)

/-- The producer loads an index. -/
theorem load (F : Found cap m taken w) {o : Order} {a : RingIndex} :
    Found cap (m.load .producer o a i) taken w := by
  have hview : (m.load .producer o a i).view .consumer = m.view .consumer :=
    m.load_view_of_ne (by simp)
  refine ⟨hview ▸ F.seen, F.le, ?_⟩
  intro j hlo hhi
  rw [hview]
  exact F.writes j hlo hhi

/-- The producer writes the slot after the last value. -/
theorem write (F : Found cap m taken w) (H : Handover enc cap m sent taken) (v : α) :
    Found cap (m.write .producer (.slot (sent.length % cap)) v) taken w := by
  have hw := H.found_le F
  have hlt := H.ring.lt
  refine ⟨F.seen.trans_eq (m.write_view_of_ne v (by simp)).symm, F.le, ?_⟩
  intro j hlo hhi
  have hne : j % cap ≠ sent.length % cap := (slot_ne_of_lt (by omega) (by omega)).symm
  exact (m.write_view_of_ne v (by simpa using hne)).trans
    ((F.writes j hlo hhi).trans (m.write_now_of_ne v (by simpa using hne)).symm)

/-- The producer stores its index. -/
theorem store (F : Found cap m taken w) (v : V) :
    Found cap (m.store .producer .write v) taken w := by
  have hview : (m.store .producer .write v).view .consumer = m.view .consumer :=
    m.store_view_other v (by simp)
  refine ⟨hview ▸ F.seen, F.le, ?_⟩
  intro j hlo hhi
  rw [hview]
  exact (F.writes j hlo hhi).trans (m.store_now_of_ne _ (by simp)).symm

end Found
end
end Unid.Lib
