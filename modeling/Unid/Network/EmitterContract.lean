import Mathlib.Algebra.Group.Nat.Defs
import Mathlib.Data.List.Nodup
import Unid.Network.EventEmitter

/-!
# What the event emitter guarantees

Listeners are known to their owners by the id that `registerCallback` returned,
and ids come from a counter that wraps.  As long as fewer than `2 ^ 32` listeners
have been registered, ids are distinct and none is the error value; the listener
that is registered next is given that value (`session_proper_iff`).

## Main definitions

* `Session` — an emitter in use, with the ids given and the listeners registered.
* `Session.ProperRun` — every call of a run does what it should.
* `Session.Tracks` — the invariant.
-/

namespace Unid.Network
open Lib

/-- A step of a program that uses an emitter. -/
inductive EmitterOp (F : Type)
  | call (c : Call F)
  | emit (value : CInt)

/-- The step registers a listener. -/
def EmitterOp.registers {F : Type} : EmitterOp F → Bool
  | call c => c.registers
  | emit _ => false

/-- An emitter in use by callbacks that do not call back into it. -/
structure Session (F : Type) where
  host : Numbered F
  /-- The id each listener was given, by number. -/
  given : List CInt
  /-- The listeners registered and not since unregistered, in registration order. -/
  live : List ℕ

namespace Session
variable {F : Type}

def start : Session F := ⟨.new, [], []⟩

/-- `emit`: the emitter after it, what was called, and whether the loop ran to its end. -/
def emitted (s : Session F) (value : CInt) :
    (EventEmitter (F × ℕ) × List (ℕ × CInt)) × Bool :=
  EventEmitter.emit Prod.fst (fun f v t => (t.1, t.2 ++ [(f.2, v)])) value (s.host.emitter, [])

def next (grow : ℕ → ℕ) (s : Session F) : EmitterOp F → Session F
  | .call c =>
      { host := s.host.perform grow c
        given := if c.registers then s.given ++ (s.host.answer grow c).toList else s.given
        live := match c with
          | .registerCallback cb => if cb.isSome then s.live ++ [s.host.count] else s.live
          | .unregisterCallback id => s.live.filter (s.given[·]? ≠ some id) }
  | .emit value => { s with host := { s.host with emitter := (s.emitted value).1.1 } }

/-- What a step should do: `-1` is returned for an empty function only, an id unregisters the
listener that was given it and no other, and `emit` calls each registered listener once, in the
order of registration. -/
def Proper (grow : ℕ → ℕ) (s : Session F) : EmitterOp F → Prop
  | .call (.registerCallback cb) =>
      s.host.answer grow (.registerCallback cb) = some (-1) → cb = none
  | .call (.unregisterCallback id) =>
      (∀ i : ℕ, s.given[i]? = some id →
        (s.host.perform grow (.unregisterCallback id)).numbers = s.host.numbers.erase i) ∧
      ((∀ i : ℕ, s.given[i]? ≠ some id) →
        (s.host.perform grow (.unregisterCallback id)).numbers = s.host.numbers)
  | .emit value => (s.emitted value).1.2 = s.live.map (·, value) ∧ (s.emitted value).2 = true

/-- No two listeners have one id. -/
def IdsDistinct (s : Session F) : Prop := (s.host.emitter.listeners.elems.map (·.id)).Nodup

/-- Ids are distinct throughout a run, and each step does what it should. -/
def ProperRun (grow : ℕ → ℕ) : Session F → List (EmitterOp F) → Prop
  | s, [] => s.IdsDistinct
  | s, op :: ops => s.IdsDistinct ∧ s.Proper grow op ∧ (s.next grow op).ProperRun grow ops

/-! ## The invariant -/

/-- The id the listener with this number is given: the counter, which wraps. -/
def idOf (i : ℕ) : CInt := BitVec.ofNat 32 i

/-- The vector holds the registered listeners in order, each with the id it was given. -/
structure Tracks (s : Session F) : Prop where
  entries : s.host.emitter.listeners.elems.map (fun x => (x.id, x.func.2)) =
    s.live.map fun i => (idOf i, i)
  nextId : s.host.emitter.nextId = idOf s.host.count
  given : s.given = (List.range s.host.count).map idOf
  live : s.live.Sublist (List.range s.host.count)

theorem tracks_start : (start : Session F).Tracks := ⟨rfl, rfl, rfl, .refl _⟩

theorem idOf_inj {i j : ℕ} (hi : i < 2 ^ 32) (hj : j < 2 ^ 32) (h : idOf i = idOf j) : i = j := by
  have hnat := congrArg BitVec.toNat h
  simp only [idOf, BitVec.toNat_ofNat] at hnat
  rwa [Nat.mod_eq_of_lt hi, Nat.mod_eq_of_lt hj] at hnat

/-- The first listener that is given the error value. -/
theorem idOf_eq_neg_one_iff {i : ℕ} (hi : i < 2 ^ 32) : idOf i = -1 ↔ i + 1 = 2 ^ 32 := by
  rw [← BitVec.toNat_inj, idOf, BitVec.toNat_ofNat, Nat.mod_eq_of_lt hi]
  change i = 2 ^ 32 - 1 ↔ _
  omega

namespace Tracks
variable {s : Session F} (grow : ℕ → ℕ)

theorem numbers_eq (T : s.Tracks) : s.host.numbers = s.live := by
  have h := congrArg (List.map Prod.snd) T.entries
  simpa [Numbered.numbers, Function.comp_def] using h

theorem ids_eq (T : s.Tracks) :
    s.host.emitter.listeners.elems.map (·.id) = s.live.map idOf := by
  have h := congrArg (List.map Prod.fst) T.entries
  simpa [Function.comp_def] using h

theorem lt_count (T : s.Tracks) {i : ℕ} (hi : i ∈ s.live) : i < s.host.count :=
  List.mem_range.mp (T.live.subset hi)

theorem nodup (T : s.Tracks) : s.live.Nodup := T.live.nodup List.nodup_range

theorem given_eq_some (T : s.Tracks) {i : ℕ} {id : CInt} :
    s.given[i]? = some id ↔ i < s.host.count ∧ idOf i = id := by
  rw [T.given, List.getElem?_map]
  by_cases hi : i < s.host.count
  · simp [hi]
  · simp [hi]

theorem idsDistinct (T : s.Tracks) (hcount : s.host.count ≤ 2 ^ 32) : s.IdsDistinct := by
  rw [IdsDistinct, T.ids_eq]
  refine List.Nodup.map_on ?_ T.nodup
  intro i hi j hj h
  have hi' := T.lt_count hi
  have hj' := T.lt_count hj
  exact idOf_inj (by omega) (by omega) h

/-- A listener is appended with the next id and number. -/
theorem next_register_some (T : s.Tracks) (f : F) :
    (s.next grow (.call (.registerCallback (some f)))).Tracks := by
  refine ⟨?_, ?_, ?_, ?_⟩
  · change (s.host.emitter.listeners.pushBack grow _).elems.map _ = (s.live ++ [_]).map _
    rw [Vec.elems_pushBack, List.map_append, List.map_append, T.entries]
    simp [T.nextId]
  · change s.host.emitter.nextId + 1 = idOf (s.host.count + 1)
    rw [T.nextId, idOf, idOf, BitVec.ofNat_add]
    rfl
  · change s.given ++ [s.host.emitter.nextId] = (List.range (s.host.count + 1)).map idOf
    rw [T.given, T.nextId, List.range_succ, List.map_append]
    rfl
  · change (s.live ++ [s.host.count]).Sublist (List.range (s.host.count + 1))
    rw [List.range_succ]
    exact T.live.append (.refl _)

/-- The listeners that stay are those that were given another id. -/
theorem live_filter (T : s.Tracks) (id : CInt) :
    s.live.filter (s.given[·]? ≠ some id) = s.live.filter fun i => !(idOf i == id) := by
  refine List.filter_congr ?_
  intro i hi
  have hgiven : s.given[i]? = some id ↔ _ := T.given_eq_some
  rw [and_iff_right (T.lt_count hi)] at hgiven
  rw [Bool.eq_iff_iff]
  simp [hgiven]

/-- `unregisterCallback` keeps the listeners that were given another id, in order. -/
theorem next_unregister (T : s.Tracks) (id : CInt) :
    (s.next grow (.call (.unregisterCallback id))).Tracks := by
  refine ⟨?_, T.nextId, T.given, List.filter_sublist.trans T.live⟩
  calc ((s.host.emitter.listeners.elems.filter fun x => !(x.id == id)).map
          fun x => (x.id, x.func.2))
      = (s.host.emitter.listeners.elems.map fun x => (x.id, x.func.2)).filter
          fun x => !(x.1 == id) := by rw [List.filter_map]; rfl
    _ = (s.live.map fun i => (idOf i, i)).filter fun x => !(x.1 == id) := by rw [T.entries]
    _ = (s.live.filter fun i => !(idOf i == id)).map fun i => (idOf i, i) := by
          rw [List.filter_map]; rfl
    _ = (s.live.filter (s.given[·]? ≠ some id)).map fun i => (idOf i, i) := by
          rw [T.live_filter]

theorem emitted_eq (T : s.Tracks) (value : CInt) :
    s.emitted value = ((s.host.emitter, s.live.map (·, value)), true) := by
  have hfold : ∀ (l : List (CallbackEntry (F × ℕ))) (calls : List (ℕ × CInt)),
      l.foldl (fun (t : EventEmitter (F × ℕ) × List (ℕ × CInt)) entry =>
        (t.1, t.2 ++ [(entry.func.2, value)])) (s.host.emitter, calls) =
      (s.host.emitter, calls ++ l.map fun entry => (entry.func.2, value)) := by
    intro l
    induction l with
    | nil => simp
    | cons x l ih =>
        intro calls
        rw [List.foldl_cons, ih]
        simp
  refine (EventEmitter.emit_of_inert ?_ _).trans ?_
  · exact fun _ _ _ => rfl
  · rw [hfold, List.nil_append, ← T.numbers_eq, Numbered.numbers, List.map_map]
    rfl

theorem next_emit (T : s.Tracks) (value : CInt) : s.next grow (.emit value) = s := by
  rw [Session.next, T.emitted_eq]

/-- Any step keeps the invariant. -/
theorem next (T : s.Tracks) (op : EmitterOp F) : (s.next grow op).Tracks := by
  cases op with
  | call c =>
      cases c with
      | registerCallback cb =>
          cases cb with
          | none => exact T
          | some f => exact T.next_register_some grow f
      | unregisterCallback id => exact T.next_unregister grow id
  | emit value => rwa [T.next_emit grow]

/-- How many listeners have been registered. -/
theorem count_next (T : s.Tracks) (op : EmitterOp F) :
    (s.next grow op).host.count = s.host.count + if op.registers then 1 else 0 := by
  cases op with
  | call c =>
      cases c with
      | registerCallback cb => cases cb <;> rfl
      | unregisterCallback id => rfl
  | emit value =>
      rw [T.next_emit grow]
      rfl

/-! ## What each step does -/

/-- The counter is returned, which is the error value when it is about to wrap to zero. -/
theorem proper_register_iff (T : s.Tracks) (hcount : s.host.count < 2 ^ 32) (f : F) :
    s.Proper grow (.call (.registerCallback (some f))) ↔ s.host.count + 1 < 2 ^ 32 := by
  have hanswer : s.host.answer grow (.registerCallback (some f)) = some (idOf s.host.count) :=
    congrArg some T.nextId
  rw [Proper, hanswer, Option.some.injEq, idOf_eq_neg_one_iff hcount]
  simp only [reduceCtorEq, imp_false]
  omega

theorem proper_unregister (T : s.Tracks) (hcount : s.host.count ≤ 2 ^ 32) (id : CInt) :
    s.Proper grow (.call (.unregisterCallback id)) := by
  have hnumbers : (s.host.perform grow (.unregisterCallback id)).numbers =
      s.live.filter fun i => !(idOf i == id) := by
    rw [← T.live_filter]
    exact (T.next_unregister grow id).numbers_eq
  rw [Proper, hnumbers, T.numbers_eq]
  constructor
  · intro i hi
    obtain ⟨hi, rfl⟩ := T.given_eq_some.mp hi
    rw [T.nodup.erase_eq_filter]
    refine List.filter_congr ?_
    intro j hj
    have hj' := T.lt_count hj
    have hinj : idOf j = idOf i ↔ j = i :=
      ⟨idOf_inj (by omega) (by omega), fun h => h ▸ rfl⟩
    rw [Bool.eq_iff_iff]
    simp [hinj]
  · intro hnone
    rw [List.filter_eq_self]
    intro i hi
    have hne := mt T.given_eq_some.mpr (hnone i)
    simpa [T.lt_count hi] using hne

theorem proper_emit (T : s.Tracks) (value : CInt) : s.Proper grow (.emit value) := by
  rw [Proper, T.emitted_eq]
  exact ⟨rfl, rfl⟩

/-- A step that registers nothing does what it should. -/
theorem proper_of_not_registers (T : s.Tracks) (hcount : s.host.count ≤ 2 ^ 32)
    {op : EmitterOp F} (hop : op.registers = false) : s.Proper grow op := by
  cases op with
  | call c =>
      cases c with
      | registerCallback cb =>
          cases cb with
          | none => exact fun _ => rfl
          | some f => cases hop
      | unregisterCallback id => exact T.proper_unregister grow hcount id
  | emit value => exact T.proper_emit grow value

/-- A run does what it should exactly as long as the counter does not come to the error value. -/
theorem properRun_iff (T : s.Tracks) (hcount : s.host.count < 2 ^ 32)
    (ops : List (EmitterOp F)) :
    s.ProperRun grow ops ↔ s.host.count + ops.countP (·.registers) < 2 ^ 32 := by
  induction ops generalizing s with
  | nil => exact iff_of_true (T.idsDistinct (Nat.le_of_lt hcount)) hcount
  | cons op ops ih =>
      have hids := T.idsDistinct (Nat.le_of_lt hcount)
      have hnext := T.count_next grow op
      rw [ProperRun, List.countP_cons]
      cases hop : op.registers with
      | false =>
          rw [hop] at hnext
          have hproper : s.Proper grow op :=
            T.proper_of_not_registers grow (Nat.le_of_lt hcount) hop
          rw [ih (T.next grow op) (by simpa [hnext] using hcount), hnext]
          simp [hids, hproper]
      | true =>
          rw [hop] at hnext
          obtain ⟨f, rfl⟩ : ∃ f, op = .call (.registerCallback (some f)) := by
            cases op with
            | call c =>
                cases c with
                | registerCallback cb =>
                    cases cb with
                    | none => cases hop
                    | some f => exact ⟨f, rfl⟩
                | unregisterCallback id => cases hop
            | emit value => cases hop
          have hproper := T.proper_register_iff grow hcount f
          by_cases hroom : s.host.count + 1 < 2 ^ 32
          · rw [ih (T.next grow _) (by simpa [hnext] using hroom), hnext]
            simp only [hids, hproper, hroom, true_and, if_true]
            omega
          · simp only [hproper, hroom, false_and, and_false, if_true, false_iff]
            omega

end Tracks
end Session

/-- Whatever a program does with an emitter, ids are distinct and every call does what it should
if and only if the run registers fewer than `2 ^ 32` listeners. -/
theorem session_proper_iff {F : Type} (grow : ℕ → ℕ) (ops : List (EmitterOp F)) :
    (Session.start : Session F).ProperRun grow ops ↔ ops.countP (·.registers) < 2 ^ 32 := by
  have hiff := (Session.tracks_start (F := F)).properRun_iff grow (Nat.two_pow_pos 32) ops
  rwa [show (Session.start : Session F).host.count = 0 from rfl, Nat.zero_add] at hiff

/-- The listener with number `2 ^ 32 - 1` is registered, and its owner is told that it is not. -/
theorem last_id_is_error :
    ¬ (Session.start : Session Unit).ProperRun (fun n => 2 * n)
      (List.replicate (2 ^ 32) (.call (.registerCallback (some ())))) := by
  rw [Session.tracks_start.properRun_iff _ (Nat.two_pow_pos 32), List.countP_replicate]
  simp [EmitterOp.registers, Call.registers]

end Unid.Network
