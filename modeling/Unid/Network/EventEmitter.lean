import Unid.Lib.Vec

/-!
# The event emitter

`EventEmitter` of `event_emitter.hpp`, the same in client and server.  Listeners
are kept in a vector in the order of registration; `emit` calls each in turn, by
a range-based loop whose iterators are taken before the first call.  What a
callback does is up to the program: `emit` is generic in a state that contains
the vector and in what a call does to that state.

So that one listener can be told from another, whatever functions and ids they
have, a `Numbered` emitter gives each a number of its own, in the order of
registration.

## Main definitions

* `EventEmitter`, `registerCallback`, `unregisterCallback`, `emit` — the class.
* `Call` — a call of the first two methods.
* `Numbered` — an emitter with numbered listeners.
-/

namespace Unid.Network
open Lib

/-- An `int`. -/
abbrev CInt := BitVec 32

structure CallbackEntry (F : Type) where
  id : CInt
  func : F

structure EventEmitter (F : Type) where
  listeners : Vec (CallbackEntry F)
  nextId : CInt

namespace EventEmitter
variable {F σ : Type}

/-- A new emitter. -/
def new : EventEmitter F := ⟨.empty, 0⟩

/-- `registerCallback`: the id, and the emitter after it; an empty `std::function` is `none`. -/
def registerCallback (grow : ℕ → ℕ) (e : EventEmitter F) (cb : Option F) :
    CInt × EventEmitter F :=
  match cb with
  | none => (-1, e)
  | some f => (e.nextId, ⟨e.listeners.pushBack grow ⟨e.nextId, f⟩, e.nextId + 1⟩)

def unregisterCallback (e : EventEmitter F) (id : CInt) : EventEmitter F :=
  { e with listeners := e.listeners.removeIf (·.id == id) }

section Emit
variable (emitter : σ → EventEmitter F) (call : F → CInt → σ → σ) (value : CInt)

/-- The loop of `emit`, with `k` positions of the storage `st` left, from position `i` on.  It
stops with `false` at a position that is no element of the vector any more. -/
def emitFrom (st : ℕ) : ℕ → ℕ → σ → σ × Bool
  | 0, _, s => (s, true)
  | k + 1, i, s =>
      match (emitter s).listeners.read st i with
      | none => (s, false)
      | some entry => emitFrom st k (i + 1) (call entry.func value s)

def emit (s : σ) : σ × Bool :=
  let listeners := (emitter s).listeners
  if listeners.elems.isEmpty then (s, true)
  else emitFrom emitter call value listeners.storage listeners.size 0 s

variable {emitter call value}

/-- A loop whose callbacks leave the emitter alone calls every listener that is left. -/
theorem emitFrom_of_inert (hinert : ∀ f v s, emitter (call f v s) = emitter s) {k i : ℕ} {s : σ}
    (hk : i + k = (emitter s).listeners.size) :
    emitFrom emitter call value (emitter s).listeners.storage k i s =
      (((emitter s).listeners.elems.drop i).foldl (fun s entry => call entry.func value s) s,
        true) := by
  induction k generalizing i s with
  | zero =>
      rw [List.drop_of_length_le (by rw [Vec.size] at hk; omega)]
      rfl
  | succ k ih =>
      have hi : i < (emitter s).listeners.elems.length := by rw [Vec.size] at hk; omega
      have hread : (emitter s).listeners.read (emitter s).listeners.storage i =
          some ((emitter s).listeners.elems[i]) :=
        Vec.read_eq_some.mpr ⟨rfl, List.getElem?_eq_getElem hi⟩
      have hnext := ih (s := call (emitter s).listeners.elems[i].func value s) (i := i + 1)
        (by rw [hinert]; omega)
      rw [hinert] at hnext
      rw [emitFrom, hread, List.drop_eq_getElem_cons hi]
      exact hnext

/-- An `emit` whose callbacks leave the emitter alone calls every listener once, in order. -/
theorem emit_of_inert (hinert : ∀ f v s, emitter (call f v s) = emitter s) (s : σ) :
    emit emitter call value s =
      ((emitter s).listeners.elems.foldl (fun s entry => call entry.func value s) s, true) := by
  simp only [emit]
  split
  · next hempty => rw [List.isEmpty_iff.mp hempty]; rfl
  · rw [emitFrom_of_inert hinert (by omega), List.drop_zero]

end Emit
end EventEmitter

/-- A call of a method that changes the listeners. -/
inductive Call (F : Type)
  | registerCallback (cb : Option F)
  | unregisterCallback (id : CInt)

/-- The call registers a listener. -/
def Call.registers {F : Type} : Call F → Bool
  | registerCallback (some _) => true
  | _ => false

/-- An emitter whose listeners are numbered in the order of registration. -/
structure Numbered (F : Type) where
  emitter : EventEmitter (F × ℕ)
  /-- How many listeners have been numbered. -/
  count : ℕ

namespace Numbered
variable {F : Type}

def new : Numbered F := ⟨.new, 0⟩

/-- Number the listeners of an emitter by their positions. -/
def ofEmitter (e : EventEmitter F) : Numbered F where
  emitter := ⟨e.listeners.mapIdx fun i entry => ⟨entry.id, entry.func, i⟩, e.nextId⟩
  count := e.listeners.size

/-- The numbers of the registered listeners, in order. -/
def numbers (h : Numbered F) : List ℕ := h.emitter.listeners.elems.map (·.func.2)

/-- What a call does; a new listener gets the next number. -/
def perform (grow : ℕ → ℕ) (h : Numbered F) : Call F → Numbered F
  | .registerCallback cb =>
      ⟨(h.emitter.registerCallback grow (cb.map (·, h.count))).2,
        if cb.isSome then h.count + 1 else h.count⟩
  | .unregisterCallback id => ⟨h.emitter.unregisterCallback id, h.count⟩

/-- What a call returns. -/
def answer (grow : ℕ → ℕ) (h : Numbered F) : Call F → Option CInt
  | .registerCallback cb => some (h.emitter.registerCallback grow (cb.map (·, h.count))).1
  | .unregisterCallback _ => none

/-- The numbers of the listeners that a call unregisters. -/
def removed (h : Numbered F) : Call F → List ℕ
  | .registerCallback _ => []
  | .unregisterCallback id =>
      (h.emitter.listeners.elems.filter (·.id == id)).map (·.func.2)

end Numbered
end Unid.Network
