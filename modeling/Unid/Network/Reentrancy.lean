import Mathlib.Data.List.Nodup
import Unid.Network.EventEmitter

/-!
# Callbacks that call back

The loop of `emit` keeps two iterators into the vector of listeners while the
callbacks it calls may register and unregister listeners.  A registration can
move the vector to new storage, and an unregistration moves later listeners down
under the loop.  `emit_sound` says which calls leave the loop alone, and that
any other call breaks it when nothing else happens.

## Main definitions

* `Script`, `emission` — what the callbacks of an `emit` do, and what comes of it.
* `Sound` — what an `emit` promises its listeners.
* `Heeds` — the callbacks leave alone what the loop has still to read.
-/

namespace Unid.Network
open Lib

/-- What is noted of an `emit`, in order. -/
inductive Mark
  | called (i : ℕ)
  | removed (i : ℕ)
  /-- The loop has come to a position that is no element of the vector. -/
  | outside
  | finished
  deriving DecidableEq

/-- The calls that each callback makes, by its place in the order of the callbacks called. -/
abbrev Script (F : Type) := ℕ → List (Call F)

/-- An `emit` on its way. -/
structure Emission (F : Type) where
  host : Numbered F
  /-- How many callbacks have been called. -/
  turn : ℕ
  log : List Mark

namespace Emission
variable {F : Type}

def emitter (s : Emission F) : EventEmitter (F × ℕ) := s.host.emitter

/-- A callback calls back. -/
def perform (grow : ℕ → ℕ) (s : Emission F) (c : Call F) : Emission F :=
  { s with
    host := s.host.perform grow c
    log := s.log ++ (s.host.removed c).map .removed }

/-- It is the turn of the listener with this number. -/
def next (s : Emission F) (i : ℕ) : Emission F :=
  { s with turn := s.turn + 1, log := s.log ++ [.called i] }

/-- A callback is called and makes its calls. -/
def call (grow : ℕ → ℕ) (script : Script F) (f : F × ℕ) (_ : CInt) (s : Emission F) :
    Emission F :=
  (script s.turn).foldl (perform grow) (s.next f.2)

end Emission

section
variable {F : Type} (grow : ℕ → ℕ)

/-- What is noted of `emit(value)`, the listeners being numbered by their positions. -/
def emission (script : Script F) (value : CInt) (e : EventEmitter F) : List Mark :=
  let (s, done) :=
    EventEmitter.emit Emission.emitter (Emission.call grow script) value ⟨.ofEmitter e, 0, []⟩
  s.log ++ [if done then .finished else .outside]

/-- The turn of listener `i` has passed when a later one is called, or when the loop ends. -/
def Mark.Passes (i : ℕ) : Mark → Prop
  | called j => i < j
  | finished => True
  | removed _ | outside => False

/-- What an `emit` promises its first `n` listeners: the loop stays inside the vector, nobody is
called twice or after having been unregistered, and nobody's turn passes who has not been called
or unregistered. -/
structure Sound (n : ℕ) (log : List Mark) : Prop where
  inside : .outside ∉ log
  once : ∀ i, log.count (.called i) ≤ 1
  registered : ∀ before i after, log = before ++ .called i :: after → .removed i ∉ before
  turns : ∀ before m after, log = before ++ m :: after → ∀ i < n, m.Passes i →
    .called i ∈ before ∨ .removed i ∈ before

namespace Numbered

/-- A call that neither moves the vector nor takes a listener out of it. -/
def Spares (h : Numbered F) : Call F → Prop
  | .registerCallback cb =>
      cb.isNone ∨ h.emitter.listeners.size < h.emitter.listeners.capacity
  | .unregisterCallback id => ∀ x ∈ h.emitter.listeners.elems, x.id ≠ id

/-- Each of the calls, one after the other, is such a call. -/
def SparesAll : Numbered F → List (Call F) → Prop
  | _, [] => True
  | h, c :: cs => h.Spares c ∧ (h.perform grow c).SparesAll cs

end Numbered

/-- Every call made before it is the last listener's turn spares the vector. -/
def Heeds (script : Script F) (e : EventEmitter F) : Prop :=
  (Numbered.ofEmitter e).SparesAll grow ((List.range (e.listeners.size - 1)).flatMap script)

/-- Only the callback called `k`-th calls back, and it makes one call. -/
def solo (k : ℕ) (c : Call F) : Script F := fun i => if i = k then [c] else []

end

/-! ## Calls that spare the vector -/

section
variable {F : Type} {grow : ℕ → ℕ}

namespace Numbered

theorem perform_of_spares (grow : ℕ → ℕ) {h : Numbered F} {c : Call F} (hc : h.Spares c) :
    (h.perform grow c).emitter.listeners.storage = h.emitter.listeners.storage ∧
      h.emitter.listeners.elems <+: (h.perform grow c).emitter.listeners.elems ∧
      h.removed c = [] := by
  cases c with
  | registerCallback cb =>
      cases cb with
      | none => exact ⟨rfl, List.prefix_rfl, rfl⟩
      | some f =>
          have hroom : h.emitter.listeners.size < h.emitter.listeners.capacity :=
            hc.resolve_left (by simp)
          refine ⟨Vec.storage_pushBack_of_lt hroom _, ?_, rfl⟩
          change _ <+: (h.emitter.listeners.pushBack grow _).elems
          rw [Vec.elems_pushBack]
          exact List.prefix_append _ _
  | unregisterCallback id =>
      have hnone : ∀ x ∈ h.emitter.listeners.elems, (x.id == id) = false := by
        intro x hx
        simpa using hc x hx
      have hsame : h.emitter.unregisterCallback id = h.emitter := by
        rw [EventEmitter.unregisterCallback, Vec.removeIf_eq_self hnone]
      refine ⟨rfl, ?_, ?_⟩
      · simp only [perform, hsame, List.prefix_rfl]
      · rw [removed, List.filter_eq_nil_iff.mpr (by simpa using hnone), List.map_nil]

theorem sparesAll_append {h : Numbered F} (cs ds : List (Call F)) :
    h.SparesAll grow (cs ++ ds) ↔
      h.SparesAll grow cs ∧ (cs.foldl (perform grow) h).SparesAll grow ds := by
  induction cs generalizing h with
  | nil => simp [SparesAll]
  | cons c cs ih => simp [SparesAll, ih, and_assoc]

end Numbered

namespace Emission

theorem host_foldl (s : Emission F) (cs : List (Call F)) :
    (cs.foldl (perform grow) s).host = cs.foldl (Numbered.perform grow) s.host := by
  induction cs generalizing s with
  | nil => rfl
  | cons c cs ih => exact ih _

theorem turn_foldl (s : Emission F) (cs : List (Call F)) :
    (cs.foldl (perform grow) s).turn = s.turn := by
  induction cs generalizing s with
  | nil => rfl
  | cons c cs ih => exact ih _

/-- Callbacks add nothing to the log but whom they unregister. -/
theorem log_foldl (grow : ℕ → ℕ) (s : Emission F) (cs : List (Call F)) :
    ∃ gone : List ℕ, (cs.foldl (perform grow) s).log = s.log ++ gone.map .removed := by
  induction cs generalizing s with
  | nil => exact ⟨[], by simp⟩
  | cons c cs ih =>
      obtain ⟨gone, hgone⟩ := ih (s.perform grow c)
      refine ⟨s.host.removed c ++ gone, ?_⟩
      rw [List.foldl_cons, hgone, perform, List.map_append, List.append_assoc]

/-- Calls that spare the vector leave the positions of the loop as they are. -/
theorem foldl_of_sparesAll {s : Emission F} {cs : List (Call F)}
    (hcs : s.host.SparesAll grow cs) :
    (cs.foldl (perform grow) s).emitter.listeners.storage = s.emitter.listeners.storage ∧
      s.emitter.listeners.elems <+: (cs.foldl (perform grow) s).emitter.listeners.elems ∧
      (cs.foldl (perform grow) s).log = s.log := by
  induction cs generalizing s with
  | nil => exact ⟨rfl, List.prefix_rfl, rfl⟩
  | cons c cs ih =>
      obtain ⟨hstorage, hbegins, hremoved⟩ := Numbered.perform_of_spares grow hcs.1
      obtain ⟨hstorage', hbegins', hlog'⟩ := ih (s := s.perform grow c) hcs.2
      refine ⟨hstorage'.trans hstorage, hbegins.trans hbegins', hlog'.trans ?_⟩
      simp [perform, hremoved]

end Emission

/-! ## The loop -/

variable {script : Script F} {value : CInt} {e : EventEmitter F}

/-- The loop calls the listener it reads. -/
theorem emitFrom_of_read {st k i : ℕ} {s : Emission F} {x : CallbackEntry (F × ℕ)}
    (hread : s.emitter.listeners.read st i = some x) :
    EventEmitter.emitFrom Emission.emitter (Emission.call grow script) value st (k + 1) i s =
      EventEmitter.emitFrom Emission.emitter (Emission.call grow script) value st k (i + 1)
        ((script s.turn).foldl (Emission.perform grow) (s.next x.func.2)) := by
  rw [EventEmitter.emitFrom, hread]
  rfl

/-- The listener that was at a position when `emit` started is still there. -/
theorem read_of_prefix {s : Emission F} {i : ℕ} (hi : i < e.listeners.size)
    (hstorage : s.emitter.listeners.storage = e.listeners.storage)
    (hbegins : (Numbered.ofEmitter e).emitter.listeners.elems <+: s.emitter.listeners.elems) :
    ∃ x, s.emitter.listeners.read e.listeners.storage i = some x ∧ x.func.2 = i := by
  have hlen : i < (Numbered.ofEmitter e).emitter.listeners.elems.length := by
    simpa [Numbered.ofEmitter, Vec.mapIdx, Vec.size] using hi
  obtain ⟨more, hmore⟩ := hbegins
  refine ⟨(Numbered.ofEmitter e).emitter.listeners.elems[i],
    Vec.read_eq_some.mpr ⟨hstorage.symm, ?_⟩, ?_⟩
  · rw [← hmore, List.getElem?_append_left hlen]
    exact List.getElem?_eq_getElem hlen
  · simp [Numbered.ofEmitter, Vec.mapIdx]

/-- While the callbacks spare the vector, the loop calls one listener after the other. -/
theorem emitFrom_of_spares (value : CInt) {k i : ℕ} {s : Emission F} (hturn : s.turn = i)
    (hk : i + k + 1 = e.listeners.size)
    (hstorage : s.emitter.listeners.storage = e.listeners.storage)
    (hbegins : (Numbered.ofEmitter e).emitter.listeners.elems <+: s.emitter.listeners.elems)
    (hspares : s.host.SparesAll grow ((List.range' i k).flatMap script)) :
    ∃ s' gone, EventEmitter.emitFrom Emission.emitter (Emission.call grow script) value
        e.listeners.storage (k + 1) i s = (s', true) ∧
      s'.log = s.log ++ (List.range' i (k + 1)).map .called ++ List.map .removed gone := by
  induction k generalizing i s with
  | zero =>
      obtain ⟨x, hread, hx⟩ := read_of_prefix (i := i) (by omega) hstorage hbegins
      obtain ⟨gone, hgone⟩ := Emission.log_foldl grow (s.next x.func.2) (script s.turn)
      refine ⟨_, gone, emitFrom_of_read hread, ?_⟩
      rw [hgone, hx]
      rfl
  | succ k ih =>
      obtain ⟨x, hread, hx⟩ := read_of_prefix (i := i) (by omega) hstorage hbegins
      rw [List.range'_succ, List.flatMap_cons, Numbered.sparesAll_append] at hspares
      obtain ⟨hnow, hlater⟩ := hspares
      let t := (script s.turn).foldl (Emission.perform grow) (s.next x.func.2)
      have hnow' : (s.next x.func.2).host.SparesAll grow (script s.turn) := hturn ▸ hnow
      obtain ⟨hstorage', hbegins', hlog'⟩ := Emission.foldl_of_sparesAll hnow'
      obtain ⟨s', gone, hrun, hlog⟩ := ih (i := i + 1) (s := t)
        ((Emission.turn_foldl _ _).trans (congrArg (· + 1) hturn)) (by omega)
        (hstorage'.trans hstorage) (hbegins.trans hbegins')
        (by rw [Emission.host_foldl, hturn]; exact hlater)
      refine ⟨s', gone, (emitFrom_of_read hread).trans hrun, ?_⟩
      rw [hlog, hlog', hx, List.range'_succ (n := k + 1)]
      simp [Emission.next]

/-- A member of a concatenation lies in the first part, or after all of it. -/
theorem split_append_cons {α : Type} {as bs before after : List α} {m : α}
    (h : as ++ bs = before ++ m :: after) :
    (∃ rest, as = before ++ m :: rest) ∨ (∃ more, before = as ++ more) ∧ m ∈ bs := by
  rcases List.append_eq_append_iff.mp h with ⟨more, hbefore, hbs⟩ | ⟨rest, has, hrest⟩
  · exact .inr ⟨⟨more, hbefore⟩, by simp [hbs]⟩
  · cases rest with
    | nil =>
        refine .inr ⟨⟨[], by simp [has]⟩, ?_⟩
        rw [List.nil_append] at hrest
        exact hrest ▸ List.mem_cons_self
    | cons x rest =>
        obtain ⟨rfl, -⟩ := List.cons.inj hrest
        exact .inl ⟨rest, has⟩

/-- Before a member of a list of calls stand the calls before it. -/
theorem split_called {n : ℕ} {before rest : List Mark} {m : Mark}
    (h : (List.range n).map Mark.called = before ++ m :: rest) :
    before = (List.range before.length).map .called ∧ m = .called before.length := by
  have hlen : before.length < n := by
    have := congrArg List.length h
    simp at this
    omega
  constructor
  · have htake := congrArg (List.take before.length) h
    rw [List.take_left, ← List.map_take, List.take_range, Nat.min_eq_left (Nat.le_of_lt hlen)]
      at htake
    exact htake.symm
  · have hget := congrArg (·[before.length]?) h
    simpa [hlen, eq_comm] using hget

/-- The log of a loop that ran to its end undisturbed. -/
theorem sound_of_log (n : ℕ) (gone : List ℕ) :
    Sound n ((List.range n).map .called ++ (List.map .removed gone ++ [.finished])) where
  inside := by simp
  once := by
    intro i
    have hnodup : ((List.range n).map Mark.called).Nodup :=
      List.nodup_range.map (fun _ _ h => Mark.called.inj h)
    have htail : (List.map Mark.removed gone ++ [Mark.finished]).count (Mark.called i) = 0 :=
      List.count_eq_zero.mpr (by simp)
    rw [List.count_append, htail]
    exact List.nodup_iff_count_le_one.mp hnodup _
  registered := by
    intro before i after h
    rcases split_append_cons h with ⟨rest, hrest⟩ | ⟨-, hmem⟩
    · rw [(split_called hrest).1]
      simp
    · simp at hmem
  turns := by
    intro before m after h i hi hpass
    refine .inl ?_
    rcases split_append_cons h with ⟨rest, hrest⟩ | ⟨⟨more, rfl⟩, -⟩
    · obtain ⟨hbefore, rfl⟩ := split_called hrest
      rw [hbefore]
      exact List.mem_map_of_mem (List.mem_range.mpr hpass)
    · exact List.mem_append_left _ (List.mem_map_of_mem (List.mem_range.mpr hi))

theorem size_ofEmitter : (Numbered.ofEmitter e).emitter.listeners.size = e.listeners.size := by
  simp [Numbered.ofEmitter, Vec.mapIdx, Vec.size]

/-- What is noted of an `emit` with listeners is what is noted of its loop. -/
theorem emission_eq (hne : e.listeners.size ≠ 0) :
    let loop := EventEmitter.emitFrom Emission.emitter (Emission.call grow script) value
      e.listeners.storage e.listeners.size 0 ⟨.ofEmitter e, 0, []⟩
    emission grow script value e = loop.1.log ++ [if loop.2 then .finished else .outside] := by
  have hne' : ¬ (Numbered.ofEmitter e).emitter.listeners.elems.isEmpty = true := by
    intro hempty
    rw [← size_ofEmitter, Vec.size, List.isEmpty_iff.mp hempty] at hne
    exact hne rfl
  have hemit : EventEmitter.emit Emission.emitter (Emission.call grow script) value
      ⟨.ofEmitter e, 0, []⟩ = EventEmitter.emitFrom Emission.emitter
        (Emission.call grow script) value e.listeners.storage e.listeners.size 0
        ⟨.ofEmitter e, 0, []⟩ := by
    rw [← size_ofEmitter]
    exact if_neg hne'
  simp only [emission, hemit]

/-- An `emit` whose callbacks heed the loop keeps its promise. -/
theorem sound_of_heeds (value : CInt) (h : Heeds grow script e) :
    Sound e.listeners.size (emission grow script value e) := by
  cases hn : e.listeners.size with
  | zero =>
      have hnil : e.listeners.elems = [] := List.length_eq_zero_iff.mp hn
      have hempty : (Numbered.ofEmitter e).emitter.listeners.elems.isEmpty = true := by
        simp [Numbered.ofEmitter, Vec.mapIdx, hnil]
      have hlog : emission grow script value e = [.finished] := by
        simp only [emission, EventEmitter.emit, Emission.emitter, hempty, if_true]
        rfl
      rw [hlog]
      exact sound_of_log 0 []
  | succ k =>
      rw [Heeds, hn, Nat.add_sub_cancel, List.range_eq_range'] at h
      obtain ⟨s, gone, hrun, hlog⟩ := emitFrom_of_spares value (i := 0)
        (s := ⟨.ofEmitter e, 0, []⟩) rfl (by omega) rfl List.prefix_rfl h
      rw [emission_eq (by omega), hn, hrun, hlog, ← List.range_eq_range', List.nil_append,
        List.append_assoc]
      exact sound_of_log (k + 1) gone

/-- With nothing going on any more, a loop that has a position left outside the vector gets
there. -/
theorem emitFrom_eq_false {st k i : ℕ} {s : Emission F} (hk : 0 < k)
    (hquiet : ∀ t, s.turn ≤ t → script t = [])
    (hout : st ≠ s.emitter.listeners.storage ∨ s.emitter.listeners.size < i + k) :
    (EventEmitter.emitFrom Emission.emitter (Emission.call grow script) value st k i s).2 =
      false := by
  induction k generalizing i s with
  | zero => exact absurd hk (Nat.lt_irrefl 0)
  | succ k ih =>
      cases hread : s.emitter.listeners.read st i with
      | none => rw [EventEmitter.emitFrom, hread]
      | some x =>
          obtain ⟨hst, hget⟩ := Vec.read_eq_some.mp hread
          obtain ⟨hlt, -⟩ := List.getElem?_eq_some_iff.mp hget
          have hsize := hout.resolve_left (not_not.mpr hst)
          rw [Vec.size] at hsize
          rw [emitFrom_of_read hread, hquiet _ (Nat.le_refl _)]
          refine ih (by omega) (fun t ht => hquiet t (Nat.le_of_succ_le ht)) (.inr ?_)
          change s.emitter.listeners.elems.length < _
          omega

theorem flatMap_solo (k n : ℕ) (c : Call F) :
    (List.range n).flatMap (solo k c) = if k < n then [c] else [] := by
  induction n with
  | zero => rfl
  | succ n ih =>
      rw [List.range_succ, List.flatMap_append, ih, List.flatMap_singleton, solo]
      by_cases hlt : k < n
      · rw [if_pos hlt, if_neg (by omega), if_pos (by omega), List.append_nil]
      · by_cases heq : n = k
        · rw [if_neg hlt, if_pos heq, if_pos (by omega), List.nil_append]
        · rw [if_neg hlt, if_neg heq, if_neg (by omega), List.append_nil]

/-- After a call that does not spare the vector, one of the first `n` positions is outside. -/
theorem outside_of_not_spares (grow : ℕ → ℕ) {h : Numbered F} {c : Call F} (hc : ¬ h.Spares c) :
    h.emitter.listeners.storage ≠ (h.perform grow c).emitter.listeners.storage ∨
      (h.perform grow c).emitter.listeners.size < h.emitter.listeners.size := by
  cases c with
  | registerCallback cb =>
      obtain ⟨hsome, hfull⟩ := not_or.mp hc
      cases cb with
      | none => exact absurd rfl hsome
      | some f =>
          refine .inl ?_
          change _ ≠ (h.emitter.listeners.pushBack grow _).storage
          rw [Vec.storage_pushBack_of_not_lt hfull]
          exact (Nat.succ_ne_self _).symm
  | unregisterCallback id =>
      refine .inr ?_
      obtain ⟨x, hx, hid⟩ : ∃ x ∈ h.emitter.listeners.elems, x.id = id := by
        simpa [Numbered.Spares] using hc
      refine List.length_filter_lt_length_iff_exists.mpr ⟨x, hx, ?_⟩
      simp [hid]

/-- The loop of an `emit` in which one call does not spare the vector, from any position up to
that call on. -/
theorem emitFrom_solo (grow : ℕ → ℕ) (value : CInt) {k : ℕ} {c : Call F}
    (hk : k + 1 < e.listeners.size)
    (hc : ¬ (Numbered.ofEmitter e).Spares c) {d i : ℕ} (hi : i + d = k) (log : List Mark) :
    (EventEmitter.emitFrom Emission.emitter (Emission.call grow (solo k c)) value
      e.listeners.storage (e.listeners.size - i) i ⟨.ofEmitter e, i, log⟩).2 = false := by
  induction d generalizing i log with
  | zero =>
      obtain rfl : i = k := hi
      obtain ⟨x, hread, -⟩ := read_of_prefix (e := e) (s := ⟨.ofEmitter e, i, log⟩) (i := i)
        (by omega) rfl List.prefix_rfl
      rw [show e.listeners.size - i = e.listeners.size - (i + 1) + 1 by omega,
        emitFrom_of_read hread]
      have hscript : solo i c i = [c] := if_pos rfl
      rw [hscript]
      refine emitFrom_eq_false (by omega) (fun t ht => if_neg ?_) ?_
      · change i + 1 ≤ t at ht
        omega
      · have hout := outside_of_not_spares grow hc
        rw [size_ofEmitter] at hout
        rw [show i + 1 + (e.listeners.size - (i + 1)) = e.listeners.size by omega]
        exact hout
  | succ d ih =>
      obtain ⟨x, hread, -⟩ := read_of_prefix (e := e) (s := ⟨.ofEmitter e, i, log⟩) (i := i)
        (by omega) rfl List.prefix_rfl
      rw [show e.listeners.size - i = e.listeners.size - (i + 1) + 1 by omega,
        emitFrom_of_read hread]
      have hscript : solo k c i = [] := if_neg (by omega)
      rw [hscript]
      exact ih (by omega) _

/-- One call that does not spare the vector, with listeners left to be called, breaks the
promise. -/
theorem heeds_of_sound_solo {k : ℕ} {c : Call F}
    (h : Sound e.listeners.size (emission grow (solo k c) value e)) : Heeds grow (solo k c) e := by
  rw [Heeds, flatMap_solo]
  by_cases hk : k < e.listeners.size - 1
  · rw [if_pos hk]
    refine ⟨?_, trivial⟩
    by_contra hc
    have hfalse := emitFrom_solo grow value (by omega) hc (Nat.zero_add k) []
    rw [Nat.sub_zero] at hfalse
    refine h.inside ?_
    rw [emission_eq (by omega), hfalse]
    simp
  · rw [if_neg hk]
    trivial

/-- For every emitter: an `emit` whose callbacks, as long as there are listeners left to be
called, neither register a listener that the vector has no room for nor unregister one, keeps
its promise; and a single call that a callback makes breaks it unless it is such a call. -/
theorem emit_sound (grow : ℕ → ℕ) (value : CInt) (e : EventEmitter F) :
    (∀ script, Heeds grow script e → Sound e.listeners.size (emission grow script value e)) ∧
      ∀ k c, Sound e.listeners.size (emission grow (solo k c) value e) ↔
        Heeds grow (solo k c) e :=
  ⟨fun _ h => sound_of_heeds value h, fun _ _ => ⟨heeds_of_sound_solo, sound_of_heeds value⟩⟩

end

/-- An emitter with three listeners, and room for a fourth. -/
def threeListeners : EventEmitter Unit :=
  [some (), some (), some ()].foldl (fun e cb => (e.registerCallback (2 * ·) cb).2) .new

/-- The first callback registers a listener, for which there is room, and the last one
unregisters itself. -/
theorem emit_sound_three :
    let script : Script Unit
      | 0 => [.registerCallback (some ())]
      | 2 => [.unregisterCallback 2]
      | _ => []
    emission (2 * ·) script 7 threeListeners =
        [.called 0, .called 1, .called 2, .removed 2, .finished] ∧
      Sound 3 (emission (2 * ·) script 7 threeListeners) := by
  intro script
  have hheeds : Heeds (2 * ·) script threeListeners := ⟨.inr (by decide +kernel), trivial⟩
  exact ⟨by decide +kernel, (emit_sound (2 * ·) 7 threeListeners).1 script hheeds⟩

/-- The first callback unregisters itself: the second listener is passed over, and the loop reads
behind the last one. -/
theorem emit_passes_over_listener :
    let log := emission (2 * ·) (solo 0 (.unregisterCallback 0)) 7 threeListeners
    log = [.called 0, .removed 0, .called 2, .outside] ∧ ¬ Sound 3 log := by
  intro log
  have hlog : log = [.called 0, .removed 0, .called 2, .outside] := by decide +kernel
  refine ⟨hlog, ?_⟩
  intro hsound
  exact hsound.inside (by rw [hlog]; decide)

end Unid.Network
