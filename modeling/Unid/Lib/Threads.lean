import Unid.Lib.Prog
import Unid.Lib.Machine
import Mathlib.Logic.Function.Basic
import Mathlib.Logic.Relation

/-!
# Threads on a shared state

Threads make calls, one at a time each, and the code of a call is a program whose
requests are the steps that other threads may come between.  A step has a choice,
for requests that the shared state can answer in more than one way, and it may be
disallowed, for requests that wait.

Reasoning is by rely and guarantee.  A `Contract` has an invariant of the shared
state and says what a step of each thread may change; `Wp` is what must hold
before a piece of code for its steps to keep to that, whatever the other threads
do in between as long as they keep to it as well.  Calls that are safe one by one
then run safely together, in every interleaving (`Contract.holds_exec`).

## Main definitions

* `Threads`, `Threads.machine` — code, and the interleavings of its steps.
* `Contract` — an invariant, guarantees, and what each thread knows between calls.
* `Contract.Wp`, `Contract.Safe` — code and calls that keep to the contract.
-/

namespace Unid.Lib

/-- Threads `T` make calls `C` with results `R` on a shared state `σ`. -/
structure Threads (E : Sig) (σ T C R : Type) where
  code : T → C → Prog E R
  /-- The calls a thread may make. -/
  mayCall : T → C → σ → Prop
  /-- A request of a call, with a choice of the answer. -/
  handle : T → C → ℕ → Handler E σ
  /-- The choices there are for a request; none when it has to wait. -/
  allowed : T → ℕ → E.Req → σ → Prop
  /-- What the return of a call adds to the shared state. -/
  finish : T → C → R → σ → σ

/-- The shared state, and what each thread has left to do of its call. -/
structure ThreadsState (E : Sig) (σ T C R : Type) where
  shared : σ
  running : T → Option (C × Prog E R)

inductive ThreadsEvent (T C : Type)
  | call (t : T) (c : C)
  /-- The next request of the thread's call, or its return. -/
  | step (t : T) (choice : ℕ)

namespace Threads
variable {E : Sig} {σ T C R : Type} [DecidableEq T] (M : Threads E σ T C R)

def next (S : ThreadsState E σ T C R) : ThreadsEvent T C → ThreadsState E σ T C R
  | .call t c => { S with running := Function.update S.running t (some (c, M.code t c)) }
  | .step t i =>
      match S.running t with
      | some (c, .req e k) =>
          ⟨(M.handle t c i e S.shared).2,
            Function.update S.running t (some (c, k (M.handle t c i e S.shared).1))⟩
      | some (c, .ret r) => ⟨M.finish t c r S.shared, Function.update S.running t none⟩
      | none => S

def guard (S : ThreadsState E σ T C R) : ThreadsEvent T C → Prop
  | .call t c => S.running t = none ∧ M.mayCall t c S.shared
  | .step t i =>
      match S.running t with
      | some (_, .req e _) => M.allowed t i e S.shared
      | some (_, .ret _) => True
      | none => False

instance [∀ t c s, Decidable (M.mayCall t c s)] [∀ t i e s, Decidable (M.allowed t i e s)]
    (S : ThreadsState E σ T C R) (e : ThreadsEvent T C) : Decidable (M.guard S e) :=
  match e with
  | .call t _ =>
      have : Decidable (S.running t = none) := decidable_of_iff _ Option.isNone_iff_eq_none
      inferInstanceAs (Decidable (_ ∧ _))
  | .step t i =>
      match h : S.running t with
      | some (_, .req e _) => decidable_of_iff (M.allowed t i e S.shared) (by simp [guard, h])
      | some (_, .ret _) => .isTrue (by simp [guard, h])
      | none => .isFalse (by simp [guard, h])

/-- All interleavings. -/
def machine : Machine (ThreadsState E σ T C R) (ThreadsEvent T C) := ⟨M.next, M.guard⟩

instance [∀ t c s, Decidable (M.mayCall t c s)] [∀ t i e s, Decidable (M.allowed t i e s)]
    (S : ThreadsState E σ T C R) (e : ThreadsEvent T C) : Decidable (M.machine.guard S e) :=
  inferInstanceAs (Decidable (M.guard S e))

/-- No thread is in a call. -/
def start (s : σ) : ThreadsState E σ T C R := ⟨s, fun _ => none⟩

variable {M}

/-- A thread that never has to wait can finish its call while the others rest. -/
theorem exists_exec_alone {S : ThreadsState E σ T C R} {t : T} {c : C} {p : Prog E R} (i : ℕ)
    (hrun : S.running t = some (c, p))
    (hallowed : p.Always (M.handle t c i) (M.allowed t i) S.shared) :
    ∃ es, M.machine.Admits S es ∧ M.machine.exec S es =
      ⟨M.finish t c (p.val (M.handle t c i) S.shared) (p.state (M.handle t c i) S.shared),
        Function.update S.running t none⟩ := by
  induction p generalizing S with
  | ret r =>
      refine ⟨[.step t i], ⟨?_, trivial⟩, ?_⟩
      · simp [machine, guard, hrun]
      · simp [machine, Machine.exec, next, hrun]
  | req e k ih =>
      have hnext : M.next S (.step t i) = ⟨(M.handle t c i e S.shared).2,
          Function.update S.running t (some (c, k (M.handle t c i e S.shared).1))⟩ := by
        simp [next, hrun]
      obtain ⟨es, hes, hexec⟩ := ih (M.handle t c i e S.shared).1 (S := M.next S (.step t i))
        (by simp [hnext]) (by rw [hnext]; exact hallowed.2)
      refine ⟨.step t i :: es, ⟨?_, hes⟩, ?_⟩
      · have hfirst := hallowed.1
        simpa [machine, guard, hrun] using hfirst
      · rw [hnext] at hexec
        simpa [machine, Machine.exec, hnext] using hexec

end Threads

/-- An invariant of the shared state, what a step of each thread may change, and what each thread
knows between its calls. -/
structure Contract {E : Sig} {σ T C R : Type} (M : Threads E σ T C R) where
  inv : σ → Prop
  guar : T → σ → σ → Prop
  idle : T → σ → Prop

namespace Contract
variable {E : Sig} {σ T C R α β : Type} {M : Threads E σ T C R} (K : Contract M)

/-- No step of another thread takes `P` away. -/
def Stable (t : T) (P : σ → Prop) : Prop :=
  ∀ u, u ≠ t → ∀ a b, K.inv a → K.inv b → K.guar u a b → P a → P b

/-- What may happen between two steps of a thread. -/
def Rely (t : T) : σ → σ → Prop :=
  Relation.ReflTransGen fun a b => ∃ u, u ≠ t ∧ K.inv a ∧ K.inv b ∧ K.guar u a b

/-- The steps of a piece of code keep to the contract, and it ends with `Q`. -/
def Wp (t : T) (c : C) (Q : α → σ → Prop) : Prog E α → σ → Prop
  | .ret a, s => Q a s
  | .req e k, s => ∀ s', K.Rely t s s' → ∀ i, M.allowed t i e s' →
      K.inv (M.handle t c i e s').2 ∧ K.guar t s' (M.handle t c i e s').2 ∧
        Wp t c Q (k (M.handle t c i e s').1) (M.handle t c i e s').2

/-- The return of a call keeps to the contract. -/
def Returns (t : T) (c : C) (r : R) (s : σ) : Prop :=
  ∀ s', K.Rely t s s' →
    K.inv (M.finish t c r s') ∧ K.guar t s' (M.finish t c r s') ∧ K.idle t (M.finish t c r s')

/-- The rest of a call keeps to the contract. -/
def Safe (t : T) (c : C) (p : Prog E R) (s : σ) : Prop := K.Wp t c (K.Returns t c) p s

/-- What holds of all threads together. -/
structure Holds (S : ThreadsState E σ T C R) : Prop where
  inv : K.inv S.shared
  idle : ∀ t, S.running t = none → K.idle t S.shared
  safe : ∀ t c p, S.running t = some (c, p) → K.Safe t c p S.shared

variable {K} {t u : T} {c : C} {s s' : σ} {Q Q' : α → σ → Prop}

theorem Stable.rely {P : σ → Prop} (hP : K.Stable t P) (h : K.Rely t s s') (hs : P s) : P s' := by
  induction h with
  | refl => exact hs
  | tail _ hstep ih =>
      obtain ⟨u, hu, ha, hb, hguar⟩ := hstep
      exact hP u hu _ _ ha hb hguar ih

theorem Rely.inv (h : K.Rely t s s') (hs : K.inv s) : K.inv s' := by
  cases h with
  | refl => exact hs
  | tail _ hstep =>
      obtain ⟨_, _, _, hb, _⟩ := hstep
      exact hb

/-! ## Rules for code -/

/-- The rule for a request: what is known before it must survive the steps of the others. -/
theorem Wp.ask {e : E.Req} {Q : E.Ans e → σ → Prop} (P : σ → Prop) (hstable : K.Stable t P)
    (hinv : K.inv s) (hs : P s)
    (hstep : ∀ s i, K.inv s → P s → M.allowed t i e s →
      K.inv (M.handle t c i e s).2 ∧ K.guar t s (M.handle t c i e s).2 ∧
        Q (M.handle t c i e s).1 (M.handle t c i e s).2) :
    K.Wp t c Q (Prog.ask e) s :=
  fun s' h i hi => hstep s' i (h.inv hinv) (hstable.rely h hs) hi

/-- The rule for a sequence. -/
theorem Wp.bind {Q : β → σ → Prop} {p : Prog E α} {f : α → Prog E β}
    (h : K.Wp t c (fun a s => K.inv s → K.Wp t c Q (f a) s) p s) (hinv : K.inv s) :
    K.Wp t c Q (p >>= f) s := by
  induction p generalizing s with
  | ret a => exact h hinv
  | req e k ih =>
      intro s' hs' i hi
      obtain ⟨hinv', hguar, hrest⟩ := h s' hs' i hi
      exact ⟨hinv', hguar, ih _ hrest hinv'⟩

theorem Wp.mono {p : Prog E α} (h : K.Wp t c Q p s) (hQ : ∀ a s, Q a s → Q' a s) :
    K.Wp t c Q' p s := by
  induction p generalizing s with
  | ret a => exact hQ a s h
  | req e k ih =>
      intro s' hs' i hi
      obtain ⟨hinv, hguar, hrest⟩ := h s' hs' i hi
      exact ⟨hinv, hguar, ih _ hrest⟩

/-- Code that keeps to the contract does so when it runs without interruption; to the other
threads it then is one long step. -/
theorem Wp.run {p : Prog E α} (pick : E.Req → σ → ℕ)
    (hpick : ∀ e s, K.inv s → M.allowed t (pick e s) e s) (h : K.Wp t c Q p s) (hinv : K.inv s) :
    K.inv (p.state (fun e s => M.handle t c (pick e s) e s) s) ∧
      Q (p.val (fun e s => M.handle t c (pick e s) e s) s)
        (p.state (fun e s => M.handle t c (pick e s) e s) s) ∧
      ∀ u, u ≠ t → K.Rely u s (p.state (fun e s => M.handle t c (pick e s) e s) s) := by
  induction p generalizing s with
  | ret a => exact ⟨hinv, h, fun _ _ => .refl⟩
  | req e k ih =>
      obtain ⟨hinv', hguar, hrest⟩ := h s .refl (pick e s) (hpick e s hinv)
      obtain ⟨hend, hQ, hrely⟩ := ih _ hrest hinv'
      refine ⟨hend, hQ, ?_⟩
      intro u hu
      exact .head ⟨t, hu.symm, hinv, hinv', hguar⟩ (hrely u hu)

/-! ## All threads together -/

/-- A call stays safe while other threads act. -/
theorem Safe.rely {p : Prog E R} (hp : K.Safe t c p s) (h : K.Rely t s s') :
    K.Safe t c p s' := by
  cases p with
  | ret r => exact fun s'' h' => hp s'' (h.trans h')
  | req e k => exact fun s'' h' => hp s'' (h.trans h')

theorem Holds.start (hinv : K.inv s) (hidle : ∀ t, K.idle t s) :
    K.Holds (Threads.start s) :=
  ⟨hinv, fun t _ => hidle t, nofun⟩

variable [DecidableEq T] {S : ThreadsState E σ T C R}

/-- A thread makes a step and has `left` to do of its call; the others only see its guarantee. -/
theorem Holds.advance (hidle : ∀ t, K.Stable t (K.idle t)) (H : K.Holds S)
    (left : Option (C × Prog E R)) (hinv : K.inv s) (hguar : K.guar t S.shared s)
    (hidle' : left = none → K.idle t s) (hsafe : ∀ c p, left = some (c, p) → K.Safe t c p s) :
    K.Holds ⟨s, Function.update S.running t left⟩ := by
  have hrely : ∀ u, u ≠ t → K.Rely u S.shared s := by
    intro u hu
    exact .single ⟨t, Ne.symm hu, H.inv, hinv, hguar⟩
  refine ⟨hinv, ?_, ?_⟩
  · intro u hu
    by_cases hut : u = t
    · subst hut
      exact hidle' (by simpa using hu)
    · exact (hidle u).rely (hrely u hut) (H.idle u (by simpa [hut] using hu))
  · intro u c p hu
    by_cases hut : u = t
    · subst hut
      exact hsafe c p (by simpa using hu)
    · exact (H.safe u c p (by simpa [hut] using hu)).rely (hrely u hut)

theorem Holds.next (hidle : ∀ t, K.Stable t (K.idle t)) (hrefl : ∀ t s, K.guar t s s)
    (hcode : ∀ t c s, K.inv s → K.idle t s → M.mayCall t c s → K.Safe t c (M.code t c) s)
    (H : K.Holds S) {e : ThreadsEvent T C} (he : M.guard S e) : K.Holds (M.next S e) := by
  cases e with
  | call t c =>
      refine H.advance hidle _ H.inv (hrefl t _) nofun ?_
      rintro _ _ ⟨⟩
      exact hcode t c S.shared H.inv (H.idle t he.1) he.2
  | step t i =>
      simp only [Threads.guard] at he
      simp only [Threads.next]
      split at he
      · next c e k hrun =>
          obtain ⟨hinv, hguar, hsafe⟩ := H.safe t c _ hrun S.shared .refl i he
          refine H.advance hidle _ hinv hguar nofun ?_
          rintro _ _ ⟨⟩
          exact hsafe
      · next c r hrun =>
          obtain ⟨hinv, hguar, hdone⟩ := H.safe t c _ hrun S.shared .refl
          exact H.advance hidle _ hinv hguar (fun _ => hdone) nofun
      · exact he.elim

/-- Calls that keep to the contract one by one keep to it together. -/
theorem holds_exec (hidle : ∀ t, K.Stable t (K.idle t)) (hrefl : ∀ t s, K.guar t s s)
    (hcode : ∀ t c s, K.inv s → K.idle t s → M.mayCall t c s → K.Safe t c (M.code t c) s)
    (H : K.Holds S) {es : List (ThreadsEvent T C)} (hes : M.machine.Admits S es) :
    K.Holds (M.machine.exec S es) :=
  Machine.exec_induction (fun _ _ H he => H.next hidle hrefl hcode he) H hes

end Contract
end Unid.Lib
