import Unid.Lib.Machine

/-!
# An event loop and its end

`run` of an event loop executes the tasks and handlers of a program until there is
no work left: nobody holds a guard, no task is posted and no operation is in
progress.  Another thread calls the program while it holds a guard; then it lets
go of the guard and waits for `run` to return.  It does not stop the loop.

## Main definitions

* `EventLoop` — a program, with who does what of it and when there is work.
* `LoopState`, `LoopEvent`, `EventLoop.machine` — the program under its loop.
* `EventLoop.idle_of_returned`, `EventLoop.exists_of_returned` — why a loop has returned.
* `EventLoop.exists_returned` — a loop whose work ends can return.
-/

namespace Unid.Lib

/-- The thread that calls the program, or the one that runs the loop. -/
inductive Actor
  | caller
  | loop
  deriving DecidableEq

structure EventLoop (σ ℓ : Type) where
  program : Machine σ ℓ
  actor : ℓ → Actor
  /-- A task is posted, or an operation is in progress. -/
  busy : σ → Prop

structure LoopState (σ : Type) where
  app : σ
  guarded : Bool
  returned : Bool

inductive LoopEvent (ℓ : Type)
  | program (e : ℓ)
  /-- The caller lets go of its guard. -/
  | reset
  /-- `run` returns. -/
  | returns

/-- The program has been made, and the loop is running. -/
def LoopState.start {σ : Type} (s : σ) : LoopState σ := ⟨s, true, false⟩

/-- The caller acts until it lets go of its guard, the loop until it has returned. -/
def LoopState.MayAct {σ : Type} (S : LoopState σ) : Actor → Prop
  | .caller => S.guarded = true
  | .loop => S.returned = false

instance {σ : Type} (S : LoopState σ) : (a : Actor) → Decidable (S.MayAct a)
  | .caller => inferInstanceAs (Decidable (_ = true))
  | .loop => inferInstanceAs (Decidable (_ = false))

/-- What the program does in a run, without what happens to the loop. -/
def programEvents {ℓ : Type} (es : List (LoopEvent ℓ)) : List ℓ :=
  es.filterMap fun
    | .program e => some e
    | _ => none

namespace EventLoop
variable {σ ℓ : Type} (L : EventLoop σ ℓ)

def next (S : LoopState σ) : LoopEvent ℓ → LoopState σ
  | .program e => { S with app := L.program.next S.app e }
  | .reset => { S with guarded := false }
  | .returns => { S with returned := true }

def guard (S : LoopState σ) : LoopEvent ℓ → Prop
  | .program e => L.program.guard S.app e ∧ S.MayAct (L.actor e)
  | .reset => S.guarded = true
  | .returns => S.returned = false ∧ S.guarded = false ∧ ¬ L.busy S.app

instance [∀ s e, Decidable (L.program.guard s e)] [∀ s, Decidable (L.busy s)] (S : LoopState σ) :
    (e : LoopEvent ℓ) → Decidable (L.guard S e)
  | .program _ => inferInstanceAs (Decidable (_ ∧ _))
  | .reset => inferInstanceAs (Decidable (_ = true))
  | .returns => inferInstanceAs (Decidable (_ ∧ _ ∧ _))

/-- The program under its loop. -/
def machine : Machine (LoopState σ) (LoopEvent ℓ) := ⟨L.next, L.guard⟩

instance [∀ s e, Decidable (L.program.guard s e)] [∀ s, Decidable (L.busy s)] (S : LoopState σ)
    (e : LoopEvent ℓ) : Decidable (L.machine.guard S e) := inferInstanceAs (Decidable (L.guard S e))

variable {L} {S : LoopState σ} {s : σ} {es : List (LoopEvent ℓ)}

/-- A run of the loop is a run of the program. -/
theorem exec_program (hes : L.machine.Admits S es) :
    L.program.Admits S.app (programEvents es) ∧
      (L.machine.exec S es).app = L.program.exec S.app (programEvents es) := by
  induction es generalizing S with
  | nil => exact ⟨trivial, rfl⟩
  | cons e es ih =>
      obtain ⟨hrest, happ⟩ := ih hes.2
      cases e with
      | program e => exact ⟨⟨hes.1.1, hrest⟩, happ⟩
      | reset => exact ⟨hrest, happ⟩
      | returns => exact ⟨hrest, happ⟩

/-! ## Why it has returned -/

/-- Once it has returned, the loop has no work, and nobody gives it any. -/
def Ended (L : EventLoop σ ℓ) (S : LoopState σ) : Prop :=
  S.returned = true → S.guarded = false ∧ ¬ L.busy S.app

theorem Ended.next (h : L.Ended S) {e : LoopEvent ℓ} (hg : L.guard S e) : L.Ended (L.next S e) := by
  intro hreturned
  cases e with
  | program e =>
      -- neither thread may act any more
      have hact : S.MayAct (L.actor e) := hg.2
      cases hactor : L.actor e <;> rw [hactor] at hact
      · exact absurd ((h hreturned).1.symm.trans hact) (by decide)
      · exact absurd (hact.symm.trans hreturned) (by decide)
  | reset => exact absurd ((h hreturned).1.symm.trans hg) (by decide)
  | returns => exact hg.2

/-- A loop that has returned has run out of work. -/
theorem idle_of_returned (hes : L.machine.Admits (.start s) es)
    (hreturned : (L.machine.exec (.start s) es).returned = true) :
    ¬ L.busy (L.machine.exec (.start s) es).app := by
  have hended : L.Ended (L.machine.exec (.start s) es) :=
    Machine.exec_induction (fun _ _ h hg => h.next hg) (by simp [Ended, LoopState.start]) hes
  exact (hended hreturned).2

/-- A program that stays busy until something happens returns only after it has happened. -/
theorem exists_of_returned {I : σ → Prop} {P : ℓ → Prop} (hbusy : ∀ s, I s → L.busy s)
    (hnext : ∀ s e, I s → ¬ P e → I (L.program.next s e)) (hs : I s)
    (hes : L.machine.Admits (.start s) es)
    (hreturned : (L.machine.exec (.start s) es).returned = true) :
    ∃ e ∈ programEvents es, P e := by
  by_contra hnone
  simp only [not_exists, not_and] at hnone
  have hexec : ∀ (es : List ℓ) (s : σ), I s → (∀ e ∈ es, ¬ P e) → I (L.program.exec s es) := by
    intro es
    induction es with
    | nil => exact fun _ hs _ => hs
    | cons e es ih =>
        intro s hs hnot
        obtain ⟨he, hrest⟩ := List.forall_mem_cons.mp hnot
        exact ih _ (hnext s e hs he) hrest
  refine idle_of_returned hes hreturned (hbusy _ ?_)
  rw [(exec_program hes).2]
  exact hexec _ s hs hnone

/-! ## That it returns -/

/-- What the loop does by itself. -/
def ByLoop (L : EventLoop σ ℓ) (good : ℓ → Prop) : LoopEvent ℓ → Prop
  | .program e => L.actor e = .loop ∧ good e
  | .reset => False
  | .returns => True

/-- When every piece of work can be done and leaves less to do, the loop can return once nobody
holds a guard. -/
theorem exists_returned {I : σ → Prop} {G : ℓ → Prop} (μ : σ → ℕ)
    (hstep : ∀ s, I s → L.busy s → ∃ e, L.program.guard s e ∧ L.actor e = .loop ∧ G e ∧
      I (L.program.next s e) ∧ μ (L.program.next s e) < μ s)
    (hI : I S.app) (hguarded : S.guarded = false) :
    ∃ es, L.machine.Admits S es ∧ (∀ e ∈ es, L.ByLoop G e) ∧ I (L.machine.exec S es).app ∧
      (L.machine.exec S es).returned = true := by
  let left (S : LoopState σ) : ℕ := if S.returned then 0 else μ S.app + 1
  have hleft : ∀ S : LoopState σ, (I S.app ∧ S.guarded = false) → ¬ S.returned = true →
      ∃ e, L.machine.guard S e ∧ L.ByLoop G e ∧
        (I (L.machine.next S e).app ∧ (L.machine.next S e).guarded = false) ∧
        left (L.machine.next S e) < left S := by
    rintro S ⟨hI, hguarded⟩ hreturned
    rw [Bool.not_eq_true] at hreturned
    by_cases hbusy : L.busy S.app
    · obtain ⟨e, hg, hactor, hgood, hnext, hlt⟩ := hstep S.app hI hbusy
      have hact : S.MayAct (L.actor e) := by
        rw [hactor]
        exact hreturned
      refine ⟨.program e, ⟨hg, hact⟩, ⟨hactor, hgood⟩, ⟨hnext, hguarded⟩, ?_⟩
      have hsame : (L.machine.next S (.program e)).returned = false := hreturned
      simp only [left, hreturned, hsame, Bool.false_eq_true, if_false]
      exact Nat.succ_lt_succ hlt
    · refine ⟨.returns, ⟨hreturned, hguarded, hbusy⟩, trivial, ⟨hI, hguarded⟩, ?_⟩
      have hdone : (L.machine.next S .returns).returned = true := rfl
      simp [left, hreturned, hdone]
  obtain ⟨es, hes, hloop, ⟨hI', -⟩, hreturned⟩ := Machine.exists_run (M := L.machine)
    (Q := fun S => S.returned = true) left hleft S ⟨hI, hguarded⟩
  exact ⟨es, hes, hloop, hI', hreturned⟩

end EventLoop
end Unid.Lib
