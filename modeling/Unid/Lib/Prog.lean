import Mathlib.Logic.Basic

/-!
# Programs over an effect signature

A `Prog E α` is a finite tree of requests to an environment, each with a
continuation on the answer.  One program text then has two readings: `run`
executes it to the end against a handler, and `step` performs a single request,
so that other parties may act between two requests of the same program.

## Main definitions

* `Sig` — the requests of an environment and the types of their answers.
* `Prog E α` — a program over `E`, a monad.
* `Prog.run`, `Prog.val`, `Prog.state`, `Prog.Always` — sequential execution.
* `Prog.step`, `Prog.last`, `Prog.Within` — one request at a time.
-/

namespace Unid.Lib

/-- The requests a program can make, and the type of the answer to each. -/
structure Sig where
  Req : Type
  Ans : Req → Type

/-- A program: return a value, or make a request and continue on its answer. -/
inductive Prog (E : Sig) (α : Type) : Type
  | ret (a : α)
  | req (e : E.Req) (k : E.Ans e → Prog E α)

/-- A handler answers one request in one state. -/
abbrev Handler (E : Sig) (σ : Type) := (e : E.Req) → σ → E.Ans e × σ

namespace Prog
variable {E : Sig} {α β σ : Type}

/-- Graft the continuation at every leaf. -/
def bind (p : Prog E α) (f : α → Prog E β) : Prog E β :=
  match p with
  | .ret a => f a
  | .req e k => .req e fun x => (k x).bind f

instance : Monad (Prog E) where
  pure := ret
  bind := bind

/-- The program that makes one request and returns its answer. -/
def ask (e : E.Req) : Prog E (E.Ans e) := .req e .ret

@[simp] theorem monad_pure_eq (a : α) : (Pure.pure a : Prog E α) = ret a := rfl

/-! ## Sequential execution -/

/-- Execute every request of a program, in order, against one handler. -/
def run (H : Handler E σ) : Prog E α → σ → α × σ
  | .ret a, s => (a, s)
  | .req e k, s => run H (k (H e s).1) (H e s).2

/-- The returned value of a sequential execution. -/
def val (H : Handler E σ) (p : Prog E α) (s : σ) : α := (run H p s).1

/-- The final state of a sequential execution. -/
def state (H : Handler E σ) (p : Prog E α) (s : σ) : σ := (run H p s).2

variable (H : Handler E σ) (s : σ)

theorem run_ret (a : α) : run H (ret a) s = (a, s) := rfl
@[simp] theorem val_ret (a : α) : val H (ret a) s = a := rfl
@[simp] theorem state_ret (a : α) : state H (ret a) s = s := rfl
@[simp] theorem val_req (e : E.Req) (k : E.Ans e → Prog E α) :
    val H (req e k) s = val H (k (H e s).1) (H e s).2 := rfl
@[simp] theorem state_req (e : E.Req) (k : E.Ans e → Prog E α) :
    state H (req e k) s = state H (k (H e s).1) (H e s).2 := rfl
@[simp] theorem val_ask (e : E.Req) : val H (ask e) s = (H e s).1 := rfl
@[simp] theorem state_ask (e : E.Req) : state H (ask e) s = (H e s).2 := rfl

theorem run_bind (p : Prog E α) (f : α → Prog E β) :
    run H (p >>= f) s = run H (f (val H p s)) (state H p s) := by
  induction p generalizing s with
  | ret a => rfl
  | req e k ih => exact ih (H e s).1 (H e s).2

@[simp] theorem val_bind (p : Prog E α) (f : α → Prog E β) :
    val H (p >>= f) s = val H (f (val H p s)) (state H p s) := by
  simp only [val, run_bind]

@[simp] theorem state_bind (p : Prog E α) (f : α → Prog E β) :
    state H (p >>= f) s = state H (f (val H p s)) (state H p s) := by
  simp only [state, run_bind]

theorem run_ite (c : Prop) [Decidable c] (p q : Prog E α) :
    run H (if c then p else q) s = if c then run H p s else run H q s := by
  split <;> rfl

@[simp] theorem val_ite (c : Prop) [Decidable c] (p q : Prog E α) :
    val H (if c then p else q) s = if c then val H p s else val H q s := by
  split <;> rfl

@[simp] theorem state_ite (c : Prop) [Decidable c] (p q : Prog E α) :
    state H (if c then p else q) s = if c then state H p s else state H q s := by
  split <;> rfl

/-- Every request of a sequential execution satisfies `P` in the state it is made in. -/
def Always (H : Handler E σ) (P : E.Req → σ → Prop) : Prog E α → σ → Prop
  | .ret _, _ => True
  | .req e k, s => P e s ∧ Always H P (k (H e s).1) (H e s).2

section Always
variable {H : Handler E σ} {P Q : E.Req → σ → Prop} {p : Prog E α} {s : σ}

theorem Always.mono (h : p.Always H P s) (hPQ : ∀ e s, P e s → Q e s) : p.Always H Q s := by
  induction p generalizing s with
  | ret a => trivial
  | req e k ih => exact ⟨hPQ e s h.1, ih _ h.2⟩

theorem always_forall {ι : Sort*} {P : ι → E.Req → σ → Prop} (h : ∀ x, p.Always H (P x) s) :
    p.Always H (fun e s => ∀ x, P x e s) s := by
  induction p generalizing s with
  | ret a => trivial
  | req e k ih => exact ⟨fun x => (h x).1, ih _ fun x => (h x).2⟩

theorem always_ask {e : E.Req} : (ask e).Always H P s ↔ P e s := and_iff_left trivial

theorem always_bind {f : α → Prog E β} : (p >>= f).Always H P s ↔
    p.Always H P s ∧ (f (p.val H s)).Always H P (p.state H s) := by
  induction p generalizing s with
  | ret a => exact ⟨fun h => ⟨trivial, h⟩, fun h => h.2⟩
  | req e k ih =>
      change P e s ∧ (k (H e s).1 >>= f).Always H P (H e s).2 ↔
        (P e s ∧ (k (H e s).1).Always H P (H e s).2) ∧ _
      rw [ih, and_assoc]
      rfl

theorem always_map {f : α → β} : (f <$> p).Always H P s ↔ p.Always H P s := by
  change (p >>= _).Always H P s ↔ _
  rw [always_bind]
  exact and_iff_left trivial

end Always

/-! ## One request at a time -/

/-- Perform the next request, or report that the program has returned. -/
def step (H : Handler E σ) : Prog E α → σ → Option (Prog E α × σ)
  | .ret _, _ => none
  | .req e k, s => some (k (H e s).1, (H e s).2)

/-- The value of a program that has returned. -/
def returned : Prog E α → Option α
  | .ret a => some a
  | .req _ _ => none

/-- The value returned right after the next request, if that request is the last. -/
def last (H : Handler E σ) : Prog E α → σ → Option α
  | .ret _, _ => none
  | .req e k, s => (k (H e s).1).returned

/-- The program returns within `n` requests, whatever the answers. -/
def Within : Prog E α → Nat → Prop
  | .ret _, _ => True
  | .req _ _, 0 => False
  | .req _ k, n + 1 => ∀ x, (k x).Within n

end Prog
end Unid.Lib
