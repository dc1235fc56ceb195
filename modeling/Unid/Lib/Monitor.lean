import Unid.Lib.Threads

/-!
# Calls under one mutex

An object whose calls take a mutex, run a piece of sequential code and release the
mutex, used by any number of threads that do things of their own in between.  The
mutex may also be refused, and the call then returns without having done anything.

All calls behave as if each were made at once, at the moment at which it took the
mutex.  The calls in the order of these moments are the log; the sequential code
run over the log gives what the object looks like whenever the mutex is free, and
what every thread has been told (`Monitor.Linear`).  What has to be shown for this
is about one call at a time, after any log: that what a thread may do of its own
does not interfere with the code of a call that another thread is in.

## Main definitions

* `lockSig`, `Prog.guarded` — code that takes and releases a mutex.
* `Conduct`, `Monitor`, `Monitor.threads` — the calls, and threads that make them.
* `Monitor.replay`, `Monitor.turns` — the log run sequentially, and what it tells a thread.
* `Monitor.Linear` — the log explains the state.
* `Prog.Unaffected`, `Prog.Commutes` — requests and code that an action does not interfere with.
* `Monitor.Discipline` — what has to be shown of the calls, one by one.
-/

namespace Unid.Lib

/-- Requests of code that uses a mutex. -/
inductive LockReq (Q : Type)
  | lock
  | unlock
  | inner (e : Q)

/-- Taking and releasing the mutex answer whether they have succeeded. -/
abbrev LockReq.Ans (E : Sig) : LockReq E.Req → Type
  | .lock | .unlock => Bool
  | .inner e => E.Ans e

abbrev lockSig (E : Sig) : Sig := ⟨LockReq E.Req, LockReq.Ans E⟩

namespace Prog
variable {E : Sig} {α R σ : Type}

/-- The same code, among code that uses a mutex. -/
def lift : Prog E α → Prog (lockSig E) α
  | .ret a => .ret a
  | .req e k => .req (.inner e) fun x => (k x).lift

/-- The rest of the code, then the mutex is released. -/
def leaving (p : Prog E R) : Prog (lockSig E) R := do
  let r ← p.lift
  let _ ← ask (E := lockSig E) .unlock
  pure r

/-- The code with the mutex held, or `fail` when the mutex is refused. -/
def guarded (fail : R) (body : Prog E R) : Prog (lockSig E) R := do
  if ← ask (E := lockSig E) .lock then body.leaving else pure fail

theorem map_leaving {R' : Type} (f : R → R') (p : Prog E R) :
    f <$> p.leaving = (f <$> p).leaving := by
  induction p with
  | ret r => rfl
  | req e k ih => exact congrArg (req (E := lockSig E) (.inner e)) (funext ih)

theorem map_guarded {R' : Type} (f : R → R') (fail : R) (body : Prog E R) :
    f <$> guarded fail body = guarded (f fail) (f <$> body) := by
  refine congrArg (req (E := lockSig E) .lock) (funext fun taken => ?_)
  cases taken with
  | false => rfl
  | true => exact map_leaving f body

/-! ## Code that an action does not interfere with -/

/-- The action may as well happen after the code as before it. -/
structure Commutes (H : Handler E σ) (act : σ → σ) (p : Prog E α) (s : σ) : Prop where
  val : p.val H (act s) = p.val H s
  state : p.state H (act s) = act (p.state H s)

/-- The action changes nothing for these requests. -/
def Unaffected (H : Handler E σ) (act : σ → σ) (e : E.Req) : Prop :=
  ∀ s, H e (act s) = ((H e s).1, act (H e s).2)

variable {H : Handler E σ} {act : σ → σ} {p : Prog E α} {s : σ} {P Q : E.Req → σ → Prop}

theorem commutes_of_always (h : p.Always H (fun e _ => Unaffected H act e) s) :
    p.Commutes H act s := by
  induction p generalizing s with
  | ret a => exact ⟨rfl, rfl⟩
  | req e k ih =>
      obtain ⟨he, hrest⟩ := h
      obtain ⟨hval, hstate⟩ := ih _ hrest
      refine ⟨?_, ?_⟩
      · rw [val_req, he s, val_req]
        exact hval
      · rw [state_req, he s, state_req]
        exact hstate

/-- Code that the action does not interfere with makes the same requests after it. -/
theorem Always.after_act {P : E.Req → Prop} (h : p.Always H (fun e _ => Unaffected H act e) s)
    (hP : p.Always H (fun e _ => P e) s) : p.Always H (fun e _ => P e) (act s) := by
  induction p generalizing s with
  | ret a => trivial
  | req e k ih =>
      obtain ⟨he, hrest⟩ := h
      refine ⟨hP.1, ?_⟩
      rw [he s]
      exact ih _ hrest hP.2

end Prog

/-! ## The calls and the threads -/

/-- What a call does: something of the caller's own, at once, or a piece of code with the mutex
held, and then what it returns when the mutex is refused. -/
inductive Conduct (E : Sig) (σ R : Type)
  | own (r : R) (act : σ → σ)
  | locked (fail : R) (body : Prog E R)

namespace Conduct
variable {E : Sig} {σ R : Type}

/-- The call made at once. -/
def run (H : Handler E σ) : Conduct E σ R → σ → R × σ
  | .own r act, s => (r, act s)
  | .locked _ body, s => body.run H s

def code : Conduct E σ R → Prog (lockSig E) R
  | .own r _ => .ret r
  | .locked fail body => .guarded fail body

end Conduct

/-- A call that has returned, and whether it has done anything. -/
structure Turn (C R : Type) where
  call : C
  result : R
  entered : Bool

/-- The calls that have done something. -/
def taken {C R : Type} (h : List (Turn C R)) : List (C × R) :=
  h.filterMap fun x => if x.entered then some (x.call, x.result) else none

/-- What the caller has seen. -/
def seen {C R : Type} (h : List (Turn C R)) : List (C × R) := h.map fun x => (x.call, x.result)

structure MonitorState (σ T C R : Type) where
  mem : σ
  /-- The thread that holds the mutex. -/
  owner : Option T
  /-- The calls, in the order in which they took effect. -/
  log : List (T × C)
  /-- Whether the call that the thread is in has taken effect. -/
  entered : T → Bool
  history : T → List (Turn C R)

namespace MonitorState

/-- Nothing has been called. -/
def start {σ T C R : Type} (s : σ) : MonitorState σ T C R :=
  ⟨s, none, [], fun _ => false, fun _ => []⟩

/-- A thread takes the mutex, and its call takes effect. -/
def enter {σ T C R : Type} [DecidableEq T] (s : MonitorState σ T C R) (t : T) (c : C) :
    MonitorState σ T C R :=
  { s with
    owner := some t
    log := s.log ++ [(t, c)]
    entered := Function.update s.entered t true }

end MonitorState

/-- Threads `T` make calls `C` on an object under one mutex. -/
structure Monitor (E : Sig) (σ T C R : Type) where
  handle : Handler E σ
  conduct : C → Conduct E σ R
  /-- The calls a thread may make after those it has made. -/
  may : T → List (C × R) → C → Prop

namespace Monitor
variable {E : Sig} {σ T C R : Type} (M : Monitor E σ T C R) {s₀ : σ} {log : List (T × C)}
  {t u : T} {c : C}

/-! ## The log, run sequentially -/

/-- The object after the calls of the log, made one after the other. -/
def replay (s : σ) (log : List (T × C)) : σ :=
  log.foldl (fun s x => ((M.conduct x.2).run M.handle s).2) s

/-- The calls of the log with the results they have one after the other. -/
def answers : σ → List (T × C) → List (T × C × R)
  | _, [] => []
  | s, x :: log =>
      (x.1, x.2, ((M.conduct x.2).run M.handle s).1) ::
        answers ((M.conduct x.2).run M.handle s).2 log

theorem replay_concat : M.replay s₀ (log ++ [(t, c)]) =
    ((M.conduct c).run M.handle (M.replay s₀ log)).2 := by
  simp [replay]

theorem answers_concat : M.answers s₀ (log ++ [(t, c)]) = M.answers s₀ log ++
    [(t, c, ((M.conduct c).run M.handle (M.replay s₀ log)).1)] := by
  induction log generalizing s₀ with
  | nil => rfl
  | cons x log ih => simp [answers, replay, ih]

variable [DecidableEq T]

/-- The calls of one thread in the log, with their results. -/
def turns (s : σ) (log : List (T × C)) (t : T) : List (C × R) :=
  (M.answers s log).filterMap fun x => if x.1 = t then some x.2 else none

theorem turns_concat : M.turns s₀ (log ++ [(t, c)]) t = M.turns s₀ log t ++
    [(c, ((M.conduct c).run M.handle (M.replay s₀ log)).1)] := by
  simp [turns, M.answers_concat]

theorem turns_concat_of_ne (hu : u ≠ t) :
    M.turns s₀ (log ++ [(t, c)]) u = M.turns s₀ log u := by
  simp [turns, M.answers_concat, hu.symm]

/-! ## The threads -/

def handleLock (t : T) (c : C) (choice : ℕ) : Handler (lockSig E) (MonitorState σ T C R)
  | .lock, s => if choice = 0 then (true, s.enter t c) else (false, s)
  | .unlock, s => (true, { s with owner := none })
  | .inner e, s => ((M.handle e s.mem).1, { s with mem := (M.handle e s.mem).2 })

/-- A thread's call returns. -/
def finish (t : T) (c : C) (r : R) (s : MonitorState σ T C R) : MonitorState σ T C R :=
  match M.conduct c with
  | .own _ act =>
      { s with
        mem := act s.mem
        log := s.log ++ [(t, c)]
        history := Function.update s.history t (s.history t ++ [⟨c, r, true⟩]) }
  | .locked _ _ =>
      { s with
        entered := Function.update s.entered t false
        history := Function.update s.history t (s.history t ++ [⟨c, r, s.entered t⟩]) }

/-- The threads: the mutex can be taken (choice 0) when it is free, and refused at any time. -/
def threads : Threads (lockSig E) (MonitorState σ T C R) T C R where
  code _ c := (M.conduct c).code
  mayCall t c s := M.may t (seen (s.history t)) c
  handle := M.handleLock
  allowed _ choice
    | .lock, s => choice = 0 → s.owner = none
    | _, _ => True
  finish := M.finish

instance [∀ t h c, Decidable (M.may t h c)] (t : T) (c : C) (s : MonitorState σ T C R) :
    Decidable (M.threads.mayCall t c s) :=
  inferInstanceAs (Decidable (M.may t (seen (s.history t)) c))

instance (t : T) (i : ℕ) (s : MonitorState σ T C R) :
    (e : LockReq E.Req) → Decidable (M.threads.allowed t i e s)
  | .lock => inferInstanceAs (Decidable (i = 0 → s.owner = none))
  | .unlock | .inner _ => .isTrue trivial

/-- The log explains the state: run sequentially it is what the threads have seen, and what the
object looks like while nobody holds the mutex. -/
structure Linear (s₀ : σ) (s : MonitorState σ T C R) : Prop where
  /-- What a thread's calls have done is what its calls in the log do, in the same order. -/
  told : ∀ t, taken (s.history t) <+: M.turns s₀ s.log t
  /-- Only a call that has not returned may be in the log beyond that. -/
  exact : ∀ t, s.entered t = false → M.turns s₀ s.log t = taken (s.history t)
  free : s.owner = none → s.mem = M.replay s₀ s.log

/-! ## What has to be shown of the calls, one by one -/

/-- The calls that have done nothing are those that were refused the mutex. -/
def Honest (h : List (Turn C R)) : Prop :=
  ∀ x ∈ h, x.entered = false → ∃ body, M.conduct x.call = .locked x.result body

/-- A thread that has been told what this log says may make the call. -/
def Admissible (s₀ : σ) (log : List (T × C)) (t : T) (c : C) : Prop :=
  ∃ h, M.turns s₀ log t = taken h ∧ M.Honest h ∧ M.may t (seen h) c

/-- An invariant of logs, and the requests that the holder of the mutex may make after a log, such
that what other threads may do of their own then does not interfere with them. -/
structure Discipline (s₀ : σ) where
  inv : List (T × C) → Prop
  mine : List (T × C) → T → E.Req → Prop
  start : inv []
  call : ∀ {log t c}, inv log → M.Admissible s₀ log t c → inv (log ++ [(t, c)])
  body : ∀ {log t c fail body}, inv log → M.Admissible s₀ log t c →
    M.conduct c = .locked fail body →
      body.Always M.handle (fun e _ => mine (log ++ [(t, c)]) t e) (M.replay s₀ log)
  own : ∀ {log t c r act u e}, inv log → M.Admissible s₀ log t c → M.conduct c = .own r act →
    u ≠ t → mine log u e → Prog.Unaffected M.handle act e ∧ mine (log ++ [(t, c)]) u e

namespace Discipline
variable {M} (D : M.Discipline s₀)

/-- Where a thread is in its call, and what is then known of the log. -/
inductive At (s : MonitorState σ T C R) (t : T) : Option (C × Prog (lockSig E) R) → Prop
  | idle (howner : s.owner ≠ some t) (hout : s.entered t = false)
      (hturns : M.turns s₀ s.log t = taken (s.history t)) : At s t none
  | starting (c : C) (hmay : M.may t (seen (s.history t)) c) (howner : s.owner ≠ some t)
      (hout : s.entered t = false) (hturns : M.turns s₀ s.log t = taken (s.history t)) :
      At s t (some (c, (M.conduct c).code))
  | refused (c : C) (fail : R) (body : Prog E R) (hc : M.conduct c = .locked fail body)
      (howner : s.owner ≠ some t) (hout : s.entered t = false)
      (hturns : M.turns s₀ s.log t = taken (s.history t)) : At s t (some (c, .ret fail))
  | inside (c : C) (p : Prog E R) (fail : R) (body : Prog E R)
      (hc : M.conduct c = .locked fail body) (howner : s.owner = some t)
      (hin : s.entered t = true) (hstate : M.replay s₀ s.log = p.state M.handle s.mem)
      (hturns : M.turns s₀ s.log t = taken (s.history t) ++ [(c, p.val M.handle s.mem)])
      (hmine : p.Always M.handle (fun e _ => D.mine s.log t e) s.mem) :
      At s t (some (c, p.leaving))
  | left (c : C) (r fail : R) (body : Prog E R) (hc : M.conduct c = .locked fail body)
      (howner : s.owner ≠ some t) (hin : s.entered t = true)
      (hturns : M.turns s₀ s.log t = taken (s.history t) ++ [(c, r)]) :
      At s t (some (c, .ret r))

/-- The log run sequentially is what the threads have seen, and what the object looks like while
nobody holds the mutex. -/
structure Holds (S : ThreadsState (lockSig E) (MonitorState σ T C R) T C R) : Prop where
  places : ∀ t, D.At S.shared t (S.running t)
  free : S.shared.owner = none → S.shared.mem = M.replay s₀ S.shared.log
  inv : D.inv S.shared.log
  honest : ∀ t, M.Honest (S.shared.history t)

variable {D} {s s' : MonitorState σ T C R} {run : Option (C × Prog (lockSig E) R)}
  {S : ThreadsState (lockSig E) (MonitorState σ T C R) T C R}

theorem At.told (h : D.At s t run) : taken (s.history t) <+: M.turns s₀ s.log t ∧
    (s.entered t = false → M.turns s₀ s.log t = taken (s.history t)) := by
  cases h with
  | idle _ _ hturns | starting _ _ _ _ hturns | refused _ _ _ _ _ _ hturns =>
      rw [hturns]
      exact ⟨List.prefix_rfl, fun _ => rfl⟩
  | inside _ _ _ _ _ _ hin _ hturns | left _ _ _ _ _ _ hin hturns =>
      rw [hturns, hin]
      exact ⟨List.prefix_append .., nofun⟩

theorem Holds.linear (h : D.Holds S) : M.Linear s₀ S.shared :=
  ⟨fun t => (h.places t).told.1, fun t => (h.places t).told.2, h.free⟩

/-- While the mutex is held, the object is on its way to what the log says. -/
theorem Holds.underway (h : D.Holds S) (howner : S.shared.owner = some t) :
    ∃ p : Prog E R, M.replay s₀ S.shared.log = p.state M.handle S.shared.mem := by
  have hplace := h.places t
  generalize S.running t = run at hplace
  cases hplace with
  | inside c p fail body hc _ _ hstate => exact ⟨p, hstate⟩
  | idle hne | starting _ _ hne | refused _ _ _ _ hne | left _ _ _ _ _ hne =>
      exact absurd howner hne

theorem holds_start : D.Holds (Threads.start (.start s₀)) :=
  ⟨fun _ => .idle nofun rfl rfl, fun _ => rfl, D.start, fun _ => nofun⟩

/-- A thread that does not hold the mutex only depends on the log. -/
theorem At.frame (h : D.At s t run) (hs : s.owner ≠ some t) (hs' : s'.owner ≠ some t)
    (hentered : s'.entered t = s.entered t) (hhistory : s'.history t = s.history t)
    (hlog : M.turns s₀ s'.log t = M.turns s₀ s.log t) : D.At s' t run := by
  cases h with
  | idle _ hout hturns =>
      exact .idle hs' (hentered.trans hout) (by rw [hlog, hhistory, hturns])
  | starting c hmay _ hout hturns =>
      exact .starting c (by rw [hhistory]; exact hmay) hs' (hentered.trans hout)
        (by rw [hlog, hhistory, hturns])
  | refused c fail body hc _ hout hturns =>
      exact .refused c fail body hc hs' (hentered.trans hout) (by rw [hlog, hhistory, hturns])
  | inside c p fail body hc howner => exact absurd howner hs
  | left c r fail body hc _ hin hturns =>
      exact .left c r fail body hc hs' (hentered.trans hin) (by rw [hlog, hhistory, hturns])

/-- The holder of the mutex goes on as before when others return from calls under the mutex. -/
theorem At.frame_same (h : D.At s t run) (hs : s'.owner = s.owner)
    (hentered : s'.entered t = s.entered t) (hhistory : s'.history t = s.history t)
    (hlog : s'.log = s.log) (hmem : s'.mem = s.mem) : D.At s' t run := by
  by_cases howner : s.owner = some t
  · cases h with
    | inside c p fail body hc _ hin hstate hturns hmine =>
        exact .inside c p fail body hc (hs.trans howner) (hentered.trans hin)
          (by rw [hlog, hmem, hstate]) (by rw [hlog, hhistory, hmem, hturns])
          (by rw [hlog, hmem]; exact hmine)
    | idle hne | starting _ _ hne | refused _ _ _ _ hne | left _ _ _ _ _ hne =>
        exact absurd howner hne
  · exact h.frame howner (hs ▸ howner) hentered hhistory (by rw [hlog])

/-- What another thread does of its own may, for the code that the holder of the mutex has left,
as well happen later. -/
theorem At.frame_own (h : D.At s u run) (howner : s.owner = some u) (hu : u ≠ t) {r : R}
    {act : σ → σ} (hinv : D.inv s.log) (hadm : M.Admissible s₀ s.log t c)
    (hc : M.conduct c = .own r act) (hmem : s'.mem = act s.mem)
    (hlog : s'.log = s.log ++ [(t, c)]) (hs : s'.owner = s.owner)
    (hentered : s'.entered u = s.entered u) (hhistory : s'.history u = s.history u) :
    D.At s' u run := by
  cases h with
  | inside d p fail body hd _ hin hstate hturns hmine =>
      have hfree : p.Always M.handle (fun e _ => Prog.Unaffected M.handle act e) s.mem :=
        hmine.mono fun e _ he => (D.own hinv hadm hc hu he).1
      obtain ⟨hval, hafter⟩ := Prog.commutes_of_always hfree
      refine .inside d p fail body hd (hs.trans howner) (hentered.trans hin) ?_ ?_ ?_
      · rw [hlog, M.replay_concat, hc, hmem, hafter, ← hstate]
        rfl
      · rw [hlog, M.turns_concat_of_ne hu, hhistory, hmem, hval, hturns]
      · rw [hmem, hlog]
        refine hfree.after_act (hmine.mono fun e _ he => ?_)
        exact (D.own hinv hadm hc hu he).2
  | idle hne | starting _ _ hne | refused _ _ _ _ hne | left _ _ _ _ _ hne =>
      exact absurd howner hne

/-- A thread moves on; the others stay where they are. -/
theorem Holds.advance (h : D.Holds S) (t : T) (ht : D.At s t run)
    (hother : ∀ u, u ≠ t → D.At S.shared u (S.running u) → D.At s u (S.running u))
    (hfree : s.owner = none → s.mem = M.replay s₀ s.log) (hinv : D.inv s.log)
    (hhonest : M.Honest (s.history t))
    (hhistory : ∀ u, u ≠ t → s.history u = S.shared.history u) :
    D.Holds ⟨s, Function.update S.running t run⟩ := by
  refine ⟨fun u => ?_, hfree, hinv, fun u => ?_⟩
  · by_cases hu : u = t
    · subst hu
      simpa using ht
    · simpa [hu] using hother u hu (h.places u)
  · by_cases hu : u = t
    · subst hu
      exact hhonest
    · rw [hhistory u hu]
      exact h.honest u

/-- A thread takes the mutex: from then on its call counts as made. -/
theorem Holds.enter (h : D.Holds S) {fail : R} {body : Prog E R}
    (hc : M.conduct c = .locked fail body) (howner : S.shared.owner = none)
    (hadm : M.Admissible s₀ S.shared.log t c)
    (hturns : M.turns s₀ S.shared.log t = taken (S.shared.history t)) :
    D.Holds ⟨S.shared.enter t c, Function.update S.running t (some (c, body.leaving))⟩ := by
  have hrun : ∀ s, (M.conduct c).run M.handle s = body.run M.handle s := by
    intro s
    rw [hc]
    rfl
  have hmem := h.free howner
  refine h.advance t ?_ ?_ nofun (D.call h.inv hadm) (h.honest t) (fun _ _ => rfl)
  · refine .inside c body fail body hc rfl (Function.update_self ..) ?_ ?_ ?_
    · simp only [MonitorState.enter, M.replay_concat, hrun, hmem]
      rfl
    · simp only [MonitorState.enter, M.turns_concat, hturns, hrun, hmem]
      rfl
    · have hbody := D.body h.inv hadm hc
      rw [← hmem] at hbody
      exact hbody
  · intro u hu hplace
    refine hplace.frame (by simp [howner]) ?_ ?_ rfl (M.turns_concat_of_ne hu)
    · simpa [MonitorState.enter] using hu.symm
    · simp [MonitorState.enter, hu]

/-- The holder of the mutex makes a request of its call. -/
theorem Holds.inner (h : D.Holds S) {e : E.Req} {k : E.Ans e → Prog E R} {fail : R}
    {body : Prog E R} (hc : M.conduct c = .locked fail body) (howner : S.shared.owner = some t)
    (hin : S.shared.entered t = true)
    (hstate : M.replay s₀ S.shared.log = (Prog.req e k).state M.handle S.shared.mem)
    (hturns : M.turns s₀ S.shared.log t =
      taken (S.shared.history t) ++ [(c, (Prog.req e k).val M.handle S.shared.mem)])
    (hmine : (Prog.req e k).Always M.handle (fun e _ => D.mine S.shared.log t e) S.shared.mem) :
    D.Holds ⟨{ S.shared with mem := (M.handle e S.shared.mem).2 },
      Function.update S.running t (some (c, (k (M.handle e S.shared.mem).1).leaving))⟩ := by
  refine h.advance t (.inside c _ fail body hc howner hin hstate hturns hmine.2) ?_ ?_ h.inv
    (h.honest t) (fun _ _ => rfl)
  · intro u hu hplace
    have hne : S.shared.owner ≠ some u := by
      rw [howner]
      simpa using hu.symm
    exact hplace.frame hne hne rfl rfl rfl
  · intro hnone
    rw [howner] at hnone
    cases hnone

/-- The holder of the mutex releases it. -/
theorem Holds.unlock (h : D.Holds S) {r fail : R} {body : Prog E R}
    (hc : M.conduct c = .locked fail body) (howner : S.shared.owner = some t)
    (hin : S.shared.entered t = true) (hstate : M.replay s₀ S.shared.log = S.shared.mem)
    (hturns : M.turns s₀ S.shared.log t = taken (S.shared.history t) ++ [(c, r)]) :
    D.Holds ⟨{ S.shared with owner := none },
      Function.update S.running t (some (c, .ret r))⟩ := by
  refine h.advance t (.left c r fail body hc nofun hin hturns) ?_ (fun _ => hstate.symm) h.inv
    (h.honest t) (fun _ _ => rfl)
  intro u hu hplace
  refine hplace.frame ?_ nofun rfl rfl rfl
  rw [howner]
  simpa using hu.symm

/-- A call under the mutex returns. -/
theorem Holds.return_locked (h : D.Holds S) {r fail : R} {body : Prog E R}
    (hc : M.conduct c = .locked fail body) (howner : S.shared.owner ≠ some t)
    (hturns : M.turns s₀ S.shared.log t =
      taken (S.shared.history t ++ [⟨c, r, S.shared.entered t⟩]))
    (hfail : S.shared.entered t = false → r = fail) :
    D.Holds ⟨M.finish t c r S.shared, Function.update S.running t none⟩ := by
  simp only [finish, hc]
  refine h.advance t (.idle howner (Function.update_self ..) ?_) ?_ h.free h.inv ?_ ?_
  · simpa using hturns
  · intro u hu hplace
    exact hplace.frame_same rfl (by simp [hu]) (by simp [hu]) rfl rfl
  · simp only [Function.update_self]
    refine List.forall_mem_append.mpr ⟨h.honest t, List.forall_mem_singleton.mpr ?_⟩
    intro hout
    exact ⟨body, hfail hout ▸ hc⟩
  · intro u hu
    simp [hu]

/-- A thread does something of its own. -/
theorem Holds.return_own (h : D.Holds S) {r : R} {act : σ → σ} (hc : M.conduct c = .own r act)
    (howner : S.shared.owner ≠ some t) (hout : S.shared.entered t = false)
    (hadm : M.Admissible s₀ S.shared.log t c)
    (hturns : M.turns s₀ S.shared.log t = taken (S.shared.history t)) :
    D.Holds ⟨M.finish t c r S.shared, Function.update S.running t none⟩ := by
  have hreplay : M.replay s₀ (S.shared.log ++ [(t, c)]) = act (M.replay s₀ S.shared.log) := by
    rw [M.replay_concat, hc]
    rfl
  have hturn : M.turns s₀ (S.shared.log ++ [(t, c)]) t = M.turns s₀ S.shared.log t ++ [(c, r)] := by
    rw [M.turns_concat, hc]
    rfl
  simp only [finish, hc]
  refine h.advance t (.idle howner hout ?_) ?_ ?_ (D.call h.inv hadm) ?_ ?_
  · simp [hturn, hturns, taken]
  · intro u hu hplace
    by_cases hs : S.shared.owner = some u
    · exact hplace.frame_own hs hu h.inv hadm hc rfl rfl rfl rfl (by simp [hu])
    · exact hplace.frame hs hs rfl (by simp [hu]) (M.turns_concat_of_ne hu)
  · intro hnone
    rw [hreplay, ← h.free hnone]
  · simp only [Function.update_self]
    exact List.forall_mem_append.mpr ⟨h.honest t, List.forall_mem_singleton.mpr nofun⟩
  · intro u hu
    simp [hu]

theorem Holds.next (h : D.Holds S) {e : ThreadsEvent T C} (he : M.threads.guard S e) :
    D.Holds (M.threads.next S e) := by
  cases e with
  | call t c =>
      refine h.advance t ?_ (fun _ _ hplace => hplace) h.free h.inv (h.honest t) (fun _ _ => rfl)
      have hplace := h.places t
      rw [he.1] at hplace
      cases hplace with
      | idle howner hout hturns => exact .starting c he.2 howner hout hturns
  | step t i =>
      have hplace := h.places t
      simp only [Threads.guard] at he
      simp only [Threads.next]
      generalize S.running t = run at hplace he
      cases hplace with
      | idle => exact he.elim
      | starting c hmay howner hout hturns =>
          have hadm : M.Admissible s₀ S.shared.log t c := ⟨_, hturns, h.honest t, hmay⟩
          cases hc : M.conduct c with
          | own r act => exact h.return_own hc howner hout hadm hturns
          | locked fail body =>
              rw [hc] at he
              by_cases hi : i = 0
              · have hfree : S.shared.owner = none := he hi
                subst hi
                exact h.enter hc hfree hadm hturns
              · have hrefused : M.handleLock t c i .lock S.shared = (false, S.shared) := if_neg hi
                change D.Holds ⟨(M.handleLock t c i .lock S.shared).2, Function.update S.running t
                  (some (c, if (M.handleLock t c i .lock S.shared).1 then _ else .ret fail))⟩
                rw [hrefused]
                exact h.advance t (.refused c fail body hc howner hout hturns)
                  (fun _ _ hplace => hplace) h.free h.inv (h.honest t) (fun _ _ => rfl)
      | refused c fail body hc howner hout hturns =>
          exact h.return_locked hc howner (by simp [taken, hout, hturns]) fun _ => rfl
      | inside c p fail body hc howner hin hstate hturns hmine =>
          cases p with
          | ret r => exact h.unlock hc howner hin hstate hturns
          | req e k => exact h.inner hc howner hin hstate hturns hmine
      | left c r fail body hc howner hin hturns =>
          refine h.return_locked hc howner (by simp [taken, hin, hturns]) ?_
          intro hout
          rw [hin] at hout
          cases hout

/-- Calls that keep to the discipline one by one can be explained by their log. -/
theorem holds_exec {es : List (ThreadsEvent T C)}
    (hes : M.threads.machine.Admits (Threads.start (.start s₀)) es) :
    D.Holds (M.threads.machine.exec (Threads.start (.start s₀)) es) :=
  Machine.exec_induction (fun _ _ h he => h.next he) holds_start hes

end Discipline
end Monitor
end Unid.Lib
