import Unid.Lib.Machine

/-!
# Queues emptied by a chain of writes

A program that is to have at most one write in flight keeps its messages in a
queue.  They get there by tasks posted to an event loop: a task that finds the
queue empty pushes its message and starts a write, any other only pushes.  When a
write has completed, its handler pops the queue and starts the write of the next
message, if there is one.  The front stays in the queue while its write is in
flight, for the write reads the bytes there.

Nothing records whether a write is in flight; that the queue is not empty stands
for it.  This is right as long as every write succeeds (`Orderly`), and one write
that fails puts an end to it: its message stays at the front, and no task or
handler will ever start a write again (`Stalled`).

## Main definitions

* `Outbox` — posted tasks, queue, and writes in flight.
* `Outbox.post`, `Outbox.run`, `Outbox.complete` — what tasks and handlers do.
* `Outbox.Balanced` — the queue is not empty exactly when one write is in flight.
* `Outbox.Orderly` — the invariant while writes succeed.
* `Outbox.Stalled` — messages wait, and nothing is in flight.
* `Outbox.Step` — what a step of a program may do to its outbox.
-/

namespace Unid.Lib

structure Outbox (α : Type) where
  /-- The messages of the posted tasks that have not run, oldest first. -/
  posted : List α
  /-- The queue, front first. -/
  queue : List α
  /-- How many messages have been popped, which is the number of the one at the front. -/
  popped : ℕ
  /-- The writes in flight, each by the number of the message it reads. -/
  inFlight : List ℕ
  /-- The messages that writes have been started with. -/
  handed : List α
  /-- The messages that writes have read and completed with. -/
  written : List α
  deriving DecidableEq

namespace Outbox
variable {α ε : Type}

def empty : Outbox α := ⟨[], [], 0, [], [], []⟩

/-- Post a task that takes a message in. -/
def post (b : Outbox α) (m : α) : Outbox α := { b with posted := b.posted ++ [m] }

/-- Start the write of the front. It is called with a queue that is not empty. -/
def startWrite (b : Outbox α) : Outbox α :=
  match b.queue with
  | [] => b
  | m :: _ => { b with inFlight := b.popped :: b.inFlight, handed := b.handed ++ [m] }

/-- Run the oldest posted task. -/
def run (b : Outbox α) : Outbox α :=
  match b.posted with
  | [] => b
  | m :: posted =>
      let writeInProgress := !b.queue.isEmpty
      let pushed := { b with posted := posted, queue := b.queue ++ [m] }
      if writeInProgress then pushed else pushed.startWrite

/-- The message with this number, if it is still in the queue. -/
def message (b : Outbox α) (op : ℕ) : Option α :=
  if b.popped ≤ op then b.queue[op - b.popped]? else none

/-- A write completes, and its handler runs. -/
def complete (b : Outbox α) (op : ℕ) (ec : Option ε) : Outbox α :=
  let ended := { b with inFlight := b.inFlight.erase op }
  match ec with
  | none =>
      let popped := { ended with
        queue := b.queue.tail
        popped := b.popped + 1
        written := b.written ++ (b.message op).toList }
      if popped.queue.isEmpty then popped else popped.startWrite
  | some _ => ended

@[simp] theorem posted_startWrite (b : Outbox α) : b.startWrite.posted = b.posted := by
  unfold startWrite
  split <;> rfl

@[simp] theorem queue_startWrite (b : Outbox α) : b.startWrite.queue = b.queue := by
  unfold startWrite
  split <;> rfl

/-- How many tasks and handlers are still to run if no more tasks are posted. -/
def work (b : Outbox α) : ℕ := 2 * b.posted.length + b.queue.length

theorem work_run_lt {b : Outbox α} (h : b.posted ≠ []) : b.run.work < b.work := by
  obtain ⟨m, posted, hposted⟩ := List.exists_cons_of_ne_nil h
  have hwork : b.run.work = 2 * posted.length + (b.queue.length + 1) := by
    simp only [run, hposted, work]
    split <;> simp
  rw [hwork, work, hposted, List.length_cons]
  omega

theorem work_complete_lt {b : Outbox α} (h : b.queue ≠ []) (op : ℕ) :
    (b.complete op (none : Option ε)).work < b.work := by
  have hwork : (b.complete op (none : Option ε)).work =
      2 * b.posted.length + b.queue.tail.length := by
    simp only [complete, work]
    split <;> simp
  have hpos := List.length_pos_iff.mpr h
  rw [hwork, work, List.length_tail]
  omega

/-- The queue is not empty exactly when one write is in flight. -/
def Balanced (b : Outbox α) : Prop := b.queue ≠ [] ↔ b.inFlight.length = 1

/-- Messages wait, and nothing is in flight. -/
def Stalled (b : Outbox α) : Prop := b.queue ≠ [] ∧ b.inFlight = []

/-- All has gone well with the messages `ms`, taken in in this order. -/
structure Orderly (b : Outbox α) (ms : List α) : Prop where
  idle : b.queue = [] → b.inFlight = []
  busy : b.queue ≠ [] → b.inFlight = [b.popped]
  keeps : b.handed ++ (b.queue.tail ++ b.posted) = ms
  reads : b.handed = b.written ++ b.queue.take 1

theorem orderly_empty : (empty : Outbox α).Orderly [] := ⟨fun _ => rfl, by simp [empty], rfl, rfl⟩

namespace Orderly
variable {b : Outbox α} {ms : List α} {op : ℕ}

theorem balanced (h : b.Orderly ms) : b.Balanced := by
  by_cases hq : b.queue = []
  · simp [Balanced, hq, h.idle hq]
  · simp [Balanced, hq, h.busy hq]

theorem length_inFlight_le (h : b.Orderly ms) : b.inFlight.length ≤ 1 := by
  by_cases hq : b.queue = []
  · simp [h.idle hq]
  · simp [h.busy hq]

theorem handed_prefix (h : b.Orderly ms) : b.handed <+: ms := ⟨_, h.keeps⟩

theorem written_prefix (h : b.Orderly ms) : b.written <+: b.handed := ⟨_, h.reads.symm⟩

/-- With nothing posted and nothing in flight, all messages have been handed on. -/
theorem handed_eq (h : b.Orderly ms) (hposted : b.posted = []) (hflight : b.inFlight = []) :
    b.handed = ms := by
  have hq : b.queue = [] := by
    by_contra hq
    rw [h.busy hq] at hflight
    cases hflight
  have hkeeps := h.keeps
  rwa [hq, hposted, List.tail_nil, List.append_nil, List.append_nil] at hkeeps

theorem post (h : b.Orderly ms) (m : α) : (b.post m).Orderly (ms ++ [m]) :=
  ⟨h.idle, h.busy, by simp [Outbox.post, ← h.keeps], h.reads⟩

/-- The next write may start once nothing is in flight and the one before has been read. -/
theorem startWrite (hflight : b.inFlight = []) (hne : b.queue ≠ [])
    (hkeeps : b.handed ++ (b.queue ++ b.posted) = ms) (hreads : b.handed = b.written) :
    b.startWrite.Orderly ms := by
  obtain ⟨m, rest, hq⟩ := List.exists_cons_of_ne_nil hne
  rw [hq] at hkeeps
  simp only [Outbox.startWrite, hq]
  exact ⟨by simp, by simp [hflight], by simpa [hq] using hkeeps, by simp [hreads]⟩

theorem run (h : b.Orderly ms) : b.run.Orderly ms := by
  cases hposted : b.posted with
  | nil => simpa [Outbox.run, hposted] using h
  | cons m posted =>
      have hkeeps := h.keeps
      rw [hposted] at hkeeps
      cases hq : b.queue with
      | nil =>
          -- the task finds the queue empty and starts the write of its own message
          rw [hq] at hkeeps
          simp only [Outbox.run, hposted, hq, List.isEmpty_nil, Bool.not_true, Bool.false_eq_true,
            if_false]
          refine startWrite (h.idle hq) (by simp) (by simpa using hkeeps) ?_
          simpa [hq] using h.reads
      | cons q queue =>
          rw [hq] at hkeeps
          simp only [Outbox.run, hposted, hq, List.isEmpty_cons, Bool.not_false, if_true]
          refine ⟨by simp, fun _ => h.busy (by simp [hq]), by simpa using hkeeps, ?_⟩
          simpa [hq] using h.reads

/-- Only the front's write is in flight. -/
theorem of_mem_inFlight (h : b.Orderly ms) (hop : op ∈ b.inFlight) :
    ∃ m rest, b.queue = m :: rest ∧ op = b.popped ∧ b.inFlight = [op] := by
  have hne : b.queue ≠ [] := by
    intro hq
    rw [h.idle hq] at hop
    cases hop
  obtain ⟨m, rest, hq⟩ := List.exists_cons_of_ne_nil hne
  have hflight := h.busy hne
  rw [hflight, List.mem_singleton] at hop
  subst hop
  exact ⟨m, rest, hq, rfl, hflight⟩

theorem complete (h : b.Orderly ms) (hop : op ∈ b.inFlight) :
    (b.complete op (none : Option ε)).Orderly ms := by
  obtain ⟨m, rest, hq, rfl, hflight⟩ := h.of_mem_inFlight hop
  have hkeeps := h.keeps
  have hreads : b.handed = b.written ++ [m] := by simpa [hq] using h.reads
  have hmessage : b.message b.popped = some m := by simp [message, hq]
  rw [hq, List.tail_cons] at hkeeps
  simp only [Outbox.complete, hq, hmessage, hflight, List.tail_cons, Option.toList_some,
    List.erase_cons_head]
  cases rest with
  | nil => exact ⟨fun _ => rfl, by simp, hkeeps, by simpa using hreads⟩
  | cons m' rest =>
      rw [if_neg (by simp)]
      exact startWrite rfl (List.cons_ne_nil m' rest) hkeeps hreads

/-- A write that fails leaves its message where it is, with nothing in flight. -/
theorem stalled (h : b.Orderly ms) (hop : op ∈ b.inFlight) (ec : ε) :
    (b.complete op (some ec)).Stalled := by
  obtain ⟨m, rest, hq, -, hflight⟩ := h.of_mem_inFlight hop
  simp [Stalled, Outbox.complete, hq, hflight]

end Orderly

namespace Stalled
variable {b : Outbox α}

theorem not_balanced (h : b.Stalled) : ¬ b.Balanced := by
  simp [Balanced, h.1, h.2]

theorem post (h : b.Stalled) (m : α) : (b.post m).Stalled := h

/-- A task that runs finds the queue not empty, and starts nothing. -/
theorem run (h : b.Stalled) : b.run.Stalled ∧ b.run.handed = b.handed := by
  cases hposted : b.posted with
  | nil => simpa [Outbox.run, hposted] using h
  | cons m posted =>
      have hne : b.queue.isEmpty = false := by simpa using h.1
      simp [Outbox.run, hposted, hne, Stalled, h.2]

end Stalled

/-- What a step of a program may do to its outbox, with the error that a write has completed with
in the step, if one has. -/
inductive Step (b : Outbox α) : Option ε → Outbox α → Prop
  | skip : Step b none b
  | post (m : α) : Step b none (b.post m)
  | run : Step b none b.run
  | complete {op : ℕ} (ec : Option ε) : op ∈ b.inFlight → Step b ec (b.complete op ec)

section Step
variable {b b' : Outbox α} {ms : List α}

theorem Orderly.step (h : b.Orderly ms) (hstep : b.Step (none : Option ε) b') :
    ∃ ms', b'.Orderly ms' := by
  cases hstep with
  | skip => exact ⟨ms, h⟩
  | post m => exact ⟨_, h.post m⟩
  | run => exact ⟨ms, h.run⟩
  | complete _ hop => exact ⟨ms, h.complete hop⟩

theorem Orderly.stalled_of_step (h : b.Orderly ms) {ec : ε} (hstep : b.Step (some ec) b') :
    b'.Stalled := by
  cases hstep with
  | complete _ hop => exact h.stalled hop ec

/-- Nothing gets a stalled outbox going again. -/
theorem Stalled.step (h : b.Stalled) {ec : Option ε} (hstep : b.Step ec b') :
    b'.Stalled ∧ b'.handed = b.handed := by
  cases hstep with
  | skip => exact ⟨h, rfl⟩
  | post m => exact ⟨h.post m, rfl⟩
  | run => exact h.run
  | complete _ hop =>
      rw [h.2] at hop
      cases hop

end Step

section Runs
variable {σ ℓ : Type} {M : Machine σ ℓ} {box : σ → Outbox α} {error : ℓ → Option ε} {s : σ}
  {ls : List ℓ}

/-- The queue matches the writes in flight throughout a run exactly when no write of it fails. -/
theorem balanced_iff (hstep : ∀ s l, M.guard s l → (box s).Step (error l) (box (M.next s l)))
    (hs : ∃ ms, (box s).Orderly ms) (hls : M.Admits s ls) :
    (∀ ls', ls' <+: ls → (box (M.exec s ls')).Balanced) ↔ ∀ l ∈ ls, error l = none := by
  refine Machine.forall_prefix_iff (I := fun s => ∃ ms, (box s).Orderly ms)
    (P := fun s => (box s).Balanced) ?_ ?_ ?_ hs hls
  · rintro s ⟨ms, h⟩
    exact h.balanced
  · rintro s l ⟨ms, h⟩ hguard hgood
    have hl := hstep s l hguard
    rw [hgood] at hl
    exact h.step hl
  · rintro s l ⟨ms, h⟩ hguard hbad
    obtain ⟨ec, hec⟩ := Option.ne_none_iff_exists'.mp hbad
    have hl := hstep s l hguard
    rw [hec] at hl
    exact (h.stalled_of_step hl).not_balanced

/-- A stalled program starts no write again. -/
theorem Stalled.exec (hstep : ∀ s l, M.guard s l → (box s).Step (error l) (box (M.next s l)))
    (hs : (box s).Stalled) (hls : M.Admits s ls) :
    (box (M.exec s ls)).Stalled ∧ (box (M.exec s ls)).handed = (box s).handed := by
  refine Machine.exec_induction
    (I := fun t => (box t).Stalled ∧ (box t).handed = (box s).handed) ?_ ⟨hs, rfl⟩ hls
  rintro t l ⟨ht, hhanded⟩ hguard
  obtain ⟨hnext, hsame⟩ := ht.step (hstep t l hguard)
  exact ⟨hnext, hsame.trans hhanded⟩

end Runs

/-! ## What the messages have in common -/

section Holds
variable {G G' : α → Prop} {b : Outbox α}

/-- Every message that waits has the property. -/
structure Holds (G : α → Prop) (b : Outbox α) : Prop where
  posted : ∀ m ∈ b.posted, G m
  queue : ∀ m ∈ b.queue, G m

theorem holds_empty : (empty : Outbox α).Holds G := ⟨nofun, nofun⟩

namespace Holds

theorem mono (h : b.Holds G) (hG : ∀ m, G m → G' m) : b.Holds G' :=
  ⟨fun m hm => hG m (h.posted m hm), fun m hm => hG m (h.queue m hm)⟩

theorem post (h : b.Holds G) {m : α} (hm : G m) : (b.post m).Holds G := by
  refine ⟨?_, h.queue⟩
  intro m' hm'
  rcases List.mem_append.mp hm' with hold | hnew
  · exact h.posted m' hold
  · exact List.mem_singleton.mp hnew ▸ hm

theorem startWrite (h : b.Holds G) : b.startWrite.Holds G :=
  ⟨posted_startWrite b ▸ h.posted, queue_startWrite b ▸ h.queue⟩

theorem run (h : b.Holds G) : b.run.Holds G := by
  unfold Outbox.run
  split
  · exact h
  · next m posted hposted =>
      have hall := h.posted
      rw [hposted] at hall
      obtain ⟨hm, hrest⟩ := List.forall_mem_cons.mp hall
      have hpushed : Holds G { b with posted := posted, queue := b.queue ++ [m] } :=
        ⟨hrest, List.forall_mem_append.mpr ⟨h.queue, List.forall_mem_singleton.mpr hm⟩⟩
      dsimp only
      split
      · exact hpushed
      · exact hpushed.startWrite

theorem complete (h : b.Holds G) (op : ℕ) (ec : Option ε) : (b.complete op ec).Holds G := by
  cases ec with
  | some ec => exact ⟨h.posted, h.queue⟩
  | none =>
      have hpopped : Holds G { b with
          inFlight := b.inFlight.erase op
          queue := b.queue.tail
          popped := b.popped + 1
          written := b.written ++ (b.message op).toList } :=
        ⟨h.posted, fun m hm => h.queue m (List.mem_of_mem_tail hm)⟩
      simp only [Outbox.complete]
      split
      · exact hpopped
      · exact hpopped.startWrite

/-- What a write reads is one of the messages. -/
theorem message (h : b.Holds G) {op : ℕ} {m : α} (hm : b.message op = some m) : G m := by
  unfold Outbox.message at hm
  split at hm
  · exact h.queue m (List.mem_of_getElem? hm)
  · cases hm

end Holds
end Holds

end Outbox
end Unid.Lib
