import Unid.Spike.SharedMemory

/-!
# Who gets the message

A client that gets past `sem_wait` should find the status 1 and the whole
message.  It holds on to objects, not to names, and between its calls the server
may end, take the names away and start again on new objects.  What carries it
through is that the server takes the name from an object only after the message
is in it, and takes it before the name of the semaphore: a client whose object is
not complete yet knows that both of its objects still have their names.

As long as `sem_wait` and `sem_unlink` do not fail, the one thing that can go wrong
is left over from before: a semaphore that somebody posted and nobody has waited
for, without the message that it announces.

## Main definitions

* `Complete`, `Clean`, `Ending.Expected` — what a client should find, what should be found at the
  start, and the endings that are meant.
* `Waits` — what a client knows when it waits.
* `contract` — the invariant, and what each process may change.
-/

namespace Unid.Spike.SharedMemory
open Lib

/-- What a client should find. -/
structure Complete (d : SharedData) : Prop where
  sized : d.sized = true
  status : d.status = 1
  message : ∀ i ≤ hello.length, d.message i = hello.getD i 0

/-- No semaphore lets a client through, unless the message is there. -/
def Clean (shm : Named SharedData) (sem : Named ℕ) : Prop :=
  ∀ b, sem.bound = some b → 0 < sem.obj b → ∃ a, shm.bound = some a ∧ Complete (shm.obj a)

/-- A failure that the program reports, or the message.  Only the server may be killed, namely
when `ftruncate` has failed, which it does not look at. -/
def Ending.Expected : Party → Ending → Prop
  | .server, e => (∃ call, e = .failed call) ∨ e = .killed ∨ e = .wrote hello
  | .client _, e => (∃ call, e = .failed call) ∨ e = .read 1 hello

namespace Complete
variable {d : SharedData}

theorem resize (h : Complete d) : Complete d.resize := by
  rw [SharedData.resize, if_pos h.sized]
  exact h

theorem setStatus (h : Complete d) : Complete (d.setStatus 1) := ⟨h.sized, rfl, h.message⟩

theorem setByte (h : Complete d) (i : ℕ) : Complete (d.setByte i (hello.getD i 0)) := by
  refine ⟨h.sized, h.status, ?_⟩
  intro j hj
  by_cases hji : j = i
  · subst hji
    simp [SharedData.setByte]
  · simpa [SharedData.setByte, hji] using h.message j hj

end Complete

/-! ## The contract -/

/-- The object of a client is complete, or both of its objects still have their names. -/
def Waits (s : Ipc) (a b : ℕ) : Prop :=
  s.shm.Has Complete a ∨ s.shm.bound = some a ∧ s.sem.bound = some b

/-- What a step of the server leaves to the clients. -/
structure Keeps (s s' : Ipc) : Prop where
  complete : ∀ a, s.shm.Has Complete a → s'.shm.Has Complete a
  opened : ∀ a, s.shm.Reaches Complete a → s'.shm.Reaches Complete a
  waits : ∀ a b, Waits s a b → Waits s' a b

/-- What a step of a client leaves to the others. -/
structure Takes (s s' : Ipc) : Prop where
  shm : s'.shm = s.shm
  bound : s'.sem.bound = s.sem.bound
  le : ∀ b, s'.sem.obj b ≤ s.sem.obj b

/-- A semaphore that lets clients through announces a complete message. -/
structure Inv (s : Ipc) : Prop where
  told : ∀ a b, s.shm.bound = some a → s.sem.bound = some b → 0 < s.sem.obj b →
    Complete (s.shm.obj a)
  endings : ∀ x ∈ s.endings, x.2.Expected x.1

def contract : Contract handoff where
  inv := Inv
  guar
    | .server => Keeps
    | .client _ => Takes
  idle
    | .server => fun s => Clean s.shm s.sem
    | .client _ => fun _ => True

variable {s s' : Ipc} {a b i : ℕ} {f : SharedData → SharedData} {e : Ending}

/-- The server changes neither the object nor who has the names. -/
theorem Keeps.of_eq (hshm : s'.shm = s.shm) (hbound : s'.sem.bound = s.sem.bound) :
    Keeps s s' where
  complete _ h := by rwa [hshm]
  opened _ h := by rwa [hshm]
  waits _ _ h := by rwa [Waits, hshm, hbound]

theorem Keeps.refl (s : Ipc) : Keeps s s := .of_eq rfl rfl

theorem Takes.refl (s : Ipc) : Takes s s := ⟨rfl, rfl, fun _ => le_rfl⟩

theorem stable_server {P : Ipc → Prop} (h : ∀ s s', Takes s s' → P s → P s') :
    contract.Stable .server P := by
  intro u hu s s' _ _ hguar hs
  cases u with
  | server => exact absurd rfl hu
  | client i => exact h s s' hguar hs

theorem stable_client {P : Ipc → Prop} (hkeeps : ∀ s s', Keeps s s' → P s → P s')
    (htakes : ∀ s s', s'.shm = s.shm → s'.sem.bound = s.sem.bound → P s → P s') :
    contract.Stable (.client i) P := by
  intro u _ s s' _ _ hguar hs
  cases u with
  | server => exact hkeeps s s' hguar hs
  | client j => exact htakes s s' hguar.shm hguar.bound hs

theorem Clean.takes (h : Clean s.shm s.sem) (ht : Takes s s') : Clean s'.shm s'.sem := by
  intro b hb hpos
  rw [ht.shm]
  exact h b (ht.bound ▸ hb) (hpos.trans_le (ht.le b))

theorem stable_idle : ∀ t, contract.Stable t (contract.idle t)
  | .server => stable_server fun _ _ ht h => Clean.takes h ht
  | .client _ => fun _ _ _ _ _ _ _ _ => trivial

theorem Inv.log (h : Inv s) {t : Party} (he : e.Expected t) :
    Inv { s with endings := (t, e) :: s.endings } :=
  ⟨h.told, List.forall_mem_cons.mpr ⟨he, h.endings⟩⟩

/-- A process ends. -/
theorem returns {t : Party} (hinv : Inv s) (he : e.Expected t) (hidle : contract.idle t s) :
    contract.Returns t () e s := by
  intro s' hrely
  have hinv' : Inv s' := hrely.inv hinv
  have hidle' := (stable_idle t).rely hrely hidle
  cases t with
  | server => exact ⟨hinv'.log he, .of_eq rfl rfl, hidle'⟩
  | client i => exact ⟨hinv'.log he, ⟨rfl, rfl, fun _ => le_rfl⟩, trivial⟩

/-- The rule for a request of either program. -/
theorem wp_step {t : Party} {α : Type} {Q : α → Ipc → Prop} {e : IpcReq} {f : e.Ans → Main α}
    (P : Ipc → Prop) (hstable : contract.Stable t P) (hinv : Inv s) (hs : P s)
    (hstep : ∀ s j r s', handle j e s = (r, s') → Inv s → P s → Allowed j e s →
      Inv s' ∧ contract.guar t s s' ∧ (Inv s' → contract.Wp t () Q (f r) s')) :
    contract.Wp t () Q (Prog.ask (E := ipcSig) e >>= f) s :=
  .bind (.ask P hstable hinv hs fun s j hinv hs hallowed =>
    hstep s j _ _ rfl hinv hs hallowed) hinv

/-! ## Reading -/

theorem hello_ne_zero : ∀ b ∈ hello, b ≠ 0 := by decide

/-- Whoever knows that the message is there reads it whole. -/
theorem wp_readMessage {t : Party} {P : Ipc → Prop} (hP : contract.Stable t P)
    (hsized : ∀ s, P s → (s.shm.obj a).sized = true)
    (hmessage : ∀ s, P s → ∀ i ≤ hello.length, (s.shm.obj a).message i = hello.getD i 0)
    (hrefl : ∀ s, contract.guar t s s) {left i : ℕ} (hi : i ≤ hello.length)
    (hleft : hello.length < i + left) (hinv : Inv s) (hs : P s) :
    contract.Wp t () (fun r s => r = .ok hello ∧ P s) (readMessage a left i (hello.take i)) s := by
  induction left generalizing i s with
  | zero => omega
  | succ left ih =>
      refine wp_step P hP hinv hs ?_
      intro s j r s' h hinv hs _
      obtain ⟨rfl, rfl⟩ := handle_loadByte h (hsized s hs)
      refine ⟨hinv, hrefl s', fun _ => ?_⟩
      rw [hmessage s' hs i hi]
      by_cases hend : i = hello.length
      · subst hend
        exact ⟨by simp, hs⟩
      · have hlt : i < hello.length := by omega
        have hget : hello.getD i 0 = hello[i] := by simp [hlt]
        have hne := hello_ne_zero _ (List.getElem_mem hlt)
        dsimp only
        rw [hget, if_neg hne, List.take_append_getElem hlt]
        exact ih hlt (by omega) hinv hs

/-! ## The client -/

theorem Waits.has (h : Waits s a b) (hinv : Inv s) (hpos : 0 < s.sem.obj b) :
    s.shm.Has Complete a :=
  h.elim id fun h => Named.has_of_bound h.1 (hinv.told a b h.1 h.2 hpos)

theorem Takes.semWait : Takes s { s with sem := s.sem.modify b (· - 1) } := by
  refine ⟨rfl, rfl, ?_⟩
  intro c
  by_cases hcb : c = b
  · subst hcb
    simp
  · simp [Named.modify, hcb]

theorem Inv.takes (h : Inv s) (ht : Takes s s') (hlog : s'.endings = s.endings) : Inv s' := by
  refine ⟨?_, hlog ▸ h.endings⟩
  intro a b ha hb hpos
  rw [ht.shm] at ha ⊢
  exact h.told a b ha (ht.bound ▸ hb) (hpos.trans_le (ht.le b))

theorem stable_complete : contract.Stable (.client i) fun s => s.shm.Has Complete a :=
  stable_client (fun _ _ hk h => hk.complete a h) (fun _ _ hshm _ h => hshm ▸ h)

theorem stable_opened : contract.Stable (.client i) fun s => s.shm.Reaches Complete a :=
  stable_client (fun _ _ hk h => hk.opened a h) (fun _ _ hshm _ h => hshm ▸ h)

theorem stable_waits : contract.Stable (.client i) fun s => Waits s a b := by
  refine stable_client (fun _ _ hk h => hk.waits a b h) ?_
  intro s s' hshm hbound h
  rwa [Waits, hshm, hbound]

/-- A client that waits for the semaphore of a complete message reads it. -/
theorem wp_receive (hinv : Inv s) (hs : Waits s a b) :
    contract.Safe (.client i) () (receive a b) s := by
  refine wp_step _ stable_waits hinv hs ?_
  rintro s _ r s' h hinv hs ⟨rfl, hpos⟩
  obtain rfl := handle_semWait h
  have hhas := hs.has hinv hpos
  refine ⟨hinv.takes .semWait rfl, .semWait, fun hinv' => ?_⟩
  refine wp_step _ stable_complete hinv' hhas ?_
  intro s j r s' h hinv hhas _
  obtain ⟨rfl, rfl⟩ := handle_loadStatus h hhas.2.sized
  refine ⟨hinv, .refl s', fun _ => ?_⟩
  rw [hhas.2.status]
  refine .bind ((wp_readMessage stable_complete (fun _ h => h.2.sized) (fun _ h => h.2.message)
    Takes.refl (Nat.zero_le _) (by decide) hinv hhas).mono ?_) hinv
  rintro _ s ⟨rfl, -⟩ hinv
  exact returns hinv (.inr rfl) trivial

theorem wp_client (hinv : Inv s) : contract.Safe (.client i) () client s := by
  have hfail : ∀ {s : Ipc} (call : String), Inv s →
      contract.Returns (.client i) () (.failed call) s :=
    fun call hinv => returns hinv (.inl ⟨call, rfl⟩) trivial
  refine wp_step (fun _ => True) (fun _ _ _ _ _ _ _ _ => trivial) hinv trivial ?_
  intro s j fd s' h hinv _ _
  obtain ⟨rfl, hfd⟩ := handle_shmOpen_false h
  refine ⟨hinv, .refl s', fun _ => ?_⟩
  cases fd with
  | none => exact hfail _ hinv
  | some a =>
      refine wp_step _ stable_opened hinv (.inr (hfd a rfl)) ?_
      rintro s j mapped _ ⟨⟩ hinv hopened _
      refine ⟨hinv, .refl s, fun _ => ?_⟩
      split
      · refine wp_step _ stable_opened hinv hopened ?_
        intro s j sem s' h hinv hopened _
        obtain ⟨rfl, hsem⟩ := handle_semOpen_false h
        refine ⟨hinv, .refl s', fun _ => ?_⟩
        cases sem with
        | none => exact hfail _ hinv
        | some b => exact wp_receive hinv (hopened.imp_right fun ha => ⟨ha, hsem b rfl⟩)
      · exact hfail _ hinv

/-! ## The server -/

theorem Keeps.modify (hf : ∀ d, Complete d → Complete (f d)) :
    Keeps s { s with shm := s.shm.modify a f } where
  complete _ h := h.modify hf
  opened _ h := h.modify hf
  waits _ _ h := h.imp_left fun h => h.modify hf

/-- The server changes its object, without breaking a message that is there. -/
theorem Inv.modify (h : Inv s) (ha : s.shm.bound = some a) (hf : ∀ d, Complete d → Complete (f d)) :
    Inv { s with shm := s.shm.modify a f } := by
  refine ⟨?_, h.endings⟩
  intro c b hc hb hpos
  obtain rfl : a = c := Option.some.inj (ha.symm.trans hc)
  simpa using hf _ (h.told a b ha hb hpos)

theorem Inv.clean (h : Inv s) (ha : s.shm.bound = some a) : Clean s.shm s.sem :=
  fun b hb hpos => ⟨a, ha, h.told a b ha hb hpos⟩

theorem Keeps.shmOpen : Keeps s { s with shm := (s.shm.openOrMake .blank).2 } where
  complete _ h := h.openOrMake
  opened _ h := h.openOrMake
  waits a b h := by
    refine h.imp (·.openOrMake) ?_
    rintro ⟨ha, hb⟩
    rw [Named.openOrMake_of_bound ha]
    exact ⟨ha, hb⟩

/-- A new object is announced by no semaphore. -/
theorem Inv.shmOpen (h : Inv s) (hclean : Clean s.shm s.sem) :
    Inv { s with shm := (s.shm.openOrMake .blank).2 } := by
  cases hbound : s.shm.bound with
  | some a =>
      rw [Named.openOrMake_of_bound hbound]
      exact h
  | none =>
      refine ⟨?_, h.endings⟩
      intro a b _ hb hpos
      obtain ⟨a, ha, -⟩ := hclean b hb hpos
      simp [hbound] at ha

theorem Keeps.semOpen : Keeps s { s with sem := (s.sem.openOrMake 0).2 } where
  complete _ h := h
  opened _ h := h
  waits a b h := by
    refine h.imp_right ?_
    rintro ⟨ha, hb⟩
    rw [Named.openOrMake_of_bound hb]
    exact ⟨ha, hb⟩

/-- A new semaphore lets nobody through. -/
theorem Inv.semOpen (h : Inv s) : Inv { s with sem := (s.sem.openOrMake 0).2 } := by
  cases hbound : s.sem.bound with
  | some b =>
      rw [Named.openOrMake_of_bound hbound]
      exact h
  | none =>
      refine ⟨?_, h.endings⟩
      intro a b _ hb hpos
      dsimp only at hb hpos
      rw [Named.bound_openOrMake, Option.some.injEq] at hb
      rw [← hb, Named.obj_openOrMake_of_unbound hbound] at hpos
      exact absurd hpos (lt_irrefl 0)

/-- The server has written the status and so many bytes. -/
structure Written (a k : ℕ) (s : Ipc) : Prop where
  bound : s.shm.bound = some a
  sized : (s.shm.obj a).sized = true
  status : (s.shm.obj a).status = 1
  message : ∀ i < k, (s.shm.obj a).message i = hello.getD i 0

theorem stable_bound : contract.Stable .server fun s => s.shm.bound = some a :=
  stable_server fun _ _ ht h => ht.shm ▸ h

theorem stable_written {k : ℕ} : contract.Stable .server (Written a k) := by
  refine stable_server ?_
  rintro s s' ht ⟨hbound, hsized, hstatus, hmessage⟩
  rw [← ht.shm] at hbound hsized hstatus hmessage
  exact ⟨hbound, hsized, hstatus, hmessage⟩

theorem Written.complete {k : ℕ} (h : Written a k s) (hk : hello.length < k) :
    Complete (s.shm.obj a) :=
  ⟨h.sized, h.status, fun i hi => h.message i (by omega)⟩

theorem Written.storeByte {k : ℕ} (h : Written a k s) :
    Written a (k + 1) { s with shm := s.shm.modify a (.setByte k (hello.getD k 0)) } := by
  refine ⟨h.bound, ?_, ?_, ?_⟩
  · simpa [SharedData.setByte] using h.sized
  · simpa [SharedData.setByte] using h.status
  · intro i hi
    by_cases hik : i = k
    · subst hik
      simp [SharedData.setByte]
    · simpa [SharedData.setByte, hik] using h.message i (by omega)

theorem wp_strncpy {left k : ℕ} (hinv : Inv s) (hs : Written a k s) :
    contract.Wp .server () (fun ok s => if ok then Written a (k + left) s
      else s.shm.bound = some a) (strncpy a hello left k) s := by
  induction left generalizing k s with
  | zero => exact hs
  | succ left ih =>
      refine wp_step _ stable_written hinv hs ?_
      intro s j r s' h hinv hs _
      obtain ⟨rfl, rfl⟩ | ⟨rfl, -, rfl⟩ := handle_storeByte h
      · exact ⟨hinv, .refl s', fun _ => hs.bound⟩
      · refine ⟨hinv.modify hs.bound fun _ h => h.setByte k, .modify fun _ h => h.setByte k,
          fun hinv' => ?_⟩
        have hrest := ih hinv' hs.storeByte
        rwa [show k + 1 + left = k + (left + 1) by omega] at hrest

/-- Whatever has the name is complete. -/
def Done (s : Ipc) : Prop := ∀ c, s.shm.bound = some c → Complete (s.shm.obj c)

theorem Written.done (h : Written a bufferSize s) : Done s := by
  intro c hc
  obtain rfl : a = c := Option.some.inj (h.bound.symm.trans hc)
  exact h.complete (by decide)

theorem stable_done : contract.Stable .server Done := by
  refine stable_server ?_
  intro s s' ht h
  rwa [Done, ht.shm]

/-- Nobody waits for an object that is not complete any more. -/
theorem Done.has (hdone : Done s) (h : Waits s a b) : s.shm.Has Complete a :=
  h.elim id fun h => Named.has_of_bound h.1 (hdone a h.1)

theorem Done.inv (hdone : Done s) (hends : ∀ x ∈ s.endings, x.2.Expected x.1) : Inv s :=
  ⟨fun a _ ha _ _ => hdone a ha, hends⟩

theorem Done.unlink (hdone : Done s) : Keeps s { s with shm := s.shm.unlink } where
  complete _ h := h
  opened _ h := h.unlink hdone
  waits _ _ h := .inl (hdone.has h)

/-- The server posts, and takes the names away.  The post and the first of the two may fail: the
next server then finds the message that it would write. -/
theorem wp_finish (hinv : Inv s) (hs : Done s) :
    contract.Safe .server () (finish b hello) s := by
  refine wp_step _ stable_done hinv hs ?_
  intro s j r s' h hinv hs _
  obtain ⟨hshm, hbound, hlog⟩ := handle_semPost h
  have hs' : Done s' := by rwa [Done, hshm]
  refine ⟨hs'.inv (hlog ▸ hinv.endings), .of_eq hshm hbound, fun hinv' => ?_⟩
  refine wp_step _ stable_done hinv' hs' ?_
  intro s j r s' h hinv hs _
  have hunlink : Done s' ∧ s'.endings = s.endings ∧ Keeps s s' := by
    obtain rfl | rfl := handle_shmUnlink h
    · exact ⟨hs, rfl, .refl s'⟩
    · exact ⟨by simp [Done], rfl, hs.unlink⟩
  obtain ⟨hs', hlog, hkeeps⟩ := hunlink
  refine ⟨hs'.inv (hlog ▸ hinv.endings), hkeeps, fun hinv' => ?_⟩
  refine wp_step _ stable_done hinv' hs' ?_
  rintro s _ r s' h hinv hs rfl
  obtain rfl := handle_semUnlink h
  refine ⟨⟨by simp, hinv.endings⟩, ⟨fun _ h => h, fun _ h => h, fun _ _ h => .inl (hs.has h)⟩,
    fun hinv' => ?_⟩
  exact returns hinv' (.inr (.inr rfl)) (by simp [Clean, contract])

theorem wp_write (hinv : Inv s) (hs : s.shm.bound = some a) :
    contract.Safe .server () (write a b) s := by
  have hkilled : ∀ {s : Ipc}, Inv s → s.shm.bound = some a →
      contract.Returns .server () .killed s :=
    fun hinv hs => returns hinv (.inr (.inl rfl)) (hinv.clean hs)
  refine wp_step _ stable_bound hinv hs ?_
  intro s j r s' h hinv hs _
  obtain ⟨rfl, rfl⟩ | ⟨rfl, hsized, rfl⟩ := handle_storeStatus h
  · exact ⟨hinv, .refl s', fun _ => hkilled hinv hs⟩
  refine ⟨hinv.modify hs fun _ h => h.setStatus, .modify fun _ h => h.setStatus, fun hinv' => ?_⟩
  have hwritten : Written a 0 { s with shm := s.shm.modify a (.setStatus 1) } :=
    ⟨hs, by simpa [SharedData.setStatus] using hsized, by simp [SharedData.setStatus], by simp⟩
  refine .bind ((wp_strncpy hinv' hwritten).mono ?_) hinv'
  intro ok s hs hinv
  cases ok with
  | false => exact hkilled hinv hs
  | true =>
      have hs : Written a bufferSize s := by simpa using hs
      refine .bind ((wp_readMessage stable_written (fun _ h => h.sized)
        (fun _ h => (h.complete (by decide)).message) Keeps.refl (Nat.zero_le _) (by decide)
        hinv hs).mono ?_) hinv
      rintro _ s ⟨rfl, hs⟩ hinv
      exact wp_finish hinv hs.done

theorem wp_server (hinv : Inv s) (hclean : Clean s.shm s.sem) :
    contract.Safe .server () server s := by
  have hfail : ∀ {s : Ipc} (call : String), Inv s → Clean s.shm s.sem →
      contract.Returns .server () (.failed call) s :=
    fun call hinv hclean => returns hinv (.inl ⟨call, rfl⟩) hclean
  refine wp_step _ (stable_idle .server) hinv hclean ?_
  intro s j fd s' h hinv hclean _
  obtain ⟨rfl, rfl⟩ | ⟨rfl, rfl⟩ := handle_shmOpen_true h
  · exact ⟨hinv, .refl s', fun _ => hfail _ hinv hclean⟩
  refine ⟨hinv.shmOpen hclean, .shmOpen, fun hinv' => ?_⟩
  refine wp_step _ stable_bound hinv' Named.bound_openOrMake ?_
  generalize (s.shm.openOrMake SharedData.blank).1 = a
  intro s j r s' h hinv hs _
  have hsized : Inv s' ∧ Keeps s s' ∧ s'.shm.bound = some a := by
    obtain rfl | rfl := handle_ftruncate h
    · exact ⟨hinv, .refl s', hs⟩
    · exact ⟨hinv.modify hs fun _ h => h.resize, .modify fun _ h => h.resize, hs⟩
  refine ⟨hsized.1, hsized.2.1, fun hinv' => ?_⟩
  refine wp_step _ stable_bound hinv' hsized.2.2 ?_
  rintro s j mapped _ ⟨⟩ hinv hs _
  refine ⟨hinv, .refl s, fun _ => ?_⟩
  split
  · refine wp_step _ stable_bound hinv hs ?_
    intro s j sem s' h hinv hs _
    obtain ⟨rfl, rfl⟩ | ⟨rfl, rfl⟩ := handle_semOpen_true h
    · exact ⟨hinv, .refl s', fun _ => hfail _ hinv (hinv.clean hs)⟩
    · exact ⟨hinv.semOpen, .semOpen, fun hinv' => wp_write hinv' hs⟩
  · exact hfail _ hinv (hinv.clean hs)

/-- From a clean start every process ends as it should. -/
theorem holds_exec {shm : Named SharedData} {sem : Named ℕ} (hclean : Clean shm sem)
    {es : List (ThreadsEvent Party Unit)}
    (hes : handoff.machine.Admits (Threads.start ⟨shm, sem, []⟩) es) :
    contract.Holds (handoff.machine.exec (Threads.start ⟨shm, sem, []⟩) es) := by
  have hinv : Inv ⟨shm, sem, []⟩ := by
    refine ⟨?_, by simp⟩
    intro a b ha hb hpos
    obtain ⟨c, hc, hcomplete⟩ := hclean b hb hpos
    obtain rfl : a = c := Option.some.inj (ha.symm.trans hc)
    exact hcomplete
  refine contract.holds_exec stable_idle ?_ ?_ (.start hinv ?_) hes
  · rintro (_ | i) s
    · exact .refl s
    · exact .refl s
  · rintro (_ | i) _ s hinv hidle _
    · exact wp_server hinv hidle
    · exact wp_client hinv
  · rintro (_ | i)
    · exact hclean
    · trivial

/-! ## What a semaphore that is left over does -/

section LeftOver
variable {j : ℕ}

/-- What is read as a message is there, up to the NUL. -/
theorem val_readMessage (hsized : (s.shm.obj a).sized = true) (left i : ℕ) (seen : List Byte) :
    (readMessage a left i seen).val (handle j) s = .error .overrun ∨
    ∃ rest, (readMessage a left i seen).val (handle j) s = .ok (seen ++ rest) ∧
      ∀ k ≤ rest.length, (s.shm.obj a).message (i + k) = rest.getD k 0 := by
  induction left generalizing i seen with
  | zero => exact .inl rfl
  | succ left ih =>
      simp only [readMessage, Prog.val_bind, val_loadByte, state_loadByte, if_pos hsized,
        Prog.val_ite, Prog.monad_pure_eq, Prog.val_ret]
      by_cases hend : (s.shm.obj a).message i = 0
      · refine .inr ⟨[], ?_, ?_⟩
        · simp [hend]
        · simpa using hend
      · rw [if_neg hend]
        refine (ih (i + 1) (seen ++ [(s.shm.obj a).message i])).imp_right ?_
        rintro ⟨rest, hval, hrest⟩
        refine ⟨(s.shm.obj a).message i :: rest, by simpa using hval, ?_⟩
        rintro (_ | k) hk
        · rfl
        · rw [show i + (k + 1) = i + 1 + k by omega]
          exact hrest k (by simpa using hk)

theorem always_readMessage (left i : ℕ) (seen : List Byte) :
    (readMessage a left i seen).Always (handle j) (Allowed j) s := by
  induction left generalizing i seen with
  | zero => trivial
  | succ left ih =>
      refine Prog.always_bind.mpr ⟨Prog.always_ask.mpr trivial, ?_⟩
      split
      · trivial
      · split
        · trivial
        · exact ih _ _

/-- A client that gets past the semaphore ends well only if the message is there. -/
theorem complete_of_receive (hs : ((receive a b).val (handle 0) s).Expected (.client i)) :
    Complete (s.shm.obj a) := by
  simp only [receive, Prog.val_bind, state_semWait, val_loadStatus, state_loadStatus] at hs
  by_cases hsized : (s.shm.obj a).sized = true
  · have hread := val_readMessage (s := { s with sem := s.sem.modify b (· - 1) }) (j := 0) hsized
      bufferSize 0 []
    simp only [if_pos hsized, Prog.val_bind] at hs
    rcases hread with hval | ⟨message, hval, hmessage⟩
    · simp [hval, Ending.Expected] at hs
    · simp only [hval, Ending.Expected] at hs
      obtain ⟨hstatus, rfl⟩ : (s.shm.obj a).status = 1 ∧ message = hello := by simpa using hs
      exact ⟨hsized, hstatus, fun k hk => by simpa using hmessage k hk⟩
  · simp [if_neg hsized, Ending.Expected] at hs

theorem val_client (ha : s.shm.bound = some a) (hb : s.sem.bound = some b) :
    client.val (handle 0) s = (receive a b).val (handle 0) s := by
  simp only [client, Prog.val_bind, val_shmOpen_false, state_shmOpen_false, ha, val_mmap,
    state_mmap, if_true, val_semOpen_false, state_semOpen_false, hb]

theorem always_client (ha : s.shm.bound = some a) (hb : s.sem.bound = some b)
    (hpos : 0 < s.sem.obj b) : client.Always (handle 0) (Allowed 0) s := by
  simp only [client, Prog.always_bind, val_shmOpen_false, state_shmOpen_false, ha, val_mmap,
    state_mmap, if_true, val_semOpen_false, state_semOpen_false, hb, receive]
  refine ⟨⟨trivial, trivial⟩, ⟨trivial, trivial⟩, ⟨trivial, trivial⟩, ⟨⟨rfl, hpos⟩, trivial⟩,
    ⟨trivial, trivial⟩, ?_⟩
  split
  · trivial
  · refine Prog.always_bind.mpr ⟨always_readMessage _ _ _, ?_⟩
    split <;> trivial

/-- If a semaphore lets a client through and the message is not there, a client can end badly. -/
theorem exists_unexpected {S : ThreadsState ipcSig Ipc Party Unit Ending}
    (hrun : S.running (.client 0) = none) (ha : S.shared.shm.bound = some a)
    (hb : S.shared.sem.bound = some b) (hpos : 0 < S.shared.sem.obj b)
    (hnot : ¬ Complete (S.shared.shm.obj a)) :
    ∃ es, handoff.machine.Admits S es ∧
      ∃ x ∈ (handoff.machine.exec S es).shared.endings, ¬ x.2.Expected x.1 := by
  obtain ⟨es, hes, hexec⟩ := Threads.exists_exec_alone (M := handoff) (t := .client 0) (c := ())
    (S := handoff.next S (.call (.client 0) ())) (p := client) 0
    (by simp [Threads.next, handoff]) (always_client ha hb hpos)
  have hend : (.client 0, client.val (handle 0) S.shared) ∈
      (handoff.machine.exec (handoff.next S (.call (.client 0) ())) es).shared.endings := by
    rw [hexec]
    exact List.mem_cons_self
  refine ⟨.call (.client 0) () :: es, ⟨⟨hrun, trivial⟩, hes⟩, _, hend, ?_⟩
  rw [val_client ha hb]
  exact fun hexpected => hnot (complete_of_receive hexpected)

end LeftOver

/-- One server and any number of clients, each started any number of times, in any order of their
steps and with any failures but of `sem_wait` and `sem_unlink`: all that end do so as they should
exactly when no semaphore was left over with a positive value and without the message. -/
theorem handoff_expected_iff (shm : Named SharedData) (sem : Named ℕ) :
    (∀ es, handoff.machine.Admits (Threads.start ⟨shm, sem, []⟩) es →
      ∀ x ∈ (handoff.machine.exec (Threads.start ⟨shm, sem, []⟩) es).shared.endings,
        x.2.Expected x.1) ↔ Clean shm sem := by
  constructor
  · intro h
    by_contra hclean
    simp only [Clean, not_forall] at hclean
    obtain ⟨b, hb, hpos, hnone⟩ := hclean
    cases hbound : shm.bound with
    | some a =>
        obtain ⟨es, hes, x, hx, hnot⟩ := exists_unexpected (S := Threads.start ⟨shm, sem, []⟩) rfl
          hbound hb hpos (fun hcomplete => hnone ⟨a, hbound, hcomplete⟩)
        exact hnot (h es hes x hx)
    | none =>
        -- the server makes the object, and a client comes before it has a size
        let first : List (ThreadsEvent Party Unit) := [.call .server (), .step .server 0]
        have hblank : ¬ Complete ((shm.openOrMake .blank).2.obj (shm.openOrMake .blank).1) := by
          rw [Named.obj_openOrMake_of_unbound hbound]
          intro hcomplete
          cases hcomplete.sized
        obtain ⟨es, hes, x, hx, hnot⟩ := exists_unexpected
          (S := handoff.machine.exec (Threads.start ⟨shm, sem, []⟩) first) rfl
          Named.bound_openOrMake hb hpos hblank
        refine hnot (h (first ++ es) ?_ x ?_)
        · exact (Machine.admits_append ..).mpr ⟨⟨⟨rfl, trivial⟩, trivial, trivial⟩, hes⟩
        · rw [Machine.exec_append]
          exact hx
  · intro hclean es hes
    exact (holds_exec hclean hes).inv.endings

end Unid.Spike.SharedMemory
