import Unid.Lib.Named
import Unid.Lib.ByteMem
import Unid.Lib.Threads

/-!
# The message in shared memory

`ipc_shared_memory_server.cpp` and `ipc_shared_memory_client.cpp`: the server makes
a shared memory object and a semaphore, writes a message and posts the semaphore;
a client opens both, waits for the semaphore and reads.  At the end the server
takes both names away.

Each access to the object and each call of the system is one step.  An object that
has not been given a size has no page: who touches it is killed by a signal.  Every
call may fail, by choice, and without `O_CREAT` a name that nothing has cannot be
opened.  The programs look at the results of `shm_open`, `mmap` and `sem_open` only.
Two of the others are taken to succeed (`Allowed`): `sem_wait`, after whose failure
a client would read at once, and `sem_unlink`, after whose failure the semaphore
would be left over.

## Main definitions

* `SharedData`, `Ipc` — the object, and what the processes share.
* `server`, `client` — the two programs.
* `handoff` — one server and any number of clients, each run again and again.
-/

namespace Unid.Spike.SharedMemory
open Lib

def bufferSize : ℕ := 256

/-- The characters of `"Hello from server!"`. -/
def hello : List Byte := "Hello from server!".toList.map fun c => BitVec.ofNat 8 c.toNat

/-- A shared memory object.  Without a size it has no bytes. -/
structure SharedData where
  sized : Bool
  status : BitVec 32
  message : ℕ → Byte

namespace SharedData

/-- As `shm_open` makes it. -/
def blank : SharedData := ⟨false, 0, fun _ => 0⟩

/-- `ftruncate` to `sizeof(SharedData)`: what is added is zero. -/
def resize (d : SharedData) : SharedData := if d.sized then d else { blank with sized := true }

def setStatus (v : BitVec 32) (d : SharedData) : SharedData := { d with status := v }

def setByte (i : ℕ) (b : Byte) (d : SharedData) : SharedData :=
  { d with message := Function.update d.message i b }

end SharedData

/-- What a process is: the server, or one of the clients. -/
inductive Party
  | server
  | client (i : ℕ)
  deriving DecidableEq

/-- How a process ends. -/
inductive Ending
  /-- `perror` with this text, and `return 1`. -/
  | failed (call : String)
  /-- The server has printed what it wrote. -/
  | wrote (message : List Byte)
  /-- The client has printed what it read. -/
  | read (status : BitVec 32) (message : List Byte)
  /-- `SIGBUS`. -/
  | killed
  /-- The message has no end within its array. -/
  | overrun
  deriving DecidableEq

/-- The objects `/my_shm` and `/my_sem`, and how processes have ended. -/
structure Ipc where
  shm : Named SharedData
  sem : Named ℕ
  endings : List (Party × Ending)

inductive IpcReq
  | shmOpen (create : Bool)
  | ftruncate (fd : ℕ)
  | mmap (fd : ℕ)
  | semOpen (create : Bool)
  | semWait (sem : ℕ)
  | semPost (sem : ℕ)
  | shmUnlink
  | semUnlink
  | loadStatus (fd : ℕ)
  | storeStatus (fd : ℕ) (v : BitVec 32)
  | loadByte (fd i : ℕ)
  | storeByte (fd i : ℕ) (b : Byte)

/-- An access answers `none` or `false` when it is the last. -/
abbrev IpcReq.Ans : IpcReq → Type
  | .shmOpen _ | .semOpen _ => Option ℕ
  | .mmap _ | .storeStatus .. | .storeByte .. => Bool
  | .loadStatus _ => Option (BitVec 32)
  | .loadByte .. => Option Byte
  | .ftruncate _ | .semWait _ | .semPost _ | .shmUnlink | .semUnlink => Unit

abbrev ipcSig : Sig := ⟨IpcReq, IpcReq.Ans⟩

/-- What a process does until it is done. -/
abbrev Main (α : Type) := Prog ipcSig α

def shmOpen (create : Bool) : Main (Option ℕ) := Prog.ask (E := ipcSig) (.shmOpen create)
def ftruncate (fd : ℕ) : Main Unit := Prog.ask (E := ipcSig) (.ftruncate fd)
def mmap (fd : ℕ) : Main Bool := Prog.ask (E := ipcSig) (.mmap fd)
def semOpen (create : Bool) : Main (Option ℕ) := Prog.ask (E := ipcSig) (.semOpen create)
def semWait (sem : ℕ) : Main Unit := Prog.ask (E := ipcSig) (.semWait sem)
def semPost (sem : ℕ) : Main Unit := Prog.ask (E := ipcSig) (.semPost sem)
def shmUnlink : Main Unit := Prog.ask (E := ipcSig) .shmUnlink
def semUnlink : Main Unit := Prog.ask (E := ipcSig) .semUnlink
def loadStatus (fd : ℕ) : Main (Option (BitVec 32)) := Prog.ask (E := ipcSig) (.loadStatus fd)
def storeStatus (fd : ℕ) (v : BitVec 32) : Main Bool := Prog.ask (E := ipcSig) (.storeStatus fd v)
def loadByte (fd i : ℕ) : Main (Option Byte) := Prog.ask (E := ipcSig) (.loadByte fd i)
def storeByte (fd i : ℕ) (b : Byte) : Main Bool := Prog.ask (E := ipcSig) (.storeByte fd i b)

/-! ## The programs -/

/-- `strncpy` to the message, from the `i`-th character on with `left` characters to go: behind
the end of the source it writes zeros. -/
def strncpy (fd : ℕ) (src : List Byte) : (left i : ℕ) → Main Bool
  | 0, _ => pure true
  | left + 1, i => do
      if ← storeByte fd i (src.getD i 0) then strncpy fd src left (i + 1) else pure false

/-- What `<<` does with the message: the characters before the first NUL.  `left` are left of the
array, and `seen` have been seen. -/
def readMessage (fd : ℕ) : (left i : ℕ) → (seen : List Byte) → Main (Except Ending (List Byte))
  | 0, _, _ => pure (.error .overrun)
  | left + 1, i, seen => do
      match ← loadByte fd i with
      | none => pure (.error .killed)
      | some b => if b = 0 then pure (.ok seen) else readMessage fd left (i + 1) (seen ++ [b])

/-- The server from the `sem_post` on. -/
def finish (sem : ℕ) (wrote : List Byte) : Main Ending := do
  semPost sem
  shmUnlink
  semUnlink
  pure (.wrote wrote)

/-- The server from the first store on. -/
def write (fd sem : ℕ) : Main Ending := do
  if ← storeStatus fd 1 then
    if ← strncpy fd hello bufferSize 0 then
      match ← readMessage fd bufferSize 0 [] with
      | .error e => pure e
      | .ok wrote => finish sem wrote
    else pure .killed
  else pure .killed

/-- `main` of the server. -/
def server : Main Ending := do
  match ← shmOpen true with
  | none => pure (.failed "shm_open")
  | some fd =>
      ftruncate fd
      if ← mmap fd then
        match ← semOpen true with
        | none => pure (.failed "sem_open")
        | some sem => write fd sem
      else pure (.failed "mmap")

/-- The client from the `sem_wait` on. -/
def receive (fd sem : ℕ) : Main Ending := do
  semWait sem
  match ← loadStatus fd with
  | none => pure .killed
  | some status =>
      match ← readMessage fd bufferSize 0 [] with
      | .error e => pure e
      | .ok message => pure (.read status message)

/-- `main` of the client. -/
def client : Main Ending := do
  match ← shmOpen false with
  | none => pure (.failed "shm_open")
  | some fd =>
      if ← mmap fd then
        match ← semOpen false with
        | none => pure (.failed "sem_open")
        | some sem => receive fd sem
      else pure (.failed "mmap")

/-! ## The system -/

/-- A request, with a choice of whether a call fails. -/
def handle (fails : ℕ) : Handler ipcSig Ipc
  | .shmOpen create, s =>
      if fails ≠ 0 then (none, s)
      else if create then
        (some (s.shm.openOrMake .blank).1, { s with shm := (s.shm.openOrMake .blank).2 })
      else (s.shm.bound, s)
  | .ftruncate fd, s => ((), if fails ≠ 0 then s else { s with shm := s.shm.modify fd .resize })
  | .mmap _, s => (decide (fails = 0), s)
  | .semOpen create, s =>
      if fails ≠ 0 then (none, s)
      else if create then (some (s.sem.openOrMake 0).1, { s with sem := (s.sem.openOrMake 0).2 })
      else (s.sem.bound, s)
  | .semWait sem, s => ((), if fails ≠ 0 then s else { s with sem := s.sem.modify sem (· - 1) })
  | .semPost sem, s => ((), if fails ≠ 0 then s else { s with sem := s.sem.modify sem (· + 1) })
  | .shmUnlink, s => ((), if fails ≠ 0 then s else { s with shm := s.shm.unlink })
  | .semUnlink, s => ((), if fails ≠ 0 then s else { s with sem := s.sem.unlink })
  | .loadStatus fd, s => (if (s.shm.obj fd).sized then some (s.shm.obj fd).status else none, s)
  | .storeStatus fd v, s =>
      if (s.shm.obj fd).sized then (true, { s with shm := s.shm.modify fd (.setStatus v) })
      else (false, s)
  | .loadByte fd i, s => (if (s.shm.obj fd).sized then some ((s.shm.obj fd).message i) else none, s)
  | .storeByte fd i b, s =>
      if (s.shm.obj fd).sized then (true, { s with shm := s.shm.modify fd (.setByte i b) })
      else (false, s)

section Handle
variable {s s' : Ipc} {fails fd i : ℕ} {v : BitVec 32} {b : Byte}

/-- Without `O_CREAT` only what has the name is opened. -/
theorem handle_shmOpen_false {r : Option ℕ} (h : handle fails (.shmOpen false) s = (r, s')) :
    s' = s ∧ ∀ fd, r = some fd → s.shm.bound = some fd := by
  simp only [handle, Bool.false_eq_true, if_false] at h
  split at h
  · cases h
    simp
  · cases h
    simp

theorem handle_semOpen_false {r : Option ℕ} (h : handle fails (.semOpen false) s = (r, s')) :
    s' = s ∧ ∀ sem, r = some sem → s.sem.bound = some sem := by
  simp only [handle, Bool.false_eq_true, if_false] at h
  split at h
  · cases h
    simp
  · cases h
    simp

theorem handle_shmOpen_true {r : Option ℕ} (h : handle fails (.shmOpen true) s = (r, s')) :
    (r = none ∧ s' = s) ∨ r = some (s.shm.openOrMake .blank).1 ∧
      s' = { s with shm := (s.shm.openOrMake .blank).2 } := by
  by_cases hfails : fails = 0 <;> simp [handle, hfails] at h <;> simp [h]

theorem handle_semOpen_true {r : Option ℕ} (h : handle fails (.semOpen true) s = (r, s')) :
    (r = none ∧ s' = s) ∨ r = some (s.sem.openOrMake 0).1 ∧
      s' = { s with sem := (s.sem.openOrMake 0).2 } := by
  by_cases hfails : fails = 0 <;> simp [handle, hfails] at h <;> simp [h]

theorem handle_ftruncate {r : Unit} (h : handle fails (.ftruncate fd) s = (r, s')) :
    s' = s ∨ s' = { s with shm := s.shm.modify fd .resize } := by
  by_cases hfails : fails = 0 <;> simp [handle, hfails] at h <;> simp [h]

theorem handle_semWait {r : Unit} {sem : ℕ} (h : handle 0 (.semWait sem) s = (r, s')) :
    s' = { s with sem := s.sem.modify sem (· - 1) } := by
  simpa [handle, eq_comm] using h

/-- A post changes at most the value of the semaphore. -/
theorem handle_semPost {r : Unit} {sem : ℕ} (h : handle fails (.semPost sem) s = (r, s')) :
    s'.shm = s.shm ∧ s'.sem.bound = s.sem.bound ∧ s'.endings = s.endings := by
  by_cases hfails : fails = 0 <;> simp [handle, hfails] at h <;> simp [← h]

theorem handle_shmUnlink {r : Unit} (h : handle fails .shmUnlink s = (r, s')) :
    s' = s ∨ s' = { s with shm := s.shm.unlink } := by
  by_cases hfails : fails = 0 <;> simp [handle, hfails] at h <;> simp [h]

theorem handle_semUnlink {r : Unit} (h : handle 0 .semUnlink s = (r, s')) :
    s' = { s with sem := s.sem.unlink } := by
  simpa [handle, eq_comm] using h

theorem handle_loadStatus {r : Option (BitVec 32)}
    (h : handle fails (.loadStatus fd) s = (r, s')) (hsized : (s.shm.obj fd).sized = true) :
    r = some (s.shm.obj fd).status ∧ s' = s := by
  simpa [handle, hsized, eq_comm] using h

theorem handle_loadByte {r : Option Byte} (h : handle fails (.loadByte fd i) s = (r, s'))
    (hsized : (s.shm.obj fd).sized = true) : r = some ((s.shm.obj fd).message i) ∧ s' = s := by
  simpa [handle, hsized, eq_comm] using h

/-- A store is the last that the process does, or it is made. -/
theorem handle_storeStatus {r : Bool} (h : handle fails (.storeStatus fd v) s = (r, s')) :
    (r = false ∧ s' = s) ∨ r = true ∧ (s.shm.obj fd).sized = true ∧
      s' = { s with shm := s.shm.modify fd (.setStatus v) } := by
  by_cases hsized : (s.shm.obj fd).sized = true <;> simp [handle, hsized] at h <;>
    simp [h, hsized]

theorem handle_storeByte {r : Bool} (h : handle fails (.storeByte fd i b) s = (r, s')) :
    (r = false ∧ s' = s) ∨ r = true ∧ (s.shm.obj fd).sized = true ∧
      s' = { s with shm := s.shm.modify fd (.setByte i b) } := by
  by_cases hsized : (s.shm.obj fd).sized = true <;> simp [handle, hsized] at h <;>
    simp [h, hsized]

/-! ### The steps of a client, one after the other -/

theorem val_loadByte : (loadByte fd i).val (handle fails) s =
    if (s.shm.obj fd).sized then some ((s.shm.obj fd).message i) else none := rfl

theorem state_loadByte : (loadByte fd i).state (handle fails) s = s := rfl

theorem val_loadStatus : (loadStatus fd).val (handle fails) s =
    if (s.shm.obj fd).sized then some (s.shm.obj fd).status else none := rfl

theorem state_loadStatus : (loadStatus fd).state (handle fails) s = s := rfl

theorem state_semWait {sem : ℕ} : (semWait sem).state (handle 0) s =
    { s with sem := s.sem.modify sem (· - 1) } := rfl

theorem val_shmOpen_false : (shmOpen false).val (handle 0) s = s.shm.bound := rfl

theorem state_shmOpen_false : (shmOpen false).state (handle 0) s = s := rfl

theorem val_semOpen_false : (semOpen false).val (handle 0) s = s.sem.bound := rfl

theorem state_semOpen_false : (semOpen false).state (handle 0) s = s := rfl

theorem val_mmap : (mmap fd).val (handle 0) s = true := rfl

theorem state_mmap : (mmap fd).state (handle fails) s = s := rfl

end Handle

/-- `sem_wait` waits while the value is zero; it does not fail, and neither does `sem_unlink`. -/
def Allowed (fails : ℕ) : IpcReq → Ipc → Prop
  | .semWait sem, s => fails = 0 ∧ 0 < s.sem.obj sem
  | .semUnlink, _ => fails = 0
  | _, _ => True

/-- The server and the clients; each may be started again when it has ended. -/
def handoff : Threads ipcSig Ipc Party Unit Ending where
  code
    | .server, _ => server
    | .client _, _ => client
  mayCall _ _ _ := True
  handle _ _ fails := handle fails
  allowed _ fails := Allowed fails
  finish t _ ending s := { s with endings := (t, ending) :: s.endings }

end Unid.Spike.SharedMemory
