import Unid.Lib.Prog
import Unid.Lib.Blocks

/-!
# The C heap under the pool

The environment of `libpool.c`: eight-byte loads and stores, and the external
allocation functions `pool_ext_alloc` and `pool_ext_free` (by default `malloc`
and `free`).  `pool_ext_alloc` takes its outcomes from a stream of answers; an
answer counts as `NULL` unless it is a fresh, pointer-aligned block apart from
every live one, so a statement about all streams is a statement about all
outcomes the allocator may have.

Accesses are total.  An access that does not lie inside one live block, a
release of anything but a live block, and a walk that never ends are recorded in
`faults`, in the order in which the code commits them, newest first.

## Main definitions

* `CSig`, `C` — the requests of C code and the programs that make them.
* `Heap`, `Heap.handle` — memory, live blocks, and what each request does.
* `C.val`, `C.state` — running C code from a heap.
-/

namespace Unid.Common
open Lib

/-- The null pointer. -/
def NULL : Word := 0

/-- What C code asks of its environment. -/
inductive CReq
  | load (a : ℕ)
  | store (a : ℕ) (v : Word)
  | extAlloc (n : Word)
  | extFree (p : Word)
  /-- A loop over links that has not met `NULL` within the address space. -/
  | spin

/-- The type of the answer to each request. -/
abbrev CReq.Ans : CReq → Type
  | .load _ => Word
  | .store _ _ => Unit
  | .extAlloc _ => Word
  | .extFree _ => Unit
  | .spin => Unit

abbrev CSig : Sig := ⟨CReq, CReq.Ans⟩

/-- A piece of C code. -/
abbrev C (α : Type) := Prog CSig α

/-- An access the C standard leaves undefined, or a loop that never ends. -/
inductive Fault
  | load (a : ℕ)
  | store (a : ℕ)
  | free (a : ℕ)
  | spin
  deriving DecidableEq, Repr

/-- Memory, the block table, the answers `pool_ext_alloc` will give, and the
faults committed so far. -/
structure Heap where
  mem : Mem
  blocks : BlockTable
  answers : ℕ → Word
  faults : List Fault

namespace Heap

/-- A heap on which nothing has been allocated. -/
def initial (mem : Mem) (answers : ℕ → Word) : Heap := ⟨mem, .empty, answers, []⟩

/-- Record a fault. -/
def fault (h : Heap) (f : Fault) : Heap := { h with faults := f :: h.faults }

/-- Record a fault unless the word at `a` lies inside a live block. -/
def touch (h : Heap) (f : Fault) (a : ℕ) : Heap := if h.blocks.Covers a 8 then h else h.fault f

/-- Replace the answers `pool_ext_alloc` is going to give. -/
def withAnswers (h : Heap) (answers : ℕ → Word) : Heap := { h with answers := answers }

/-- `pool_ext_alloc(n)`: the next answer, when it is a fresh block of `n` bytes. -/
def extAlloc (h : Heap) (n : Word) : Word × Heap :=
  if hf : h.blocks.Fresh ⟨(h.answers 0).toNat, n.toNat⟩ then
    (h.answers 0,
      { h with answers := fun i => h.answers (i + 1), blocks := h.blocks.insert _ hf })
  else (NULL, h.withAnswers fun i => h.answers (i + 1))

/-- `pool_ext_free(p)`: as for `free`, a null pointer is ignored. -/
def extFree (h : Heap) (p : Word) : Heap :=
  if p = NULL then h
  else
    match hb : h.blocks.at? p.toNat with
    | some b => { h with blocks := h.blocks.remove b (List.mem_of_find?_eq_some hb) }
    | none => h.fault (.free p.toNat)

/-- What each request answers and does. -/
def handle : Handler CSig Heap
  | .load a, h => (readWord h.mem a, h.touch (.load a) a)
  | .store a v, h =>
      let h := h.touch (.store a) a
      ((), { h with mem := writeWord h.mem a v })
  | .extAlloc n, h => h.extAlloc n
  | .extFree p, h => ((), h.extFree p)
  | .spin, h => ((), h.fault .spin)

end Heap

namespace C
variable {α β : Type}

/-- The value C code returns when run from a heap. -/
abbrev val (p : C α) (h : Heap) : α := Prog.val Heap.handle p h

/-- The heap C code leaves behind. -/
abbrev state (p : C α) (h : Heap) : Heap := Prog.state Heap.handle p h

/-- Read the word `off` bytes after `p`, as in `p->field` or `*(void**)p`. -/
def load (p : Word) (off : ℕ) : C Word := Prog.ask (E := CSig) (.load (p.toNat + off))

/-- Write the word `off` bytes after `p`. -/
def store (p : Word) (off : ℕ) (v : Word) : C Unit :=
  Prog.ask (E := CSig) (.store (p.toNat + off) v)

end C

def poolExtAlloc (n : Word) : C Word := Prog.ask (E := CSig) (.extAlloc n)

def poolExtFree (p : Word) : C Unit := Prog.ask (E := CSig) (.extFree p)

/-- Stop a walk that has used up the address space. -/
def spin : C Unit := Prog.ask (E := CSig) .spin

/-! ## What the requests do -/

namespace Heap

/-- Store a word, wherever it goes. -/
def put (h : Heap) (a : ℕ) (v : Word) : Heap := { h with mem := writeWord h.mem a v }

@[simp] theorem mem_put (h : Heap) (a : ℕ) (v : Word) : (h.put a v).mem = writeWord h.mem a v := rfl
@[simp] theorem blocks_put (h : Heap) (a : ℕ) (v : Word) : (h.put a v).blocks = h.blocks := rfl
@[simp] theorem faults_put (h : Heap) (a : ℕ) (v : Word) : (h.put a v).faults = h.faults := rfl

theorem touch_of_covers {h : Heap} {a : ℕ} (f : Fault) (hc : h.blocks.Covers a 8) :
    h.touch f a = h := if_pos hc

@[simp] theorem mem_touch (h : Heap) (f : Fault) (a : ℕ) : (h.touch f a).mem = h.mem := by
  unfold touch
  split <;> rfl

@[simp] theorem blocks_touch (h : Heap) (f : Fault) (a : ℕ) : (h.touch f a).blocks = h.blocks := by
  unfold touch
  split <;> rfl

@[simp] theorem answers_touch (h : Heap) (f : Fault) (a : ℕ) :
    (h.touch f a).answers = h.answers := by
  unfold touch
  split <;> rfl

@[simp] theorem mem_extAlloc (h : Heap) (n : Word) : (h.extAlloc n).2.mem = h.mem := by
  unfold extAlloc
  split <;> rfl

@[simp] theorem faults_extAlloc (h : Heap) (n : Word) : (h.extAlloc n).2.faults = h.faults := by
  unfold extAlloc
  split <;> rfl

/-- What is handed out depends on the live blocks and on the answers alone. -/
theorem extAlloc_congr {h h' : Heap} (hb : h'.blocks = h.blocks) (ha : h'.answers = h.answers)
    (n : Word) : (h'.extAlloc n).1 = (h.extAlloc n).1 ∧
      (h'.extAlloc n).2.blocks = (h.extAlloc n).2.blocks ∧
      (h'.extAlloc n).2.answers = (h.extAlloc n).2.answers := by
  obtain ⟨mem, blocks, answers, faults⟩ := h
  obtain ⟨mem', blocks', answers', faults'⟩ := h'
  obtain rfl : blocks' = blocks := hb
  obtain rfl : answers' = answers := ha
  unfold extAlloc
  split <;> exact ⟨rfl, rfl, rfl⟩

theorem extAlloc_put (h : Heap) (a : ℕ) (v n : Word) :
    ((h.put a v).extAlloc n).1 = (h.extAlloc n).1 := (extAlloc_congr (blocks_put h a v) rfl n).1

theorem blocks_extAlloc_put (h : Heap) (a : ℕ) (v n : Word) :
    ((h.put a v).extAlloc n).2.blocks = (h.extAlloc n).2.blocks :=
  (extAlloc_congr (blocks_put h a v) rfl n).2.1

/-- A failed allocation only uses up an answer. -/
theorem extAlloc_null {h : Heap} {n : Word} (hn : (h.extAlloc n).1 = NULL) :
    (h.extAlloc n).2 = h.withAnswers fun i => h.answers (i + 1) := by
  by_cases hf : h.blocks.Fresh ⟨(h.answers 0).toNat, n.toNat⟩
  · rw [extAlloc, dif_pos hf] at hn
    exact absurd (congrArg BitVec.toNat hn) hf.1.ne_null
  · rw [extAlloc, dif_neg hf]

/-- A successful allocation hands out one more block. -/
theorem blocks_extAlloc {h : Heap} {n : Word} (hn : (h.extAlloc n).1 ≠ NULL) :
    ∃ hf, (h.extAlloc n).2.blocks = h.blocks.insert ⟨(h.extAlloc n).1.toNat, n.toNat⟩ hf := by
  by_cases hf : h.blocks.Fresh ⟨(h.answers 0).toNat, n.toNat⟩
  · have hv : h.extAlloc n = (h.answers 0, { h with
        answers := fun i => h.answers (i + 1), blocks := h.blocks.insert _ hf }) := dif_pos hf
    rw [hv]
    exact ⟨hf, rfl⟩
  · exact absurd (by rw [extAlloc, dif_neg hf]) hn

theorem live_extAlloc {h : Heap} {n : Word} (hn : (h.extAlloc n).1 ≠ NULL) :
    (h.extAlloc n).2.blocks.live = ⟨(h.extAlloc n).1.toNat, n.toNat⟩ :: h.blocks.live := by
  obtain ⟨hf, hb⟩ := blocks_extAlloc hn
  rw [hb]
  rfl

theorem obtained_extAlloc {h : Heap} {n : Word} (hn : (h.extAlloc n).1 ≠ NULL) :
    (h.extAlloc n).2.blocks.obtained =
      ⟨(h.extAlloc n).1.toNat, n.toNat⟩ :: h.blocks.obtained := by
  obtain ⟨hf, hb⟩ := blocks_extAlloc hn
  rw [hb]
  rfl

theorem live_extAlloc_null {h : Heap} {n : Word} (hn : (h.extAlloc n).1 = NULL) :
    (h.extAlloc n).2.blocks.live = h.blocks.live := by
  rw [extAlloc_null hn]
  rfl

/-- An allocation, successful or not, keeps the blocks that are live. -/
theorem mem_live_extAlloc {h : Heap} {b : Block} (hb : b ∈ h.blocks.live) (n : Word) :
    b ∈ (h.extAlloc n).2.blocks.live := by
  by_cases hn : (h.extAlloc n).1 = NULL
  · rw [extAlloc_null hn]
    exact hb
  · rw [live_extAlloc hn]
    exact List.mem_cons_of_mem _ hb

/-- Releasing a live block takes it out of the table and does nothing else. -/
theorem extFree_of_mem {h : Heap} {p : Word} {b : Block} (hb : b ∈ h.blocks.live)
    (hp : p.toNat = b.base) : h.extFree p = { h with blocks := h.blocks.remove b hb } := by
  have hne : p ≠ NULL := by
    rintro rfl
    exact (h.blocks.placed b hb).ne_null hp.symm
  have hat : h.blocks.at? p.toNat = some b := hp ▸ BlockTable.at?_of_mem hb
  rw [extFree, if_neg hne]
  split
  · next c hc =>
      obtain rfl : c = b := Option.some.inj (hc.symm.trans hat)
      rfl
  · next hc => simp [hat] at hc

theorem extFree_perm {h : Heap} {p : Word} {b : Block} {l : List Block}
    (hl : h.blocks.live.Perm (b :: l)) (hp : p.toNat = b.base) : (h.extFree p).mem = h.mem ∧
      (h.extFree p).blocks.live.Perm l ∧ (h.extFree p).faults = h.faults := by
  rw [extFree_of_mem (hl.mem_iff.mpr List.mem_cons_self) hp]
  refine ⟨rfl, ?_, rfl⟩
  simpa [BlockTable.remove] using hl.erase b

/-- After a release no live block starts where the released one did. -/
theorem base_ne_of_extFree {h : Heap} {p : Word} (hp : p ≠ NULL) {b : Block}
    (hb : b ∈ (h.extFree p).blocks.live) : b.base ≠ p.toNat := by
  intro hbase
  rw [extFree, if_neg hp] at hb
  split at hb
  · next c hc =>
      have hcbase : c.base = p.toNat := by simpa using List.find?_some hc
      have hmem : b ∈ h.blocks.live := List.mem_of_mem_erase hb
      have hne : b ≠ c := (h.blocks.nodup.mem_erase_iff.mp hb).1
      exact (h.blocks.apart.forall hmem (List.mem_of_find?_eq_some hc) hne).1 (by omega)
  · next hc => simpa [hbase] using List.find?_eq_none.mp hc b hb

end Heap

namespace C

@[simp] theorem mem_load (p : Word) (off : ℕ) (h : Heap) : ((load p off).state h).mem = h.mem :=
  Heap.mem_touch ..
@[simp] theorem blocks_load (p : Word) (off : ℕ) (h : Heap) :
    ((load p off).state h).blocks = h.blocks := Heap.blocks_touch ..
@[simp] theorem answers_load (p : Word) (off : ℕ) (h : Heap) :
    ((load p off).state h).answers = h.answers := Heap.answers_touch ..
@[simp] theorem mem_store (p : Word) (off : ℕ) (v : Word) (h : Heap) :
    ((store p off v).state h).mem = writeWord h.mem (p.toNat + off) v :=
  congrArg (writeWord · (p.toNat + off) v) (Heap.mem_touch ..)
@[simp] theorem blocks_store (p : Word) (off : ℕ) (v : Word) (h : Heap) :
    ((store p off v).state h).blocks = h.blocks := Heap.blocks_touch ..

@[simp] theorem val_load (p : Word) (off : ℕ) (h : Heap) :
    (load p off).val h = readWord h.mem (p.toNat + off) := (rfl)

theorem state_load {p : Word} {off : ℕ} {h : Heap} (hc : h.blocks.Covers (p.toNat + off) 8) :
    (load p off).state h = h := Heap.touch_of_covers _ hc

theorem state_store {p : Word} {off : ℕ} {h : Heap} (v : Word)
    (hc : h.blocks.Covers (p.toNat + off) 8) :
    (store p off v).state h = h.put (p.toNat + off) v := by
  have hs : (store p off v).state h =
      (h.touch (.store (p.toNat + off)) (p.toNat + off)).put (p.toNat + off) v := rfl
  rw [hs, Heap.touch_of_covers _ hc]

end C

@[simp] theorem val_poolExtAlloc (n : Word) (h : Heap) :
    (poolExtAlloc n).val h = (h.extAlloc n).1 := (rfl)
@[simp] theorem state_poolExtAlloc (n : Word) (h : Heap) :
    (poolExtAlloc n).state h = (h.extAlloc n).2 := (rfl)
@[simp] theorem state_poolExtFree (p : Word) (h : Heap) :
    (poolExtFree p).state h = h.extFree p := (rfl)

end Unid.Common
