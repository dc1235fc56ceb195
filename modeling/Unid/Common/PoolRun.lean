import Unid.Common.PoolLife
import Unid.Lib.Machine
import Unid.Lib.Arena

/-!
# Runs of a `Mempool`

A `PoolState` is a `Mempool` object on its heap, with the chunks that are in
callers' hands.  Its machine takes one call of the class, or one byte written by
the holder of a chunk, per step; the guard is the callers' side of the contract.
`Rep` holds of the constructed object and is kept by every step as long as every
`expand` succeeds, and along such a run the machine is an arena: chunks are
handed out only when free, and a held chunk changes only under its holder's hand.

## Main definitions

* `PoolState`, `Op`, `mempool` — the machine.
* `Outcome`, `PoolState.outcome` — what the caller of a step sees.
* `GoodSizes`, `SoundExpand` — sizes whose byte counts do not overflow.
* `PoolState.view`, `PoolState.bytes` — what stands in a chunk.
* `PoolState.Sound`, `Sound.arena` — the invariant, and the arena a sound state shows.
-/

namespace Unid.Common
open Lib

/-! ## What the methods return -/

namespace Mempool

/-- The constructor throws exactly when `pool_new` fails. -/
theorem val_new (poolSz chunkSz : Word) (h : Heap) : (new poolSz chunkSz).val h =
    if poolSz ≠ 0 ∧ NewGranted poolSz chunkSz h then .ok ⟨chunkSz, poolSz, 0, newPool h⟩
    else .error "Failed to initialize libpool" := by
  simp only [new, Prog.val_bind, val_poolNew]
  by_cases hgrant : poolSz ≠ 0 ∧ NewGranted poolSz chunkSz h
  · have hpool : newPool h ≠ NULL := hgrant.2.1
    simp only [if_pos hgrant, if_neg hpool]
    rfl
  · simp only [if_neg hgrant, if_true]
    rfl

theorem state_new (poolSz chunkSz : Word) (h : Heap) :
    (new poolSz chunkSz).state h = (poolNew poolSz chunkSz).state h := by
  simp only [new, Prog.state_bind, Prog.state_ite, Prog.monad_pure_eq, Prog.state_ret, ite_self]

theorem state_alloc (m : Mempool) (h : Heap) : m.alloc.state h = (poolAlloc m.pool).state h := by
  simp only [alloc, Prog.state_bind, Prog.state_ite, Prog.monad_pure_eq, Prog.state_ret, ite_self]

theorem state_stats (m : Mempool) (h : Heap) :
    m.stats.state h = (poolAvailable m.pool).state h := by
  simp only [stats, Prog.state_bind, Prog.monad_pure_eq, Prog.state_ret]

@[simp] theorem val_stats (m : Mempool) (h : Heap) : m.stats.val h =
    ⟨m.chunkSz, m.poolSz, m.extraSz, (poolAvailable m.pool).val h⟩ := by
  simp [Mempool.stats]

/-- `expand` throws exactly when `pool_expand` fails, and then destroys the pool. -/
theorem run_expand (m : Mempool) (extraSz : Word) (h : Heap) :
    (m.expand extraSz).run Heap.handle h =
      if m.pool ≠ NULL ∧ extraSz ≠ 0 ∧ ExpandGranted m.pool extraSz h then
        ((.ok true, { m with extraSz := m.extraSz + extraSz }),
          (poolExpand m.pool extraSz).state h)
      else
        ((.error "Failed to expand mempool", m),
          (poolDestroy m.pool).state ((poolExpand m.pool extraSz).state h)) := by
  simp only [expand, Prog.run_bind, val_poolExpand]
  by_cases hgrant : m.pool ≠ NULL ∧ extraSz ≠ 0 ∧ ExpandGranted m.pool extraSz h
  · rw [if_pos hgrant, decide_eq_true hgrant]
    rfl
  · rw [if_neg hgrant, decide_eq_false hgrant]
    exact Prog.run_bind ..

end Mempool

namespace Rep
variable {m : Mempool} {h : Heap} {S : Word} {free held : List Word} {arrays : List Arr}

theorem val_alloc_nil (R : Rep m h S [] held arrays) :
    m.alloc.val h = .error "Mempool couldn't allocate chunk" := by
  simp only [Mempool.alloc, Prog.val_bind, R.poolAlloc_nil.1, if_true]
  rfl

theorem val_alloc_cons {c : Word} (R : Rep m h S (c :: free) held arrays) :
    m.alloc.val h = .ok c := by
  have hne : c ≠ NULL := R.chain.2.1
  simp only [Mempool.alloc, Prog.val_bind, R.poolAlloc_cons.1, if_neg hne]
  rfl

end Rep

/-! ## The machine -/

/-- A `Mempool`, its heap, and the chunks handed out and not yet given back. -/
structure PoolState where
  obj : Mempool
  heap : Heap
  held : List Word

/-- One call of a method, or one byte written into a chunk by its holder. -/
inductive Op
  | alloc
  | free (ptr : Word)
  | expand (extraSz : Word)
  | stats
  | write (chunk : Word) (i : ℕ) (b : Byte)
  deriving DecidableEq

/-- What a caller sees of one step. -/
inductive Outcome
  | chunk (r : Except String Word)
  | expanded (r : Except String Bool)
  | stats (r : MempoolStats)
  | done
  deriving DecidableEq

namespace PoolState

/-- The object just constructed, when the constructor does not throw. -/
def new (poolSz chunkSz : Word) (h : Heap) : Except String PoolState :=
  match (Mempool.new poolSz chunkSz).val h with
  | .ok obj => .ok ⟨obj, (Mempool.new poolSz chunkSz).state h, []⟩
  | .error e => .error e

def next (s : PoolState) : Op → PoolState
  | .alloc =>
      match s.obj.alloc.val s.heap with
      | .ok c => { s with heap := s.obj.alloc.state s.heap, held := c :: s.held }
      | .error _ => { s with heap := s.obj.alloc.state s.heap }
  | .free ptr => { s with heap := (s.obj.free ptr).state s.heap, held := s.held.erase ptr }
  | .expand extraSz =>
      { s with
        obj := ((s.obj.expand extraSz).val s.heap).2
        heap := (s.obj.expand extraSz).state s.heap }
  | .stats => { s with heap := s.obj.stats.state s.heap }
  | .write chunk i b =>
      { s with heap := { s.heap with mem := writeByte s.heap.mem (chunk.toNat + i) b } }

def outcome (s : PoolState) : Op → Outcome
  | .alloc => .chunk (s.obj.alloc.val s.heap)
  | .expand extraSz => .expanded ((s.obj.expand extraSz).val s.heap).1
  | .stats => .stats (s.obj.stats.val s.heap)
  | .free _ => .done
  | .write .. => .done

/-- What callers may do: free what they hold or `NULL`, and write within the
first `chunk_sz` bytes of chunks they hold. -/
def guard (s : PoolState) : Op → Prop
  | .free ptr => ptr = NULL ∨ ptr ∈ s.held
  | .write chunk i _ => chunk ∈ s.held ∧ i < s.obj.chunkSz.toNat
  | _ => True

instance (s : PoolState) : (op : Op) → Decidable (s.guard op)
  | .alloc => .isTrue trivial
  | .free _ => inferInstanceAs (Decidable (_ ∨ _))
  | .expand _ => .isTrue trivial
  | .stats => .isTrue trivial
  | .write .. => inferInstanceAs (Decidable (_ ∧ _))

end PoolState

/-- The `Mempool` under callers that keep their side of the contract. -/
def mempool : Machine PoolState Op := ⟨PoolState.next, PoolState.guard⟩

/-! ## Sizes -/

/-- `n` rounded up to a multiple of eight, without wrapping. -/
def roundUp8 (n : ℕ) : ℕ := (n + 7) / 8 * 8

/-- Constructor arguments that ask for chunks of at least one byte and for an array whose
byte count is a `size_t`. -/
structure GoodSizes (poolSz chunkSz : Word) : Prop where
  chunk_pos : 0 < chunkSz.toNat
  fit : poolSz.toNat * roundUp8 chunkSz.toNat < 2 ^ 64

instance (poolSz chunkSz : Word) : Decidable (GoodSizes poolSz chunkSz) :=
  decidable_of_iff (0 < chunkSz.toNat ∧ poolSz.toNat * roundUp8 chunkSz.toNat < 2 ^ 64)
    ⟨fun h => ⟨h.1, h.2⟩, fun h => ⟨h.1, h.2⟩⟩

/-- Rounding does not wrap as long as the rounded size is a `size_t`. -/
theorem toNat_align_of_lt {chunkSz : Word} (h : roundUp8 chunkSz.toNat < 2 ^ 64) :
    (align2Boundary chunkSz sizeofPtr).toNat = roundUp8 chunkSz.toNat := by
  rw [toNat_align2Boundary]
  unfold roundUp8 at *
  rw [Nat.mod_eq_of_lt (by omega)]

namespace GoodSizes
variable {poolSz chunkSz : Word}

theorem toNat_stride (G : GoodSizes poolSz chunkSz) (hsz : poolSz ≠ 0) :
    (align2Boundary chunkSz sizeofPtr).toNat = roundUp8 chunkSz.toNat := by
  have hpos : 1 ≤ poolSz.toNat := Nat.pos_of_ne_zero fun h0 => hsz (BitVec.eq_of_toNat_eq h0)
  exact toNat_align_of_lt (lt_of_le_of_lt (Nat.le_mul_of_pos_left _ hpos) G.fit)

/-- The constructed pool, all of whose chunks are free. -/
theorem rep_new (G : GoodSizes poolSz chunkSz) {mem : Mem} {answers : ℕ → Word} (hsz : poolSz ≠ 0)
    (hgrant : NewGranted poolSz chunkSz (.initial mem answers)) :
    let h := Heap.initial mem answers
    let a := newArr poolSz chunkSz h
    let S := align2Boundary chunkSz sizeofPtr
    Rep ⟨chunkSz, poolSz, 0, newPool h⟩ ((poolNew poolSz chunkSz).state h) S (a.chunks S) []
      [a] := by
  have hS := G.toNat_stride hsz
  have hpos := G.chunk_pos
  refine rep_poolNew rfl rfl hsz hgrant ?_ ?_ (hS ▸ G.fit) <;> rw [hS] <;> unfold roundUp8 <;> omega

end GoodSizes

/-- An `expand` whose two allocations succeed and whose byte count is a `size_t`; every
other step is unrestricted. -/
def SoundExpand (s : PoolState) : Op → Prop
  | .expand extraSz => extraSz ≠ 0 ∧ ExpandGranted s.obj.pool extraSz s.heap ∧
      extraSz.toNat * roundUp8 s.obj.chunkSz.toNat < 2 ^ 64
  | _ => True

instance (s : PoolState) : (op : Op) → Decidable (SoundExpand s op)
  | .alloc => .isTrue trivial
  | .free _ => .isTrue trivial
  | .expand _ => inferInstanceAs (Decidable (_ ∧ _ ∧ _))
  | .stats => .isTrue trivial
  | .write .. => .isTrue trivial

/-! ## The invariant, and the arena a state shows -/

namespace PoolState

/-- What the holder of `c` sees in it. -/
def view (s : PoolState) (c : Word) (i : ℕ) : Byte :=
  if i < s.obj.chunkSz.toNat then s.heap.mem (c.toNat + i) else 0

/-- The pool lies on the heap as `free`, `held` and `arrays` say, with chunks `S` bytes
apart, `S` being the rounded chunk size. -/
structure Sound (s : PoolState) (S : Word) (free : List Word) (arrays : List Arr) : Prop where
  stride : S.toNat = roundUp8 s.obj.chunkSz.toNat
  rep : Rep s.obj s.heap S free s.held arrays

theorem view_congr {s s' : PoolState} {c : Word} (hobj : s'.obj.chunkSz = s.obj.chunkSz)
    (hmem : ∀ i < s.obj.chunkSz.toNat, s'.heap.mem (c.toNat + i) = s.heap.mem (c.toNat + i)) :
    s'.view c = s.view c := by
  funext i
  simp only [view, hobj]
  split
  · next hi => exact hmem i hi
  · rfl

/-- The first `n` bytes of a chunk. -/
def bytes (s : PoolState) (c : Word) (n : ℕ) : List Byte :=
  (List.range n).map fun i => s.heap.mem (c.toNat + i)

theorem bytes_congr {s s' : PoolState} {c : Word} {n : ℕ} (hn : n ≤ s.obj.chunkSz.toNat)
    (hsize : s'.obj.chunkSz = s.obj.chunkSz) (hview : s'.view c = s.view c) :
    s'.bytes c n = s.bytes c n := by
  refine List.map_congr_left ?_
  intro i hi
  have hlt := (List.mem_range.mp hi).trans_le hn
  have hat := congrFun hview i
  rw [view, view, hsize, if_pos hlt, if_pos hlt] at hat
  exact hat

end PoolState

/-- What each call means to the users of the arena. -/
def Op.act : Op → Arena.Act Word Byte
  | .alloc => .take
  | .free ptr => .give ptr
  | .expand _ => .grow
  | .stats => .look
  | .write chunk i b => .put chunk i b

namespace PoolState.Sound
variable {s : PoolState} {S : Word} {free : List Word} {arrays : List Arr}

/-- The arena a sound state shows. -/
def arena (H : s.Sound S free arrays) : Arena Word Byte where
  free := free.toFinset
  held := s.held.toFinset
  disjoint := by
    rw [List.disjoint_toFinset_iff_disjoint]
    exact (List.nodup_append.mp H.rep.nodup).2.2 |> fun h c hc hc' => h c hc c hc' rfl
  data := s.view

/-- Bytes of a chunk that have not changed are seen unchanged. -/
theorem view_eq (H : s.Sound S free arrays) {s' : PoolState} {d : Word}
    (hobj : s'.obj.chunkSz = s.obj.chunkSz)
    (hmem : ∀ x, d.toNat ≤ x → x < d.toNat + S.toNat → s'.heap.mem x = s.heap.mem x) :
    s'.view d = s.view d := by
  refine view_congr hobj ?_
  intro i hi
  have := H.rep.fits
  exact hmem _ (by omega) (by omega)

/-! ### One step -/

/-- With nothing free, `alloc` throws and changes nothing. -/
theorem next_alloc_nil (H : s.Sound S [] arrays) : s.next .alloc = s := by
  simp only [next, H.rep.val_alloc_nil, Mempool.state_alloc, H.rep.poolAlloc_nil.2]

/-- `alloc` hands out the head of the free list. -/
theorem next_alloc_cons {c : Word} (H : s.Sound S (c :: free) arrays) : s.next .alloc =
    { s with heap := (poolAlloc s.obj.pool).state s.heap, held := c :: s.held } := by
  simp only [next, H.rep.val_alloc_cons, Mempool.state_alloc]

theorem alloc {c : Word} (H : s.Sound S (c :: free) arrays) :
    (s.next .alloc).Sound S free arrays := by
  rw [H.next_alloc_cons]
  exact ⟨H.stride, H.rep.rep_poolAlloc⟩

/-- `free` puts the chunk in front of the free list. -/
theorem free_held (H : s.Sound S free arrays) {ptr : Word} (hheld : ptr ∈ s.held) :
    (s.next (.free ptr)).Sound S (ptr :: free) arrays := ⟨H.stride, H.rep.rep_poolFree hheld⟩

theorem sim_alloc (H : s.Sound S free arrays) :
    ∃ free' arrays', ∃ H' : (s.next .alloc).Sound S free' arrays', H.arena.Step H'.arena .take := by
  cases free with
  | nil =>
      rw [H.next_alloc_nil]
      exact ⟨[], arrays, H, .inl ⟨rfl, rfl, rfl, fun _ _ _ => rfl⟩⟩
  | cons c free =>
      have hnext := H.next_alloc_cons
      refine ⟨free, arrays, H.alloc, .inr ⟨c, ?_, ?_, ?_, ?_⟩⟩
      · simp [arena]
      · have hc : c ∉ free := (List.nodup_cons.mp H.rep.nodup).1 ∘ List.mem_append_left _
        simp [arena, hc]
      · simp [arena, hnext]
      · intro d hd _
        have hd' : d ∈ s.held := by simpa [arena] using hd
        refine H.view_eq (by rw [hnext]) ?_
        intro x hlo hhi
        have := H.rep.layout.pool_chunk (H.rep.held_mem hd')
        simp only [hnext, H.rep.poolAlloc_cons.2, Heap.mem_put]
        exact writeWord_of_disjoint _ _ (by omega)

theorem sim_free (H : s.Sound S free arrays) {ptr : Word} (hg : s.guard (.free ptr)) :
    ∃ free' arrays', ∃ H' : (s.next (.free ptr)).Sound S free' arrays',
      H.arena.Step H'.arena (.give ptr) := by
  by_cases hheld : ptr ∈ s.held
  · have hnd : s.held.Nodup := (List.nodup_append.mp H.rep.nodup).2.1
    refine ⟨ptr :: free, arrays, H.free_held hheld, .inr ⟨?_, ?_, ?_, ?_⟩⟩
    · simpa [arena] using hheld
    · simp [arena]
    · ext d
      simp [arena, next, hnd.mem_erase_iff]
    · intro d hd hd'
      have hd : d ∈ s.held := by simpa [arena] using hd
      have hne : ptr ≠ d := by
        rintro rfl
        simp [arena, next, hnd.mem_erase_iff] at hd'
      refine H.view_eq rfl ?_
      intro x hlo hhi
      have hS := H.rep.layout.link_le
      have hpool := H.rep.layout.pool_chunk (H.rep.held_mem hd)
      have hchunk := H.rep.layout.chunk_chunk (H.rep.held_mem hheld) (H.rep.held_mem hd) hne
      simp only [next, Mempool.free, H.rep.poolFree_chunk hheld, Heap.mem_put]
      rw [writeWord_of_disjoint _ _ (by omega), writeWord_of_disjoint _ _ (by omega)]
  · obtain rfl : ptr = NULL := hg.resolve_right hheld
    have hnext : s.next (.free NULL) = s := by
      simp only [next, Mempool.free, Rep.poolFree_null, List.erase_of_not_mem hheld]
    rw [hnext]
    exact ⟨free, arrays, H, .inl ⟨by simpa [arena] using hheld, rfl, rfl, fun _ _ _ => rfl⟩⟩

/-- An `expand` that succeeds adds its argument to `extra_sz_`. -/
theorem next_expand (H : s.Sound S free arrays) {extraSz : Word}
    (hx : SoundExpand s (.expand extraSz)) : s.next (.expand extraSz) = { s with
      obj := { s.obj with extraSz := s.obj.extraSz + extraSz }
      heap := (poolExpand s.obj.pool extraSz).state s.heap } := by
  have hrun := s.obj.run_expand extraSz s.heap
  rw [if_pos ⟨H.rep.pool_ne_null, hx.1, hx.2.1⟩] at hrun
  have hval : ((s.obj.expand extraSz).val s.heap).2 = _ := congrArg (fun r => r.1.2) hrun
  have hstate : (s.obj.expand extraSz).state s.heap = _ := congrArg Prod.snd hrun
  simp only [next, hval, hstate]

theorem sim_expand (H : s.Sound S free arrays) {extraSz : Word}
    (hx : SoundExpand s (.expand extraSz)) :
    ∃ free' arrays', ∃ H' : (s.next (.expand extraSz)).Sound S free' arrays',
      H.arena.Step H'.arena .grow := by
  rw [H.next_expand hx]
  obtain ⟨hsz, hgrant, hfit⟩ := hx
  obtain ⟨hrep, hkeep⟩ := H.rep.rep_poolExpand hsz hgrant (H.stride ▸ hfit)
  refine ⟨_, _, ⟨H.stride, hrep⟩, ?_, rfl, ?_⟩
  · simp [arena]
  · intro d hd _
    have hd' : d ∈ s.held := by simpa [arena] using hd
    exact H.view_eq rfl (hkeep d (H.rep.held_mem hd'))

theorem next_stats (H : s.Sound S free arrays) : s.next .stats = s := by
  simp only [next, Mempool.state_stats, H.rep.poolAvailable_spec.2]

theorem sim_stats (H : s.Sound S free arrays) :
    ∃ free' arrays', ∃ H' : (s.next .stats).Sound S free' arrays', H.arena.Step H'.arena .look := by
  rw [H.next_stats]
  exact ⟨free, arrays, H, rfl, rfl, fun _ _ _ => rfl⟩

/-- Whatever the holder of a chunk writes into it, the pool stays sound. -/
theorem overwrite (H : s.Sound S free arrays) {c : Word} (hc : c ∈ s.held) {mem : Mem}
    (hmem : ∀ x, (c.toNat ≤ x ∧ x < c.toNat + s.obj.chunkSz.toNat) ∨ mem x = s.heap.mem x) :
    Sound { s with heap := { s.heap with mem := mem } } S free arrays := by
  refine ⟨H.stride, H.rep.rep_write ?_⟩
  intro x
  have := H.rep.fits
  exact (hmem x).imp_left fun hx => ⟨c, hc, hx.1, by omega⟩

theorem write (H : s.Sound S free arrays) {c : Word} {i : ℕ} {b : Byte}
    (hg : s.guard (.write c i b)) : (s.next (.write c i b)).Sound S free arrays := by
  obtain ⟨hc, hi⟩ := hg
  refine H.overwrite hc ?_
  intro x
  by_cases hx : x = c.toNat + i
  · exact .inl (by omega)
  · exact .inr (writeByte_of_ne _ _ hx)

theorem sim_write (H : s.Sound S free arrays) {c : Word} {i : ℕ} {b : Byte}
    (hg : s.guard (.write c i b)) :
    ∃ free' arrays', ∃ H' : (s.next (.write c i b)).Sound S free' arrays',
      H.arena.Step H'.arena (.put c i b) := by
  have hfits := H.rep.fits
  have hwrite := H.write hg
  obtain ⟨hc, hi⟩ := hg
  refine ⟨free, arrays, hwrite, by simpa [arena] using hc, rfl, rfl, ?_, ?_⟩
  · simp [arena, view, next, hi]
  · intro d hd j hne
    have hd' : d ∈ s.held := by simpa [arena] using hd
    simp only [arena, view, next]
    split
    · next hj =>
        refine writeByte_of_ne _ _ ?_
        intro heq
        by_cases hdc : d = c
        · subst hdc
          exact hne ⟨rfl, by omega⟩
        · have := H.rep.layout.chunk_chunk (H.rep.held_mem hd') (H.rep.held_mem hc) hdc
          omega
    · rfl

/-- A step of the `Mempool` is a step of the arena it shows. -/
theorem sim_next (H : s.Sound S free arrays) {op : Op} (hg : s.guard op) (hx : SoundExpand s op) :
    ∃ free' arrays', ∃ H' : (s.next op).Sound S free' arrays', H.arena.Step H'.arena op.act := by
  cases op with
  | alloc => exact H.sim_alloc
  | free ptr => exact H.sim_free hg
  | expand extraSz => exact H.sim_expand hx
  | stats => exact H.sim_stats
  | write c i b => exact H.sim_write hg

/-- A call of the pool leaves a chunk alone that stays held and is not written to. -/
theorem view_next (H : s.Sound S free arrays) {op : Op} (hg : s.guard op)
    (hx : SoundExpand s op) {c : Word} (hc : c ∈ s.held) (hfree : op ≠ .free c)
    (hwrite : ∀ i b, op ≠ .write c i b) : (s.next op).view c = s.view c := by
  obtain ⟨free', arrays', H', hstep⟩ := H.sim_next hg hx
  have hheld : c ∈ H.arena.held := List.mem_toFinset.mpr hc
  have hgive : ∀ d, op.act = .give d → d ≠ c := by
    rintro d hd rfl
    cases op <;> cases hd
    exact hfree rfl
  funext i
  refine (hstep.data hheld hgive i).trans ?_
  cases op with
  | write d j b =>
      have hne : ¬ (d = c ∧ j = i) := fun h => hwrite j b (by rw [h.1])
      exact if_neg hne
  | alloc | free | expand | stats => rfl

/-- A run of the `Mempool` in which every `expand` succeeds is a path of the arena. -/
theorem sim_exec (H : s.Sound S free arrays) {ops : List Op}
    (hops : (mempool.restrict SoundExpand).Admits s ops) :
    ∃ free' arrays', ∃ H' : (mempool.exec s ops).Sound S free' arrays',
      H.arena.Path (ops.map Op.act) H'.arena := by
  induction ops generalizing s free arrays with
  | nil => exact ⟨free, arrays, H, rfl⟩
  | cons op ops ih =>
      obtain ⟨⟨hg, hx⟩, hrest⟩ := hops
      obtain ⟨free₁, arrays₁, H₁, hstep⟩ := H.sim_next hg hx
      obtain ⟨free₂, arrays₂, H₂, hpath⟩ := ih H₁ hrest
      exact ⟨free₂, arrays₂, H₂, H₁.arena, hstep, hpath⟩

end PoolState.Sound

end Unid.Common
