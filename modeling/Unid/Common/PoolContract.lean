import Unid.Common.PoolRun

/-!
# What a `Mempool` guarantees

The promises of the class, for every run in which the constructor does not
throw, every `expand` succeeds and no byte count overflows: the free list and
the chunks in callers' hands always partition the chunks of the arrays, a chunk
belongs to its holder alone, and the count that `stats` takes by walking the free
list is the number of chunks that nobody holds.
-/

namespace Unid.Common
open Lib

namespace PoolState

/-- The chunk size stored in the pool. -/
def stride (s : PoolState) : Word := readWord s.heap.mem (s.obj.pool.toNat + offChunkSz)

/-- The list that starts at `free_chunk` is finite and names these chunks. -/
def IsFreeList (s : PoolState) (free : List Word) : Prop :=
  Chain (link s.heap.mem) NULL (readWord s.heap.mem (s.obj.pool.toNat + offFreeChunk)) free

/-- The arrays recorded in `array_starts`, each with as many chunks as its block has room
for. -/
structure IsArrayList (s : PoolState) (arrays : List Arr) : Prop where
  nodes : Chain (link s.heap.mem) NULL
    (readWord s.heap.mem (s.obj.pool.toNat + offArrayStarts)) (arrays.map Arr.node)
  arrs : ∀ a ∈ arrays, readWord s.heap.mem (a.node.toNat + offArr) = a.arr
  counts : ∀ a ∈ arrays, a.dataBlock s.stride ∈ s.heap.blocks.live

/-- Two chunks share no byte. -/
def Separate (s : PoolState) (c d : Word) : Prop :=
  c.toNat + s.stride.toNat ≤ d.toNat ∨ d.toNat + s.stride.toNat ≤ c.toNat

/-- The free and the held chunks are the chunks of the arrays, each once, and none
overlaps another. -/
structure Partition (s : PoolState) (free : List Word) (arrays : List Arr) : Prop where
  isFreeList : s.IsFreeList free
  isArrayList : s.IsArrayList arrays
  nodup : (free ++ s.held).Nodup
  parts : (free ++ s.held).Perm (chunksOf s.stride arrays)
  disjoint : (chunksOf s.stride arrays).Pairwise s.Separate
  count : (chunksOf s.stride arrays).length = s.obj.poolSz.toNat + s.obj.extraSz.toNat

/-- What `stats` and `alloc` say of a pool that has been given `total` chunks, `extra` of them
by `expand`: the walk over the free list ends and counts what is not held, and `alloc` throws
exactly when that is nothing, and then changes nothing. -/
structure Counted (s : PoolState) (total extra : ℕ) : Prop where
  ends : (s.obj.stats.state s.heap).faults = []
  extra : (s.obj.stats.val s.heap).extraSz.toNat = extra
  held_le : s.held.length ≤ total
  available : (s.obj.stats.val s.heap).available.toNat = total - s.held.length
  throws_iff : (∃ e, s.obj.alloc.val s.heap = .error e) ↔ total - s.held.length = 0
  unchanged : ∀ e, s.obj.alloc.val s.heap = .error e → s.obj.alloc.state s.heap = s.heap

/-- The next `alloc` returns no chunk that is held, and none that overlaps one. -/
def AllocFresh (s : PoolState) : Prop :=
  ∀ c, s.obj.alloc.val s.heap = .ok c → ∀ d ∈ s.held, c ≠ d ∧ s.Separate c d

namespace Sound
variable {s : PoolState} {S : Word} {free : List Word} {arrays : List Arr}

theorem stride_eq (H : s.Sound S free arrays) : s.stride = S := H.rep.stride

theorem separate (H : s.Sound S free arrays) {c d : Word} (hc : c ∈ chunksOf S arrays)
    (hd : d ∈ chunksOf S arrays) (hne : c ≠ d) : s.Separate c d := by
  rw [Separate, H.stride_eq]
  exact H.rep.layout.chunk_chunk hc hd hne

theorem partition (H : s.Sound S free arrays) : s.Partition free arrays := by
  have R := H.rep
  refine ⟨R.chain, ⟨R.nodes, R.arrs, ?_⟩, R.nodup, ?_, ?_, ?_⟩ <;> rw [H.stride_eq]
  · exact fun a ha => R.layout.data_mem ha
  · exact R.parts
  · exact R.layout.nodup_chunksOf.imp_of_mem fun hc hd hne => H.separate hc hd hne
  · rw [length_chunksOf, R.counts]

theorem allocFresh (H : s.Sound S free arrays) : s.AllocFresh := by
  intro c hc d hd
  cases free with
  | nil => simp [H.rep.val_alloc_nil] at hc
  | cons c' free =>
      obtain rfl : c' = c := by simpa [H.rep.val_alloc_cons] using hc
      have hmem : c' ∈ c' :: free := List.mem_cons_self
      have hne : c' ≠ d := (List.nodup_append.mp H.rep.nodup).2.2 c' hmem d hd
      exact ⟨hne, H.separate (H.rep.free_mem hmem) (H.rep.held_mem hd) hne⟩

theorem counted (H : s.Sound S free arrays) :
    s.Counted (s.obj.poolSz.toNat + s.obj.extraSz.toNat) s.obj.extraSz.toNat := by
  have hcount := H.rep.length_eq
  have hwalk := H.rep.poolAvailable_spec
  refine ⟨?_, ?_, by omega, ?_, ?_, ?_⟩
  · rw [Mempool.state_stats, hwalk.2]
    exact H.rep.clean
  · rw [Mempool.val_stats]
  · rw [Mempool.val_stats, hwalk.1]
    omega
  · cases free with
    | nil =>
        rw [List.length_nil] at hcount
        exact ⟨fun _ => by omega, fun _ => ⟨_, H.rep.val_alloc_nil⟩⟩
    | cons c free =>
        rw [List.length_cons] at hcount
        rw [H.rep.val_alloc_cons]
        refine ⟨?_, fun _ => by omega⟩
        rintro ⟨e, ⟨⟩⟩
  · intro e he
    cases free with
    | nil => rw [Mempool.state_alloc, H.rep.poolAlloc_nil.2]
    | cons c free => simp [H.rep.val_alloc_cons] at he

end Sound

/-- The constructor does not throw when its allocations succeed. -/
theorem new_of_granted {poolSz chunkSz : Word} {h : Heap} (hsz : poolSz ≠ 0)
    (hgrant : NewGranted poolSz chunkSz h) : PoolState.new poolSz chunkSz h =
      .ok ⟨⟨chunkSz, poolSz, 0, newPool h⟩, (poolNew poolSz chunkSz).state h, []⟩ := by
  simp only [PoolState.new, Mempool.val_new, if_pos (And.intro hsz hgrant), Mempool.state_new]

/-- What a constructor that does not throw has been given, and what it has made. -/
theorem of_new {poolSz chunkSz : Word} {h : Heap} {s : PoolState}
    (hnew : PoolState.new poolSz chunkSz h = .ok s) : poolSz ≠ 0 ∧ NewGranted poolSz chunkSz h ∧
      s = ⟨⟨chunkSz, poolSz, 0, newPool h⟩, (poolNew poolSz chunkSz).state h, []⟩ := by
  by_cases hgrant : poolSz ≠ 0 ∧ NewGranted poolSz chunkSz h
  · rw [new_of_granted hgrant.1 hgrant.2, Except.ok.injEq] at hnew
    exact ⟨hgrant.1, hgrant.2, hnew.symm⟩
  · simp only [PoolState.new, Mempool.val_new, if_neg hgrant, reduceCtorEq] at hnew

/-- A constructed `Mempool` of good sizes is sound. -/
theorem sound_new {poolSz chunkSz : Word} {mem : Mem} {answers : ℕ → Word} {s : PoolState}
    (hnew : PoolState.new poolSz chunkSz (.initial mem answers) = .ok s)
    (G : GoodSizes poolSz chunkSz) : ∃ S free arrays, s.Sound S free arrays := by
  obtain ⟨hsz, hgrant, rfl⟩ := of_new hnew
  exact ⟨_, _, _, G.toNat_stride hsz, G.rep_new hsz hgrant⟩

end PoolState

instance (s : PoolState) (op : Op) : Decidable (mempool.guard s op) :=
  inferInstanceAs (Decidable (s.guard op))

/-- No method changes `chunk_sz_`. -/
theorem PoolState.chunkSz_next (s : PoolState) (op : Op) :
    (s.next op).obj.chunkSz = s.obj.chunkSz := by
  cases op with
  | alloc =>
      simp only [next]
      split <;> rfl
  | expand extraSz =>
      have hval : ((s.obj.expand extraSz).val s.heap).2 = _ :=
        congrArg (fun r => r.1.2) (s.obj.run_expand extraSz s.heap)
      simp only [next, hval]
      split <;> rfl
  | free ptr | stats | write c i b => rfl

theorem PoolState.chunkSz_exec (s : PoolState) (ops : List Op) :
    (mempool.exec s ops).obj.chunkSz = s.obj.chunkSz := by
  induction ops generalizing s with
  | nil => rfl
  | cons op ops ih => exact (ih _).trans (s.chunkSz_next op)

/-- How many chunks a call adds to the pool. -/
def Op.extra : Op → ℕ
  | .expand extraSz => extraSz.toNat
  | _ => 0

/-- A call adds to `extra_sz_` what it adds to the pool, and never wraps it. -/
theorem PoolState.Sound.sizes_next {s : PoolState} {S : Word} {free : List Word}
    {arrays : List Arr} (H : s.Sound S free arrays) {op : Op} (hx : SoundExpand s op) :
    (s.next op).obj.poolSz = s.obj.poolSz ∧
      (s.next op).obj.extraSz.toNat = s.obj.extraSz.toNat + op.extra := by
  cases op with
  | alloc =>
      simp only [next]
      split <;> exact ⟨rfl, rfl⟩
  | expand extraSz =>
      have hcounts := H.rep.counts
      obtain ⟨hrep, -⟩ := H.rep.rep_poolExpand hx.1 hx.2.1 (H.stride ▸ hx.2.2)
      have hcounts' := hrep.counts
      rw [H.next_expand hx]
      refine ⟨rfl, ?_⟩
      simp only [List.map_cons, List.sum_cons, grantedArr] at hcounts'
      simp only [Op.extra]
      omega
  | free ptr | stats | write c i b => exact ⟨rfl, rfl⟩

theorem PoolState.Sound.sizes_exec {s : PoolState} {S : Word} {free : List Word}
    {arrays : List Arr} (H : s.Sound S free arrays) {ops : List Op}
    (hops : (mempool.restrict SoundExpand).Admits s ops) :
    (mempool.exec s ops).obj.poolSz = s.obj.poolSz ∧
      (mempool.exec s ops).obj.extraSz.toNat =
        s.obj.extraSz.toNat + (ops.map Op.extra).sum := by
  induction ops generalizing s free arrays with
  | nil => exact ⟨rfl, rfl⟩
  | cons op ops ih =>
      obtain ⟨⟨hg, hx⟩, hrest⟩ := hops
      obtain ⟨free₁, arrays₁, H₁, -⟩ := H.sim_next hg hx
      obtain ⟨hpool, hextra⟩ := ih H₁ hrest
      obtain ⟨hpool', hextra'⟩ := H.sizes_next hx
      refine ⟨hpool.trans hpool', hextra.trans ?_⟩
      rw [List.map_cons, List.sum_cons, ← Nat.add_assoc]
      exact congrArg (· + _) hextra'

/-- A `Mempool` that has been constructed, and used and expanded since, without a throw and
without an overflow. -/
def PoolState.InUse (p : PoolState) : Prop :=
  ∃ poolSz chunkSz mem answers s, PoolState.new poolSz chunkSz (.initial mem answers) = .ok s ∧
    GoodSizes poolSz chunkSz ∧ (mempool.restrict SoundExpand).Reachable s p

theorem PoolState.InUse.sound {p : PoolState} (hp : p.InUse) :
    ∃ S free arrays, p.Sound S free arrays := by
  obtain ⟨poolSz, chunkSz, mem, answers, s, hnew, G, ops, hops, rfl⟩ := hp
  obtain ⟨S, free₀, arrays₀, H₀⟩ := PoolState.sound_new hnew G
  obtain ⟨free, arrays, H, -⟩ := H₀.sim_exec hops
  exact ⟨S, free, arrays, H⟩

section Runs
variable {poolSz chunkSz : Word} {mem : Mem} {answers : ℕ → Word} {s : PoolState}

/-- Whatever callers do, the free list and the held chunks partition the chunks of the
arrays, and `alloc` returns a chunk that nobody holds. -/
theorem mempool_partition (hnew : PoolState.new poolSz chunkSz (.initial mem answers) = .ok s)
    (G : GoodSizes poolSz chunkSz) {ops : List Op}
    (hops : (mempool.restrict SoundExpand).Admits s ops) :
    (∃ free arrays, (mempool.exec s ops).Partition free arrays) ∧
      (mempool.exec s ops).AllocFresh := by
  obtain ⟨S, free₀, arrays₀, H₀⟩ := PoolState.sound_new hnew G
  obtain ⟨free, arrays, H, -⟩ := H₀.sim_exec hops
  exact ⟨⟨free, arrays, H.partition⟩, H.allocFresh⟩

/-- Answers of `pool_ext_alloc` for the runs below: blocks 256 bytes apart. -/
def spaced (i : ℕ) : Word := BitVec.ofNat 64 (4096 + 256 * i)

theorem mempool_partition_run :
    let s₀ : PoolState := ⟨⟨5, 2, 0, 4096⟩, (poolNew 2 5).state (.initial (fun _ => 0) spaced), []⟩
    let ops := [.alloc, .alloc, .write 4608 4 7, .free 4608, .expand 3, .alloc, .free NULL, .alloc]
    PoolState.new 2 5 (.initial (fun _ => 0) spaced) = .ok s₀ ∧
      (mempool.exec s₀ ops).held = [5128, 5120, 4616] ∧
      (∃ free arrays, (mempool.exec s₀ ops).Partition free arrays) ∧
      (mempool.exec s₀ ops).AllocFresh :=
  have hnew := PoolState.new_of_granted (by decide) (by decide +kernel)
  ⟨hnew, by decide +kernel, mempool_partition hnew (by decide) (by decide +kernel)⟩

/-- From the `alloc` that returned a chunk to the `free` that gives it back, each of its
first `chunk_sz` bytes reads as its holder last wrote it. -/
theorem mempool_holder_reads (hnew : PoolState.new poolSz chunkSz (.initial mem answers) = .ok s)
    (G : GoodSizes poolSz chunkSz) {before after : List Op} {c : Word}
    (hops : (mempool.restrict SoundExpand).Admits s (before ++ .alloc :: after))
    (halloc : (mempool.exec s before).obj.alloc.val (mempool.exec s before).heap = .ok c)
    (hfree : .free c ∉ after) {i : ℕ} (hi : i < chunkSz.toNat) :
    (mempool.exec s (before ++ .alloc :: after)).heap.mem (c.toNat + i) =
      Arena.lastPut c i ((mempool.exec s (before ++ [.alloc])).heap.mem (c.toNat + i))
        (after.map Op.act) := by
  obtain ⟨S, free₀, arrays₀, H₀⟩ := PoolState.sound_new hnew G
  have hsize : s.obj.chunkSz = chunkSz := by
    obtain ⟨-, -, rfl⟩ := PoolState.of_new hnew
    rfl
  rw [Machine.admits_append] at hops
  obtain ⟨hbefore, -, hafter⟩ := hops
  obtain ⟨free₁, arrays₁, H₁, -⟩ := H₀.sim_exec hbefore
  obtain ⟨free₂, arrays₂, H₂, -⟩ := H₁.sim_alloc
  obtain ⟨free₃, arrays₃, H₃, hpath⟩ := H₂.sim_exec hafter
  have hheld : c ∈ H₂.arena.held := by
    simp [PoolState.Sound.arena, PoolState.next, halloc]
  have hgive : Arena.Act.give c ∉ after.map Op.act := by
    intro hmem
    obtain ⟨op, hop, hact⟩ := List.mem_map.mp hmem
    cases op <;> simp only [Op.act, reduceCtorEq, Arena.Act.give.injEq] at hact
    exact hfree (hact ▸ hop)
  obtain ⟨-, hdata⟩ := hpath.held_data hheld hgive i
  have hview : ∀ ops : List Op, (mempool.exec s ops).view c i =
      (mempool.exec s ops).heap.mem (c.toNat + i) := fun ops => by
    rw [PoolState.view, if_pos (by rw [PoolState.chunkSz_exec, hsize]; exact hi)]
  rw [← hview, ← hview, Machine.exec_append, Machine.exec_append]
  exact hdata

theorem mempool_holder_reads_run :
    let s₀ : PoolState := ⟨⟨5, 2, 0, 4096⟩, (poolNew 2 5).state (.initial (fun _ => 0) spaced), []⟩
    let after := [.write 4616 4 7, .alloc, .write 4608 4 9, .free 4608, .expand 3, .stats]
    (mempool.exec s₀ ([.alloc] ++ .alloc :: after)).heap.mem ((4616 : Word).toNat + 4) = 7 := by
  intro s₀ after
  have hnew : PoolState.new 2 5 (.initial (fun _ => 0) spaced) = .ok s₀ :=
    PoolState.new_of_granted (by decide) (by decide +kernel)
  have hops : (mempool.restrict SoundExpand).Admits s₀ ([.alloc] ++ .alloc :: after) := by
    decide +kernel
  have halloc : (mempool.exec s₀ [.alloc]).obj.alloc.val (mempool.exec s₀ [.alloc]).heap =
      .ok 4616 := by decide +kernel
  have hlast : ∀ b : Byte, Arena.lastPut (4616 : Word) 4 b (after.map Op.act) = 7 := fun _ => rfl
  exact (mempool_holder_reads hnew (by decide) hops halloc (by decide) (by decide)).trans (hlast _)

/-- In every run, `stats` counts the chunks that are not held, of those the constructor and the
`expand`s have made, and `alloc` throws exactly when there is none. -/
theorem mempool_counted (hnew : PoolState.new poolSz chunkSz (.initial mem answers) = .ok s)
    (G : GoodSizes poolSz chunkSz) {ops : List Op}
    (hops : (mempool.restrict SoundExpand).Admits s ops) :
    (mempool.exec s ops).Counted (poolSz.toNat + (ops.map Op.extra).sum)
      (ops.map Op.extra).sum := by
  obtain ⟨S, free₀, arrays₀, H₀⟩ := PoolState.sound_new hnew G
  obtain ⟨free, arrays, H, -⟩ := H₀.sim_exec hops
  obtain ⟨hpool, hextra⟩ := H₀.sizes_exec hops
  have hcounted := H.counted
  obtain ⟨-, -, rfl⟩ := PoolState.of_new hnew
  rw [hpool, hextra, show (0 : Word).toNat = 0 from rfl, Nat.zero_add] at hcounted
  exact hcounted

theorem mempool_counted_run :
    let s₀ : PoolState := ⟨⟨5, 2, 0, 4096⟩, (poolNew 2 5).state (.initial (fun _ => 0) spaced), []⟩
    let ops := [.alloc, .alloc, .write 4608 4 7, .alloc, .free 4608, .expand 3, .alloc, .stats]
    (mempool.exec s₀ ops).held = [5120, 4616] ∧ (mempool.exec s₀ ops).Counted 5 3 := by
  intro s₀ ops
  have hnew : PoolState.new 2 5 (.initial (fun _ => 0) spaced) = .ok s₀ :=
    PoolState.new_of_granted (by decide) (by decide +kernel)
  exact ⟨by decide +kernel, mempool_counted hnew (by decide) (by decide +kernel)⟩

end Runs

/-- A `Mempool(2, 8)` on blocks 256 bytes apart. -/
def twoPool : PoolState :=
  ⟨⟨8, 2, 0, 4096⟩, (poolNew 2 8).state (.initial (fun _ => 0) spaced), []⟩

theorem inUse_twoPool : twoPool.InUse :=
  ⟨2, 8, fun _ => 0, spaced, twoPool,
    PoolState.new_of_granted (by decide) (by decide +kernel), by decide, .refl _⟩

end Unid.Common
