import Unid.Common.Footprint
import Unid.Common.PoolContract

/-!
# What the lock is good for

Any number of threads use one pool: they allocate, free, expand, and write into
their chunks, also while another thread is in the middle of a call.  Under the
lock all this is as if the calls were made one after the other (`locked_linear`),
and so no chunk ever is in two hands (`locked_safe`), whereas without it two
threads can be given the same chunk.

Both follow from facts about single calls after any log: a call keeps the pool
sound and moves chunks between the pool and its caller only
(`PoolState.Sound.call`), and does not touch what others may write
(`PoolState.Sound.body_avoids`).

## Main definitions

* `Transfer` — chunks move between the pool and one caller.
* `claims`, `Owned` — whose the chunks are by the log, and that no two threads share one.
* `discipline` — the calls of a pool keep to the rules of a monitor.
* `LockedSafe` — what the lock guarantees.
-/

namespace Unid.Common
open Lib

/-! ## The calls, one after the other -/

section Sequential
variable (pool : Word) (h : Heap)

theorem run_map {α β : Type} (f : α → β) (p : C α) :
    (f <$> p).run Heap.handle h = (f (p.val h), p.state h) := Prog.run_bind ..

/-- With the lock, too, the calls do what the functions do without it. -/
theorem run_alloc : (conduct pool .alloc).run Heap.handle h =
    (.chunk ((poolAlloc pool).val h), (poolAlloc pool).state h) := by
  rw [conduct, poolAlloc_eq_body]
  split
  · rfl
  · exact run_map h ..

theorem run_free (ptr : Word) : (conduct pool (.free ptr)).run Heap.handle h =
    (.done, (poolFree pool ptr).state h) := by
  rw [conduct, poolFree_eq_body]
  split
  · rfl
  · exact run_map h ..

theorem run_expand (extraSz : Word) : (conduct pool (.expand extraSz)).run Heap.handle h =
    (.expanded ((poolExpand pool extraSz).val h), (poolExpand pool extraSz).state h) := by
  rw [conduct, poolExpand_eq_body]
  split
  · rfl
  · exact run_map h ..

end Sequential

/-- A caller that had `mine` of the chunks `held` now has `mine'` of `held'`: nobody else has lost
a chunk, and what the caller has got nobody had. -/
structure Transfer (mine mine' : Finset Word) (held held' : List Word) : Prop where
  has : ∀ d ∈ mine', d ∈ held'
  keeps : ∀ d ∈ held, d ∉ mine → d ∈ held'
  fresh : ∀ d ∈ mine', d ∈ mine ∨ d ∉ held

theorem Transfer.same {mine : Finset Word} {held : List Word} (h : ∀ d ∈ mine, d ∈ held) :
    Transfer mine mine held held := ⟨h, fun _ hd _ => hd, fun _ hd => .inl hd⟩

namespace PoolState.Sound
variable {m : Mempool} {h : Heap} {S : Word} {free held : List Word} {arrays : List Arr}
  {mine : Finset Word}

/-- Blocks in another order and other answers to come make no difference. -/
theorem of_same {h' : Heap} (H : Sound ⟨m, h, held⟩ S free arrays) (hmem : h'.mem = h.mem)
    (hlive : h'.blocks.live.Perm h.blocks.live) (hfaults : h'.faults = h.faults) :
    Sound ⟨m, h', held⟩ S free arrays := by
  have R := H.rep
  refine ⟨H.stride, ⟨hlive.trans R.layout.live, R.layout.link_le⟩, ?_, ?_, ?_, ?_, R.parts,
    R.counts, R.fits, hfaults.trans R.clean⟩ <;> rw [hmem]
  · exact R.stride
  · exact R.chain
  · exact R.nodes
  · exact R.arrs

/-- A call keeps the pool sound, and moves chunks between the pool and its caller only. -/
theorem call (H : Sound ⟨m, h, held⟩ S free arrays) (hmine : ∀ d ∈ mine, d ∈ held)
    {c : PoolCall} (hmay : May m.chunkSz mine c) :
    ∃ m' free' held' arrays', m'.pool = m.pool ∧ m'.chunkSz = m.chunkSz ∧
      Sound ⟨m', ((conduct m.pool c).run Heap.handle h).2, held'⟩ S free' arrays' ∧
      Transfer mine (handsAfter mine (c, ((conduct m.pool c).run Heap.handle h).1)) held held' := by
  have R := H.rep
  cases c with
  | alloc =>
      rw [run_alloc]
      cases free with
      | nil =>
          rw [R.poolAlloc_nil.1, R.poolAlloc_nil.2]
          refine ⟨m, [], held, arrays, rfl, rfl, H, ?_⟩
          simpa [handsAfter] using Transfer.same hmine
      | cons c free =>
          have hne : c ≠ NULL := R.chain.2.1
          have hc : c ∉ held := fun hc =>
            (List.nodup_append.mp R.nodup).2.2 c List.mem_cons_self c hc rfl
          refine ⟨m, free, c :: held, arrays, rfl, rfl, ⟨H.stride, R.rep_poolAlloc⟩, ?_⟩
          simp only [handsAfter, R.poolAlloc_cons.1, if_neg hne]
          refine ⟨?_, fun d hd _ => List.mem_cons_of_mem c hd, ?_⟩
          · simpa using fun d hd => .inr (hmine d hd)
          · simpa using ⟨.inr hc, fun d hd => .inl hd⟩
  | free ptr =>
      rw [run_free]
      by_cases hnull : ptr = NULL
      · subst hnull
        rw [Rep.poolFree_null]
        refine ⟨m, free, held, arrays, rfl, rfl, H, ?_⟩
        exact ⟨fun d hd => hmine d (Finset.mem_of_mem_erase hd), fun _ hd _ => hd,
          fun d hd => .inl (Finset.mem_of_mem_erase hd)⟩
      · have hptr : ptr ∈ mine := hmay.resolve_left hnull
        have hnd : held.Nodup := (List.nodup_append.mp R.nodup).2.1
        refine ⟨m, ptr :: free, held.erase ptr, arrays, rfl, rfl,
          ⟨H.stride, R.rep_poolFree (hmine ptr hptr)⟩, ?_, ?_, ?_⟩
        · intro d hd
          obtain ⟨hne, hd⟩ := Finset.mem_erase.mp hd
          exact hnd.mem_erase_iff.mpr ⟨hne, hmine d hd⟩
        · rintro d hd hout
          refine hnd.mem_erase_iff.mpr ⟨?_, hd⟩
          rintro rfl
          exact hout hptr
        · exact fun d hd => .inl (Finset.mem_of_mem_erase hd)
  | expand extraSz =>
      rw [run_expand]
      have hfit : extraSz.toNat * S.toNat < 2 ^ 64 := by
        rw [H.stride]
        exact hmay
      by_cases hgrant : extraSz ≠ 0 ∧ ExpandGranted m.pool extraSz h
      · have hrep := (R.rep_poolExpand hgrant.1 hgrant.2 hfit).1
        exact ⟨{ m with extraSz := m.extraSz + extraSz }, _, held, _, rfl, rfl, ⟨H.stride, hrep⟩,
          .same hmine⟩
      · obtain ⟨hmem, hlive, hfaults⟩ := R.poolExpand_refused hgrant
        exact ⟨m, free, held, arrays, rfl, rfl, H.of_same hmem hlive hfaults, .same hmine⟩
  | write chunk i b =>
      have hguard : PoolState.guard ⟨m, h, held⟩ (.write chunk i b) := ⟨hmine _ hmay.1, hmay.2⟩
      exact ⟨m, free, held, arrays, rfl, rfl, H.write hguard, .same hmine⟩

/-- A call does not touch the chunks of others. -/
theorem body_avoids (H : Sound ⟨m, h, held⟩ S free arrays) (hmine : ∀ d ∈ mine, d ∈ held)
    {c : PoolCall} (hmay : May m.chunkSz mine c) {fail : PoolAnswer} {body : C PoolAnswer}
    (hc : conduct m.pool c = .locked fail body) {d : Word} (hd : d ∈ held) (hnot : d ∉ mine)
    {i : ℕ} (hi : i < m.chunkSz.toNat) :
    body.Always Heap.handle (fun e _ => e.Avoids (d.toNat + i)) h := by
  have R : Rep m h S free held arrays := H.rep
  have L := R.layout
  have hin := R.held_mem hd
  have hfits : m.chunkSz.toNat ≤ S.toNat := R.fits
  have hS := L.link_le
  have hpool : d.toNat + i < (poolBlock m.pool).base ∨
      (poolBlock m.pool).base + (poolBlock m.pool).size ≤ d.toNat + i := by
    have := L.pool_chunk hin
    simp only [poolBlock]
    omega
  have hlink : ∀ e ∈ chunksOf S arrays, e ≠ d → d.toNat + i < (linkBlock e).base ∨
      (linkBlock e).base + (linkBlock e).size ≤ d.toNat + i := by
    intro e he hne
    have := L.chunk_chunk he hin hne
    simp only [linkBlock]
    omega
  cases c with
  | alloc =>
      rw [conduct, if_neg R.pool_ne_null] at hc
      cases hc
      refine Prog.always_map.mpr (R.allocBody_within.mono fun e _ he => he.avoids ?_)
      simp only [List.forall_mem_cons, List.forall_mem_map]
      refine ⟨hpool, fun e he => hlink e (R.free_mem he) ?_⟩
      exact (List.nodup_append.mp R.nodup).2.2 e he d hd
  | free ptr =>
      simp only [conduct] at hc
      split at hc
      · cases hc
      · next hnull =>
          cases hc
          have hptr : ptr ∈ mine := hmay.resolve_left fun h0 => hnull (.inr h0)
          refine Prog.always_map.mpr
            ((freeBody_within m.pool ptr h).mono fun e _ he => he.avoids ?_)
          simp only [List.forall_mem_cons]
          refine ⟨hpool, hlink ptr (R.held_mem (hmine ptr hptr)) ?_, List.forall_mem_nil _⟩
          rintro rfl
          exact hnot hptr
  | expand extraSz =>
      simp only [conduct] at hc
      split at hc
      · cases hc
      · next hnull =>
          cases hc
          have hfit : extraSz.toNat * S.toNat < 2 ^ 64 := by
            rw [H.stride]
            exact hmay
          obtain ⟨new, hapart, hwithin⟩ := R.expandBody_within (fun h0 => hnull (.inr h0)) hfit
          refine Prog.always_map.mpr (hwithin.mono fun e _ he => he.avoids ?_)
          refine List.forall_mem_cons.mpr ⟨hpool, fun b hb => ?_⟩
          obtain ⟨a, ha, j, hj, rfl⟩ := mem_chunksOf.mp hin
          have := (hapart b hb _ (L.data_mem ha)).disjoint (a := b.base) (n := b.size)
            ⟨le_rfl, le_rfl⟩ (L.data_has_chunk ha hj)
          omega
  | write chunk j b => cases hc

end PoolState.Sound

/-! ## What threads know of their chunks -/

theorem hands_concat (H : Finset Word) (turns : List (PoolCall × PoolAnswer))
    (x : PoolCall × PoolAnswer) : hands H (turns ++ [x]) = handsAfter (hands H turns) x := by
  simp [hands]

theorem handsAfter_mono {H H' : Finset Word} (h : H ⊆ H') (x : PoolCall × PoolAnswer) :
    handsAfter H x ⊆ handsAfter H' x := by
  obtain ⟨c, r⟩ := x
  cases c with
  | alloc =>
      cases r with
      | chunk c =>
          simp only [handsAfter]
          split
          · exact h
          · exact Finset.insert_subset_insert c h
      | done | expanded ok => exact h
  | free ptr => exact Finset.erase_subset_erase ptr h
  | expand extraSz | write chunk i b => exact h

/-- A call that has not done anything gives its caller nothing. -/
theorem handsAfter_refused {pool : Word} {H : Finset Word} {c : PoolCall} {r : PoolAnswer}
    {body : C PoolAnswer} (hc : conduct pool c = .locked r body) : handsAfter H (c, r) ⊆ H := by
  cases c with
  | alloc =>
      simp only [conduct] at hc
      split at hc
      · cases hc
      · cases hc
        exact subset_rfl
  | free ptr => exact Finset.erase_subset ..
  | expand extraSz | write chunk i b => exact subset_rfl

/-- What a thread does of its own gives it nothing either. -/
theorem handsAfter_own {pool : Word} {H : Finset Word} {c : PoolCall} {r : PoolAnswer}
    {act : Heap → Heap} (hc : conduct pool c = .own r act) : handsAfter H (c, r) ⊆ H := by
  cases c with
  | alloc =>
      simp only [conduct] at hc
      split at hc
      · cases hc
        exact subset_rfl
      · cases hc
  | free ptr => exact Finset.erase_subset ..
  | expand extraSz | write chunk i b => exact subset_rfl

theorem May.mono {chunkSz : Word} {H H' : Finset Word} (h : H ⊆ H') {c : PoolCall}
    (hmay : May chunkSz H c) : May chunkSz H' c := by
  cases c with
  | alloc => trivial
  | free ptr => exact hmay.imp_right fun hptr => h hptr
  | expand extraSz => exact hmay
  | write chunk i b => exact ⟨h hmay.1, hmay.2⟩

section Threads
variable {T : Type} {pool chunkSz : Word} {start : T → Finset Word}

/-- A thread has at least the chunks that it thinks it has: calls that were refused the lock have
given it nothing, and may have kept a chunk from going back. -/
theorem hands_seen {h : List (Turn PoolCall PoolAnswer)}
    (hh : (lockedPool pool chunkSz start).Honest h) {H H' : Finset Word} (hH : H ⊆ H') :
    hands H (seen h) ⊆ hands H' (taken h) := by
  induction h generalizing H H' with
  | nil => exact hH
  | cons x h ih =>
      obtain ⟨hx, hh⟩ := List.forall_mem_cons.mp hh
      cases hin : x.entered with
      | true =>
          have := ih hh (handsAfter_mono hH (x.call, x.result))
          simpa [taken, seen, hands, hin] using this
      | false =>
          obtain ⟨body, hc⟩ := hx hin
          have := ih hh ((handsAfter_refused hc).trans hH)
          simpa [taken, seen, hands, hin] using this

variable [DecidableEq T]

/-- The chunks of a thread by the log. -/
def claims (pool chunkSz : Word) (start : T → Finset Word) (h₀ : Heap)
    (log : List (T × PoolCall)) (t : T) : Finset Word :=
  hands (start t) ((lockedPool pool chunkSz start).turns h₀ log t)

variable {h₀ : Heap} {log : List (T × PoolCall)} {t u : T} {c : PoolCall}

theorem claims_concat : claims pool chunkSz start h₀ (log ++ [(t, c)]) t =
    handsAfter (claims pool chunkSz start h₀ log t)
      (c, ((conduct pool c).run Heap.handle
        ((lockedPool pool chunkSz start).replay h₀ log)).1) := by
  rw [claims, Monitor.turns_concat, hands_concat]
  rfl

theorem claims_concat_of_ne (hu : u ≠ t) : claims pool chunkSz start h₀ (log ++ [(t, c)]) u =
    claims pool chunkSz start h₀ log u := by
  rw [claims, Monitor.turns_concat_of_ne _ hu, claims]

theorem may_of_admissible
    (h : (lockedPool pool chunkSz start).Admissible h₀ log t c) :
    May chunkSz (claims pool chunkSz start h₀ log t) c := by
  obtain ⟨hist, hturns, hhonest, hmay⟩ := h
  rw [claims, hturns]
  exact hmay.mono (hands_seen hhonest subset_rfl)

/-- After this log the pool is sound, and no two threads share a chunk. -/
structure Owned (pool chunkSz : Word) (start : T → Finset Word) (h₀ : Heap)
    (log : List (T × PoolCall)) : Prop where
  sound : ∃ m S free held arrays, m.pool = pool ∧ m.chunkSz = chunkSz ∧
    PoolState.Sound ⟨m, (lockedPool pool chunkSz start).replay h₀ log, held⟩ S free arrays ∧
    ∀ t, ∀ d ∈ claims pool chunkSz start h₀ log t, d ∈ held
  alone : ∀ t u, t ≠ u →
    Disjoint (claims pool chunkSz start h₀ log t) (claims pool chunkSz start h₀ log u)

theorem Owned.call (h : Owned pool chunkSz start h₀ log)
    (hmay : May chunkSz (claims pool chunkSz start h₀ log t) c) :
    Owned pool chunkSz start h₀ (log ++ [(t, c)]) := by
  obtain ⟨m, S, free, held, arrays, rfl, rfl, H, hheld⟩ := h.sound
  obtain ⟨m', free', held', arrays', hpool, hsz, H', hhas, hkeeps, hfresh⟩ := H.call (hheld t) hmay
  rw [← claims_concat] at hhas hfresh
  have hother : ∀ u, u ≠ t → ∀ d ∈ claims m.pool m.chunkSz start h₀ log u,
      d ∉ claims m.pool m.chunkSz start h₀ log t := by
    intro u hu d hd
    exact Finset.disjoint_left.mp (h.alone u t hu) hd
  -- what the caller has got, no other thread had
  have hnew : ∀ u, u ≠ t → Disjoint (claims m.pool m.chunkSz start h₀ (log ++ [(t, c)]) t)
      (claims m.pool m.chunkSz start h₀ log u) := by
    intro u hu
    refine Finset.disjoint_left.mpr fun d hd hdu => ?_
    rcases hfresh d hd with hmine | hnot
    · exact hother u hu d hdu hmine
    · exact hnot (hheld u d hdu)
  refine ⟨⟨m', S, free', held', arrays', hpool, hsz, ?_, ?_⟩, ?_⟩
  · rw [Monitor.replay_concat]
    exact H'
  · intro u
    by_cases hu : u = t
    · subst hu
      exact hhas
    · rw [claims_concat_of_ne hu]
      exact fun d hd => hkeeps d (hheld u d hd) (hother u hu d hd)
  · intro u v huv
    by_cases hu : u = t
    · subst hu
      rw [claims_concat_of_ne huv.symm]
      exact hnew v huv.symm
    by_cases hv : v = t
    · subst hv
      rw [claims_concat_of_ne hu]
      exact (hnew u hu).symm
    · rw [claims_concat_of_ne hu, claims_concat_of_ne hv]
      exact h.alone u v huv

/-- What a thread may write of its own is out of reach of the calls of all others. -/
def discipline (hstart : Owned pool chunkSz start h₀ []) :
    (lockedPool pool chunkSz start).Discipline h₀ where
  inv := Owned pool chunkSz start h₀
  mine log u e := ∀ t, t ≠ u → ∀ d ∈ claims pool chunkSz start h₀ log t, ∀ i < chunkSz.toNat,
    e.Avoids (d.toNat + i)
  start := hstart
  call h hadm := h.call (may_of_admissible hadm)
  body := by
    intro log t c fail body h hadm hc
    obtain ⟨m, S, free, held, arrays, rfl, rfl, H, hheld⟩ := h.sound
    refine Prog.always_forall fun u => Prog.always_forall fun hu => Prog.always_forall fun d =>
      Prog.always_forall fun hd => Prog.always_forall fun i => Prog.always_forall fun hi => ?_
    rw [claims_concat_of_ne hu] at hd
    exact H.body_avoids (hheld t) (may_of_admissible hadm) hc (hheld u d hd)
      (Finset.disjoint_left.mp (h.alone u t hu) hd) hi
  own := by
    intro log t c r act u e h hadm hc hu he
    have hmay := may_of_admissible hadm
    refine ⟨?_, ?_⟩
    · cases c with
      | write chunk i b =>
          cases hc
          exact (he t hu.symm chunk hmay.1 i hmay.2).unaffected b
      | alloc | free ptr | expand extraSz =>
          simp only [lockedPool, conduct] at hc
          split at hc
          · cases hc
            exact fun _ => rfl
          · cases hc
    · intro v hv d hd
      by_cases hvt : v = t
      · subst hvt
        refine he v hv d ?_
        rw [claims_concat] at hd
        have hr : ((conduct pool c).run Heap.handle
            ((lockedPool pool chunkSz start).replay h₀ log)).1 = r := by
          rw [show conduct pool c = .own r act from hc]
          rfl
        rw [hr] at hd
        exact handsAfter_own hc hd
      · rw [claims_concat_of_ne hvt] at hd
        exact he v hv d hd

/-! ## Any number of threads, in any order -/

theorem keeping_subset (H : Finset Word) (c : PoolCall) : keeping H c ⊆ H := by
  cases c with
  | free ptr => exact Finset.erase_subset ..
  | alloc | expand extraSz | write chunk i b => exact subset_rfl

theorem keeping_mono {H H' : Finset Word} (h : H ⊆ H') (c : PoolCall) :
    keeping H c ⊆ keeping H' c := by
  cases c with
  | free ptr => exact Finset.erase_subset_erase ptr h
  | alloc | expand extraSz | write chunk i b => exact h

theorem keeping_subset_handsAfter (H : Finset Word) (c : PoolCall) (r : PoolAnswer) :
    keeping H c ⊆ handsAfter H (c, r) := by
  cases c with
  | alloc =>
      cases r with
      | chunk c =>
          simp only [handsAfter]
          split
          · exact subset_rfl
          · exact Finset.subset_insert ..
      | done | expanded ok => exact subset_rfl
  | free ptr | expand extraSz | write chunk i b => exact subset_rfl

variable {S : PoolThreads T} {hstart : Owned pool chunkSz start h₀ []}

/-- What a thread has and keeps is its own by the log. -/
theorem kept_subset_claims (h : (discipline hstart).Holds S) (t : T) :
    kept start S t ⊆ claims pool chunkSz start h₀ S.shared.log t := by
  have hseen := hands_seen (h.honest t) (subset_refl (start t))
  have hplace := h.places t
  unfold kept claims
  generalize S.running t = run at hplace
  cases hplace with
  | idle _ _ hturns =>
      rw [hturns]
      exact hseen
  | starting c _ _ _ hturns | refused c _ _ _ _ _ hturns =>
      rw [hturns]
      exact (keeping_subset _ c).trans hseen
  | inside c p _ _ _ _ _ _ hturns | left c _ _ _ _ _ _ hturns =>
      rw [hturns, hands_concat]
      exact (keeping_mono hseen c).trans (keeping_subset_handsAfter _ c _)

/-- No two threads have the same chunk, no access goes astray, and whenever the lock is free, the
free list and the chunks that are out partition the chunks of the arrays. -/
structure LockedSafe (start : T → Finset Word) (pool : Word) (S : PoolThreads T) : Prop where
  alone : ∀ t u, t ≠ u → Disjoint (kept start S t) (kept start S u)
  clean : S.shared.mem.faults = []
  parts : S.shared.owner = none → ∃ obj free held arrays, obj.pool = pool ∧
    PoolState.Partition ⟨obj, S.shared.mem, held⟩ free arrays ∧
    ∀ t, ∀ d ∈ kept start S t, d ∈ held

end Threads

/-- Faults are not forgotten. -/
theorem Heap.faults_handle (e : CReq) (h : Heap) : h.faults <:+ (handle e h).2.faults := by
  have htouch : ∀ f a, h.faults <:+ (h.touch f a).faults := by
    intro f a
    unfold touch
    split
    · exact List.suffix_rfl
    · exact List.suffix_cons ..
  cases e with
  | load a => exact htouch _ a
  | store a v => exact htouch _ a
  | extAlloc n =>
      simp only [handle, faults_extAlloc]
      exact List.suffix_rfl
  | extFree p =>
      simp only [handle, extFree]
      split
      · exact List.suffix_rfl
      · split
        · exact List.suffix_rfl
        · exact List.suffix_cons ..
  | spin => exact List.suffix_cons ..

theorem C.faults_state {α : Type} (p : C α) (h : Heap) : h.faults <:+ (p.state h).faults := by
  induction p generalizing h with
  | ret a => exact List.suffix_rfl
  | req e k ih => exact (Heap.faults_handle e h).trans (ih _ _)

section Runs
variable {T : Type} [DecidableEq T] {p : PoolState} {start : T → Finset Word}

theorem owned_start (hp : p.InUse) (hs : Shares p start) :
    Owned p.obj.pool p.obj.chunkSz start p.heap [] := by
  obtain ⟨S, free, arrays, H⟩ := hp.sound
  exact ⟨⟨p.obj, S, free, p.held, arrays, rfl, rfl, H, hs.held⟩, hs.alone⟩

theorem holds_exec (hp : p.InUse) (hs : Shares p start) {es : List (ThreadsEvent T PoolCall)}
    (hes : (onPool p start).Admits (.start p) es) :
    (discipline (owned_start hp hs)).Holds ((onPool p start).exec (.start p) es) :=
  Monitor.Discipline.holds_exec hes

/-- While `true` is in `pool_alloc`, `false` waits for the lock; then `true` writes into its chunk
while `false` is in the middle of its own call. -/
def twoAllocs : List (ThreadsEvent Bool PoolCall) :=
  [.call true .alloc, .step true 0, .call false .alloc] ++ List.replicate 7 (.step true 0) ++
    [.step false 0, .step false 0, .call true (.write 4608 3 7), .step false 0, .step true 0] ++
    List.replicate 5 (.step false 0)

theorem shares_twoPool : Shares twoPool (fun _ : Bool => ∅) :=
  ⟨nofun, fun _ _ _ => Finset.disjoint_empty_left _⟩

theorem admits_twoAllocs :
    (onPool twoPool fun _ : Bool => ∅).Admits (.start twoPool) twoAllocs := by
  decide +kernel

/-- Under the lock no order of steps can do what a race can do without it. -/
theorem locked_safe (hp : p.InUse) (hs : Shares p start) {es : List (ThreadsEvent T PoolCall)}
    (hes : (onPool p start).Admits (.start p) es) :
    LockedSafe start p.obj.pool ((onPool p start).exec (.start p) es) := by
  have h := holds_exec hp hs hes
  generalize (onPool p start).exec (.start p) es = S at h
  have hkept := kept_subset_claims h
  obtain ⟨m, stride, free, held, arrays, hpool, -, H, hheld⟩ := h.inv.sound
  refine ⟨?_, ?_, ?_⟩
  · intro t u htu
    exact (h.inv.alone t u htu).mono (hkept t) (hkept u)
  · cases howner : S.shared.owner with
    | none =>
        rw [h.free howner]
        exact H.rep.clean
    | some t =>
        obtain ⟨q, hq⟩ := h.underway howner
        have hend : (q.state Heap.handle S.shared.mem).faults = [] :=
          (congrArg Heap.faults hq).symm.trans H.rep.clean
        exact List.suffix_nil.mp (hend ▸ C.faults_state q S.shared.mem)
  · intro hfree
    rw [h.free hfree]
    exact ⟨m, free, held, arrays, hpool, H.partition, fun t d hd => hheld t d (hkept t hd)⟩

theorem locked_safe_twoAllocs :
    LockedSafe (fun _ : Bool => ∅) twoPool.obj.pool
      ((onPool twoPool fun _ : Bool => ∅).exec (.start twoPool) twoAllocs) :=
  locked_safe inUse_twoPool shares_twoPool admits_twoAllocs

end Runs

end Unid.Common
