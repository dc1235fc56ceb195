import Unid.Network.Destination

/-!
# What stays in a buffer

From `async_send` until its handler runs the bytes of the chunk are asio's to
read, and from the completion of a receive until the handler frees its chunk they
are the handler's.  Meanwhile the application fills other chunks, the handler
frees and allocates, and datagrams come in.  None of it touches the chunk: each
party writes into chunks of its own, and no chunk is in two hands.

## Main definitions

* `NetState.Touches` — the chunk that an event writes to or gives back.
* `Shows.view_next` — an event leaves alone every chunk that it does not touch.
* `Shows.not_touches_send`, `Shows.not_touches_freeing` — the chunks that no event touches.
-/

namespace Unid.Network
open Lib Common

/-- The chunk that the handler is about to free. -/
def Io.frees : Io → Option Word
  | running (.req (.free c) _) => some c
  | _ => none

namespace NetState
variable {s : NetState} {L : Ledger} {S : Word} {arrays : List Arr} {e : Event} {d : Word}

/-- The event writes into the chunk, or gives it back to the pool. -/
def Touches (s : NetState) (d : Word) : Event → Prop
  | .appWrite c _ _ => c = d
  | .received op _ _ => op.chunk = d
  | .ioStep => s.io.frees = some d
  | _ => False

theorem chunkSz_next (h : s.Staged) (e : Event) :
    (s.next e).pool.obj.chunkSz = s.pool.obj.chunkSz := by
  cases e with
  | appAlloc =>
      rw [s.next_appAlloc]
      exact s.pool.chunkSz_next _
  | appWrite | appSend | received | receiveFailed | sent | sendFailed => rfl
  | ioStep =>
      obtain ⟨st, hst⟩ := h
      change s.ioStep.pool.obj.chunkSz = _
      obtain ⟨_, _, _, hstep, hsize⟩ | ⟨_, hstep⟩ := ioStep_cases hst <;> rw [hstep]
      exact hsize

/-- A send that is pending after an event was so before, or the event made it. -/
theorem sends_next (h : s.Staged) {op : Send} (hop : op ∈ (s.next e).sends) :
    op ∈ s.sends ∨ e = .appSend op.chunk op.length ∧ op.dest = s.remote := by
  cases e with
  | appAlloc =>
      rw [s.next_appAlloc] at hop
      exact .inl hop
  | appWrite | received | receiveFailed => exact .inl hop
  | appSend c n =>
      rcases List.mem_cons.mp hop with rfl | hop
      · exact .inr ⟨rfl, rfl⟩
      · exact .inl hop
  | sent | sendFailed => exact .inl (List.mem_of_mem_erase hop)
  | ioStep =>
      obtain ⟨st, hst⟩ := h
      change op ∈ s.ioStep.sends at hop
      obtain ⟨_, _, _, hstep, -⟩ | ⟨_, hstep⟩ := ioStep_cases hst <;> rw [hstep] at hop <;>
        exact .inl hop

namespace Shows

theorem staged (K : s.Shows L S arrays) : s.Staged := ⟨L.stage, K.io⟩

/-- No chunk is in two hands. -/
theorem nodup_out (K : s.Shows L S arrays) : L.out.Nodup := by
  rw [← K.held]
  exact (List.nodup_append.mp K.sound.rep.nodup).2.1

/-- An allocation leaves the chunks alone that are out. -/
theorem view_alloc (K : s.Shows L S arrays) (hd : d ∈ s.pool.held) :
    (s.pool.next .alloc).view d = s.pool.view d := by
  have hg : s.pool.guard .alloc := trivial
  exact K.sound.view_next hg trivial hd nofun nofun

theorem view_free (K : s.Shows L S arrays) {c : Word} (hc : c ∈ s.pool.held)
    (hd : d ∈ s.pool.held) (hne : c ≠ d) : (s.pool.next (.free c)).view d = s.pool.view d := by
  have hg : s.pool.guard (.free c) := .inr hc
  refine K.sound.view_next hg trivial hd ?_ nofun
  rintro ⟨⟩
  exact hne rfl

/-- A datagram that stays inside its chunk leaves the others alone. -/
theorem view_received (K : s.Shows L S arrays) {op : Receive} {source : Endpoint} {data : List Byte}
    (hg : s.guard (.received op source data)) (hfit : s.Fits (.received op source data))
    (hd : d ∈ s.pool.held) (hne : op.chunk ≠ d) :
    (s.next (.received op source data)).pool.view d = s.pool.view d := by
  have hfit' : (landing op data).length ≤ S.toNat := le_trans hfit K.sound.rep.fits
  refine K.sound.view_eq rfl ?_
  intro x hlo hhi
  have hsep := K.sound.rep.layout.chunk_chunk (K.sound.rep.held_mem (K.mem_receives hg.2))
    (K.sound.rep.held_mem hd) hne
  exact writeBytes_of_outside _ _ (by omega)

/-- An event leaves a chunk alone that is out and that it does not touch. -/
theorem view_next (K : s.Shows L S arrays) (hg : s.guard e) (hfit : s.Fits e)
    (hd : d ∈ s.pool.held) (he : ¬ s.Touches d e) : (s.next e).pool.view d = s.pool.view d := by
  cases e with
  | appAlloc =>
      rw [s.next_appAlloc]
      exact K.view_alloc hd
  | appWrite c i b =>
      have hpool : s.pool.guard (.write c i b) := ⟨K.mem_app hg.2.1, hg.2.2⟩
      refine K.sound.view_next hpool trivial hd nofun ?_
      rintro _ _ ⟨⟩
      exact he rfl
  | received op source data => exact K.view_received hg hfit hd he
  | appSend | receiveFailed | sent | sendFailed => rfl
  | ioStep =>
      change s.ioStep.pool.view d = _
      have hio := K.io
      cases hstage : L.stage with
      | idle | dead =>
          rw [hstage] at hio
          simp only [ioStep, hio, Stage.io]
      | rearming =>
          rw [ioStep_rearming (hstage ▸ hio)]
          exact K.view_alloc hd
      | posting c =>
          rw [ioStep_posting (hstage ▸ hio)]
          rfl
      | freeing c =>
          rw [ioStep_freeing (hstage ▸ hio)]
          refine K.view_free (K.mem_held (by simp [Ledger.out, hstage, Stage.chunks])) hd ?_
          rintro rfl
          refine he ?_
          rw [Touches, hio, hstage]
          rfl
      | closing c =>
          rw [ioStep_closing (hstage ▸ hio)]
          refine K.view_free (K.mem_held (by simp [Ledger.out, hstage, Stage.chunks])) hd ?_
          rintro rfl
          refine he ?_
          rw [Touches, hio, hstage]
          rfl

/-! ### Two hands -/

/-- What is in one part of the books is not in another. -/
theorem ne_of_parts (K : s.Shows L S arrays) {P Q R : Multiset Word} (hout : L.out = P + Q + R)
    {c : Word} (hc : c ∈ P) (hd : d ∈ Q) : c ≠ d := by
  rintro rfl
  have hnodup := K.nodup_out
  rw [hout, Multiset.nodup_add, Multiset.nodup_add] at hnodup
  exact Multiset.disjoint_left.mp hnodup.1.2.2 hc hd

theorem mem_sends (K : s.Shows L S arrays) {op : Send} (hop : op ∈ s.sends) :
    op.chunk ∈ L.sends := by
  rw [← K.sends]
  exact List.mem_map_of_mem hop

theorem chunks_of_frees (K : s.Shows L S arrays) (h : s.io.frees = some d) :
    L.stage.chunks = [d] := by
  rw [K.io] at h
  cases hstage : L.stage <;> rw [hstage] at h <;> cases h <;> rfl

/-- No event touches the chunk of a send that is pending. -/
theorem not_touches_send (K : s.Shows L S arrays) (hg : s.guard e) {op : Send}
    (hop : op ∈ s.sends) : ¬ s.Touches op.chunk e := by
  have hsend := K.mem_sends hop
  intro htouch
  cases e with
  | appWrite c i b =>
      have happ : c ∈ L.app := by
        rw [← K.app]
        exact hg.2.1
      refine K.ne_of_parts (R := L.receives + L.failed + L.stage.chunks) ?_ happ hsend htouch
      simp only [Ledger.out]
      abel
  | received r source data =>
      have hrec : r.chunk ∈ L.receives := by
        rw [← K.receives]
        exact List.mem_map_of_mem hg.2
      refine K.ne_of_parts (R := L.app + L.failed + L.stage.chunks) ?_ hrec hsend htouch
      simp only [Ledger.out]
      abel
  | ioStep =>
      have hstage := K.chunks_of_frees htouch
      refine K.ne_of_parts (P := L.stage.chunks) (R := L.receives + L.app + L.failed) ?_ ?_
        hsend rfl
      · simp only [Ledger.out]
        abel
      · simp [hstage]
  | appAlloc | appSend | receiveFailed | sent | sendFailed => exact htouch

/-- No event but the handler's own next step touches the chunk it is about to free. -/
theorem not_touches_freeing (K : s.Shows L S arrays) (hg : s.guard e)
    (hio : s.io = (Stage.freeing d).io) (he : e ≠ .ioStep) : ¬ s.Touches d e := by
  have hstage : d ∈ (L.stage.chunks : Multiset Word) := by
    rw [K.chunks_of_frees (by rw [hio]; rfl)]
    simp
  intro htouch
  cases e with
  | appWrite c i b =>
      have happ : c ∈ L.app := by
        rw [← K.app]
        exact hg.2.1
      refine K.ne_of_parts (R := L.receives + L.sends + L.failed) ?_ happ hstage htouch
      simp only [Ledger.out]
      abel
  | received r source data =>
      have hidle := hg.1
      rw [hio] at hidle
      cases hidle
  | ioStep => exact he rfl
  | appAlloc | appSend | receiveFailed | sent | sendFailed => exact htouch

end Shows
end NetState
end Unid.Network
