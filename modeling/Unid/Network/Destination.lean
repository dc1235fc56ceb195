import Unid.Network.EndpointContract

/-!
# Where datagrams go

`async_send` addresses a datagram to the member `remote_endpoint_`, and every
receive writes the sender of its datagram into the same member.  So the
destinations of a run are a function of its `async_send` calls and of the
sources of the datagrams received before them (`dispatched_exec`): what strangers
send decides where the client's datagrams go.

## Main definitions

* `sendsFrom` — what a list of events sends, from a first destination.
* `lastSource` — who sent the last datagram received.
* `Undisturbed` — every call finds the server in `remote_endpoint_`.
-/

namespace Unid.Network
open Lib Common

/-- The arguments of an `async_send` call. -/
def Event.call : Event → Option (Word × Word)
  | .appSend chunk length => some (chunk, length)
  | _ => none

/-- The sends that a list of events makes, in order, when `remote_endpoint_` is `a`. -/
def sendsFrom (a : Endpoint) : List Event → List Send
  | [] => []
  | .appSend chunk length :: es => ⟨chunk, length, a⟩ :: sendsFrom a es
  | .received _ source _ :: es => sendsFrom source es
  | _ :: es => sendsFrom a es

/-- The source of the last datagram received, or `a` when there is none. -/
def lastSource (a : Endpoint) : List Event → Endpoint
  | [] => a
  | .received _ source _ :: es => lastSource source es
  | _ :: es => lastSource a es

/-- At each `async_send`, the last datagram received, if there is one, came from the server. -/
def Undisturbed (server : Endpoint) (es : List Event) : Prop :=
  ∀ before chunk length after, es = before ++ .appSend chunk length :: after →
    lastSource server before = server

/-! ## The destinations of a run -/

namespace NetState
variable {s : NetState}

theorem remote_next (h : s.Staged) (e : Event) : (s.next e).remote = lastSource s.remote [e] := by
  cases e with
  | appAlloc => rw [s.next_appAlloc]; rfl
  | appWrite | appSend | received | receiveFailed | sent | sendFailed => rfl
  | ioStep =>
      obtain ⟨st, hst⟩ := h
      change s.ioStep.remote = s.remote
      obtain ⟨_, _, _, hstep, -⟩ | ⟨_, hstep⟩ := ioStep_cases hst <;> rw [hstep]

theorem dispatched_next (h : s.Staged) (e : Event) :
    (s.next e).dispatched = sendsFrom s.remote [e] ++ s.dispatched := by
  cases e with
  | appAlloc => rw [s.next_appAlloc]; rfl
  | appWrite | appSend | received | receiveFailed | sent | sendFailed => rfl
  | ioStep =>
      obtain ⟨st, hst⟩ := h
      change s.ioStep.dispatched = s.dispatched
      obtain ⟨_, _, _, hstep, -⟩ | ⟨_, hstep⟩ := ioStep_cases hst <;> rw [hstep]

end NetState

theorem sendsFrom_cons (a : Endpoint) (e : Event) (es : List Event) :
    sendsFrom a (e :: es) = sendsFrom a [e] ++ sendsFrom (lastSource a [e]) es := by
  cases e <;> rfl

theorem lastSource_cons (a : Endpoint) (e : Event) (es : List Event) :
    lastSource a (e :: es) = lastSource (lastSource a [e]) es := by
  cases e <;> rfl

/-- What a run sends is what its calls and the datagrams received between them say. -/
theorem dispatched_exec {s : NetState} (h : s.Staged) (es : List Event) :
    (network.exec s es).dispatched = (sendsFrom s.remote es).reverse ++ s.dispatched := by
  induction es generalizing s with
  | nil => rfl
  | cons e es ih =>
      have hrev : (sendsFrom s.remote [e]).reverse = sendsFrom s.remote [e] := by
        cases e <;> rfl
      have hrest := ih (h.next e)
      rw [NetState.remote_next h, NetState.dispatched_next h] at hrest
      rw [sendsFrom_cons, List.reverse_append, hrev, List.append_assoc]
      exact hrest

/-- The chunks and lengths sent are those of the calls, whoever they go to. -/
theorem map_sendsFrom (a : Endpoint) (es : List Event) :
    (sendsFrom a es).map (fun d => (d.chunk, d.length)) = es.filterMap Event.call := by
  induction es generalizing a with
  | nil => rfl
  | cons e es ih =>
      cases e with
      | appSend c n => exact congrArg ((c, n) :: ·) (ih a)
      | appAlloc | appWrite | received | receiveFailed | sent | sendFailed | ioStep => exact ih _

/-- The calls of a list of events are its first event, if it is one, and those of the rest. -/
theorem forall_call_cons {P : List Event → Prop} (e : Event) (es : List Event) :
    (∀ before chunk length after, e :: es = before ++ .appSend chunk length :: after →
        P before) ↔
      (∀ chunk length, e = .appSend chunk length → P []) ∧
        ∀ before chunk length after, es = before ++ .appSend chunk length :: after →
          P (e :: before) := by
  constructor
  · intro h
    exact ⟨fun c n he => h [] c n es (by simp [he]),
      fun before c n after hes => h (e :: before) c n after (by simp [hes])⟩
  · rintro ⟨hfirst, hrest⟩ before c n after heq
    cases before with
    | nil => exact hfirst c n (List.cons.inj heq).1
    | cons e' before =>
        obtain ⟨rfl, hes⟩ := List.cons.inj heq
        exact hrest before c n after hes

theorem sendsFrom_dest_iff (server a : Endpoint) (es : List Event) :
    (∀ d ∈ sendsFrom a es, d.dest = server) ↔
      ∀ before chunk length after, es = before ++ .appSend chunk length :: after →
        lastSource a before = server := by
  induction es generalizing a with
  | nil => simp [sendsFrom]
  | cons e es ih =>
      have hfirst : (∀ d ∈ sendsFrom a [e], d.dest = server) ↔
          ∀ chunk length, e = .appSend chunk length → lastSource a [] = server := by
        cases e <;> simp [sendsFrom, lastSource]
      rw [forall_call_cons, sendsFrom_cons, List.forall_mem_append, ih, hfirst]
      refine and_congr_right fun _ => forall₄_congr fun before _ _ _ => ?_
      rw [lastSource_cons a e before]

/-- Sends that all go to one address are known by their chunks and lengths. -/
theorem eq_of_dest {ds ds' : List Send} {server : Endpoint} (h : ∀ d ∈ ds, d.dest = server)
    (h' : ∀ d ∈ ds', d.dest = server)
    (hcalls : ds.map (fun d => (d.chunk, d.length)) = ds'.map (fun d => (d.chunk, d.length))) :
    ds = ds' := by
  have hback : ∀ {l : List Send}, (∀ d ∈ l, d.dest = server) →
      (l.map (fun d => (d.chunk, d.length))).map (fun p => (⟨p.1, p.2, server⟩ : Send)) = l := by
    intro l hl
    rw [List.map_map]
    exact (List.map_congr_left fun d hd => by rw [← hl d hd]; rfl).trans (List.map_id l)
  rw [← hback h, ← hback h', hcalls]

section Client
variable {pool : PoolState} {server : Endpoint} {garbage : Word} {s : NetState}

/-- The datagrams of a client all go to the server exactly when each call is undisturbed; two
undisturbed runs with the same calls send the same datagrams to the same destinations. -/
theorem sends_to_server_iff (hnew : NetState.new .client server garbage pool = .ok s) :
    (∀ es, (∀ d ∈ (network.exec s es).dispatched, d.dest = server) ↔ Undisturbed server es) ∧
      ∀ es es', es.filterMap Event.call = es'.filterMap Event.call →
        Undisturbed server es → Undisturbed server es' →
        (network.exec s es).dispatched = (network.exec s es').dispatched := by
  obtain ⟨c, rfl⟩ := NetState.of_new hnew
  have hrun : ∀ es, (network.exec (.started .client server garbage pool c) es).dispatched =
      (sendsFrom server es).reverse :=
    fun es => (dispatched_exec ⟨.idle, rfl⟩ es).trans (List.append_nil _)
  refine ⟨?_, ?_⟩
  · intro es
    simp only [hrun, List.mem_reverse]
    exact sendsFrom_dest_iff server server es
  · intro es es' hcalls hes hes'
    rw [hrun, hrun]
    refine congrArg List.reverse (eq_of_dest ((sendsFrom_dest_iff server server es).mpr hes)
      ((sendsFrom_dest_iff server server es').mpr hes') ?_)
    rw [map_sendsFrom, map_sendsFrom, hcalls]

end Client

theorem sends_to_server_run :
    let quiet : List Event := [.appAlloc, .appSend 4616 1]
    let answered : List Event := [.appAlloc, .received ⟨4608, 8⟩ ⟨1, 80⟩ [5], .appSend 4616 1]
    Undisturbed ⟨1, 80⟩ quiet ∧ Undisturbed ⟨1, 80⟩ answered ∧
      (network.exec (twoPoolNet .client 8) quiet).dispatched =
        (network.exec (twoPoolNet .client 8) answered).dispatched := by
  intro quiet answered
  have hiff := sends_to_server_iff (new_twoPoolNet .client 8)
  have hquiet := (hiff.1 quiet).mp (by decide +kernel)
  have hanswered := (hiff.1 answered).mp (by decide +kernel)
  exact ⟨hquiet, hanswered, hiff.2 quiet answered rfl hquiet hanswered⟩

/-- The same call, with and without a datagram from a stranger before it, goes to different
destinations: the stranger gets what was meant for the server. -/
theorem stranger_diverts_send :
    let quiet : List Event := [.appAlloc, .appSend 4616 1]
    let disturbed : List Event := [.appAlloc, .received ⟨4608, 8⟩ ⟨2, 99⟩ [5], .appSend 4616 1]
    NetState.new .client ⟨1, 80⟩ 8 twoPool = .ok (twoPoolNet .client 8) ∧
      network.Admits (twoPoolNet .client 8) quiet ∧
      network.Admits (twoPoolNet .client 8) disturbed ∧
      quiet.filterMap Event.call = disturbed.filterMap Event.call ∧
      (network.exec (twoPoolNet .client 8) quiet).dispatched = [⟨4616, 1, ⟨1, 80⟩⟩] ∧
      (network.exec (twoPoolNet .client 8) disturbed).dispatched = [⟨4616, 1, ⟨2, 99⟩⟩] ∧
      ¬ ∀ d ∈ (network.exec (twoPoolNet .client 8) disturbed).dispatched, d.dest = ⟨1, 80⟩ :=
  ⟨new_twoPoolNet .client 8, by decide +kernel, by decide +kernel, rfl, by decide +kernel,
    by decide +kernel, by decide +kernel⟩

end Unid.Network
