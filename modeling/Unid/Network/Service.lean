import Unid.Lib.Text
import Unid.Common.Config

/-!
# From the service string to the port

`main` of the server reads `network.server.service`, converts it with
`std::stoi`, casts the `int` to `short` and hands it to `Udp_server`, whose socket
is bound to the endpoint with that port, an unsigned 16-bit number.  The client
gives its service string to the resolver.

Between them these steps take any text that begins with an integer, and keep the
integer modulo 2^16.

## Main definitions

* `stoi`, `castToShort`, `endpointPort` — the steps of the conversion.
* `Host` — sockets and resolver, by what is documented of them.
* `startServer`, `clientPort` — where the server listens and where a client sends.
* `ListensAsNamed` — the server listens where its service string says.
-/

namespace Unid.Network
open Lib Common

/-- Why the server does not start. -/
inductive StartError
  | badOptionalAccess
  | invalidArgument
  | outOfRange
  | systemError
  deriving DecidableEq

/-- An `int` can represent it. -/
def FitsInt (v : ℤ) : Prop := -2147483648 ≤ v ∧ v ≤ 2147483647

instance (v : ℤ) : Decidable (FitsInt v) := inferInstanceAs (Decidable (_ ∧ _))

/-- `std::stoi`. -/
def stoi (cs : List Char) : Except StartError ℤ :=
  match readInt cs with
  | none => .error .invalidArgument
  | some v => if FitsInt v then .ok v else .error .outOfRange

/-- `(short)`: the representative modulo 2^16 between -2^15 and 2^15 - 1. -/
def castToShort (v : ℤ) : ℤ := v.bmod 65536

/-- `udp::endpoint(udp::v4(), port)` has an `unsigned short` port. -/
def endpointPort (port : ℤ) : ℕ := (port % 65536).toNat

/-- What the conversions do to a port. -/
theorem endpointPort_castToShort (v : ℤ) : endpointPort (castToShort v) = (v % 65536).toNat :=
  congrArg Int.toNat (Int.bmod_emod (x := v) (m := 65536))

/-- The sockets of the server's machine and the resolver of the client's. -/
structure Host where
  /-- The port that a socket bound to the given one has, if it can be bound. -/
  bind : ℕ → Option ℕ
  /-- The port of the first endpoint found for a service, if there is one. -/
  resolve : List Char → Option ℕ
  bind_eq : ∀ {port bound}, port ≠ 0 → bind port = some bound → bound = port
  /-- On port 0 the system chooses one. -/
  bind_zero : bind 0 ≠ some 0
  resolve_numeral : ∀ {service port}, IsNumeral service port → port ≤ 65535 →
    resolve service = some port

/-- `get_as<std::string>("network.server.service")`. -/
def service (c : Config) : Option (List Char) :=
  match c.atPath "network.server.service".toList with
  | some (.string text) => some text
  | _ => none

/-- The constructor of `Udp_server`: the port its socket is bound to. -/
def UdpServer.listen (h : Host) (port : ℤ) : Except StartError ℕ :=
  match h.bind (endpointPort port) with
  | none => .error .systemError
  | some bound => .ok bound

/-- `Udp_server s(io_context, (short)std::stoi(service.value()), ..)`. -/
def startServer (h : Host) (c : Config) : Except StartError ℕ :=
  match service c with
  | none => .error .badOptionalAccess
  | some s => do UdpServer.listen h (castToShort (← stoi s))

/-- Where a client with this service string sends. -/
def clientPort (h : Host) (s : List Char) : Option ℕ := h.resolve s

/-- The server does not start, or listens on the port that its service string is the numeral of,
which is where a client with the same string sends. -/
def ListensAsNamed (h : Host) (c : Config) : Prop :=
  ∀ bound, startServer h c = .ok bound →
    ∃ s, service c = some s ∧ bound ≤ 65535 ∧ IsNumeral s bound ∧ clientPort h s = some bound

/-- `std::stoi` throws: no integer is at the start of the text, or one that is no `int`. -/
def Unreadable (s : List Char) : Prop := ∀ v, ReadsInt s v → ¬ FitsInt v

theorem stoi_eq_ok_iff {s : List Char} {v : ℤ} : stoi s = .ok v ↔ ReadsInt s v ∧ FitsInt v := by
  rw [← readInt_eq_some_iff, stoi]
  constructor
  · intro h
    split at h
    · cases h
    · next w hw =>
        split at h
        · next hfits =>
            obtain rfl := Except.ok.inj h
            exact ⟨hw, hfits⟩
        · cases h
  · rintro ⟨hread, hfits⟩
    rw [hread]
    exact if_pos hfits

theorem UdpServer.listen_eq_ok_iff {h : Host} {v : ℤ} {bound : ℕ} :
    UdpServer.listen h (castToShort v) = .ok bound ↔ h.bind (v % 65536).toNat = some bound := by
  rw [UdpServer.listen, endpointPort_castToShort]
  cases h.bind (v % 65536).toNat <;> simp

/-- The server gets the port that the system gives it for the integer that is read. -/
theorem startServer_eq_ok_iff {h : Host} {c : Config} {s : List Char} (hs : service c = some s)
    {bound : ℕ} :
    startServer h c = .ok bound ↔
      ∃ v, ReadsInt s v ∧ FitsInt v ∧ h.bind (v % 65536).toNat = some bound := by
  simp only [startServer, hs, ← UdpServer.listen_eq_ok_iff, ← and_assoc, ← stoi_eq_ok_iff]
  cases stoi s with
  | error e => simp [bind, Except.bind]
  | ok v => simp [bind, Except.bind]

theorem startServer_of_none {h : Host} {c : Config} (hs : service c = none) {bound : ℕ} :
    startServer h c ≠ .ok bound := by
  simp [startServer, hs]

/-- A machine on which every port is free, with a resolver that knows numerals only. -/
def Host.free : Host where
  bind port := if port = 0 then some 49152 else some port
  resolve s := if s ≠ [] ∧ s.all Char.isDigit ∧ decimal s ≤ 65535 then some (decimal s) else none
  bind_eq := by
    intro port bound hport hbind
    rw [if_neg hport] at hbind
    exact (Option.some.inj hbind).symm
  bind_zero := by decide
  resolve_numeral := by
    intro s port hs hport
    rw [if_pos ⟨hs.ne_nil, List.all_eq_true.mpr hs.digits, hs.value.trans_le hport⟩, hs.value]

theorem Host.free_bind (port : ℕ) : ∃ bound, Host.free.bind port = some bound ∧ 1 ≤ bound := by
  by_cases hport : port = 0
  · exact ⟨49152, if_pos hport, by decide⟩
  · exact ⟨port, if_neg hport, Nat.one_le_iff_ne_zero.mpr hport⟩

/-- The server listens as named, on every machine, exactly when its service string is a numeral
between 1 and 65535 or is one that `std::stoi` throws on. -/
theorem listens_as_named_iff (c : Config) :
    (∀ h, ListensAsNamed h c) ↔
      ∀ s, service c = some s → Unreadable s ∨ ∃ port, 1 ≤ port ∧ port ≤ 65535 ∧
        IsNumeral s port := by
  constructor
  · intro hnamed s hs
    by_cases hread : Unreadable s
    · exact .inl hread
    · right
      obtain ⟨v, hv⟩ := not_forall.mp hread
      obtain ⟨hv, hfits⟩ := Classical.not_imp.mp hv
      obtain ⟨bound, hbind, hpos⟩ := Host.free_bind (v % 65536).toNat
      have hstart : startServer .free c = .ok bound :=
        (startServer_eq_ok_iff hs).mpr ⟨v, hv, not_not.mp hfits, hbind⟩
      obtain ⟨s', hs', hle, hnumeral, -⟩ := hnamed .free bound hstart
      obtain rfl : s = s' := Option.some.inj (hs.symm.trans hs')
      exact ⟨bound, hpos, hle, hnumeral⟩
  · intro hcond h bound hstart
    cases hs : service c with
    | none => exact absurd hstart (startServer_of_none hs)
    | some s =>
        obtain ⟨v, hv, hfits, hbind⟩ := (startServer_eq_ok_iff hs).mp hstart
        obtain hread | ⟨port, hpos, hle, hnumeral⟩ := hcond s hs
        · exact absurd hfits (hread v hv)
        · obtain rfl := hnumeral.eq_of_readsInt hv
          have hport : ((port : ℤ) % 65536).toNat = port := by omega
          rw [hport] at hbind
          obtain rfl := h.bind_eq (by omega) hbind
          exact ⟨s, rfl, hle, hnumeral, h.resolve_numeral hnumeral hle⟩

/-- A configuration file with this service. -/
def withService (s : String) : Config :=
  ⟨[("network".toList, .table [("server".toList, .table [("service".toList, .string s.toList)])])]⟩

/-- With the service "70000" the server listens on port 4464; with "-1" on port 65535, with
"80 udp" on port 80, and with "0" wherever the system likes. -/
theorem listens_elsewhere :
    startServer .free (withService "70000") = .ok 4464 ∧
      ¬ ListensAsNamed .free (withService "70000") ∧
      startServer .free (withService "-1") = .ok 65535 ∧
      startServer .free (withService "80 udp") = .ok 80 ∧
      startServer .free (withService "0") = .ok 49152 := by
  have hstart : startServer .free (withService "70000") = .ok 4464 := by decide +kernel
  refine ⟨hstart, ?_, by decide +kernel, by decide +kernel, by decide +kernel⟩
  intro hnamed
  obtain ⟨s, hs, -, hnumeral, -⟩ := hnamed 4464 hstart
  have hservice : service (withService "70000") = some "70000".toList := by decide +kernel
  obtain rfl : "70000".toList = s := Option.some.inj (hservice.symm.trans hs)
  exact absurd hnumeral.value (by decide +kernel)

end Unid.Network
