import Unid.Lib.ByteMem

/-!
# Datagrams

What a program that talks UDP through asio has in its hands: endpoints, error
codes, and the datagrams that travel between sockets.

## Main definitions

* `Endpoint`, `ErrorCode` — `udp::endpoint` and `error_code`.
* `Packet` — a datagram on the wire.
-/

namespace Unid.Lib

/-- A `udp::endpoint`: an IPv4 address and a port. -/
structure Endpoint where
  address : BitVec 32
  port : BitVec 16
  deriving DecidableEq

/-- An `error_code` other than success. -/
structure ErrorCode where
  value : ℕ
  deriving DecidableEq

/-- A datagram on the wire. -/
structure Packet where
  source : Endpoint
  dest : Endpoint
  data : List Byte
  deriving DecidableEq

end Unid.Lib
