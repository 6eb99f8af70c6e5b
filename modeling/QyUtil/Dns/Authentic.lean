import QyUtil.Dns.AddressWalk
import QyUtil.Dns.Resolve

/-! # Authentic responses

A response is authentic when it has the ID and the question of the query and says
that it is a response without an error. A lookup looks at none of these: it succeeds
on every datagram whose records, read from where they are in a response to the query,
give an address.
-/

namespace QyUtil.Dns

open Loops Outcome Bytes Net

variable {net : Network} {host : Bytes} {info : SocketIpInfo} {timeout : ℤ}
  {dnsserver : Option Bytes} {sendBuf : Bytes} {buf : RecvBuf}

theorem Exchange.unique {sendBuf' : Bytes} {buf' : RecvBuf}
    (h : Exchange net host timeout dnsserver sendBuf buf)
    (h' : Exchange net host timeout dnsserver sendBuf' buf') : sendBuf' = sendBuf ∧ buf' = buf :=
  ⟨done.inj (h'.prepared.symm.trans h.prepared),
    Option.some.inj (h'.received.symm.trans h.received)⟩

end QyUtil.Dns
