import QyUtil.Dns.Authentic
import QyUtil.Dns.Compression
import QyUtil.Dns.Joining

/-! # Asking a server

The other end of a lookup: a server that parses the query as RFC 1035 says and writes a
response to it, with its names compressed as it likes. Whatever addresses and aliases such a
server has for a host, the lookup gives the addresses of the first twenty records it sends.
-/

namespace QyUtil.Dns

open Loops Outcome Bytes Net

def be16Bytes (n : ℕ) : Bytes := [UInt8.ofNat (n / 256), UInt8.ofNat n]

inductive RecordData where
  | address (a : Address)
  | cname (target : List Bytes)

structure Record where
  owner : List Bytes
  ttl : ℕ
  data : RecordData

def Record.address? (r : Record) : Option Address :=
  match r.data with
  | .address a => some a
  | .cname _ => none

structure Record.Readable (r : Record) : Prop where
  owner : Dns.Readable r.owner
  target : ∀ target, r.data = .cname target → Dns.Readable target

/-- What a server knows: the records it sends for each name. -/
structure Zone where
  records : List Bytes → List Record
  readable : ∀ asked, ∀ r ∈ records asked, r.Readable

/-- A message as far as it has been written. -/
structure Draft where
  bytes : Bytes
  places : Places

def Draft.put (m : Draft) (bs : Bytes) : Draft := { m with bytes := m.bytes ++ bs }

def Draft.name (c : Compression) (m : Draft) (name : List Bytes) : Draft where
  bytes := m.bytes ++ writeName (c.pick m.places) name
  places := newPlaces (c.pick m.places) m.bytes.length name ++ m.places

/-- Type, class IN, TTL and the length of the data. -/
def dataHeader (type ttl length : ℕ) : Bytes :=
  be16Bytes type ++ be16Bytes 1 ++ be16Bytes (ttl / 65536) ++ be16Bytes ttl ++ be16Bytes length

def Draft.data (c : Compression) (m : Draft) (ttl : ℕ) : RecordData → Draft
  | .address a => m.put (dataHeader 1 ttl 4 ++ [a.b0, a.b1, a.b2, a.b3])
  | .cname target =>
    (m.put (dataHeader 5 ttl (writeName (c.pick m.places) target).length)).name c target

def Draft.record (c : Compression) (m : Draft) (r : Record) : Draft :=
  (m.name c r.owner).data c r.ttl r.data

/-- A response with RD, RA and no error, to a question that is repeated. -/
def responseHeader (id count : ℕ) : Bytes :=
  be16Bytes id ++ [129, 128] ++ be16Bytes 1 ++ be16Bytes count ++ [0, 0, 0, 0]

def Draft.response (q : Query) (count : ℕ) : Draft :=
  ((⟨responseHeader q.header.id count, []⟩ : Draft).name .inFull q.qname).put
    (be16Bytes q.qtype ++ be16Bytes q.qclass)

/-- The response of the server to a datagram. -/
def Zone.respond (zone : Zone) (c : Compression) (d : Bytes) : Option Bytes := do
  let q ← parseQuery d
  let rs := zone.records q.qname
  pure (rs.foldl (Draft.record c) (.response q rs.length)).bytes

variable {ls : List Bytes} {d bs : Bytes} {m : Draft} {c : Compression} {rs : List Record}

theorem be16_bytes {n : ℕ} (h : n < 65536) : be16 (UInt8.ofNat (n / 256)) (UInt8.ofNat n) = n := by
  simp only [be16, UInt8.toNat_ofNat']
  omega

@[simp] theorem length_be16Bytes (n : ℕ) : (be16Bytes n).length = 2 := rfl

theorem length_dataHeader (type ttl length : ℕ) : (dataHeader type ttl length).length = 10 := rfl

theorem Draft.data_grows (c : Compression) (m : Draft) (ttl : ℕ) (data : RecordData) :
    m.bytes <+: (m.data c ttl data).bytes := by
  cases data with
  | address a => exact List.prefix_append _ _
  | cname target =>
    simp only [Draft.data, Draft.name, Draft.put, List.append_assoc]
    exact List.prefix_append _ _

theorem Draft.record_grows (c : Compression) (m : Draft) (r : Record) :
    (m.name c r.owner).bytes <+: (m.record c r).bytes := Draft.data_grows c _ r.ttl r.data

theorem Draft.records_grow (c : Compression) (rs : List Record) (m : Draft) :
    m.bytes <+: (rs.foldl (Draft.record c) m).bytes := by
  induction rs generalizing m with
  | nil => exact List.prefix_refl _
  | cons r rs ih =>
    have hname : m.bytes <+: (m.name c r.owner).bytes := List.prefix_append _ _
    exact (hname.trans (m.record_grows c r)).trans (ih _)

theorem Draft.length_records (c : Compression) (rs : List Record) (m : Draft) :
    m.bytes.length + rs.length ≤ (rs.foldl (Draft.record c) m).bytes.length := by
  induction rs generalizing m with
  | nil => exact le_refl _
  | cons r rs ih =>
    have hname := List.length_pos_iff.mpr (writeName_ne_nil (c.pick m.places) r.owner)
    have hrecord := (m.record_grows c r).length_le
    have hrest := ih (m.record c r)
    simp only [Draft.name, List.length_append] at hrecord
    simp only [List.foldl_cons, List.length_cons]
    omega

/-- What has been written is the beginning of the message, and the places are places in it. -/
structure Draft.Begins (m : Draft) (d : Bytes) : Prop where
  bytes : m.bytes <+: d
  places : ∀ place ∈ m.places, Placed d place

theorem Draft.Begins.put (h : m.Begins d) (hd : (m.put bs).bytes <+: d) :
    (m.put bs).Begins d ∧ bs <+: d.drop m.bytes.length := by
  have hdrop := hd.drop m.bytes.length
  rw [Draft.put, List.drop_left] at hdrop
  exact ⟨⟨hd, h.places⟩, hdrop⟩

/-- A name that is written can be read, and pointed to. -/
theorem Draft.Begins.name {name : List Bytes} (h : m.Begins d) (hname : Readable name)
    (hd : (m.name c name).bytes <+: d) : (m.name c name).Begins d ∧
      NameAt d m.bytes.length name (writeName (c.pick m.places) name).length := by
  have hpick (ls : List Bytes) (p : ℕ) (hp : c.pick m.places ls = some p) : Placed d (ls, p) :=
    h.places _ (c.mem_of_pick hp)
  have hdrop := hd.drop m.bytes.length
  rw [Draft.name, List.drop_left] at hdrop
  have hwire := wireName_written hname.size hname.plain hpick hdrop
  refine ⟨⟨hd, fun place hplace => ?_⟩, hwire, hname.ne_root, hname.length_le⟩
  rcases List.mem_append.mp hplace with hnew | hold
  · exact placed_newPlaces hname.size hname.plain hpick hdrop place hnew
  · exact h.places place hold

/-- A record that has been written is one, in front of those that follow it. -/
theorem Draft.Begins.record {r : Record} (h : m.Begins d) (hr : r.Readable)
    (hd : (m.record c r).bytes <+: d) : (m.record c r).Begins d ∧
      ∀ rs, RecordsAt d (m.record c r).bytes.length rs →
        RecordsAt d m.bytes.length (r.address? :: rs) := by
  obtain ⟨hnamed, howner⟩ := h.name hr.owner ((m.record_grows c r).trans hd)
  have hlen : (m.name c r.owner).bytes.length =
      m.bytes.length + (writeName (c.pick m.places) r.owner).length := List.length_append
  unfold Draft.record at hd ⊢
  cases hdata : r.data with
  | address a =>
    rw [hdata] at hd
    obtain ⟨hput, hfields⟩ := hnamed.put hd
    refine ⟨hput, fun rs hrs => ?_⟩
    rw [Record.address?, hdata]
    rw [hlen] at hfields
    refine .address howner hfields ?_
    rw [← hlen]
    rwa [Draft.data, Draft.put, List.length_append] at hrs
  | cname target =>
    have htarget := hr.target target hdata
    rw [hdata] at hd
    obtain ⟨hput, hfields⟩ := hnamed.put ((List.prefix_append _ _).trans hd)
    obtain ⟨hbegins, hname⟩ := hput.name htarget hd
    refine ⟨hbegins, fun rs hrs => ?_⟩
    have hle := length_writeName_le (c.pick (m.name c r.owner).places) target
    have htargetle := htarget.length_le
    have hsize := be16_bytes (n := (writeName (c.pick (m.name c r.owner).places) target).length)
      (by omega)
    rw [Draft.put, List.length_append, length_dataHeader, hlen] at hname
    rw [Draft.data, Draft.name, Draft.put, List.length_append, List.length_append,
      length_dataHeader, hlen] at hrs
    rw [hlen] at hfields
    rw [Record.address?, hdata]
    rw [← hsize] at hname hrs
    exact .cname howner hfields hname hrs

theorem Draft.Begins.records (h : m.Begins d) (hrs : ∀ r ∈ rs, r.Readable)
    (hd : (rs.foldl (Draft.record c) m).bytes <+: d) :
    RecordsAt d m.bytes.length (rs.map Record.address?) := by
  induction rs generalizing m with
  | nil => exact .nil
  | cons r rs ih =>
    obtain ⟨hr, hrs⟩ := List.forall_mem_cons.mp hrs
    obtain ⟨hrecord, hcons⟩ := h.record hr ((Draft.records_grow c rs _).trans hd)
    exact hcons _ (ih hrecord hrs hd)

variable {zone : Zone} {buf : RecvBuf} {pid : ℕ}

theorem HostLabels.readable (hl : HostLabels ls) (hlt : ∀ l ∈ ls, ∀ b ∈ l, b < 192) :
    Readable ls where
  size := hl.size
  plain := hl.plain hlt
  ne_root := hl.ne_nil
  length_le := Nat.succ_le_succ hl.length_encode

/-- The number of a query for `pid`, as a server reads it. -/
def queryId (pid : ℕ) : ℕ := be16 (UInt8.ofNat pid) (UInt8.ofNat (pid / 256))

theorem response_bytes (id count : ℕ) (ls : List Bytes) :
    (Draft.response (standardQuery id ls) count).bytes =
      responseHeader id count ++ (encodeLabels ls ++ 0 :: question) := by
  have hquestion : be16Bytes 1 ++ be16Bytes 1 = question := by decide
  simp only [Draft.response, Draft.put, Draft.name, writeName_inFull, standardQuery, hquestion,
    List.append_assoc, List.singleton_append]

theorem response_begins {q : Query} {count : ℕ} (hname : Readable q.qname)
    (hd : (Draft.response q count).bytes <+: d) : (Draft.response q count).Begins d := by
  have hquestion := (List.prefix_append _ _).trans hd
  have hheader : (⟨responseHeader q.header.id count, []⟩ : Draft).Begins d :=
    ⟨(List.prefix_append _ _).trans hquestion, nofun⟩
  exact ((hheader.name hname hquestion).1.put hd).1

theorem respond_hostQuery (zone : Zone) (c : Compression) (pid : ℕ) (hs : ∀ l ∈ ls, LabelSize l) :
    zone.respond c (hostQuery pid ls) = some ((zone.records ls).foldl (Draft.record c)
      (.response (standardQuery (queryId pid) ls) (zone.records ls).length)).bytes := by
  simp only [Zone.respond, parseQuery_eq pid hs, standardQuery, Option.bind_eq_bind,
    Option.bind_some]
  rfl

theorem response_reads {id : ℕ} (hname : Readable ls)
    (hd : buf.datagram = ((zone.records ls).foldl (Draft.record c)
      (.response (standardQuery id ls) (zone.records ls).length)).bytes) :
    buf.be16 6 = (zone.records ls).length ∧
      RecordsAt buf.datagram (headerSize + ((encodeLabels ls).length + 1) + questionSize)
        ((zone.records ls).map Record.address?) := by
  have hbytes := response_bytes id (zone.records ls).length ls
  have hgrown := Draft.records_grow c (zone.records ls)
    (.response (standardQuery id ls) (zone.records ls).length)
  have hlength := Draft.length_records c (zone.records ls)
    (.response (standardQuery id ls) (zone.records ls).length)
  have hfits := buf.fits
  rw [← hd] at hgrown hlength
  have hstart : (Draft.response (standardQuery id ls) (zone.records ls).length).bytes.length =
      headerSize + ((encodeLabels ls).length + 1) + questionSize := by
    rw [hbytes]
    simp only [List.length_append, List.length_cons]
    rfl
  constructor
  · have hheader : responseHeader id (zone.records ls).length <+: buf.datagram.drop 0 := by
      rw [hbytes] at hgrown
      exact (List.prefix_append _ _).trans hgrown
    rw [prefix_be16 (k := 6) hheader (by simp [responseHeader, be16Bytes])]
    rw [hstart, headerSize] at hlength
    rw [bufLen] at hfits
    exact be16_bytes (by omega)
  · rw [← hstart]
    apply (response_begins hname hgrown).records (zone.readable ls)
    rw [hd]

variable {net : Network} {host sendBuf : Bytes} {timeout : ℤ} {dnsserver : Option Bytes}
  {info info' : SocketIpInfo} {a : Answers} {as : List Address}

theorem Exchange.returns (hx : Exchange net host timeout dnsserver sendBuf buf)
    (hr : Returns (fun n => readResponse n net.heap buf (answerStart sendBuf) info) (info', a)) :
    Returns (fun n => socketGethostbyname n net (some host) (some info) timeout dnsserver)
      { ret := if info'.size = 0 then -1 else 0
        info := some info'
        events := [.opened net.socket, .sent (sentQuery sendBuf), .closed net.socket]
        trace := a.trace ++ freeAll a.records } := by
  obtain ⟨server, servers, hserver, haddr⟩ := hx.server
  have hsent : ¬ net.sendto (sendBuf.take (sendPacklen sendBuf)) = -1 := hx.sent
  obtain ⟨n, hn⟩ := hr
  refine ⟨n, ?_⟩
  simp only [socketGethostbyname_eq hserver haddr hx.socket, queryServer, hx.prepared, done_bind,
    if_neg hsent, hx.received, hn, pure_eq]
  rfl

theorem contract_of_pushAll {r : Lookup} (hle : as.length ≤ socketMaxIpCount)
    (hinfo : r.info = some (pushAll { info with size := 0 } as))
    (hret : r.ret = if (pushAll { info with size := 0 } as).size = 0 then -1 else 0) :
    Contract r (pushAll { info with size := 0 } as) as := by
  obtain ⟨hsize, hip⟩ := pushAll_take { info with size := 0 } as (by simpa using hle)
  simp only [Nat.zero_add, List.take_zero, List.nil_append] at hsize hip
  refine ⟨hinfo, ⟨hsize, by rw [hsize, hip]⟩, ?_, ?_⟩
  · rw [hret, hsize]
    split_ifs <;> simp_all [List.length_eq_zero_iff]
  · rw [hret, hsize]
    split_ifs <;> simp_all [List.length_eq_zero_iff]

theorem zero_notMem_hostName (hl : HostLabels ls) (trailing : Bool) :
    (0 : UInt8) ∉ hostName ls trailing := by
  unfold hostName
  rw [List.mem_append, not_or]
  exact ⟨zero_notMem_joined hl.no_nul, by split_ifs <;> decide⟩

theorem Exchange.sentQuery_eq {trailing : Bool} (hl : HostLabels ls)
    (hx : Exchange net (hostName ls trailing) timeout dnsserver sendBuf buf) :
    sentQuery sendBuf = hostQuery net.pid ls ∧
      answerStart sendBuf = headerSize + ((encodeLabels ls).length + 1) + questionSize := by
  have h0 := zero_notMem_hostName hl trailing
  obtain ⟨sendBuf', hprepared, hcut, htake⟩ := hl.prepare net.pid trailing
  have hx' := hx.prepared
  rw [cString_eq_self h0, hprepared] at hx'
  obtain rfl := done.inj hx'
  rw [length_hostQuery] at hcut
  exact ⟨htake, hcut⟩

/-- The addresses among the first twenty records that a server has for a name. -/
def Zone.addresses (zone : Zone) (name : List Bytes) : List Address :=
  ((zone.records name).take socketMaxIpCount).filterMap Record.address?

theorem Zone.length_addresses (zone : Zone) (name : List Bytes) :
    (zone.addresses name).length ≤ socketMaxIpCount :=
  (List.length_filterMap_le _ _).trans (List.length_take_le _ _)

theorem Exchange.served {trailing : Bool} (hh : net.heap.Reliable) (hl : HostLabels ls)
    (hlt : ∀ l ∈ ls, ∀ b ∈ l, b < 192)
    (hx : Exchange net (hostName ls trailing) timeout dnsserver sendBuf buf)
    (hserved : zone.respond c (sentQuery sendBuf) = some buf.datagram) (info : SocketIpInfo) :
    ∃ r info', Returns (fun n => socketGethostbyname n net (some (hostName ls trailing)) (some info)
      timeout dnsserver) r ∧ Contract r info' (zone.addresses ls) := by
  obtain ⟨hsent, hstart⟩ := hx.sentQuery_eq hl
  rw [hsent, respond_hostQuery zone c net.pid hl.size] at hserved
  obtain ⟨hcount, hrecords⟩ := response_reads (hl.readable hlt) (Option.some.inj hserved).symm
  have hlen : ((zone.records ls).map Record.address?).length = (zone.records ls).length :=
    List.length_map _
  obtain ⟨a, hread, -⟩ := hrecords.readResponse hh (hcount.trans hlen.symm) info
  have haddresses : (((zone.records ls).map Record.address?).take socketMaxIpCount).filterMap id =
      zone.addresses ls := by
    rw [← List.map_take, List.filterMap_map]
    rfl
  rw [haddresses, ← hstart] at hread
  exact ⟨_, _, hx.returns hread, contract_of_pushAll (zone.length_addresses ls) rfl rfl⟩

end QyUtil.Dns
