import QyUtil.Bytes.Pairs
import QyUtil.Dns.ReadName
import QyUtil.Dns.Wire

/-! # Building a query

The model of `ChangetoDnsNameFormat` and `PrepareDnsQueryPacket`. The encoder
keeps two cursors over the host with a dot appended. The question is placed
behind the first zero byte of the encoded name, so that a trailing dot of the host
changes nothing in the datagram.
-/

namespace QyUtil.Dns

open Loops Outcome Bytes

/-- `htons` on a little-endian machine. -/
def htons (n : ℕ) : ℕ := n % 256 * 256 + n / 256 % 256

def le16 (n : ℕ) : Bytes := [UInt8.ofNat n, UInt8.ofNat (n / 256)]

/-- `DNS_HEADER`, with the values its members hold in memory. -/
structure DnsHeader where
  id : ℕ
  rd : ℕ
  tc : ℕ
  aa : ℕ
  opcode : ℕ
  qr : ℕ
  rcode : ℕ
  cd : ℕ
  ad : ℕ
  z : ℕ
  ra : ℕ
  qCount : ℕ
  ansCount : ℕ
  authCount : ℕ
  addCount : ℕ

/-- The packed layout; the first bit-field of a byte takes its low bits. -/
def DnsHeader.bytes (h : DnsHeader) : Bytes :=
  le16 h.id ++
    UInt8.ofNat (h.rd + 2 * h.tc + 4 * h.aa + 8 * h.opcode + 128 * h.qr) ::
    UInt8.ofNat (h.rcode + 16 * h.cd + 32 * h.ad + 64 * h.z + 128 * h.ra) ::
    (le16 h.qCount ++ le16 h.ansCount ++ le16 h.authCount ++ le16 h.addCount)

def headerSize : ℕ := 12

def questionSize : ℕ := 4

/-- The cursor `lock` of the encoder and the bytes written so far. -/
structure Labeler where
  lock : ℕ
  out : Bytes

def labelStep (host : Bytes) (s : Labeler) (i : ℕ) : Labeler :=
  if host.getD i 0 = 46 then
    { lock := i + 1
      out := s.out ++ UInt8.ofNat (i - s.lock) :: (host.drop s.lock).take (i - s.lock) }
  else s

/-- The bytes that `ChangetoDnsNameFormat` writes from `_qname` on. -/
def changetoDnsNameFormat (hostname : Bytes) : Bytes :=
  let host := hostname ++ [46]
  ((List.range (cString host).length).foldl (labelStep host) ⟨0, []⟩).out ++ [0]

def queryHeader (pid : ℕ) : DnsHeader where
  id := pid
  qr := 0
  opcode := 0
  aa := 0
  tc := 0
  rd := 1
  ra := 0
  z := 0
  ad := 0
  cd := 0
  rcode := 0
  qCount := htons 1
  ansCount := 0
  authCount := 0
  addCount := 0

def question : Bytes := le16 (htons 1) ++ le16 (htons 1)

/-- `strlen(qname)` in the send buffer. -/
def qnameLength (sendBuf : Bytes) : ℕ := (cString (sendBuf.drop headerSize)).length

def prepareDnsQueryPacket (pid : ℕ) (host : Bytes) : Outcome Fault Bytes := do
  let buf := writeAt (List.replicate bufLen 0) 0 (queryHeader pid).bytes
  let qname := changetoDnsNameFormat host
  guard (.sendOutside (headerSize + qname.length)) (headerSize + qname.length ≤ bufLen)
  let buf := writeAt buf headerSize qname
  let qinfo := headerSize + (qnameLength buf + 1)
  guard (.sendOutside (qinfo + questionSize)) (qinfo + questionSize ≤ bufLen)
  pure (writeAt buf qinfo question)

def sendPacklen (sendBuf : Bytes) : ℕ := headerSize + (qnameLength sendBuf + 1) + questionSize

def queryDatagram (pid : ℕ) (host : Bytes) : Outcome Fault Bytes := do
  let sendBuf ← prepareDnsQueryPacket pid host
  pure (sendBuf.take (sendPacklen sendBuf))

variable {pid : ℕ} {ls : List Bytes}

theorem foldl_fixed_of_mem {α β : Type*} {f : β → α → β} {b : β} {l : List α}
    (h : ∀ a ∈ l, f b a = b) : l.foldl f b = b := by
  induction l with
  | nil => rfl
  | cons a l ih =>
    rw [List.foldl_cons, h a List.mem_cons_self]
    exact ih fun a ha => h a (List.mem_cons_of_mem _ ha)

theorem foldl_label (pre l post out : Bytes) (hd : (46 : UInt8) ∉ l) :
    (List.range' pre.length (l.length + 1)).foldl (labelStep (pre ++ (l ++ 46 :: post)))
      ⟨pre.length, out⟩ =
    ⟨pre.length + (l.length + 1), out ++ UInt8.ofNat l.length :: l⟩ := by
  have hskip : (List.range' pre.length l.length).foldl (labelStep (pre ++ (l ++ 46 :: post)))
      ⟨pre.length, out⟩ = ⟨pre.length, out⟩ := by
    apply foldl_fixed_of_mem
    intro i hi
    obtain ⟨hle, hlt⟩ := List.mem_range'_1.mp hi
    rw [labelStep, if_neg]
    rw [List.getD_append_right _ _ _ _ hle, List.getD_append _ _ _ _ (by omega),
      List.getD_eq_getElem _ _ (by omega)]
    intro h
    exact hd (h ▸ List.getElem_mem _)
  rw [List.range'_1_concat, List.foldl_append, hskip, List.foldl_cons, List.foldl_nil, labelStep,
    if_pos]
  · simp only [Nat.add_sub_cancel_left, List.drop_left, List.take_left, Labeler.mk.injEq]
    exact ⟨rfl, trivial⟩
  · rw [List.getD_append_right _ _ _ _ (by omega), Nat.add_sub_cancel_left,
      List.getD_append_right _ _ _ _ le_rfl, Nat.sub_self]
    rfl

theorem foldl_labels (ls : List Bytes) (hd : ∀ l ∈ ls, (46 : UInt8) ∉ l) (pre out : Bytes) :
    (List.range' pre.length (ls.flatMap (· ++ [46])).length).foldl
      (labelStep (pre ++ ls.flatMap (· ++ [46]))) ⟨pre.length, out⟩ =
    ⟨pre.length + (ls.flatMap (· ++ [46])).length, out ++ encodeLabels ls⟩ := by
  induction ls generalizing pre out with
  | nil => simp
  | cons l ls ih =>
    obtain ⟨hl, hls⟩ := List.forall_mem_cons.mp hd
    have hlen : ((l :: ls).flatMap (· ++ [46])).length =
        (l.length + 1) + (ls.flatMap (· ++ [46])).length := by
      simp only [List.flatMap_cons, List.length_append, List.length_singleton]
    have hhost : pre ++ (l :: ls).flatMap (· ++ [46]) =
        (pre ++ (l ++ [46])) ++ ls.flatMap (· ++ [46]) := by simp
    have hfirst := foldl_label pre l (ls.flatMap (· ++ [46])) out hl
    rw [show l ++ (46 : UInt8) :: ls.flatMap (· ++ [46]) = (l :: ls).flatMap (· ++ [46]) by simp]
      at hfirst
    have hpre : pre.length + (l.length + 1) = (pre ++ (l ++ [46])).length := by simp
    rw [hlen, ← List.range'_append_1, List.foldl_append, hfirst, hhost, hpre, ih hls]
    simp [Nat.add_assoc]

theorem intercalate_append_dot (hne : ls ≠ []) :
    [46].intercalate ls ++ [46] = ls.flatMap (· ++ [(46 : UInt8)]) :=
  Pairs.intercalate_append hne [46]

theorem zero_not_mem_dotted (h0 : ∀ l ∈ ls, (0 : UInt8) ∉ l) :
    (0 : UInt8) ∉ ls.flatMap (· ++ [46]) := by
  simpa using fun l hl => h0 l hl

theorem changetoDnsNameFormat_intercalate (hne : ls ≠ []) (h0 : ∀ l ∈ ls, (0 : UInt8) ∉ l)
    (hd : ∀ l ∈ ls, (46 : UInt8) ∉ l) :
    changetoDnsNameFormat ([46].intercalate ls) = encodeLabels ls ++ [0] := by
  have h := foldl_labels ls hd [] []
  simp only [List.length_nil, List.nil_append] at h
  rw [changetoDnsNameFormat, intercalate_append_dot hne, cString_eq_self (zero_not_mem_dotted h0),
    List.range_eq_range', h]

theorem length_header (pid : ℕ) : (queryHeader pid).bytes.length = headerSize := rfl

theorem qnameLength_append {enc : Bytes} (h0 : (0 : UInt8) ∉ enc) (post : Bytes) :
    qnameLength ((queryHeader pid).bytes ++ enc ++ 0 :: post) = enc.length := by
  rw [qnameLength, ← length_header pid, List.append_assoc, List.drop_left, cString_append_zero h0]

theorem named_buffer (pid : ℕ) {qname : Bytes} (h : headerSize + qname.length ≤ bufLen) :
    writeAt (writeAt (List.replicate bufLen 0) 0 (queryHeader pid).bytes) headerSize qname =
      (queryHeader pid).bytes ++
        (qname ++ List.replicate (bufLen - (headerSize + qname.length)) 0) := by
  have hsplit : List.replicate bufLen (0 : UInt8) = List.replicate headerSize 0 ++
      (List.replicate qname.length 0 ++
        List.replicate (bufLen - (headerSize + qname.length)) 0) := by
    simp only [List.replicate_append_replicate]
    congr 1
    omega
  have hheader := writeAt_append (queryHeader pid).bytes [] (List.replicate headerSize 0)
    (List.replicate qname.length 0 ++ List.replicate (bufLen - (headerSize + qname.length)) 0) rfl
  have hname := writeAt_append qname (queryHeader pid).bytes (List.replicate qname.length 0)
    (List.replicate (bufLen - (headerSize + qname.length)) 0) (by simp)
  rw [length_header] at hname
  simp only [List.nil_append, List.length_nil] at hheader
  rw [hsplit, hheader, ← List.append_assoc, hname, List.append_assoc]

/-- What the packet holds: the header, the encoded name up to its first zero byte, the
question in place of the next four bytes, and what is behind them. -/
theorem prepareDnsQueryPacket_done (pid : ℕ) {host enc : Bytes} (old rest : Bytes)
    (h0 : (0 : UInt8) ∉ enc)
    (hq : changetoDnsNameFormat host ++
      List.replicate (bufLen - (headerSize + (changetoDnsNameFormat host).length)) 0 =
        enc ++ 0 :: (old ++ rest))
    (hfits : headerSize + (changetoDnsNameFormat host).length ≤ bufLen)
    (hold : old.length = questionSize) :
    prepareDnsQueryPacket pid host =
      done ((queryHeader pid).bytes ++ enc ++ 0 :: question ++ rest) := by
  have hbuf := named_buffer pid hfits
  rw [hq, ← List.append_assoc] at hbuf
  have hlen : headerSize + (enc.length + 1) + questionSize ≤ bufLen := by
    have := congrArg List.length hq
    simp only [List.length_append, List.length_replicate, List.length_cons] at this
    omega
  have hwrite := writeAt_append question ((queryHeader pid).bytes ++ enc ++ [0]) old rest
    (by rw [hold]; rfl)
  have hat : ((queryHeader pid).bytes ++ enc ++ [0]).length = headerSize + (enc.length + 1) := by
    simp [length_header]
  rw [hat] at hwrite
  simp only [prepareDnsQueryPacket, hbuf, qnameLength_append h0]
  rw [guard_true hfits, done_bind, guard_true hlen, done_bind, pure_eq]
  congr 1
  simpa using hwrite

theorem prepareDnsQueryPacket_eq {host tail : Bytes} {enc : Bytes} (h0 : (0 : UInt8) ∉ enc)
    (hq : changetoDnsNameFormat host = enc ++ 0 :: tail) (ht : tail.length ≤ 4)
    (hlen : enc.length ≤ 60000) :
    prepareDnsQueryPacket pid host = done ((queryHeader pid).bytes ++ enc ++ 0 :: question ++
      List.replicate (bufLen - (enc.length + 17)) 0) := by
  have hsize : (changetoDnsNameFormat host).length = enc.length + 1 + tail.length := by
    rw [hq, List.length_append, List.length_cons]
    omega
  refine prepareDnsQueryPacket_done pid (tail ++ List.replicate (4 - tail.length) 0) _ h0 ?_ ?_ ?_
  · rw [hsize, hq, List.append_assoc, List.append_assoc, List.cons_append,
      List.replicate_append_replicate]
    congr 4
    simp only [bufLen, headerSize]
    omega
  · rw [hsize]
    simp only [bufLen, headerSize]
    omega
  · simp only [List.length_append, List.length_replicate, questionSize]
    omega

/-- The query for a list of labels. -/
def hostQuery (pid : ℕ) (ls : List Bytes) : Bytes :=
  (queryHeader pid).bytes ++ encodeLabels ls ++ 0 :: question

theorem length_hostQuery (pid : ℕ) (ls : List Bytes) :
    (hostQuery pid ls).length = headerSize + ((encodeLabels ls).length + 1) + questionSize := by
  simp only [hostQuery, List.length_append, List.length_cons, length_header]
  rfl

theorem prepareDnsQueryPacket_host {host tail : Bytes} (h0 : (0 : UInt8) ∉ encodeLabels ls)
    (hq : changetoDnsNameFormat host = encodeLabels ls ++ 0 :: tail) (ht : tail.length ≤ 4)
    (hlen : (encodeLabels ls).length ≤ 60000) :
    ∃ sendBuf, prepareDnsQueryPacket pid host = done sendBuf ∧
      sendPacklen sendBuf = (hostQuery pid ls).length ∧
      sendBuf.take (sendPacklen sendBuf) = hostQuery pid ls := by
  refine ⟨_, prepareDnsQueryPacket_eq h0 hq ht hlen, ?_⟩
  have hcut : sendPacklen (hostQuery pid ls ++
      List.replicate (bufLen - ((encodeLabels ls).length + 17)) 0) =
      (hostQuery pid ls).length := by
    rw [length_hostQuery, sendPacklen, hostQuery, List.append_assoc, List.cons_append,
      qnameLength_append h0]
  exact ⟨hcut, by rw [← hostQuery, hcut, List.take_left]⟩

/-- The labels of a host that can be asked for. -/
structure HostLabels (ls : List Bytes) : Prop where
  ne_nil : ls ≠ []
  size : ∀ l ∈ ls, LabelSize l
  no_nul : ∀ l ∈ ls, (0 : UInt8) ∉ l
  no_dot : ∀ l ∈ ls, (46 : UInt8) ∉ l
  length_le : ([46].intercalate ls).length ≤ 253

def hostName (ls : List Bytes) (trailing : Bool) : Bytes :=
  [46].intercalate ls ++ if trailing then [46] else []

theorem HostLabels.length_encode (h : HostLabels ls) : (encodeLabels ls).length ≤ 254 := by
  have hl := congrArg List.length (intercalate_append_dot h.ne_nil)
  have := h.length_le
  simp only [List.length_append, List.length_singleton, List.length_flatMap] at hl
  rw [length_encodeLabels, ← hl]
  omega

/-- A trailing dot is one more, empty label. -/
theorem hostName_trailing (hne : ls ≠ []) : hostName ls true = [46].intercalate (ls ++ [[]]) := by
  have h : [46].intercalate (ls ++ [[]]) ++ [46] = _ := intercalate_append_dot (by simp)
  rw [List.flatMap_append, ← intercalate_append_dot hne] at h
  simpa [hostName] using (List.append_cancel_right h).symm

/-- A trailing dot shows up as a second zero byte of the encoded name. -/
theorem HostLabels.changeto (h : HostLabels ls) (trailing : Bool) :
    changetoDnsNameFormat (hostName ls trailing) =
      encodeLabels ls ++ 0 :: if trailing then [0] else [] := by
  cases trailing with
  | false => simpa [hostName] using changetoDnsNameFormat_intercalate h.ne_nil h.no_nul h.no_dot
  | true =>
    rw [hostName_trailing h.ne_nil, changetoDnsNameFormat_intercalate (by simp)
      (by simpa [or_imp, forall_and] using h.no_nul) (by simpa [or_imp, forall_and] using h.no_dot)]
    simp [encodeLabels_append]

theorem HostLabels.prepare (h : HostLabels ls) (pid : ℕ) (trailing : Bool) :
    ∃ sendBuf, prepareDnsQueryPacket pid (hostName ls trailing) = done sendBuf ∧
      sendPacklen sendBuf = (hostQuery pid ls).length ∧
      sendBuf.take (sendPacklen sendBuf) = hostQuery pid ls := by
  refine prepareDnsQueryPacket_host (zero_not_mem_encodeLabels h.size h.no_nul)
    (h.changeto trailing) ?_ ?_
  · cases trailing <;> decide
  · exact h.length_encode.trans (by decide)

theorem HostLabels.queryDatagram (h : HostLabels ls) (pid : ℕ) (trailing : Bool) :
    queryDatagram pid (hostName ls trailing) = done (hostQuery pid ls) := by
  obtain ⟨sendBuf, hs, -, ht⟩ := h.prepare pid trailing
  rw [Dns.queryDatagram, hs, done_bind, ht, pure_eq]

/-- The RFC 1035 reading of a query for the given labels. -/
def standardQuery (id : ℕ) (ls : List Bytes) : Query where
  header :=
    { id := id
      qr := false
      opcode := 0
      aa := false
      tc := false
      rd := true
      ra := false
      z := 0
      rcode := 0
      qdcount := 1
      ancount := 0
      nscount := 0
      arcount := 0 }
  qname := ls
  qtype := 1
  qclass := 1
  rest := []

theorem parseQuery_eq (pid : ℕ) (hs : ∀ l ∈ ls, LabelSize l) :
    parseQuery (hostQuery pid ls) =
      some (standardQuery (be16 (UInt8.ofNat pid) (UInt8.ofNat (pid / 256))) ls) := by
  have hlen : ls.length < (encodeLabels ls ++ 0 :: question).length := by
    have : ls.length ≤ (ls.map (·.length + 1)).sum := by
      rw [← List.length_map (f := fun l : Bytes => l.length + 1)]
      exact List.length_le_sum_of_one_le _ (by simp)
    rw [List.length_append, length_encodeLabels, List.length_cons]
    omega
  have hbytes : (queryHeader pid).bytes =
      [UInt8.ofNat pid, UInt8.ofNat (pid / 256), 1, 0, 0, 1, 0, 0, 0, 0, 0, 0] := by
    simp [queryHeader, DnsHeader.bytes, le16, htons]
  have hhead : parseHeader ((queryHeader pid).bytes ++ (encodeLabels ls ++ 0 :: question)) =
      some ((standardQuery (be16 (UInt8.ofNat pid) (UInt8.ofNat (pid / 256))) ls).header,
        encodeLabels ls ++ 0 :: question) := by
    rw [hbytes]
    simp only [List.cons_append, List.nil_append, parseHeader, standardQuery]
    rfl
  rw [parseQuery, hostQuery, List.append_assoc, hhead]
  simp only [Option.bind_eq_bind, Option.bind_some, parseLabels_encodeLabels hs question hlen]
  rfl

/-- The datagram for a host is a standard query for exactly the labels of the
host; a trailing dot makes no difference, and other labels give another datagram. -/
theorem query_encoding (pid : ℕ) (h : HostLabels ls) :
    ∃ d, (∀ trailing, Dns.queryDatagram pid (hostName ls trailing) = done d) ∧
      (∃ id < 65536, parseQuery d = some (standardQuery id ls)) ∧
      ∀ ls', HostLabels ls' → ls' ≠ ls → ∀ trailing,
        Dns.queryDatagram pid (hostName ls' trailing) ≠ done d := by
  refine ⟨_, h.queryDatagram pid, ⟨_, be16_lt _ _, parseQuery_eq pid h.size⟩, ?_⟩
  intro ls' h' hne trailing heq
  rw [h'.queryDatagram] at heq
  have hparse := parseQuery_eq pid h'.size
  rw [done.inj heq, parseQuery_eq pid h.size] at hparse
  exact hne (congrArg Query.qname (Option.some.inj hparse)).symm

theorem query_encoding_qq :
    HostLabels [ascii "qq", ascii "com"] ∧
    ∃ d, (∀ trailing, Dns.queryDatagram 4660 (hostName [ascii "qq", ascii "com"] trailing) =
        done d) ∧
      (∃ id < 65536, parseQuery d = some (standardQuery id [ascii "qq", ascii "com"])) ∧
      ∀ ls', HostLabels ls' → ls' ≠ [ascii "qq", ascii "com"] → ∀ trailing,
        Dns.queryDatagram 4660 (hostName ls' trailing) ≠ done d := by
  have h : HostLabels [ascii "qq", ascii "com"] := by
    constructor
    · decide
    · simp only [LabelSize]; decide
    · decide
    · decide
    · decide
  exact ⟨h, query_encoding 4660 h⟩

end QyUtil.Dns
