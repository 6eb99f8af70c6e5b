import QyUtil.Http.Request

/-! # What a call inherits

`header`, `ips` and `port` are written by every call and reset by none. After a run
of calls they hold the texts, the addresses and the last port of all calls before.
What is asked of the resolver is the host with its port. A call is isolated exactly
when its host stands alone, what it inherits makes no difference to its connections,
and `send` takes one text.
-/

namespace QyUtil.Http

open Loops Outcome Bytes

variable {calls : List Call} {st : Request} {c : Call} {opens : ℕ → Bool} {ips : List Bytes}
  {ip domain t : Bytes} {k : ℕ}

/-- The port that a domain names: a decimal number behind its first colon. -/
def namedPort (domain : Bytes) : Option ℕ :=
  (portText domain).bind fun t =>
    if t.all isDigit ∧ 1 ≤ digitsValue t ∧ digitsValue t ≤ 65535 then some (digitsValue t)
    else none

/-- The port of a URL, which is 80 when it names none. -/
def urlPort (url : Bytes) : ℤ := (namedPort (urlDomain url)).getD 80

/-- The host of a URL, which ends at the first colon. -/
def urlHost (url : Bytes) : Bytes := (urlDomain url).takeWhile (· ≠ 58)

/-- The call connects only to addresses that were resolved for its own host, on its own
port, and the bytes that are sent are those of its own request. -/
structure Isolated (st : Request) (c : Call) : Prop where
  address : ∀ ip port, .opened ip port ∈ (st.request c).2.1 → ip ∈ c.dns.addresses ∧
    ∃ d, .asked d ∈ (st.request c).2.1 ∧ cString d = urlHost c.url
  port : ∀ ip port, .opened ip port ∈ (st.request c).2.1 → port = urlPort c.url
  text : ∀ bytes, .sent bytes ∈ (st.request c).2.1 → bytes = c.text

/-- The call gets as far as asking for the address. -/
def Call.Asks (c : Call) : Prop := urlError c.url = none

/-- The call gets past `parse_url`. -/
def Call.Accepted (c : Call) : Prop := c.Asks ∧ c.dns.result = 0

instance (c : Call) : Decidable c.Asks := inferInstanceAs (Decidable (_ = _))

instance (c : Call) : Decidable c.Accepted := inferInstanceAs (Decidable (_ ∧ _))

/-- The addresses resolved by the calls so far. -/
def staleIps (calls : List Call) : List Bytes :=
  (calls.filter fun c => c.Asks).flatMap fun c => c.dns.addresses

/-- The texts of the requests of the calls so far. -/
def staleHeader (calls : List Call) : Bytes :=
  (calls.filter fun c => c.Accepted).flatMap Call.text

/-- The port in force after a call, given the one before. -/
def Call.nextPort (c : Call) (port : ℤ) : ℤ :=
  if c.Asks then (acceptedPort (urlDomain c.url)).getD port else port

def lastPort (calls : List Call) : ℤ := calls.foldl (fun port c => c.nextPort port) defaultPort

@[simp] theorem setPort_port (st : Request) (domain : Bytes) :
    (st.setPort domain).port = (acceptedPort domain).getD st.port := by
  unfold Request.setPort
  split
  · rename_i h
    simp [h]
  · rename_i h
    simp [h]

@[simp] theorem setPort_ips (st : Request) (domain : Bytes) :
    (st.setPort domain).ips = st.ips := by
  unfold Request.setPort
  split <;> rfl

@[simp] theorem setPort_header (st : Request) (domain : Bytes) :
    (st.setPort domain).header = st.header := by
  unfold Request.setPort
  split <;> rfl

theorem parseUrl_of_accepted (hc : c.Accepted) (st : Request) : st.parseUrl c.url c.dns =
    ((st.setPort (urlDomain c.url)).getIpByDomain c.dns, [.asked (urlDomain c.url)], none) := by
  have hu : urlError c.url = none := hc.1
  simp only [Request.parseUrl, hu, if_pos hc.2]

theorem parseUrl_of_not_accepted (hc : ¬ c.Accepted) (st : Request) :
    ∃ st' events e, st.parseUrl c.url c.dns = (st', events, some e) := by
  cases hu : urlError c.url with
  | some e => exact ⟨st, [], e, by simp only [Request.parseUrl, hu]⟩
  | none =>
    have hr : c.dns.result ≠ 0 := fun h => hc ⟨hu, h⟩
    exact ⟨(st.setPort (urlDomain c.url)).getIpByDomain c.dns, [.asked (urlDomain c.url)],
      .qyutil (ascii "unknown domain:" ++ urlDomain c.url),
      by simp only [Request.parseUrl, hu, if_neg hr]⟩

theorem request_state (st : Request) (c : Call) :
    (st.request c).1.ips = st.ips ++ (if c.Asks then c.dns.addresses else []) ∧
    (st.request c).1.header = st.header ++ (if c.Accepted then c.text else []) ∧
    (st.request c).1.port = c.nextPort st.port := by
  cases hu : urlError c.url with
  | some e =>
    have ha : ¬ c.Asks := by simp [Call.Asks, hu]
    have hn : ¬ c.Accepted := fun h => ha h.1
    simp only [Request.request, Request.parseUrl, hu, if_neg ha, if_neg hn, Call.nextPort,
      List.append_nil, and_self]
  | none =>
    have ha : c.Asks := hu
    by_cases hr : c.dns.result = 0
    · have hacc : c.Accepted := ⟨ha, hr⟩
      simp only [Request.request, Request.parseUrl, hu, if_pos ha, if_pos hr, if_pos hacc,
        Call.nextPort, Request.getIpByDomain, setPort_port, setPort_ips, setPort_header, and_self]
    · have hacc : ¬ c.Accepted := fun h => hr h.2
      simp only [Request.request, Request.parseUrl, hu, if_pos ha, if_neg hr, if_neg hacc,
        Call.nextPort, Request.getIpByDomain, setPort_port, setPort_ips, setPort_header,
        List.append_nil, and_self]

theorem get_state {r : Request × List Event × Except Thrown Bytes}
    (h : Returns (fun n => st.get n c) r) : r.1 = (st.request c).1 := by
  obtain ⟨n, hn⟩ := h
  simp only [Request.get] at hn
  split at hn
  · rename_i hreq
    rw [← done.inj hn, hreq]
  · rename_i hreq
    rw [← done.inj hn, hreq]
  · rename_i hreq
    obtain ⟨body, -, hn⟩ := bind_eq_done.mp hn
    rw [← done.inj hn, hreq]

/-- After a run the members hold what all its calls have left. -/
theorem Run.state (h : Run calls st) :
    st.ips = staleIps calls ∧ st.header = staleHeader calls ∧ st.port = lastPort calls := by
  induction h with
  | fresh => exact ⟨rfl, rfl, rfl⟩
  | @call calls st c r _ hr ih =>
    obtain ⟨hips, hheader, hport⟩ := request_state st c
    rw [get_state hr, hips, hheader, hport, ih.1, ih.2.1, ih.2.2]
    refine ⟨?_, ?_, ?_⟩
    · by_cases ha : c.Asks <;> simp [staleIps, List.filter_append, ha]
    · by_cases ha : c.Accepted <;> simp [staleHeader, List.filter_append, ha]
    · simp [lastPort]

theorem mem_tryOpen : ip ∈ (tryOpen opens k ips).1 ↔
    ∃ i, ips[i]? = some ip ∧ ∀ j < i, opens (k + j) = false := by
  induction ips generalizing k with
  | nil => simp [tryOpen]
  | cons a ips ih =>
    cases hk : opens k with
    | true =>
      simp only [tryOpen, hk, if_true, List.mem_singleton]
      constructor
      · rintro rfl
        exact ⟨0, rfl, by simp⟩
      · rintro ⟨i, hi, hall⟩
        cases i with
        | zero => exact (Option.some.inj hi).symm
        | succ i => exact absurd (hall 0 i.succ_pos) (by simp [hk])
    | false =>
      simp only [tryOpen, hk, Bool.false_eq_true, if_false, List.mem_cons, ih]
      constructor
      · rintro (rfl | ⟨i, hi, hall⟩)
        · exact ⟨0, rfl, by simp⟩
        · refine ⟨i + 1, hi, fun j hj => ?_⟩
          cases j with
          | zero => exact hk
          | succ j => rw [← Nat.add_assoc, Nat.add_right_comm]; exact hall j (by omega)
      · rintro ⟨i, hi, hall⟩
        cases i with
        | zero => exact .inl (Option.some.inj hi).symm
        | succ i =>
          refine .inr ⟨i, hi, fun j hj => ?_⟩
          rw [Nat.add_right_comm, Nat.add_assoc]
          exact hall (j + 1) (by omega)

theorem tryOpen_connected : (tryOpen opens k ips).2 = true ↔
    ∃ i < ips.length, opens (k + i) = true := by
  induction ips generalizing k with
  | nil => simp [tryOpen]
  | cons a ips ih =>
    cases hk : opens k with
    | true =>
      simp only [tryOpen, hk, if_true, true_iff]
      exact ⟨0, by simp, hk⟩
    | false =>
      simp only [tryOpen, hk, Bool.false_eq_true, if_false, ih, List.length_cons]
      constructor
      · rintro ⟨i, hi, ho⟩
        exact ⟨i + 1, by omega, by rw [← ho]; congr 1; omega⟩
      · rintro ⟨i, hi, ho⟩
        cases i with
        | zero => simp [hk] at ho
        | succ i => exact ⟨i, by omega, by rw [← ho]; congr 1; omega⟩

/-- The resolver gets a C string, which is the host when no port and no NUL is behind it. -/
theorem cString_eq_takeWhile_iff {d : Bytes} :
    cString d = d.takeWhile (· ≠ 58) ↔ (58 : UInt8) ∉ d ∧ (0 : UInt8) ∉ d := by
  unfold cString
  induction d with
  | nil => simp
  | cons b d ih =>
    rcases eq_or_ne b 0 with rfl | hzero
    · simp
    rcases eq_or_ne b 58 with rfl | hcolon
    · simp
    · simpa [hzero, hcolon, hzero.symm, hcolon.symm] using ih

theorem portText_eq_none (h : (58 : UInt8) ∉ domain) : portText domain = none := by
  have hnil : domain.dropWhile (· ≠ 58) = [] :=
    List.dropWhile_eq_nil_iff.mpr fun b hb => decide_eq_true fun he => h (he ▸ hb)
  rw [portText, hnil]

theorem acceptedPort_eq_none (h : (58 : UInt8) ∉ domain) : acceptedPort domain = none := by
  rw [acceptedPort, portText_eq_none h, Option.bind_none]

theorem urlPort_eq {url : Bytes} (h : (58 : UInt8) ∉ urlDomain url) : urlPort url = 80 := by
  rw [urlPort, namedPort, portText_eq_none h]
  rfl

/-- An accepted call gets what is its own: when it connects, `send` takes exactly one text;
when it has addresses to try, its URL names a host without port or NUL, and the port left
behind is 80; and the addresses it inherits are its own as far as it tries them. -/
structure Independent (calls : List Call) (c : Call) : Prop where
  oneText : (∃ k < (staleIps calls ++ c.dns.addresses).length, c.opens k = true) →
    c.written = c.text.length
  ownIps : ∀ k ip, (staleIps calls)[k]? = some ip → (∀ j < k, c.opens j = false) →
    ip ∈ c.dns.addresses
  hostAlone : staleIps calls ++ c.dns.addresses ≠ [] →
    (58 : UInt8) ∉ urlDomain c.url ∧ (0 : UInt8) ∉ urlDomain c.url
  ownPort : staleIps calls ++ c.dns.addresses ≠ [] → lastPort calls = 80

theorem text_ne_nil (c : Call) : c.text ≠ [] := by
  intro h
  have := congrArg List.length h
  simp [Call.text, buildReqHeader, httpHeaderEof] at this

/-- All texts are the same, so what is inherited does not show in the first one. -/
theorem staleHeader_append (calls : List Call) (c : Call) :
    ∃ rest, staleHeader calls ++ c.text = c.text ++ rest := by
  rw [staleHeader]
  cases calls.filter fun c => c.Accepted with
  | nil => exact ⟨[], (List.append_nil _).symm⟩
  | cons c' cs => exact ⟨cs.flatMap Call.text ++ c.text, List.append_assoc c.text _ _⟩

/-- One text is sent, however many there are, when `send` takes as many bytes. -/
theorem taken_eq_text (calls : List Call) (c : Call) :
    c.taken (staleHeader calls ++ c.text) = c.text ↔ c.written = c.text.length := by
  obtain ⟨rest, hrest⟩ := staleHeader_append calls c
  rw [hrest, Call.taken]
  constructor
  · intro h
    have hlength := congrArg List.length h
    have hpos := List.length_pos_iff.mpr (text_ne_nil c)
    split_ifs at hlength with hle
    · rw [List.length_take] at hlength
      omega
    · rw [List.length_nil] at hlength
      omega
  · intro h
    rw [h, if_pos (by simp), List.take_left]

theorem request_events (hc : c.Accepted) :
    (st.request c).2.1 = .asked (urlDomain c.url) ::
      (((tryOpen c.opens 0 (st.ips ++ c.dns.addresses)).1.map fun ip =>
        Event.opened ip ((acceptedPort (urlDomain c.url)).getD st.port)) ++
      if (tryOpen c.opens 0 (st.ips ++ c.dns.addresses)).2 then
        [.sent (c.taken (st.header ++ c.text))]
      else []) := by
  simp only [Request.request, parseUrl_of_accepted hc, Request.sendRequest,
    Request.getIpByDomain, setPort_ips, setPort_port, setPort_header]
  split_ifs <;> simp

theorem isolated_of_not_accepted (hc : ¬ c.Accepted) : Isolated st c := by
  have hasked : (st.request c).2.1 = [] ∨ ∃ d, (st.request c).2.1 = [.asked d] := by
    cases hu : urlError c.url with
    | some e => exact .inl (by simp [Request.request, Request.parseUrl, hu])
    | none =>
      have hr : c.dns.result ≠ 0 := fun h => hc ⟨hu, h⟩
      exact .inr ⟨_, by simp [Request.request, Request.parseUrl, hu, hr]; rfl⟩
  rcases hasked with hevents | ⟨d, hevents⟩
  · constructor <;> simp [hevents]
  · constructor <;> simp [hevents]

theorem isolated_accepted (hc : c.Accepted) : Isolated st c ↔
    (∀ ip ∈ (tryOpen c.opens 0 (st.ips ++ c.dns.addresses)).1, ip ∈ c.dns.addresses ∧
      cString (urlDomain c.url) = urlHost c.url ∧
      (acceptedPort (urlDomain c.url)).getD st.port = urlPort c.url) ∧
    ((tryOpen c.opens 0 (st.ips ++ c.dns.addresses)).2 = true →
      c.taken (st.header ++ c.text) = c.text) := by
  have hasked (d : Bytes) : .asked d ∈ (st.request c).2.1 ↔ d = urlDomain c.url := by
    rw [request_events hc]
    split_ifs <;> simp
  have hopened (ip : Bytes) (port : ℤ) : .opened ip port ∈ (st.request c).2.1 ↔
      ip ∈ (tryOpen c.opens 0 (st.ips ++ c.dns.addresses)).1 ∧
        port = (acceptedPort (urlDomain c.url)).getD st.port := by
    rw [request_events hc]
    split_ifs <;> simp [eq_comm]
  have hsent (bytes : Bytes) : .sent bytes ∈ (st.request c).2.1 ↔
      (tryOpen c.opens 0 (st.ips ++ c.dns.addresses)).2 = true ∧
        bytes = c.taken (st.header ++ c.text) := by
    rw [request_events hc]
    split_ifs with hconn <;> simp [hconn]
  constructor
  · intro h
    refine ⟨fun ip hip => ?_, fun hconn => h.text _ ((hsent _).mpr ⟨hconn, rfl⟩)⟩
    have hmem := (hopened ip _).mpr ⟨hip, rfl⟩
    obtain ⟨haddress, d, hd, hhost⟩ := h.address ip _ hmem
    obtain rfl := (hasked d).mp hd
    exact ⟨haddress, hhost, h.port ip _ hmem⟩
  · rintro ⟨htried, htext⟩
    constructor
    · intro ip port hmem
      obtain ⟨haddress, hhost, -⟩ := htried ip ((hopened ip port).mp hmem).1
      exact ⟨haddress, _, (hasked _).mpr rfl, hhost⟩
    · intro ip port hmem
      obtain ⟨hip, rfl⟩ := (hopened ip port).mp hmem
      exact (htried ip hip).2.2
    · intro bytes hmem
      obtain ⟨hconn, rfl⟩ := (hsent bytes).mp hmem
      exact htext hconn

/-- After any run, the next call is isolated exactly when it is not accepted, or gets what
is its own. -/
theorem isolated_iff (h : Run calls st) (c : Call) :
    Isolated st c ↔ (c.Accepted → Independent calls c) := by
  by_cases hc : c.Accepted
  swap
  · exact ⟨fun _ h => absurd h hc, fun _ => isolated_of_not_accepted hc⟩
  obtain ⟨hips, hheader, hport⟩ := h.state
  rw [isolated_accepted hc, hips, hheader, hport, taken_eq_text, tryOpen_connected, urlHost,
    cString_eq_takeWhile_iff]
  simp only [Nat.zero_add, mem_tryOpen]
  constructor
  · rintro ⟨htried, htext⟩ -
    have hfirst (hne : staleIps calls ++ c.dns.addresses ≠ []) :
        ((58 : UInt8) ∉ urlDomain c.url ∧ (0 : UInt8) ∉ urlDomain c.url) ∧
          (acceptedPort (urlDomain c.url)).getD (lastPort calls) = urlPort c.url := by
      obtain ⟨ip, rest, hcons⟩ := List.exists_cons_of_ne_nil hne
      exact (htried ip ⟨0, by rw [hcons]; rfl, by simp⟩).2
    refine ⟨htext, fun k ip hk hall => ?_, fun hne => (hfirst hne).1, fun hne => ?_⟩
    · have hlt : k < (staleIps calls).length := (List.getElem?_eq_some_iff.mp hk).1
      exact (htried ip ⟨k, by rw [List.getElem?_append_left hlt, hk], hall⟩).1
    · obtain ⟨⟨hcolon, -⟩, hown⟩ := hfirst hne
      rwa [acceptedPort_eq_none hcolon, urlPort_eq hcolon] at hown
  · intro hind
    obtain ⟨htext, hown, hhost, hp⟩ := hind hc
    refine ⟨fun ip => ?_, htext⟩
    rintro ⟨k, hk, hall⟩
    have hmem : ip ∈ staleIps calls ++ c.dns.addresses := List.mem_of_getElem? hk
    have hne := List.ne_nil_of_mem hmem
    refine ⟨?_, hhost hne, ?_⟩
    · by_cases hlt : k < (staleIps calls).length
      · rw [List.getElem?_append_left hlt] at hk
        exact hown k ip hk hall
      · rw [List.getElem?_append_right (not_lt.mp hlt)] at hk
        exact List.mem_of_getElem? hk
    · rw [acceptedPort_eq_none (hhost hne).1, urlPort_eq (hhost hne).1]
      exact hp hne

/-- A call for which one address is resolved; whether it connects is a parameter, and one
text is taken of what it sends. -/
def sampleCall (url : String) (address : String) (connects : Bool) : Call where
  url := ascii url
  params := []
  dns := ⟨0, [ascii address]⟩
  opens _ := connects
  written := (buildReqHeader (ascii url) 0 []).2.length
  stream := ⟨[], by decide, false⟩
  garbage _ := 0

theorem isolated_first : Isolated Request.new (sampleCall "http://a.b/c" "10.0.0.1" true) :=
  (isolated_iff Run.fresh _).mpr fun _ =>
    { oneText := fun _ => rfl
      ownIps := fun _ _ h => absurd h (by simp [staleIps])
      hostAlone := fun _ => by decide
      ownPort := fun _ => rfl }

/-- The second call, of which `send` takes two texts. -/
def twoTexts : Call :=
  { sampleCall "http://c.d/" "10.0.0.2" true with
    written := 2 * (buildReqHeader [] 0 []).2.length }

/-- After a call that could not connect, the next one sends the text of both. -/
theorem second_call_not_isolated : ∃ st, Run [sampleCall "http://a.b/" "10.0.0.1" false] st ∧
    .sent ((sampleCall "http://a.b/" "10.0.0.1" false).text ++ twoTexts.text) ∈
      (st.request twoTexts).2.1 ∧ ¬ Isolated st twoTexts := by
  have hrun : Run ([] ++ [sampleCall "http://a.b/" "10.0.0.1" false])
      (Request.new.request (sampleCall "http://a.b/" "10.0.0.1" false)).1 :=
    Run.call Run.fresh (r := ((Request.new.request (sampleCall "http://a.b/" "10.0.0.1" false)).1,
      _, .ok [])) ⟨0, rfl⟩
  have hsent : .sent ((sampleCall "http://a.b/" "10.0.0.1" false).text ++ twoTexts.text) ∈
      ((Request.new.request (sampleCall "http://a.b/" "10.0.0.1" false)).1.request
        twoTexts).2.1 := by decide +kernel
  refine ⟨_, hrun, hsent, fun h => ?_⟩
  have htext := congrArg List.length (h.text _ hsent)
  rw [List.length_append] at htext
  have hpos := List.length_pos_iff.mpr (text_ne_nil (sampleCall "http://a.b/" "10.0.0.1" false))
  omega

end QyUtil.Http
