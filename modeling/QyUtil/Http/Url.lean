import QyUtil.Http.Isolation

/-! # Taking a URL apart

`parse_url` tests the first five characters of a URL and takes the address to begin at the
eighth. What stands there goes to the resolver as a whole, with the port if there is one,
and a URL that is too short ends in `std::out_of_range`. The port member is only written
for a positive `short`, so it is 80 in a new object and may be another in a used one.
-/

namespace QyUtil.Http

open Bytes

variable {st : Request} {url host d t path : Bytes} {port : Option ℕ} {dns : Resolution}

def HttpUrl (url : Bytes) : Prop :=
  ∃ host tail, url = ascii "http://" ++ (host ++ tail) ∧ host ≠ [] ∧ (58 : UInt8) ∉ host ∧
    (47 : UInt8) ∉ host

/-- The text between host and path: nothing, or a colon and a port. -/
inductive PortText : Bytes → Option ℕ → Prop
  | absent : PortText [] none
  | decimal {ds : Bytes} : ds ≠ [] → (∀ b ∈ ds, isDigit b = true) → 1 ≤ digitsValue ds →
      digitsValue ds ≤ 65535 → PortText (58 :: ds) (some (digitsValue ds))

structure Parts (url host : Bytes) (port : Option ℕ) : Prop where
  host_ne : host ≠ []
  no_colon : (58 : UInt8) ∉ host
  no_slash : (47 : UInt8) ∉ host
  form : ∃ text path, url = ascii "http://" ++ (host ++ (text ++ path)) ∧ PortText text port ∧
    (path = [] ∨ ∃ p, path = 47 :: p)

/-- The resolver is asked once, and the C string it gets is this host. -/
def AskedFor (events : List Event) (host : Bytes) : Prop :=
  ∃ d, events = [.asked d] ∧ cString d = host

/-- `parse_url` accepts a URL exactly when it should, and otherwise throws a
`QYUtilException`; of an accepted URL it takes the host and the port. -/
structure UrlRight (st : Request) (url : Bytes) : Prop where
  accepts : ∀ dns : Resolution, dns.result = 0 →
    ((st.parseUrl url dns).2.2 = none ↔ HttpUrl url)
  throws : ∀ dns, ¬ HttpUrl url → ∃ msg, (st.parseUrl url dns).2.2 = some (.qyutil msg)
  parts : ∀ dns host port, Parts url host port → (st.parseUrl url dns).2.2 = none →
    AskedFor (st.parseUrl url dns).2.1 host ∧
      (st.parseUrl url dns).1.port % 65536 = (port.getD 80 : ℕ)

/-- The two prefixes for which `parse_url` throws its own exception. -/
def NotHttp (url : Bytes) : Prop := url.take 4 ≠ ascii "http" ∨ url.take 5 = ascii "https"

theorem notHttp_iff : NotHttp url ↔ ∃ msg, urlError url = some (.qyutil msg) := by
  unfold NotHttp urlError
  by_cases h4 : url.take 4 = ascii "http"
  · by_cases h5 : url.take 5 = ascii "https"
    · simp [h4, h5]
    · simp only [h4, ne_eq, not_true_eq_false, h5, or_self, if_false, false_iff, not_exists]
      intro msg
      split_ifs <;> simp
  · simp [h4]

theorem HttpUrl.urlError (h : HttpUrl url) : urlError url = none := by
  obtain ⟨host, tail, rfl, -⟩ := h
  have h4 : (ascii "http://" ++ (host ++ tail)).take 4 = ascii "http" := rfl
  have h5 : (ascii "http://" ++ (host ++ tail)).take 5 ≠ ascii "https" := by
    show ascii "http:" ≠ ascii "https"
    decide
  have h7 : ¬ (ascii "http://" ++ (host ++ tail)).length < 7 := by
    rw [List.length_append]
    exact not_lt.mpr (Nat.le_add_right 7 _)
  rw [Http.urlError, if_neg (not_not.mpr h4), if_neg h5, if_neg h7]

theorem Parts.httpUrl (h : Parts url host port) : HttpUrl url := by
  obtain ⟨text, path, hurl, -, -⟩ := h.form
  exact ⟨host, text ++ path, hurl, h.host_ne, h.no_colon, h.no_slash⟩

theorem parseUrl_of_error {e : Thrown} (h : urlError url = some e) (dns : Resolution) :
    (st.parseUrl url dns).2.2 = some e := by
  simp only [Request.parseUrl, h]

theorem parseUrl_accepted (h : urlError url = none) (dns : Resolution) :
    ((st.parseUrl url dns).2.2 = none ↔ dns.result = 0) ∧
    (st.parseUrl url dns).2.1 = [.asked (urlDomain url)] ∧
    (st.parseUrl url dns).1.port = (acceptedPort (urlDomain url)).getD st.port := by
  simp only [Request.parseUrl, h, Request.getIpByDomain, setPort_port, and_true]
  split_ifs with hd <;> simp [hd]

theorem Parts.urlDomain (h : Parts url host port) :
    ∃ text, PortText text port ∧ urlDomain url = host ++ text := by
  obtain ⟨text, path, rfl, htext, hpath⟩ := h.form
  refine ⟨text, htext, ?_⟩
  have hdrop : (ascii "http://" ++ (host ++ (text ++ path))).drop 7 = host ++ text ++ path := by
    rw [List.append_assoc]
    rfl
  have hslash : (47 : UInt8) ∉ host ++ text := by
    rw [List.mem_append, not_or]
    refine ⟨h.no_slash, ?_⟩
    cases htext with
    | absent => simp
    | decimal _ hd _ _ =>
      rw [List.mem_cons, not_or]
      exact ⟨by decide, fun hm => absurd (hd _ hm) (by decide)⟩
  rw [Http.urlDomain, hdrop, takeWhile_append_of_notMem hslash]
  rcases hpath with rfl | ⟨p, rfl⟩
  · simp
  · simp

theorem acceptedPort_of_notMem (h : (58 : UInt8) ∉ d) : acceptedPort d = none := by
  have hdrop : d.dropWhile (· ≠ 58) = [] := by
    rw [List.dropWhile_eq_nil_iff]
    exact decide_ne_of_notMem h
  rw [acceptedPort, portText, hdrop]
  rfl

theorem cString_append_ne {b : UInt8} (hb : b ≠ 0) (host t : Bytes) :
    cString (host ++ b :: t) ≠ host := by
  intro h
  by_cases h0 : (0 : UInt8) ∈ host
  · have hnul := zero_notMem_cString (host ++ b :: t)
    rw [h] at hnul
    exact hnul h0
  · rw [cString_append h0] at h
    have hnil : cString (b :: t) = [] := List.append_right_eq_self.mp h
    rw [cString, List.takeWhile_cons_of_pos (by simpa using hb)] at hnil
    cases hnil

theorem not_httpUrl {e : Thrown} (hu : urlError url = some e) : ¬ HttpUrl url := by
  intro hhttp
  rw [hhttp.urlError] at hu
  cases hu

theorem urlRight_refused {msg : Bytes} (hu : urlError url = some (.qyutil msg)) :
    UrlRight st url := by
  refine ⟨fun dns _ => ?_, fun dns _ => ⟨msg, parseUrl_of_error hu dns⟩,
    fun dns host port hp => absurd hp.httpUrl (not_httpUrl hu)⟩
  rw [parseUrl_of_error hu]
  exact iff_of_false (by simp) (not_httpUrl hu)

/-- Of a URL that is accepted, the host and the port are right only without a port. -/
theorem Parts.right_iff (h : Parts url host port) (hu : urlError url = none) (dns : Resolution) :
    AskedFor (st.parseUrl url dns).2.1 host ∧
      (st.parseUrl url dns).1.port % 65536 = (port.getD 80 : ℕ) ↔
    port = none ∧ (0 : UInt8) ∉ host ∧ st.port = 80 := by
  obtain ⟨-, hasked, hport⟩ := @parseUrl_accepted st url hu dns
  obtain ⟨text, htext, hdomain⟩ := h.urlDomain
  rw [hasked, hport]
  constructor
  · rintro ⟨⟨d, hd, hhost⟩, hp⟩
    obtain rfl : Http.urlDomain url = d := Event.asked.inj (List.singleton_inj.mp hd)
    rw [hdomain] at hhost
    cases htext with
    | absent =>
      rw [List.append_nil] at hhost hdomain
      rw [hdomain, acceptedPort_of_notMem h.no_colon] at hp
      have hle := st.port_le
      have hpos := st.port_pos
      refine ⟨rfl, hhost ▸ zero_notMem_cString host, ?_⟩
      simp only [Option.getD_none, Nat.cast_ofNat] at hp
      omega
    | decimal _ _ _ _ => exact absurd hhost (cString_append_ne (by decide) host _)
  · rintro ⟨rfl, h0, h80⟩
    cases htext
    rw [List.append_nil] at hdomain
    refine ⟨⟨Http.urlDomain url, rfl, by rw [hdomain, cString_eq_self h0]⟩, ?_⟩
    rw [hdomain, acceptedPort_of_notMem h.no_colon, Option.getD_none, h80]
    rfl

/-- A URL is treated rightly exactly when it has one of the two prefixes that are refused,
or it is an HTTP URL without a valid port, has no NUL in its host, and finds the port
member at 80 when it is a host with a path. -/
theorem urlRight_iff (st : Request) (url : Bytes) : UrlRight st url ↔
    NotHttp url ∨ HttpUrl url ∧
      ∀ host port, Parts url host port → port = none ∧ (0 : UInt8) ∉ host ∧ st.port = 80 := by
  constructor
  · intro h
    cases hu : urlError url with
    | some e =>
      obtain ⟨msg, hmsg⟩ := h.throws ⟨0, []⟩ (not_httpUrl hu)
      rw [parseUrl_of_error hu] at hmsg
      exact .inl (notHttp_iff.mpr ⟨msg, hu.trans hmsg⟩)
    | none =>
      have hnone := (@parseUrl_accepted st url hu ⟨0, []⟩).1.mpr rfl
      refine .inr ⟨(h.accepts ⟨0, []⟩ rfl).mp hnone, fun host port hparts => ?_⟩
      exact (hparts.right_iff hu ⟨0, []⟩).mp (h.parts ⟨0, []⟩ host port hparts hnone)
  · rintro (hnot | ⟨hhttp, hparts⟩)
    · obtain ⟨msg, hu⟩ := notHttp_iff.mp hnot
      exact urlRight_refused hu
    · have hu := hhttp.urlError
      refine ⟨fun dns hd => ?_, fun dns hno => absurd hhttp hno, fun dns host port hp _ => ?_⟩
      · exact iff_of_true ((parseUrl_accepted hu dns).1.mpr hd) hhttp
      · exact (hp.right_iff hu dns).mpr (hparts host port hp)

/-- A URL that is too short throws `std::out_of_range`, and with a port in the URL the
resolver is asked for the host and the port. -/
theorem short_url_out_of_range :
    (Request.new.parseUrl (ascii "http") ⟨0, []⟩).2.2 = some .outOfRange ∧
    ¬ UrlRight .new (ascii "http") ∧
    (Request.new.parseUrl (ascii "http://a.b:8080/x") ⟨0, []⟩).2.1 = [.asked (ascii "a.b:8080")] ∧
    ¬ UrlRight .new (ascii "http://a.b:8080/x") := by
  have hshort : (Request.new.parseUrl (ascii "http") ⟨0, []⟩).2.2 = some .outOfRange := by decide
  refine ⟨hshort, fun h => ?_, by decide, fun h => ?_⟩
  · obtain ⟨msg, hmsg⟩ := h.throws ⟨0, []⟩ fun hh => absurd hh.urlError (by decide)
    rw [hshort] at hmsg
    cases hmsg
  · have hport : PortText (ascii ":8080") (some (digitsValue (ascii "8080"))) :=
      .decimal (by decide) (by decide +kernel) (by decide +kernel) (by decide +kernel)
    have hparts : Parts (ascii "http://a.b:8080/x") (ascii "a.b")
        (some (digitsValue (ascii "8080"))) :=
      ⟨by decide, by decide, by decide, ascii ":8080", ascii "/x", by decide, hport,
        .inr ⟨ascii "x", by decide⟩⟩
    obtain ⟨⟨d, hd, hhost⟩, -⟩ := h.parts ⟨0, []⟩ _ _ hparts (by decide)
    obtain rfl : ascii "a.b:8080" = d := Event.asked.inj (List.singleton_inj.mp hd)
    exact absurd hhost (by decide)

end QyUtil.Http
