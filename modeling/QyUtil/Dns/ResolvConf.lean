import QyUtil.Bytes.Pairs
import QyUtil.Http.Text

/-! # The servers in `resolv.conf`

`GetHostDnsServerIP` for iOS. The loop reads lines of up to 255 characters, as long as the
stream stays good: it ends at a longer line, and at a last line without a newline, and
stores nothing of these. From every other line with the keyword in it, wherever it stands,
it takes all white space and then the first ten characters away.
-/

namespace QyUtil.Dns

open Loops Outcome Turn Bytes Search Pairs
open Http (isSpace)

/-- An input stream: what is left of its file, and its error bits. -/
structure IfStream where
  rest : Bytes
  eofbit : Bool
  failbit : Bool
  deriving DecidableEq, Repr

def IfStream.good (s : IfStream) : Bool := !s.eofbit && !s.failbit

/-- `getline(str, n)`: the characters stored, and the stream behind them. The end of the file
comes before the newline, and the newline before the end of the buffer. -/
def IfStream.getline (s : IfStream) (n : ℕ) : Bytes × IfStream :=
  if s.good then
    let line := s.rest.takeWhile (· ≠ 10)
    let str := line.take (n - 1)
    if str.length < line.length then (str, ⟨s.rest.drop str.length, false, true⟩)
    else match s.rest.drop line.length with
      | [] => (str, ⟨[], true, str = []⟩)
      | _ :: rest => (str, ⟨rest, false, false⟩)
  else ([], { s with failbit := true })

def nameSvr : Bytes := ascii "nameserver"

def nameSvrLen : ℕ := 10

def lineLength : ℕ := 256

/-- What is stored for the buffer `str`. -/
def hostEntry (str : Bytes) : Option Bytes :=
  let s := cString str
  match find s nameSvr 0 with
  | some _ => some ((s.filter fun c => !isSpace c).drop nameSvrLen)
  | none => none

def resolvTurn (s : IfStream × List Bytes) :
    Outcome Empty (Turn (IfStream × List Bytes) (List Bytes)) :=
  if s.1.eofbit then pure (.exit s.2)
  else
    let (str, fin) := s.1.getline lineLength
    if fin.good then pure (.again (fin, s.2 ++ (hostEntry str).toList))
    else pure (.exit s.2)

/-- `GetHostDnsServerIP` for a file with this content. Without one the servers are those of
the resolver state `stat`. -/
def getHostDnsServerIP (fuel : ℕ) (content : Option Bytes) (stat : List Bytes) :
    Outcome Empty (List Bytes) :=
  match content with
  | some content => loop resolvTurn fuel (⟨content, false, false⟩, [])
  | none => pure stat

/-- What counts as an address: some of the words. -/
structure AddressForm where
  ok : Bytes → Bool
  word : ∀ a, ok a = true → a ≠ [] ∧ ∀ b ∈ a, isSpace b = false ∧ b ≠ 0

def directive (form : AddressForm) (line : Bytes) : Option Bytes :=
  let tail := line.drop nameSvrLen
  let a := (tail.dropWhile isSpace).rdropWhile isSpace
  if nameSvr <+: line ∧ (∃ b ∈ tail.head?, isSpace b = true) ∧ form.ok a = true then some a
  else none

/-- The addresses of the directives of a file. -/
def nameservers (form : AddressForm) (content : Bytes) : List Bytes :=
  (content.splitOn 10).filterMap (directive form)

/-- Of the lines of a file those that the loop reads. They are in front of one that is too long
for it, or of the last one, which has no newline. -/
def readable (lines : List Bytes) : List Bytes :=
  lines.dropLast.takeWhile fun l => l.length < lineLength

def readLines (content : Bytes) : List Bytes := readable (content.splitOn 10)

/-- The lines that are read and have the keyword, but are no directives. -/
def strayLines (form : AddressForm) (content : Bytes) : List Bytes :=
  (readLines content).filter fun l => (hostEntry l).isSome ∧ directive form l = none

/-- The addresses of the directives that are not read. -/
def lostServers (form : AddressForm) (content : Bytes) : List Bytes :=
  ((content.splitOn 10).drop (readLines content).length).filterMap (directive form)

variable {form : AddressForm} {content l a : Bytes} {rest : Bytes} {lines : List Bytes} {n : ℕ}

theorem drop_nameSvr (t : Bytes) : (nameSvr ++ t).drop nameSvrLen = t := List.drop_left' (by decide)

theorem directive_shape (h : directive form l = some a) : ∃ u v, l = nameSvr ++ (u ++ (a ++ v)) ∧
    (∀ b ∈ u, isSpace b = true) ∧ (∀ b ∈ v, isSpace b = true) ∧ form.ok a = true := by
  simp only [directive] at h
  split_ifs at h with hcond
  obtain ⟨⟨tail, rfl⟩, -, hok⟩ := hcond
  obtain rfl := Option.some.inj h
  rw [drop_nameSvr] at hok ⊢
  refine ⟨tail.takeWhile isSpace, (tail.dropWhile isSpace).rtakeWhile isSpace, ?_,
    fun b hb => List.mem_takeWhile_imp hb, fun b hb => List.mem_rtakeWhile_imp hb, hok⟩
  rw [List.rdropWhile_append_rtakeWhile, List.takeWhile_append_dropWhile]

theorem hostEntry_directive (h : directive form l = some a) : hostEntry l = some a := by
  obtain ⟨u, v, rfl, hu, hv, hok⟩ := directive_shape h
  have hword := (form.word a hok).2
  have hnul : (0 : UInt8) ∉ nameSvr ++ (u ++ (a ++ v)) := by
    simp only [List.mem_append, not_or]
    exact ⟨by decide, fun h => absurd (hu 0 h) (by decide), fun h => (hword 0 h).2 rfl,
      fun h => absurd (hv 0 h) (by decide)⟩
  have hfind : find (nameSvr ++ (u ++ (a ++ v))) nameSvr 0 = some 0 := by
    rw [find_zero]
    exact search_append_cons (s := []) (List.not_mem_nil) _ _
  have hblank (w : Bytes) (hw : ∀ b ∈ w, isSpace b = true) :
      (w.filter fun c => !isSpace c) = [] := by
    rw [List.filter_eq_nil_iff]
    intro b hb
    simp [hw b hb]
  have haddr : (a.filter fun c => !isSpace c) = a := by
    rw [List.filter_eq_self]
    intro b hb
    simp [(hword b hb).1]
  have hname : (nameSvr.filter fun c => !isSpace c) = nameSvr := by decide
  simp only [hostEntry, cString_eq_self hnul, hfind, List.filter_append, hname, hblank u hu,
    hblank v hv, haddr, List.nil_append, List.append_nil, drop_nameSvr]

theorem takeWhile_line (hl : (10 : UInt8) ∉ l) (rest : Bytes) :
    (l ++ 10 :: rest).takeWhile (· ≠ 10) = l := by
  rw [takeWhile_append_of_notMem hl, List.takeWhile_cons_of_neg (by decide), List.append_nil]

theorem getline_short (hl : (10 : UInt8) ∉ l) (hn : l.length < n) (rest : Bytes) :
    IfStream.getline ⟨l ++ 10 :: rest, false, false⟩ n = (l, ⟨rest, false, false⟩) := by
  have hstr : l.take (n - 1) = l := List.take_of_length_le (by omega)
  simp only [IfStream.getline, IfStream.good, takeWhile_line hl, hstr, lt_irrefl, if_false,
    List.drop_left]
  rfl

theorem getline_long (hl : (10 : UInt8) ∉ l) (hn : n ≤ l.length) (h0 : 0 < n) (rest : Bytes) :
    (IfStream.getline ⟨l ++ 10 :: rest, false, false⟩ n).2.good = false := by
  have hstr : (l.take (n - 1)).length < l.length := by
    rw [List.length_take]
    omega
  simp only [IfStream.getline, IfStream.good, takeWhile_line hl, if_pos hstr]
  rfl

theorem getline_last (hl : (10 : UInt8) ∉ l) (n : ℕ) :
    (IfStream.getline ⟨l, false, false⟩ n).2.good = false := by
  by_cases hstr : (l.take (n - 1)).length < l.length
  · simp only [IfStream.getline, IfStream.good, takeWhile_of_notMem hl, if_pos hstr]
    rfl
  · simp only [IfStream.getline, IfStream.good, takeWhile_of_notMem hl, if_neg hstr,
      List.drop_length]
    rfl

theorem resolvTurn_lines (lines : List Bytes) (hne : lines ≠ []) : ∀ acc,
    (∀ l ∈ lines, (10 : UInt8) ∉ l) →
    Returns (fun k => loop resolvTurn k (⟨[10].intercalate lines, false, false⟩, acc))
      (acc ++ (readable lines).filterMap hostEntry) := by
  induction lines with
  | nil => exact absurd rfl hne
  | cons l lines ih =>
    intro acc hl
    obtain ⟨hl₀, hls⟩ := List.forall_mem_cons.mp hl
    cases lines with
    | nil =>
      rw [List.intercalate_singleton]
      refine returns_of_exit ?_
      simp only [resolvTurn, getline_last hl₀, Bool.false_eq_true, if_false, pure_eq]
      simp [readable]
    | cons l' lines =>
      rw [List.intercalate_cons_cons, List.append_assoc, List.singleton_append]
      by_cases hshort : l.length < lineLength
      · have hnext := ih (List.cons_ne_nil _ _) (acc ++ (hostEntry l).toList) hls
        have hread : readable (l :: l' :: lines) = l :: readable (l' :: lines) := by
          simp [readable, hshort]
        have hturn : Next resolvTurn
            (⟨l ++ 10 :: [10].intercalate (l' :: lines), false, false⟩, acc)
            (⟨[10].intercalate (l' :: lines), false, false⟩, acc ++ (hostEntry l).toList) := by
          simp only [Next, resolvTurn, getline_short hl₀ hshort, IfStream.good]
          rfl
        have hstored : acc ++ (readable (l :: l' :: lines)).filterMap hostEntry =
            acc ++ (hostEntry l).toList ++ (readable (l' :: lines)).filterMap hostEntry := by
          rw [hread, List.append_assoc]
          cases hentry : hostEntry l <;> simp [hentry]
        rw [hstored]
        exact hturn.returns hnext
      · have hread : readable (l :: l' :: lines) = [] := by
          simp [readable, hshort]
        rw [hread, List.filterMap_nil, List.append_nil]
        refine returns_of_exit ?_
        simp only [resolvTurn, getline_long hl₀ (not_lt.mp hshort) (by decide),
          Bool.false_eq_true, if_false, pure_eq]

theorem getHostDnsServerIP_returns (content : Bytes) (stat : List Bytes) :
    Returns (fun k => getHostDnsServerIP k (some content) stat)
      ((readLines content).filterMap hostEntry) := by
  have hlines := resolvTurn_lines (content.splitOn 10) (List.splitOn_ne_nil 10 content) []
    fun l hl => (of_mem_splitOn hl).1
  rw [List.intercalate_splitOn, List.nil_append] at hlines
  exact hlines

theorem readable_append (lines : List Bytes) :
    readable lines ++ lines.drop (readable lines).length = lines := by
  have hstarts : readable lines <+: lines :=
    (List.takeWhile_prefix _).trans (List.dropLast_prefix lines)
  exact (List.prefix_append_drop hstarts).symm

theorem nameservers_eq (form : AddressForm) (content : Bytes) : nameservers form content =
    (readLines content).filterMap (directive form) ++ lostServers form content := by
  rw [nameservers, lostServers, ← List.filterMap_append, readLines, readable_append]

theorem length_entries (form : AddressForm) (lines : List Bytes) :
    (lines.filterMap hostEntry).length = (lines.filterMap (directive form)).length +
      (lines.filter fun l => (hostEntry l).isSome ∧ directive form l = none).length := by
  induction lines with
  | nil => rfl
  | cons l lines ih =>
    cases hd : directive form l with
    | some a => simp [hd, hostEntry_directive hd, ih, Nat.add_right_comm]
    | none =>
      cases hentry : hostEntry l with
      | none => simp [hd, hentry, ih]
      | some e => simp [hd, hentry, ih, Nat.add_assoc]

theorem entries_eq (h : ∀ l ∈ lines, (hostEntry l).isSome → directive form l ≠ none) :
    lines.filterMap hostEntry = lines.filterMap (directive form) := by
  refine List.filterMap_congr fun l hl => ?_
  cases hd : directive form l with
  | some a => exact hostEntry_directive hd
  | none =>
    cases hentry : hostEntry l with
    | none => rfl
    | some e => exact absurd hd (h l hl (by rw [hentry]; rfl))

/-- The servers that are found are the addresses of the directives only if there are as many
stray lines as there are servers lost. Without stray lines they are these addresses exactly
when no server is lost. -/
theorem getHostDnsServerIP_servers (form : AddressForm) (content : Bytes) (stat : List Bytes) :
    ∃ servers, Returns (fun k => getHostDnsServerIP k (some content) stat) servers ∧
      (servers = nameservers form content →
        (strayLines form content).length = (lostServers form content).length) ∧
      (strayLines form content = [] →
        (servers = nameservers form content ↔ lostServers form content = [])) := by
  refine ⟨_, getHostDnsServerIP_returns content stat, fun h => ?_, fun hstray => ?_⟩
  · have hlen := congrArg List.length h
    rw [nameservers_eq, List.length_append, length_entries form] at hlen
    exact Nat.add_left_cancel hlen
  · have hread : (readLines content).filterMap hostEntry =
        (readLines content).filterMap (directive form) := by
      refine entries_eq fun l hl hsome hnone => ?_
      have hall := List.filter_eq_nil_iff.mp hstray l hl
      simp [hsome, hnone] at hall
    rw [hread, nameservers_eq, List.self_eq_append_right]

def words : AddressForm where
  ok a := a ≠ [] ∧ ∀ b ∈ a, isSpace b = false ∧ b ≠ 0
  word _ h := of_decide_eq_true h

def twoServers : Bytes := ascii "; local\nnameserver 8.8.8.8\nnameserver\t10.0.0.1 \n"

theorem getHostDnsServerIP_servers_two : ∃ servers,
    Returns (fun k => getHostDnsServerIP k (some twoServers) []) servers ∧
      servers = nameservers words twoServers ∧
      servers = [ascii "8.8.8.8", ascii "10.0.0.1"] := by
  obtain ⟨servers, hret, -, hiff⟩ := getHostDnsServerIP_servers words twoServers []
  have hservers := (hiff (by decide +kernel)).mpr (by decide +kernel)
  refine ⟨servers, hret, hservers, ?_⟩
  rw [hservers]
  decide +kernel

/-- A directive at the end of a file without a newline is lost, and a comment gives an
entry that is no address. -/
theorem resolv_conf_misread :
    (∃ servers, Returns (fun k => getHostDnsServerIP k (some (ascii "nameserver 8.8.8.8")) [])
      servers ∧ servers ≠ nameservers words (ascii "nameserver 8.8.8.8")) ∧
    ∃ servers, Returns (fun k => getHostDnsServerIP k (some (ascii "# nameserver 8.8.8.8\n")) [])
      servers ∧ servers ≠ nameservers words (ascii "# nameserver 8.8.8.8\n") :=
  ⟨⟨[], ⟨1, by decide⟩, by decide +kernel⟩,
    ⟨[ascii "r8.8.8.8"], ⟨2, by decide +kernel⟩, by decide +kernel⟩⟩

end QyUtil.Dns
