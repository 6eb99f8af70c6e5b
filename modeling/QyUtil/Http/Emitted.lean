import QyUtil.Bytes.Pairs
import QyUtil.Http.Fields
import QyUtil.Http.Request

/-! # The request that is sent

What `build_req_header` makes of a URL and parameters. It computes a path from them
and writes another one; and the blank line at the end comes with a line end too many.
-/

namespace QyUtil.Http

open Bytes Search Pairs

/-- A URL `http://host[:port][/path]`; of the path, the part behind the slash. -/
structure WebUrl where
  host : Bytes
  port : Option ℕ
  path : Option Bytes
  host_slash : (47 : UInt8) ∉ host
  path_clean : ∀ p ∈ path, ∀ c ∈ p, c ≠ 13 ∧ c ≠ 10 ∧ c ≠ 32 ∧ c ≠ 63

/-- A map of parameters: its keys are in order, and its texts free of separators. -/
structure Params where
  entries : List (Bytes × Bytes)
  sorted : (entries.map Prod.fst).Pairwise (· < ·)
  clean : ∀ p ∈ entries, ∀ c ∈ p.1 ++ p.2, c ≠ 13 ∧ c ≠ 10 ∧ c ≠ 32 ∧ c ≠ 38 ∧ c ≠ 61

namespace WebUrl

def authority (u : WebUrl) : Bytes := u.host ++ u.port.elim [] fun n => 58 :: decimal n

def text (u : WebUrl) : Bytes :=
  ascii "http://" ++ u.authority ++ u.path.elim [] fun p => 47 :: p

/-- The path with its slash, which alone is the path of a URL without one. -/
def fullPath (u : WebUrl) : Bytes := 47 :: u.path.getD []

theorem slash_notMem_authority (u : WebUrl) : (47 : UInt8) ∉ u.authority := by
  intro h
  rcases List.mem_append.mp h with hh | hp
  · exact u.host_slash hh
  · cases hport : u.port with
    | none => simp [hport] at hp
    | some n =>
      rw [hport, Option.elim_some] at hp
      rcases List.mem_cons.mp hp with h58 | hd
      · exact absurd h58 (by decide)
      · exact absurd (isDigit_of_mem_decimal hd) (by decide)

theorem fullPath_clean (u : WebUrl) : ∀ c ∈ u.fullPath, c ≠ 32 ∧ c ≠ 63 := by
  intro c hc
  rcases List.mem_cons.mp hc with rfl | hc
  · decide
  · cases hp : u.path with
    | none => simp [hp] at hc
    | some p =>
      rw [hp, Option.getD_some] at hc
      exact ⟨(u.path_clean p hp c hc).2.2.1, (u.path_clean p hp c hc).2.2.2⟩

end WebUrl

variable {u : WebUrl} {params : Params}

/-- The request target of a URL and parameters. -/
def target (u : WebUrl) (params : Params) : Bytes :=
  u.fullPath ++ if params.entries = [] then [] else 63 :: join 38 61 params.entries

def parseTarget (t : Bytes) : Bytes × List (Bytes × Bytes) :=
  (t.takeWhile (· ≠ 63), match t.dropWhile (· ≠ 63) with
    | [] => []
    | _ :: query => split 38 61 query)

theorem parseTarget_target (u : WebUrl) (params : Params) :
    parseTarget (target u params) = (u.fullPath, params.entries) := by
  have hall : ∀ c ∈ u.fullPath, decide (c ≠ 63) = true := fun c hc =>
    decide_eq_true (u.fullPath_clean c hc).2
  rw [parseTarget, target, List.takeWhile_append_of_pos hall, List.dropWhile_append_of_pos hall]
  split_ifs with hne
  · rw [hne]
    simp
  · have hsplit : split 38 61 (join 38 61 params.entries) = params.entries := by
      refine split_join hne (by decide) fun p hp => ?_
      have hc (c : UInt8) := params.clean p hp c
      refine ⟨fun h => ?_, fun h => ?_, fun h => ?_⟩
      · exact (hc 38 (List.mem_append_left _ h)).2.2.2.1 rfl
      · exact (hc 61 (List.mem_append_left _ h)).2.2.2.2 rfl
      · exact (hc 38 (List.mem_append_right _ h)).2.2.2.1 rfl
    rw [List.takeWhile_cons_of_neg (by decide), List.dropWhile_cons_of_neg (by decide),
      List.append_nil]
    exact congrArg _ hsplit

theorem requestPath_target (u : WebUrl) (params : Params) :
    requestPath u.text params.entries = if u.path = none then [47] else target u params := by
  have hall := decide_ne_of_notMem u.slash_notMem_authority
  have hdrop : (u.text.drop 7).dropWhile (· ≠ 47) = u.path.elim [] fun p => 47 :: p := by
    have htail : (u.path.elim [] fun p => 47 :: p).dropWhile (· ≠ 47) =
        u.path.elim [] fun p => (47 : UInt8) :: p := by
      cases u.path with
      | none => rfl
      | some p => exact List.dropWhile_cons_of_neg (by decide)
    rw [WebUrl.text, List.append_assoc, List.drop_left' (by decide),
      List.dropWhile_append_of_pos hall, htail]
  have hpair : (fun p : Bytes × Bytes => p.1 ++ ascii "=" ++ p.2 ++ ascii "&") =
      fun p => pairText 61 p ++ [38] := by
    funext p
    rw [pairText, List.append_assoc p.1]
    rfl
  rw [requestPath, hdrop, hpair]
  cases hp : u.path with
  | none => rfl
  | some p =>
    simp only [Option.elim_some, reduceCtorEq, if_false, target, WebUrl.fullPath, hp,
      Option.getD_some]
    split_ifs with hne
    · rw [hne, List.flatMap_nil, List.append_nil, List.append_nil]
      exact List.dropLast_concat
    · have hflat : (params.entries.flatMap fun p => pairText 61 p ++ [(38 : UInt8)]) ≠ [] := by
        simpa [List.flatMap_eq_nil_iff] using List.exists_mem_of_ne_nil _ hne
      rw [List.dropLast_append_of_ne_nil hflat, dropLast_flatMap hne, List.append_assoc]
      rfl

def requestTarget (bytes : Bytes) : Bytes :=
  ((bytes.dropWhile (· ≠ 32)).drop 1).takeWhile (· ≠ 32)

/-- The bytes are an HTTP/1.0 request with this method and target: the request line,
header lines that are not empty, and a blank line. -/
def IsRequest (bytes method target : Bytes) : Prop :=
  ∃ lines, bytes = joinLines ((method ++ 32 :: target ++ ascii " HTTP/1.0") :: (lines ++ [[]])) ∧
    ∀ l ∈ lines, l ≠ [] ∧ search httpHeaderBreak l = none

/-- The blank line is at the end of the bytes, and nowhere else. -/
def EndsOnce (bytes : Bytes) : Prop :=
  search httpHeaderEof bytes = some (bytes.length - httpHeaderEof.length)

/-- The bytes are the request for a URL and parameters, which can be read from it again. -/
structure Emits (u : WebUrl) (method : Bytes) (params : Params) (bytes : Bytes) : Prop where
  request : IsRequest bytes method (target u params)
  endsOnce : EndsOnce bytes
  parsed : parseTarget (requestTarget bytes) = (u.fullPath, params.entries)

/-- The text that `build_req_header` writes into a new header, which only the method
determines. -/
def emitted (u : WebUrl) (method : ℕ) (params : Params) : Bytes :=
  (buildReqHeader u.text method params.entries).2

def methodNameOf (method : ℕ) : Bytes := methodName.getD method []

theorem methodNameOf_mem (method : ℕ) : methodNameOf method ∈ [] :: methodName := by
  rw [methodNameOf, List.getD_eq_getElem?_getD]
  cases h : methodName[method]? with
  | none => exact List.mem_cons_self
  | some name => exact List.mem_cons_of_mem _ (List.mem_of_getElem? h)

/-- The empty line that is to end the request is preceded by another one. -/
theorem emitted_ends (u : WebUrl) (method : ℕ) (params : Params) :
    search httpHeaderEof (emitted u method params) =
      some ((emitted u method params).length - httpHeaderEof.length - httpHeaderBreak.length) := by
  have hends : ∀ name ∈ [] :: methodName, ∀ bytes : Bytes,
      bytes = name ++ ascii " /" ++ ascii " HTTP/" ++ ascii "1.0" ++ httpHeaderBreak ++
        ascii "method:" ++ name ++ httpHeaderBreak ++ ascii "Connection: keep-alive" ++
        httpHeaderBreak ++ userAgent ++ httpHeaderBreak ++ httpHeaderEof →
      search httpHeaderEof bytes =
        some (bytes.length - httpHeaderEof.length - httpHeaderBreak.length) := by
    simp only [forall_eq]
    decide +kernel
  exact hends _ (methodNameOf_mem method) _ rfl

theorem requestTarget_emitted (u : WebUrl) (method : ℕ) (params : Params) :
    requestTarget (emitted u method params) = [47] := by
  have hname : ∀ name ∈ [] :: methodName, ∀ c ∈ name, decide (c ≠ 32) = true := by
    decide +kernel
  have htext : emitted u method params = methodNameOf method ++ (32 :: 47 :: 32 ::
      (ascii "HTTP/" ++ ascii "1.0" ++ httpHeaderBreak ++ ascii "method:" ++ methodNameOf method ++
        httpHeaderBreak ++ ascii "Connection: keep-alive" ++ httpHeaderBreak ++ userAgent ++
        httpHeaderBreak ++ httpHeaderEof)) := by
    simp only [emitted, buildReqHeader, List.append_assoc]
    rfl
  rw [htext, requestTarget, List.dropWhile_append_of_pos (hname _ (methodNameOf_mem method)),
    List.dropWhile_cons_of_neg (by decide), List.drop_one, List.tail_cons,
    List.takeWhile_cons_of_pos (by decide), List.takeWhile_cons_of_neg (by decide)]

theorem target_eq_slash_iff :
    target u params = [47] ↔ u.path.getD [] = [] ∧ params.entries = [] := by
  rw [target, WebUrl.fullPath, List.cons_append, List.cons_eq_cons, List.append_eq_nil_iff]
  split_ifs with hne <;> simp [hne]

/-- No URL, method and parameters give the request that they stand for: the request
has a blank line too many. Its target is right only for the root without parameters. -/
theorem never_emits (u : WebUrl) (method : ℕ) (params : Params) :
    ¬ EndsOnce (emitted u method params) ∧
    ¬ Emits u (methodNameOf method) params (emitted u method params) ∧
    (requestTarget (emitted u method params) = target u params ↔
      u.path.getD [] = [] ∧ params.entries = []) := by
  have hends : ¬ EndsOnce (emitted u method params) := by
    intro h
    have hle := search_le (emitted_ends u method params)
    have hbreak : 0 < httpHeaderBreak.length := by decide
    rw [EndsOnce, emitted_ends, Option.some.injEq] at h
    have hlong : httpHeaderEof.length + httpHeaderBreak.length ≤
        (emitted u method params).length := by
      simp only [emitted, buildReqHeader, List.length_append]
      omega
    omega
  refine ⟨hends, fun h => hends h.endsOnce, ?_⟩
  rw [requestTarget_emitted, eq_comm, target_eq_slash_iff]

def pathUrl : WebUrl where
  host := ascii "a"
  port := none
  path := some [98]
  host_slash := by decide
  path_clean := by simp

def noParams : Params where
  entries := []
  sorted := .nil
  clean := by simp

/-- A request as it should be. -/
example : Emits pathUrl (ascii "GET") noParams (ascii "GET /b HTTP/1.0\r\nmethod:GET\r\n\r\n") where
  request := ⟨[ascii "method:GET"], by decide, by decide⟩
  endsOnce := by unfold EndsOnce; decide
  parsed := by decide

/-- A GET of `http://a/b` asks for the root, and ends with two blank lines. -/
theorem pathUrl_not_emits : ¬ Emits pathUrl (ascii "GET") noParams (emitted pathUrl 0 noParams) ∧
    requestTarget (emitted pathUrl 0 noParams) ≠ target pathUrl noParams := by
  have hends : ¬ EndsOnce (emitted pathUrl 0 noParams) := by
    unfold EndsOnce
    decide +kernel
  refine ⟨fun h => hends h.endsOnce, ?_⟩
  decide +kernel

end QyUtil.Http
