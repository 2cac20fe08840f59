import FilemanagerHttpd.Audit.HeaderLines
import FilemanagerHttpd.Audit.Texts
import FilemanagerHttpd.Server.Environment

/-!
# Requests as text

A request header as a client may write it, and what is read of it. The texts do not depend
on the parser: the choice of escapes and line ends is free.
-/

namespace FilemanagerHttpd.Audit

open Library Server

section Encoding

/-- How a query follows the path. -/
def queryPart : Option Bytes → Bytes
  | none => []
  | some q => question :: q

/-- A path and one of the ways to write it. -/
inductive Escaped : Bytes → Bytes → Prop
  | nil : Escaped [] []
  | raw {b : Byte} {path text : Bytes} : b ∉ [space, percent, question, cr, lf, nul] →
      Escaped path text → Escaped (b :: path) (b :: text)
  | hex {b h l : Byte} {path text : Bytes} : isDigit 16 h = true → isDigit 16 l = true →
      digitsVal 16 [h, l] = b.toNat → b ≠ nul → Escaped path text →
      Escaped (b :: path) (percent :: h :: l :: text)

inductive LineEnd
  | lf | crlf
  deriving DecidableEq, Repr

/-- What stands before the line feed. -/
def LineEnd.before : LineEnd → Bytes
  | .lf => []
  | .crlf => [cr]

/-- A line with its end. -/
def endedLine (l : Bytes) (e : LineEnd) : Bytes := l ++ e.before ++ [lf]

/-- A header line of a request. -/
structure HeaderText where
  name : Bytes
  value : Bytes
  lineEnd : LineEnd
  name_clean : ∀ b ∈ name, b ∉ [colon, lf, nul]
  value_clean : ∀ b ∈ value, b ∉ [lf, nul]
  value_last : value.getLast? ≠ some cr

def HeaderText.line (h : HeaderText) : Bytes := h.name ++ colon :: h.value

/-- The text of a request header. -/
structure RequestText where
  method : Bytes
  path : Bytes
  /-- the path as it is written -/
  escapedPath : Bytes
  query : Option Bytes
  version : Bytes
  headers : List HeaderText
  /-- the empty lines in front -/
  emptyLines : List LineEnd
  /-- the ends of the request line and of the last line -/
  lineEnd : LineEnd
  lastEnd : LineEnd
  method_clean : ∀ b ∈ method, b ∉ [space, lf, nul]
  path_escaped : Escaped path escapedPath
  query_clean : ∀ q ∈ query, ∀ b ∈ q, b ∉ [space, cr, lf, nul]
  version_clean : ∀ b ∈ version, b ∉ [space, cr, lf, nul]

def RequestText.queryText (x : RequestText) : Bytes :=
  match x.query with
  | none => []
  | some q => question :: q

def RequestText.requestLine (x : RequestText) : Bytes :=
  x.method ++ space :: (x.escapedPath ++ (x.queryText ++ (ascii " HTTP/" ++ x.version)))

/-- The header lines and the empty line behind them. -/
def headerTexts (headers : List HeaderText) (lastEnd : LineEnd) : Bytes :=
  headers.flatMap (fun h => endedLine h.line h.lineEnd) ++ endedLine [] lastEnd

def RequestText.bytes (x : RequestText) : Bytes :=
  x.emptyLines.flatMap (endedLine []) ++
    (endedLine x.requestLine x.lineEnd ++ headerTexts x.headers x.lastEnd)

end Encoding

section RequestLine

theorem percentByte_hex {b h l : Byte} (hh : isDigit 16 h = true) (hl : isDigit 16 l = true)
    (hb : digitsVal 16 [h, l] = b.toNat) : percentByte [h, l] = b := by
  have hdigits : ∀ x ∈ [h, l], isDigit 16 x = true := by
    intro x hx
    rcases List.mem_cons.mp hx with rfl | hx
    · exact hh
    · rw [List.mem_singleton.mp hx]; exact hl
  have hlt : b.toNat < 256 := b.toNat_lt
  have hend : EndsNumber 16 (cstr []) := by rw [show cstr [] = [] from rfl]; exact nofun
  have hval : strtoul 16 ([h, l] ++ []) = b.toNat := by
    rw [strtoul_digits (by decide) (List.cons_ne_nil h [l]) hdigits hend, hb,
      if_neg (by unfold ulongSize; omega)]
  rw [List.append_nil] at hval
  rw [percentByte, hval]
  exact UInt8.ofNat_toNat

theorem decodePath_stop {b : Byte} (rest : Bytes) (h : b = space ∨ b = question) :
    decodePath (b :: rest) = ([], b :: rest) := by
  unfold decodePath
  rw [if_pos h]

theorem decodePath_raw {b : Byte} (rest : Bytes) (h : ¬ (b = space ∨ b = question))
    (hp : ¬ b = percent) :
    decodePath (b :: rest) = (b :: (decodePath rest).1, (decodePath rest).2) := by
  conv_lhs => unfold decodePath
  rw [if_neg h, if_neg hp]

theorem decodePath_hex (c d : Byte) (rest : Bytes) :
    decodePath (percent :: c :: d :: rest) =
      (percentByte [c, d] :: (decodePath rest).1, (decodePath rest).2) := by
  conv_lhs => unfold decodePath
  rw [if_neg (by decide), if_pos rfl]

/-- The path is decoded up to the query, the version or the end of the line. -/
theorem decodePath_escaped {path text : Bytes} (h : Escaped path text) (tail : Bytes)
    (htail : ∀ b ∈ tail.head?, b = space ∨ b = question) :
    decodePath (text ++ tail) = (path, tail) := by
  induction h with
  | nil =>
    cases tail with
    | nil => rfl
    | cons b tail => exact decodePath_stop tail (htail b rfl)
  | @raw b path text hb _ ih =>
    have hstop : ¬ (b = space ∨ b = question) := by
      rintro (rfl | rfl)
      · exact hb (by simp)
      · exact hb (by simp)
    have hpercent : ¬ b = percent := by
      rintro rfl
      exact hb (by simp)
    rw [List.cons_append, decodePath_raw _ hstop hpercent, ih]
  | @hex b h l path text hh hl hval _ _ ih =>
    rw [List.cons_append, List.cons_append, List.cons_append, decodePath_hex, ih,
      percentByte_hex hh hl hval]

theorem escaped_clean {path text : Bytes} (h : Escaped path text) :
    ∀ b ∈ text, b ∉ [space, question, cr, lf, nul] := by
  have hnone : ∀ b ∈ [space, question, cr, lf, nul], isDigit 16 b = false := by
    intro b hb
    simp only [List.mem_cons, List.not_mem_nil, or_false] at hb
    rcases hb with rfl | rfl | rfl | rfl | rfl <;> rfl
  have hdigit : ∀ {b : Byte}, isDigit 16 b = true → b ∉ [space, question, cr, lf, nul] :=
    fun hb hm => ne_of_isDigit (hnone _ hm) hb rfl
  induction h with
  | nil => exact fun b hb => absurd hb List.not_mem_nil
  | raw hb _ ih =>
    intro c hc
    rcases List.mem_cons.mp hc with rfl | hc
    · intro hm
      rcases List.mem_cons.mp hm with rfl | hm
      · exact hb List.mem_cons_self
      · exact hb (.tail _ (.tail _ hm))
    · exact ih c hc
  | hex hh hl _ _ _ ih =>
    intro c hc
    simp only [List.mem_cons] at hc
    rcases hc with rfl | rfl | rfl | hc
    · decide +kernel
    · exact hdigit hh
    · exact hdigit hl
    · exact ih c hc

theorem escaped_nul {path text : Bytes} (h : Escaped path text) : nul ∉ path := by
  induction h with
  | nil => exact List.not_mem_nil
  | raw hb _ ih =>
    intro hm
    rcases List.mem_cons.mp hm with rfl | hm
    · exact hb (by simp)
    · exact ih hm
  | hex _ _ _ hb _ ih =>
    intro hm
    rcases List.mem_cons.mp hm with rfl | hm
    · exact hb rfl
    · exact ih hm

variable (x : RequestText)

theorem requestLine_clean : ∀ b ∈ x.requestLine, b ∉ [lf, nul] := by
  have hsub : ∀ {b : Byte} {l : Bytes}, b ∉ l → (∀ c ∈ [lf, nul], c ∈ l) → b ∉ [lf, nul] :=
    fun hb hl hm => hb (hl _ hm)
  intro b hb
  simp only [RequestText.requestLine, List.mem_append, List.mem_cons] at hb
  rcases hb with hb | rfl | hb | hb | hb | hb
  · exact hsub (x.method_clean b hb) (by decide +kernel)
  · decide +kernel
  · exact hsub (escaped_clean x.path_escaped b hb) (by decide +kernel)
  · unfold RequestText.queryText at hb
    cases hq : x.query with
    | none => rw [hq] at hb; cases hb
    | some q =>
      rw [hq] at hb
      rcases List.mem_cons.mp hb with rfl | hb
      · decide +kernel
      · exact hsub (x.query_clean q (by rw [hq]; rfl) b hb) (by decide +kernel)
  · revert hb b
    decide +kernel
  · exact hsub (x.version_clean b hb) (by decide +kernel)

/-- The request line is not taken for one that ends in a carriage return. -/
theorem requestLine_last : x.requestLine.getLast? ≠ some cr := by
  have htail : ∀ (front : Bytes) {l : Bytes}, l ≠ [] → l.getLast? ≠ some cr →
      (front ++ l).getLast? ≠ some cr := by
    intro front l hne hl
    rwa [List.getLast?_append_of_ne_nil _ hne]
  have hend : (ascii " HTTP/" ++ x.version).getLast? ≠ some cr := by
    by_cases hv : x.version = []
    · rw [hv]; decide +kernel
    · refine htail _ hv fun hl => ?_
      exact x.version_clean cr (List.mem_of_getLast? hl) (by simp)
  have hne : ascii " HTTP/" ++ x.version ≠ [] := by
    exact List.append_ne_nil_of_left_ne_nil (by decide +kernel) _
  unfold RequestText.requestLine
  rw [← List.singleton_append, ← List.append_assoc, ← List.append_assoc, ← List.append_assoc]
  exact htail _ hne hend

/-- What is read of a request line whose path is decoded up to the query or the version. -/
theorem decodeRequestStartLine_line {method text path version : Bytes} {query : Option Bytes}
    (hline : nul ∉ method ++ space :: (text ++ (queryPart query ++ (ascii " HTTP/" ++ version))))
    (hmethod : space ∉ method) (hpath : nul ∉ path) (hquery : ∀ q ∈ query, space ∉ q)
    (hdecode : ∀ tail, (∀ b ∈ tail.head?, b = space ∨ b = question) →
      decodePath (text ++ tail) = (path, tail)) :
    decodeRequestStartLine { reqhdrNew with
        request := method ++ space :: (text ++ (queryPart query ++ (ascii " HTTP/" ++ version))) } =
      { reqhdrNew with
        request := method, path := some path, query := query, version := version } := by
  have hversion : ∀ v, versionOf (ascii " HTTP/" ++ version) v = version := by
    intro v
    rw [versionOf, if_pos (List.isPrefixOf_iff_prefix.mpr (List.prefix_append _ _))]
    exact List.drop_left' rfl
  simp only [decodeRequestStartLine, cstr_eq_self hline, splitAtByte_append _ hmethod]
  cases query with
  | none =>
    have hrest := hdecode (ascii " HTTP/" ++ version) fun b hb => .inl (Option.some.inj hb).symm
    obtain ⟨t, ht⟩ : ∃ t, ascii " HTTP/" ++ version = 32 :: t := ⟨ascii "HTTP/" ++ version, rfl⟩
    have hvers := hversion reqhdrNew.version
    rw [queryPart, List.nil_append, hrest]
    rw [ht] at hvers ⊢
    show (⟨method, some (cstr path), none, versionOf (32 :: t) _, _, _, _⟩ : RequestHeader) = _
    rw [hvers, cstr_eq_self hpath]
  | some q =>
    have hspace : ∀ b ∈ q, (b != space) = true := fun b hb => by
      simpa using fun he : b = space => hquery q rfl (he ▸ hb)
    have hrest := hdecode (question :: (q ++ (ascii " HTTP/" ++ version)))
      fun b hb => .inr (Option.some.inj hb).symm
    have htake : (q ++ (ascii " HTTP/" ++ version)).takeWhile (· != space) = q := by
      rw [List.takeWhile_append_of_pos hspace]
      exact List.append_nil q
    have hdrop : (q ++ (ascii " HTTP/" ++ version)).dropWhile (· != space) =
        ascii " HTTP/" ++ version := by
      rw [List.dropWhile_append_of_pos hspace]
      rfl
    rw [queryPart, List.cons_append, hrest]
    show (⟨method, some (cstr path), some (List.takeWhile _ _), versionOf (List.dropWhile _ _) _,
      _, _, _⟩ : RequestHeader) = _
    rw [htake, hdrop, hversion, cstr_eq_self hpath]

/-- What is read of the request line. -/
theorem decodeRequestStartLine_text :
    decodeRequestStartLine { reqhdrNew with request := x.requestLine } =
      { reqhdrNew with
        request := x.method, path := some x.path, query := x.query, version := x.version } := by
  have hpart : x.queryText = queryPart x.query := by
    rw [RequestText.queryText]
    cases x.query <;> rfl
  have hline : x.requestLine = x.method ++ space ::
      (x.escapedPath ++ (queryPart x.query ++ (ascii " HTTP/" ++ x.version))) := by
    rw [RequestText.requestLine, hpart]
  have hclean : nul ∉ x.requestLine := fun hm => requestLine_clean x nul hm (by decide +kernel)
  rw [hline] at hclean ⊢
  exact decodeRequestStartLine_line hclean (fun hm => x.method_clean space hm (by simp))
    (escaped_nul x.path_escaped) (fun q hq hm => x.query_clean q hq space hm (by simp))
    (decodePath_escaped x.path_escaped)

end RequestLine

section Reading

variable {cfg : Config}

theorem stripCr_ended {l : Bytes} (e : LineEnd) (h : l.getLast? ≠ some cr) :
    stripCr (l ++ e.before) = l := by
  cases e with
  | lf =>
    rw [LineEnd.before, List.append_nil, stripCr, if_neg h]
  | crlf =>
    have hlast : (l ++ [cr]).getLast? = some cr := by simp
    rw [LineEnd.before, stripCr, if_pos hlast, List.dropLast_concat]

/-- A whole line, given to a reader that is at the start of one. -/
theorem feed_line {req : RequestHeader} (hfresh : cstr ((reqhdrReader cfg).line req) = [])
    (l : Bytes) (hl : ∀ b ∈ l, b ∉ [lf, nul]) (e : LineEnd) (rest : Bytes) :
    feed (reqhdrReader cfg).byte req (endedLine l e ++ rest) =
      if (l ++ e.before).length < uintSize - 1 then
        match (reqhdrReader cfg).complete ((reqhdrReader cfg).setLine req (l ++ e.before)) with
        | .error f => .error f
        | .ok (req', true) => .ok (req', some rest)
        | .ok (req', false) => feed (reqhdrReader cfg).byte req' rest
      else .error .heapOverflow := by
  have hmem : ∀ b ∈ [lf, nul], b ∉ l ++ e.before := by
    intro b hb hm
    rcases List.mem_append.mp hm with hm | hm
    · exact hl b hm hb
    · cases e with
      | lf => cases hm
      | crlf =>
        obtain rfl : b = cr := List.mem_singleton.mp hm
        exact absurd hb (by decide +kernel)
  have htext : endedLine l e ++ rest = l ++ e.before ++ 10 :: rest := by
    rw [endedLine, List.append_assoc]; rfl
  have hcounted : counted ((reqhdrReader cfg).line req) = [] := hfresh
  have hlimit : (reqhdrReader cfg).limit = uintSize - 1 := rfl
  have htooLong : (reqhdrReader cfg).tooLong = .heapOverflow := rfl
  rw [htext, (reqhdrReader cfg).feed_piece (hmem lf (by simp)) (hmem nul (by simp)),
    LineReader.extend, hcounted, hlimit, htooLong, List.length_nil, Nat.zero_add,
    List.nil_append]
  by_cases hlen : (l ++ e.before).length < uintSize - 1
  · rw [if_pos hlen, if_pos hlen]
    simp only
    cases (reqhdrReader cfg).complete ((reqhdrReader cfg).setLine req (l ++ e.before)) with
    | error f => rfl
    | ok r =>
      obtain ⟨req', done⟩ := r
      cases done <;> rfl
  · rw [if_neg hlen, if_neg hlen]

/-- The empty lines in front of a request change nothing. -/
theorem feed_emptyLines (ends : List LineEnd) (rest : Bytes) :
    feed (reqhdrReader cfg).byte reqhdrNew (ends.flatMap (endedLine []) ++ rest) =
      feed (reqhdrReader cfg).byte reqhdrNew rest := by
  induction ends with
  | nil => rfl
  | cons e ends ih =>
    have hshort : ([] ++ e.before).length < uintSize - 1 := by cases e <;> decide
    have hcomplete : (reqhdrReader cfg).complete
        ((reqhdrReader cfg).setLine reqhdrNew ([] ++ e.before)) = .ok (reqhdrNew, false) := by
      cases e <;> rfl
    rw [List.flatMap_cons, List.append_assoc, feed_line rfl [] (by simp) e, if_pos hshort,
      hcomplete]
    exact ih

variable (x : RequestText)

/-- What has been read of a request up to the given header lines. -/
structure ReadOf (hs : List HeaderText) (req : RequestHeader) : Prop where
  request : req.request = x.method
  path : req.path = some x.path
  query : req.query = x.query
  version : req.version = x.version
  headers : req.headers = hs.map fun h => (h.name, h.value)
  current : req.current = []
  login : req.loginState = .loggedOut ↔
    ∀ h ∈ hs, eqIgnoreCase h.name (ascii "Authorization") = false

theorem ReadOf.requestLine :
    ReadOf x [] { reqhdrNew with
      request := x.method, path := some x.path, query := x.query, version := x.version } :=
  ⟨rfl, rfl, rfl, rfl, rfl, rfl, fun _ _ hm => absurd hm List.not_mem_nil, fun _ => rfl⟩

theorem feed_requestLine (rest : Bytes) :
    feed (reqhdrReader cfg).byte reqhdrNew (endedLine x.requestLine x.lineEnd ++ rest) =
      if (x.requestLine ++ x.lineEnd.before).length < uintSize - 1 then
        feed (reqhdrReader cfg).byte { reqhdrNew with
          request := x.method, path := some x.path, query := x.query, version := x.version } rest
      else .error .heapOverflow := by
  have hne : cstr x.requestLine ≠ [] := by
    rw [cstr_eq_self fun hm => requestLine_clean x nul hm (by decide +kernel)]
    exact List.append_ne_nil_of_right_ne_nil _ (List.cons_ne_nil _ _)
  have hcomplete : (reqhdrReader cfg).complete
      ((reqhdrReader cfg).setLine reqhdrNew (x.requestLine ++ x.lineEnd.before)) =
      .ok ({ reqhdrNew with
        request := x.method, path := some x.path, query := x.query, version := x.version },
        false) := by
    rw [← decodeRequestStartLine_text x]
    show Except.ok (if cstr (stripCr (x.requestLine ++ x.lineEnd.before)) = [] then _
      else decodeRequestStartLine { reqhdrNew with
        request := stripCr (x.requestLine ++ x.lineEnd.before) }, false) = _
    rw [stripCr_ended _ (requestLine_last x), if_neg hne]
  rw [feed_line rfl _ (requestLine_clean x), hcomplete]

/-- A header line with a value for the login. -/
def HeaderText.isAuthorization (h : HeaderText) : Bool :=
  eqIgnoreCase h.name (ascii "Authorization")

theorem headerLine_clean (h : HeaderText) : ∀ b ∈ h.line, b ∉ [lf, nul] := by
  intro b hb
  rcases List.mem_append.mp hb with hb | hb
  · exact fun hm => h.name_clean b hb (.tail _ hm)
  · rcases List.mem_cons.mp hb with rfl | hb
    · decide +kernel
    · exact h.value_clean b hb

theorem headerLine_last (h : HeaderText) : h.line.getLast? ≠ some cr := by
  unfold HeaderText.line
  by_cases hv : h.value = []
  · rw [hv, List.getLast?_append_of_ne_nil _ (List.cons_ne_nil _ _)]
    decide +kernel
  · rw [← List.singleton_append, ← List.append_assoc, List.getLast?_append_of_ne_nil _ hv]
    exact h.value_last

/-- What a complete header line makes of the header. -/
theorem reqhdrAddLine_text (req : RequestHeader) (h : HeaderText) :
    reqhdrAddLine cfg req h.line = (checkAuthorization cfg req h.name h.value >>= fun req =>
      if req.headers.length < maxHeaderCount
      then .ok { req with headers := req.headers ++ [(h.name, h.value)], current := [] }
      else .error .heapOverflow) := by
  have hclean : cstr h.line = h.line :=
    cstr_eq_self fun hm => headerLine_clean h nul hm (by decide +kernel)
  have hsplit : splitAtByte colon h.line = some (h.name, h.value) :=
    splitAtByte_append _ fun hm => h.name_clean colon hm (by simp)
  rw [reqhdrAddLine, hclean, hsplit]
  rfl

/-- The login check of a header line: only the first `Authorization` is looked at. -/
theorem checkAuthorization_text {hs : List HeaderText} {req : RequestHeader}
    (hread : ReadOf x hs req) (h : HeaderText) :
    checkAuthorization cfg req h.name h.value =
      if (∀ k ∈ hs, k.isAuthorization = false) ∧ h.isAuthorization = true then
        (authIsClientAuthorized cfg h.value x.method).map fun authorized =>
          { req with loginState := if authorized then .loggedIn else .loginFail }
      else .ok req := by
  unfold checkAuthorization
  by_cases hauth : (∀ k ∈ hs, k.isAuthorization = false) ∧ h.isAuthorization = true
  · rw [if_pos hauth, if_pos ⟨hread.login.mpr hauth.1, hauth.2⟩, reqhdrGetMethod, hread.request]
    cases authIsClientAuthorized cfg h.value x.method <;> rfl
  · rw [if_neg hauth, if_neg fun hl => hauth ⟨hread.login.mp hl.1, hl.2⟩]

/-- The digest of the first of the lines with a login, if no line before has one, can be
computed in its buffers. -/
def DigestFits (cfg : Config) (method : Bytes) (hs rest : List HeaderText) : Prop :=
  (∀ k ∈ hs, k.isAuthorization = false) → ∀ h, rest.find? (·.isAuthorization) = some h →
    ∃ b, authIsClientAuthorized cfg h.value method = .ok b

theorem reqhdrAddLine_read {hs : List HeaderText} {req req' : RequestHeader}
    (hread : ReadOf x hs req) {h : HeaderText} (hadd : reqhdrAddLine cfg req h.line = .ok req') :
    ReadOf x (hs ++ [h]) req' := by
  rw [reqhdrAddLine_text, checkAuthorization_text x hread] at hadd
  obtain ⟨req₁, hcheck, hadd⟩ := bind_ok hadd
  have hreq : req' = { req₁ with
      headers := req₁.headers ++ [(h.name, h.value)], current := [] } := by
    split at hadd
    · exact (Except.ok.inj hadd).symm
    · cases hadd
  subst hreq
  by_cases hauth : (∀ k ∈ hs, k.isAuthorization = false) ∧ h.isAuthorization = true
  · rw [if_pos hauth] at hcheck
    cases hb : authIsClientAuthorized cfg h.value x.method with
    | error f => rw [hb] at hcheck; cases hcheck
    | ok authorized =>
      rw [hb] at hcheck
      obtain rfl := (Except.ok.inj hcheck).symm
      constructor
      · exact hread.request
      · exact hread.path
      · exact hread.query
      · exact hread.version
      · simp [hread.headers]
      · rfl
      · constructor
        · intro hl
          cases authorized <;> cases hl
        · intro hnone
          have hfalse := hnone h (by simp)
          rw [show eqIgnoreCase h.name (ascii "Authorization") = true from hauth.2] at hfalse
          cases hfalse
  · rw [if_neg hauth] at hcheck
    obtain rfl := Except.ok.inj hcheck
    constructor
    · exact hread.request
    · exact hread.path
    · exact hread.query
    · exact hread.version
    · simp [hread.headers]
    · rfl
    · rw [hread.login]
      constructor
      · intro hnone k hk
        rcases List.mem_append.mp hk with hk | hk
        · exact hnone k hk
        · rw [List.mem_singleton.mp hk]
          by_contra htrue
          exact hauth ⟨hnone, by simpa [HeaderText.isAuthorization] using htrue⟩
      · exact fun hnone k hk => hnone k (List.mem_append_left _ hk)

theorem digestFits_cons_auth {method : Bytes} {hs rest : List HeaderText} {h : HeaderText}
    (hnone : ∀ k ∈ hs, k.isAuthorization = false) (hauth : h.isAuthorization = true) :
    DigestFits cfg method hs (h :: rest) ↔
      ∃ b, authIsClientAuthorized cfg h.value method = .ok b := by
  have hfind : (h :: rest).find? (·.isAuthorization) = some h := List.find?_cons_of_pos hauth
  constructor
  · exact fun hfits => hfits hnone h hfind
  · intro hb _ k hk
    obtain rfl : h = k := Option.some.inj (hfind.symm.trans hk)
    exact hb

theorem digestFits_append_auth {method : Bytes} {hs rest : List HeaderText} {h : HeaderText}
    (hauth : h.isAuthorization = true) : DigestFits cfg method (hs ++ [h]) rest := by
  intro hnone
  have hfalse := hnone h (by simp)
  rw [hauth] at hfalse
  cases hfalse

theorem digestFits_append {method : Bytes} {hs rest : List HeaderText} {h : HeaderText}
    (hauth : ¬ ((∀ k ∈ hs, k.isAuthorization = false) ∧ h.isAuthorization = true)) :
    DigestFits cfg method (hs ++ [h]) rest ↔ DigestFits cfg method hs (h :: rest) := by
  by_cases hnone : ∀ k ∈ hs, k.isAuthorization = false
  · have hfalse : h.isAuthorization = false := by
      by_contra htrue
      exact hauth ⟨hnone, by simpa using htrue⟩
    have hfind : (h :: rest).find? (·.isAuthorization) = rest.find? (·.isAuthorization) :=
      List.find?_cons_of_neg (by simp [hfalse])
    have hnone' : ∀ k ∈ hs ++ [h], k.isAuthorization = false := by
      intro k hk
      rcases List.mem_append.mp hk with hk | hk
      · exact hnone k hk
      · rw [List.mem_singleton.mp hk]; exact hfalse
    unfold DigestFits
    rw [hfind]
    exact ⟨fun hfits _ => hfits hnone', fun hfits _ => hfits hnone⟩
  · constructor
    · exact fun _ h' => absurd h' hnone
    · exact fun _ h' => absurd (fun k hk => h' k (List.mem_append_left _ hk)) hnone

theorem reqhdrAddLine_ok_iff (cfg : Config) {hs : List HeaderText} {req : RequestHeader}
    (hread : ReadOf x hs req) (h : HeaderText) (rest : List HeaderText) :
    ((∃ req', reqhdrAddLine cfg req h.line = .ok req') ∧
        DigestFits cfg x.method (hs ++ [h]) rest) ↔
      hs.length < maxHeaderCount ∧ DigestFits cfg x.method hs (h :: rest) := by
  have hlen : req.headers.length = hs.length := by rw [hread.headers, List.length_map]
  -- with the login checked, only the count of the lines matters
  have hcount : ∀ req₁ : RequestHeader, req₁.headers = req.headers →
      ((∃ req', (if req₁.headers.length < maxHeaderCount
        then .ok { req₁ with headers := req₁.headers ++ [(h.name, h.value)], current := [] }
        else .error .heapOverflow : Except Fault RequestHeader) = .ok req') ↔
          hs.length < maxHeaderCount) := by
    intro req₁ heq
    rw [heq, hlen]
    by_cases hc : hs.length < maxHeaderCount
    · rw [if_pos hc]; exact ⟨fun _ => hc, fun _ => ⟨_, rfl⟩⟩
    · rw [if_neg hc]
      constructor
      · rintro ⟨_, he⟩; cases he
      · exact fun hlt => absurd hlt hc
  rw [reqhdrAddLine_text, checkAuthorization_text x hread]
  by_cases hauth : (∀ k ∈ hs, k.isAuthorization = false) ∧ h.isAuthorization = true
  · rw [if_pos hauth, digestFits_cons_auth hauth.1 hauth.2]
    cases hb : authIsClientAuthorized cfg h.value x.method with
    | error f =>
      constructor
      · rintro ⟨⟨_, he⟩, -⟩; cases he
      · rintro ⟨-, b, he⟩; cases he
    | ok b =>
      have hc := hcount { req with loginState := if b then .loggedIn else .loginFail } rfl
      constructor
      · rintro ⟨hok, -⟩; exact ⟨hc.mp hok, b, rfl⟩
      · rintro ⟨hlt, -⟩; exact ⟨hc.mpr hlt, digestFits_append_auth hauth.2⟩
  · rw [if_neg hauth, digestFits_append hauth]
    exact and_congr_left fun _ => hcount req rfl

theorem reqhdr_complete_line {req : RequestHeader} {path : Bytes} (hpath : req.path = some path)
    (l : Bytes) :
    (reqhdrReader cfg).complete ((reqhdrReader cfg).setLine req l) =
      if cstr (stripCr l) = [] then .ok ({ req with current := stripCr l }, true)
      else (reqhdrAddLine cfg req (stripCr l)).map fun req => (req, false) := by
  have hset : (reqhdrReader cfg).setLine req l = { req with current := l } := by
    simp only [reqhdrReader, hpath]
  rw [hset, ← reqhdrAddLine_current cfg req l]
  simp only [reqhdrReader, hpath]

/-- The header lines and the empty line behind them. -/
theorem feed_headerTexts (cfg : Config) {hs : List HeaderText} (rest : List HeaderText)
    {req : RequestHeader} (hread : ReadOf x hs req) (lastEnd : LineEnd) :
    (∀ r, feed (reqhdrReader cfg).byte req (headerTexts rest lastEnd) = .ok r →
        r.2 = some [] ∧ ReadOf x (hs ++ rest) r.1) ∧
      ((∃ r, feed (reqhdrReader cfg).byte req (headerTexts rest lastEnd) = .ok r) ↔
        (∀ h ∈ rest, (h.line ++ h.lineEnd.before).length < uintSize - 1) ∧
          (rest = [] ∨ hs.length + rest.length ≤ maxHeaderCount) ∧
          DigestFits cfg x.method hs rest) := by
  induction rest generalizing hs req with
  | nil =>
    have hfresh : cstr ((reqhdrReader cfg).line req) = [] := by
      simp only [reqhdrReader, hread.path, hread.current]; rfl
    have hshort : ([] ++ lastEnd.before).length < uintSize - 1 := by cases lastEnd <;> decide
    have hstrip : stripCr ([] ++ lastEnd.before) = [] := by cases lastEnd <;> rfl
    have hfeed : feed (reqhdrReader cfg).byte req (headerTexts [] lastEnd) =
        .ok ({ req with current := [] }, some []) := by
      have hline := feed_line hfresh [] (by simp) lastEnd []
      rw [List.append_nil] at hline
      rw [headerTexts, List.flatMap_nil, List.nil_append, hline, if_pos hshort,
        reqhdr_complete_line hread.path, hstrip, if_pos (show cstr [] = [] from rfl)]
    rw [hfeed, List.append_nil]
    constructor
    · intro r hr
      obtain rfl := Except.ok.inj hr
      exact ⟨rfl, hread.request, hread.path, hread.query, hread.version, hread.headers, rfl,
        hread.login⟩
    · refine ⟨fun _ => ⟨nofun, .inl rfl, fun _ _ hn => nomatch hn⟩, fun _ => ⟨_, rfl⟩⟩
  | cons h rest ih =>
    have hfresh : cstr ((reqhdrReader cfg).line req) = [] := by
      simp only [reqhdrReader, hread.path, hread.current]; rfl
    have hne : ¬ cstr h.line = [] := by
      rw [cstr_eq_self fun hm => headerLine_clean h nul hm (by decide +kernel)]
      exact List.append_ne_nil_of_right_ne_nil _ (List.cons_ne_nil _ _)
    have htext : headerTexts (h :: rest) lastEnd =
        endedLine h.line h.lineEnd ++ headerTexts rest lastEnd := by
      rw [headerTexts, List.flatMap_cons, List.append_assoc]; rfl
    rw [htext, feed_line hfresh _ (headerLine_clean h), reqhdr_complete_line hread.path,
      stripCr_ended _ (headerLine_last h), if_neg hne]
    by_cases hlen : (h.line ++ h.lineEnd.before).length < uintSize - 1
    · rw [if_pos hlen]
      have hok := reqhdrAddLine_ok_iff x cfg hread h rest
      cases hadd : reqhdrAddLine cfg req h.line with
      | error f =>
        rw [hadd] at hok
        constructor
        · exact nofun
        · constructor
          · rintro ⟨r, hr⟩; cases hr
          · rintro ⟨-, hcount, hdigest⟩
            have hlt : hs.length < maxHeaderCount := by
              rcases hcount with hnil | hle
              · cases hnil
              · rw [List.length_cons] at hle; omega
            obtain ⟨⟨_, he⟩, -⟩ := hok.mpr ⟨hlt, hdigest⟩
            cases he
      | ok req' =>
        obtain ⟨hval, hiff⟩ := ih (reqhdrAddLine_read x hread hadd)
        rw [List.append_assoc] at hval
        refine ⟨hval, ?_⟩
        show (∃ r, feed (reqhdrReader cfg).byte req' (headerTexts rest lastEnd) = .ok r) ↔ _
        rw [hiff, List.length_append, List.length_singleton, List.length_cons]
        constructor
        · rintro ⟨hshort, hcount, hdigest⟩
          obtain ⟨hlt, hdigest'⟩ := hok.mp ⟨⟨req', hadd⟩, hdigest⟩
          refine ⟨?_, .inr ?_, hdigest'⟩
          · intro k hk
            rcases List.mem_cons.mp hk with rfl | hk
            · exact hlen
            · exact hshort k hk
          · rcases hcount with rfl | hle
            · rw [List.length_nil]; omega
            · omega
        · rintro ⟨hshort, hcount, hdigest⟩
          have hle : hs.length + (rest.length + 1) ≤ maxHeaderCount := by
            rcases hcount with hnil | hle
            · cases hnil
            · exact hle
          obtain ⟨-, hdigest'⟩ := hok.mpr ⟨by omega, hdigest⟩
          exact ⟨fun k hk => hshort k (.tail _ hk), .inr (by omega), hdigest'⟩
    · rw [if_neg hlen]
      constructor
      · exact nofun
      · constructor
        · rintro ⟨r, hr⟩; cases hr
        · exact fun hfits => absurd (hfits.1 h List.mem_cons_self) hlen

/-- The header fits into its buffers: the size of a line buffer, the number of the lines and
the sizes in the digest check do not wrap. -/
structure RequestText.Fits (cfg : Config) (x : RequestText) : Prop where
  requestLine : (x.requestLine ++ x.lineEnd.before).length < 2 ^ 32 - 1
  headerLines : ∀ h ∈ x.headers, (h.line ++ h.lineEnd.before).length < 2 ^ 32 - 1
  headerCount : x.headers.length ≤ maxHeaderCount
  digest : ∀ h, x.headers.find? (·.isAuthorization) = some h →
    ∃ b, authIsClientAuthorized cfg h.value x.method = .ok b

theorem feed_text (cfg : Config) :
    (∀ r, feed (reqhdrReader cfg).byte reqhdrNew x.bytes = .ok r →
        r.2 = some [] ∧ ReadOf x x.headers r.1) ∧
      ((∃ r, feed (reqhdrReader cfg).byte reqhdrNew x.bytes = .ok r) ↔ x.Fits cfg) := by
  obtain ⟨hval, hiff⟩ := feed_headerTexts x cfg x.headers (.requestLine x) x.lastEnd
  rw [RequestText.bytes, feed_emptyLines, feed_requestLine]
  by_cases hlen : (x.requestLine ++ x.lineEnd.before).length < uintSize - 1
  · rw [if_pos hlen]
    refine ⟨hval, hiff.trans ?_⟩
    rw [List.length_nil, Nat.zero_add]
    constructor
    · rintro ⟨hshort, hcount, hdigest⟩
      refine ⟨hlen, hshort, ?_, hdigest fun k hk => absurd hk List.not_mem_nil⟩
      rcases hcount with hnil | hle
      · rw [hnil]; exact Nat.zero_le _
      · exact hle
    · exact fun hfits => ⟨hfits.headerLines, .inr hfits.headerCount, fun _ => hfits.digest⟩
  · rw [if_neg hlen]
    constructor
    · exact nofun
    · constructor
      · rintro ⟨r, hr⟩; cases hr
      · exact fun hfits => absurd hfits.requestLine hlen

theorem bytes_nul : nul ∉ x.bytes := by
  have hended : ∀ {l : Bytes} (e : LineEnd), (∀ b ∈ l, b ∉ [lf, nul]) → nul ∉ endedLine l e := by
    intro l e hl hm
    simp only [endedLine, List.mem_append, List.mem_singleton] at hm
    rcases hm with (hm | hm) | hm
    · exact hl nul hm (by simp)
    · cases e with
      | lf => cases hm
      | crlf => exact absurd (List.mem_singleton.mp hm) (by decide)
    · exact absurd hm (by decide)
  have hempty : ∀ b ∈ ([] : Bytes), b ∉ [lf, nul] := fun b hb => absurd hb List.not_mem_nil
  intro hm
  simp only [RequestText.bytes, headerTexts, List.mem_append, List.mem_flatMap] at hm
  rcases hm with ⟨e, -, hm⟩ | hm | ⟨h, -, hm⟩ | hm
  · exact hended e hempty hm
  · exact hended x.lineEnd (requestLine_clean x) hm
  · exact hended h.lineEnd (headerLine_clean h) hm
  · exact hended x.lastEnd hempty hm

theorem feed_text_ends (req : RequestHeader) :
    feed (reqhdrReader cfg).byte reqhdrNew x.bytes ≠ .ok (req, none) := fun h =>
  nomatch (feed_text x cfg).1 _ h |>.1

/-- The getters give the parts of the text. -/
structure IsRead (req : RequestHeader) : Prop where
  method : reqhdrGetMethod req = x.method
  path : reqhdrGetPath req = x.path
  query : reqhdrGetQuery req = x.query
  version : reqhdrGetVersion req = x.version
  headers : ∀ i, reqhdrGetHeaderAt req i =
    x.headers[i]?.map fun h => (h.name, skipSpan blanks h.value)

theorem ReadOf.isRead {req : RequestHeader} (h : ReadOf x x.headers req) : IsRead x req where
  method := h.request
  path := by rw [reqhdrGetPath, h.path]; rfl
  query := h.query
  version := h.version
  headers i := by
    rw [reqhdrGetHeaderAt, h.headers, List.getElem?_map, Option.map_map]
    rfl

end Reading

section Example

/-- `GET /a b?q HTTP/1.1` with one header line, in mixed line ends. -/
def writtenRequest : RequestText where
  method := ascii "GET"
  path := ascii "/a b"
  escapedPath := ascii "/a%20b"
  query := some (ascii "q")
  version := ascii "1.1"
  headers := [⟨ascii "Host", ascii " x", .lf, by decide +kernel, by decide +kernel,
    by decide +kernel⟩]
  emptyLines := [.crlf]
  lineEnd := .crlf
  lastEnd := .lf
  method_clean := by decide +kernel
  path_escaped := .raw (by decide) (.raw (by decide) (.hex rfl rfl rfl (by decide)
    (.raw (by decide) .nil)))
  query_clean := by decide +kernel
  version_clean := by decide +kernel

/-- The same with a method of the given length. -/
def longMethod (n : Nat) : RequestText :=
  { writtenRequest with
    method := List.replicate n 65
    method_clean := by
      intro b hb
      rw [List.eq_of_mem_replicate hb]
      decide +kernel }

/-- What follows the method in the text. -/
def behindMethod : Bytes :=
  ascii " /a%20b?q HTTP/1.1" ++ crlf ++ ascii "Host: x" ++ [lf, lf]

theorem longMethod_bytes (n : Nat) :
    (longMethod n).bytes = crlf ++ (List.replicate n 65 ++ behindMethod) := by
  have hrest : (space :: (writtenRequest.escapedPath ++ (writtenRequest.queryText ++
      (ascii " HTTP/" ++ writtenRequest.version)))) ++ ([cr] ++ ([lf] ++
        headerTexts writtenRequest.headers .lf)) = behindMethod := by decide +kernel
  have hline : (longMethod n).requestLine = List.replicate n 65 ++
      (space :: (writtenRequest.escapedPath ++ (writtenRequest.queryText ++
        (ascii " HTTP/" ++ writtenRequest.version)))) := rfl
  have hend : (longMethod n).lineEnd.before = [cr] := rfl
  have hempty : (longMethod n).emptyLines.flatMap (endedLine []) = crlf := rfl
  have hheaders : headerTexts (longMethod n).headers (longMethod n).lastEnd =
      headerTexts writtenRequest.headers .lf := rfl
  rw [RequestText.bytes, hempty, hheaders, endedLine, hline, hend, ← hrest]
  simp only [List.append_assoc]

theorem longMethod_fits {n : Nat} (h : (longMethod n).Fits bareConfig) : n < 2 ^ 32 - 1 := by
  have hlen := h.requestLine
  have hmethod : (longMethod n).method.length = n := List.length_replicate
  rw [RequestText.requestLine, List.append_assoc, List.length_append, hmethod] at hlen
  omega

end Example

end FilemanagerHttpd.Audit
