import FilemanagerHttpd.Audit.HeaderLines
import FilemanagerHttpd.Audit.Texts
import FilemanagerHttpd.Server.Environment

/-!
# The two header parsers side by side

`datahdr_appendData` and the part of `reqhdr_appendData` behind the request line collect the same
lines. They differ in the type of their counter, and the one for requests checks the authorization.
-/

namespace FilemanagerHttpd.Audit

open Library Server

def isAuthorizationName (name : Bytes) : Bool := eqIgnoreCase name (ascii "Authorization")

/-- The parser for requests gets through the lines of a piece, of which the last one is still open:
no line is too long, its counter counts them, and the authorization can be checked. What follows
the empty line is not read. -/
def ClearLines (cfg : Config) (method : Bytes) : Nat → Bool → List Bytes → Prop
  | _, _, [] => True
  | _, _, [rest] => rest.length + 1 < uintSize
  | count, loggedOut, line :: next :: lines =>
    line.length + 1 < uintSize ∧ (cstr (stripCr line) = [] ∨
      match splitAtByte colon (cstr (stripCr line)) with
      | none => ClearLines cfg method count loggedOut (next :: lines)
      | some (name, value) => count < maxHeaderCount ∧
        (loggedOut = true → isAuthorizationName name = true →
          ∃ b, authIsClientAuthorized cfg value method = .ok b) ∧
        ClearLines cfg method (count + 1) (loggedOut && ! isAuthorizationName name)
          (next :: lines))

/-- The condition for one call, on the state before it and the piece. -/
def ClearCall (cfg : Config) (req : RequestHeader) (piece : Bytes) : Prop :=
  ClearLines cfg req.request req.headers.length (req.loginState == .loggedOut)
    (heldLines req.current piece)

/-- The same condition for every call until the end of the header is reported. -/
def ClearCalls (cfg : Config) : RequestHeader → List Bytes → Prop
  | _, [] => True
  | req, piece :: pieces => ClearCall cfg req piece ∧
    ∀ req', reqhdrAppendData cfg req piece = .ok (req', none) → ClearCalls cfg req' pieces

/-- Call by call both parsers return the same and hold the same lines, until the end is reported. -/
def AgreeCalls (cfg : Config) : RequestHeader → DataHeader → List Bytes → Prop
  | _, _, [] => True
  | req, hdr, piece :: pieces => ∃ req' hdr' res,
    reqhdrAppendData cfg req piece = .ok (req', res) ∧
    datahdrAppendData hdr piece = .ok (hdr', res) ∧
    req'.headers.length = hdr'.lines.length ∧ req'.headers = hdr'.lines ∧
    (∀ name, reqhdrGetHeaderVal req' name = datahdrGetHeaderVal hdr' name) ∧
    (res = none → AgreeCalls cfg req' hdr' pieces)

/-- Both parsers are at the same place of the same lines. -/
structure SameLines (req : RequestHeader) (hdr : DataHeader) : Prop where
  past_request : req.path ≠ none
  lines : req.headers = hdr.lines
  current : req.current = hdr.current
  short : (cstr req.current).length + 1 < uintSize

section Steps

variable {cfg : Config} {req : RequestHeader} {hdr : DataHeader}

theorem heldLines_ne_nil (line text : Bytes) : heldLines line text ≠ [] := by
  rw [heldLines]
  have h := List.splitOn_ne_nil (10 : UInt8) text
  cases hs : text.splitOn 10 with
  | nil => exact absurd hs h
  | cons l ls => exact List.cons_ne_nil _ _

/-- The check changes the login state only, and not to logged out. -/
theorem checkAuthorization_cases (cfg : Config) (req : RequestHeader) (name value : Bytes) :
    (∃ login, checkAuthorization cfg req name value = .ok { req with loginState := login } ∧
      (login == .loggedOut) = ((req.loginState == .loggedOut) && ! isAuthorizationName name) ∧
      ((req.loginState == .loggedOut) = true → isAuthorizationName name = true →
        ∃ b, authIsClientAuthorized cfg value req.request = .ok b)) ∨
    (∃ f, checkAuthorization cfg req name value = .error f) ∧
      (req.loginState == .loggedOut) = true ∧ isAuthorizationName name = true ∧
      ¬ ∃ b, authIsClientAuthorized cfg value req.request = .ok b := by
  by_cases hauth : req.loginState = .loggedOut ∧ eqIgnoreCase name (ascii "Authorization") = true
  · have hname : isAuthorizationName name = true := hauth.2
    have hout : (req.loginState == .loggedOut) = true := by rw [hauth.1]; rfl
    have hrun : checkAuthorization cfg req name value =
        (authIsClientAuthorized cfg value req.request).map fun authorized =>
          { req with loginState := if authorized then .loggedIn else .loginFail } := by
      rw [checkAuthorization, if_pos hauth, reqhdrGetMethod]
      cases authIsClientAuthorized cfg value req.request <;> rfl
    rw [hrun]
    cases hb : authIsClientAuthorized cfg value req.request with
    | error f =>
      refine .inr ⟨⟨f, rfl⟩, hout, hname, ?_⟩
      rintro ⟨b, hok⟩
      cases hok
    | ok b =>
      refine .inl ⟨_, rfl, ?_, fun _ _ => ⟨b, rfl⟩⟩
      rw [hname, Bool.not_true, Bool.and_false]
      cases b <;> rfl
  · left
    refine ⟨req.loginState, by rw [checkAuthorization, if_neg hauth], ?_, ?_⟩
    · cases hname : isAuthorizationName name with
      | false => simp
      | true =>
        have hout : req.loginState ≠ .loggedOut := fun h => hauth ⟨h, hname⟩
        simp [hout]
    · intro hout hname
      exact absurd ⟨by simpa using hout, hname⟩ hauth

/-- A complete line that is not empty, for both parsers. -/
theorem addLine_same (h : SameLines req hdr) {line : Bytes} (hne : cstr (stripCr line) ≠ [])
    {next : Bytes} {lines : List Bytes} (hlen : line.length + 1 < uintSize) :
    (∃ req' hdr', reqhdrAddLine cfg req (stripCr line) = .ok req' ∧
      datahdrAddLine hdr (stripCr line) = .ok hdr' ∧ SameLines req' hdr' ∧ req'.current = [] ∧
      (ClearLines cfg req.request req.headers.length (req.loginState == .loggedOut)
          (line :: next :: lines) ↔
        ClearLines cfg req'.request req'.headers.length (req'.loginState == .loggedOut)
          (next :: lines))) ∨
    (∃ f, reqhdrAddLine cfg req (stripCr line) = .error f) ∧
      ¬ ClearLines cfg req.request req.headers.length (req.loginState == .loggedOut)
        (line :: next :: lines) := by
  rw [ClearLines, reqhdrAddLine, datahdrAddLine]
  simp only [hlen, hne, true_and, false_or]
  cases hsplit : splitAtByte colon (cstr (stripCr line)) with
  | none =>
    exact .inl ⟨_, _, rfl, rfl, ⟨h.past_request, h.lines, rfl, show 0 + 1 < uintSize by decide⟩,
      rfl, Iff.rfl⟩
  | some p =>
    obtain ⟨name, value⟩ := p
    dsimp only
    rcases checkAuthorization_cases cfg req name value with
      ⟨login, hcheck, hlogin, hauth⟩ | ⟨⟨f, hcheck⟩, hout, hname, hfault⟩
    · rw [hcheck]
      by_cases hcount : req.headers.length < maxHeaderCount
      · left
        have hcount' : hdr.lines.length < maxLineCount := by
          rw [← h.lines]
          have hmax : maxHeaderCount ≤ maxLineCount := by decide
          omega
        refine ⟨{ req with
            loginState := login, headers := req.headers ++ [(name, value)], current := [] },
          ⟨hdr.lines ++ [(name, value)], []⟩, if_pos hcount, if_pos hcount',
          ⟨h.past_request, by rw [h.lines], rfl, show 0 + 1 < uintSize by decide⟩, rfl, ?_⟩
        show _ ↔ ClearLines cfg req.request (req.headers ++ [(name, value)]).length _ _
        rw [List.length_append, List.length_singleton, hlogin]
        exact ⟨fun hclear => hclear.2.2, fun hclear => ⟨hcount, hauth, hclear⟩⟩
      · right
        exact ⟨⟨.heapOverflow, if_neg hcount⟩, fun hclear => hcount hclear.1⟩
    · right
      rw [hcheck]
      exact ⟨⟨f, rfl⟩, fun hclear => hfault (hclear.2.1 hout hname)⟩

theorem length_cstr_le (s : Bytes) : (cstr s).length ≤ s.length :=
  (List.takeWhile_sublist _).length_le

theorem extendLine_ok {line piece : Bytes} (h : (cstr line ++ piece).length + 1 < uintSize) :
    extendLine line piece = .ok (cstr line ++ piece) := by
  rw [List.length_append] at h
  exact if_pos h

theorem extendLine_error {line piece : Bytes} (h : ¬ (cstr line ++ piece).length + 1 < uintSize) :
    extendLine line piece = .error .heapOverflow := by
  rw [List.length_append] at h
  exact if_neg h

/-- A round of the loop behind the request line. -/
theorem reqhdrAppendLoop_headers (n : Nat) {bol : Bytes} (hpath : req.path ≠ none)
    (hnil : bol ≠ []) : reqhdrAppendLoop cfg (n + 1) req bol = (match splitAtByte lf bol with
      | none => do
        let line ← extendLine req.current bol
        return ({ req with current := line }, none)
      | some (piece, rest) => do
        let line ← extendLine req.current piece
        if cstr (stripCr line) = [] then
          return ({ req with current := stripCr line }, some rest)
        else
          let req ← reqhdrAddLine cfg req (stripCr line)
          reqhdrAppendLoop cfg n req rest) := by
  obtain ⟨request, path, query, version, headers, current, loginState⟩ := req
  cases path with
  | none => exact absurd rfl hpath
  | some path =>
    rw [reqhdrAppendLoop, if_neg hnil]
    cases splitAtByte lf bol <;> rfl

/-- The loops of both parsers, by the number of bytes that are left. -/
theorem appendLoop_same {n : Nat} {bol : Bytes} (hn : bol.length ≤ n) (h : SameLines req hdr) :
    (ClearLines cfg req.request req.headers.length (req.loginState == .loggedOut)
        (heldLines req.current bol) ∧
      ∃ req' hdr' rest, reqhdrAppendLoop cfg n req bol = .ok (req', rest) ∧
        datahdrAppendLoop n hdr bol = .ok (hdr', rest) ∧ SameLines req' hdr') ∨
    ¬ ClearLines cfg req.request req.headers.length (req.loginState == .loggedOut)
        (heldLines req.current bol) ∧
      ∃ f, reqhdrAppendLoop cfg n req bol = .error f := by
  induction n generalizing bol req hdr with
  | zero =>
    obtain rfl := List.length_eq_zero_iff.mp (Nat.le_zero.mp hn)
    left
    refine ⟨?_, req, hdr, none, rfl, rfl, h⟩
    rw [heldLines_open _ (List.not_mem_nil), ClearLines, List.append_nil]
    exact h.short
  | succ n ih =>
    by_cases hnil : bol = []
    · left
      subst hnil
      refine ⟨?_, req, hdr, none, by rw [reqhdrAppendLoop, if_pos rfl],
        by rw [datahdrAppendLoop, if_pos rfl], h⟩
      rw [heldLines_open _ (List.not_mem_nil), ClearLines, List.append_nil]
      exact h.short
    rw [reqhdrAppendLoop_headers n h.past_request hnil, datahdrAppendLoop, if_neg hnil, ← h.current]
    cases hsplit : splitAtByte lf bol with
    | none =>
      rw [heldLines_open _ (not_mem_of_splitAtByte hsplit), ClearLines]
      by_cases hlen : (cstr req.current ++ bol).length + 1 < uintSize
      · left
        refine ⟨hlen, { req with current := cstr req.current ++ bol },
          { hdr with current := cstr req.current ++ bol }, none, ?_, ?_, h.past_request, h.lines,
          rfl, ?_⟩
        · dsimp only
          rw [extendLine_ok hlen]
          rfl
        · dsimp only
          rw [extendLine_ok hlen]
          rfl
        · have hle := length_cstr_le (cstr req.current ++ bol)
          show (cstr (cstr req.current ++ bol)).length + 1 < uintSize
          omega
      · right
        refine ⟨hlen, .heapOverflow, ?_⟩
        dsimp only
        rw [extendLine_error hlen]
        rfl
    | some p =>
      obtain ⟨piece, rest⟩ := p
      obtain ⟨hpiece, rfl⟩ := splitAtByte_eq hsplit
      rw [List.length_append, List.length_cons] at hn
      obtain ⟨next, lines, hnext⟩ := List.exists_cons_of_ne_nil (heldLines_ne_nil [] rest)
      have hheld : heldLines req.current (piece ++ lf :: rest) =
          (cstr req.current ++ piece) :: next :: lines := by
        rw [← hnext]
        exact heldLines_line _ _ hpiece
      rw [hheld]
      dsimp only
      generalize hline : cstr req.current ++ piece = line
      by_cases hlen : line.length + 1 < uintSize
      · rw [extendLine_ok (hline ▸ hlen), hline]
        by_cases hend : cstr (stripCr line) = []
        · left
          refine ⟨by rw [ClearLines]; exact ⟨hlen, .inl hend⟩, { req with current := stripCr line },
            { hdr with current := stripCr line }, some rest, if_pos hend, if_pos hend,
            h.past_request, h.lines, rfl, ?_⟩
          show (cstr (stripCr line)).length + 1 < uintSize
          rw [hend]
          decide
        · rcases addLine_same h hend hlen with
            ⟨req', hdr', hreq, hhdr, hsame, hcur, hclear⟩ | ⟨⟨f, hreq⟩, hclear⟩
          · have hrest := ih (show rest.length ≤ n by omega) hsame
            rw [hcur, hnext] at hrest
            rw [hclear]
            rcases hrest with ⟨hclear', req'', hdr'', r, hreq', hhdr', hsame'⟩ | ⟨hclear', f, hreq'⟩
            · left
              refine ⟨hclear', req'', hdr'', r, ?_, ?_, hsame'⟩
              · show (if cstr (stripCr line) = [] then _ else _ :
                  Except Fault (RequestHeader × Option Bytes)) = _
                rw [if_neg hend, hreq]
                exact hreq'
              · show (if cstr (stripCr line) = [] then _ else _ :
                  Except Fault (DataHeader × Option Bytes)) = _
                rw [if_neg hend, hhdr]
                exact hhdr'
            · right
              refine ⟨hclear', f, ?_⟩
              show (if cstr (stripCr line) = [] then _ else _ :
                Except Fault (RequestHeader × Option Bytes)) = _
              rw [if_neg hend, hreq]
              exact hreq'
          · right
            refine ⟨hclear, f, ?_⟩
            show (if cstr (stripCr line) = [] then _ else _ :
              Except Fault (RequestHeader × Option Bytes)) = _
            rw [if_neg hend, hreq]
            rfl
      · right
        refine ⟨?_, .heapOverflow, ?_⟩
        · rw [ClearLines]
          exact fun hclear => hlen hclear.1
        · rw [extendLine_error (hline ▸ hlen)]
          rfl

theorem appendData_same (h : SameLines req hdr) (piece : Bytes) :
    (ClearCall cfg req piece ∧
      ∃ req' hdr' res, reqhdrAppendData cfg req piece = .ok (req', res) ∧
        datahdrAppendData hdr piece = .ok (hdr', res) ∧ SameLines req' hdr') ∨
    ¬ ClearCall cfg req piece ∧ ∃ f, reqhdrAppendData cfg req piece = .error f := by
  have hloop := @appendLoop_same cfg req hdr piece.length piece (le_refl _) h
  obtain ⟨hclear, req', hdr', rest, hreq, hhdr, hsame⟩ | ⟨hclear, f, hreq⟩ := hloop
  · left
    refine ⟨hclear, req', hdr', rest.map fun r => piece.length - r.length, ?_, ?_, hsame⟩
    · rw [reqhdrAppendData, hreq]
      rfl
    · rw [datahdrAppendData, hhdr]
      rfl
  · right
    refine ⟨hclear, f, ?_⟩
    rw [reqhdrAppendData, hreq]
    rfl

/-- The same lines have the same values. -/
theorem SameLines.value (h : SameLines req hdr) (name : Bytes) :
    reqhdrGetHeaderVal req name = datahdrGetHeaderVal hdr name := by
  rw [reqhdrGetHeaderVal, datahdrGetHeaderVal, h.lines]

theorem agreeCalls_iff (h : SameLines req hdr) (pieces : List Bytes) :
    AgreeCalls cfg req hdr pieces ↔ ClearCalls cfg req pieces := by
  induction pieces generalizing req hdr with
  | nil => exact Iff.rfl
  | cons piece pieces ih =>
    rw [AgreeCalls, ClearCalls]
    rcases @appendData_same cfg req hdr h piece with
      ⟨hclear, req', hdr', res, hreq, hhdr, hsame⟩ | ⟨hclear, f, hreq⟩
    · constructor
      · rintro ⟨req₁, hdr₁, res₁, hreq₁, hhdr₁, -, -, -, hrest⟩
        refine ⟨hclear, fun req₂ hreq₂ => ?_⟩
        obtain ⟨rfl, rfl⟩ := Prod.mk.inj (Except.ok.inj (hreq₁.symm.trans hreq₂))
        obtain ⟨rfl, rfl⟩ := Prod.mk.inj (Except.ok.inj (hreq₁.symm.trans hreq))
        obtain ⟨rfl, -⟩ := Prod.mk.inj (Except.ok.inj (hhdr₁.symm.trans hhdr))
        exact (ih hsame).mp (hrest rfl)
      · rintro ⟨-, hrest⟩
        refine ⟨req', hdr', res, hreq, hhdr, by rw [hsame.lines], hsame.lines, hsame.value, ?_⟩
        rintro rfl
        exact (ih hsame).mpr (hrest req' hreq)
    · constructor
      · rintro ⟨req₁, hdr₁, res₁, hreq₁, -⟩
        rw [hreq] at hreq₁
        cases hreq₁
      · rintro ⟨hclear', -⟩
        exact absurd hclear' hclear

end Steps

/-- A request header whose request line has just been completed. -/
def afterRequestLine (request path : Bytes) (query : Option Bytes) (version : Bytes)
    (loginState : LoginState) : RequestHeader where
  request := request
  path := some path
  query := query
  version := version
  headers := []
  current := []
  loginState := loginState

theorem sameLines_fresh (request path : Bytes) (query : Option Bytes) (version : Bytes)
    (loginState : LoginState) :
    SameLines (afterRequestLine request path query version loginState) datahdrNew :=
  ⟨nofun, rfl, rfl, show 0 + 1 < uintSize by decide⟩

/-- **The parsers agree call by call until the end of the header, exactly while the lines are short
enough for both, the counter of the request header counts them and the authorization can be
checked.** -/
theorem header_parsers_agree_iff (cfg : Config) (request path : Bytes) (query : Option Bytes)
    (version : Bytes) (loginState : LoginState) (pieces : List Bytes) :
    AgreeCalls cfg (afterRequestLine request path query version loginState) datahdrNew pieces ↔
      ClearCalls cfg (afterRequestLine request path query version loginState) pieces :=
  agreeCalls_iff (sameLines_fresh request path query version loginState) pieces

/-- Lines that are nothing but a colon. -/
def colonLines (n : Nat) : Bytes := (List.replicate n [colon, lf]).flatten

theorem heldLines_colonLines (n : Nat) :
    heldLines [] (colonLines n) = List.replicate n [colon] ++ [[]] := by
  induction n with
  | zero => rfl
  | succ n ih =>
    have hcons : colonLines (n + 1) = [colon] ++ 10 :: colonLines n := by
      rw [colonLines, List.replicate_succ, List.flatten_cons]
      rfl
    rw [hcons, heldLines_line _ _ (by decide), ih]
    rfl

/-- Each of them is counted. -/
theorem clearLines_colonLines {cfg : Config} {method : Bytes} (n : Nat) :
    ∀ {count : Nat} {loggedOut : Bool}, count ≤ maxHeaderCount →
      ClearLines cfg method count loggedOut (List.replicate n [colon] ++ [[]]) →
      count + n ≤ maxHeaderCount := by
  induction n with
  | zero =>
    intro count _ hcount _
    exact hcount
  | succ n ih =>
    intro count loggedOut _ hclear
    obtain ⟨next, lines, hnext⟩ : ∃ next lines,
        List.replicate n [colon] ++ [[]] = next :: lines := List.exists_cons_of_ne_nil (by simp)
    rw [List.replicate_succ, List.cons_append, hnext, ClearLines, ← hnext] at hclear
    rcases hclear.2 with hend | ⟨hmore, -, hrest⟩
    · exact absurd hend (by decide)
    · have := ih (by omega) hrest
      omega

/-- Behind the request line, 2^31 - 1 header lines are one too many for one parser. -/
theorem header_parsers_differ :
    ∃ req, reqhdrAppendData bareConfig reqhdrNew (ascii "GET / HTTP/1.1\n") = .ok (req, none) ∧
      ¬ AgreeCalls bareConfig req datahdrNew [colonLines (2 ^ 31 - 1)] := by
  refine ⟨afterRequestLine (ascii "GET") [slash] none (ascii "1.1") .loggedOut,
    by decide +kernel, ?_⟩
  rw [agreeCalls_iff (sameLines_fresh _ _ _ _ _)]
  rintro ⟨hclear, -⟩
  have hheld := heldLines_colonLines (2 ^ 31 - 1)
  rw [ClearCall, show (afterRequestLine (ascii "GET") [slash] none (ascii "1.1") .loggedOut).current
    = [] from rfl, hheld] at hclear
  have hcount := clearLines_colonLines (2 ^ 31 - 1) (Nat.zero_le _) hclear
  have hmax : maxHeaderCount = 2 ^ 31 - 2 := rfl
  omega

end FilemanagerHttpd.Audit
