import FilemanagerHttpd.Audit.UrlConfinement
import FilemanagerHttpd.Audit.HeaderAgreement

/-!
# Who decides the login

The lines of the trailer go to the same parser as those of the header. The first line with an
authorization decides the login state, and no line behind it changes what it decided.
-/

namespace FilemanagerHttpd.Audit

open Library Server

/-- What an authorization decides. -/
def loginByLine (cfg : Config) (method value : Bytes) : Except Fault LoginState :=
  (authIsClientAuthorized cfg value method).map fun authorized =>
    if authorized then .loggedIn else .loginFail

/-- What the first authorization among some header lines decides. -/
def loginBy (cfg : Config) (method : Bytes) (headers : List (Bytes × Bytes)) :
    Except Fault LoginState :=
  ((headers.find? fun line => isAuthorizationName line.1).map fun line =>
    loginByLine cfg method line.2).getD (.ok .loggedOut)

/-- The login state of a header is the one that its lines decide. -/
structure LoginDecided (cfg : Config) (req : RequestHeader) : Prop where
  first_line : req.path = none → req.headers = []
  decided : loginBy cfg req.request req.headers = .ok req.loginState

/-- A header that has got more lines. -/
structure MoreLines (req req' : RequestHeader) : Prop where
  path : req'.path = req.path
  request : req'.request = req.request
  headers : req.headers <+: req'.headers

variable {cfg : Config} {req req' : RequestHeader}

section Lines

theorem loginOf_ne {method value : Bytes} : loginByLine cfg method value ≠ .ok .loggedOut := by
  intro h
  unfold loginByLine at h
  cases ha : authIsClientAuthorized cfg value method with
  | error f =>
    rw [ha] at h
    cases h
  | ok authorized =>
    rw [ha] at h
    cases authorized <;> cases h

theorem loginBy_cons {method name value : Bytes} {headers : List (Bytes × Bytes)} :
    loginBy cfg method ((name, value) :: headers) =
      if isAuthorizationName name = true then loginByLine cfg method value
      else loginBy cfg method headers := by
  unfold loginBy
  rw [List.find?_cons]
  cases hname : isAuthorizationName name with
  | true => simp only [if_true, Option.map_some, Option.getD_some]
  | false => simp only [Bool.false_eq_true, if_false]

/-- Lines behind the one that decides do not matter. -/
theorem loginBy_append {method : Bytes} {headers : List (Bytes × Bytes)}
    (more : List (Bytes × Bytes)) {st : LoginState} (h : loginBy cfg method headers = .ok st) :
    loginBy cfg method (headers ++ more) =
      if st = .loggedOut then loginBy cfg method more else .ok st := by
  induction headers with
  | nil =>
    rw [if_pos (Except.ok.inj h).symm]
    rfl
  | cons line headers ih =>
    rw [List.cons_append, loginBy_cons]
    rw [loginBy_cons] at h
    by_cases hname : isAuthorizationName line.1 = true
    · rw [if_pos hname] at h ⊢
      rw [h, if_neg]
      rintro rfl
      exact loginOf_ne h
    · rw [if_neg hname] at h ⊢
      exact ih h

/-- The check of a line does what the line decides. -/
theorem checkAuthorization_login {name value : Bytes} {req₁ : RequestHeader}
    (hdecided : loginBy cfg req.request req.headers = .ok req.loginState)
    (h : checkAuthorization cfg req name value = .ok req₁) :
    ∃ st, loginBy cfg req.request (req.headers ++ [(name, value)]) = .ok st ∧
      req₁ = { req with loginState := st } := by
  rw [loginBy_append _ hdecided, loginBy_cons]
  unfold checkAuthorization at h
  by_cases hout : req.loginState = .loggedOut
  · rw [if_pos hout]
    by_cases hname : isAuthorizationName name = true
    · rw [if_pos ⟨hout, hname⟩] at h
      obtain ⟨authorized, hauth, h⟩ := bind_ok h
      refine ⟨_, ?_, (Except.ok.inj h).symm⟩
      rw [if_pos hname]
      show (authIsClientAuthorized cfg value (reqhdrGetMethod req)).map _ = _
      rw [hauth]
      rfl
    · rw [if_neg fun hb => hname hb.2] at h
      rw [if_neg hname]
      refine ⟨.loggedOut, rfl, ?_⟩
      rw [← Except.ok.inj h, ← hout]
  · rw [if_neg fun hb => hout hb.1] at h
    rw [if_neg hout]
    exact ⟨_, rfl, (Except.ok.inj h).symm⟩

/-- One complete line: the login state is still what the lines decide. -/
theorem reqhdrAddLine_login {line : Bytes} (hpath : req.path ≠ none)
    (hdecided : LoginDecided cfg req) (h : reqhdrAddLine cfg req line = .ok req') :
    LoginDecided cfg req' ∧ MoreLines req req' := by
  unfold reqhdrAddLine at h
  split at h
  · rw [← Except.ok.inj h]
    exact ⟨⟨hdecided.first_line, hdecided.decided⟩, rfl, rfl, List.prefix_rfl⟩
  · rename_i name value _
    obtain ⟨req₁, hcheck, h⟩ := bind_ok h
    obtain ⟨st, hst, rfl⟩ := checkAuthorization_login hdecided.decided hcheck
    split at h
    · rw [← Except.ok.inj h]
      exact ⟨⟨fun hnone => absurd hnone hpath, hst⟩, rfl, rfl, List.prefix_append _ _⟩
    · cases h

end Lines

section Calls

theorem MoreLines.refl (req : RequestHeader) : MoreLines req req := ⟨rfl, rfl, List.prefix_rfl⟩

theorem MoreLines.trans {req'' : RequestHeader} (h : MoreLines req req')
    (h' : MoreLines req' req'') : MoreLines req req'' :=
  ⟨h'.path.trans h.path, h'.request.trans h.request, h.headers.trans h'.headers⟩

theorem decodeRequestStartLine_lines (req : RequestHeader) :
    (decodeRequestStartLine req).headers = req.headers ∧
      (decodeRequestStartLine req).loginState = req.loginState ∧
      (decodeRequestStartLine req).path ≠ none := by
  unfold decodeRequestStartLine
  split
  · exact ⟨rfl, rfl, Option.some_ne_none _⟩
  · split
    · exact ⟨rfl, rfl, Option.some_ne_none _⟩
    · exact ⟨rfl, rfl, Option.some_ne_none _⟩

/-- A header without lines is decided when nobody has logged in. -/
theorem loginDecided_nil (hheaders : req.headers = []) (hlogin : req.loginState = .loggedOut) :
    LoginDecided cfg req := by
  refine ⟨fun _ => hheaders, ?_⟩
  rw [hheaders, hlogin]
  rfl

theorem LoginDecided.loggedOut (hdecided : LoginDecided cfg req) (hpath : req.path = none) :
    req.loginState = .loggedOut := by
  have h := hdecided.decided
  rw [hdecided.first_line hpath] at h
  exact (Except.ok.inj h).symm

theorem reqhdrAppendLoop_login {n : Nat} {bol : Bytes} {rest : Option Bytes}
    (hdecided : LoginDecided cfg req)
    (h : reqhdrAppendLoop cfg n req bol = .ok (req', rest)) :
    LoginDecided cfg req' ∧ (req.path ≠ none → MoreLines req req') := by
  induction n generalizing req bol with
  | zero =>
    obtain ⟨rfl, -⟩ := Prod.mk.inj (Except.ok.inj h)
    exact ⟨hdecided, fun _ => .refl _⟩
  | succ n ih =>
    rw [reqhdrAppendLoop] at h
    split at h
    · obtain ⟨rfl, -⟩ := Prod.mk.inj (Except.ok.inj h)
      exact ⟨hdecided, fun _ => .refl _⟩
    split at h
    -- the request line
    · rename_i hpath _
      obtain ⟨line, -, h⟩ := bind_ok h
      obtain ⟨rfl, -⟩ := Prod.mk.inj (Except.ok.inj h)
      exact ⟨loginDecided_nil (hdecided.first_line hpath) (hdecided.loggedOut hpath),
        fun hne => absurd hpath hne⟩
    · rename_i piece rest' hpath _
      obtain ⟨line, -, h⟩ := bind_ok h
      have hheaders := hdecided.first_line hpath
      have hlogin := hdecided.loggedOut hpath
      simp only at h
      split at h
      · have hstep : LoginDecided cfg { req with request := stripCr line } :=
          loginDecided_nil hheaders hlogin
        exact ⟨(ih hstep h).1, fun hne => absurd hpath hne⟩
      · have hdecode := decodeRequestStartLine_lines { req with request := stripCr line }
        have hstep : LoginDecided cfg _ :=
          loginDecided_nil (hdecode.1.trans hheaders) (hdecode.2.1.trans hlogin)
        exact ⟨(ih hstep h).1, fun hne => absurd hpath hne⟩
    -- a header line
    · obtain ⟨line, -, h⟩ := bind_ok h
      obtain ⟨rfl, -⟩ := Prod.mk.inj (Except.ok.inj h)
      exact ⟨⟨hdecided.first_line, hdecided.decided⟩, fun _ => ⟨rfl, rfl, List.prefix_rfl⟩⟩
    · rename_i p piece rest' hpath _
      have hne : req.path ≠ none := by
        rw [hpath]
        exact Option.some_ne_none p
      obtain ⟨line, -, h⟩ := bind_ok h
      split at h
      · obtain ⟨rfl, -⟩ := Prod.mk.inj (Except.ok.inj h)
        exact ⟨⟨hdecided.first_line, hdecided.decided⟩, fun _ => ⟨rfl, rfl, List.prefix_rfl⟩⟩
      · obtain ⟨req₁, hadd, h⟩ := bind_ok h
        obtain ⟨hdecided₁, hmore⟩ := reqhdrAddLine_login hne hdecided hadd
        obtain ⟨hdecided', hmore'⟩ := ih hdecided₁ h
        exact ⟨hdecided', fun _ => hmore.trans (hmore' (hmore.path ▸ hne))⟩

theorem reqhdrAppendData_login {data : Bytes} {offset : Option Nat}
    (hdecided : LoginDecided cfg req)
    (h : reqhdrAppendData cfg req data = .ok (req', offset)) :
    LoginDecided cfg req' ∧ (req.path ≠ none → MoreLines req req') := by
  obtain ⟨r, hloop, h⟩ := bind_ok h
  obtain ⟨rfl, -⟩ := Prod.mk.inj (Except.ok.inj h)
  exact reqhdrAppendLoop_login hdecided hloop

end Calls

/-- What the parser makes of a header when it gets more pieces, whatever it returns for each. -/
inductive Appended (cfg : Config) (req : RequestHeader) : RequestHeader → Prop
  | refl : Appended cfg req req
  | append {req₁ req' : RequestHeader} {data : Bytes} {offset : Option Nat} :
      Appended cfg req req₁ → reqhdrAppendData cfg req₁ data = .ok (req', offset) →
      Appended cfg req req'

theorem HeaderRead.loginDecided (h : HeaderRead cfg req) : LoginDecided cfg req := by
  induction h with
  | new => exact loginDecided_nil rfl rfl
  | append _ happ ih => exact (reqhdrAppendData_login ih happ).1

theorem Appended.more (h : Appended cfg req req') (hread : HeaderRead cfg req)
    (hpath : req.path ≠ none) : HeaderRead cfg req' ∧ MoreLines req req' := by
  induction h with
  | refl => exact ⟨hread, .refl _⟩
  | append _ happ ih =>
    obtain ⟨hread₁, hmore₁⟩ := ih
    have hmore := (reqhdrAppendData_login hread₁.loginDecided happ).2 (hmore₁.path ▸ hpath)
    exact ⟨hread₁.append happ, hmore₁.trans hmore⟩

/-- Whatever follows a request line, the login state is the one that the first authorization
decides. A trailer decides only where the header has none, and it takes no permission away. -/
theorem login_decided_by_first (hread : HeaderRead cfg req) (hpath : req.path ≠ none)
    (happended : Appended cfg req req') :
    ∃ added, req'.headers = req.headers ++ added ∧
      loginBy cfg req'.request req'.headers = .ok req'.loginState ∧
      (req.loginState ≠ .loggedOut → req'.loginState = req.loginState) ∧
      (req.loginState = .loggedOut → loginBy cfg req.request added = .ok req'.loginState) ∧
      ∀ pa, reqhdrIsActionAllowed cfg req pa = true →
        reqhdrIsActionAllowed cfg req' pa = true := by
  obtain ⟨hread', hmore⟩ := happended.more hread hpath
  obtain ⟨added, hadded⟩ := hmore.headers
  have hdecided' := hread'.loginDecided.decided
  have happend := loginBy_append added hread.loginDecided.decided
  rw [hadded, ← hmore.request, hdecided'] at happend
  refine ⟨added, hadded.symm, hdecided', fun hin => ?_, fun hout => ?_, fun pa hallowed => ?_⟩
  · rw [if_neg hin] at happend
    exact Except.ok.inj happend
  · rw [if_pos hout] at happend
    rw [← hmore.request]
    exact happend.symm
  · unfold reqhdrIsActionAllowed at hallowed ⊢
    by_cases hout : req.loginState = .loggedOut
    · rw [hout] at hallowed
      exact configIsActionAllowed_mono hallowed
    · rw [if_neg hout] at happend
      rw [Except.ok.inj happend]
      exact hallowed

section Example

/-- A form without an authorization, and an authorization in its trailer. -/
theorem login_decided_by_first_trailer :
    ∃ req, reqhdrAppendData oneShare reqhdrNew (ascii "POST / HTTP/1.1" ++ crlf ++ crlf) =
        .ok (req, some 19) ∧
      req.loginState = .loggedOut ∧
      ∃ req', reqhdrAppendData oneShare req (ascii "Authorization: Basic eDp5" ++ crlf ++ crlf) =
          .ok (req', some 29) ∧
        req'.loginState = .loginFail ∧
        ∃ added, req'.headers = req.headers ++ added ∧
          loginBy oneShare req.request added = .ok req'.loginState := by
  let head : RequestHeader :=
    { reqhdrNew with
      request := ascii "POST", path := some (ascii "/"), version := ascii "1.1" }
  let full : RequestHeader :=
    { head with
      headers := [(ascii "Authorization", ascii " Basic eDp5")], loginState := .loginFail }
  have hhead : reqhdrAppendData oneShare reqhdrNew (ascii "POST / HTTP/1.1" ++ crlf ++ crlf) =
      .ok (head, some 19) := by decide +kernel
  have hfull : reqhdrAppendData oneShare head
      (ascii "Authorization: Basic eDp5" ++ crlf ++ crlf) = .ok (full, some 29) := by
    decide +kernel
  obtain ⟨added, hadded, -, -, hlogin, -⟩ := login_decided_by_first (.append .new hhead)
    (Option.some_ne_none _) (.append .refl hfull)
  exact ⟨head, hhead, rfl, full, hfull, rfl, added, hadded, hlogin rfl⟩

end Example

end FilemanagerHttpd.Audit
