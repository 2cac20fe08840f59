import FilemanagerHttpd.Server.Memory

/-!
# The configuration: shares, CGI patterns, permissions and credentials

The parsed options are a record that every function takes as an argument. The
record also holds what the C library decides: `fnmatch`, `strcoll`, the texts of
`strerror`, and the digest function.
-/

namespace FilemanagerHttpd.Server

/-- The values of `errno` that the source tells apart. -/
inductive Errno
  | wouldBlock | connReset | pipe | noEnt | notDir | isDir | exist | perm | acces
  | other (n : Nat)
  deriving DecidableEq, Repr

inductive DirectoryOps
  | none | file | listing | all
  deriving DecidableEq, Repr

inductive PrivilegedAction
  | servePage | listFolder | modify
  deriving DecidableEq, Repr

structure Share where
  urlpath : Bytes
  syspath : Bytes
  deriving DecidableEq, Repr

/-- One line of a configuration file, if it defines a share. -/
def shareOfLine (line : Bytes) : Option Share :=
  let value := dchTrimWS (cstr line)
  if value = [] ∨ value.head? = some hash then none
  else match dchExtractTillChrStripWS value equalsSign with
    | (false, _, _) => none
    | (true, name, value) =>
      if name.head? = some slash then
        some ⟨dchTrimTrailing name slash, dchTrimTrailing value slash⟩
      else none

/-- The shares of all configuration lines; `htmlDir` is the macro `HTMLDIR`. -/
def configParseShares (htmlDir : Bytes) (lines : List Bytes) : List Share :=
  match lines.filterMap shareOfLine with
  | [] => [⟨[], htmlDir ++ ascii "/welcome.html"⟩]
  | shares => shares

/-- The flags of the two kinds of `fnmatch` calls. -/
inductive FnmatchFlags
  | pathnamePeriod | period
  deriving DecidableEq, Repr

structure Config where
  listenPort : Nat
  shares : List Share
  indexPatterns : List Bytes
  cgiPatterns : List Bytes
  availOps : DirectoryOps
  guestOps : DirectoryOps
  credentials : List Bytes
  fnmatch : FnmatchFlags → Bytes → Bytes → Bool
  strcoll : Bytes → Bytes → Bool
  strerror : Errno → Bytes
  md5 : Bytes → Bytes

def configIsActionAvailable (cfg : Config) : PrivilegedAction → Bool
  | .servePage => true
  | .listFolder => cfg.availOps != .none
  | .modify => cfg.availOps == .all

def configIsActionAllowed (cfg : Config) (pa : PrivilegedAction) (isLoggedIn : Bool) : Bool :=
  if ! configIsActionAvailable cfg pa then false
  else if isLoggedIn || cfg.guestOps == .all then true
  else match pa with
    | .servePage => cfg.guestOps != .none
    | .listFolder => cfg.guestOps == .listing
    | .modify => false

def configGivesLoginMorePrivileges (cfg : Config) : Bool :=
  match cfg.guestOps with
  | .all => false
  | .listing => cfg.availOps == .all
  | .file => cfg.availOps != .none
  | .none => true

/-- What a user may do as a guest is still allowed after a login. -/
theorem configIsActionAllowed_mono {cfg : Config} {pa : PrivilegedAction} {b : Bool}
    (h : configIsActionAllowed cfg pa false = true) : configIsActionAllowed cfg pa b = true := by
  cases b with
  | false => exact h
  | true =>
    unfold configIsActionAllowed at h ⊢
    by_cases ha : configIsActionAvailable cfg pa = true
    · simp [ha]
    · simp [ha] at h

/-- A share covers a path when its URL path is the whole of it or ends before a slash. -/
def shareCovers (urlPath : Bytes) (s : Share) : Bool :=
  s.urlpath.isPrefixOf urlPath &&
    (s.urlpath.length == urlPath.length || (urlPath.drop s.urlpath.length).head? == some slash)

/-- One round of the loop over the shares: the best share so far. -/
def betterShare (urlPath : Bytes) (best : Option Share) (s : Share) : Option Share :=
  if urlPath.length < s.urlpath.length ||
      (match best with | some b => s.urlpath.length ≤ b.urlpath.length | none => false) then best
  else if shareCovers urlPath s then some s
  else best

/-- `config_getSysPathForUrlPath`. The length of the path is kept in an `int`, so
a path of 2^31 bytes has a negative one and every share is longer than it. -/
def configGetSysPathForUrlPath (cfg : Config) (urlPath : Bytes) : Option Bytes :=
  let urlPath := if urlPath = [slash] then [] else urlPath
  if 2 ^ 31 ≤ urlPath.length then none
  else match cfg.shares.foldl (betterShare urlPath) none with
    | none => none
    | some best =>
      if best.urlpath.length < urlPath.length then
        some (best.syspath ++ urlPath.drop best.urlpath.length)
      else if best.syspath = [] then some [slash]
      else some best.syspath

/-- The suffixes of a path that follow one of its slashes. -/
def suffixesAfterSlash : Bytes → List Bytes
  | [] => []
  | b :: rest => if b = slash then rest :: suffixesAfterSlash rest else suffixesAfterSlash rest

/-- `config_isCGI`. The cursor of a relative pattern starts behind the first byte. -/
def configIsCGI (cfg : Config) (urlPath : Bytes) : Except Fault Bool :=
  let rec go : List Bytes → Except Fault Bool
    | [] => .ok false
    | patt :: rest =>
      if patt.head? = some slash then
        if cfg.fnmatch .pathnamePeriod patt urlPath then .ok true else go rest
      else match urlPath with
        | [] => .error (.indexOutOfRange .urlPath)
        | _ :: sub =>
          if (sub :: suffixesAfterSlash sub).any (cfg.fnmatch .pathnamePeriod patt) then .ok true
          else go rest
  go cfg.cgiPatterns

/-- `FM_REALM`. -/
def fmRealm : Bytes := ascii "File Manager"

/-- `! strncmp(s, t, n)`. -/
def eqPrefix (s t : Bytes) (n : Nat) : Bool := cstr (s.take n) == cstr (t.take n)

/-- The search of `config_getDigestAuthCredential`: the entry and what follows the name. -/
def findCredential (userName : Bytes) : List Bytes → Except Fault (Option (Bytes × Bytes))
  | [] => .ok none
  | cred :: rest =>
    if eqPrefix cred userName userName.length then
      if cred.length < userName.length then .error (.indexOutOfRange .credential)
      else
        let passwdBeg := cred.drop userName.length
        if passwdBeg.head? = some colon || (passwdBeg.length == 32 && ! passwdBeg.contains colon)
        then .ok (some (cred, passwdBeg))
        else findCredential userName rest
    else findCredential userName rest

/-- The length of the name is passed as an `int`. From 2^31 on it is negative, and `strncmp`
then compares up to the terminating zeros: the text behind the name makes it fail. -/
def configGetDigestAuthCredential (cfg : Config) (userName : Bytes) :
    Except Fault (Option Bytes) := do
  if 2 ^ 31 ≤ userName.length then return none
  match ← findCredential userName cfg.credentials with
  | none => return none
  | some (cred, found) =>
    if found.head? = some colon then
      let mb ← mbAppendData mbNew (cred.take (userName.length + 1))
      let mb ← mbAppendStr mb fmRealm
      let mb ← mbAppendStr mb found
      return some (cfg.md5 mb.data)
    else return some found

/-- `config_getCredentialsEncoded`. Without a colon the byte behind the name is the terminating
zero. -/
def configGetCredentialsEncoded (cfg : Config) (userWithPasswd : Bytes) : Except Fault Bytes := do
  let userNameLen := (userWithPasswd.takeWhile (· != colon)).length
  let mb ← mbAppendData mbNew ((userWithPasswd ++ [nul]).take (userNameLen + 1))
  let mb ← mbAppendStr mb fmRealm
  let mb ← mbAppendStr mb (userWithPasswd.drop userNameLen)
  return userWithPasswd.take userNameLen ++ cfg.md5 mb.data

/-- The parameters of an `Authorization` value that `auth_isClientAuthorized` uses. -/
structure DigestParams where
  username : DataChunk := []
  nonce : DataChunk := []
  uri : DataChunk := []
  response : DataChunk := []
  nc : DataChunk := []
  cnonce : DataChunk := []
  deriving DecidableEq, Repr

/-- One round of the loop over the parameters; a foreign realm ends the check. -/
def digestParam (d : DigestParams) (p : Param) : Option DigestParams :=
  if p.name = ascii "username" then some { d with username := p.value }
  else if p.name = ascii "realm" then if p.value = fmRealm then some d else none
  else if p.name = ascii "nonce" then some { d with nonce := p.value }
  else if p.name = ascii "uri" then some { d with uri := p.value }
  else if p.name = ascii "response" then some { d with response := p.value }
  else if p.name = ascii "nc" then some { d with nc := p.value }
  else if p.name = ascii "cnonce" then some { d with cnonce := p.value }
  else some d

/-- The place for the digest of A1 is overwritten before the buffer is read. -/
def digestResponse (cfg : Config) (requestMethod : Bytes) (d : DigestParams) :
    Except Fault Bool := do
  let response ← mbAppendData mbNew (List.replicate 32 nul)
  let response ← mbAppendStr response [colon]
  let response ← mbAppendData response d.nonce
  let response ← mbAppendStr response [colon]
  let response ← mbAppendData response d.nc
  let response ← mbAppendStr response [colon]
  let response ← mbAppendData response d.cnonce
  let response ← mbAppendStr response (ascii ":auth:")
  let a ← mbAppendStrL mbNew [requestMethod, [colon]]
  let a ← mbAppendData a d.uri
  let response ← mbAppendStr response (cfg.md5 a.data)
  match ← configGetDigestAuthCredential cfg d.username with
  | none => return false
  | some ha1 =>
    let response ← mbSetData response 0 (ha1.take 32)
    return d.response == cfg.md5 response.data

def authIsClientAuthorized (cfg : Config) (authorization requestMethod : Bytes) :
    Except Fault Bool :=
  match dchExtractTillWS (dchInitWithStr authorization) with
  | none => .ok false
  | some (scheme, line) =>
    if ! eqIgnoreCase scheme (ascii "Digest") then .ok false
    else match (dchAllParams line comma).foldlM digestParam {} with
      | none => .ok false
      | some d => digestResponse cfg requestMethod d

end FilemanagerHttpd.Server
