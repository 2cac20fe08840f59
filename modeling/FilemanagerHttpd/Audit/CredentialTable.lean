import FilemanagerHttpd.Audit.DigestLogin
import FilemanagerHttpd.Library.Conduct

/-!
# Tables of credentials

A user may have several entries, of both formats. The search takes the first entry of the
user, so the table is as good as its documentation says when the entries of the user agree
about the response. An entry in plain text accepts more names than its encoded form does.
-/

namespace FilemanagerHttpd.Audit

open Library Server

section Any

variable {cfg : Config} {creds : List Credential} {requestMethod : Bytes}

/-- The entries of the user accept the response together, or refuse it together. -/
def DigestLogin.Agree (x : DigestLogin) (md5 : Bytes → Bytes) (creds : List Credential)
    (requestMethod : Bytes) : Prop :=
  ∀ c ∈ creds, ∀ k ∈ creds, c.user = x.username → k.user = x.username →
    (x.response = x.expected md5 requestMethod c ↔ x.response = x.expected md5 requestMethod k)

/-- Any entry of the user that matches grants access, in every order of the lines. -/
structure AnyGrants (cfg : Config) (creds : List Credential) (requestMethod : Bytes)
    (x : DigestLogin) : Prop where
  verdict : ∃ b, authIsClientAuthorized cfg x.text requestMethod = .ok b ∧
    (b = true ↔ ∃ c ∈ creds, c.user = x.username ∧
      x.response = x.expected cfg.md5 requestMethod c)
  unordered : ∀ creds' : List Credential, creds'.Perm creds →
    authIsClientAuthorized { cfg with credentials := creds'.map Credential.entry } x.text
      requestMethod = authIsClientAuthorized cfg x.text requestMethod

/-- The first entry of the user decides. -/
theorem authorized_first (hcfg : cfg.credentials = creds.map Credential.entry)
    (hmd5 : IsDigest cfg.md5) (hmethod : nul ∉ requestMethod) {x : DigestLogin}
    (hnul : nul ∉ x.text) (hshort : x.text.length < uintSize)
    (hsizes : SizesFit requestMethod x.digestParams) (hname : x.username.length < 2 ^ 31) :
    match creds.find? (fun c => c.user == x.username) with
    | none => authIsClientAuthorized cfg x.text requestMethod = .ok false
    | some c => (PasswordFits c → authIsClientAuthorized cfg x.text requestMethod =
          .ok (x.response == x.expected cfg.md5 requestMethod c)) ∧
        (¬ PasswordFits c → ∃ f, authIsClientAuthorized cfg x.text requestMethod = .error f) := by
  obtain ⟨hnone, hsome, herror⟩ := x.authorized_of_credential hmd5 hmethod hnul hshort hsizes
  have hcred := configGetDigestAuthCredential_eq hcfg x.username_clean (x.username_nul hnul) hname
  cases hfind : creds.find? (fun c => c.user == x.username) with
  | none =>
    rw [hfind] at hcred
    exact hnone hcred
  | some c =>
    rw [hfind] at hcred
    constructor
    · intro hfits
      exact hsome c (hcred.1 hfits)
    · intro hfits
      obtain ⟨f, hf⟩ := hcred.2 hfits
      exact ⟨f, herror f hf⟩

/-- Each entry can be the first one. -/
theorem exists_perm_first {c : Credential} (hc : c ∈ creds) {u : Bytes} (huser : c.user = u) :
    ∃ creds' : List Credential, creds'.Perm creds ∧
      creds'.find? (fun c => c.user == u) = some c := by
  obtain ⟨before, after, rfl⟩ := List.append_of_mem hc
  refine ⟨c :: (before ++ after), List.perm_middle.symm, ?_⟩
  exact List.find?_cons_of_pos (by simpa using huser)

/-- The verdict of a table is that of the entries of the user when they agree. -/
theorem authorized_agree (hcfg : cfg.credentials = creds.map Credential.entry)
    (hmd5 : IsDigest cfg.md5) (hmethod : nul ∉ requestMethod) {x : DigestLogin}
    (hnul : nul ∉ x.text) (hshort : x.text.length < uintSize)
    (hfits : x.Fits cfg.md5 creds requestMethod) (hagree : x.Agree cfg.md5 creds requestMethod) :
    ∃ b, authIsClientAuthorized cfg x.text requestMethod = .ok b ∧
      (b = true ↔ ∃ c ∈ creds, c.user = x.username ∧
        x.response = x.expected cfg.md5 requestMethod c) := by
  have hsizes : SizesFit requestMethod x.digestParams := ⟨hfits.response, hfits.request⟩
  by_cases hname : x.username.length < 2 ^ 31
  · have hfirst := authorized_first hcfg hmd5 hmethod hnul hshort hsizes hname
    cases hfind : creds.find? (fun c => c.user == x.username) with
    | none =>
      rw [hfind] at hfirst
      refine ⟨false, hfirst, nofun, ?_⟩
      intro hexists
      obtain ⟨c, hc, huser, -⟩ := hexists
      have hno := List.find?_eq_none.mp hfind c hc
      exact absurd (by simpa using huser) hno
    | some c =>
      rw [hfind] at hfirst
      have hc := List.mem_of_find?_eq_some hfind
      have huser : c.user = x.username := by simpa using List.find?_some hfind
      refine ⟨_, hfirst.1 (hfits.password hname c hc huser), ?_⟩
      rw [beq_iff_eq]
      constructor
      · intro hresp
        exact ⟨c, hc, huser, hresp⟩
      · intro hexists
        obtain ⟨k, hk, hkuser, hresp⟩ := hexists
        exact (hagree k hk c hc hkuser huser).mp hresp
  · obtain ⟨hnone, -, -⟩ := x.authorized_of_credential hmd5 hmethod hnul hshort hsizes
    refine ⟨false, hnone (configGetDigestAuthCredential_long cfg (by omega)), nofun, ?_⟩
    intro hexists
    obtain ⟨c, hc, huser, hresp⟩ := hexists
    exact absurd hresp (hfits.name (by omega) c hc huser)

/-- A verdict that does not depend on the order fits every entry of the user. -/
theorem AnyGrants.fits_agree
    (hmd5 : IsDigest cfg.md5)
    (hmethod : nul ∉ requestMethod) {x : DigestLogin} (hnul : nul ∉ x.text)
    (hshort : x.text.length < uintSize)
    (h : AnyGrants cfg creds requestMethod x) :
    x.Fits cfg.md5 creds requestMethod ∧ x.Agree cfg.md5 creds requestMethod := by
  obtain ⟨b, hb, hverdict⟩ := h.verdict
  have hsizes : SizesFit requestMethod x.digestParams := by
    by_contra hno
    obtain ⟨f, hf⟩ := x.authorized_overflow hmd5 hmethod hnul hshort hno
    rw [hf] at hb
    cases hb
  by_cases hname : x.username.length < 2 ^ 31
  · -- each entry of the user is the first one in some order of the lines
    have hkey : ∀ c ∈ creds, c.user = x.username → PasswordFits c ∧
        (b = true ↔ x.response = x.expected cfg.md5 requestMethod c) := by
      intro c hc huser
      obtain ⟨creds', hperm, hfind⟩ := exists_perm_first hc huser
      have hsame := h.unordered creds' hperm
      let cfg' : Config := { cfg with credentials := creds'.map Credential.entry }
      have hcfg' : cfg'.credentials = creds'.map Credential.entry := rfl
      have hmd5' : IsDigest cfg'.md5 := hmd5
      have hfirst := authorized_first hcfg' hmd5' hmethod hnul hshort hsizes hname
      rw [hfind] at hfirst
      by_cases hfits : PasswordFits c
      · have hval := hfirst.1 hfits
        rw [hsame, hb] at hval
        refine ⟨hfits, ?_⟩
        rw [Except.ok.inj hval, beq_iff_eq]
      · obtain ⟨f, hf⟩ := hfirst.2 hfits
        rw [hsame, hb] at hf
        cases hf
    refine ⟨⟨hsizes.1, hsizes.2, fun _ c hc huser => (hkey c hc huser).1, ?_⟩, ?_⟩
    · intro hlong
      omega
    · intro c hc k hk huser hkuser
      exact (hkey c hc huser).2.symm.trans (hkey k hk hkuser).2
  · obtain ⟨hnone, -, -⟩ := x.authorized_of_credential hmd5 hmethod hnul hshort hsizes
    have hfalse := hnone (configGetDigestAuthCredential_long cfg (by omega))
    rw [hb] at hfalse
    obtain rfl := Except.ok.inj hfalse
    have hno : ∀ c ∈ creds, c.user = x.username →
        x.response ≠ x.expected cfg.md5 requestMethod c := by
      intro c hc huser hresp
      cases hverdict.mpr ⟨c, hc, huser, hresp⟩
    refine ⟨⟨hsizes.1, hsizes.2, fun hlt => absurd hlt hname, fun _ => hno⟩, ?_⟩
    intro c hc k hk huser hkuser
    exact ⟨fun hresp => absurd hresp (hno c hc huser), fun hresp => absurd hresp (hno k hk hkuser)⟩

theorem anyGrants_of_agree
    (hcfg : cfg.credentials = creds.map Credential.entry) (hmd5 : IsDigest cfg.md5)
    (hmethod : nul ∉ requestMethod) {x : DigestLogin} (hnul : nul ∉ x.text)
    (hshort : x.text.length < uintSize)
    (hfits : x.Fits cfg.md5 creds requestMethod) (hagree : x.Agree cfg.md5 creds requestMethod) :
    AnyGrants cfg creds requestMethod x := by
  obtain ⟨b, hb, hverdict⟩ := authorized_agree hcfg hmd5 hmethod hnul hshort hfits hagree
  refine ⟨⟨b, hb, hverdict⟩, ?_⟩
  intro creds' hperm
  let cfg' : Config := { cfg with credentials := creds'.map Credential.entry }
  have hfits' : x.Fits cfg'.md5 creds' requestMethod :=
    ⟨hfits.response, hfits.request,
      fun hname c hc => hfits.password hname c (hperm.mem_iff.mp hc),
      fun hname c hc => hfits.name hname c (hperm.mem_iff.mp hc)⟩
  have hagree' : x.Agree cfg'.md5 creds' requestMethod := fun c hc k hk =>
    hagree c (hperm.mem_iff.mp hc) k (hperm.mem_iff.mp hk)
  have hcfg' : cfg'.credentials = creds'.map Credential.entry := rfl
  have hmd5' : IsDigest cfg'.md5 := hmd5
  obtain ⟨b', hb', hverdict'⟩ := authorized_agree hcfg' hmd5' hmethod hnul hshort hfits' hagree'
  have hbb : b = b' := by
    rw [Bool.eq_iff_iff, hverdict, hverdict']
    constructor
    · intro hexists
      obtain ⟨c, hc, hrest⟩ := hexists
      exact ⟨c, hperm.mem_iff.mpr hc, hrest⟩
    · intro hexists
      obtain ⟨c, hc, hrest⟩ := hexists
      exact ⟨c, hperm.mem_iff.mp hc, hrest⟩
  rw [hb, hbb]
  exact hb'

/-- A response is judged by any entry of its user exactly when the sizes fit and the entries
of the user agree about it. -/
theorem any_grants_iff (cfg : Config) (creds : List Credential)
    (hcfg : cfg.credentials = creds.map Credential.entry) (hmd5 : IsDigest cfg.md5)
    (requestMethod : Bytes) (hmethod : nul ∉ requestMethod) (x : DigestLogin)
    (hnul : nul ∉ x.text) (hshort : x.text.length < uintSize) :
    AnyGrants cfg creds requestMethod x ↔
      x.Fits cfg.md5 creds requestMethod ∧ x.Agree cfg.md5 creds requestMethod := by
  constructor
  · intro h
    exact h.fits_agree hmd5 hmethod hnul hshort
  · intro h
    exact anyGrants_of_agree hcfg hmd5 hmethod hnul hshort h.1 h.2

/-- The stored hash of an older password of `ann`. -/
def annBefore : Credential where
  user := ascii "ann"
  secret := 49 :: List.replicate 31 48
  isHash := true
  user_clean := ann.user_clean
  user_text := ann.user_text
  secret_text := by decide +kernel
  hash_clean := by decide +kernel

/-- The password that matches is the second one. -/
def annTwice : Config :=
  { bareConfig with
    credentials := [ascii "ann" ++ 49 :: List.replicate 31 48, ascii "ann:pw"]
    md5 := sumDigest }

theorem any_grants_iff_ann :
    AnyGrants annConfig [bob, ann] (ascii "GET") annLogin ↔
      annLogin.Fits sumDigest [bob, ann] (ascii "GET") ∧
        annLogin.Agree sumDigest [bob, ann] (ascii "GET") :=
  any_grants_iff annConfig [bob, ann] (by decide +kernel) sumDigest_isDigest (ascii "GET")
    (by decide +kernel) annLogin (by decide +kernel) (by decide +kernel)

theorem any_grants_second : annTwice.credentials = [annBefore, ann].map Credential.entry ∧
    ¬ AnyGrants annTwice [annBefore, ann] (ascii "GET") annLogin := by
  have hcfg : annTwice.credentials = [annBefore, ann].map Credential.entry := by decide +kernel
  refine ⟨hcfg, ?_⟩
  intro h
  have hdigest : IsDigest annTwice.md5 := sumDigest_isDigest
  have hmethod : nul ∉ ascii "GET" := by decide +kernel
  have hnul : nul ∉ annLogin.text := by decide +kernel
  have hshort : annLogin.text.length < uintSize := by decide +kernel
  obtain ⟨-, hagree⟩ := h.fits_agree hdigest hmethod hnul hshort
  have hboth := hagree annBefore (by simp) ann (by simp) rfl rfl
  have hann : annLogin.response = annLogin.expected annTwice.md5 (ascii "GET") ann := by
    decide +kernel
  have hbefore : ¬ annLogin.response = annLogin.expected annTwice.md5 (ascii "GET") annBefore := by
    decide +kernel
  exact hbefore (hboth.mpr hann)

end Any

section Encoded

/-- A digest function gives 32 characters, none of them a colon. -/
structure IsMd5 (md5 : Bytes → Bytes) : Prop where
  length (s : Bytes) : (md5 s).length = 32
  no_nul (s : Bytes) : nul ∉ md5 s
  no_colon (s : Bytes) : colon ∉ md5 s

/-- The encoded form of an entry in plain text. -/
def Credential.encoded (c : Credential) {md5 : Bytes → Bytes} (hmd5 : IsMd5 md5) : Credential where
  user := c.user
  secret := md5 (c.user ++ (colon :: fmRealm ++ colon :: c.secret))
  isHash := true
  user_clean := c.user_clean
  user_text := c.user_text
  secret_text := hmd5.no_nul _
  hash_clean _ := ⟨hmd5.length _, hmd5.no_colon _⟩

variable {cfg : Config}

/-- The configuration with a single entry. -/
def withEntry (cfg : Config) (entry : Bytes) : Config := { cfg with credentials := [entry] }

/-- The plain entry and its encoded form give the same answer to a name: none, or the same
32 characters, and these for the user only. -/
def Interchangeable (cfg : Config) (c : Credential) (name : Bytes) : Prop :=
  ∃ encoded found, configGetCredentialsEncoded cfg c.entry = .ok encoded ∧
    configGetDigestAuthCredential (withEntry cfg c.entry) name = .ok found ∧
    configGetDigestAuthCredential (withEntry cfg encoded) name = .ok found ∧
    ∀ sum, found = some sum → sum.length = 32 ∧ name = c.user

/-- A name that is not read past the end of an entry, nor taken for a part of the plain one. -/
def Unambiguous (cfg : Config) (c : Credential) (name : Bytes) : Prop :=
  if nul ∈ name then
    cstr name ≠ c.entry ∧
      cstr name ≠ c.user ++ cfg.md5 (c.user ++ (colon :: fmRealm ++ colon :: c.secret))
  else ∀ before rest, c.secret = before ++ rest → behindUser rest = true →
    name ≠ c.user ++ colon :: before

theorem encoded_entry (c : Credential) (hmd5 : IsMd5 cfg.md5) :
    (c.encoded hmd5).entry =
      c.user ++ cfg.md5 (c.user ++ (colon :: fmRealm ++ colon :: c.secret)) := rfl

/-- The encoding of an entry in plain text. -/
theorem configGetCredentialsEncoded_eq (hmd5 : IsMd5 cfg.md5) {c : Credential}
    (hplain : c.isHash = false) :
    configGetCredentialsEncoded cfg c.entry =
      if c.user.length + c.secret.length + 15 < uintSize then .ok (c.encoded hmd5).entry
      else .error .heapOverflow := by
  have hentry : c.entry = c.user ++ colon :: c.secret := by
    rw [Credential.entry, hplain]
    rfl
  have huser : (c.user ++ colon :: c.secret).takeWhile (· != colon) = c.user := by
    have hall : ∀ b ∈ c.user, (b != colon) = true := by
      intro b hb
      rw [bne_iff_ne]
      intro he
      exact c.user_clean (he ▸ hb)
    rw [List.takeWhile_append_of_pos hall, List.takeWhile_cons_of_neg (by simp), List.append_nil]
  have htake : (c.user ++ colon :: c.secret ++ [nul]).take (c.user.length + 1) =
      c.user ++ [colon] := by
    rw [List.append_assoc, List.take_append, List.take_of_length_le (by omega)]
    simp
  have htext : cstr (colon :: c.secret) = colon :: c.secret := by
    apply cstr_eq_self
    intro hm
    rcases List.mem_cons.mp hm with hm | hm
    · exact absurd hm (by decide)
    · exact c.secret_text hm
  have hrealm : cstr fmRealm = fmRealm := by decide +kernel
  have hlen : (mbNew.dataLen + [c.user ++ [colon], fmRealm, colon :: c.secret].flatten.length + 1
      < uintSize) ↔ c.user.length + c.secret.length + 15 < uintSize := by
    have hr : fmRealm.length = 12 := rfl
    have hz : mbNew.dataLen = 0 := rfl
    simp only [List.flatten_cons, List.flatten_nil, List.length_append, List.length_cons,
      List.length_nil, hr, hz]
    omega
  have hall : configGetCredentialsEncoded cfg c.entry = (do
      let mb ← [c.user ++ [colon], fmRealm, colon :: c.secret].foldlM mbAppendData mbNew
      return c.user ++ cfg.md5 mb.data) := by
    unfold configGetCredentialsEncoded
    rw [hentry, huser]
    dsimp only
    rw [htake, List.drop_left, List.take_left]
    simp only [mbAppendStr, hrealm, htext, List.foldlM_cons, List.foldlM_nil, bind_pure,
      bind_assoc]
  rw [hall, appendAll_eq (by decide)]
  by_cases hfit : c.user.length + c.secret.length + 15 < uintSize
  · rw [if_pos (hlen.mpr hfit), if_pos hfit, encoded_entry]
    simp [bind, Except.bind, pure, Except.pure, mbNew]
  · rw [if_neg fun h => hfit (hlen.mp h), if_neg hfit]
    rfl

/-- How the search judges a single entry. -/
theorem findCredential_single (name entry : Bytes) :
    findCredential name [entry] =
      if eqPrefix entry name name.length then
        if entry.length < name.length then .error (.indexOutOfRange .credential)
        else if behindUser (entry.drop name.length) then
          .ok (some (entry, entry.drop name.length))
        else .ok none
      else .ok none := by
  simp only [findCredential, behindUser, Bool.or_eq_true, beq_iff_eq, decide_eq_true_eq]

/-- A name with a zero byte is read past the end of the entry that it starts with. -/
theorem lookup_nul {name entry : Bytes} (hentry : nul ∉ entry) (hnul : nul ∈ name)
    (hshort : name.length < 2 ^ 31) :
    configGetDigestAuthCredential (withEntry cfg entry) name =
      if cstr name = entry then .error (.indexOutOfRange .credential) else .ok none := by
  have hlong : ¬ 2 ^ 31 ≤ name.length := by omega
  have hcstr : (cstr name).length < name.length := by
    by_contra hge
    have hself : cstr name = name := List.IsPrefix.eq_of_length (List.takeWhile_prefix _)
      (Nat.le_antisymm (List.takeWhile_prefix _).length_le (by omega))
    rw [← hself] at hnul
    exact nul_not_mem_cstr name hnul
  have htake : cstr (entry.take name.length) = entry.take name.length := by
    apply cstr_eq_self
    intro hm
    exact hentry (List.mem_of_mem_take hm)
  have heq : eqPrefix entry name name.length = true ↔ cstr name = entry := by
    rw [eqPrefix, List.take_length, htake, beq_iff_eq]
    constructor
    · intro h
      have hlen := congrArg List.length h
      rw [List.length_take] at hlen
      rw [← h, List.take_of_length_le (by omega)]
    · intro h
      rw [← h, List.take_of_length_le (by omega)]
  have hsingle := findCredential_single name entry
  simp only [configGetDigestAuthCredential, if_neg hlong, withEntry, hsingle]
  by_cases hname : cstr name = entry
  · rw [if_pos (heq.mpr hname), if_pos hname, if_pos (by rw [← hname]; exact hcstr)]
    rfl
  · rw [if_neg fun h => hname (heq.mp h), if_neg hname]
    rfl

/-- A name that is no accepted start of the entry is not found. -/
theorem lookup_refused {name entry : Bytes} (hentry : nul ∉ entry) (hnul : nul ∉ name)
    (hno : ∀ rest, entry = name ++ rest → behindUser rest = false) :
    configGetDigestAuthCredential (withEntry cfg entry) name = .ok none := by
  by_cases hlong : 2 ^ 31 ≤ name.length
  · exact configGetDigestAuthCredential_long _ hlong
  have hsingle := findCredential_single name entry
  simp only [configGetDigestAuthCredential, if_neg hlong, withEntry, hsingle]
  by_cases hpre : name <+: entry
  · obtain ⟨rest, rfl⟩ := hpre
    rw [if_pos ((eqPrefix_iff hentry hnul).mpr (List.prefix_append _ _)), List.drop_left,
      if_neg (by rw [List.length_append]; omega), hno rest rfl]
    rfl
  · rw [if_neg fun h => hpre ((eqPrefix_iff hentry hnul).mp h)]
    rfl

/-- A name that is accepted is found, or its digest cannot be computed. -/
theorem lookup_accepted {name rest : Bytes} (hentry : nul ∉ name ++ rest)
    (hshort : name.length < 2 ^ 31) (hbehind : behindUser rest = true) :
    configGetDigestAuthCredential (withEntry cfg (name ++ rest)) name ≠ .ok none := by
  have hlong : ¬ 2 ^ 31 ≤ name.length := by omega
  have hnul : nul ∉ name := fun hm => hentry (List.mem_append_left _ hm)
  have hsingle := findCredential_single name (name ++ rest)
  simp only [configGetDigestAuthCredential, if_neg hlong, withEntry, hsingle]
  rw [if_pos ((eqPrefix_iff hentry hnul).mpr (List.prefix_append _ _)), List.drop_left,
    if_neg (by rw [List.length_append]; omega), hbehind, if_pos rfl]
  refine Sound.ne (P := fun _ => True) (Q := (· ≠ none)) ?_ (by simp)
  refine Sound.ite ?_ (Option.some_ne_none rest)
  refine (Sound.always _).bind fun mb _ => (Sound.always _).bind fun mb _ => ?_
  exact (Sound.always _).bind fun mb _ => Option.some_ne_none _

/-- Both forms refuse the names that are not the user's and not taken for it. -/
theorem lookup_other (hmd5 : IsMd5 cfg.md5) {c : Credential} (hplain : c.isHash = false)
    {name : Bytes} (hnul : nul ∉ name) (hne : name ≠ c.user)
    (hclear : ∀ before rest, c.secret = before ++ rest → behindUser rest = true →
      name ≠ c.user ++ colon :: before) :
    configGetDigestAuthCredential (withEntry cfg c.entry) name = .ok none ∧
      configGetDigestAuthCredential (withEntry cfg (c.encoded hmd5).entry) name = .ok none := by
  constructor
  · apply lookup_refused (entry_nul c) hnul
    intro rest hrest
    by_contra hbehind
    rw [Bool.not_eq_false] at hbehind
    by_cases hcolon : colon ∈ name
    · rw [Credential.entry, hplain, if_neg (by decide)] at hrest
      rcases List.append_eq_append_iff.mp hrest with ⟨a, hname, hsplit⟩ | ⟨a, huser, -⟩
      · cases a with
        | nil =>
          rw [List.append_nil] at hname
          exact hne hname
        | cons b before =>
          obtain ⟨rfl, hsecret⟩ := List.cons.inj hsplit
          exact hclear before rest hsecret hbehind hname
      · apply c.user_clean
        rw [huser]
        exact List.mem_append_left _ hcolon
    · exact hne ((behindUser_iff c hcolon hrest).mp hbehind).symm
  · apply lookup_refused (entry_nul _) hnul
    intro rest hrest
    by_contra hbehind
    rw [Bool.not_eq_false] at hbehind
    by_cases hcolon : colon ∈ name
    · have hm : colon ∈ (c.encoded hmd5).entry := by
        rw [hrest]
        exact List.mem_append_left _ hcolon
      rw [encoded_entry _ hmd5] at hm
      rcases List.mem_append.mp hm with hm | hm
      · exact c.user_clean hm
      · exact hmd5.no_colon _ hm
    · exact hne ((behindUser_iff (c.encoded hmd5) hcolon hrest).mp hbehind).symm

/-- Both forms accept the user, with the same sum. -/
theorem lookup_user (hmd5 : IsMd5 cfg.md5) {c : Credential} (hplain : c.isHash = false)
    (hshort : c.user.length < 2 ^ 31) (hfits : PasswordFits c) :
    configGetDigestAuthCredential (withEntry cfg c.entry) c.user = .ok (some (c.ha1 cfg.md5)) ∧
      configGetDigestAuthCredential (withEntry cfg (c.encoded hmd5).entry) c.user =
        .ok (some (c.ha1 cfg.md5)) := by
  have hsame : (c.encoded hmd5).ha1 cfg.md5 = c.ha1 cfg.md5 := by
    unfold Credential.ha1
    rw [hplain]
    rfl
  have hfound : [c].find? (fun k => k.user == c.user) = some c :=
    List.find?_cons_of_pos (by simp)
  have hfound' : [c.encoded hmd5].find? (fun k => k.user == c.user) = some (c.encoded hmd5) :=
    List.find?_cons_of_pos (by simp [Credential.encoded])
  have hcfg : (withEntry cfg c.entry).credentials = [c].map Credential.entry := rfl
  have hcfg' : (withEntry cfg (c.encoded hmd5).entry).credentials =
      [c.encoded hmd5].map Credential.entry := rfl
  have hplainly := configGetDigestAuthCredential_eq hcfg c.user_clean c.user_text hshort
  have hencoded := configGetDigestAuthCredential_eq hcfg' c.user_clean c.user_text hshort
  rw [hfound] at hplainly
  rw [hfound'] at hencoded
  constructor
  · exact hplainly.1 hfits
  · rw [← hsame]
    exact hencoded.1 (.inl rfl)

/-- An entry and its encoded form are interchangeable for a name exactly when the digest of the
entry fits and the name, as long as it is short enough to be looked up, is unambiguous. -/
theorem credentials_interchangeable_iff (cfg : Config) (hmd5 : IsMd5 cfg.md5) (c : Credential)
    (hplain : c.isHash = false) (name : Bytes) :
    Interchangeable cfg c name ↔
      PasswordFits c ∧ (name.length < 2 ^ 31 → Unambiguous cfg c name) := by
  have henc := configGetCredentialsEncoded_eq hmd5 hplain
  constructor
  · intro h
    obtain ⟨encoded, found, hencoded, hplainly, hencodedly, hsum⟩ := h
    by_cases hfit : c.user.length + c.secret.length + 15 < uintSize
    · rw [if_pos hfit, hencoded] at henc
      rw [Except.ok.inj henc] at hencodedly
      refine ⟨.inr hfit, ?_⟩
      intro hshort
      unfold Unambiguous
      by_cases hnul : nul ∈ name
      · rw [if_pos hnul]
        constructor
        · intro he
          rw [lookup_nul (entry_nul c) hnul hshort, if_pos he] at hplainly
          cases hplainly
        · intro he
          rw [lookup_nul (entry_nul _) hnul hshort, if_pos (he.trans (encoded_entry _ hmd5).symm)]
            at hencodedly
          cases hencodedly
      · rw [if_neg hnul]
        intro before rest hsecret hbehind hname
        have hentry : c.entry = name ++ rest := by
          rw [Credential.entry, hplain, if_neg (by decide), hsecret, hname]
          simp
        have hfound := @lookup_accepted cfg name rest (hentry ▸ entry_nul c) hshort hbehind
        rw [← hentry, hplainly] at hfound
        cases found with
        | none => exact hfound rfl
        | some sum =>
          have huser := (hsum sum rfl).2
          rw [hname] at huser
          have hlen := congrArg List.length huser
          rw [List.length_append, List.length_cons] at hlen
          omega
    · rw [if_neg hfit, hencoded] at henc
      cases henc
  · intro h
    obtain ⟨hfits, hclear⟩ := h
    have hfit : c.user.length + c.secret.length + 15 < uintSize := by
      rcases hfits with hhash | hfit
      · rw [hplain] at hhash
        cases hhash
      · exact hfit
    rw [if_pos hfit] at henc
    by_cases hshort : name.length < 2 ^ 31
    · have hclear := hclear hshort
      unfold Unambiguous at hclear
      by_cases hnul : nul ∈ name
      · rw [if_pos hnul] at hclear
        refine ⟨_, none, henc, ?_, ?_, fun sum hs => nomatch hs⟩
        · rw [lookup_nul (entry_nul c) hnul hshort, if_neg hclear.1]
        · rw [lookup_nul (entry_nul _) hnul hshort, if_neg]
          intro he
          exact hclear.2 (he.trans (encoded_entry _ hmd5))
      · rw [if_neg hnul] at hclear
        by_cases hname : name = c.user
        · rw [hname] at hshort ⊢
          obtain ⟨hplainly, hencodedly⟩ := lookup_user hmd5 hplain hshort hfits
          refine ⟨_, _, henc, hplainly, hencodedly, ?_⟩
          intro sum hs
          rw [← Option.some.inj hs]
          refine ⟨?_, rfl⟩
          unfold Credential.ha1
          rw [hplain]
          exact hmd5.length _
        · obtain ⟨hplainly, hencodedly⟩ := lookup_other hmd5 hplain hnul hname hclear
          exact ⟨_, none, henc, hplainly, hencodedly, fun sum hs => nomatch hs⟩
    · have hnone : ∀ k : Config, configGetDigestAuthCredential k name = .ok none := fun k =>
        configGetDigestAuthCredential_long k (by omega)
      exact ⟨_, none, henc, hnone _, hnone _, fun sum hs => nomatch hs⟩

theorem sumDigest_isMd5 : IsMd5 sumDigest := by
  have hclean : ∀ k < 16, (ascii "0123456789abcdef").getD k 48 ≠ colon := by decide +kernel
  constructor
  · exact fun s => (sumDigest_isDigest s).1
  · exact fun s => (sumDigest_isDigest s).2
  · intro s hm
    have hdigit := hclean ((s.foldl (· + ·) 0).toNat % 16) (Nat.mod_lt _ (by decide))
    exact hdigit (List.eq_of_mem_replicate hm).symm

theorem credentials_interchangeable_iff_ann :
    Interchangeable annConfig ann (ascii "ann") ↔
      PasswordFits ann ∧ ((ascii "ann").length < 2 ^ 31 →
        Unambiguous annConfig ann (ascii "ann")) :=
  credentials_interchangeable_iff annConfig sumDigest_isMd5 ann rfl (ascii "ann")

/-- A user whose password has a colon in it. -/
def eve : Credential where
  user := ascii "eve"
  secret := ascii "a:b"
  isHash := false
  user_clean := by decide +kernel
  user_text := by decide +kernel
  secret_text := by decide +kernel
  hash_clean := fun h => Bool.noConfusion h

/-- The entry `eve:a:b` is also found for the name `eve:a`. -/
theorem credentials_not_interchangeable : ¬ Interchangeable annConfig eve (ascii "eve:a") := by
  intro h
  obtain ⟨encoded, found, -, hplainly, -, hsum⟩ := h
  have hfound := @lookup_accepted annConfig (ascii "eve:a") (ascii ":b") (by decide +kernel)
    (by decide +kernel) (by decide +kernel)
  have hentry : eve.entry = ascii "eve:a" ++ ascii ":b" := by decide +kernel
  rw [← hentry, hplainly] at hfound
  cases found with
  | none => exact hfound rfl
  | some sum => exact absurd (hsum sum rfl).2 (by decide +kernel)

end Encoded

end FilemanagerHttpd.Audit
