import FilemanagerHttpd.Audit.ParamTexts
import FilemanagerHttpd.Server.Environment

/-!
# The digest login

Which `Authorization` values are accepted: the parameters may be written in any order and
style, the credentials in either of their two formats, and the digest function is any.
-/

namespace FilemanagerHttpd.Audit

open Library Server

section Credentials

/-- An entry of the credential table: a user with a password, or with the stored hash. -/
structure Credential where
  user : Bytes
  secret : Bytes
  isHash : Bool
  user_clean : colon ∉ user
  user_text : nul ∉ user
  secret_text : nul ∉ secret
  hash_clean : isHash = true → secret.length = 32 ∧ colon ∉ secret

/-- The entry as the configuration file has it. -/
def Credential.entry (c : Credential) : Bytes :=
  if c.isHash then c.user ++ c.secret else c.user ++ colon :: c.secret

/-- The digest of user, realm and password. -/
def Credential.ha1 (md5 : Bytes → Bytes) (c : Credential) : Bytes :=
  if c.isHash then c.secret else md5 (c.user ++ (colon :: fmRealm ++ colon :: c.secret))

theorem entry_nul (c : Credential) : nul ∉ c.entry := by
  unfold Credential.entry
  split
  · intro hm
    rcases List.mem_append.mp hm with hm | hm
    · exact c.user_text hm
    · exact c.secret_text hm
  · intro hm
    rcases List.mem_append.mp hm with hm | hm
    · exact c.user_text hm
    · rcases List.mem_cons.mp hm with hm | hm
      · exact absurd hm (by decide)
      · exact c.secret_text hm

/-- What has to stand behind the name in an entry. -/
def behindUser (passwdBeg : Bytes) : Bool :=
  passwdBeg.head? == some colon || (passwdBeg.length == 32 && ! passwdBeg.contains colon)

theorem behindUser_cases {passwdBeg : Bytes} (h : behindUser passwdBeg = true) :
    (∃ t, passwdBeg = colon :: t) ∨ passwdBeg.length = 32 ∧ colon ∉ passwdBeg := by
  unfold behindUser at h
  rcases Bool.or_eq_true _ _ ▸ h with h | h
  · cases passwdBeg with
    | nil => cases h
    | cons b t =>
      left
      exact ⟨t, by simpa using h⟩
  · right
    simpa using h

/-- A name that starts an entry and is followed by a password or a hash is its user. -/
theorem behindUser_iff (c : Credential) {u rest : Bytes} (hu : colon ∉ u)
    (he : c.entry = u ++ rest) : behindUser rest = true ↔ c.user = u := by
  unfold Credential.entry at he
  cases hc : c.isHash with
  | true =>
    obtain ⟨hlen, hclean⟩ := c.hash_clean hc
    rw [hc, if_pos rfl] at he
    have hnone : colon ∉ u ++ rest := by
      rw [← he]
      intro hm
      rcases List.mem_append.mp hm with hm | hm
      · exact c.user_clean hm
      · exact hclean hm
    have htotal := congrArg List.length he
    rw [List.length_append, List.length_append] at htotal
    constructor
    · intro h
      rcases behindUser_cases h with ⟨t, rfl⟩ | ⟨h32, -⟩
      · exact absurd (List.mem_append_right _ List.mem_cons_self) hnone
      · exact (List.append_inj he (by omega)).1
    · rintro rfl
      obtain rfl := List.append_cancel_left he
      simp [behindUser, hlen, hclean]
  | false =>
    rw [hc, if_neg (by decide)] at he
    constructor
    · intro h
      rcases behindUser_cases h with ⟨t, rfl⟩ | ⟨-, hnone⟩
      · have hsplit := splitAtByte_append c.secret c.user_clean
        rw [he, splitAtByte_append t hu] at hsplit
        exact (Prod.mk.inj (Option.some.inj hsplit)).1.symm
      · have hm : colon ∈ u ++ rest := by
          rw [← he]
          exact List.mem_append_right _ List.mem_cons_self
        rcases List.mem_append.mp hm with hm | hm
        · exact absurd hm hu
        · exact absurd hm hnone
    · rintro rfl
      obtain rfl := List.append_cancel_left he
      simp [behindUser]

theorem eqPrefix_iff {cred u : Bytes} (hc : nul ∉ cred) (hu : nul ∉ u) :
    eqPrefix cred u u.length = true ↔ u <+: cred := by
  have hcut : cstr (cred.take u.length) = cred.take u.length :=
    cstr_eq_self fun hm => hc (List.mem_of_mem_take hm)
  rw [eqPrefix, List.take_length, hcut, cstr_eq_self hu, beq_iff_eq]
  constructor
  · intro h
    rw [← h]
    exact List.take_prefix _ _
  · exact fun h => (List.prefix_iff_eq_take.mp h).symm

/-- The search finds the first entry of the user. -/
theorem findCredential_eq {u : Bytes} (hu : colon ∉ u) (hnul : nul ∉ u)
    (creds : List Credential) :
    findCredential u (creds.map Credential.entry) =
      .ok ((creds.find? fun c => c.user == u).map fun c =>
        (c.entry, c.entry.drop u.length)) := by
  induction creds with
  | nil => rfl
  | cons c creds ih =>
    rw [List.map_cons, findCredential]
    by_cases hpre : u <+: c.entry
    · obtain ⟨rest, hrest⟩ := hpre
      have hiff := behindUser_iff c hu hrest.symm
      have hdrop : c.entry.drop u.length = rest := by rw [← hrest, List.drop_left]
      have hlong : ¬ c.entry.length < u.length := by
        rw [← hrest, List.length_append]; omega
      rw [if_pos ((eqPrefix_iff (entry_nul c) hnul).mpr ⟨rest, hrest⟩), if_neg hlong, hdrop]
      by_cases huser : c.user = u
      · have hmatch := hiff.mpr huser
        unfold behindUser at hmatch
        rw [List.find?_cons_of_pos (by simpa using huser), Option.map_some, hdrop]
        simp only [Bool.or_eq_true, beq_iff_eq] at hmatch
        rw [if_pos (by simpa using hmatch)]
      · have hmatch : ¬ behindUser rest = true := fun h => huser (hiff.mp h)
        unfold behindUser at hmatch
        simp only [Bool.or_eq_true, beq_iff_eq] at hmatch
        rw [List.find?_cons_of_neg (by simpa using huser), if_neg (by simpa using hmatch), ih]
    · have huser : ¬ c.user = u := by
        rintro rfl
        refine hpre ?_
        unfold Credential.entry
        split <;> exact List.prefix_append _ _
      rw [if_neg fun h => hpre ((eqPrefix_iff (entry_nul c) hnul).mp h),
        List.find?_cons_of_neg (by simpa using huser), ih]

end Credentials

section Buffers

/-- Appending one piece after the other is appending them all at once. -/
theorem appendAll_eq {mb : MemBuf} (hmb : mb.dataLen + 1 < uintSize) (pieces : List Bytes) :
    pieces.foldlM mbAppendData mb =
      if mb.dataLen + pieces.flatten.length + 1 < uintSize
      then .ok ⟨mb.data ++ pieces.flatten⟩ else .error .heapOverflow := by
  induction pieces generalizing mb with
  | nil =>
    rw [List.foldlM_nil, if_pos (by simpa using hmb), List.flatten_nil, List.append_nil]
    rfl
  | cons piece pieces ih =>
    rw [List.foldlM_cons, List.flatten_cons, List.length_append]
    by_cases hfit : mb.dataLen + piece.length + 1 < uintSize
    · have hlen : (⟨mb.data ++ piece⟩ : MemBuf).dataLen = mb.dataLen + piece.length :=
        List.length_append
      have hrec := @ih ⟨mb.data ++ piece⟩ (by rw [hlen]; exact hfit)
      rw [hlen] at hrec
      rw [mbAppendData, if_pos hfit, ← Nat.add_assoc, ← List.append_assoc]
      exact hrec
    · rw [mbAppendData, if_neg hfit, if_neg (by omega)]
      rfl

end Buffers

section Response

/-- The text whose digest is the response. -/
def responseText (ha1 nonce nc cnonce a2 : Bytes) : Bytes :=
  ha1 ++ (colon :: nonce ++ (colon :: nc ++ (colon :: cnonce ++ (ascii ":auth:" ++ a2))))

theorem digestResponse_eq (cfg : Config) (requestMethod : Bytes) (d : DigestParams) :
    digestResponse cfg requestMethod d = (do
      let response ← [List.replicate 32 nul, [colon], d.nonce, [colon], d.nc, [colon], d.cnonce,
        ascii ":auth:"].foldlM mbAppendData mbNew
      let a ← [cstr requestMethod, [colon], d.uri].foldlM mbAppendData mbNew
      let response ← mbAppendData response (cstr (cfg.md5 a.data))
      match ← configGetDigestAuthCredential cfg d.username with
      | none => return false
      | some ha1 =>
        let response ← mbSetData response 0 (ha1.take 32)
        return d.response == cfg.md5 response.data) := by
  have hcolon : cstr [colon] = [colon] := rfl
  have hauth : cstr (ascii ":auth:") = ascii ":auth:" := rfl
  simp only [digestResponse, List.foldlM_cons, List.foldlM_nil, bind_assoc, mbAppendStr,
    mbAppendStrL, bind_pure, hcolon, hauth]
  rfl

theorem find?_user {creds : List Credential} (hdistinct : (creds.map Credential.user).Nodup)
    {u : Bytes} {c : Credential} :
    creds.find? (fun c => c.user == u) = some c ↔ c ∈ creds ∧ c.user = u := by
  constructor
  · intro h
    exact ⟨List.mem_of_find?_eq_some h, by simpa using List.find?_some h⟩
  · rintro ⟨hc, rfl⟩
    induction creds with
    | nil => cases hc
    | cons k creds ih =>
      rw [List.map_cons, List.nodup_cons] at hdistinct
      rcases List.mem_cons.mp hc with rfl | hc
      · exact List.find?_cons_of_pos (by simp)
      · have hne : k.user ≠ c.user := fun he => hdistinct.1 (he ▸ List.mem_map_of_mem hc)
        rw [List.find?_cons_of_neg (by simpa using hne)]
        exact ih hdistinct.2 hc

/-- The digest of a password fits into its buffer. -/
def PasswordFits (c : Credential) : Prop :=
  c.isHash = true ∨ c.user.length + c.secret.length + 15 < uintSize

theorem configGetDigestAuthCredential_long (cfg : Config) {u : Bytes}
    (hlong : 2 ^ 31 ≤ u.length) : configGetDigestAuthCredential cfg u = .ok none := by
  rw [configGetDigestAuthCredential, if_pos hlong]
  rfl

theorem configGetDigestAuthCredential_eq {cfg : Config} {creds : List Credential}
    (hcfg : cfg.credentials = creds.map Credential.entry) {u : Bytes} (hu : colon ∉ u)
    (hnul : nul ∉ u) (hshort : u.length < 2 ^ 31) :
    match creds.find? (fun c => c.user == u) with
    | none => configGetDigestAuthCredential cfg u = .ok none
    | some c => (PasswordFits c → configGetDigestAuthCredential cfg u =
          .ok (some (c.ha1 cfg.md5))) ∧
        (¬ PasswordFits c → ∃ f, configGetDigestAuthCredential cfg u = .error f) := by
  have hfind := findCredential_eq hu hnul creds
  have hlong : ¬ 2 ^ 31 ≤ u.length := by omega
  rw [← hcfg] at hfind
  cases hc : creds.find? (fun c => c.user == u) with
  | none =>
    rw [hc] at hfind
    simp only [configGetDigestAuthCredential, if_neg hlong, hfind]
    rfl
  | some c =>
    have huser : c.user = u := by simpa using List.find?_some hc
    rw [hc, ← huser] at hfind
    rw [← huser] at hlong ⊢
    simp only [configGetDigestAuthCredential, if_neg hlong, hfind, Option.map_some]
    unfold PasswordFits Credential.entry Credential.ha1
    cases hh : c.isHash with
    | true =>
      obtain ⟨hlen, hclean⟩ := c.hash_clean hh
      have hhead : ¬ (c.secret.head? = some colon) := fun he =>
        hclean (List.mem_of_mem_head? he)
      simp only [if_true, List.drop_left, true_or, not_true_eq_false, false_imp_iff, and_true,
        forall_const]
      show (if c.secret.head? = some colon then _ else _) = _
      rw [if_neg hhead]
      rfl
    | false =>
      have htake : (c.user ++ colon :: c.secret).take (c.user.length + 1) = c.user ++ [colon] := by
        rw [List.take_append, List.take_of_length_le (by omega)]
        simp
      have htext : cstr (colon :: c.secret) = colon :: c.secret := by
        refine cstr_eq_self fun hm => ?_
        rcases List.mem_cons.mp hm with hm | hm
        · exact absurd hm (by decide)
        · exact c.secret_text hm
      have hrealm : cstr fmRealm = fmRealm := by decide +kernel
      have hlen :
          (mbNew.dataLen + [c.user ++ [colon], fmRealm, colon :: c.secret].flatten.length + 1
          < uintSize) ↔ c.user.length + c.secret.length + 15 < uintSize := by
        have hr : fmRealm.length = 12 := rfl
        have hz : mbNew.dataLen = 0 := rfl
        simp only [List.flatten_cons, List.flatten_nil, List.length_append, List.length_cons,
          List.length_nil, hr, hz]
        omega
      have hcred : (if (colon :: c.secret).head? = some colon then do
            let mb ← mbAppendData mbNew ((c.user ++ colon :: c.secret).take (c.user.length + 1))
            let mb ← mbAppendStr mb fmRealm
            let mb ← mbAppendStr mb (colon :: c.secret)
            return some (cfg.md5 mb.data)
          else return some (colon :: c.secret) : Except Fault (Option Bytes)) = (do
            let mb ← [c.user ++ [colon], fmRealm, colon :: c.secret].foldlM mbAppendData mbNew
            return some (cfg.md5 mb.data)) := by
        simp only [List.head?_cons, if_true, htake, mbAppendStr, hrealm, htext, List.foldlM_cons,
          List.foldlM_nil, bind_pure, bind_assoc]
      rw [appendAll_eq (by decide)] at hcred
      simp only [Bool.false_eq_true, if_false, false_or, List.drop_left]
      refine ⟨fun hfit => ?_, fun hfit => ?_⟩
      · rw [if_pos (hlen.mpr hfit)] at hcred
        refine hcred.trans ?_
        simp [bind, Except.bind, pure, Except.pure, mbNew]
      · rw [if_neg fun h => hfit (hlen.mp h)] at hcred
        exact ⟨_, hcred⟩

/-- The sizes of the two buffers whose digests are compared. -/
def SizesFit (requestMethod : Bytes) (d : DigestParams) : Prop :=
  d.nonce.length + d.nc.length + d.cnonce.length + 74 < uintSize ∧
    requestMethod.length + d.uri.length + 2 < uintSize

/-- A digest function gives 32 characters. -/
def IsDigest (md5 : Bytes → Bytes) : Prop := ∀ s, (md5 s).length = 32 ∧ nul ∉ md5 s

/-- The response for an entry of the table. -/
def expectedResponse (md5 : Bytes → Bytes) (requestMethod : Bytes) (d : DigestParams)
    (c : Credential) : Bytes :=
  md5 (responseText (c.ha1 md5) d.nonce d.nc d.cnonce
    (md5 (requestMethod ++ colon :: d.uri)))

theorem ha1_length {md5 : Bytes → Bytes} (hmd5 : IsDigest md5) (c : Credential) :
    (c.ha1 md5).length = 32 := by
  unfold Credential.ha1
  split
  · rename_i h
    exact (c.hash_clean h).1
  · exact (hmd5 _).1

/-- The digest of A1 is set in front of what was appended. -/
theorem set_ha1 {ha1 rest : Bytes} (h : ha1.length = 32) :
    mbSetData ⟨List.replicate 32 nul ++ rest⟩ 0 (ha1.take 32) = .ok ⟨ha1 ++ rest⟩ := by
  have htake : ha1.take 32 = ha1 := List.take_of_length_le (by omega)
  have hfit : ¬ (⟨List.replicate 32 nul ++ rest⟩ : MemBuf).dataLen < 0 + (ha1.take 32).length := by
    rw [htake, MemBuf.dataLen, List.length_append, List.length_replicate]
    omega
  rw [mbSetData, if_neg hfit, htake, overwrite, List.take_zero, List.nil_append, Nat.zero_add, h,
    List.drop_left' List.length_replicate]

theorem digestResponse_of_fits {cfg : Config} (hmd5 : IsDigest cfg.md5) {requestMethod : Bytes}
    (hmethod : nul ∉ requestMethod) {d : DigestParams} (hfit : SizesFit requestMethod d) :
    digestResponse cfg requestMethod d = (do
      match ← configGetDigestAuthCredential cfg d.username with
      | none => return false
      | some ha1 =>
        let response ← mbSetData ⟨List.replicate 32 nul ++ (colon :: d.nonce ++ (colon :: d.nc ++
          (colon :: d.cnonce ++ (ascii ":auth:" ++
            cfg.md5 (requestMethod ++ colon :: d.uri)))))⟩ 0 (ha1.take 32)
        return d.response == cfg.md5 response.data) := by
  obtain ⟨hresponse, hrequest⟩ := hfit
  obtain ⟨hlen, hnul⟩ := hmd5 (requestMethod ++ colon :: d.uri)
  have hauth : (ascii ":auth:").length = 6 := rfl
  have hempty : mbNew.dataLen = 0 := rfl
  rw [digestResponse_eq, appendAll_eq (by decide), appendAll_eq (by decide), if_pos, if_pos,
    cstr_eq_self hmethod]
  · have hdata : mbNew.data ++ [requestMethod, [colon], d.uri].flatten =
        requestMethod ++ colon :: d.uri := by simp [mbNew]
    simp only [bind, Except.bind]
    rw [hdata, cstr_eq_self hnul, mbAppendData, if_pos]
    · simp [mbNew]
    · simp only [MemBuf.dataLen, mbNew, List.nil_append, List.flatten_cons, List.flatten_nil,
        List.length_append, List.length_replicate, List.length_cons, List.length_nil, hauth, hlen]
      omega
  · simp only [hempty, List.flatten_cons, List.flatten_nil, List.length_append, List.length_cons,
      List.length_nil, cstr_eq_self hmethod]
    omega
  · simp only [hempty, List.flatten_cons, List.flatten_nil, List.length_append,
      List.length_replicate, List.length_cons, List.length_nil, hauth]
    omega

theorem digestResponse_overflow {cfg : Config} (hmd5 : IsDigest cfg.md5) {requestMethod : Bytes}
    (hmethod : nul ∉ requestMethod) {d : DigestParams} (hfit : ¬ SizesFit requestMethod d) :
    ∃ f, digestResponse cfg requestMethod d = .error f := by
  obtain ⟨hlen, hnul⟩ := hmd5 (requestMethod ++ colon :: d.uri)
  have hauth : (ascii ":auth:").length = 6 := rfl
  have hempty : mbNew.dataLen = 0 := rfl
  have hfirst : (mbNew.dataLen + [List.replicate 32 nul, [colon], d.nonce, [colon], d.nc, [colon],
      d.cnonce, ascii ":auth:"].flatten.length + 1 < uintSize) ↔
      d.nonce.length + d.nc.length + d.cnonce.length + 42 < uintSize := by
    simp only [hempty, List.flatten_cons, List.flatten_nil, List.length_append,
      List.length_replicate, List.length_cons, List.length_nil, hauth]
    omega
  have hsecond : (mbNew.dataLen + [cstr requestMethod, [colon], d.uri].flatten.length + 1
      < uintSize) ↔ requestMethod.length + d.uri.length + 2 < uintSize := by
    simp only [hempty, List.flatten_cons, List.flatten_nil, List.length_append, List.length_cons,
      List.length_nil, cstr_eq_self hmethod]
    omega
  rw [digestResponse_eq, appendAll_eq (by decide), appendAll_eq (by decide)]
  by_cases h1 : d.nonce.length + d.nc.length + d.cnonce.length + 42 < uintSize
  · rw [if_pos (hfirst.mpr h1)]
    by_cases h2 : requestMethod.length + d.uri.length + 2 < uintSize
    · have hdata : mbNew.data ++ [cstr requestMethod, [colon], d.uri].flatten =
          requestMethod ++ colon :: d.uri := by simp [mbNew, cstr_eq_self hmethod]
      have hthird : ¬ d.nonce.length + d.nc.length + d.cnonce.length + 74 < uintSize :=
        fun h => hfit ⟨h, h2⟩
      rw [if_pos (hsecond.mpr h2)]
      simp only [bind, Except.bind]
      rw [hdata, cstr_eq_self hnul, mbAppendData, if_neg]
      · exact ⟨_, rfl⟩
      · simp only [MemBuf.dataLen, mbNew, List.nil_append, List.flatten_cons, List.flatten_nil,
          List.length_append, List.length_replicate, List.length_cons, List.length_nil, hauth, hlen]
        omega
    · rw [if_neg fun h => h2 (hsecond.mp h)]
      exact ⟨_, rfl⟩
  · rw [if_neg fun h => h1 (hfirst.mp h)]
    exact ⟨_, rfl⟩

end Response

section Parameters

/-- The value of the last parameter with a name, if there is one. -/
def lastOf (name : Bytes) (value : Bytes) (params : List (Bytes × Bytes)) : Bytes :=
  params.foldl (fun v p => if p.1 = name then p.2 else v) value

/-- The parameters have exactly one of this name, and this is its value. -/
def Given (params : List (Bytes × Bytes)) (name value : Bytes) : Prop :=
  (params.filter fun p => p.1 == name).map Prod.snd = [value]

theorem lastOf_given {params : List (Bytes × Bytes)} {name value : Bytes}
    (h : Given params name value) (other : Bytes) : lastOf name other params = value := by
  have hfold : lastOf name other params =
      ((params.filter fun p => p.1 == name).map Prod.snd).foldl (fun _ v => v) other := by
    rw [List.foldl_map, List.foldl_filter]
    simp only [lastOf, beq_iff_eq]
  rw [hfold, show ((params.filter fun p => p.1 == name).map Prod.snd) = [value] from h]
  rfl

theorem Given.mem {params : List (Bytes × Bytes)} {name value v : Bytes}
    (h : Given params name value) (hm : (name, v) ∈ params) : v = value := by
  have hv : v ∈ (params.filter fun p => p.1 == name).map Prod.snd :=
    List.mem_map.mpr ⟨(name, v), List.mem_filter.mpr ⟨hm, beq_self_eq_true name⟩, rfl⟩
  rw [show ((params.filter fun p => p.1 == name).map Prod.snd) = [value] from h] at hv
  exact List.mem_singleton.mp hv

/-- What a parameter sets, as one record. -/
def setParam (d : DigestParams) (name value : Bytes) : DigestParams where
  username := if name = ascii "username" then value else d.username
  nonce := if name = ascii "nonce" then value else d.nonce
  uri := if name = ascii "uri" then value else d.uri
  response := if name = ascii "response" then value else d.response
  nc := if name = ascii "nc" then value else d.nc
  cnonce := if name = ascii "cnonce" then value else d.cnonce

theorem digestParam_eq (d : DigestParams) (p : Param)
    (hrealm : p.name = ascii "realm" → p.value = fmRealm) :
    digestParam d p = some (setParam d p.name p.value) := by
  obtain ⟨name, value, rest⟩ := p
  unfold digestParam
  dsimp only at hrealm ⊢
  by_cases h1 : name = ascii "username"
  · subst h1; rfl
  by_cases h2 : name = ascii "realm"
  · rw [if_neg h1, if_pos h2, if_pos (hrealm h2)]
    subst h2; rfl
  by_cases h3 : name = ascii "nonce"
  · subst h3; rfl
  by_cases h4 : name = ascii "uri"
  · subst h4; rfl
  by_cases h5 : name = ascii "response"
  · subst h5; rfl
  by_cases h6 : name = ascii "nc"
  · subst h6; rfl
  by_cases h7 : name = ascii "cnonce"
  · subst h7; rfl
  simp only [h1, h2, h3, h4, h5, h6, h7, if_false, setParam]

/-- The loop over the parameters takes the last value of each name. -/
theorem foldlM_digestParam (params : List Param) (d : DigestParams)
    (hrealm : ∀ p ∈ params, p.name = ascii "realm" → p.value = fmRealm) :
    params.foldlM digestParam d =
      let values := params.map fun p => (p.name, p.value)
      some {
        username := lastOf (ascii "username") d.username values
        nonce := lastOf (ascii "nonce") d.nonce values
        uri := lastOf (ascii "uri") d.uri values
        response := lastOf (ascii "response") d.response values
        nc := lastOf (ascii "nc") d.nc values
        cnonce := lastOf (ascii "cnonce") d.cnonce values } := by
  induction params generalizing d with
  | nil => rfl
  | cons p params ih =>
    rw [List.foldlM_cons, digestParam_eq d p (hrealm p List.mem_cons_self)]
    exact ih (setParam d p.name p.value) fun q hq => hrealm q (.tail _ hq)

end Parameters

/-- An `Authorization` value: the scheme, the parameters in any order and style, the values
of those that count. -/
structure DigestLogin where
  lead : Bytes
  gap : Bytes
  params : List (ParamText comma)
  username : Bytes
  nonce : Bytes
  uri : Bytes
  response : Bytes
  nc : Bytes
  cnonce : Bytes
  lead_blank : Blank lead
  gap_blank : Blank gap
  gap_nonempty : gap ≠ []
  username_clean : colon ∉ username
  given : ∀ p ∈ [(ascii "username", username), (ascii "realm", fmRealm), (ascii "nonce", nonce),
    (ascii "uri", uri), (ascii "response", response), (ascii "nc", nc), (ascii "cnonce", cnonce)],
    Given (params.map fun p => (p.name, p.value)) p.1 p.2

namespace DigestLogin

variable (x : DigestLogin)

def text : Bytes := x.lead ++ (ascii "Digest" ++ (x.gap ++ paramList comma x.params))

/-- The values that the check has to use. -/
def digestParams : DigestParams :=
  ⟨x.username, x.nonce, x.uri, x.response, x.nc, x.cnonce⟩

theorem scheme_found (p : ParamText comma) (ps : List (ParamText comma))
    (hps : x.params = p :: ps) :
    dchExtractTillWS x.text = some (ascii "Digest", paramList comma (p.stripped :: ps)) := by
  obtain ⟨b, gap, hgap⟩ := List.exists_cons_of_ne_nil x.gap_nonempty
  have hb : isWhiteSpace b = true := x.gap_blank b (hgap ▸ List.mem_cons_self)
  have hskip : skipLeadingWS x.text = ascii "Digest" ++ (x.gap ++ paramList comma x.params) :=
    skipLeadingWS_blank _ x.lead_blank fun b hb => by
      obtain rfl : 68 = b := Option.some.inj hb
      rfl
  have hword : ∀ b ∈ ascii "Digest", (! isWhiteSpace b) = true := by decide +kernel
  have hcons : ascii "Digest" ++ (x.gap ++ paramList comma x.params) =
      68 :: (ascii "igest" ++ (x.gap ++ paramList comma x.params)) := rfl
  rw [dchExtractTillWS, hskip, hcons]
  dsimp only
  rw [← hcons, List.takeWhile_append_of_pos hword, List.dropWhile_append_of_pos hword, hgap,
    List.cons_append, List.takeWhile_cons_of_neg (by simp [hb]),
    List.dropWhile_cons_of_neg (by simp [hb]), ← List.cons_append, ← hgap, hps,
    skipLeadingWS_paramList x.gap_blank, List.append_nil]

/-- The check finds the values that were written. -/
theorem authIsClientAuthorized_eq (cfg : Config) (requestMethod : Bytes) (hnul : nul ∉ x.text)
    (hshort : x.text.length < uintSize) :
    authIsClientAuthorized cfg x.text requestMethod =
      digestResponse cfg requestMethod x.digestParams := by
  have hgiven := x.given
  simp only [List.forall_mem_cons] at hgiven
  obtain ⟨husername, hrealm, hnonce, huri, hresponse, hnc, hcnonce, -⟩ := hgiven
  obtain ⟨p, ps, hps⟩ : ∃ p ps, x.params = p :: ps := by
    refine List.exists_cons_of_ne_nil fun hnil => ?_
    rw [hnil] at husername
    cases husername
  have hvalues : (dchAllParams (paramList comma (p.stripped :: ps)) comma).map
      (fun p => (p.name, p.value)) = x.params.map fun p => (p.name, p.value) := by
    rw [dchAllParams, dchParams_text isDelimiter_comma _ (length_le_paramList _), hps]
    rfl
  have hfold := foldlM_digestParam (dchAllParams (paramList comma (p.stripped :: ps)) comma) {}
    fun q hq hname => by
      have hm : (q.name, q.value) ∈ x.params.map fun p => (p.name, p.value) :=
        hvalues ▸ List.mem_map.mpr ⟨q, hq, rfl⟩
      rw [hname] at hm
      exact hrealm.mem hm
  rw [hvalues] at hfold
  have hscheme : (! eqIgnoreCase (ascii "Digest") (ascii "Digest")) = false := by
    rw [eqIgnoreCase, beq_self_eq_true]
    rfl
  have htext : dchInitWithStr x.text = x.text := by
    rw [dchInitWithStr, cstr_eq_self hnul, Nat.mod_eq_of_lt hshort, List.take_length]
  rw [authIsClientAuthorized, htext, x.scheme_found p ps hps]
  dsimp only
  rw [hscheme, if_neg (by decide), hfold]
  dsimp only
  rw [lastOf_given husername, lastOf_given hnonce, lastOf_given huri, lastOf_given hresponse,
    lastOf_given hnc, lastOf_given hcnonce]
  rfl

/-- The values of the parameters are parts of the text. -/
theorem username_nul (hnul : nul ∉ x.text) : nul ∉ x.username := by
  have hgiven := x.given (ascii "username", x.username) List.mem_cons_self
  have hm : x.username ∈ ((x.params.map fun p => (p.name, p.value)).filter
      fun p => p.1 == ascii "username").map Prod.snd := by
    rw [show _ = [x.username] from hgiven]
    exact List.mem_singleton_self _
  obtain ⟨v, hv, hname⟩ := List.mem_map.mp hm
  obtain ⟨p, hp, rfl⟩ := List.mem_map.mp (List.mem_of_mem_filter hv)
  rw [← hname]
  intro hb
  refine hnul ?_
  rw [text]
  exact List.mem_append_right _ (List.mem_append_right _ (List.mem_append_right _
    (mem_paramList hp (p.mem_text hb))))

/-- What the digest of A1 of an entry makes the response. -/
def expected (md5 : Bytes → Bytes) (requestMethod : Bytes) (c : Credential) : Bytes :=
  md5 (responseText (c.ha1 md5) x.nonce x.nc x.cnonce (md5 (requestMethod ++ colon :: x.uri)))

/-- The sizes in the check fit into their 32 bits: those of the buffers, that of the digest of
a password, and the length of the name, unless the response is wrong anyway. -/
structure Fits (md5 : Bytes → Bytes) (creds : List Credential) (requestMethod : Bytes) : Prop where
  response : x.nonce.length + x.nc.length + x.cnonce.length + 74 < 2 ^ 32
  request : requestMethod.length + x.uri.length + 2 < 2 ^ 32
  password : x.username.length < 2 ^ 31 → ∀ c ∈ creds, c.user = x.username → PasswordFits c
  name : 2 ^ 31 ≤ x.username.length → ∀ c ∈ creds, c.user = x.username →
    x.response ≠ x.expected md5 requestMethod c

variable {cfg : Config} {creds : List Credential} {requestMethod : Bytes}

theorem authorized_overflow (hmd5 : IsDigest cfg.md5) (hmethod : nul ∉ requestMethod)
    (hnul : nul ∉ x.text) (hshort : x.text.length < uintSize)
    (hfit : ¬ SizesFit requestMethod x.digestParams) :
    ∃ f, authIsClientAuthorized cfg x.text requestMethod = .error f := by
  rw [x.authIsClientAuthorized_eq cfg requestMethod hnul hshort]
  exact digestResponse_overflow hmd5 hmethod hfit

/-- The verdict once the credential is known. -/
theorem authorized_of_credential (hmd5 : IsDigest cfg.md5) (hmethod : nul ∉ requestMethod)
    (hnul : nul ∉ x.text) (hshort : x.text.length < uintSize)
    (hfit : SizesFit requestMethod x.digestParams) :
    (configGetDigestAuthCredential cfg x.username = .ok none →
      authIsClientAuthorized cfg x.text requestMethod = .ok false) ∧
    (∀ c : Credential, configGetDigestAuthCredential cfg x.username = .ok (some (c.ha1 cfg.md5)) →
      authIsClientAuthorized cfg x.text requestMethod =
        .ok (x.response == x.expected cfg.md5 requestMethod c)) ∧
    (∀ f, configGetDigestAuthCredential cfg x.username = .error f →
      authIsClientAuthorized cfg x.text requestMethod = .error f) := by
  have heq := x.authIsClientAuthorized_eq cfg requestMethod hnul hshort
  rw [digestResponse_of_fits hmd5 hmethod hfit] at heq
  have huser : x.digestParams.username = x.username := rfl
  rw [huser] at heq
  refine ⟨fun h => ?_, fun c h => ?_, fun f h => ?_⟩
  · rw [h] at heq
    exact heq
  · rw [h] at heq
    refine heq.trans ?_
    dsimp only [bind, Except.bind]
    rw [set_ha1 (ha1_length hmd5 c)]
    rfl
  · rw [h] at heq
    exact heq

end DigestLogin

/-- The verdict is that of the digest rules exactly when the sizes fit. -/
theorem digest_login_iff (cfg : Config) (creds : List Credential)
    (hcfg : cfg.credentials = creds.map Credential.entry)
    (hdistinct : (creds.map Credential.user).Nodup) (hmd5 : IsDigest cfg.md5)
    (requestMethod : Bytes) (hmethod : nul ∉ requestMethod) (x : DigestLogin)
    (hnul : nul ∉ x.text) (hshort : x.text.length < uintSize) :
    (∃ b, authIsClientAuthorized cfg x.text requestMethod = .ok b ∧
      (b = true ↔ ∃ c ∈ creds, c.user = x.username ∧
        x.response = x.expected cfg.md5 requestMethod c)) ↔
      x.Fits cfg.md5 creds requestMethod := by
  by_cases hsizes : SizesFit requestMethod x.digestParams
  · obtain ⟨hnone, hsome, herror⟩ := x.authorized_of_credential hmd5 hmethod hnul hshort hsizes
    by_cases hlong : 2 ^ 31 ≤ x.username.length
    · rw [hnone (configGetDigestAuthCredential_long cfg hlong)]
      constructor
      · rintro ⟨b, hb, hiff⟩
        obtain rfl := Except.ok.inj hb
        exact ⟨hsizes.1, hsizes.2, fun h => absurd h (by omega),
          fun _ c hc huser hresp => nomatch hiff.mpr ⟨c, hc, huser, hresp⟩⟩
      · intro hfits
        refine ⟨false, rfl, nofun, ?_⟩
        rintro ⟨c, hc, huser, hresp⟩
        exact absurd hresp (hfits.name hlong c hc huser)
    · have hcred := configGetDigestAuthCredential_eq hcfg x.username_clean
        (x.username_nul hnul) (by omega)
      cases hfind : creds.find? (fun c => c.user == x.username) with
      | none =>
        rw [hfind] at hcred
        have hno : ∀ c ∈ creds, ¬ c.user = x.username := fun c hc huser => by
          have h := List.find?_eq_none.mp hfind c hc
          exact h (by simpa using huser)
        rw [hnone hcred]
        constructor
        · rintro -
          exact ⟨hsizes.1, hsizes.2, fun _ c hc huser => absurd huser (hno c hc),
            fun h => absurd h hlong⟩
        · rintro -
          refine ⟨false, rfl, nofun, ?_⟩
          rintro ⟨c, hc, huser, -⟩
          exact absurd huser (hno c hc)
      | some c =>
        rw [hfind] at hcred
        obtain ⟨hc, huser⟩ := (find?_user hdistinct).mp hfind
        have honly : ∀ k ∈ creds, k.user = x.username → k = c := fun k hk hkuser =>
          Option.some.inj (((find?_user hdistinct).mpr ⟨hk, hkuser⟩).symm.trans hfind)
        by_cases hpass : PasswordFits c
        · rw [hsome c (hcred.1 hpass)]
          constructor
          · rintro -
            refine ⟨hsizes.1, hsizes.2, fun _ k hk hkuser => ?_, fun h => absurd h hlong⟩
            rw [honly k hk hkuser]
            exact hpass
          · rintro -
            refine ⟨_, rfl, fun h => ⟨c, hc, huser, beq_iff_eq.mp h⟩, ?_⟩
            rintro ⟨k, hk, hkuser, hresp⟩
            rw [honly k hk hkuser] at hresp
            exact beq_iff_eq.mpr hresp
        · obtain ⟨f, hf⟩ := hcred.2 hpass
          rw [herror f hf]
          constructor
          · rintro ⟨b, hb, -⟩; cases hb
          · exact fun hfits => absurd (hfits.password (by omega) c hc huser) hpass
  · obtain ⟨f, hf⟩ := x.authorized_overflow hmd5 hmethod hnul hshort hsizes
    rw [hf]
    constructor
    · rintro ⟨b, hb, -⟩; cases hb
    · exact fun hfits => absurd ⟨hfits.response, hfits.request⟩ hsizes

section Example

/-- A stand-in for the digest: a hexadecimal digit, 32 times. -/
def sumDigest (s : Bytes) : Bytes :=
  List.replicate 32 ((ascii "0123456789abcdef").getD ((s.foldl (· + ·) 0).toNat % 16) 48)

theorem sumDigest_isDigest : IsDigest sumDigest := by
  intro s
  have hclean : ∀ k < 16, (ascii "0123456789abcdef").getD k 48 ≠ nul := by decide +kernel
  have hdigit := hclean ((s.foldl (· + ·) 0).toNat % 16) (Nat.mod_lt _ (by decide))
  exact ⟨List.length_replicate, fun hm => hdigit (List.eq_of_mem_replicate hm).symm⟩

theorem blank_space : Blank [space] := by decide +kernel

/-- A parameter in quotes behind a blank. -/
def quotedParam (name value : Bytes) (hname : name ≠ [] ∧ Trimmed name ∧ equalsSign ∉ name)
    (hvalue : quote ∉ value) : ParamText comma where
  name := name
  value := value
  quoted := true
  lead := [space]
  behindName := []
  beforeValue := []
  trail := []
  lead_blank := blank_space
  behindName_blank := blank_nil
  beforeValue_blank := blank_nil
  trail_blank := blank_nil
  name_nonempty := hname.1
  name_trimmed := hname.2.1
  name_clean := hname.2.2
  value_clean := hvalue

def ann : Credential where
  user := ascii "ann"
  secret := ascii "pw"
  isHash := false
  user_clean := by decide +kernel
  user_text := by decide +kernel
  secret_text := by decide +kernel
  hash_clean := fun h => Bool.noConfusion h

/-- What `ann` answers to the nonce `5f`. -/
def annResponse : Bytes :=
  sumDigest (responseText (ann.ha1 sumDigest) (ascii "5f") (ascii "1") (ascii "c=1, d")
    (sumDigest (ascii "GET" ++ colon :: [slash])))

/-- A login of `ann` with a foreign parameter in it. -/
def annLogin : DigestLogin where
  lead := [space]
  gap := [space]
  params := [
    quotedParam (ascii "username") (ascii "ann") (by decide +kernel) (by decide +kernel),
    quotedParam (ascii "qop") (ascii "auth") (by decide +kernel) (by decide +kernel),
    quotedParam (ascii "realm") fmRealm (by decide +kernel) (by decide +kernel),
    quotedParam (ascii "cnonce") (ascii "c=1, d") (by decide +kernel) (by decide +kernel),
    quotedParam (ascii "nonce") (ascii "5f") (by decide +kernel) (by decide +kernel),
    quotedParam (ascii "nc") (ascii "1") (by decide +kernel) (by decide +kernel),
    quotedParam (ascii "uri") [slash] (by decide +kernel) (by decide +kernel),
    quotedParam (ascii "response") annResponse (by decide +kernel) (by decide +kernel)]
  username := ascii "ann"
  nonce := ascii "5f"
  uri := [slash]
  response := annResponse
  nc := ascii "1"
  cnonce := ascii "c=1, d"
  lead_blank := by decide +kernel
  gap_blank := by decide +kernel
  gap_nonempty := by decide
  username_clean := by decide +kernel
  given := by unfold Given; decide +kernel

/-- The table has `ann` and a user with a stored hash. -/
def annConfig : Config :=
  { bareConfig with
    credentials := [ascii "bob" ++ List.replicate 32 48, ascii "ann:pw"]
    md5 := sumDigest }

def bob : Credential where
  user := ascii "bob"
  secret := List.replicate 32 48
  isHash := true
  user_clean := by decide +kernel
  user_text := by decide +kernel
  secret_text := by decide +kernel
  hash_clean := by decide +kernel

theorem annLogin_fits : annLogin.Fits sumDigest [bob, ann] (ascii "GET") where
  response := by decide +kernel
  request := by decide +kernel
  password _ c hc _ := by
    rcases List.mem_cons.mp hc with rfl | hc
    · exact .inl rfl
    · obtain rfl := List.mem_singleton.mp hc
      right
      decide +kernel
  name hlong := absurd hlong (by decide +kernel)

theorem digest_login_iff_ann :
    ∃ b, authIsClientAuthorized annConfig annLogin.text (ascii "GET") = .ok b ∧
      (b = true ↔ ∃ c ∈ [bob, ann], c.user = ascii "ann" ∧
        annResponse = annLogin.expected sumDigest (ascii "GET") c) :=
  (digest_login_iff annConfig [bob, ann] (by decide +kernel) (by decide +kernel)
    sumDigest_isDigest (ascii "GET") (by decide +kernel) annLogin (by decide +kernel)
    (by decide +kernel)).mpr annLogin_fits

/-- A method of 4 GiB, which fits into a request line, makes the text for the second digest
overrun its buffer: the login of `ann` is never decided. -/
theorem digest_login_overflow :
    ¬ ∃ b, authIsClientAuthorized annConfig annLogin.text (List.replicate (2 ^ 32 - 3) 65) =
        .ok b ∧ (b = true ↔ ∃ c ∈ [bob, ann], c.user = ascii "ann" ∧
          annResponse = annLogin.expected sumDigest (List.replicate (2 ^ 32 - 3) 65) c) := by
  rintro ⟨b, hb, -⟩
  have hmethod : nul ∉ List.replicate (2 ^ 32 - 3) (65 : Byte) := fun hm =>
    absurd (List.eq_of_mem_replicate hm) (by decide)
  have hlong : ¬ SizesFit (List.replicate (2 ^ 32 - 3) 65) annLogin.digestParams := fun h => by
    have hrequest := h.2
    rw [List.length_replicate] at hrequest
    exact absurd hrequest (by decide +kernel)
  have hdigest : IsDigest annConfig.md5 := sumDigest_isDigest
  obtain ⟨f, hf⟩ := annLogin.authorized_overflow hdigest hmethod (by decide +kernel)
    (by decide +kernel) hlong
  rw [hf] at hb
  cases hb

end Example

end FilemanagerHttpd.Audit
