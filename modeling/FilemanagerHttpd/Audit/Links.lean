import FilemanagerHttpd.Audit.ResponseText
import FilemanagerHttpd.Audit.RequestText
import FilemanagerHttpd.Audit.UrlPaths
import FilemanagerHttpd.Server.Environment

/-!
# Where a link leads

A link is written with HTML entities and read with percent escapes, and nothing is
escaped for the request line. So it leads back to what it names exactly when no byte of
that means something there.
-/

namespace FilemanagerHttpd.Audit

open Library Server

/-- What a request for a link is decoded to. -/
def followLink (link : Bytes) : RequestHeader :=
  decodeRequestStartLine { reqhdrNew with request := ascii "GET " ++ link ++ ascii " HTTP/1.1" }

structure LeadsTo (link target : Bytes) : Prop where
  path : (followLink link).path = some target
  query : (followLink link).query = none

instance (link target : Bytes) : Decidable (LeadsTo link target) :=
  decidable_of_iff ((followLink link).path = some target ∧ (followLink link).query = none)
    ⟨fun h => ⟨h.1, h.2⟩, fun h => ⟨h.1, h.2⟩⟩

/-- Text that stands for itself in a request line. -/
structure StandsForItself (text : Bytes) : Prop where
  percent : Server.percent ∉ text
  question : Server.question ∉ text
  space : Server.space ∉ text

section Decoding

/-- The path that is read where the text is followed by the version. -/
def readBack (text : Bytes) : Bytes := cstr (decodePath (text ++ ascii " HTTP/1.1")).1

theorem readBack_nil : readBack [] = [] := by decide +kernel

theorem readBack_stop {b : Byte} (rest : Bytes) (h : b = space ∨ b = question) :
    readBack (b :: rest) = [] := by
  rw [readBack, List.cons_append, decodePath_stop _ h]
  rfl

theorem readBack_raw {b : Byte} (rest : Bytes) (hnul : b ≠ nul)
    (h : ¬ (b = space ∨ b = question)) (hp : ¬ b = percent) :
    readBack (b :: rest) = b :: readBack rest := by
  rw [readBack, List.cons_append, decodePath_raw _ h hp, cstr,
    List.takeWhile_cons_of_pos (by simpa using hnul)]
  rfl

theorem readBack_hex (c d : Byte) (rest : Bytes) :
    readBack (percent :: c :: d :: rest) =
      if percentByte [c, d] = nul then [] else percentByte [c, d] :: readBack rest := by
  rw [readBack, List.cons_append, List.cons_append, List.cons_append, decodePath_hex, cstr,
    List.takeWhile_cons]
  by_cases h : percentByte [c, d] = nul
  · rw [if_neg (by simpa using h), if_pos h]
  · rw [if_pos (by simpa using h), if_neg h]
    rfl

/-- A percent sign at the end takes two bytes of the version. -/
theorem readBack_percent : readBack [percent] = [] := by decide +kernel

theorem decodePath_version : (decodePath (ascii "HTTP/1.1")).1 = ascii "HTTP/1.1" := by
  decide +kernel

/-- A percent sign before the last byte takes the space before the version. -/
theorem readBack_percent_byte (d : Byte) :
    readBack [percent, d] =
      if percentByte [d, space] = nul then [] else percentByte [d, space] :: ascii "HTTP/1.1" := by
  rw [readBack, show [percent, d] ++ ascii " HTTP/1.1" = percent :: d :: space :: ascii "HTTP/1.1"
    from rfl, decodePath_hex, decodePath_version, cstr, List.takeWhile_cons]
  by_cases h : percentByte [d, space] = nul
  · rw [if_neg (by simpa using h), if_pos h]
  · rw [if_pos (by simpa using h), if_neg h, show (ascii "HTTP/1.1").takeWhile (· != nul) =
      ascii "HTTP/1.1" by decide +kernel]

/-- What is read is no longer than the text, unless the version has become a part of it. -/
theorem readBack_short : ∀ text : Bytes, nul ∉ text →
    (readBack text).length ≤ text.length ∨
      ∃ r q d, readBack text = r ++ ascii "HTTP/1.1" ∧ r.length ≤ text.length ∧
        text = q ++ [percent, d]
  | [], _ => .inl (by rw [readBack_nil])
  | b :: rest, hnul => by
    by_cases hstop : b = space ∨ b = question
    · rw [readBack_stop rest hstop]
      exact .inl (Nat.zero_le _)
    by_cases hp : b = percent
    · subst hp
      match rest, hnul with
      | [], _ => exact .inl (by rw [readBack_percent]; exact Nat.zero_le _)
      | [d], _ =>
        rw [readBack_percent_byte]
        split
        · exact .inl (Nat.zero_le _)
        · exact .inr ⟨[percentByte [d, space]], [], d, rfl, by simp, rfl⟩
      | c :: d :: rest, hnul =>
        have ih := readBack_short rest fun h => hnul (by simp [h])
        rw [readBack_hex]
        split
        · exact .inl (Nat.zero_le _)
        · rcases ih with ih | ⟨r, q, e, hr, hlen, hq⟩
          · exact .inl (by simp only [List.length_cons]; omega)
          · refine .inr ⟨percentByte [c, d] :: r, percent :: c :: d :: q, e, ?_, ?_, ?_⟩
            · rw [hr]; rfl
            · simp only [List.length_cons]; omega
            · rw [hq]; rfl
    · have hb : b ≠ nul := fun h => hnul (by simp [h])
      rw [readBack_raw rest hb hstop hp]
      rcases readBack_short rest fun h => hnul (by simp [h]) with ih | ⟨r, q, d, hr, hlen, hq⟩
      · exact .inl (by simp only [List.length_cons]; omega)
      · refine .inr ⟨b :: r, b :: q, d, ?_, ?_, ?_⟩
        · rw [hr]; rfl
        · simp only [List.length_cons]; omega
        · rw [hq]; rfl

/-- So two bytes that were taken from the text are not made up for by what follows. -/
theorem readBack_ne {text : Bytes} (hnul : nul ∉ text) (c d : Byte) :
    readBack text ≠ c :: d :: text := by
  intro h
  rcases readBack_short text hnul with hlen | ⟨r, q, e, hr, -, hq⟩
  · rw [h] at hlen
    simp only [List.length_cons] at hlen
    omega
  · -- the last bytes are those of the version, and a percent sign is not among them
    have hlast : (c :: d :: (q ++ [percent, e])).reverse = (r ++ ascii "HTTP/1.1").reverse := by
      rw [← hr, h, hq]
    simp only [List.reverse_cons, List.reverse_append, List.append_assoc] at hlast
    have hdot : percent = dot := by
      have hsecond := congrArg (fun l => l[1]?) hlast
      simpa [ascii, dot] using hsecond
    exact absurd hdot (by decide)

theorem readBack_eq_self {text : Bytes} (hnul : nul ∉ text) :
    readBack text = text ↔ StandsForItself text := by
  induction text with
  | nil => exact ⟨fun _ => ⟨nofun, nofun, nofun⟩, fun _ => readBack_nil⟩
  | cons b rest ih =>
    have hrest : nul ∉ rest := fun h => hnul (List.mem_cons_of_mem b h)
    by_cases hstop : b = space ∨ b = question
    · rw [readBack_stop rest hstop]
      constructor
      · intro h; cases h
      · intro h
        rcases hstop with rfl | rfl
        · exact absurd List.mem_cons_self h.space
        · exact absurd List.mem_cons_self h.question
    by_cases hp : b = percent
    · subst hp
      constructor
      · intro h
        exfalso
        match rest, hrest, h with
        | [], _, h => rw [readBack_percent] at h; cases h
        | [d], _, h =>
          rw [readBack_percent_byte] at h
          split at h
          · cases h
          · exact absurd (congrArg List.length h) (by simp [ascii])
        | c :: d :: rest, hrest, h =>
          rw [readBack_hex] at h
          split at h
          · cases h
          · injection h with _ h
            exact readBack_ne (fun hm => hrest (by simp [hm])) c d h
      · intro h
        exact absurd List.mem_cons_self h.percent
    · rw [readBack_raw rest (fun h => hnul (by simp [h])) hstop hp]
      constructor
      · intro h
        injection h with _ h
        have hself := (ih hrest).mp h
        have hcons : ∀ c, c ≠ b → c ∉ rest → c ∉ b :: rest := fun c hc hm => by simp [hc, hm]
        refine ⟨hcons _ ?_ hself.percent, hcons _ ?_ hself.question, hcons _ ?_ hself.space⟩
        · exact fun he => hp he.symm
        · exact fun he => hstop (.inr he.symm)
        · exact fun he => hstop (.inl he.symm)
      · intro h
        rw [(ih hrest).mpr ⟨fun hm => h.percent (by simp [hm]), fun hm => h.question (by simp [hm]),
          fun hm => h.space (by simp [hm])⟩]

theorem decodePath_self {text : Bytes} (h : StandsForItself text) :
    decodePath (text ++ ascii " HTTP/1.1") = (text, ascii " HTTP/1.1") := by
  induction text with
  | nil => exact decodePath_stop _ (.inl rfl)
  | cons b rest ih =>
    have hstop : ¬ (b = space ∨ b = question) := by
      rintro (rfl | rfl)
      · exact h.space List.mem_cons_self
      · exact h.question List.mem_cons_self
    have hp : ¬ b = percent := by
      rintro rfl
      exact h.percent List.mem_cons_self
    rw [List.cons_append, decodePath_raw _ hstop hp, ih ⟨fun hm => h.percent (by simp [hm]),
      fun hm => h.question (by simp [hm]), fun hm => h.space (by simp [hm])⟩]

theorem decodeRequestStartLine_path {req : RequestHeader} {method src : Bytes}
    (h : splitAtByte space (cstr req.request) = some (method, src)) :
    (decodeRequestStartLine req).path = some (cstr (decodePath src).1) := by
  unfold decodeRequestStartLine
  simp only [h]
  split <;> rename_i heq <;> rw [heq]

theorem decodeRequestStartLine_query {req : RequestHeader} {method src path rest : Bytes}
    {b : Byte} (h : splitAtByte space (cstr req.request) = some (method, src))
    (hsrc : decodePath src = (path, b :: rest)) (hb : b ≠ 63) :
    (decodeRequestStartLine req).query = req.query := by
  unfold decodeRequestStartLine
  simp only [h, hsrc]
  split
  · rename_i heq
    injection heq with _ heq
    injection heq with he
    exact absurd he hb
  · rfl

theorem followLink_split {link : Bytes} (hnul : nul ∉ link) :
    splitAtByte space (cstr (ascii "GET " ++ link ++ ascii " HTTP/1.1")) =
      some (ascii "GET", link ++ ascii " HTTP/1.1") := by
  have hmethod : nul ∉ ascii "GET " := by decide
  have hversion : nul ∉ ascii " HTTP/1.1" := by decide
  have hline : nul ∉ ascii "GET " ++ link ++ ascii " HTTP/1.1" := by
    simp only [List.mem_append, not_or]
    exact ⟨⟨hmethod, hnul⟩, hversion⟩
  rw [cstr_eq_self hline, List.append_assoc]
  have hword : space ∉ ascii "GET" := by decide
  exact splitAtByte_append _ hword

theorem followLink_path {link : Bytes} (hnul : nul ∉ link) :
    (followLink link).path = some (readBack link) :=
  decodeRequestStartLine_path (followLink_split hnul)

/-- A link leads back exactly when it stands for itself. -/
theorem leadsTo_self_iff {link : Bytes} (hnul : nul ∉ link) :
    LeadsTo link link ↔ StandsForItself link := by
  constructor
  · intro h
    have hpath := h.path
    rw [followLink_path hnul] at hpath
    exact (readBack_eq_self hnul).mp (Option.some.inj hpath)
  · intro h
    constructor
    · rw [followLink_path hnul, (readBack_eq_self hnul).mpr h]
    · exact decodeRequestStartLine_query (followLink_split hnul) (decodePath_self h) (by decide)

end Decoding

section Rows

/-- A row of the page whose first link is to `href`. -/
structure RowLink (row href : Bytes) : Prop where
  text : ∃ before after, containsText (ascii "<a ") before = false ∧
    row = before ++ (ascii "<a href=\"" ++ (href ++ quote :: after))
  whole : quote ∉ href

/-- What the link of an entry names: the entry in the folder, with a slash behind a folder. -/
def entryUrl (urlPath : Bytes) (ent : FolderEntry) : Bytes :=
  dchTrimTrailing urlPath slash ++ slash :: (ent.fileName ++ if ent.isDir then [slash] else [])

theorem escapeHtml_entryUrl (urlPath : Bytes) (ent : FolderEntry) :
    escapeHtml (entryUrl urlPath ent) = escapeHtml (dchTrimTrailing urlPath slash) ++
      (slash :: (escapeHtml ent.fileName ++ if ent.isDir then [slash] else [])) := by
  have hslash : htmlEntity slash = none := by decide
  have hdir : escapeHtml (if ent.isDir then [slash] else []) =
      if ent.isDir then [slash] else [] := by
    cases ent.isDir <;> rfl
  rw [entryUrl, escapeHtml_append, escapeHtml_cons, hslash, escapeHtml_append, hdir]
  rfl

/-- The cell with the name of an entry. -/
theorem fmtText_link (urlPath : Bytes) {ent : FolderEntry} (hname : nul ∉ ent.fileName) :
    fmtText (ascii "<td><a href=\"%C/%S%R\">%S</a></td>\n")
        [.dch (dchTrimTrailing urlPath slash), .str ent.fileName,
          .str (ascii (if ent.isDir then "/" else "")), .str ent.fileName] =
      some (ascii "<td>" ++ (ascii "<a href=\"" ++ (escapeHtml (entryUrl urlPath ent) ++
        quote :: (ascii ">" ++ (escapeHtml ent.fileName ++ ascii "</a></td>\n"))))) := by
  have htext : ∀ dch name sep, fmtText (ascii "<td><a href=\"%C/%S%R\">%S</a></td>\n")
      [.dch dch, .str name, .str sep, .str name] =
        some (ascii "<td>" ++ (ascii "<a href=\"" ++ (escapeHtml dch ++ (slash ::
          (escapeHtml (cstr name) ++ (cstr sep ++ quote :: (ascii ">" ++
            (escapeHtml (cstr name) ++ ascii "</a></td>\n")))))))) := fun _ _ _ => rfl
  have hdir : cstr (ascii (if ent.isDir then "/" else "")) =
      if ent.isDir then [slash] else [] := by
    cases ent.isDir <;> rfl
  rw [htext, hdir, cstr_eq_self hname, escapeHtml_entryUrl]
  simp only [List.append_assoc, List.cons_append]

/-- The class of the coloured square. -/
def squareClass (ent : FolderEntry) (isCGI : Bool) : String :=
  if ent.isDir then "plusdir" else if isCGI then "pluscgi" else "plusfile"

def rowTop (ent : FolderEntry) : Bytes :=
  ascii (if ent.fileName.head? = some dot
    then "<tr class='rhidden' style='display: none'>\n" else "<tr>\n")

def squareFormat (isModifiable : Bool) : Bytes :=
  ascii (if isModifiable
    then "<td onclick=\"showOptions(this)\"><span class=\"%R\">+</span></td>\n"
    else "<td><span class=\"%R\">&sdot;</span></td>\n")

/-- There is no link before the name of the entry. -/
theorem square_text (ent : FolderEntry) (isModifiable isCGI : Bool) :
    ∃ square, fmtText (squareFormat isModifiable) [.str (ascii (squareClass ent isCGI))] =
        some square ∧
      containsText (ascii "<a ") (cstr (rowTop ent) ++ square ++ ascii "<td>") = false := by
  unfold rowTop squareClass
  by_cases hdot : ent.fileName.head? = some dot
  · rw [if_pos hdot]
    cases isModifiable <;> cases ent.isDir <;> cases isCGI <;>
      exact ⟨_, rfl, by decide +kernel⟩
  · rw [if_neg hdot]
    cases isModifiable <;> cases ent.isDir <;> cases isCGI <;>
      exact ⟨_, rfl, by decide +kernel⟩

variable {resp : RespBuf} {b urlPath : Bytes} {ent : FolderEntry}

/-- The row of an entry up to the end of its link. -/
theorem entryRow_link (urlPath : Bytes) (h : HasBody b resp) (hname : nul ∉ ent.fileName)
    (isModifiable isCGI : Bool) :
    ∃ before, containsText (ascii "<a ") before = false ∧
      Plain (BodyFrom (b ++ (before ++ (ascii "<a href=\"" ++
          (escapeHtml (entryUrl urlPath ent) ++ [quote])))))
        (entryRow resp (dchTrimTrailing urlPath slash) ent isModifiable isCGI) := by
  obtain ⟨square, hsquare, hbefore⟩ := square_text ent isModifiable isCGI
  refine ⟨_, hbefore, ?_⟩
  refine lift_bind (respAppendStr_text h (rowTop ent)) fun _ h => ?_
  refine (respAppendFmt_text h hsquare).bind fun _ h => ?_
  refine (respAppendFmt_text h (fmtText_link urlPath hname)).bind fun resp h => ?_
  have hfrom : BodyFrom (b ++ (cstr (rowTop ent) ++ square ++ ascii "<td>" ++
      (ascii "<a href=\"" ++ (escapeHtml (entryUrl urlPath ent) ++ [quote])))) resp := by
    refine ⟨ascii ">" ++ (escapeHtml ent.fileName ++ ascii "</a></td>\n"), ?_⟩
    simpa only [List.append_assoc, List.singleton_append] using h
  have hK := bodyKept_bodyFrom (b ++ (cstr (rowTop ent) ++ square ++ ascii "<td>" ++
    (ascii "<a href=\"" ++ (escapeHtml (entryUrl urlPath ent) ++ [quote]))))
  refine .bind (.ite (.lift (respAppendStr_sound hK hfrom _)) ?_) fun _ h =>
    .lift (respAppendStr_sound hK h _)
  exact lift_bind (formatSize_sound _) fun _ _ => respAppendFmt_plain hK hfrom _ _

/-- A row, with the menu of the entry behind it or without. -/
theorem row_link {before href : Bytes} (hbefore : containsText (ascii "<a ") before = false)
    (h : BodyFrom (b ++ (before ++ (ascii "<a href=\"" ++ (escapeHtml href ++ [quote])))) resp) :
    ∃ row, RowLink row (escapeHtml href) ∧ HasBody (b ++ row) resp := by
  obtain ⟨more, h⟩ := h
  refine ⟨before ++ (ascii "<a href=\"" ++ (escapeHtml href ++ quote :: more)),
    ⟨⟨before, more, hbefore, rfl⟩, special_not_mem_escapeHtml href quote (by decide)⟩, ?_⟩
  simpa only [List.append_assoc, List.singleton_append] using h

/-- The rows of a page are those of the entries, each with the link of its own. -/
structure PageRows (urlPath : Bytes) (folder : Folder) (rows : List Bytes) (resp : RespBuf) :
    Prop where
  body : ∃ top bottom, resp.body = some ⟨top ++ rows.flatten ++ bottom⟩
  links : List.Forall₂ (fun ent row => RowLink row (escapeHtml (entryUrl urlPath ent))) folder rows

set_option maxRecDepth 4096 in
theorem printFolderContents_links (cfg : Config) (urlPath : Bytes) {folder : Folder}
    (hnames : ∀ ent ∈ folder, nul ∉ ent.fileName) (isModifiable showLoginButton : Bool)
    (opErrorMsg : Option Bytes) :
    Plain (fun resp => ∃ rows, PageRows urlPath folder rows resp)
      (printFolderContents cfg urlPath folder isModifiable showLoginButton opErrorMsg false) := by
  have hK := bodyKept_bodyFrom []
  refine lift_bind (respNew_body _) fun _ h => ?_
  refine lift_bind (respAppendHeader_body h _ _) fun _ h => ?_
  refine (folderPageTop_plain _ _ hK h.bodyFrom _ _).bind fun _ h => ?_
  refine lift_bind (respAppendStr_sound hK h _) fun _ h =>
    (parentRow_plain _ hK h _).bind fun _ h => ?_
  obtain ⟨top, h⟩ := h
  refine lift_bind (entUrlPath_new urlPath) fun _ hnul =>
    lift_bind (entUrlPath_slash hnul) fun _ hmb => ?_
  refine (forEach_text (R := fun x row => RowLink row (escapeHtml (entryUrl urlPath x.1)))
    folder.zipIdx ?_ h).bind ?_
  · rintro ⟨ent, idx⟩ hent b resp h
    refine (entryIsCGI_plain cfg hmb ent).bind fun isCGI _ => ?_
    have hname := hnames ent (List.fst_mem_of_mem_zipIdx hent)
    obtain ⟨before, hbefore, hrow⟩ := entryRow_link urlPath h hname isModifiable isCGI
    refine hrow.bind fun _ h => ?_
    have hK := bodyKept_bodyFrom (b ++ (before ++ (ascii "<a href=\"" ++
      (escapeHtml (entryUrl urlPath ent) ++ [quote]))))
    refine Within.mono (?_ : Plain (BodyFrom _) _) (fun _ h => h) (fun _ h => h)
      fun _ h => row_link hbefore h
    exact .ite (entryMenu_plain _ _ hK h _ _) (.pure h)
  · rintro resp ⟨rows, hrows, h⟩
    have hK := bodyKept_bodyFrom ([] ++ top ++ rows.flatten)
    refine (respAppendFmt_plain hK h.bodyFrom _ _).mono (fun _ h => h) (fun _ h => h) ?_
    rintro resp ⟨bottom, h⟩
    refine ⟨rows, ⟨top, bottom, h⟩, ?_⟩
    have hfst : folder = folder.zipIdx.map Prod.fst := (List.zipIdx_map_fst 0 folder).symm
    rw [hfst]
    exact List.forall₂_map_left_iff.mpr hrows

end Rows

section Links

theorem standsForItself_append {s t : Bytes} :
    StandsForItself (s ++ t) ↔ StandsForItself s ∧ StandsForItself t := by
  constructor
  · intro h
    exact ⟨⟨fun hm => h.percent (List.mem_append_left t hm),
      fun hm => h.question (List.mem_append_left t hm),
      fun hm => h.space (List.mem_append_left t hm)⟩,
      ⟨fun hm => h.percent (List.mem_append_right s hm),
      fun hm => h.question (List.mem_append_right s hm),
      fun hm => h.space (List.mem_append_right s hm)⟩⟩
  · intro ⟨hs, ht⟩
    refine ⟨fun hm => ?_, fun hm => ?_, fun hm => ?_⟩
    · exact (List.mem_append.mp hm).elim hs.percent ht.percent
    · exact (List.mem_append.mp hm).elim hs.question ht.question
    · exact (List.mem_append.mp hm).elim hs.space ht.space

theorem standsForItself_slash : StandsForItself [slash] := ⟨by decide, by decide, by decide⟩

theorem standsForItself_nil : StandsForItself [] := ⟨nofun, nofun, nofun⟩

/-- The slashes that are trimmed stand for themselves. -/
theorem standsForItself_trim (urlPath : Bytes) :
    StandsForItself (dchTrimTrailing urlPath slash) ↔ StandsForItself urlPath := by
  constructor
  · intro h
    exact ⟨fun hm => h.percent (mem_dchTrimTrailing (by decide) hm),
      fun hm => h.question (mem_dchTrimTrailing (by decide) hm),
      fun hm => h.space (mem_dchTrimTrailing (by decide) hm)⟩
  · intro h
    exact ⟨fun hm => h.percent (mem_of_mem_dchTrimTrailing hm),
      fun hm => h.question (mem_of_mem_dchTrimTrailing hm),
      fun hm => h.space (mem_of_mem_dchTrimTrailing hm)⟩

theorem standsForItself_entryUrl (urlPath : Bytes) (ent : FolderEntry) :
    StandsForItself (entryUrl urlPath ent) ↔
      StandsForItself urlPath ∧ StandsForItself ent.fileName := by
  have hmark : StandsForItself (if ent.isDir then [slash] else []) := by
    cases ent.isDir
    · exact standsForItself_nil
    · exact standsForItself_slash
  have hslash : ∀ t, StandsForItself (slash :: t) ↔ StandsForItself t := by
    intro t
    rw [← List.singleton_append, standsForItself_append]
    exact and_iff_right standsForItself_slash
  rw [entryUrl, standsForItself_append, hslash, standsForItself_append, standsForItself_trim,
    and_iff_left hmark]

theorem nul_not_mem_entryUrl {urlPath : Bytes} (hurl : nul ∉ urlPath) {ent : FolderEntry}
    (hname : nul ∉ ent.fileName) : nul ∉ entryUrl urlPath ent := by
  have hmark : nul ∉ if ent.isDir then [slash] else [] := by cases ent.isDir <;> decide
  intro hm
  rcases List.mem_append.mp hm with hm | hm
  · exact hurl (mem_of_mem_dchTrimTrailing hm)
  · rcases List.mem_cons.mp hm with hm | hm
    · exact absurd hm (by decide)
    · exact (List.mem_append.mp hm).elim hname hmark

/-- The link of an entry, as a browser reads it. -/
theorem entry_link_iff {urlPath : Bytes} (hurl : nul ∉ urlPath) {ent : FolderEntry}
    (hname : nul ∉ ent.fileName) :
    LeadsTo (htmlUnescape (escapeHtml (entryUrl urlPath ent))) (entryUrl urlPath ent) ↔
      StandsForItself urlPath ∧ StandsForItself ent.fileName := by
  rw [htmlUnescape_escapeHtml, leadsTo_self_iff (nul_not_mem_entryUrl hurl hname),
    standsForItself_entryUrl]

end Links

end FilemanagerHttpd.Audit
