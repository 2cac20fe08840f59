import FilemanagerHttpd.Audit.CgiStart
import FilemanagerHttpd.Audit.ChunkedBody
import FilemanagerHttpd.Audit.Framing

/-!
# The output of a CGI program

A pipe delivers the output of a program in any pieces, with waits anywhere between them. The
header is cut off where it ends, and what follows it goes to the client in the chunked coding.
-/

namespace FilemanagerHttpd.Audit

open Library Server

/-- What reads from a pipe give of a text: its bytes in order, waits between them, and an end
only behind all of them. -/
structure PipeReads (out : Bytes) (reads : List ReadResult) : Prop where
  in_order : delivered reads <+: out
  waits : ∀ e, .fail e ∈ reads → e = .wouldBlock
  ends : ∀ before behind, reads = before ++ .got [] :: behind → delivered before = out

/-- The descriptor is the end of a pipe that a program has written this text to. -/
structure PipeOf (fd : Fd) (out : Bytes) (log : History) : Prop where
  reads : PipeReads out (readsFrom fd log)
  not_file : ∀ a, (⟨.fstat fd, a⟩ : Event) ∈ log → bytesOfStat a = -1

section Pipe

variable {fd : Fd} {out : Bytes} {reads : List ReadResult}

theorem PipeReads.earlier {behind : List ReadResult} (h : PipeReads out (reads ++ behind)) :
    PipeReads out reads where
  in_order := by
    have hprefix := h.in_order
    rw [delivered_append] at hprefix
    exact (List.prefix_append _ _).trans hprefix
  waits e he := h.waits e (List.mem_append_left _ he)
  ends before after hreads := by
    refine h.ends before (after ++ behind) ?_
    rw [hreads, List.append_assoc, List.cons_append]

theorem PipeOf.earlier {new log : History} (h : PipeOf fd out (new ++ log)) :
    PipeOf fd out log where
  reads := by
    have hreads := h.reads
    rw [readsFrom_append] at hreads
    exact hreads.earlier
  not_file a ha := h.not_file a (List.mem_append_right _ ha)

/-- When the reads have come to their end, everything has been delivered. -/
theorem PipeReads.all (h : PipeReads out reads) (hended : Ended reads) : delivered reads = out := by
  rcases hended with hlast | ⟨e, hne, hlast⟩
  · obtain ⟨before, rfl⟩ := List.getLast?_eq_some_iff.mp hlast
    rw [delivered_append, delivered_got, List.append_nil]
    exact h.ends before [] rfl
  · exact absurd (h.waits e (List.mem_of_getLast? hlast)) hne

end Pipe

section Header

/-- A part of a header block has been printed, and the parser has read it. -/
structure InHeader (block : Bytes) (hdr : DataHeader) (printed : Bytes) : Prop where
  read : feed datahdrReader.byte datahdrNew printed = .ok (hdr, none)
  more : ∃ left, left ≠ [] ∧ block = printed ++ left

variable {lines : List Bytes} {block printed : Bytes} {hdr : DataHeader}

theorem HeaderBlock.no_nul (hb : HeaderBlock lines block) : nul ∉ block := by
  have hlines : nul ∉ withEnds lines := by
    intro hm
    obtain ⟨l, hl, hm⟩ := List.mem_flatMap.mp hm
    rcases List.mem_append.mp hm with hm | hm
    · exact (hb.lines_ok l hl).no_nul hm
    · exact absurd hm (by decide)
  rcases hb.block_eq with rfl | rfl
  · intro hm
    rcases List.mem_append.mp hm with hm | hm
    · exact hlines hm
    · exact absurd hm (by decide)
  · intro hm
    rcases List.mem_append.mp hm with hm | hm
    · exact hlines hm
    · exact absurd hm (by decide)

theorem HeaderBlock.ne_nil (hb : HeaderBlock lines block) : block ≠ [] := by
  rcases hb.block_eq with rfl | rfl
  · exact List.append_ne_nil_of_right_ne_nil _ (List.cons_ne_nil _ _)
  · exact List.append_ne_nil_of_right_ne_nil _ (List.cons_ne_nil _ _)

theorem inHeader_new (hb : HeaderBlock lines block) : InHeader block datahdrNew [] :=
  ⟨rfl, block, hb.ne_nil, rfl⟩

/-- What is left of the block ends the header, not before its last byte. -/
theorem InHeader.ends (hb : HeaderBlock lines block) (hin : InHeader block hdr printed)
    {left : Bytes} (hblock : block = printed ++ left) {r : DataHeader × Option Bytes}
    (h : feed datahdrReader.byte hdr left = .ok r) :
    r.2 = some [] ∧ r.1.lines = lines.filterMap headerOf := by
  have hfeed : feed datahdrReader.byte datahdrNew (block ++ []) = .ok r := by
    rw [List.append_nil, hblock, feed_append, hin.read]
    exact h
  exact feed_headerBlock hb rfl hfeed

/-- One piece of the output: the header goes on, or it ends where the block does. -/
theorem datahdrAppendData_piece (hb : HeaderBlock lines block) (hin : InHeader block hdr printed)
    {piece body : Bytes} (hcut : printed ++ piece <+: block ++ body) {hdr' : DataHeader}
    {offset : Option Nat} (h : datahdrAppendData hdr piece = .ok (hdr', offset)) :
    (offset = none → InHeader block hdr' (printed ++ piece)) ∧
      ∀ n, offset = some n → hdr'.lines = lines.filterMap headerOf ∧
        printed ++ piece = block ++ piece.drop n := by
  obtain ⟨left, hleft, hblock⟩ := hin.more
  have hnul : nul ∉ left := by
    intro hm
    exact hb.no_nul (hblock ▸ List.mem_append_right _ hm)
  rw [hblock, List.append_assoc, List.prefix_append_right_inj] at hcut
  obtain ⟨tail, hcut⟩ := hcut
  rcases List.append_eq_append_iff.mp hcut with ⟨left', hpiece, -⟩ | ⟨u, rfl, -⟩
  · by_cases hnil : left' = []
    · -- the piece ends with the block
      obtain rfl : left = piece := by rw [hpiece, hnil, List.append_nil]
      rw [datahdrAppendData_eq hnul] at h
      cases hf : feed datahdrReader.byte hdr left with
      | error e => rw [hf] at h; cases h
      | ok r =>
        obtain ⟨hrest, hlines⟩ := hin.ends hb hblock hf
        obtain ⟨hdr₁, rest⟩ := r
        obtain rfl : rest = some [] := hrest
        rw [hf] at h
        obtain ⟨rfl, rfl⟩ := Prod.mk.inj (Except.ok.inj h)
        refine ⟨(fun hn => by cases hn), fun n hn => ?_⟩
        obtain rfl : left.length = n := Option.some.inj hn
        exact ⟨hlines, by rw [hblock, List.drop_length, List.append_nil]⟩
    · have hnul' : nul ∉ piece := fun hm => hnul (hpiece ▸ List.mem_append_left _ hm)
      rw [datahdrAppendData_eq hnul'] at h
      cases hf : feed datahdrReader.byte hdr piece with
      | error e => rw [hf] at h; cases h
      | ok r =>
        obtain ⟨hdr₁, rest⟩ := r
        rw [hf] at h
        cases rest with
        | none =>
          obtain ⟨rfl, rfl⟩ := Prod.mk.inj (Except.ok.inj h)
          refine ⟨fun _ => ⟨?_, left', hnil, by rw [hblock, hpiece, List.append_assoc]⟩,
            fun n hn => by cases hn⟩
          rw [feed_append, hin.read]
          exact hf
        | some rest =>
          -- the header cannot end before the block
          have hwhole : feed datahdrReader.byte hdr left = .ok (hdr₁, some (rest ++ left')) := by
            rw [hpiece, feed_append, hf]
          have hnone := (hin.ends hb hblock hwhole).1
          exact absurd (List.append_eq_nil_iff.mp (Option.some.inj hnone)).2 hnil
  · have hend : ∀ hdr₁, feed datahdrReader.byte hdr left ≠ .ok (hdr₁, none) := by
      intro hdr₁ hf
      cases (hin.ends hb hblock hf).1
    rw [datahdrAppendData_reader, datahdrReader.append_front splitAtByte_cuts u hnul hend] at h
    cases hf : feed datahdrReader.byte hdr left with
    | error e => rw [hf] at h; cases h
    | ok r =>
      obtain ⟨hrest, hlines⟩ := hin.ends hb hblock hf
      obtain ⟨hdr₁, rest⟩ := r
      obtain rfl : rest = some [] := hrest
      rw [hf] at h
      obtain ⟨rfl, rfl⟩ := Prod.mk.inj (Except.ok.inj h)
      refine ⟨(fun hn => by cases hn), fun n hn => ?_⟩
      obtain rfl : left.length = n := Option.some.inj hn
      exact ⟨hlines, by rw [hblock, List.drop_left, List.append_assoc]⟩

/-- How the reading of the header has gone when a pipe gave what was read. -/
def HeaderResult (lines : List Bytes) (block printed : Bytes) :
    DataHeader × CgiHeaderRead → Prop
  | (hdr, .complete rest) => hdr.lines = lines.filterMap headerOf ∧ printed = block ++ rest
  | (_, .eof) => False
  | (hdr, .failed e) => e = .wouldBlock ∧ InHeader block hdr printed

variable {fd sock : Fd} {body : Bytes}

/-- Events before which a pipe has been read up to some place in the header. -/
def HeaderAt (fd : Fd) (block body : Bytes) (hdr : DataHeader) (log : History) : Prop :=
  PipeOf fd (block ++ body) log → InHeader block hdr (delivered (readsFrom fd log))

theorem cgiHeaderRound_pipe (hb : HeaderBlock lines block) {log new h h' : History}
    (hclean : CleanHeader hdr) (hnew : h' = new ++ h) (hsent : sentTo sock new = [])
    (hat : HeaderAt fd block body hdr (new ++ log)) :
    wp posix .none (cgiHeaderRound (some fd) hdr) (AfterRound
      (fun hdr' h'' => CleanHeader hdr' ∧ ∃ new, h'' = new ++ h ∧ sentTo sock new = [] ∧
        HeaderAt fd block body hdr' (new ++ log))
      fun x h'' => CleanHeader x.1 ∧ ∃ new, h'' = new ++ h ∧ sentTo sock new = [] ∧
        (PipeOf fd (block ++ body) (new ++ log) →
          HeaderResult lines block (delivered (readsFrom fd (new ++ log))) x)) h' := by
  subst hnew
  refine (wp_perform _ _ _ _).mpr ⟨trivial, fun r _ => ?_⟩
  have hsent' : sentTo sock (⟨.read fd 4096, r⟩ :: new) = [] := by
    rw [sentTo_cons, hsent]
    rfl
  have hreads : readsFrom fd (⟨.read fd 4096, r⟩ :: new ++ log) =
      readsFrom fd (new ++ log) ++ [r] := by
    rw [List.cons_append, readsFrom_cons, Event.reads, if_pos rfl]
  -- what the pipe has given before this read
  have hbefore : PipeOf fd (block ++ body) (⟨.read fd 4096, r⟩ :: new ++ log) →
      InHeader block hdr (delivered (readsFrom fd (new ++ log))) :=
    fun hpipe => hat (@PipeOf.earlier fd _ [⟨.read fd 4096, r⟩] _ hpipe)
  rcases r with data | e
  · cases data with
    | nil =>
      refine ⟨hclean, _, rfl, hsent', fun hpipe => ?_⟩
      obtain ⟨left, hleft, hblock⟩ := (hbefore hpipe).more
      have hall := hpipe.reads.ends _ [] hreads
      rw [hblock, List.append_assoc, List.self_eq_append_right] at hall
      exact hleft (List.append_eq_nil_iff.mp hall).1
    | cons b data =>
      show wp posix .none (liftM (datahdrAppendData hdr (b :: data)) >>= _) _ _
      refine wp_seq (wp_lift (Q := fun x h'' => datahdrAppendData hdr (b :: data) = .ok x ∧
        h'' = ⟨.read fd 4096, .got (b :: data)⟩ :: (new ++ h)) (fun _ => trivial)
        fun x hx => ⟨hx, rfl⟩) ?_
      rintro ⟨hdr', offset⟩ h'' ⟨happend, rfl⟩
      have hclean' := datahdrAppendData_clean hclean happend
      have hdelivered : delivered (readsFrom fd (⟨.read fd 4096, .got (b :: data)⟩ :: new ++ log)) =
          delivered (readsFrom fd (new ++ log)) ++ b :: data := by
        rw [hreads, delivered_append, delivered_got]
      have hpiece := fun hpipe : PipeOf fd (block ++ body)
          (⟨.read fd 4096, .got (b :: data)⟩ :: new ++ log) =>
        datahdrAppendData_piece hb (hbefore hpipe) (hdelivered ▸ hpipe.reads.in_order) happend
      cases offset with
      | none =>
        refine ⟨hclean', _, rfl, hsent', fun hpipe => ?_⟩
        rw [hdelivered]
        exact (hpiece hpipe).1 rfl
      | some n =>
        refine ⟨hclean', _, rfl, hsent', fun hpipe => ?_⟩
        rw [hdelivered]
        exact (hpiece hpipe).2 n rfl
  · refine ⟨hclean, _, rfl, hsent', fun hpipe => ⟨?_, ?_⟩⟩
    · exact hpipe.reads.waits e (hreads ▸ List.mem_append_right _ (List.mem_singleton_self _))
    · rw [hreads, delivered_append, delivered_fail, List.append_nil]
      exact hbefore hpipe

theorem cgiHeaderLoop_pipe (sock : Fd) (hb : HeaderBlock lines block) (fuel : Nat) {log : History}
    (hclean : CleanHeader hdr) (hat : HeaderAt fd block body hdr log) (h : History) :
    wp posix .none (Program.iterate .outOfFuel (cgiHeaderRound (some fd)) fuel hdr)
      (fun x h' => CleanHeader x.1 ∧ ∃ new, h' = new ++ h ∧ sentTo sock new = [] ∧
        (PipeOf fd (block ++ body) (new ++ log) →
          HeaderResult lines block (delivered (readsFrom fd (new ++ log))) x)) h := by
  refine wp_iterate (I := fun hdr h' => CleanHeader hdr ∧ ∃ new, h' = new ++ h ∧
    sentTo sock new = [] ∧ HeaderAt fd block body hdr (new ++ log)) (fun _ => trivial) ?_ fuel
    ⟨hclean, [], rfl, rfl, hat⟩
  rintro hdr h' ⟨hclean, new, hnew, hsent, hat⟩
  exact cgiHeaderRound_pipe hb hclean hnew hsent hat

end Header

section Response

/-- What goes to the client before the output that follows a header with these lines. -/
def cgiHead (lines : List Bytes) : Bytes :=
  cgiBlock ⟨lines.filterMap headerOf, []⟩ ++ ascii "Transfer-Encoding: chunked" ++ crlf ++ crlf

/-- Only the complete lines of a header matter for the response. -/
theorem cgiBlock_lines {hdr : DataHeader} {lines : List (Bytes × Bytes)}
    (h : hdr.lines = lines) : cgiBlock hdr = cgiBlock ⟨lines, []⟩ := by
  subst h
  rfl

/-- A computation without calls leaves the history as it is. -/
theorem wp_sound {α : Type} {P : Fault → Prop} {Q : α → Prop} {e : Except Fault α}
    (he : Sound P Q e) (h : History) :
    wp posix .none (liftM e : Prog α) (fun a h' => h' = h ∧ Q a) h := by
  refine wp_lift (fun _ => trivial) fun a ha => ⟨rfl, ?_⟩
  rw [ha] at he
  exact he

theorem cgiResponseHeader_body (hdr : DataHeader) :
    Sound (pageFault · = true) (HasBody []) (cgiResponseHeader hdr false) := by
  refine (respNew_body _).bind fun resp hresp => ?_
  refine (respAppendHeader_body hresp _ _).bind fun resp hresp => ?_
  generalize hdr.lines.filter (fun line => ! isCgiOwnHeader line.1) = lines
  induction lines generalizing resp with
  | nil => exact hresp
  | cons line lines ih =>
    rw [List.foldlM_cons]
    exact (respAppendHeader_body hresp _ _).bind fun resp hresp => ih resp hresp

/-- A sender for a file asks once what the file is, and may close it. -/
theorem rsndrNew_asks (header body : MemBuf) (fd : Fd) (h : History) :
    wp posix .none (rsndrNew header (some body) (some fd)) (fun _ h' => ∃ a closed,
      h' = closed ++ ⟨.fstat fd, a⟩ :: h ∧ ∀ e ∈ closed, ∃ fd, e = ⟨.close fd, ()⟩) h := by
  unfold rsndrNew
  refine wp_seq (R := fun _ h' => ∃ a, h' = ⟨.fstat fd, a⟩ :: h) ?_ ?_
  · unfold fileBytesToSend
    refine (wp_perform _ _ _ _).mpr ⟨trivial, fun a _ => ?_⟩
    cases a with
    | ok st => exact ⟨_, rfl⟩
    | error e => exact ⟨_, rfl⟩
  rintro n _ ⟨a, rfl⟩
  refine wp_seq (wp_sound (Sound.always _) _) ?_
  rintro header _ ⟨rfl, -⟩
  refine wp_seq (closeIf_spec (n = 0) (some fd) _) ?_
  rintro file _ ⟨closed, rfl, hclosed, -⟩
  refine wp_seq (wp_sound (Sound.always _) _) ?_
  rintro header _ ⟨rfl, -⟩
  dsimp only
  split
  · refine wp_seq (wp_sound (Sound.always _) _) ?_
    rintro header _ ⟨rfl, -⟩
    refine wp_seq (wp_sound (Sound.always _) _) ?_
    rintro body _ ⟨rfl, -⟩
    exact ⟨a, closed, rfl, hclosed⟩
  · exact ⟨a, closed, rfl, hclosed⟩

/-- Events that neither write to a socket nor read from a file. -/
def Silent (sock fd : Fd) (log : History) : Prop := sentTo sock log = [] ∧ readsFrom fd log = []

theorem silent_asks {sock fd : Fd} {a : Except Errno FileStat} {closed : History}
    (hclosed : ∀ e ∈ closed, ∃ fd, e = ⟨.close fd, ()⟩) :
    Silent sock fd (closed ++ [⟨.fstat fd, a⟩]) := by
  induction closed with
  | nil => exact ⟨rfl, rfl⟩
  | cons e closed ih =>
    obtain ⟨hsent, hreads⟩ := ih fun e he => hclosed e (List.mem_cons_of_mem _ he)
    obtain ⟨fd', rfl⟩ := hclosed e List.mem_cons_self
    refine ⟨?_, ?_⟩
    · rw [List.cons_append, sentTo_cons, hsent]
      rfl
    · rw [List.cons_append, readsFrom_cons, hreads]
      rfl

/-- A sender that takes this content from the program, and the rest from the pipe. -/
structure SendsPipe (fd : Fd) (head content : Bytes) (r : ResponseSender) : Prop where
  inBounds : InBounds r
  unknown : r.nbytes = -1
  file : r.fileDesc = some fd
  pending_eq : pending r = head ++ startOfBody (-1) content

theorem respFinish_pipe (sock : Fd) {fd : Fd} {status content : Bytes}
    {fields : List (Bytes × Bytes)} {resp : RespBuf} (hpage : Page status fields (some fd) true resp)
    (hbody : HasBody content resp) (h : History) :
    wp posix .none (respFinish resp) (fun r h' => ∃ new, h' = new ++ h ∧ Silent sock fd new ∧
      ((∀ a, (⟨.fstat fd, a⟩ : Event) ∈ new → bytesOfStat a = -1) →
        SendsPipe fd (headText status (fields ++ [serverField]) ++
          ascii "Transfer-Encoding: chunked" ++ crlf ++ crlf) content r)) h := by
  have hserver : nul ∉ ascii "Server" := by decide
  have hvalue : cstr (ascii "filemanager-httpd") = ascii "filemanager-httpd" := by decide +kernel
  unfold respFinish
  have hheader : Sound (pageFault · = true) (fun resp' =>
      Page status (fields ++ [serverField]) (some fd) true resp' ∧ HasBody content resp')
      (respAppendHeader resp (ascii "Server") (ascii "filemanager-httpd")) := by
    have hpage' := respAppendHeader_page hpage hserver (ascii "filemanager-httpd")
    rw [hvalue] at hpage'
    refine hpage'.also fun resp' hresp' => ⟨?_, ?_⟩
    · rw [hresp'] at hpage'
      exact hpage'
    · have hbody' := respAppendHeader_body hbody (ascii "Server") (ascii "filemanager-httpd")
      rw [hresp'] at hbody'
      exact hbody'
  refine wp_seq (wp_sound hheader h) ?_
  rintro ⟨header, body, file⟩ h ⟨rfl, hpage', hbody'⟩
  obtain rfl : body = some ⟨content⟩ := hbody'
  obtain rfl : file = some fd := hpage'.file
  have hboth := wp_and (rsndrNew_spec header ⟨content⟩ (some fd) h)
    (rsndrNew_asks header ⟨content⟩ fd h)
  refine wp_weaken hboth (fun _ _ _ => trivial) (fun _ _ _ => trivial) ?_
  rintro r _ ⟨⟨new, rfl, hin, hstat, hfile, hpending⟩, a, closed, heq, hclosed⟩
  obtain rfl : new = closed ++ [⟨.fstat fd, a⟩] := by
    have hnew : new ++ h = (closed ++ [⟨.fstat fd, a⟩]) ++ h := by
      rw [heq, List.append_assoc, List.singleton_append]
    exact List.append_cancel_right hnew
  refine ⟨_, rfl, silent_asks hclosed, fun hpipe => ?_⟩
  have hasked : (⟨.fstat fd, a⟩ : Event) ∈ closed ++ [⟨.fstat fd, a⟩] :=
    List.mem_append_right _ (List.mem_singleton_self _)
  have hn : r.nbytes = -1 := (hstat (-1) ⟨a, hasked, (hpipe a hasked).symm⟩).symm
  have hline : ∀ n, lengthLine n (-1) = ascii "Transfer-Encoding: chunked" ++ crlf :=
    fun n => if_neg (by decide)
  refine ⟨hin, hn, ?_, ?_⟩
  · rw [hfile, hn, if_neg (by decide)]
  · rw [hpending, hn, hline, show header.data = _ from hpage'.head]
    simp only [List.append_assoc]

end Response

section Turns

variable {sock fd : Fd} {lines : List Bytes} {block body : Bytes} {hdlr : RequestHandler}
  {cgiexe : CgiExecutor} {log : History}

/-- A handler between two calls: it waits for the end of the header that the program prints, or
it sends the response, whose body is what follows the header. -/
inductive CgiStage (sock fd : Fd) (lines : List Bytes) (block : Bytes) (hdlr : RequestHandler)
    (log : History) : Prop
  | waiting {cgiexe : CgiExecutor} : WithCgi sock hdlr cgiexe → cgiexe.onlyHead = false →
    cgiexe.outFd = some fd → hdlr.response = none → CleanHeader cgiexe.cgiHeader →
    sentTo sock log = [] → InHeader block cgiexe.cgiHeader (delivered (readsFrom fd log)) →
    CgiStage sock fd lines block hdlr log
  | sending {cgiexe : CgiExecutor} {r : ResponseSender} {content : Bytes}
      {before reads : List ReadResult} :
    WithCgi sock hdlr cgiexe → hdlr.response = some r → InBounds r →
    readsFrom fd log = before ++ reads → delivered before = block ++ content →
    ChunkedProduction (cgiHead lines) content fd (sentTo sock log ++ pending r) reads r.nbytes
      r.fileDesc →
    CgiStage sock fd lines block hdlr log

/-- What `cgiexe_getResponse` has made of the output so far. -/
inductive CgiAnswer (fd : Fd) (lines : List Bytes) (block body : Bytes) (log : History)
    (cgiexe : CgiExecutor) : Option RespBuf → Prop
  | inHeader : cgiexe.outFd = some fd → CleanHeader cgiexe.cgiHeader →
    HeaderAt fd block body cgiexe.cgiHeader log → CgiAnswer fd lines block body log cgiexe none
  | complete {hdr : DataHeader} {content : Bytes} {resp : RespBuf} :
    Page (cgiStatus hdr) (cgiFields hdr) (some fd) true resp → HasBody content resp →
    (PipeOf fd (block ++ body) log → hdr.lines = lines.filterMap headerOf ∧
      delivered (readsFrom fd log) = block ++ content) →
    CgiAnswer fd lines block body log cgiexe (some resp)
  | other {resp : Option RespBuf} : ¬ PipeOf fd (block ++ body) log →
    CgiAnswer fd lines block body log cgiexe resp

theorem cgiexeGetResponse_pipe (sock : Fd) (hb : HeaderBlock lines block) (fuel : Nat)
    (hhead : cgiexe.onlyHead = false) (hfd : cgiexe.outFd = some fd)
    (hclean : CleanHeader cgiexe.cgiHeader) (hat : HeaderAt fd block body cgiexe.cgiHeader log)
    (dpr : DataProcessingResult) (h : History) :
    wp posix .none (cgiexeGetResponse fuel cgiexe dpr) (fun x h' => ∃ new, h' = new ++ h ∧
      x.1.inFd = cgiexe.inFd ∧ x.1.onlyHead = cgiexe.onlyHead ∧
        (PipeOf fd (block ++ body) (new ++ log) → sentTo sock new = []) ∧
          CgiAnswer fd lines block body (new ++ log) x.1 x.2.2) h := by
  unfold cgiexeGetResponse
  rw [hfd]
  refine wp_seq (cgiHeaderLoop_pipe sock hb fuel hclean hat h) ?_
  rintro ⟨hdr, res⟩ h₁ ⟨hclean₁, new, rfl, hsent, hresult⟩
  cases res with
  | complete content =>
    have hheader : Sound (pageFault · = true) (fun resp =>
        Page (cgiStatus hdr) (cgiFields hdr) none true resp ∧ HasBody [] resp)
        (cgiResponseHeader hdr cgiexe.onlyHead) := by
      have hpage := cgiResponseHeader_page hclean₁ cgiexe.onlyHead
      refine hpage.also fun resp hresp => ?_
      have hbody := cgiResponseHeader_body hdr
      rw [hresp] at hpage
      rw [hhead] at hpage hresp
      rw [hresp] at hbody
      exact ⟨hpage, hbody⟩
    refine wp_seq (wp_sound hheader _) ?_
    rintro resp _ ⟨rfl, hpage, hbody⟩
    have happend : Sound (fun _ => True) (fun resp =>
        Page (cgiStatus hdr) (cgiFields hdr) none true resp ∧ HasBody content resp)
        (respAppendData resp content) := by
      have hpage' := respAppendData_page hpage content
      refine hpage'.also fun resp' hresp' => ?_
      have hbody' := respAppendData_text hbody content
      rw [hresp'] at hpage' hbody'
      exact ⟨hpage', hbody'⟩
    refine wp_seq (wp_sound happend _) ?_
    rintro ⟨header, rbody, file⟩ _ ⟨rfl, hpage, hbody⟩
    obtain rfl : file = none := hpage.file
    exact ⟨new, rfl, rfl, rfl, fun _ => hsent,
      .complete ⟨hpage.head, rfl, hpage.body⟩ hbody hresult⟩
  | eof =>
    have hnot : ∀ new', ¬ PipeOf fd (block ++ body) (new' ++ (new ++ log)) :=
      fun new' hpipe => hresult hpipe.earlier
    refine wp_mono (wp_of_yields (Q := fun x => x.1.inFd = cgiexe.inFd ∧
      x.1.onlyHead = cgiexe.onlyHead) ?_ (new ++ h)) ?_
    · exact Yields.seq fun _ => Yields.seq fun _ => Yields.seq fun _ => Yields.seq fun _ =>
        .pure ⟨rfl, rfl⟩
    · rintro x _ ⟨⟨hin, hhead'⟩, new', rfl⟩
      refine ⟨new' ++ new, (List.append_assoc _ _ _).symm, hin, hhead', ?_, ?_⟩
      · rw [List.append_assoc]
        exact fun hpipe => absurd hpipe (hnot new')
      · rw [List.append_assoc]
        exact .other (hnot new')
  | failed e =>
    dsimp only
    split
    · exact ⟨new, rfl, rfl, rfl, fun _ => hsent, .inHeader rfl hclean₁ fun hpipe =>
        (hresult hpipe).2⟩
    · trivial

/-- The first chunk is what came with the end of the header. -/
theorem SendsPipe.production {head content : Bytes} {r : ResponseSender}
    (h : SendsPipe fd head content r) :
    ChunkedProduction head content fd (pending r) [] r.nbytes r.fileDesc := by
  have hnone : ∀ c ∈ ([] : List Bytes), c ≠ [] := fun c hc => by cases hc
  obtain ⟨cs, hcs, hflat, hchunks⟩ := chunks_chunkOf hnone content
  refine ⟨cs, hcs, ?_, .inl ⟨h.unknown, h.file, ?_⟩⟩
  · rw [hflat, delivered_nil, List.append_nil]
    rfl
  · rw [h.pending_eq, hchunks]
    rfl

theorem awaitCgiResponse_turn (body : Bytes) (hb : HeaderBlock lines block) (fuel : Nat)
    (hstage : CgiStage sock fd lines block hdlr log) (dpr : DataProcessingResult) (h : History) :
    wp posix .none (awaitCgiResponse fuel hdlr dpr) (fun x h' => ∃ new, h' = new ++ h ∧
      (PipeOf fd (block ++ body) (new ++ log) →
        CgiStage sock fd lines block x.1 (new ++ log))) h := by
  unfold awaitCgiResponse
  cases hstage with
  | @sending cgiexe r content before reads hwith hresp hin hreads hbefore hprod =>
    rw [hresp]
    exact ⟨[], rfl, fun _ => .sending hwith hresp hin hreads hbefore hprod⟩
  | @waiting cgiexe hwith hhead hfd hresp hclean hsent hat =>
    rw [hresp, hwith.cgi]
    have hat' : HeaderAt fd block body cgiexe.cgiHeader log := fun _ => hat
    refine wp_seq (cgiexeGetResponse_pipe sock hb fuel hhead hfd hclean hat' dpr h) ?_
    rintro ⟨cgiexe', dpr', resp⟩ _ ⟨new, rfl, hinFd, hhead', hsent', hanswer⟩
    have hwith' : ∀ response, WithCgi sock { hdlr with cgiexe := some cgiexe', response } cgiexe' :=
      fun _ => ⟨hwith.no_filemgr, rfl, by rw [show cgiexe'.inFd = _ from hinFd]; exact hwith.apart⟩
    have hsilent : PipeOf fd (block ++ body) (new ++ log) → sentTo sock (new ++ log) = [] := by
      intro hpipe
      rw [sentTo_append, hsent, hsent' hpipe]
      rfl
    cases hanswer with
    | inHeader hfd' hclean' hat' =>
      exact ⟨new, rfl, fun hpipe => .waiting (hwith' none) (hhead'.trans hhead) hfd' rfl hclean'
        (hsilent hpipe) (hat' hpipe)⟩
    | @complete hdr content resp hpage hbody hlines =>
      refine (wp_bind _ _ _ _).mpr (wp_seq (respFinish_pipe sock hpage hbody _) ?_)
      rintro r _ ⟨new', rfl, hquiet, hsends⟩
      refine ⟨new' ++ new, (List.append_assoc _ _ _).symm, fun hpipe => ?_⟩
      rw [List.append_assoc] at hpipe ⊢
      obtain ⟨hkept, hdelivered⟩ := hlines hpipe.earlier
      have hsender := hsends fun a ha => hpipe.not_file a (List.mem_append_left _ ha)
      have hreads : readsFrom fd (new' ++ (new ++ log)) = readsFrom fd (new ++ log) ++ [] := by
        rw [readsFrom_append, hquiet.2]
      refine .sending (hwith' (some r)) rfl hsender.inBounds hreads hdelivered ?_
      · have hhead : headText (cgiStatus hdr) (cgiFields hdr ++ [serverField]) =
            cgiBlock ⟨lines.filterMap headerOf, []⟩ := cgiBlock_lines hkept
        have hprod := hsender.production
        rw [hhead] at hprod
        rw [sentTo_append, hsilent hpipe.earlier, hquiet.1]
        exact hprod
    | other hnot =>
      refine wp_mono (wp_of_yields (Yields.any _) (new ++ h)) ?_
      rintro x _ ⟨-, new', rfl⟩
      refine ⟨new' ++ new, (List.append_assoc _ _ _).symm, fun hpipe => ?_⟩
      rw [List.append_assoc] at hpipe
      exact absurd hpipe.earlier hnot

/-- What a run has added to the history. -/
theorem runs_grow {α : Type} {p : Prog α} {a : α} {h h' : History}
    (hrun : Runs posix p h (.done a) h') : ∃ new, h' = new ++ h :=
  (wp_result (wp_of_yields (Yields.any p) h) hrun).2

/-- A call that answers: the header is read on, and then the response is sent on. -/
theorem CgiStage.progress (hb : HeaderBlock lines block)
    (hstage : CgiStage sock fd lines block hdlr log) {fuel : Nat} {hdlr' : RequestHandler}
    {dpr dpr' : DataProcessingResult} {fin : Bool} {h new : History}
    (hrun : Runs posix (reqhdlrProgressResponse fuel hdlr sock dpr) h (.done (hdlr', dpr', fin))
      (new ++ h))
    (hpipe : PipeOf fd (block ++ body) (new ++ log)) :
    CgiStage sock fd lines block hdlr' (new ++ log) ∧
      (fin = true → dpr'.closeConn = false → ∃ r, hdlr'.response = some r ∧ Exhausted r) := by
  obtain ⟨⟨hdlr₁, dpr₁⟩, h₁, hawait, hrest⟩ := Runs.of_bind_done hrun
  obtain ⟨new₁, rfl, hstage₁⟩ :=
    wp_result (awaitCgiResponse_turn body hb fuel hstage dpr h) hawait
  obtain ⟨new₂, hnew⟩ := runs_grow hrest
  obtain rfl : new = new₂ ++ new₁ := by
    have hall : new ++ h = (new₂ ++ new₁) ++ h := by rw [hnew, List.append_assoc]
    exact List.append_cancel_right hall
  rw [List.append_assoc] at hpipe hrest ⊢
  have hlog := hstage₁ hpipe.earlier
  dsimp only at hrest
  cases hlog with
  | waiting hwith hhead hfd hresp hclean hsent hat =>
    rw [show hdlr₁.response = none from hresp] at hrest
    obtain ⟨he, hh⟩ := Runs.done_eq hrest
    cases he
    obtain rfl : new₂ = [] := List.self_eq_append_left.mp hh
    exact ⟨.waiting hwith hhead hfd hresp hclean hsent hat, fun hf => by cases hf⟩
  | @sending cgiexe r content before reads hwith hresp hin hreads hbefore hprod =>
    rw [show hdlr₁.response = some r from hresp] at hrest
    obtain ⟨⟨r', dpr₂, fin₂⟩, h₂, hsend, hend⟩ := Runs.of_bind_done hrest
    obtain ⟨he, rfl⟩ := Runs.done_eq hend
    cases he
    obtain ⟨⟨hin', sent, reads', ht, hprod'⟩, hexhausted⟩ := wp_result
      (rsndrSend_keeps (chunked_refill (cgiHead lines) content) fuel _ reads dpr₁ hin hprod) hsend
    obtain ⟨rfl, rfl⟩ := ht.of_append
    have hreads' : readsFrom fd (new₂ ++ (new₁ ++ log)) =
        before ++ (reads ++ readsFrom fd new₂) := by
      rw [readsFrom_append, hreads, List.append_assoc]
    refine ⟨.sending ⟨hwith.no_filemgr, hwith.cgi, hwith.apart⟩ rfl hin' hreads' hbefore ?_,
      fun hfin hclose => ⟨r', rfl, hexhausted hfin hclose⟩⟩
    rw [sentTo_append]
    exact hprod'

/-- The handler goes on with its program, and nothing has been read or sent. -/
theorem CgiStage.silent (hstage : CgiStage sock fd lines block hdlr log) {new : History}
    (hnew : Silent sock fd new) {cgiexe cgiexe' : CgiExecutor} (hcgi : hdlr.cgiexe = some cgiexe)
    (hsame : cgiexe' = { cgiexe with inFd := cgiexe'.inFd }) (hapart : cgiexe'.inFd ≠ some sock) :
    CgiStage sock fd lines block { hdlr with cgiexe := some cgiexe' } (new ++ log) := by
  have hreads : readsFrom fd (new ++ log) = readsFrom fd log := by
    rw [readsFrom_append, hnew.2, List.append_nil]
  have hsent : sentTo sock (new ++ log) = sentTo sock log := by
    rw [sentTo_append, hnew.1, List.append_nil]
  cases hstage with
  | waiting hwith hhead hfd hresp hclean hnone hat =>
    obtain rfl := Option.some.inj (hwith.cgi.symm.trans hcgi)
    refine .waiting ⟨hwith.no_filemgr, rfl, hapart⟩ ?_ ?_ hresp ?_ (hsent.trans hnone) ?_
    · rw [hsame]
      exact hhead
    · rw [hsame]
      exact hfd
    · rw [hsame]
      exact hclean
    · rw [hsame, hreads]
      exact hat
  | sending hwith hresp hin hread hbefore hprod =>
    refine .sending ⟨hwith.no_filemgr, rfl, hapart⟩ hresp hin (hreads.trans hread) hbefore ?_
    rw [hsent]
    exact hprod

/-- What is written to the program goes to its pipe only. -/
theorem cgiexeProcessData_silent (fd : Fd) (fuel : Nat) (hapart : cgiexe.inFd ≠ some sock) (data : Bytes)
    (dpr : DataProcessingResult) (h : History) :
    wp posix .none (cgiexeProcessData fuel cgiexe data dpr) (fun x h' => ∃ new, h' = new ++ h ∧
      Silent sock fd new ∧ x.1 = { cgiexe with inFd := x.1.inFd } ∧ x.1.inFd ≠ some sock) h := by
  refine wp_iterate (I := fun x h' => ∃ new, h' = new ++ h ∧ Silent sock fd new ∧
    x.1 = { cgiexe with inFd := x.1.inFd } ∧ x.1.inFd ≠ some sock) (fun _ => trivial) ?_ fuel
    ⟨[], rfl, ⟨rfl, rfl⟩, rfl, hapart⟩
  rintro ⟨c, dpr, wrtot⟩ h' ⟨new, rfl, hsilent, hsame, hapart⟩
  dsimp only at hsame hapart
  unfold cgiWriteRound
  dsimp only
  split
  · exact ⟨new, rfl, hsilent, hsame, hapart⟩
  rename_i inFd hinFd
  have hne : inFd ≠ sock := by
    rintro rfl
    exact hapart hinFd
  split
  · refine (wp_perform _ _ _ _).mpr ⟨trivial, fun w _ => ?_⟩
    have hwrite : Silent sock fd (⟨.write inFd (data.drop wrtot), w⟩ :: new) := by
      refine ⟨?_, ?_⟩
      · rw [sentTo_cons, hsilent.1]
        cases w with
        | wrote n => exact if_neg hne
        | fail e => rfl
      · rw [readsFrom_cons, hsilent.2]
        rfl
    cases w with
    | wrote n => exact ⟨_, rfl, hwrite, hsame, hapart⟩
    | fail e =>
      show wp posix .none (if e = .wouldBlock then _ else _) _ _
      split
      · exact ⟨_, rfl, hwrite, hsame, hapart⟩
      · refine (wp_perform _ _ _ _).mpr ⟨trivial, fun r _ => ?_⟩
        refine ⟨⟨.close inFd, r⟩ :: ⟨.write inFd (data.drop wrtot), .fail e⟩ :: new, rfl,
          ⟨?_, ?_⟩, ?_, fun hnone => by cases hnone⟩
        · rw [sentTo_cons, hwrite.1]
          rfl
        · rw [readsFrom_cons, hwrite.2]
          rfl
        · show _ = ({ cgiexe with inFd := none } : CgiExecutor)
          rw [hsame]
  · exact ⟨new, rfl, hsilent, hsame, hapart⟩

/-- The calls that a connection makes of a handler, in any order, with any data and whatever the
server does between them; `log` has the events of the calls. -/
inductive CgiTurns (cfg : Config) (sock : Fd) (start : RequestHandler) :
    RequestHandler → History → Prop
  | start : CgiTurns cfg sock start start []
  | body {fuel n : Nat} {hdlr hdlr' : RequestHandler} {data : Bytes}
      {dpr dpr' : DataProcessingResult} {h new log : History} :
    CgiTurns cfg sock start hdlr log →
    Runs posix (reqhdlrProcessData fuel hdlr data dpr) h (.done (hdlr', dpr', n)) (new ++ h) →
    CgiTurns cfg sock start hdlr' (new ++ log)
  | completed {fuel : Nat} {hdlr hdlr' : RequestHandler} {rhdr : RequestHeader}
      {h new log : History} :
    CgiTurns cfg sock start hdlr log →
    Runs posix (reqhdlrRequestReadCompleted fuel cfg hdlr rhdr) h (.done hdlr') (new ++ h) →
    CgiTurns cfg sock start hdlr' (new ++ log)
  | progress {fuel : Nat} {hdlr hdlr' : RequestHandler} {dpr dpr' : DataProcessingResult}
      {fin : Bool} {h new log : History} :
    CgiTurns cfg sock start hdlr log →
    Runs posix (reqhdlrProgressResponse fuel hdlr sock dpr) h (.done (hdlr', dpr', fin))
      (new ++ h) →
    CgiTurns cfg sock start hdlr' (new ++ log)

theorem CgiStage.withCgi (hstage : CgiStage sock fd lines block hdlr log) :
    ∃ cgiexe, WithCgi sock hdlr cgiexe := by
  cases hstage with
  | waiting hwith _ _ _ _ _ _ => exact ⟨_, hwith⟩
  | sending hwith _ _ _ _ _ => exact ⟨_, hwith⟩

theorem CgiStage.processData (hstage : CgiStage sock fd lines block hdlr log) {fuel n : Nat}
    {hdlr' : RequestHandler} {data : Bytes} {dpr dpr' : DataProcessingResult} {h new : History}
    (hrun : Runs posix (reqhdlrProcessData fuel hdlr data dpr) h (.done (hdlr', dpr', n))
      (new ++ h)) :
    CgiStage sock fd lines block hdlr' (new ++ log) := by
  obtain ⟨cgiexe, hwith⟩ := hstage.withCgi
  unfold reqhdlrProcessData at hrun
  rw [hwith.no_filemgr, hwith.cgi] at hrun
  obtain ⟨⟨cgiexe', dpr₁, processed⟩, h₁, hwrite, hend⟩ := Runs.of_bind_done hrun
  obtain ⟨new', rfl, hsilent, hsame, hapart⟩ :=
    wp_result (cgiexeProcessData_silent fd fuel hwith.apart data dpr h) hwrite
  obtain ⟨he, hh⟩ := Runs.done_eq hend
  cases he
  obtain rfl : new' = new := List.append_cancel_right hh
  have hnext := hstage.silent hsilent hwith.cgi hsame hapart
  rw [hwith.no_filemgr] at hnext
  exact hnext

theorem CgiStage.requestReadCompleted (hstage : CgiStage sock fd lines block hdlr log)
    {cfg : Config} {fuel : Nat} {hdlr' : RequestHandler} {rhdr : RequestHeader} {h new : History}
    (hrun : Runs posix (reqhdlrRequestReadCompleted fuel cfg hdlr rhdr) h (.done hdlr')
      (new ++ h)) :
    CgiStage sock fd lines block hdlr' (new ++ log) := by
  obtain ⟨cgiexe, hwith⟩ := hstage.withCgi
  unfold reqhdlrRequestReadCompleted at hrun
  rw [hwith.cgi] at hrun
  have hclosed : wp posix .none (cgiexeRequestReadCompleted cgiexe) (fun c h' =>
      ∃ new, h' = new ++ h ∧ Silent sock fd new ∧ c = { cgiexe with inFd := none }) h := by
    unfold cgiexeRequestReadCompleted closeFd
    cases cgiexe.inFd with
    | none => exact ⟨[], rfl, ⟨rfl, rfl⟩, rfl⟩
    | some inFd =>
      refine (wp_perform _ _ _ _).mpr ⟨trivial, fun r _ => ?_⟩
      exact ⟨[⟨.close inFd, r⟩], rfl, ⟨rfl, rfl⟩, rfl⟩
  obtain ⟨cgiexe', h₁, hclose, hend⟩ := Runs.of_bind_done hrun
  obtain ⟨new', rfl, hsilent, rfl⟩ := wp_result hclosed hclose
  obtain ⟨rfl, hh⟩ := Runs.done_eq hend
  obtain rfl : new' = new := List.append_cancel_right hh
  exact hstage.silent hsilent hwith.cgi rfl fun he => by cases he

/-- Whatever the calls are, the handler is at one of its two stages. -/
theorem CgiTurns.stage (hb : HeaderBlock lines block) {cfg : Config} {start : RequestHandler}
    (hstart : CgiStage sock fd lines block start []) (hturns : CgiTurns cfg sock start hdlr log)
    (hpipe : PipeOf fd (block ++ body) log) : CgiStage sock fd lines block hdlr log := by
  induction hturns with
  | start => exact hstart
  | body _ hrun ih => exact (ih hpipe.earlier).processData hrun
  | completed _ hrun ih => exact (ih hpipe.earlier).requestReadCompleted hrun
  | progress _ hrun ih => exact ((ih hpipe.earlier).progress hb hrun hpipe).1

/-- A response that is finished has a chunked body, of what followed the header. -/
theorem CgiStage.finished (hstage : CgiStage sock fd lines block hdlr log)
    (hpipe : PipeOf fd (block ++ body) log) {r : ResponseSender} (hr : hdlr.response = some r)
    (hexhausted : Exhausted r) :
    ∃ cs, (∀ c ∈ cs, c ≠ []) ∧ cs.flatten = body ∧
      sentTo sock log = cgiHead lines ++ Chunked.encode cs := by
  cases hstage with
  | waiting _ _ _ hresp _ _ _ =>
    rw [hresp] at hr
    cases hr
  | @sending cgiexe r' content before reads _ hresp _ hreads hbefore hprod =>
    obtain rfl := Option.some.inj (hresp.symm.trans hr)
    obtain ⟨cs, hcs, hflat, ⟨hn, -⟩ | ⟨-, -, hsent, hended⟩⟩ := hprod
    · rw [hexhausted.2] at hn
      cases hn
    · have hlast : Ended (before ++ reads) := by
        rcases hended with hlast | ⟨e, hne, hlast⟩
        · exact .inl (by rw [List.getLast?_append, hlast]; rfl)
        · exact .inr ⟨e, hne, by rw [List.getLast?_append, hlast]; rfl⟩
      have hall := (hreads ▸ hpipe.reads).all hlast
      rw [delivered_append, hbefore, List.append_assoc] at hall
      refine ⟨cs, hcs, hflat.trans (List.append_cancel_left hall), ?_⟩
      rw [hexhausted.1, List.append_nil] at hsent
      exact hsent

end Turns

/-- What has gone to the client is a header and a chunked coding of this body: no chunk of it is
empty but the last, and it decodes to the body. -/
def SentChunked (sock : Fd) (head body : Bytes) (log : History) : Prop :=
  ∃ cs, sentTo sock log = head ++ Chunked.encode cs ∧ (∀ c ∈ cs, c ≠ []) ∧
    Chunked.decode (Chunked.encode cs) = some body

/-- The output of a program reaches the client unchanged, however the pipe delivers it and
however the socket takes it. -/
theorem cgi_output_unchanged {cfg : Config} {rhdr : RequestHeader} {fuel₀ fuel : Nat}
    {peerAddr : Option Bytes} {sock fd : Fd} {h₀ h₁ : History} {start : RequestHandler}
    {cgiexe : CgiExecutor} (hmeth : reqhdrGetMethod rhdr ∈ [ascii "GET", ascii "POST"])
    (hsock : sock ∈ openFds h₀)
    (hnew : Runs posix (reqhdlrNew fuel₀ cfg rhdr peerAddr) h₀ (.done start) h₁)
    (hcgi : start.cgiexe = some cgiexe) (hfd : cgiexe.outFd = some fd) {lines : List Bytes}
    {block body : Bytes} (hb : HeaderBlock lines block) {hdlr hdlr' : RequestHandler}
    {dpr dpr' : DataProcessingResult} {h log new : History}
    (hturns : CgiTurns cfg sock start hdlr log)
    (hlast : Runs posix (reqhdlrProgressResponse fuel hdlr sock dpr) h (.done (hdlr', dpr', true))
      (new ++ h))
    (hclose : dpr'.closeConn = false) (hpipe : PipeOf fd (block ++ body) (new ++ log)) :
    SentChunked sock (cgiHead lines) body (new ++ log) := by
  obtain ⟨hmgr, hfresh, hresp⟩ :=
    wp_result (reqhdlrNew_starts fuel₀ peerAddr hsock) hnew cgiexe hcgi
  have hhead : cgiexe.onlyHead = false := by
    have hnot : ∀ meth ∈ [ascii "GET", ascii "POST"], (meth == ascii "HEAD") = false := by decide
    rw [hfresh.onlyHead]
    exact hnot _ hmeth
  have hstart : CgiStage sock fd lines block start [] := by
    refine .waiting ⟨hmgr, hcgi, hfresh.apart⟩ hhead hfd hresp ?_ rfl ?_
    · rw [hfresh.header]
      exact cleanHeader_new
    · rw [hfresh.header]
      exact inHeader_new hb
  have hstage := hturns.stage hb hstart hpipe.earlier
  obtain ⟨hstage', hfinished⟩ := hstage.progress hb hlast hpipe
  obtain ⟨r, hr, hexhausted⟩ := hfinished rfl hclose
  obtain ⟨cs, hcs, hflat, hsent⟩ := hstage'.finished hpipe hr hexhausted
  exact ⟨cs, hsent, hcs, by rw [Chunked.decode_encode hcs, hflat]⟩

/-- A program that prints a short text and ends. -/
def printsAndEnds (fd : Fd) (data : Bytes) : Environment := fun h c =>
  match c with
  | .read _ count =>
    if readsFrom fd h = [] then ⟨.got (data.take count), List.length_take_le _ _⟩
    else ⟨.got [], Nat.zero_le _⟩
  | .fstat _ => ⟨.ok ⟨false, false, 0o600, 0⟩, trivial⟩
  | c => Environment.quiet h c

/-- An answer about the file type is that of a pipe. -/
def tellsPipe : Event → Bool
  | ⟨.fstat _, a⟩ => bytesOfStat a == -1
  | _ => true

theorem pipeOf_once {fd : Fd} {out : Bytes} {log : History}
    (hreads : readsFrom fd log = [.got out, .got []]) (hstat : log.all tellsPipe = true) :
    PipeOf fd out log where
  reads := by
    rw [hreads]
    refine ⟨by simp [delivered, ReadResult.bytes], by simp, ?_⟩
    intro before behind he
    rcases before with - | ⟨r, before⟩
    · rw [List.nil_append, List.cons.injEq] at he
      exact (ReadResult.got.inj he.1).symm
    · rw [List.cons_append, List.cons.injEq] at he
      obtain ⟨rfl, he⟩ := he
      rcases before with - | ⟨r, before⟩
      · exact delivered_got out
      · rw [List.cons_append, List.cons.injEq] at he
        cases List.append_eq_nil_iff.mp he.2.symm
        contradiction
  not_file a ha := by
    have htells := List.all_eq_true.mp hstat _ ha
    exact eq_of_beq htells

/-- The handler of a request whose socket has the descriptor 1. -/
def pipedHandler : RequestHandler := ⟨none, none, some ⟨false, some 3, some 4, datahdrNew⟩, none⟩

theorem cgi_output_unchanged_once :
    ∃ log : History, SentChunked 1 (cgiHead []) (ascii "hi") log := by
  have hnew := playIn_returns regularFiles (reqhdlrNew 9 scriptConfig scriptHeader none)
    [⟨.accept, .ok 1⟩] (a := pipedHandler) (by decide +kernel)
  have hend : (playIn (printsAndEnds 4 (ascii "\nhi"))
      (reqhdlrProgressResponse 9 pipedHandler 1 dprInit) []).1.result?.map (·.2) =
        some (dprInit, true) := by decide +kernel
  obtain ⟨⟨hdlr', x⟩, hresult, rfl⟩ := Option.map_eq_some_iff.mp hend
  have hlast := playIn_returns_new _ _ hresult
  have hb : HeaderBlock [] (ascii "\n") := ⟨(fun l hl => by cases hl), .inl (by decide)⟩
  exact ⟨_, cgi_output_unchanged (by decide) (by decide) hnew rfl rfl hb .start hlast
    (by decide) (pipeOf_once (by decide +kernel) (by decide +kernel))⟩

end FilemanagerHttpd.Audit
