import FilemanagerHttpd.Audit.SenderRun
import FilemanagerHttpd.Server.Environment

/-!
# Responses of known length

The sender announces a Content-Length and sends exactly that many bytes after the
header, whatever the file delivers and however the socket takes them.
-/

namespace FilemanagerHttpd.Audit

open Library Server

/-- `data` cut off, or filled up with zeros, to `n` bytes. -/
def fitTo (n : Nat) (data : Bytes) : Bytes :=
  data.take n ++ List.replicate (n - data.length) nul

theorem length_fitTo (n : Nat) (data : Bytes) : (fitTo n data).length = n := by
  simp only [fitTo, List.length_append, List.length_take, List.length_replicate]; omega

/-- Bytes and zeros that make up `n` bytes. -/
theorem fitTo_eq {n k : Nat} {data : Bytes} (h : data.length + k = n) :
    fitTo n data = data ++ List.replicate k nul := by
  have hk : n - data.length = k := by omega
  rw [fitTo, hk, List.take_of_length_le (by omega)]

/-- The bytes produced are the head, what the file has delivered, and zeros once the file
has ended early; `n` bytes are left. -/
def FixedProduction (head : Bytes) (size : Nat) (file : Option Fd) : Production :=
  fun P R n fd => ∃ k, P = head ++ delivered R ++ List.replicate k nul ∧ (k = 0 ∨ fd = none) ∧
    ((delivered R).length + k : Int) + n = size ∧ 0 ≤ n ∧ (fd = none ∨ fd = file)

variable {sock : Fd} {file : Option Fd}

/-- Filling up with zeros to the end of what was to be filled. -/
theorem mbFillWithZeros_take {body body' : MemBuf} {filled toFill : Nat} (hle : filled ≤ toFill)
    (h : mbFillWithZeros body filled (toFill - filled) = .ok body') :
    toFill ≤ body'.dataLen ∧
      body'.data.take toFill = body.data.take filled ++ List.replicate (toFill - filled) nul := by
  obtain ⟨hfit, hdata⟩ := mbSetData_ok h
  rw [List.length_replicate] at hfit
  have hlen : filled + (List.replicate (toFill - filled) nul).length = toFill := by
    rw [List.length_replicate]; omega
  constructor
  · rw [MemBuf.dataLen, hdata, length_overwrite (by rw [hlen]; rw [MemBuf.dataLen] at hfit; omega)]
    rw [MemBuf.dataLen] at hfit; omega
  · have hroom : filled + (List.replicate (toFill - filled) nul).length ≤ body.data.length := by
      rw [hlen]; rw [MemBuf.dataLen] at hfit; omega
    have ht := take_overwrite hroom
    rw [hlen] at ht
    rw [hdata, ht]

theorem fixed_refill (head : Bytes) (size : Nat) :
    RefillKeeps sock file (FixedProduction head size file) := by
  rintro ⟨header, body₀, fd, dsize, off, n⟩ body dpr P R h rfl rfl hn ⟨k, hP, hk, hsum, hn0, hfd⟩
  simp only at hn hk hsum hn0 hfd
  simp only [fillBuffer, hn0, if_true, fillFixed]
  generalize htf : (if n < 65536 then n.toNat else 65536) = toFill
  have hfill : (toFill : Int) ≤ n := by split at htf <;> omega
  refine wp_seq (ensureSize_spec sock file body toFill h) ?_
  rintro body₁ h₁ ⟨ht₁, hlen⟩
  cases fd with
  | none =>
    refine wp_seq (wp_lift (fun _ => trivial) (Q := fun b h' => h' = h₁ ∧ toFill ≤ b.dataLen ∧
      b.data.take toFill = List.replicate toFill nul) fun b hb => ?_) ?_
    · have := mbFillWithZeros_take (Nat.zero_le toFill) hb
      exact ⟨rfl, this.1, by simpa using this.2⟩
    rintro b _ ⟨rfl, hb, hz⟩
    refine ⟨[], ht₁, .ofBody (Nat.zero_le _) hb, rfl, k + toFill, ?_, .inr rfl, ?_, ?_, .inl rfl⟩
    · simp [pending_body, hz, hP]
    · simp only [List.append_nil]; push_cast; omega
    · simp only; omega
  | some fd =>
    obtain rfl : file = some fd := by simpa [eq_comm] using hfd
    obtain rfl : k = 0 := by simpa using hk
    refine wp_seq (fillLoop_transfer sock fd (Nat.zero_le toFill) hlen h₁) ?_
    rintro ⟨b, filled, stop⟩ h₂ ⟨reads, ht₂, hb, hfilled, hfle, htake, hfull, hstop⟩
    simp only [List.take_zero, List.nil_append, Nat.zero_add] at hb hfilled hfle htake hfull
    have ht : Transfer sock (some fd) h h₂ [] reads := by simpa using ht₁.trans ht₂
    by_cases hex : stop.exhausted = true
    · simp only [hex, if_true, perform_bind, wp_perform]
      refine ⟨trivial, fun _ _ => wp_seq (wp_lift (fun _ => trivial) (Q := fun b' h' =>
        h' = ⟨.close fd, ()⟩ :: h₂ ∧ toFill ≤ b'.dataLen ∧ b'.data.take toFill =
          delivered reads ++ List.replicate (toFill - filled) nul) fun b' hb' => ?_) ?_⟩
      · have := mbFillWithZeros_take hfle hb'
        exact ⟨rfl, this.1, by rw [this.2, htake]⟩
      rintro b' _ ⟨rfl, hb', hz⟩
      refine ⟨reads, ht.quiet rfl fun _ _ => rfl, .ofBody (Nat.zero_le _) hb', rfl,
        toFill - filled, ?_, .inr rfl, ?_, ?_, .inl rfl⟩
      · simp [pending_body, hz, hP]
      · rw [delivered_append, List.length_append]; push_cast; omega
      · simp only; omega
    · simp only [Bool.not_eq_true] at hex
      simp only [hex, Bool.false_eq_true, if_false]
      refine ⟨reads, ht, .ofBody (Nat.zero_le _) (hb.symm ▸ le_trans hfle hlen), rfl, 0, ?_,
        .inl rfl, ?_, ?_, .inr rfl⟩
      · simp [pending_body, htake, hP]
      · rw [delivered_append, List.length_append]; push_cast; omega
      · simp only; omega

/-- The header as it goes to the socket, for a body of `n` bytes. -/
def fixedHead (header : MemBuf) (n : Nat) : Bytes :=
  header.data ++ (ascii "Content-Length: " ++ decimal n ++ crlf) ++ crlf

/-- A finished response is the header with the length line, the body buffer and the file
bytes fitted to the announced size. -/
theorem fixed_response_bytes {header body : MemBuf} {h₀ new log : History}
    {r r' : ResponseSender} {size : Nat} {dpr' : DataProcessingResult}
    (hnew : Runs posix (rsndrNew header (some body) file) h₀ (.done r) (new ++ h₀))
    (hsize : BytesAnnounced file new size) (hsend : SendCalls sock r log r' dpr' true)
    (hopen : dpr'.closeConn = false) :
    sentTo sock log = fixedHead header (body.dataLen + size) ++ body.data ++
        fitTo size (delivered (readsFromOpt file log)) ∧
      (sentTo sock log).length =
        (fixedHead header (body.dataLen + size)).length + (body.dataLen + size) := by
  obtain ⟨new', hh, hin, hann, hfd, hpend⟩ := wp_result (rsndrNew_spec header body file h₀) hnew
  obtain rfl := List.append_cancel_right hh
  obtain hn : (size : Int) = r.nbytes := hann _ hsize
  have hstart : FixedProduction (fixedHead header (body.dataLen + size) ++ body.data) size file
      ([] ++ pending r) [] r.nbytes r.fileDesc := by
    refine ⟨0, ?_, .inl rfl, by simp [hn], by omega, ?_⟩
    · have h0 : ¬ (size : Int) = -1 := by omega
      simp [hpend, ← hn, lengthLine, fixedHead, startOfBody, h0]
    · rw [hfd]; split
      · exact .inl rfl
      · exact .inr rfl
  obtain ⟨-, ⟨k, hP, -, hsum, -, -⟩, hex⟩ := hsend.keeps (fixed_refill _ size) hin hstart
  obtain ⟨hnil, hzero⟩ := hex rfl hopen
  rw [hnil, List.append_nil, List.nil_append] at hP
  have hk : (delivered (readsFromOpt file log)).length + k = size := by
    simp only [List.nil_append] at hsum; omega
  have hfit := fitTo_eq hk
  have hsent : sentTo sock log = fixedHead header (body.dataLen + size) ++ body.data ++
      fitTo size (delivered (readsFromOpt file log)) := by
    rw [hfit, hP]; simp
  refine ⟨hsent, ?_⟩
  rw [hsent, List.length_append, List.length_append, length_fitTo, MemBuf.dataLen]
  omega

/-- A file of 3 bytes that ends after one, and a socket that takes at most 40 bytes. -/
def shrunkFile : Environment := fun h c =>
  match c with
  | .fstat _ => ⟨.ok ⟨false, true, 0, 3⟩, trivial⟩
  | .read _ (n + 1) =>
    if readsFrom 7 h = [] then ⟨.got [120], by simp [Lawful]⟩ else ⟨.got [], by simp [Lawful]⟩
  | .write _ data => ⟨.wrote (min data.length 40), Nat.min_le_left _ _, by
      have : min data.length 40 ≤ 40 := Nat.min_le_right _ _
      exact le_trans this (by decide)⟩
  | c => Environment.quiet h c

def shrunkSender : ResponseSender where
  header := some ⟨ascii "HTTP/1.1 200 OK" ++ crlf ++ ascii "Content-Length: 5" ++ crlf ++ crlf⟩
  body := some ⟨ascii "ab"⟩
  fileDesc := some 7
  dataSize := 2
  dataOffset := 0
  nbytes := 3

def shrunkNew : Prog ResponseSender :=
  rsndrNew ⟨ascii "HTTP/1.1 200 OK" ++ crlf⟩ (some ⟨ascii "ab"⟩) (some 7)

def shrunkSend : Prog (ResponseSender × DataProcessingResult × Bool) :=
  rsndrSend 9 shrunkSender 5 dprInit

theorem fixed_response_bytes_shrunk :
    sentTo 5 (playIn shrunkFile shrunkSend []).2 =
      fixedHead ⟨ascii "HTTP/1.1 200 OK" ++ crlf⟩ 5 ++ ascii "ab" ++ [120, 0, 0] := by
  have hnew : Runs posix shrunkNew [] (.done shrunkSender)
      ((playIn shrunkFile shrunkNew []).2 ++ []) :=
    playIn_returns_new shrunkFile shrunkNew (by decide +kernel)
  have hsend : SendCalls 5 shrunkSender (playIn shrunkFile shrunkSend []).2
      ⟨none, some ⟨[120, 0, 0]⟩, none, 3, 3, 0⟩ dprInit true :=
    .last (playIn_returns_new shrunkFile shrunkSend (by decide +kernel))
  have hsize : BytesAnnounced (some 7) (playIn shrunkFile shrunkNew []).2 (3 : Nat) :=
    ⟨.ok ⟨false, true, 0, 3⟩, .head _, rfl⟩
  have hfit : fitTo 3 (delivered (readsFromOpt (some 7) (playIn shrunkFile shrunkSend []).2)) =
      [120, 0, 0] := by decide +kernel
  have h := (fixed_response_bytes hnew hsize hsend rfl).1
  rw [hfit] at h
  exact h

end FilemanagerHttpd.Audit
