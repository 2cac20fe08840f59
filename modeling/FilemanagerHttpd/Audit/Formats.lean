import FilemanagerHttpd.Audit.ResponseText
import FilemanagerHttpd.Server.Environment

/-!
# Formatted and escaped text

What a format and its arguments are in the body, for every format whose directives have
arguments of their type. The text is appended exactly as long as the body stays within the
size of a buffer.
-/

namespace FilemanagerHttpd.Audit

open Library Server

/-- The text of a format: literal bytes, `%R` arguments as they are, the others escaped. -/
def formatted (env : Environment) : History → Bytes → List FmtArg → Option Bytes
  | h, 37 :: 67 :: fmt, .dch dch :: args =>  -- %C
    (formatted env h fmt args).map (escapeHtml dch ++ ·)
  | h, 37 :: 68 :: fmt, .data bytes :: args =>  -- %D
    (formatted env h fmt args).map (escapeHtml bytes ++ ·)
  | h, 37 :: 83 :: fmt, .str s :: args =>  -- %S
    (formatted env h fmt args).map (escapeHtml (cstr s) ++ ·)
  | h, 37 :: 82 :: fmt, .str s :: args =>  -- %R
    (formatted env h fmt args).map (cstr s ++ ·)
  | h, 37 :: 72 :: fmt, args =>  -- %H
    let hostname := (env h .gethostname).1
    (formatted env (⟨.gethostname, hostname⟩ :: h) fmt args).map
      (escapeHtml (Option.getD hostname []) ++ ·)
  | h, 37 :: 37 :: fmt, args =>  -- %%
    (formatted env h fmt args).map (percent :: ·)
  | h, 37 :: fmt, args =>
    if fmt.head?.any (· ∈ [67, 68, 82, 83]) then none
    else (formatted env h fmt args).map (percent :: ·)
  | h, b :: fmt, args => (formatted env h fmt args).map (b :: ·)
  | _, [], _ => some []

/-- What escaped text may look like. -/
structure EscapedWell (data text : Bytes) : Prop where
  special : ∀ b ∈ [60, 62, quote, 39], b ∉ text
  ampersand : ∀ before rest, text = before ++ 38 :: rest → ∃ e ∈ entities, e <+: 38 :: rest
  back : htmlUnescape text = data

section Appending

/-- Text appended to the body. -/
def appendText (resp : RespBuf) (b text : Bytes) : Except Fault RespBuf :=
  if b.length + text.length + 1 < uintSize then .ok { resp with body := some ⟨b ++ text⟩ }
  else .error .heapOverflow

variable {env : Environment} {resp : RespBuf} {b : Bytes}

theorem respAppendData_eq (hbody : HasBody b resp) (data : Bytes) :
    respAppendData resp data = appendText resp b data := by
  rw [respAppendData, show resp.body = some ⟨b⟩ from hbody]
  show (mbAppendData ⟨b⟩ data >>= fun body => pure { resp with body := some body }) = _
  by_cases hfits : b.length + data.length + 1 < uintSize
  · rw [appendText, if_pos hfits]
    have hdata : mbAppendData ⟨b⟩ data = .ok ⟨b ++ data⟩ := if_pos hfits
    rw [hdata]
    rfl
  · rw [appendText, if_neg hfits]
    have hdata : mbAppendData ⟨b⟩ data = .error .heapOverflow := if_neg hfits
    rw [hdata]
    rfl

theorem flushRun_eq (hbody : HasBody b resp) (hsize : b.length + 1 < uintSize) (run : Bytes) :
    flushRun resp run = appendText resp b run := by
  rw [flushRun]
  split
  · rename_i hrun
    have hself : { resp with body := some ⟨b⟩ } = resp := by
      rw [← show resp.body = some ⟨b⟩ from hbody]
    rw [hrun, appendText, List.append_nil, if_pos (by rwa [List.length_nil]), hself]
  · exact respAppendData_eq hbody run

/-- Text after text. -/
theorem appendText_bind {s t : Bytes} {next : RespBuf → Except Fault RespBuf}
    (hnext : ∀ resp', HasBody (b ++ s) resp' → (b ++ s).length + 1 < uintSize →
      resp' = { resp with body := some ⟨b ++ s⟩ } → next resp' = appendText resp' (b ++ s) t) :
    (appendText resp b s >>= next) = appendText resp b (s ++ t) := by
  by_cases hfits : b.length + s.length + 1 < uintSize
  · have hsize : (b ++ s).length + 1 < uintSize := by rw [List.length_append]; omega
    rw [appendText, if_pos hfits]
    refine (hnext { resp with body := some ⟨b ++ s⟩ } rfl hsize rfl).trans ?_
    simp only [appendText, List.length_append, List.append_assoc, Nat.add_assoc]
  · have hmore : ¬ b.length + (s ++ t).length + 1 < uintSize := by
      rw [List.length_append]
      omega
    rw [appendText, if_neg hfits, appendText, if_neg hmore]
    rfl

theorem appendDataEscapeHtml_eq (hbody : HasBody b resp) (hsize : b.length + 1 < uintSize)
    (data : Bytes) : appendDataEscapeHtml resp data = appendText resp b (escapeHtml data) := by
  have hloop : ∀ (data run b : Bytes) resp, HasBody b resp → b.length + 1 < uintSize →
      escapeLoop resp run data = appendText resp b (run ++ escapeHtml data) := by
    intro data
    induction data with
    | nil =>
      intro run b resp hbody hsize
      rw [show escapeHtml [] = [] from rfl, List.append_nil]
      exact flushRun_eq hbody hsize run
    | cons c rest ih =>
      intro run b resp hbody hsize
      unfold escapeLoop
      rw [escapeHtml_cons]
      split
      · rename_i repl hrepl
        rw [flushRun_eq hbody hsize, hrepl, Option.getD_some]
        refine appendText_bind fun resp₁ hbody₁ hsize₁ _ => ?_
        rw [respAppendStr, cstr_htmlEntity hrepl, respAppendData_eq hbody₁]
        refine appendText_bind fun resp₂ hbody₂ hsize₂ _ => ?_
        exact ih [] _ resp₂ hbody₂ hsize₂
      · rename_i hself
        rw [hself, Option.getD_none, ← List.append_assoc run]
        exact ih (run ++ [c]) b resp hbody hsize
  exact hloop data [] b resp hbody hsize

/-- The same for a program that goes on when text has been appended. -/
theorem play_append {s t : Bytes} {next : RespBuf → Prog RespBuf} {h : History}
    (hnext : ∀ resp', HasBody (b ++ s) resp' → (b ++ s).length + 1 < uintSize →
      (playIn env (next resp') h).1 = Program.ofExcept (appendText resp' (b ++ s) t)) :
    (playIn env (liftM (appendText resp b s) >>= next) h).1 =
      Program.ofExcept (appendText resp b (s ++ t)) := by
  by_cases hfits : b.length + s.length + 1 < uintSize
  · have hsize : (b ++ s).length + 1 < uintSize := by rw [List.length_append]; omega
    have hstep := hnext { resp with body := some ⟨b ++ s⟩ } rfl hsize
    rw [appendText, if_pos hfits]
    refine hstep.trans ?_
    simp only [appendText, List.length_append, List.append_assoc, Nat.add_assoc]
  · have hmore : ¬ b.length + (s ++ t).length + 1 < uintSize := by
      rw [List.length_append]
      omega
    rw [appendText, if_neg hfits, appendText, if_neg hmore]
    rfl

variable (env) in
/-- Playing a format appends its text. -/
theorem fmtLoop_play (resp : RespBuf) (run fmt : Bytes) (args : List FmtArg) :
    ∀ (b text : Bytes) (h : History), HasBody b resp → b.length + 1 < uintSize →
      formatted env h fmt args = some text →
      (playIn env (fmtLoop resp run fmt args) h).1 =
        Program.ofExcept (appendText resp b (run ++ text)) := by
  fun_induction fmtLoop resp run fmt args with
  | case1 resp run fmt dch args ih =>
    intro b text h hbody hsize htext
    obtain ⟨rest, hrest, rfl⟩ := Option.map_eq_some_iff.mp htext
    rw [flushRun_eq hbody hsize]
    refine play_append fun resp₁ hbody₁ hsize₁ => ?_
    rw [appendDataEscapeHtml_eq hbody₁ hsize₁]
    exact play_append fun resp₂ hbody₂ hsize₂ => ih resp₂ _ rest h hbody₂ hsize₂ hrest
  | case2 resp run fmt bytes args ih =>
    intro b text h hbody hsize htext
    obtain ⟨rest, hrest, rfl⟩ := Option.map_eq_some_iff.mp htext
    rw [flushRun_eq hbody hsize]
    refine play_append fun resp₁ hbody₁ hsize₁ => ?_
    rw [appendDataEscapeHtml_eq hbody₁ hsize₁]
    exact play_append fun resp₂ hbody₂ hsize₂ => ih resp₂ _ rest h hbody₂ hsize₂ hrest
  | case3 resp run fmt s args ih =>
    intro b text h hbody hsize htext
    obtain ⟨rest, hrest, rfl⟩ := Option.map_eq_some_iff.mp htext
    rw [flushRun_eq hbody hsize]
    refine play_append fun resp₁ hbody₁ hsize₁ => ?_
    rw [appendDataEscapeHtml_eq hbody₁ hsize₁]
    exact play_append fun resp₂ hbody₂ hsize₂ => ih resp₂ _ rest h hbody₂ hsize₂ hrest
  | case4 resp run fmt s args ih =>
    intro b text h hbody hsize htext
    obtain ⟨rest, hrest, rfl⟩ := Option.map_eq_some_iff.mp htext
    rw [flushRun_eq hbody hsize]
    refine play_append fun resp₁ hbody₁ hsize₁ => ?_
    rw [respAppendData_eq hbody₁]
    exact play_append fun resp₂ hbody₂ hsize₂ => ih resp₂ _ rest h hbody₂ hsize₂ hrest
  | case5 resp run fmt args ih =>
    intro b text h hbody hsize htext
    obtain ⟨rest, hrest, rfl⟩ := Option.map_eq_some_iff.mp htext
    rw [flushRun_eq hbody hsize]
    refine play_append fun resp₁ hbody₁ hsize₁ => ?_
    show (playIn env (liftM (appendDataEscapeHtml resp₁ _) >>= _) _).1 = _
    rw [appendDataEscapeHtml_eq hbody₁ hsize₁]
    exact play_append fun resp₂ hbody₂ hsize₂ => ih resp₂ _ rest _ hbody₂ hsize₂ hrest
  | case6 resp run fmt args ih =>
    intro b text h hbody hsize htext
    obtain ⟨rest, hrest, rfl⟩ := Option.map_eq_some_iff.mp htext
    rw [flushRun_eq hbody hsize]
    refine play_append fun resp₁ hbody₁ hsize₁ => ?_
    rw [respAppendData_eq hbody₁]
    exact play_append fun resp₂ hbody₂ hsize₂ => ih resp₂ _ rest h hbody₂ hsize₂ hrest
  | case7 resp run fmt args hC hD hS hR hH hP hany =>
    intro b text h hbody hsize htext
    have hnone : formatted env h (37 :: fmt) args = none := by
      rw [formatted, if_pos hany]
      all_goals assumption
    rw [hnone] at htext
    cases htext
  | case8 resp run fmt args hC hD hS hR hH hP hany ih =>
    intro b text h hbody hsize htext
    have hkept : formatted env h (37 :: fmt) args =
        (formatted env h fmt args).map (percent :: ·) := by
      rw [formatted, if_neg hany]
      all_goals assumption
    rw [hkept] at htext
    obtain ⟨rest, hrest, rfl⟩ := Option.map_eq_some_iff.mp htext
    rw [flushRun_eq hbody hsize]
    refine play_append fun resp₁ hbody₁ hsize₁ => ?_
    rw [respAppendData_eq hbody₁]
    exact play_append fun resp₂ hbody₂ hsize₂ => ih resp₂ _ rest h hbody₂ hsize₂ hrest
  | case9 resp run c fmt args hC hD hS hR hH hP hc ih =>
    intro b text h hbody hsize htext
    have hkept : formatted env h (c :: fmt) args = (formatted env h fmt args).map (c :: ·) := by
      rw [formatted]
      all_goals assumption
    rw [hkept] at htext
    obtain ⟨rest, hrest, rfl⟩ := Option.map_eq_some_iff.mp htext
    have hrun := ih b rest h hbody hsize hrest
    rwa [List.append_assoc, List.singleton_append] at hrun
  | case10 resp run args =>
    intro b text h hbody hsize htext
    cases htext
    rw [List.append_nil, flushRun_eq hbody hsize]
    cases appendText resp b run <;> rfl

end Appending

section Escaping

/-- An ampersand in escaped text begins an entity. -/
theorem ampersand_escapeHtml (data : Bytes) :
    ∀ before rest, escapeHtml data = before ++ 38 :: rest →
    ∃ e ∈ entities, e <+: 38 :: rest := by
  induction data with
  | nil =>
    intro before rest h
    exact absurd (h ▸ List.mem_append_right _ List.mem_cons_self) List.not_mem_nil
  | cons c data ih =>
    intro before rest h
    rw [escapeHtml_cons] at h
    -- it is the first byte of what stands for `c`, or stands in the rest
    have hfront : ∀ front : Bytes, front ++ escapeHtml data = before ++ 38 :: rest →
        (∀ b ∈ front.tail, b ≠ 38) → (∀ t, front = 38 :: t → front ∈ entities) →
        ∃ e ∈ entities, e <+: 38 :: rest := by
      intro front h htail hhead
      rcases List.append_eq_append_iff.mp h with ⟨mid, -, hrest⟩ | ⟨mid, hfrontEq, hrest⟩
      · exact ih mid rest hrest
      · cases mid with
        | nil => exact ih [] rest hrest.symm
        | cons b mid =>
          obtain ⟨rfl, rfl⟩ := List.cons.inj hrest
          cases before with
          | nil => exact ⟨front, hhead mid hfrontEq, hfrontEq ▸ List.prefix_append _ _⟩
          | cons d before =>
            refine absurd rfl (htail 38 ?_)
            rw [hfrontEq, List.cons_append, List.tail_cons]
            exact List.mem_append_right _ List.mem_cons_self
    cases hrepl : htmlEntity c with
    | none =>
      rw [hrepl, Option.getD_none] at h
      refine hfront [c] h nofun fun t ht => ?_
      rw [(List.cons.inj ht).1] at hrepl
      cases hrepl
    | some repl =>
      rw [hrepl, Option.getD_some] at h
      have htail : ∀ e ∈ entities, ∀ b ∈ e.tail, b ≠ 38 := by decide +kernel
      have hmem := htmlEntity_mem hrepl
      exact hfront repl h (htail repl hmem) fun _ _ => hmem

end Escaping

end FilemanagerHttpd.Audit
