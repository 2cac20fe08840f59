import FilemanagerHttpd.Audit.Duties

/-!
# Looking files up

The search for what a URL path stands for follows paths only, and leaves the directories
closed that it opens.
-/

namespace FilemanagerHttpd.Audit

open Library Server

variable {cfg : Config} {st : LoginState} {α : Type}

/-- Calls that look at files by their path. -/
abbrev LooksUp {α : Type} (p : Prog α) : Prop :=
  Within (S := sys) (fun c => ∃ path, c = .stat path) Ordinary Any p

theorem LooksUp.operates {p : Prog α} (hp : LooksUp p) : Operates cfg st p := by
  intro own h
  refine Ledger.Owns.mono (Ledger.Owns.within hp ?_ (fun f _ hf => hf) ?_) fun _ _ _ hQ => hQ.1
  · rintro c t ⟨path, rfl⟩
    exact ⟨rfl, trivial⟩
  · rintro c ⟨path, rfl⟩
    exact ⟨rfl, rfl, fun _ => rfl⟩

section Lookup

theorem isRegularFile_looksUp (path : Path) : LooksUp (isRegularFile path) := by
  refine within_perform ⟨path, rfl⟩ fun r => ?_
  cases r <;> exact .pure trivial

theorem subShare_looksUp (path : Bytes) (folder : Option Folder) (s : Share) :
    LooksUp (subShare path folder s) := by
  refine .ite (.pure trivial) (.ite (.pure trivial)
    (.ite (.pure trivial) (.ite (.pure trivial) ?_)))
  refine within_perform ⟨s.syspath, rfl⟩ fun r => ?_
  cases r <;> exact .pure trivial

theorem configGetSubSharesForPath_looksUp (urlPath : Bytes) :
    LooksUp (configGetSubSharesForPath cfg urlPath) := by
  have hfold : ∀ (shares : List Share) folder,
      LooksUp (shares.foldlM (subShare (dchTrimTrailing urlPath slash)) folder) := by
    intro shares
    induction shares with
    | nil => intro folder; exact .pure trivial
    | cons s shares ih =>
      intro folder
      rw [List.foldlM_cons]
      exact (subShare_looksUp _ _ s).bind fun folder _ => ih folder
  exact .ite (.pure trivial) ((hfold cfg.shares none).bind fun _ _ => .pure trivial)

theorem findCgiPrefix_looksUp (cuts : List (Bytes × Bytes)) :
    LooksUp (findCgiPrefix cfg cuts) := by
  induction cuts with
  | nil => exact .pure trivial
  | cons cut cuts ih =>
    obtain ⟨cgiUrl, cgiSubPath⟩ := cut
    refine Within.bind (.lift (configIsCGI_ordinary cfg _)) fun matched _ => .ite ih ?_
    cases configGetSysPathForUrlPath cfg cgiUrl with
    | none => exact ih
    | some cgiExe =>
      exact (isRegularFile_looksUp cgiExe).bind fun isReg _ => .ite (.pure trivial) ih

theorem configFindCGI_looksUp (q : Bytes) : LooksUp (configFindCGI cfg q) := by
  refine Within.bind (.lift (configIsCGI_ordinary cfg q)) fun matched _ => ?_
  refine .bind (Q := Any) ?_ fun wholePath _ => .ite (.pure trivial) (findCgiPrefix_looksUp _)
  cases matched with
  | false => exact .pure trivial
  | true =>
    cases configGetSysPathForUrlPath cfg q with
    | none => exact .pure trivial
    | some cgiExe => exact isRegularFile_looksUp cgiExe

theorem lookupTarget_looksUp (q : Bytes) : LooksUp (lookupTarget cfg q) := by
  unfold lookupTarget
  cases configGetSysPathForUrlPath cfg q with
  | none =>
    refine (configGetSubSharesForPath_looksUp q).bind fun folder _ => ?_
    cases folder <;> exact .pure trivial
  | some sysPath =>
    refine within_perform ⟨sysPath, rfl⟩ fun r => ?_
    cases r with
    | ok st =>
      have hcgi : ∀ isReg : Bool,
          LooksUp (if isReg then liftM (configIsCGI cfg q) else pure false) :=
        fun _ => .ite (.lift (configIsCGI_ordinary cfg q)) (.pure trivial)
      exact (hcgi st.isReg).bind fun _ _ => .pure trivial
    | error e =>
      cases e with
      | notDir =>
        refine (configFindCGI_looksUp q).bind fun found _ => ?_
        cases found <;> exact .pure trivial
      | _ => exact .pure trivial

end Lookup

section Directories

/-- A directory is read while it is open. -/
theorem works_readdir {own : Multiset Fd} {d : Fd} {h : History} {β : Type}
    {k : Option Bytes → Prog β} {T : β → Multiset Fd → History → Prop} (hd : d ∈ own)
    (hk : ∀ r t, Works cfg st own (k r) T t) :
    Works cfg st own (perform (.readdir d) >>= k) T h := by
  refine works_call (c := .readdir d) ⟨rfl, trivial⟩ ?_ rfl (fun _ => rfl) fun r _ => hk r _
  exact fun fd hm => Multiset.mem_singleton.mp hm ▸ hd

/-- A loop over the entries of a directory, which is open. -/
theorem dirLoop_operates {υ : Type} {body : Fd → υ → Prog (υ ⊕ α)}
    (hbody : ∀ d x own h, d ∈ own → Works cfg st own (body d x) (fun _ o _ => o = own) h)
    (fuel : Nat) (d : Fd) (x : υ) {own : Multiset Fd} (hd : d ∈ own) (h : History) :
    Works cfg st own (Program.iterate .outOfFuel (body d) fuel x) (fun _ o _ => o = own) h := by
  refine works_iterate (I := fun _ o _ => o = own) ?_ fuel rfl
  rintro y _ t rfl
  refine (hbody d y _ t hd).mono ?_
  rintro (y | b) _ u rfl <;> rfl

/-- A directory is opened, read in a loop and closed. -/
theorem dirRead_operates {υ β : Type} {dir : Path} {body : MemBuf → Fd → υ → Prog (υ ⊕ α)}
    (hbody : ∀ mb d x own h, d ∈ own →
      Works cfg st own (body mb d x) (fun _ o _ => o = own) h) (fuel : Nat) (x : υ)
    (result : α → β) :
    Operates cfg st (do
      match ← perform (.opendir dir) with
      | .error e => return Except.error e
      | .ok d =>
        let mb ← mbNewWithStr dir
        let mb ← mbEnsureEndsWithSlash mb
        let a ← Program.iterate .outOfFuel (body mb d) fuel x
        perform (.closedir d)
        return Except.ok (result a) : Prog (Except Errno β)) := by
  intro own h
  refine works_open (c := .opendir dir) ⟨rfl, trivial⟩
    (fun fd hm => absurd hm (Multiset.notMem_zero fd)) rfl fun r _ => ?_
  cases r with
  | error e => exact .pure (add_zero own)
  | ok d =>
    refine (operates_lift (ordinary_wraps (mbNewWithStr_wraps dir)).any _ _).seq ?_
    rintro mb _ t rfl
    refine (operates_lift (ordinary_wraps (mbEnsureEndsWithSlash_wraps mb)).any _ _).seq ?_
    rintro mb' _ u rfl
    have hd : d ∈ own + {d} := Multiset.mem_add.mpr (.inr (Multiset.mem_singleton_self d))
    refine (dirLoop_operates (hbody mb') fuel d x hd u).seq ?_
    rintro a _ v rfl
    exact works_closedir (o := own) (add_comm own {d}) fun w => .pure rfl

theorem folderLoadDir_operates (fuel : Nat) (dir : Path) :
    Operates cfg st (folderLoadDir fuel cfg dir) := by
  refine dirRead_operates (fun mb d folder own h hd => ?_) fuel [] (folderSortEntries cfg)
  refine works_readdir hd fun r t => ?_
  cases r with
  | none => exact .pure rfl
  | some name =>
    refine .ite (fun _ => .pure rfl) fun _ => ?_
    refine works_path (c := .stat _) ⟨rfl, trivial⟩ rfl rfl (fun _ => rfl) fun r t => ?_
    cases r with
    | ok st => exact .pure rfl
    | error e => exact .pure rfl

theorem configGetIndexFile_operates (fuel : Nat) (dir : Path) :
    Operates cfg st (configGetIndexFile fuel cfg dir) := by
  refine dirRead_operates (fun mb d best own h hd => ?_) fuel (cfg.indexPatterns.length, none) id
  obtain ⟨bestMatchIdx, bestIdxFile⟩ := best
  refine .ite (fun _ => .pure rfl) fun _ => works_readdir hd fun r t => ?_
  cases r with
  | none => exact .pure rfl
  | some name =>
    refine .ite (fun _ => .pure rfl) fun _ => ?_
    split
    · exact .pure rfl
    · refine works_path (c := .stat _) ⟨rfl, trivial⟩ rfl rfl (fun _ => rfl) fun r t => ?_
      cases r with
      | ok st => exact .ite (fun _ => .pure rfl) fun _ => .pure rfl
      | error e => exact .pure rfl

theorem chooseIndexFile_operates (fuel : Nat) (t : Target) :
    Operates cfg st (chooseIndexFile fuel cfg t) := by
  unfold chooseIndexFile
  split
  · refine (configGetIndexFile_operates fuel _).seq fun r => ?_
    split
    · exact operates_pure _
    · exact operates_pure _
    · exact operates_pure _
  · exact operates_pure _

end Directories

end FilemanagerHttpd.Audit
