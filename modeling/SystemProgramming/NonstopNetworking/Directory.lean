import SystemProgramming.NonstopNetworking.RequestHeader

/-!
# The list of files and the directory

The server keeps a list of names beside its temporary directory, and forms a path by putting
a name behind what it finds where the name of the directory was.  The list mirrors the directory as
long as the paths of PUT and DELETE lead to entries of the directory that are called as the list
says, and the files elsewhere are safe as long as no path leads to them.
-/

namespace SystemProgramming.NonstopNetworking

variable {Φ Loc : Type} {P : Platform Φ} {s s' : Server Φ} {fd k : ℕ} {sock : Socket} {cur : Info}
  {name other : Filename} {path : Path} {env : Surroundings} {e : Event}

def dot : Byte := 46

/-- A name of an entry of a directory. -/
def EntryName (name : Filename) : Prop :=
  name ≠ [] ∧ slash ∉ name ∧ name ≠ [dot] ∧ name ≠ [dot, dot]

instance (name : Filename) : Decidable (EntryName name) := by
  unfold EntryName
  infer_instance

/-- What the system does with the paths of the server.  A path leads to a place, which may
be an entry of the temporary directory and may be a place for an ordinary file (no directory
and no device).  The directory has got its name from `mkdtemp`, and the directories stay as they
are. -/
structure FileSystem (P : Platform Φ) (Loc : Type) where
  directory : List Byte
  locate : Path → Loc
  entry : Loc → Option Filename
  ordinary : Loc → Prop
  content : Φ → Loc → Option (List Byte)
  entry_locate : ∀ name, EntryName name → entry (locate (directory ++ slash :: name)) = some name
  of_entry : ∀ l name, entry l = some name →
    EntryName name ∧ locate (directory ++ slash :: name) = l ∧ ordinary l
  fopenRead_eq : ∀ φ path c, ordinary (locate path) → content φ (locate path) = some c →
    P.fopenRead φ path = some c
  stat_eq : ∀ φ path c, ordinary (locate path) → content φ (locate path) = some c →
    P.stat φ path = some c.length
  fopenWrite_content : ∀ φ path save c, ordinary (locate path) →
    P.fopenWrite φ path = some save → content (save c) (locate path) = some c
  fopenWrite_frame : ∀ φ path save c l, P.fopenWrite φ path = some save → l ≠ locate path →
    content (save c) l = content φ l
  remove_content : ∀ φ path φ' name, entry (locate path) = some name →
    P.remove φ path = some φ' → content φ' (locate path) = none
  remove_frame : ∀ φ path φ' l, P.remove φ path = some φ' → l ≠ locate path →
    content φ' l = content φ l

/-! ## What a step does to the files -/

/-- The command that is executed when the event occurs. -/
def Server.executing (s : Server Φ) : Event → Option Header
  | .accept _ _ _ _ => none
  | .ready fd _ => (s.connectionsInfo fd).bind fun cur ↦ if cur.status = 1 then cur.header else none

/-- The path that is formed for a file name when the event occurs. -/
def Event.fullPath : Event → Filename → Outcome Path
  | .accept _ _ _ _, _ => .undefined
  | .ready _ env, name => NonstopNetworking.fullPath env name

/-- A step leaves the files alone, or stores one, or removes one that is listed. -/
inductive FilesStep (P : Platform Φ) (s : Server Φ) (e : Event) : Option Header → Server Φ → Prop
  | keep {command : Option Header} {s' : Server Φ} :
      (∀ header, command = some header → header.command ≠ .PUT ∧ header.command ≠ .DELETE) →
      s'.fileList = s.fileList → s'.disk = s.disk → FilesStep P s e command s'
  | put {name : Filename} {path : Path} {save : List Byte → Φ} {content : List Byte}
      {s' : Server Φ} :
      e.fullPath name = .next path → P.fopenWrite s.disk path = some save →
      s'.fileList = (if name ∈ s.fileList then s.fileList else s.fileList ++ [name]) →
      s'.disk = save content → FilesStep P s e (some ⟨.PUT, name⟩) s'
  | delete {name : Filename} {path : Path} {s' : Server Φ} :
      e.fullPath name = .next path → P.remove s.disk path = some s'.disk → name ∈ s.fileList →
      s'.fileList = s.fileList.erase name → FilesStep P s e (some ⟨.DELETE, name⟩) s'

namespace Server

theorem files_of_parsingHeader (h : s.parsingHeader P fd sock = .next (s', k)) :
    s'.fileList = s.fileList ∧ s'.disk = s.disk := by
  simp only [parsingHeader] at h
  obtain ⟨⟨buf, n, input⟩, -, h⟩ := Outcome.bind_eq_next_iff.mp h
  set s₁ : Server Φ := if n = BUFFER_SIZE then
    (s.setSocket fd { sock with input := input }).send fd P.errBadRequest
    else s.setSocket fd { sock with input := input } with hs₁
  have hfiles : s₁.fileList = s.fileList ∧ s₁.disk = s.disk := by
    rw [hs₁]
    split
    · exact ⟨rfl, rfl⟩
    · exact ⟨rfl, rfl⟩
  have hdone {t : Server Φ} {result : ℕ} (h : (pure (t, result) : Outcome _) = .next (s', k))
      (ht : t.fileList = s₁.fileList ∧ t.disk = s₁.disk) :
      s'.fileList = s.fileList ∧ s'.disk = s.disk := by
    simp only [Outcome.pure_eq, Outcome.next.injEq, Prod.mk.injEq] at h
    rw [← h.1, ht.1, ht.2]
    exact hfiles
  split at h
  · exact hdone h ⟨rfl, rfl⟩
  · exact hdone h ⟨rfl, rfl⟩
  · obtain ⟨name, -, h⟩ := Outcome.bind_eq_next_iff.mp h
    exact hdone h ⟨rfl, rfl⟩

theorem files_of_executePut (h : s.executePut P fd env sock name = .next (s', k)) (hk : k ≠ 0) :
    FilesStep P s (.ready fd env) (some ⟨.PUT, name⟩) s' := by
  obtain ⟨path, hpath, h⟩ := Outcome.bind_eq_next_iff.mp h
  split at h
  · cases h
    exact absurd rfl hk
  · rename_i save hsave
    obtain ⟨read, -, h⟩ := Outcome.bind_eq_next_iff.mp h
    obtain ⟨content, -, h⟩ := Outcome.bind_eq_next_iff.mp h
    obtain ⟨s₁, hwrite, h⟩ := Outcome.bind_eq_next_iff.mp h
    obtain ⟨-, hlist, -⟩ := frame_of_write hwrite
    cases h
    refine FilesStep.put hpath hsave ?_ rfl
    simp only [hlist]
    rfl

theorem files_of_executeDelete (h : s.executeDelete P fd env name = .next (s', k)) (hk : k ≠ 0) :
    FilesStep P s (.ready fd env) (some ⟨.DELETE, name⟩) s' := by
  obtain ⟨path, hpath, h⟩ := Outcome.bind_eq_next_iff.mp h
  split at h
  · obtain ⟨s₁, -, h⟩ := Outcome.bind_eq_next_iff.mp h
    cases h
  · rename_i disk hremove
    split at h
    · rename_i hmem
      obtain ⟨s₁, hwrite, h⟩ := Outcome.bind_eq_next_iff.mp h
      obtain ⟨-, hlist, -⟩ := frame_of_write hwrite
      cases h
      exact FilesStep.delete hpath hremove hmem (by rw [hlist])
    · obtain ⟨s₁, -, h⟩ := Outcome.bind_eq_next_iff.mp h
      cases h
      exact absurd rfl hk

/-- The command has been executed, and its connection is closed afterwards. -/
theorem files_of_executeCommand {header : Header}
    (h : s.executeCommand P fd env sock header = .next (s', k)) (hk : k ≠ 0) :
    FilesStep P s (.ready fd env) (some header) s' := by
  obtain ⟨command, name⟩ := header
  have hkeep (hfiles : s'.fileList = s.fileList ∧ s'.disk = s.disk)
      (hcommand : command ≠ .PUT ∧ command ≠ .DELETE) :
      FilesStep P s (.ready fd env) (some ⟨command, name⟩) s' := by
    refine FilesStep.keep ?_ hfiles.1 hfiles.2
    rintro header ⟨⟩
    exact hcommand
  cases command with
  | GET => exact hkeep (frame_of_executeGet h).2 (by decide)
  | PUT => exact files_of_executePut h hk
  | DELETE => exact files_of_executeDelete h hk
  | LIST => exact hkeep (frame_of_executeList h).2 (by decide)
  | V_UNKNOWN =>
    cases h
    exact absurd rfl hk

end Server

theorem FilesStep.congr {command : Option Header} {s'' : Server Φ} (h : FilesStep P s e command s')
    (hlist : s''.fileList = s'.fileList) (hdisk : s''.disk = s'.disk) :
    FilesStep P s e command s'' := by
  cases h with
  | keep hcommand hfiles hsame => exact .keep hcommand (hlist.trans hfiles) (hdisk.trans hsame)
  | put hpath hsave hfiles hsaved => exact .put hpath hsave (hlist.trans hfiles) (hdisk.trans hsaved)
  | delete hpath hremove hmem hfiles =>
    exact .delete hpath (hdisk ▸ hremove) hmem (hlist.trans hfiles)

/-- In the states of a run the step of a ready connection parses or executes. -/
theorem filesStep_of_step (hinv : s.Inv) (h : Step P s e s') :
    FilesStep P s e (s.executing e) s' := by
  obtain ⟨hoccurs, hstep⟩ := h
  cases e with
  | accept fd input ending reader =>
    cases hstep
    exact .keep (by simp [Server.executing]) rfl rfl
  | ready fd env =>
    obtain ⟨sock, hsock, hopen, -⟩ := hoccurs
    obtain ⟨cur, hcur, hstatus⟩ := hinv fd sock hsock hopen
    rcases (Server.handle_eq hcur hsock hstatus).mp hstep with ⟨hzero, hparse⟩ | ⟨hone, hexec⟩
    · obtain ⟨hlist, hdisk⟩ := Server.files_of_parsingHeader hparse
      refine .keep (fun header hheader ↦ ?_) hlist hdisk
      simp [Server.executing, hcur, hzero] at hheader
    · obtain ⟨header, s₁, k, hheader, hcommand, hk, rfl⟩ := Server.execute_eq_next.mp hexec
      have hexecuting : s.executing (.ready fd env) = some header := by
        simp [Server.executing, hcur, hone, hheader]
      rw [hexecuting]
      exact (Server.files_of_executeCommand hcommand hk).congr rfl rfl

/-! ## The mirror and its condition -/

namespace FileSystem

variable (fs : FileSystem P Loc)

/-- The path of a name, when the array still holds the name of the directory. -/
def pathOf (name : Filename) : Path := fs.directory ++ slash :: name

/-- The list has no duplicates, and its elements are the names of the files that are directly
in the directory. -/
def Mirrors (s : Server Φ) : Prop :=
  s.fileList.Nodup ∧ ∀ name, name ∈ s.fileList ↔
    ∃ l, fs.entry l = some name ∧ (fs.content s.disk l).isSome

/-- The path leads to a file that is no entry of the temporary directory. -/
def Outside (s : Server Φ) (path : Path) : Prop :=
  fs.entry (fs.locate path) = none ∧ (fs.content s.disk (fs.locate path)).isSome

/-- After the step the list mirrors the directory, and no other file has been created, changed,
removed or read. -/
structure StepCorrect (s : Server Φ) (e : Event) (s' : Server Φ) : Prop where
  mirrors : fs.Mirrors s'
  frame : ∀ l, fs.entry l = none → fs.content s'.disk l = fs.content s.disk l
  writes : ∀ header path, s.executing e = some header →
    header.command = .PUT ∨ header.command = .DELETE → e.fullPath header.filename = .next path →
      (fs.entry (fs.locate path)).isSome
  reads : ∀ name path, s.executing e = some ⟨.GET, name⟩ → e.fullPath name = .next path →
    ¬ fs.Outside s path

/-- A file is stored in the entry of its name, or both are listed already; a file is removed from
the entry of its name; and no file elsewhere is asked for. -/
structure Confined (s : Server Φ) (e : Event) : Prop where
  put : ∀ name path, s.executing e = some ⟨.PUT, name⟩ → e.fullPath name = .next path →
    ∃ entry, fs.entry (fs.locate path) = some entry ∧
      (entry = name ∨ entry ∈ s.fileList ∧ name ∈ s.fileList)
  delete : ∀ name path, s.executing e = some ⟨.DELETE, name⟩ → e.fullPath name = .next path →
    fs.entry (fs.locate path) = some name
  get : ∀ name path, s.executing e = some ⟨.GET, name⟩ → e.fullPath name = .next path →
    ¬ fs.Outside s path

variable {fs}

theorem Mirrors.mem_iff (h : fs.Mirrors s) (name : Filename) : name ∈ s.fileList ↔
    EntryName name ∧ (fs.content s.disk (fs.locate (fs.pathOf name))).isSome := by
  rw [h.2 name]
  constructor
  · rintro ⟨l, hentry, hfile⟩
    obtain ⟨hname, rfl, -⟩ := fs.of_entry l name hentry
    exact ⟨hname, hfile⟩
  · rintro ⟨hname, hfile⟩
    exact ⟨_, fs.entry_locate name hname, hfile⟩

theorem mirrors_of_mem_iff (hnodup : s.fileList.Nodup) (h : ∀ name, name ∈ s.fileList ↔
    EntryName name ∧ (fs.content s.disk (fs.locate (fs.pathOf name))).isSome) : fs.Mirrors s := by
  refine ⟨hnodup, fun name ↦ (h name).trans ⟨?_, ?_⟩⟩
  · rintro ⟨hname, hfile⟩
    exact ⟨_, fs.entry_locate name hname, hfile⟩
  · rintro ⟨l, hentry, hfile⟩
    obtain ⟨hname, rfl, -⟩ := fs.of_entry l name hentry
    exact ⟨hname, hfile⟩

theorem ordinary_locate (hname : EntryName name) : fs.ordinary (fs.locate (fs.pathOf name)) :=
  (fs.of_entry _ name (fs.entry_locate name hname)).2.2

theorem locate_ne (hentry : fs.entry (fs.locate path) = some name) (hother : EntryName other)
    (hne : other ≠ name) : fs.locate (fs.pathOf other) ≠ fs.locate path := by
  intro heq
  have hboth := fs.entry_locate other hother
  rw [show fs.directory ++ slash :: other = fs.pathOf other from rfl, heq, hentry] at hboth
  exact hne (Option.some.inj hboth).symm

/-- A file that is stored in the entry of a name leaves the others alone. -/
theorem content_put {save : List Byte → Φ} {c : List Byte}
    (hentry : fs.entry (fs.locate path) = some name)
    (hsave : P.fopenWrite s.disk path = some save) (hdisk : s'.disk = save c)
    (hother : EntryName other) :
    (fs.content s'.disk (fs.locate (fs.pathOf other))).isSome ↔
      (fs.content s.disk (fs.locate (fs.pathOf other))).isSome ∨ other = name := by
  obtain ⟨-, hlocate, hordinary⟩ := fs.of_entry _ name hentry
  by_cases heq : other = name
  · subst heq
    have hstored := fs.fopenWrite_content _ _ _ c hordinary hsave
    rw [hdisk, show fs.locate (fs.pathOf other) = fs.locate path from hlocate, hstored]
    simp
  · rw [hdisk, fs.fopenWrite_frame _ _ _ c _ hsave (locate_ne hentry hother heq), or_iff_left heq]

theorem mem_put (hlist : s'.fileList = if name ∈ s.fileList then s.fileList
    else s.fileList ++ [name]) : other ∈ s'.fileList ↔ other ∈ s.fileList ∨ other = name := by
  rw [hlist]
  split
  · rename_i hin
    exact ⟨Or.inl, fun h ↦ h.elim id fun heq ↦ heq ▸ hin⟩
  · rw [List.mem_append, List.mem_singleton]

/-- A file that is stored in an entry is listed exactly once. -/
theorem Mirrors.put {save : List Byte → Φ} {c : List Byte} {entry : Filename} (h : fs.Mirrors s)
    (hentry : fs.entry (fs.locate path) = some entry)
    (hsame : entry = name ∨ entry ∈ s.fileList ∧ name ∈ s.fileList)
    (hsave : P.fopenWrite s.disk path = some save)
    (hlist : s'.fileList = if name ∈ s.fileList then s.fileList else s.fileList ++ [name])
    (hdisk : s'.disk = save c) : fs.Mirrors s' := by
  have hnodup : s'.fileList.Nodup := by
    rw [hlist]
    split
    · exact h.1
    · rename_i hin
      refine List.nodup_append.mpr ⟨h.1, List.nodup_singleton name, fun a ha b hb ↦ ?_⟩
      rw [List.mem_singleton.mp hb]
      rintro rfl
      exact hin ha
  have hname : EntryName entry := (fs.of_entry _ entry hentry).1
  have hmem (other : Filename) :
      other ∈ s'.fileList ↔ other ∈ s.fileList ∨ other = entry := by
    rw [mem_put hlist]
    rcases hsame with rfl | ⟨hin, hin'⟩
    · exact Iff.rfl
    · constructor
      · rintro (hold | rfl)
        · exact Or.inl hold
        · exact Or.inl hin'
      · rintro (hold | rfl)
        · exact Or.inl hold
        · exact Or.inl hin
  refine mirrors_of_mem_iff hnodup fun other ↦ ?_
  rw [hmem, h.mem_iff]
  constructor
  · rintro (⟨hother, hfile⟩ | rfl)
    · exact ⟨hother, (content_put hentry hsave hdisk hother).mpr (Or.inl hfile)⟩
    · exact ⟨hname, (content_put hentry hsave hdisk hname).mpr (Or.inr rfl)⟩
  · rintro ⟨hother, hfile⟩
    rcases (content_put hentry hsave hdisk hother).mp hfile with hold | rfl
    · exact Or.inl ⟨hother, hold⟩
    · exact Or.inr rfl

theorem Mirrors.delete (h : fs.Mirrors s) (hmem : name ∈ s.fileList)
    (hentry : fs.entry (fs.locate path) = some name)
    (hremove : P.remove s.disk path = some s'.disk)
    (hlist : s'.fileList = s.fileList.erase name) : fs.Mirrors s' := by
  have hlocate : fs.locate (fs.pathOf name) = fs.locate path := (fs.of_entry _ name hentry).2.1
  refine mirrors_of_mem_iff (hlist ▸ h.1.erase name) fun other ↦ ?_
  rw [hlist, h.1.mem_erase_iff, h.mem_iff]
  by_cases heq : other = name
  · subst heq
    simp [hlocate, fs.remove_content _ _ _ _ hentry hremove]
  · rw [and_iff_right heq]
    refine and_congr_right fun hother ↦ ?_
    rw [fs.remove_frame _ _ _ _ hremove (locate_ne hentry hother heq)]

theorem ne_locate {l : Loc} (hentry : fs.entry (fs.locate path) = some name)
    (hl : fs.entry l = none) : l ≠ fs.locate path := by
  rintro rfl
  rw [hentry] at hl
  cases hl

/-- One lemma for all steps: a confined step is correct. -/
theorem Mirrors.step (h : fs.Mirrors s) (hinv : s.Inv) (hok : fs.Confined s e)
    (hstep : Step P s e s') : fs.StepCorrect s e s' := by
  have hwrites : ∀ header path, s.executing e = some header →
      header.command = .PUT ∨ header.command = .DELETE →
        e.fullPath header.filename = .next path → (fs.entry (fs.locate path)).isSome := by
    rintro ⟨command, name⟩ path hcommand hwrite hpath
    rcases hwrite with rfl | rfl
    · obtain ⟨entry, hentry, -⟩ := hok.put name path hcommand hpath
      rw [hentry, Option.isSome_some]
    · rw [hok.delete name path hcommand hpath, Option.isSome_some]
  have hfiles := filesStep_of_step hinv hstep
  generalize hcommand : s.executing e = command at hfiles
  cases hfiles with
  | keep _ hlist hdisk =>
    exact ⟨by rwa [Mirrors, hlist, hdisk], fun l _ ↦ by rw [hdisk], hwrites, hok.get⟩
  | @put name path save c _ hpath hsave hlist hdisk =>
    obtain ⟨entry, hentry, hsame⟩ := hok.put name path hcommand hpath
    refine ⟨h.put hentry hsame hsave hlist hdisk, fun l hl ↦ ?_, hwrites, hok.get⟩
    rw [hdisk, fs.fopenWrite_frame _ _ _ c l hsave (ne_locate hentry hl)]
  | @delete name path _ hpath hremove hmem hlist =>
    have hentry := hok.delete name path hcommand hpath
    refine ⟨h.delete hmem hentry hremove hlist, fun l hl ↦ ?_, hwrites, hok.get⟩
    rw [fs.remove_frame _ _ _ l hremove (ne_locate hentry hl)]

/-- A file in another entry than the list says is missing on one of the two sides. -/
theorem StepCorrect.confined (h : fs.Mirrors s) (hinv : s.Inv) (hstep : Step P s e s')
    (hcorrect : fs.StepCorrect s e s') : fs.Confined s e := by
  have hfiles := filesStep_of_step hinv hstep
  refine ⟨fun name path hcommand hpath ↦ ?_, fun name path hcommand hpath ↦ ?_, hcorrect.reads⟩
  · obtain ⟨entry, hentry⟩ := Option.isSome_iff_exists.mp
      (hcorrect.writes _ path hcommand (Or.inl rfl) hpath)
    refine ⟨entry, hentry, ?_⟩
    by_contra hnot
    rw [not_or] at hnot
    rw [hcommand] at hfiles
    cases hfiles with
    | keep hkeep _ _ => exact absurd rfl (hkeep _ rfl).1
    | @put _ path' save c _ hpath' hsave hlist hdisk =>
      obtain rfl := Outcome.next.inj (hpath.symm.trans hpath')
      have hlisted : name ∈ s'.fileList := (mem_put hlist).mpr (Or.inr rfl)
      obtain ⟨hname, hfile⟩ := (hcorrect.mirrors.mem_iff name).mp hlisted
      have hold : name ∈ s.fileList := by
        rcases (content_put hentry hsave hdisk hname).mp hfile with hold | heq
        · exact (h.mem_iff name).mpr ⟨hname, hold⟩
        · exact absurd heq.symm hnot.1
      have hentryName := (fs.of_entry _ entry hentry).1
      have hlisted' : entry ∈ s'.fileList := (hcorrect.mirrors.mem_iff entry).mpr
        ⟨hentryName, (content_put hentry hsave hdisk hentryName).mpr (Or.inr rfl)⟩
      rcases (mem_put hlist).mp hlisted' with hin | heq
      · exact hnot.2 ⟨hin, hold⟩
      · exact hnot.1 heq
  · obtain ⟨entry, hentry⟩ := Option.isSome_iff_exists.mp
      (hcorrect.writes _ path hcommand (Or.inr rfl) hpath)
    by_contra hnot
    have hne : name ≠ entry := fun heq ↦ hnot (heq ▸ hentry)
    rw [hcommand] at hfiles
    cases hfiles with
    | keep hkeep _ _ => exact absurd rfl (hkeep _ rfl).2
    | @delete _ path' _ hpath' hremove hmem hlist =>
      obtain rfl := Outcome.next.inj (hpath.symm.trans hpath')
      obtain ⟨hname, hfile⟩ := (h.mem_iff name).mp hmem
      rw [← fs.remove_frame _ _ _ _ hremove (locate_ne hentry hname hne)] at hfile
      have hlisted := (hcorrect.mirrors.mem_iff name).mpr ⟨hname, hfile⟩
      rw [hlist, h.1.mem_erase_iff] at hlisted
      exact hlisted.1 rfl

theorem mirrors_init {disk : Φ}
    (hempty : ∀ l name, fs.entry l = some name → fs.content disk l = none) :
    fs.Mirrors (Server.init disk) := by
  refine ⟨List.nodup_nil, fun name ↦ ⟨fun hmem ↦ ?_, ?_⟩⟩
  · exact absurd hmem (List.not_mem_nil)
  · rintro ⟨l, hentry, hfile⟩
    have hfile' : (fs.content disk l).isSome := hfile
    rw [hempty l name hentry] at hfile'
    cases hfile'

end FileSystem

theorem Step.functional {s t u : Server Φ} (h : Step P s e t) (h' : Step P s e u) : t = u := by
  have heq := h.2.symm.trans h'.2
  exact Outcome.next.inj heq

/-- In a run that starts with an empty directory every step is correct exactly when every step is
confined. -/
theorem mirrors_iff_confined (fs : FileSystem P Loc) {disk : Φ}
    (hempty : ∀ l name, fs.entry l = some name → fs.content disk l = none)
    {events : List Event} (hrun : Run (Step P) (Server.init disk) events s) :
    (∀ pre e post t u, events = pre ++ e :: post → Run (Step P) (Server.init disk) pre t →
        Step P t e u → fs.StepCorrect t e u) ↔
      Run (Guarded (Step P) fs.Confined) (Server.init disk) events s := by
  have hinit : (Server.init disk).Inv := @Server.inv_of_run _ P _ disk [] Run.nil
  refine Run.forall_steps_iff_guarded (I := fun s ↦ fs.Mirrors s ∧ s.Inv)
    (fun _ _ _ _ ↦ Step.functional) ?_ ?_ ⟨FileSystem.mirrors_init hempty, hinit⟩ hrun
  · rintro t e u ⟨hmirrors, hinv⟩ hok hstep
    have hcorrect := hmirrors.step hinv hok hstep
    exact ⟨⟨hcorrect.mirrors, hinv.step hstep⟩, hcorrect⟩
  · rintro t e u ⟨hmirrors, hinv⟩ hok hstep hcorrect
    exact hok (hcorrect.confined hmirrors hinv hstep)

/-! ## A client and its request -/

/-- A client connects and sends its request, and the header is parsed.  The client reads its
answer. -/
def requestEvents (fd : ℕ) (header : Header) (body : List Byte) (ending : Ending) : List Event :=
  [.accept fd (requestLine header ++ body) ending .all, .ready fd calm]

/-- The server when the header of a new client has been parsed. -/
def Server.requested (s : Server Φ) (fd : ℕ) (header : Header) (body : List Byte)
    (ending : Ending) : Server Φ :=
  (s.accept fd (requestLine header ++ body) ending .all).parsed fd
    ⟨requestLine header ++ body, ending, .all, [], true⟩ header body

variable {header : Header} {body : List Byte} {ending : Ending}

theorem Server.requested_socket : (s.requested fd header body ending).sockets fd =
    some ⟨body, ending, .all, [], true⟩ :=
  Function.update_self ..

theorem Server.requested_info : (s.requested fd header body ending).connectionsInfo fd =
    some ⟨1, some header⟩ :=
  Function.update_self ..

theorem Server.executing_requested :
    (s.requested fd header body ending).executing (.ready fd env) = some header := by
  rw [executing, requested_info]
  rfl

/-- A file name without NUL and newline that fits behind the verb into the buffer of the header
and into the field of the server. -/
structure Accepted (P : Platform Φ) (verb : Verb) (name : Filename) : Prop where
  named : verb = .GET ∨ verb = .PUT ∨ verb = .DELETE
  plain : Plain name
  room : verb.offset + name.length + 1 < P.usable
  length : name.length < 255

theorem Accepted.parsingHeader {verb : Verb} (h : Accepted P verb name)
    (hinput : sock.input = requestLine ⟨verb, name⟩ ++ body) :
    s.parsingHeader P fd sock = .next (s.parsed fd sock ⟨verb, name⟩ body, 0) := by
  have hline : sock.input = verb.text ++ space :: name ++ newline :: body := by
    rw [hinput, requestLine_eq h.named, ← List.append_cons]
  rw [Server.parsingHeader_line h.named h.plain h.length.le h.room hline, if_pos h.length]

/-- The header is parsed, and nothing is executed so far. -/
theorem run_requestEvents {verb : Verb} (h : Accepted P verb name)
    (hfree : ∀ sock, s.sockets fd = some sock → sock.isOpen = false) :
    Run (Guarded (Step P) fun s e ↦ s.executing e = none) s
      (requestEvents fd ⟨verb, name⟩ body ending) (s.requested fd ⟨verb, name⟩ body ending) := by
  set input := requestLine ⟨verb, name⟩ ++ body with hinput
  have hcur : (s.accept fd input ending .all).connectionsInfo fd = some ⟨0, none⟩ :=
    Function.update_self ..
  have hsock : (s.accept fd input ending .all).sockets fd =
      some ⟨input, ending, .all, [], true⟩ :=
    Function.update_self ..
  have hne : input ≠ [] := by
    rw [hinput, requestLine_eq h.named]
    simp
  have hnone : (s.accept fd input ending .all).executing (.ready fd calm) = none := by
    simp [Server.executing, hcur]
  refine Run.cons ⟨rfl, hfree, rfl⟩
    (Run.single ⟨hnone, ⟨_, hsock, rfl, fun _ _ _ ↦ Or.inl hne⟩, ?_⟩)
  exact (Server.handle_eq hcur hsock (Or.inl rfl)).mpr (Or.inl ⟨rfl, h.parsingHeader rfl⟩)

/-- A file is stored if it can be opened. -/
theorem exists_step_put (hending : ending ≠ .stalled) (hpath : fullPath env name = .next path)
    (hsave : (P.fopenWrite s.disk path).isSome) :
    ∃ s', Step P (s.requested fd ⟨.PUT, name⟩ body ending) (.ready fd env) s' := by
  have hserved : Served P (s.requested fd ⟨.PUT, name⟩ body ending) env
      ⟨body, ending, .all, [], true⟩ ⟨.PUT, name⟩ := ⟨path, hpath, hsave, hending, trivial⟩
  have hexec : ∃ s', (s.requested fd ⟨.PUT, name⟩ body ending).execute P fd env
      ⟨body, ending, .all, [], true⟩ ⟨1, some ⟨.PUT, name⟩⟩ = .next (s', 0) :=
    (Server.exists_execute_iff Server.requested_socket).mpr ⟨_, rfl, hserved⟩
  obtain ⟨s', hexec⟩ := hexec
  exact ⟨s', ⟨_, Server.requested_socket, rfl, fun _ _ _ ↦ Or.inr hending⟩,
    (Server.handle_eq Server.requested_info Server.requested_socket (Or.inr rfl)).mpr
      (Or.inr ⟨rfl, hexec⟩)⟩

/-! ## Paths below two directories -/

/-- The place to which the components of a path lead from a directory. -/
def resolve : List Filename → List Filename → List Filename
  | dir, [] => dir
  | dir, part :: parts =>
      if part = [] ∨ part = [dot] then resolve dir parts
      else if part = [dot, dot] then resolve dir.dropLast parts
      else resolve (dir ++ [part]) parts

/-- The place of a path, seen from the directory above. -/
def place (path : Path) : List Filename := resolve [] (path.splitOn slash)

theorem place_eq (hname : EntryName name) :
    place (temporary ++ slash :: name) = [temporary, name] := by
  obtain ⟨hne, hslash, hdot, hdots⟩ := hname
  have hparts : (temporary ++ slash :: name).splitOn slash = [temporary, name] := by
    rw [List.splitOn_append_cons_self_of_not_mem (by decide), List.splitOn_eq_singleton hslash]
  have htmp : temporary ≠ [] ∧ temporary ≠ [dot] ∧ temporary ≠ [dot, dot] := by decide
  simp [place, resolve, hparts, hne, hdot, hdots, htmp]

theorem fullPath_calm (name : Filename) : fullPath calm name = .next (temporary ++ slash :: name) :=
  if_pos (by decide)

/-- Files are kept in a table of places.  A directory cannot be opened. -/
def pathPlatform : Platform (List Filename → Option (List Byte)) where
  usable := 24
  usable_pos := smallPlatform.usable_pos
  errBadRequest := smallPlatform.errBadRequest
  errNoSuchFile := smallPlatform.errNoSuchFile
  fopenRead files path := files (place path)
  stat files path := (files (place path)).map List.length
  fopenWrite files path := if place path = [] ∨ place path = [temporary] then none
    else some fun c ↦ Function.update files (place path) (some c)
  remove files path := (files (place path)).map fun _ ↦ Function.update files (place path) none

def entryOf : List Filename → Option Filename
  | [dir, name] => if dir = temporary ∧ EntryName name then some name else none
  | _ => none

theorem entryOf_eq_some {l : List Filename} (h : entryOf l = some name) :
    EntryName name ∧ l = [temporary, name] := by
  unfold entryOf at h
  split at h
  · split at h
    · rename_i hboth
      cases h
      exact ⟨hboth.2, by rw [hboth.1]⟩
    · cases h
  · cases h

def pathFiles : FileSystem pathPlatform (List Filename) where
  directory := temporary
  locate := place
  entry := entryOf
  ordinary l := l ≠ [] ∧ l ≠ [temporary]
  content files := files
  entry_locate name hname := by rw [place_eq hname, entryOf, if_pos ⟨rfl, hname⟩]
  of_entry l name h := by
    obtain ⟨hname, rfl⟩ := entryOf_eq_some h
    exact ⟨hname, place_eq hname, by simp, by simp⟩
  fopenRead_eq _ _ _ _ h := h
  stat_eq _ _ _ _ h := by simp [pathPlatform, h]
  fopenWrite_content files path save c _ h := by
    simp only [pathPlatform, Option.ite_none_left_eq_some, Option.some.injEq] at h
    obtain ⟨-, rfl⟩ := h
    exact Function.update_self ..
  fopenWrite_frame files path save c l h hne := by
    simp only [pathPlatform, Option.ite_none_left_eq_some, Option.some.injEq] at h
    obtain ⟨-, rfl⟩ := h
    exact Function.update_of_ne hne ..
  remove_content files path files' _ _ h := by
    obtain ⟨_, -, rfl⟩ := Option.map_eq_some_iff.mp h
    rw [Function.update_self]
  remove_frame files path files' l h hne := by
    obtain ⟨_, -, rfl⟩ := Option.map_eq_some_iff.mp h
    rw [Function.update_of_ne hne]

/-- The list mirrors the directory when `a` has been stored. -/
theorem mirrors_iff_confined_put : ∃ s, Run (Step pathPlatform) (Server.init fun _ ↦ none)
    (requestEvents 4 ⟨.PUT, ascii ['a']⟩ [] .closed ++ [.ready 4 calm]) s ∧
      pathFiles.Mirrors s := by
  have hname : EntryName (ascii ['a']) := by decide
  have haccepted : Accepted pathPlatform .PUT (ascii ['a']) :=
    ⟨Or.inr (Or.inl rfl), by simp [Plain, ascii, newline], by decide, by decide⟩
  have hrequest := @run_requestEvents _ pathPlatform (Server.init fun _ ↦ none) 4 (ascii ['a']) []
    .closed .PUT haccepted (fun _ h ↦ by cases h)
  obtain ⟨s, hstep⟩ := @exists_step_put _ pathPlatform (Server.init fun _ ↦ none) 4 (ascii ['a'])
    _ calm [] .closed (by simp) (fullPath_calm _) (by simp [pathPlatform, place_eq hname])
  have hconfined : Run (Guarded (Step pathPlatform) pathFiles.Confined) (Server.init fun _ ↦ none)
      (requestEvents 4 ⟨.PUT, ascii ['a']⟩ [] .closed ++ [.ready 4 calm]) s := by
    have hbefore := hrequest.mono fun s e t h ↦
      And.intro (FileSystem.Confined.mk (fun _ _ hput ↦ absurd (h.1.symm.trans hput) (by simp))
        (fun _ _ hdelete ↦ absurd (h.1.symm.trans hdelete) (by simp))
        (fun _ _ hget ↦ absurd (h.1.symm.trans hget) (by simp)) : pathFiles.Confined s e) h.2
    refine hbefore.snoc ⟨⟨?_, ?_, ?_⟩, hstep⟩
    · rintro name path h hpath
      rw [Server.executing_requested] at h
      cases h
      obtain rfl := Outcome.next.inj ((fullPath_calm (ascii ['a'])).symm.trans hpath)
      exact ⟨_, pathFiles.entry_locate _ hname, Or.inl rfl⟩
    · rintro name path h
      rw [Server.executing_requested] at h
      cases h
    · rintro name path h
      rw [Server.executing_requested] at h
      cases h
  refine ⟨s, hconfined.of_guarded, ?_⟩
  exact ((mirrors_iff_confined pathFiles (fun _ _ _ ↦ rfl) hconfined.of_guarded).mpr hconfined
    (requestEvents 4 ⟨.PUT, ascii ['a']⟩ [] .closed) (.ready 4 calm) [] _ s rfl hrequest.of_guarded
    hstep).mirrors

/-- A client stores `../a`, which is no place in the directory. -/
theorem stored_outside : ∃ s t u, Run (Step pathPlatform) (Server.init fun _ ↦ none)
      (requestEvents 4 ⟨.PUT, ascii ['.', '.', '/', 'a']⟩ [] .closed ++ [.ready 4 calm]) s ∧
    Run (Step pathPlatform) (Server.init fun _ ↦ none)
      (requestEvents 4 ⟨.PUT, ascii ['.', '.', '/', 'a']⟩ [] .closed) t ∧
    Step pathPlatform t (.ready 4 calm) u ∧ ¬ pathFiles.StepCorrect t (.ready 4 calm) u := by
  have haccepted : Accepted pathPlatform .PUT (ascii ['.', '.', '/', 'a']) :=
    ⟨Or.inr (Or.inl rfl), by simp [Plain, ascii, newline], by decide, by decide⟩
  have hrequest := (@run_requestEvents _ pathPlatform (Server.init fun _ ↦ none) 4
    (ascii ['.', '.', '/', 'a']) [] .closed .PUT haccepted (fun _ h ↦ by cases h)).of_guarded
  obtain ⟨s, hstep⟩ := @exists_step_put _ pathPlatform (Server.init fun _ ↦ none) 4
    (ascii ['.', '.', '/', 'a']) _ calm [] .closed (by simp) (fullPath_calm _) (by decide)
  refine ⟨s, _, s, hrequest.snoc hstep, hrequest, hstep, fun hcorrect ↦ ?_⟩
  have hwrites := hcorrect.writes _ _ Server.executing_requested (Or.inl rfl) (fullPath_calm _)
  exact absurd hwrites (by decide)

end SystemProgramming.NonstopNetworking
