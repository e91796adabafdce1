import Botniklas.DataFiles

/-! Any number of uses of the two files, over a whole run of the bot and of the next. -/
namespace Botniklas
open Foundation Mem

/-- What the bot does with its files, each with the answers of the system. -/
inductive FileOp where
  | save (k : AppendAnswers) (when : Int) (target message : Bytes)
  | log (k : AppendAnswers) (now : Int) (text : Bytes)
  | restore (k : ReadAnswers)

namespace FileOp

/-- The buffer that a reader gets is freed when the reminders have been restored. -/
def run (account : Account) (zone : Int) (s : Storage) : FileOp → Storage
  | save k when target message => s.saveReminder account k when target message
  | log k now text => s.logAppend account k zone now text
  | restore k =>
    match readFile account k remindersFile 0 s with
    | (.returned (some _) _ _, s) => s.free
    | (_, s) => s

/-- The descriptors given out are not in use, and `read` does not say that a file has ended
before it has, nor keep the bot waiting. -/
def Obeys (account : Account) (s : Storage) : FileOp → Prop
  | save k _ _ _ => ∀ fd, k.opened = some fd ∨ k.reopened = some fd → ∀ e ∈ s.fds, e.1 ≠ fd
  | log k _ _ => ∀ fd, k.opened = some fd ∨ k.reopened = some fd → ∀ e ∈ s.fds, e.1 ≠ fd
  | restore k => (∀ fd, k.opened = some fd → ∀ e ∈ s.fds, e.1 ≠ fd) ∧
      (∀ n, .moved n ∈ k.reads → 0 < n) ∧ (readFile account k remindersFile 0 s).1 ≠ .waiting

/-- What is to be appended to which file. -/
def appends (zone : Int) : FileOp → Option (AppendAnswers × Bytes × Bytes)
  | save k when target message => some (k, remindersFile, record when target message)
  | log k now text => (logEntry zone now text).map fun entry => (k, chatLogName, entry)
  | restore _ => none

def dataFor (zone : Int) (name : Bytes) (op : FileOp) : Option Bytes :=
  (op.appends zone).bind fun (_, name', data) => if name' = name then some data else none

def logged : FileOp → Option (Int × Bytes)
  | log _ now text => some (now, text)
  | _ => none

/-- `fdopen` fails. -/
def noStream : FileOp → Bool
  | save k _ _ _ => !k.stream
  | log k _ _ => !k.stream
  | restore _ => false

/-- Nothing goes wrong. -/
def Untroubled (zone : Int) (op : FileOp) : Prop :=
  ∀ k name data, op.appends zone = some (k, name, data) →
    k.Granted ∧ k.stream = true ∧ data.length ≤ k.kept

end FileOp

/-- The state after some operations. -/
inductive FileRun (account : Account) (zone : Int) (s₀ : Storage) : List FileOp → Storage → Prop where
  | init : FileRun account zone s₀ [] s₀
  | op {ops : List FileOp} {s : Storage} (op : FileOp) : FileRun account zone s₀ ops s →
      op.Obeys account s → FileRun account zone s₀ (ops ++ [op]) (op.run account zone s)

/-- A file after some appends, each with what became of it. -/
def appendAll (file : Option Bytes) (entries : List (Append × Bytes)) : Option Bytes :=
  entries.foldl (fun file e => e.1.file file e.2) file

theorem appendAll_snoc (file : Option Bytes) (entries : List (Append × Bytes)) (outcome : Append)
    (data : Bytes) : appendAll file (entries ++ [(outcome, data)]) =
      outcome.file (appendAll file entries) data := by
  unfold appendAll
  rw [List.foldl_append]
  rfl

section Run
variable {account : Account} {home : Bytes} {zone : Int} {s₀ s : Storage} {ops : List FileOp}

/-- An operation is an append to one of the two files, or changes nothing. -/
theorem FileOp.run_appends {op : FileOp} (hhome : account.getHomeDir = some home)
    (hnul : nul ∉ home) (hobeys : op.Obeys account s) :
    (op.appends zone = none ∧ op.run account zone s = s) ∨
      ∃ k name data, op.appends zone = some (k, name, data) ∧ name ∈ [remindersFile, chatLogName] ∧
        Appended home name data k s (op.run account zone s) := by
  cases op with
  | save k when target message =>
    exact .inr ⟨k, _, _, rfl, List.mem_cons_self,
      appendTo_appends hhome hnul (by decide) (by decide) hobeys⟩
  | log k now text =>
    cases hentry : logEntry zone now text with
    | none =>
      refine .inl ⟨congrArg (Option.map _) hentry, ?_⟩
      change s.logAppend account k zone now text = s
      unfold Storage.logAppend
      rw [hentry]
    | some entry =>
      refine .inr ⟨k, chatLogName, entry, congrArg (Option.map _) hentry,
        List.mem_cons_of_mem _ List.mem_cons_self, ?_⟩
      have hrun : (log k now text).run account zone s = appendTo account k chatLogName entry s := by
        change s.logAppend account k zone now text = _
        unfold Storage.logAppend
        rw [hentry]
      rw [hrun]
      exact appendTo_appends hhome hnul (by decide) (by decide) hobeys
  | restore k =>
    obtain ⟨hfresh, hpos, hwaiting⟩ := hobeys
    refine .inl ⟨rfl, ?_⟩
    cases hread : readFile account k remindersFile 0 s with
    | mk r s' =>
      have hreads := readFile_reads hhome hnul (by decide) hfresh hpos hread
      unfold run
      dsimp only
      rw [hread] at hwaiting ⊢
      cases r with
      | waiting => exact absurd rfl hwaiting
      | returned buf len warnings =>
        cases buf with
        | none => exact hreads.1
        | some buf =>
          obtain ⟨rfl, -⟩ := hreads
          rfl

theorem FileOp.noStream_of_appends {op : FileOp} {k : AppendAnswers} {name data : Bytes}
    (h : op.appends zone = some (k, name, data)) : op.noStream = !k.stream := by
  cases op with
  | save k when target message =>
    cases h
    rfl
  | log k now text =>
    obtain ⟨entry, -, he⟩ := Option.map_eq_some_iff.mp h
    cases he
    rfl
  | restore k => cases h

theorem FileOp.dataFor_of_appends {op : FileOp} {k : AppendAnswers} {name name' data : Bytes}
    (h : op.appends zone = some (k, name, data)) :
    op.dataFor zone name' = if name = name' then some data else none := by
  unfold dataFor
  rw [h]
  rfl

/-- What is in the way of no file before an append is in the way of none after it. -/
theorem Appended.ready {name name' data : Bytes} {k : AppendAnswers} {s' : Storage}
    (h : Appended home name data k s s') (hready : Ready home name' s.tree)
    (hfile : name' = name → s'.tree.contents (filePath home name) ≠ none) :
    Ready home name' s'.tree := by
  have hhome : home ≠ dataDirPath home := by
    intro he
    have hlen := congrArg List.length he
    simp [dataDirPath] at hlen
  have hhome' : home ≠ filePath home name := by
    intro he
    have hlen := congrArg List.length he
    simp [filePath, dataDirPath] at hlen
  refine ⟨(h.leaves.frame _ hhome hhome').trans hready.homeDir, ?_, ?_⟩
  · rcases h.leaves.dir with he | ⟨-, he⟩
    · rw [he]
      exact hready.dir
    · rw [he]
      rintro _ ⟨rfl⟩
      rfl
  · by_cases hname : name' = name
    · subst hname
      intro node hnode
      have hsome := hfile rfl
      unfold FileTree.contents at hsome
      rw [show s'.tree.node (filePath home name') = some node from hnode] at hsome
      cases node with
      | directory => exact absurd rfl hsome
      | regular contents => exact ⟨contents, rfl⟩
      | other => exact absurd rfl hsome
    · rw [h.leaves.frame _ filePath_ne_dataDirPath fun he => hname (filePath_inj.mp he)]
      exact hready.file

/-- The state of the files after `ops`: each has got its entries, and nothing else has changed. -/
structure Filed (home : Bytes) (zone : Int) (s₀ : Storage) (ops : List FileOp) (s : Storage) :
    Prop where
  frame : ∀ p, p ≠ dataDirPath home → (∀ name ∈ [remindersFile, chatLogName],
    p ≠ filePath home name) → s.tree.node p = s₀.tree.node p
  dir : DirKept home s₀.tree s.tree
  live : s.live = s₀.live
  fds : ∃ leaked, s.fds = leaked ++ s₀.fds ∧ leaked.length ≤ ops.countP FileOp.noStream
  file : ∀ name ∈ [remindersFile, chatLogName], ∃ entries,
    entries.map Prod.snd = ops.filterMap (FileOp.dataFor zone name) ∧
    s.tree.contents (filePath home name) =
      appendAll (s₀.tree.contents (filePath home name)) entries ∧
    ((∀ op ∈ ops, op.Untroubled zone) →
      (∀ name ∈ [remindersFile, chatLogName], Ready home name s₀.tree) →
      (∀ e ∈ entries, e.1 = .whole) ∧ Ready home name s.tree)

theorem FileRun.filed (hhome : account.getHomeDir = some home) (hnul : nul ∉ home)
    (h : FileRun account zone s₀ ops s) : Filed home zone s₀ ops s := by
  induction h with
  | init =>
    refine ⟨fun _ _ _ => rfl, .inl rfl, rfl, ⟨[], rfl, Nat.zero_le _⟩, fun name hname => ?_⟩
    exact ⟨[], rfl, rfl, fun _ hready => ⟨List.forall_mem_nil _, hready name hname⟩⟩
  | @op ops s op hrun hobeys ih =>
    rcases op.run_appends hhome hnul hobeys with ⟨hnone, hsame⟩ | ⟨k, name, data, hsome, hname, happended⟩
    · have hdata : ∀ name, (ops ++ [op]).filterMap (FileOp.dataFor zone name) =
          ops.filterMap (FileOp.dataFor zone name) := by
        intro name
        have hop : op.dataFor zone name = none := by
          unfold FileOp.dataFor
          rw [hnone]
          rfl
        rw [List.filterMap_append, List.filterMap_cons_none hop, List.filterMap_nil,
          List.append_nil]
      obtain ⟨leaked, hleaked, hfew⟩ := ih.fds
      rw [hsame]
      refine ⟨ih.frame, ih.dir, ih.live, ⟨leaked, hleaked, ?_⟩, fun name hname => ?_⟩
      · rw [List.countP_append]
        exact hfew.trans (Nat.le_add_right _ _)
      · obtain ⟨entries, hentries, hcontents, hwhole⟩ := ih.file name hname
        exact ⟨entries, hentries.trans (hdata name).symm, hcontents, fun huntroubled =>
          hwhole fun op hop => huntroubled op (List.mem_append_left _ hop)⟩
    · obtain ⟨hleaves, hfds, outcome, hcontents, hwhole⟩ := id happended
      refine ⟨fun p hp hp' => ?_, ?_, hleaves.live.trans ih.live, ?_, fun name' hname' => ?_⟩
      · exact (hleaves.frame p hp (hp' name hname)).trans (ih.frame p hp hp')
      · exact ih.dir.trans hleaves.dir
      · obtain ⟨leaked, hleaked, hfew⟩ := ih.fds
        rw [List.countP_append, List.countP_singleton, FileOp.noStream_of_appends hsome]
        rcases hfds with hfds | ⟨hstream, fd, hfds⟩
        · exact ⟨leaked, hfds.trans hleaked, hfew.trans (Nat.le_add_right _ _)⟩
        · refine ⟨(fd, filePath home name) :: leaked, by rw [hfds, hleaked]; rfl, ?_⟩
          rw [hstream, List.length_cons]
          exact Nat.succ_le_succ hfew
      · obtain ⟨entries, hentries, hold, hall⟩ := ih.file name' hname'
        have hdata := @FileOp.dataFor_of_appends _ _ _ _ name' _ hsome
        by_cases hsame : name = name'
        · subst hsame
          rw [if_pos rfl] at hdata
          refine ⟨entries ++ [(outcome, data)], ?_, ?_, fun huntroubled hready => ?_⟩
          · rw [List.map_append, List.filterMap_append, hentries, List.filterMap_cons_some hdata]
            rfl
          · rw [hcontents, hold]
            exact (appendAll_snoc _ _ _ _).symm
          · obtain ⟨hentries, hready⟩ := hall
              (fun op hop => huntroubled op (List.mem_append_left _ hop)) hready
            obtain ⟨hgranted, hstream, hkept⟩ :=
              huntroubled op (List.mem_append_right _ List.mem_cons_self) k name data hsome
            have houtcome := hwhole hgranted hready hstream hkept
            refine ⟨List.forall_mem_append.mpr ⟨hentries, List.forall_mem_singleton.mpr houtcome⟩,
              happended.ready hready fun _ => ?_⟩
            rw [hcontents, houtcome]
            exact Option.some_ne_none _
        · rw [if_neg hsame] at hdata
          refine ⟨entries, ?_, ?_, fun huntroubled hready => ?_⟩
          · rw [List.filterMap_append, List.filterMap_cons_none hdata, List.filterMap_nil,
              List.append_nil, hentries]
          · rw [← hold]
            exact FileTree.contents_congr (hleaves.frame _ filePath_ne_dataDirPath
              fun he => hsame (filePath_inj.mp he).symm)
          · obtain ⟨hentries, hready⟩ := hall
              (fun op hop => huntroubled op (List.mem_append_left _ hop)) hready
            exact ⟨hentries, happended.ready hready fun he => absurd he.symm hsame⟩

/-- The entries of the chat log as `log_append` writes them. -/
theorem exists_log {entries : List (Append × Bytes)}
    (h : entries.map Prod.snd = ops.filterMap (FileOp.dataFor zone chatLogName)) :
    ∃ log : List (Append × Int × Bytes), log.map Prod.snd = ops.filterMap FileOp.logged ∧
      ∀ file, chatLogFile zone file log = appendAll file entries := by
  induction ops generalizing entries with
  | nil =>
    obtain rfl := List.map_eq_nil_iff.mp h
    exact ⟨[], rfl, fun _ => rfl⟩
  | cons op ops ih =>
    cases op with
    | save k when target message =>
      have hnone : (FileOp.save k when target message).dataFor zone chatLogName = none :=
        (FileOp.dataFor_of_appends rfl).trans (if_neg (by decide))
      rw [List.filterMap_cons_none hnone] at h
      exact ih h
    | log k now text =>
      cases hentry : logEntry zone now text with
      | none =>
        have happends : (FileOp.log k now text).appends zone = none :=
          congrArg (Option.map _) hentry
        have hnone : (FileOp.log k now text).dataFor zone chatLogName = none := by
          unfold FileOp.dataFor
          rw [happends]
          rfl
        rw [List.filterMap_cons_none hnone] at h
        obtain ⟨log, hlog, hfile⟩ := ih h
        refine ⟨(.unopened, now, text) :: log, congrArg _ hlog, fun file => ?_⟩
        change chatLogFile zone (logAppendFile zone file .unopened now text) log = _
        unfold logAppendFile
        rw [hentry]
        exact hfile file
      | some entry =>
        have happends : (FileOp.log k now text).appends zone = some (k, chatLogName, entry) :=
          congrArg (Option.map _) hentry
        have hsome : (FileOp.log k now text).dataFor zone chatLogName = some entry :=
          (FileOp.dataFor_of_appends happends).trans (if_pos rfl)
        rw [List.filterMap_cons_some hsome] at h
        obtain ⟨⟨outcome, _⟩, entries, rfl, rfl, hrest⟩ := List.map_eq_cons_iff.mp h
        obtain ⟨log, hlog, hfile⟩ := ih hrest
        refine ⟨(outcome, now, text) :: log, congrArg _ hlog, fun file => ?_⟩
        change chatLogFile zone (logAppendFile zone file outcome now text) log = _
        unfold logAppendFile
        rw [hentry]
        exact hfile _
    | restore k => exact ih h

/-- However often and in whatever order the bot saves reminders, logs and restores, and
whatever the system answers: the two files get prefixes of their entries and nothing else on
the disk is touched, the data directory is made where there is none, no buffer is kept and no
descriptor but those of streams that could not be made; what is read is the whole file; and
if nothing goes wrong every entry comes to its file. -/
theorem data_files_refine (hhome : account.getHomeDir = some home) (hnul : nul ∉ home)
    (h : FileRun account zone s₀ ops s) :
    Filed home zone s₀ ops s ∧
    (∃ log : List (Append × Int × Bytes), log.map Prod.snd = ops.filterMap FileOp.logged ∧
      s.tree.contents (filePath home chatLogName) =
        chatLogFile zone (s₀.tree.contents (filePath home chatLogName)) log) ∧
    ∀ (k : ReadAnswers) (len : Nat), (∀ fd, k.opened = some fd → ∀ e ∈ s.fds, e.1 ≠ fd) →
      (∀ n, .moved n ∈ k.reads → 0 < n) →
      ReadsBack (filePath home remindersFile) len s (readFile account k remindersFile len s).2
        (readFile account k remindersFile len s).1 := by
  have hfiled := h.filed hhome hnul
  refine ⟨hfiled, ?_, fun k len hfresh hpos => ?_⟩
  · obtain ⟨entries, hentries, hcontents, -⟩ := hfiled.file chatLogName (by simp)
    obtain ⟨log, hlog, hfile⟩ := exists_log hentries
    exact ⟨log, hlog, hcontents.trans (hfile _).symm⟩
  · exact readFile_reads hhome hnul (by decide) hfresh hpos rfl

/-- A disk with a home directory and nothing in it. -/
def freshDisk : FileTree where
  node path := if path = [] ∨ path = ascii "/h" then some .directory else none
  rooted := by
    intro path hne hnode
    split_ifs at hnode with h
    · obtain rfl := h.resolve_left hne
      decide
    · exact absurd rfl hnode

/-- The first reminder makes the data directory and its file. -/
theorem first_save_is_kept : ∃ s, FileRun ⟨some (ascii "/h"), none⟩ 0 ⟨freshDisk, [], 0⟩
    [.save ⟨⟨fun _ => 0, some 3, true, some 3⟩, true, 512⟩ 5 (ascii "#c") (ascii "tea")] s ∧
    s.tree.contents (ascii "/h/.botniklas/reminders") = some (ascii "5 #c tea\n") := by
  have hrun := (@FileRun.init ⟨some (ascii "/h"), none⟩ 0 ⟨freshDisk, [], 0⟩).op
    (.save ⟨⟨fun _ => 0, some 3, true, some 3⟩, true, 512⟩ 5 (ascii "#c") (ascii "tea"))
    (fun _ _ => nofun)
  refine ⟨_, hrun, ?_⟩
  have hnul : nul ∉ ascii "/h" := by decide
  have hready : ∀ name ∈ [remindersFile, chatLogName], Ready (ascii "/h") name freshDisk := by
    refine List.forall_mem_cons.mpr ⟨?_, List.forall_mem_singleton.mpr ?_⟩
    · exact ⟨rfl, nofun, nofun⟩
    · exact ⟨rfl, nofun, nofun⟩
  obtain ⟨entries, hentries, hcontents, hwhole⟩ :=
    (data_files_refine rfl hnul hrun).1.file remindersFile List.mem_cons_self
  obtain ⟨hall, -⟩ := hwhole (List.forall_mem_singleton.mpr fun k name data happends => by
    cases happends
    exact ⟨⟨⟨3, rfl⟩, rfl, 3, rfl⟩, rfl, by decide⟩) hready
  obtain ⟨⟨outcome, data⟩, rfl, hdata⟩ := List.map_eq_singleton_iff.mp hentries
  obtain rfl := List.forall_mem_singleton.mp hall
  dsimp only at hdata
  rw [hdata] at hcontents
  exact hcontents

end Run
end Botniklas
