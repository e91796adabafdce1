import Botniklas.ChatLogFile
import Botniklas.OpenFile

/-! The two files in the data directory: how they are appended to and read. -/
namespace Botniklas
open Foundation Mem

/-- Of a stream `fdopen` may fail to make, and of what is written to it the file may not get
everything. -/
structure AppendAnswers extends OpenAnswers where
  stream : Bool
  kept : Nat

/-- The descriptor of the stream, none for NULL. -/
def openFileStdio (account : Account) (k : AppendAnswers) (filename : Bytes) (mode : OpenMode)
    (s : Storage) : Option Nat × Storage :=
  match openFile account k.toOpenAnswers filename mode s with
  | (none, s) => (none, s)
  | (some fd, s) => if k.stream then (some fd, s) else (none, s)

/-- A file opened, written to and closed, as `save_reminder` and `log_append` do it. -/
def appendTo (account : Account) (k : AppendAnswers) (filename data : Bytes) (s : Storage) :
    Storage :=
  match openFileStdio account k filename .append s with
  | (none, s) => s
  | (some fd, s) => (s.sysWrite fd (data.take k.kept)).sysClose fd

def remindersFile : Bytes := ascii "reminders"
def chatLogName : Bytes := ascii "chat_log"

namespace Storage

def saveReminder (account : Account) (k : AppendAnswers) (when : Int) (target message : Bytes)
    (s : Storage) : Storage :=
  appendTo account k remindersFile (record when target message) s

def logAppend (account : Account) (k : AppendAnswers) (zone now : Int) (text : Bytes)
    (s : Storage) : Storage :=
  match logEntry zone now text with
  | none => s
  | some entry => appendTo account k chatLogName entry s

end Storage

/-- How many bytes each `read` brings at most, and the other answers. -/
structure ReadAnswers extends OpenAnswers where
  buf : Nat → UInt8
  stat : Bool
  reads : List (CallResult Nat)
  closed : Bool

/-- The bytes the calls of `read` bring from a file. -/
def fileReads (contents : Bytes) : Nat → List (CallResult Nat) → List (CallResult Bytes)
  | _, [] => []
  | total, .eintr :: reads => .eintr :: fileReads contents total reads
  | total, .failed :: reads => .failed :: fileReads contents total reads
  | total, .moved n :: reads =>
    let part := (contents.drop total).take n
    .moved part :: fileReads contents (total + part.length) reads

/-- `get_file_contents` on the file tree. The buffer returned is the caller's to free. -/
def readFile (account : Account) (k : ReadAnswers) (filename : Bytes) (len : Nat) (s : Storage) :
    FileRead × Storage :=
  match openFile account k.toOpenAnswers filename .read s with
  | (none, s) => (.returned none len [], s)
  | (some fd, s) =>
    let contents := ((s.fds.lookup fd).bind s.tree.contents).getD []
    let answers : FileAnswers := {
      opened := true
      fstat := if k.stat then s.sysFstat fd else none
      reads := fileReads contents 0 k.reads
      closed := k.closed }
    match getFileContents k.buf answers len with
    | .waiting => (.waiting, s.malloc)
    | .returned none len' warnings => (.returned none len' warnings, s.sysClose fd)
    | .returned (some buf) len' warnings =>
      (.returned (some buf) len' warnings, s.malloc.sysClose fd)

section Close
variable {s : Storage} {fd : Nat} {path : Bytes}

/-- A descriptor not in use is closed again. -/
theorem sysClose_opened (hfresh : ∀ e ∈ s.fds, e.1 ≠ fd) :
    ({ s with fds := (fd, path) :: s.fds } : Storage).sysClose fd = s := by
  unfold Storage.sysClose
  have hfds : ((fd, path) :: s.fds).filter (·.1 ≠ fd) = s.fds := by
    rw [List.filter_cons_of_neg (by simp)]
    exact List.filter_eq_self.mpr fun e he => decide_eq_true (hfresh e he)
  dsimp only
  rw [hfds]

end Close

/-! What is read. -/

section Read
variable {contents : Bytes} {total : Nat} {reads : List (CallResult Nat)}
  {calls : List (CallResult Bytes)}

theorem fileReads_obeys {size : Nat} {L : Layout} (hsize : contents.length = size) :
    (readCalls 0 : Calls Bytes (Mem L)).Obeys size (fileReads contents total reads) total := by
  induction reads generalizing total with
  | nil => trivial
  | cons answer reads ih =>
    cases answer with
    | eintr => exact ih
    | failed => trivial
    | moved n =>
      refine ⟨?_, nofun, fun _ _ => ih⟩
      change ((contents.drop total).take n).length ≤ _
      rw [List.length_take, List.length_drop, hsize]
      exact Nat.min_le_right _ _

/-- What some of the calls bring stands one after the other in the file, and a call that
brings nothing is made at its end. -/
theorem moved_fileReads (hpos : ∀ n, .moved n ∈ reads → 0 < n)
    (h : calls <+: fileReads contents total reads) :
    (moved calls).flatten <+: contents.drop total ∧
      (calls.getLast? = some (.moved []) → (moved calls).flatten = contents.drop total) := by
  induction reads generalizing calls total with
  | nil =>
    rw [List.prefix_nil.mp h]
    exact ⟨List.nil_prefix, nofun⟩
  | cons answer reads ih =>
    have hpos' : ∀ n, .moved n ∈ reads → 0 < n := fun n hn => hpos n (List.mem_cons_of_mem _ hn)
    cases calls with
    | nil => exact ⟨List.nil_prefix, nofun⟩
    | cons call calls =>
      cases answer with
      | eintr =>
        obtain ⟨rfl, hcalls⟩ := List.cons_prefix_cons.mp h
        obtain ⟨hstarts, hlast⟩ := ih hpos' hcalls
        refine ⟨hstarts, fun he => hlast ?_⟩
        cases calls with
        | nil => cases he
        | cons call calls => exact he
      | failed =>
        obtain ⟨rfl, hcalls⟩ := List.cons_prefix_cons.mp h
        obtain ⟨hstarts, hlast⟩ := ih hpos' hcalls
        refine ⟨hstarts, fun he => hlast ?_⟩
        cases calls with
        | nil => cases he
        | cons call calls => exact he
      | moved n =>
        obtain ⟨rfl, hcalls⟩ := List.cons_prefix_cons.mp h
        obtain ⟨hstarts, hlast⟩ := ih hpos' hcalls
        have hflatten : (moved (.moved ((contents.drop total).take n) :: calls)).flatten =
            (contents.drop total).take n ++ (moved calls).flatten := rfl
        have hnext : contents.drop (total + ((contents.drop total).take n).length) =
            (contents.drop total).drop ((contents.drop total).take n).length :=
          List.drop_drop.symm
        rw [hflatten]
        rw [hnext] at hstarts hlast
        generalize contents.drop total = left at hstarts hlast h ⊢
        have hleft : left = left.take n ++ left.drop (left.take n).length := by
          rcases Nat.le_total n left.length with hn | hn
          · rw [List.length_take_of_le hn, List.take_append_drop]
          · rw [List.take_of_length_le hn, List.drop_length, List.append_nil]
        constructor
        · conv_rhs => rw [hleft]
          exact (List.prefix_append_right_inj _).mpr hstarts
        · intro he
          cases calls with
          | nil =>
            have hempty : left.take n = [] := CallResult.moved.inj (Option.some.inj he)
            have hpos := hpos n List.mem_cons_self
            rcases List.take_eq_nil_iff.mp hempty with h0 | rfl
            · omega
            · rw [hempty]
              rfl
          | cons call calls =>
            rw [hlast he]
            exact hleft.symm

variable {account : Account} {home filename : Bytes} {s s' : Storage} {k : ReadAnswers} {len : Nat}

/-- A buffer is returned of regular files only. -/
theorem getFileContents_some {heap : Nat → UInt8} {answers : FileAnswers}
    {buf : (size : Nat) × Mem (.flat size)} {len' : Nat} {warnings : List String}
    (h : getFileContents heap answers len = .returned (some buf) len' warnings) :
    answers.opened = true ∧ ∃ size, answers.fstat = some (.regular, size) := by
  unfold getFileContents errClose at h
  by_cases hopened : answers.opened = true
  · rw [if_pos hopened] at h
    refine ⟨hopened, ?_⟩
    split at h
    · cases h
    · cases h
    · cases h
    · exact ⟨_, ‹_›⟩
  · rw [if_neg hopened] at h
    cases h

theorem sysFstat_regular {fd size : Nat} {path : Bytes} (hlookup : s.fds.lookup fd = some path)
    (h : s.sysFstat fd = some (.regular, size)) :
    ∃ contents, s.tree.contents path = some contents ∧ contents.length = size := by
  unfold Storage.sysFstat at h
  rw [hlookup] at h
  obtain ⟨_, hpath, h⟩ := Option.bind_eq_some_iff.mp h
  obtain rfl := Option.some.inj hpath
  obtain ⟨node, hnode, h⟩ := Option.bind_eq_some_iff.mp h
  cases node with
  | directory => cases h
  | regular contents =>
    cases h
    refine ⟨contents, ?_, rfl⟩
    unfold FileTree.contents
    rw [show s.tree.node path = some (.regular contents) from hnode]
  | other => cases h

/-- A buffer returned holds the file. -/
theorem read_whole {heap : Nat → UInt8} {answers : FileAnswers} {size size' len' : Nat}
    {m : Mem (.flat size')} {warnings : List String} (hpos : ∀ n, .moved n ∈ reads → 0 < n)
    (hread : getFileContents heap answers len = .returned (some ⟨size', m⟩) len' warnings)
    (hopened : answers.opened = true) (hfstat : answers.fstat = some (.regular, size))
    (hsize : contents.length = size) (hreads : answers.reads = fileReads contents 0 reads) :
    len' = contents.length ∧ ∀ i < len', m.load i = (fileBuf contents).load i := by
  obtain ⟨calls, rest, hcalls, hcases⟩ := @getFileContents_cases answers len heap size hopened
    hfstat (hreads ▸ fileReads_obeys hsize)
  rw [hread] at hcases
  obtain ⟨-, hdelivered, -, hfinished⟩ := hcases
  obtain ⟨hstarts, hlast⟩ := moved_fileReads hpos ⟨rest, (hcalls.symm.trans hreads)⟩
  rw [List.drop_zero] at hstarts hlast
  have hbytes : (moved calls).flatten = contents := by
    rcases hfinished with hall | hend
    · exact hstarts.eq_of_length (hdelivered.counted.symm.trans (hall.trans hsize.symm))
    · exact hlast hend
  have hlen : len' = contents.length := hbytes ▸ hdelivered.counted
  refine ⟨hlen, fun i hi => ?_⟩
  have hholds := hdelivered.stored.1
  rw [hbytes, holds_iff] at hholds
  have hload := hholds i (hlen ▸ hi)
  rw [Nat.zero_add] at hload
  rw [hload]
  change _ = contents.getD i 0
  rw [List.getD, List.getElem?_eq_getElem (hlen ▸ hi), Option.getD_some]

/-- What is returned is NULL or exactly the file, and nothing else has changed. -/
def ReadsBack (path : Bytes) (len : Nat) (s s' : Storage) : FileRead → Prop
  | .waiting => s'.tree = s.tree
  | .returned none len' _ => s' = s ∧ len' = len
  | .returned (some ⟨_, m⟩) len' _ => s' = s.malloc ∧ ∃ contents, s.tree.contents path = some contents ∧
      len' = contents.length ∧ ∀ i < len', m.load i = (fileBuf contents).load i

theorem readFile_reads (hhome : account.getHomeDir = some home) (hnul : nul ∉ home)
    (hname : nul ∉ filename) (hfresh : ∀ fd, k.opened = some fd → ∀ e ∈ s.fds, e.1 ≠ fd)
    (hpos : ∀ n, .moved n ∈ k.reads → 0 < n) {r : FileRead}
    (h : readFile account k filename len s = (r, s')) :
    ReadsBack (filePath home filename) len s s' r := by
  unfold readFile at h
  split at h
  · rename_i hopen
    cases h
    rcases openFile_read hhome hnul hname hopen with ⟨-, rfl⟩ | ⟨fd, hfound, -⟩
    · exact ⟨rfl, rfl⟩
    · cases hfound
  · rename_i fd _ hopen
    rcases openFile_read hhome hnul hname hopen with ⟨hfound, -⟩ | ⟨fd, hfound, hopened, rfl⟩
    · cases hfound
    obtain rfl := Option.some.inj hfound
    have hclosed := @sysClose_opened s fd (filePath home filename) (hfresh fd hopened)
    have hlookup : ((fd, filePath home filename) :: s.fds).lookup fd = some (filePath home filename) :=
      List.lookup_cons_self
    dsimp only at h
    rw [hlookup, Option.bind_some] at h
    split at h
    · cases h
      rfl
    · rename_i hread
      cases h
      exact ⟨hclosed, getFileContents_null hread⟩
    · rename_i buf len' warnings hread
      cases h
      refine ⟨congrArg Storage.malloc hclosed, ?_⟩
      obtain ⟨-, size, hfstat⟩ := getFileContents_some hread
      dsimp only at hfstat
      split_ifs at hfstat
      obtain ⟨contents, hcontents, hsize⟩ := sysFstat_regular hlookup hfstat
      dsimp only at hcontents
      refine ⟨contents, hcontents, ?_⟩
      rw [hcontents, Option.getD_some] at hread
      obtain ⟨size', m⟩ := buf
      exact read_whole hpos hread rfl (if_pos ‹_› |>.trans hfstat) hsize rfl

end Read

/-! What is appended. -/

section Append
variable {account : Account} {home filename data : Bytes} {s s' : Storage} {k : AppendAnswers}

/-- From `s` to `s'` some of `data` has come to the file, all of it if nothing went wrong. -/
structure Appended (home filename data : Bytes) (k : AppendAnswers) (s s' : Storage) : Prop where
  leaves : OpenLeaves home filename s s'
  -- The descriptor of a stream that could not be made stays open.
  fds : s'.fds = s.fds ∨ k.stream = false ∧ ∃ fd, s'.fds = (fd, filePath home filename) :: s.fds
  contents : ∃ outcome : Append, s'.tree.contents (filePath home filename) =
      outcome.file (s.tree.contents (filePath home filename)) data ∧
    (k.Granted → Ready home filename s.tree → k.stream = true → data.length ≤ k.kept →
      outcome = .whole)

/-- An opened file has contents, unless it is none that could have. -/
theorem contents_opened {t t' : FileTree} {path : Bytes} (hbefore : t.node path ≠ some .directory)
    (hafter : t'.node path = some ((t.node path).getD (.regular []))) :
    t.node path = some .other ∧ t.contents path = none ∧ t'.contents path = none ∨
      t'.contents path = some ((t.contents path).getD []) := by
  unfold FileTree.contents
  rw [hafter]
  cases hnode : t.node path with
  | none => exact .inr rfl
  | some node =>
    cases node with
    | directory => exact absurd hnode hbefore
    | regular contents => exact .inr rfl
    | other => exact .inl ⟨rfl, rfl, rfl⟩

theorem writeClose {fd : Nat} {path : Bytes} (hfds : s'.fds = (fd, path) :: s.fds)
    (hfresh : ∀ e ∈ s.fds, e.1 ≠ fd) : (s'.sysWrite fd data).sysClose fd =
      { tree := s'.tree.append path data, fds := s.fds, live := s'.live } := by
  have hlookup : s'.fds.lookup fd = some path := by
    rw [hfds]
    exact List.lookup_cons_self
  unfold Storage.sysWrite
  rw [hlookup]
  dsimp only
  rw [hfds]
  exact @sysClose_opened { tree := s'.tree.append path data, fds := s.fds, live := s'.live } fd path hfresh

theorem appendTo_appends (hhome : account.getHomeDir = some home) (hnul : nul ∉ home)
    (hname : nul ∉ filename) (hslash : slash ∉ filename)
    (hfresh : ∀ fd, k.opened = some fd ∨ k.reopened = some fd → ∀ e ∈ s.fds, e.1 ≠ fd) :
    Appended home filename data k s (appendTo account k filename data s) := by
  cases hopen : openFile account k.toOpenAnswers filename .append s with
  | mk found s' =>
    obtain ⟨hleaves, hfound⟩ := openFile_append hhome hnul hname hopen
    unfold appendTo openFileStdio
    rw [hopen]
    cases found with
    | none =>
      obtain ⟨hfds, hnode⟩ := hfound
      refine ⟨hleaves, .inl hfds, .unopened, FileTree.contents_congr hnode, ?_⟩
      intro hk hready _ _
      obtain ⟨fd, s'', hgranted⟩ := openFile_granted hhome hnul hname hslash hk hready
      cases hopen.symm.trans hgranted
    | some fd =>
      obtain ⟨hanswer, hfds, hbefore, hafter⟩ := hfound
      have hcontents := contents_opened hbefore hafter
      dsimp only
      by_cases hstream : k.stream = true
      · rw [if_pos hstream]
        dsimp only
        rw [writeClose hfds (hfresh fd hanswer)]
        refine ⟨⟨hleaves.live, ?_, fun p hp hp' => ?_⟩, .inl rfl, ?_⟩
        · unfold DirKept
          rw [FileTree.append_other filePath_ne_dataDirPath.symm]
          exact hleaves.dir
        · exact (FileTree.append_other hp').trans (hleaves.frame p hp hp')
        · rw [FileTree.append_contents]
          rcases hcontents with ⟨hother, hnone, hnone'⟩ | hsome
          · rw [hnone, hnone']
            refine ⟨.unopened, rfl, fun _ hready _ _ => ?_⟩
            obtain ⟨_, hregular⟩ := hready.file _ hother
            cases hregular
          · rw [hsome]
            by_cases hkept : data.length ≤ k.kept
            · rw [List.take_of_length_le hkept]
              exact ⟨.whole, rfl, fun _ _ _ _ => rfl⟩
            · exact ⟨.cut k.kept, rfl, fun _ _ _ hle => absurd hle hkept⟩
      · rw [if_neg hstream]
        refine ⟨hleaves, .inr ⟨eq_false_of_ne_true hstream, fd, hfds⟩, ?_⟩
        rcases hcontents with ⟨-, hnone, hnone'⟩ | hsome
        · rw [hnone, hnone']
          exact ⟨.unopened, rfl, fun _ _ htrue => absurd htrue hstream⟩
        · rw [hsome]
          exact ⟨.cut 0, congrArg some (List.append_nil _).symm, fun _ _ htrue =>
            absurd htrue hstream⟩

end Append

end Botniklas
