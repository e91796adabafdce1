import Botniklas.Foundation.FileTree
import Botniklas.Transfers

/-! How a file in the data directory is found, opened and created, with the answers of the
system given. -/
namespace Botniklas
open Foundation Mem

/-- `HOME`, and what the password file says. -/
structure Account where
  home : Option Bytes
  passwd : Option Bytes

def Account.getHomeDir (account : Account) : Option Bytes :=
  match account.home with
  | some homeDir => some homeDir
  | none => account.passwd

inductive OpenMode where
  | read
  | append
  deriving DecidableEq, Repr

/-- The file tree, the open descriptors with the paths they were opened at, and how many
buffers are allocated. -/
structure Storage where
  tree : FileTree
  fds : List (Nat × Bytes)
  live : Nat

namespace Storage

def malloc (s : Storage) : Storage := { s with live := s.live + 1 }

def free (s : Storage) : Storage := { s with live := s.live - 1 }

/-- `open`. The system may refuse what could be done. -/
def sysOpen (s : Storage) (answer : Option Nat) (path : Bytes) (mode : OpenMode) :
    Except OpenError Nat × Storage :=
  match answer with
  | none => (.error .refused, s)
  | some fd =>
    match s.tree.openFile path (mode = .append) with
    | .error e => (.error e, s)
    | .ok tree => (.ok fd, { s with tree, fds := (fd, path) :: s.fds })

/-- `mkdir`. -/
def sysMkdir (s : Storage) (answer : Bool) (path : Bytes) : Option Storage :=
  if answer then (s.tree.mkdir path).map fun tree => { s with tree } else none

/-- `write` to a file opened to append to it. -/
def sysWrite (s : Storage) (fd : Nat) (data : Bytes) : Storage :=
  match s.fds.lookup fd with
  | some path => { s with tree := s.tree.append path data }
  | none => s

/-- A descriptor is released even if `close` answers with an error. -/
def sysClose (s : Storage) (fd : Nat) : Storage :=
  { s with fds := s.fds.filter (·.1 ≠ fd) }

/-- `fstat`: the type and the size. -/
def sysFstat (s : Storage) (fd : Nat) : Option (FileType × Nat) := do
  match (← s.tree.node (← s.fds.lookup fd)) with
  | .directory => some (.directory, 0)
  | .regular contents => some (.regular, contents.length)
  | .other => some (.other, 0)

end Storage

def dataDir : Bytes := ascii ".botniklas"

/-- What the system answers to the calls of `open_file`, a descriptor for a file opened, and
what the buffer for the path holds when it is allocated. -/
structure OpenAnswers where
  heap : Nat → UInt8
  opened : Option Nat
  made : Bool
  reopened : Option Nat

/-- The descriptor, none for -1. -/
def openFile (account : Account) (k : OpenAnswers) (filename : Bytes) (mode : OpenMode)
    (s : Storage) : Option Nat × Storage :=
  match account.getHomeDir with
  | none => (none, s)
  | some homeDir =>
    let dataDirPathLen := homeDir.length + 1 + dataDir.length
    let s := s.malloc
    let path : Mem (.flat (dataDirPathLen + 1 + filename.length + 1)) :=
      (⟨k.heap⟩ : Mem _).storeAll 0
        (homeDir ++ [slash] ++ dataDir ++ [slash] ++ filename ++ [nul])
    match s.sysOpen k.opened (path.cstr 0) mode with
    | (.ok fd, s) => (some fd, s.free)
    | (.error .refused, s) => (none, s.free)
    | (.error .missing, s) =>
      if mode = .read then (none, s.free)
      else
        -- The path is cut after the directory.
        let path := path.store dataDirPathLen nul
        match s.sysMkdir k.made (path.cstr 0) with
        | none => (none, s.free)
        | some s =>
          let path := path.store dataDirPathLen slash
          match s.sysOpen k.reopened (path.cstr 0) mode with
          | (.ok fd, s) => (some fd, s.free)
          | (.error _, s) => (none, s.free)

/-! The paths. -/

def dataDirPath (home : Bytes) : Bytes := home ++ slash :: dataDir

def filePath (home filename : Bytes) : Bytes := dataDirPath home ++ slash :: filename

section Paths
variable {home filename : Bytes}

theorem parent_filePath (h : slash ∉ filename) :
    parent (filePath home filename) = dataDirPath home := parent_child h

theorem parent_dataDirPath : parent (dataDirPath home) = home := parent_child (by decide)

theorem filePath_ne_dataDirPath : filePath home filename ≠ dataDirPath home := by
  intro he
  have hlen := congrArg List.length he
  simp [filePath] at hlen

theorem filePath_inj {filename' : Bytes} :
    filePath home filename = filePath home filename' ↔ filename = filename' := by
  unfold filePath
  simp

/-- The path buffer: the path of the file, that of its directory once it is cut, and again
that of the file. -/
theorem path_buffer (heap : Nat → UInt8) (hhome : nul ∉ home) (hname : nul ∉ filename) :
    let len := home.length + 1 + dataDir.length
    let path : Mem (.flat (len + 1 + filename.length + 1)) :=
      (⟨heap⟩ : Mem _).storeAll 0 (home ++ [slash] ++ dataDir ++ [slash] ++ filename ++ [nul])
    path.cstr 0 = filePath home filename ∧ (path.store len nul).cstr 0 = dataDirPath home ∧
      ((path.store len nul).store len slash) = path := by
  intro len path
  have hlen : (dataDirPath home).length = len := by
    simp [dataDirPath, len]
    omega
  have htext : home ++ [slash] ++ dataDir ++ [slash] ++ filename ++ [nul] =
      dataDirPath home ++ slash :: filename ++ [0] := by
    simp [dataDirPath]
  have hcstr : path.CStr 0 (dataDirPath home ++ slash :: filename) := by
    refine ⟨?_, ?_⟩
    · rw [← htext]
      exact holds_storeAll _ _ _ (Layout.flat_distinct _ _ _)
    · have hdir : nul ∉ dataDir := by decide
      simp only [dataDirPath, List.mem_append, List.mem_cons, not_or]
      exact ⟨⟨hhome, by decide, hdir⟩, by decide, hname⟩
  have hcut := hcstr.cut (Layout.flat_distinct _ _ _)
  rw [Nat.zero_add, hlen] at hcut
  refine ⟨cstr_eq hcstr ?_, cstr_eq hcut.1 ?_, ?_⟩
  · change 0 + (dataDirPath home ++ slash :: filename).length < _
    rw [List.length_append, List.length_cons, hlen]
    dsimp only [Layout.flat]
    omega
  · rw [hlen]
    dsimp only [Layout.flat]
    omega
  · have hholds := hcstr.1
    rw [List.append_assoc, holds_append, Nat.zero_add, hlen] at hholds
    exact store_store_load hholds.2.1

end Paths

/-! What `open_file` does. -/

section Open
variable {account : Account} {home filename : Bytes} {s s' : Storage} {answer : Option Nat}
  {path : Bytes} {fd : Nat} {mode : OpenMode}

theorem sysOpen_error {e : OpenError} (h : s.sysOpen answer path mode = (.error e, s')) :
    s' = s ∧ (e = .missing → s.tree.node path = none) := by
  unfold Storage.sysOpen at h
  split at h
  · cases h
    exact ⟨rfl, nofun⟩
  · split at h
    · rename_i herror
      cases h
      refine ⟨rfl, ?_⟩
      rintro rfl
      exact FileTree.openFile_missing herror
    · cases h

/-- From `s` to `s'` the file has been opened at `fd` to append to it. -/
structure OpenedAt (path : Bytes) (fd : Nat) (s s' : Storage) : Prop where
  fds : s'.fds = (fd, path) :: s.fds
  live : s'.live = s.live
  before : s.tree.node path ≠ some .directory
  after : s'.tree.node path = some ((s.tree.node path).getD (.regular []))
  frame : ∀ p ≠ path, s'.tree.node p = s.tree.node p

theorem sysOpen_append (h : s.sysOpen answer path .append = (.ok fd, s')) :
    answer = some fd ∧ OpenedAt path fd s s' := by
  unfold Storage.sysOpen at h
  split at h
  · cases h
  · split at h
    · cases h
    · rename_i hopen
      cases h
      obtain ⟨hbefore, hafter, hframe⟩ := FileTree.openFile_append hopen
      exact ⟨rfl, rfl, rfl, hbefore, hafter, hframe⟩

theorem sysOpen_read (h : s.sysOpen answer path .read = (.ok fd, s')) :
    answer = some fd ∧ s' = { s with fds := (fd, path) :: s.fds } ∧ s.tree.node path ≠ none := by
  unfold Storage.sysOpen at h
  split at h
  · cases h
  · split at h
    · cases h
    · rename_i hopen
      cases h
      obtain ⟨rfl, hnode⟩ := FileTree.openFile_read hopen
      exact ⟨rfl, rfl, hnode⟩

theorem sysMkdir_some {made : Bool} (h : s.sysMkdir made path = some s') :
    s'.fds = s.fds ∧ s'.live = s.live ∧ s.tree.node path = none ∧
      s'.tree.node path = some .directory ∧ ∀ p ≠ path, s'.tree.node p = s.tree.node p := by
  unfold Storage.sysMkdir at h
  split_ifs at h
  obtain ⟨tree, htree, rfl⟩ := Option.map_eq_some_iff.mp h
  exact ⟨rfl, rfl, FileTree.mkdir_ok htree⟩

/-- The data directory is as it was, or has been made. -/
def DirKept (home : Bytes) (t t' : FileTree) : Prop :=
  t'.node (dataDirPath home) = t.node (dataDirPath home) ∨
    t.node (dataDirPath home) = none ∧ t'.node (dataDirPath home) = some .directory

theorem DirKept.trans {t t' t'' : FileTree} (h : DirKept home t t') (h' : DirKept home t' t'') :
    DirKept home t t'' := by
  unfold DirKept at *
  rcases h' with h' | ⟨hnone, hmade⟩
  · rw [h']
    exact h
  · rcases h with h | ⟨-, h⟩
    · exact .inr ⟨h.symm.trans hnone, hmade⟩
    · cases h.symm.trans hnone

/-- What opening a file to append to it may do, beside opening it. -/
structure OpenLeaves (home filename : Bytes) (s s' : Storage) : Prop where
  live : s'.live = s.live
  dir : DirKept home s.tree s'.tree
  frame : ∀ p, p ≠ dataDirPath home → p ≠ filePath home filename →
    s'.tree.node p = s.tree.node p

theorem OpenedAt.leaves (h : OpenedAt (filePath home filename) fd s s') :
    OpenLeaves home filename s s' :=
  ⟨h.live, .inl (h.frame _ filePath_ne_dataDirPath.symm), fun p _ hp => h.frame p hp⟩

/-- The file is as it was, or opened. -/
def Found (k : OpenAnswers) (path : Bytes) (s s' : Storage) : Option Nat → Prop
  | none => s'.fds = s.fds ∧ s'.tree.node path = s.tree.node path
  | some fd => (k.opened = some fd ∨ k.reopened = some fd) ∧ s'.fds = (fd, path) :: s.fds ∧
      s.tree.node path ≠ some .directory ∧
      s'.tree.node path = some ((s.tree.node path).getD (.regular []))

/-- `open_file` to append. -/
theorem openFile_append {k : OpenAnswers} (hhome : account.getHomeDir = some home)
    (hnul : nul ∉ home) (hname : nul ∉ filename) {found : Option Nat}
    (h : openFile account k filename .append s = (found, s')) :
    OpenLeaves home filename s s' ∧ Found k (filePath home filename) s s' found := by
  obtain ⟨hpath, hdir, hrestored⟩ := path_buffer k.heap hnul hname
  have hrefl : OpenLeaves home filename s s := ⟨rfl, .inl rfl, fun _ _ _ => rfl⟩
  unfold openFile at h
  rw [hhome] at h
  dsimp only at h
  rw [hpath] at h
  split at h
  · rename_i hopen
    cases h
    obtain ⟨hfirst, hopened⟩ := sysOpen_append hopen
    have hleaves := hopened.leaves
    exact ⟨⟨congrArg (· - 1) hleaves.live, hleaves.dir, hleaves.frame⟩, .inl hfirst,
      hopened.fds, hopened.before, hopened.after⟩
  · rename_i hopen
    cases h
    obtain ⟨rfl, -⟩ := sysOpen_error hopen
    exact ⟨hrefl, rfl, rfl⟩
  · rename_i hopen
    obtain ⟨rfl, hmissing⟩ := sysOpen_error hopen
    rw [if_neg (by decide), hdir] at h
    split at h
    · cases h
      exact ⟨hrefl, rfl, rfl⟩
    · rename_i hmkdir
      obtain ⟨hfds, hlive, hnone, hmade, hframe⟩ := sysMkdir_some hmkdir
      have hsame := hframe (filePath home filename) filePath_ne_dataDirPath
      rw [hrestored, hpath] at h
      split at h
      · rename_i hreopen
        cases h
        obtain ⟨hsecond, hopened⟩ := sysOpen_append hreopen
        have hdirectory := (hopened.frame _ filePath_ne_dataDirPath.symm).trans hmade
        refine ⟨⟨?_, .inr ⟨hnone, hdirectory⟩, fun p hp hp' => ?_⟩, .inr hsecond, ?_, ?_, ?_⟩
        · exact congrArg (· - 1) (hopened.live.trans hlive)
        · exact (hopened.frame p hp').trans (hframe p hp)
        · exact hopened.fds.trans (by rw [hfds]; rfl)
        · exact fun he => hopened.before (hsame.trans he)
        · exact hopened.after.trans (by rw [hsame]; rfl)
      · rename_i hreopen
        cases h
        obtain ⟨rfl, -⟩ := sysOpen_error hreopen
        exact ⟨⟨congrArg (· - 1) hlive, .inr ⟨hnone, hmade⟩, fun p hp _ => hframe p hp⟩, hfds, hsame⟩

/-- `open_file` to read changes nothing but the descriptors. -/
theorem openFile_read {k : OpenAnswers} (hhome : account.getHomeDir = some home)
    (hnul : nul ∉ home) (hname : nul ∉ filename) {found : Option Nat}
    (h : openFile account k filename .read s = (found, s')) :
    (found = none ∧ s' = s) ∨ ∃ fd, found = some fd ∧ k.opened = some fd ∧
      s' = { s with fds := (fd, filePath home filename) :: s.fds } := by
  obtain ⟨hpath, -, -⟩ := path_buffer k.heap hnul hname
  unfold openFile at h
  rw [hhome] at h
  dsimp only at h
  rw [hpath] at h
  split at h
  · rename_i hopen
    cases h
    obtain ⟨hfirst, rfl, -⟩ := sysOpen_read hopen
    exact .inr ⟨_, rfl, hfirst, rfl⟩
  · rename_i hopen
    cases h
    obtain ⟨rfl, -⟩ := sysOpen_error hopen
    exact .inl ⟨rfl, rfl⟩
  · rename_i hopen
    obtain ⟨rfl, -⟩ := sysOpen_error hopen
    rw [if_pos rfl] at h
    cases h
    exact .inl ⟨rfl, rfl⟩

/-- The home directory is there, and nothing stands in the way of the file. -/
structure Ready (home filename : Bytes) (t : FileTree) : Prop where
  homeDir : t.node home = some .directory
  dir : ∀ node ∈ t.node (dataDirPath home), node = .directory
  file : ∀ node ∈ t.node (filePath home filename), ∃ contents, node = .regular contents

/-- The system refuses nothing. -/
structure OpenAnswers.Granted (k : OpenAnswers) : Prop where
  opened : ∃ fd, k.opened = some fd
  made : k.made = true
  reopened : ∃ fd, k.reopened = some fd

theorem sysOpen_granted (hdir : s.tree.node (parent path) = some .directory)
    (hfile : ∀ node ∈ s.tree.node path, ∃ contents, node = .regular contents) :
    ∃ s', s.sysOpen (some fd) path .append = (.ok fd, s') := by
  obtain ⟨tree, htree⟩ := FileTree.openFile_writable hdir hfile
  unfold Storage.sysOpen
  dsimp only
  rw [show decide (OpenMode.append = .append) = true from rfl, htree]
  exact ⟨_, rfl⟩

/-- Also where there is no data directory yet, the file is opened. -/
theorem openFile_granted {k : OpenAnswers} (hhome : account.getHomeDir = some home)
    (hnul : nul ∉ home) (hname : nul ∉ filename) (hslash : slash ∉ filename) (hk : k.Granted)
    (hready : Ready home filename s.tree) :
    ∃ fd s', openFile account k filename .append s = (some fd, s') := by
  obtain ⟨hpath, hdir, hrestored⟩ := path_buffer k.heap hnul hname
  obtain ⟨⟨fd, hfirst⟩, hmade, fd', hsecond⟩ := hk
  unfold openFile
  rw [hhome]
  dsimp only
  rw [hpath, hfirst]
  cases hnode : s.tree.node (dataDirPath home) with
  | some node =>
    obtain rfl := hready.dir node hnode
    obtain ⟨s', hopen⟩ := @sysOpen_granted s.malloc _ fd
      ((congrArg _ (parent_filePath hslash)).trans hnode) hready.file
    rw [hopen]
    exact ⟨_, _, rfl⟩
  | none =>
    -- No directory, no file in it.
    have hnone : s.tree.node (filePath home filename) = none := by
      by_contra hsome
      have hparent := s.tree.rooted _ (by simp [filePath]) hsome
      rw [parent_filePath hslash, hnode] at hparent
      cases hparent
    have hmissing : s.malloc.sysOpen (some fd) (filePath home filename) .append =
        (.error .missing, s.malloc) := by
      unfold Storage.sysOpen Storage.malloc
      dsimp only
      rw [FileTree.openFile_nowhere hnone (by rw [parent_filePath hslash, hnode])]
    rw [hmissing]
    dsimp only
    rw [if_neg (by decide), hdir, hmade, hrestored, hpath, hsecond]
    obtain ⟨tree, htree⟩ := FileTree.mkdir_makes hnode (by rw [parent_dataDirPath]; exact hready.homeDir)
    obtain ⟨-, hmade, hframe⟩ := FileTree.mkdir_ok htree
    have hmkdir : s.malloc.sysMkdir true (dataDirPath home) =
        some { s.malloc with tree } := by
      unfold Storage.sysMkdir Storage.malloc
      rw [if_pos rfl, htree]
      rfl
    rw [hmkdir]
    dsimp only
    obtain ⟨s', hopen⟩ := @sysOpen_granted { s.malloc with tree } (filePath home filename) fd'
      ((congrArg _ (parent_filePath hslash)).trans hmade) (by
        rw [hframe _ filePath_ne_dataDirPath, hnone]
        nofun)
    rw [hopen]
    exact ⟨_, _, rfl⟩

end Open

end Botniklas
