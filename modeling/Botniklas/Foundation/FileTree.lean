import Botniklas.Foundation.Ascii
import Mathlib.Logic.Function.Basic

/-! Directories and files by path: opening, creating and appending. Every file stands in a
directory, but for the root, whose path is empty. -/
namespace Botniklas.Foundation

inductive FileNode where
  | directory
  | regular (contents : Bytes)
  | other
  deriving DecidableEq, Repr

/-- What stands before the last slash. -/
def parent (path : Bytes) : Bytes := (path.reverse.dropWhile (· ≠ slash)).tail.reverse

theorem parent_child {dir name : Bytes} (h : slash ∉ name) :
    parent (dir ++ slash :: name) = dir := by
  have hname : (name.reverse ++ slash :: dir.reverse).dropWhile (· ≠ slash) =
      slash :: dir.reverse := by
    rw [List.dropWhile_append_of_pos fun b hb => ?_]
    · rfl
    · exact decide_eq_true fun he => h (he ▸ List.mem_reverse.mp hb)
  unfold parent
  rw [List.reverse_append, List.reverse_cons, List.append_assoc, List.singleton_append, hname,
    List.tail_cons, List.reverse_reverse]

structure FileTree where
  node : Bytes → Option FileNode
  rooted : ∀ path, path ≠ [] → node path ≠ none → node (parent path) = some .directory

/-- Why a file is not opened: something on its path is not there, or anything else. -/
inductive OpenError where
  | missing
  | refused
  deriving DecidableEq, Repr

namespace FileTree
variable (t : FileTree) (path : Bytes)

/-- What a regular file holds. -/
def contents : Option Bytes :=
  match t.node path with
  | some (.regular contents) => some contents
  | _ => none

/-- What is put in the place of a directory's entry that is no directory itself. -/
def put (node : FileNode) (hnode : t.node path ≠ some .directory)
    (hparent : path ≠ [] → t.node (parent path) = some .directory) : FileTree where
  node := Function.update t.node path (some node)
  rooted := by
    have hkeep : ∀ p, t.node p = some .directory →
        Function.update t.node path (some node) p = some .directory := by
      intro p hp
      rw [Function.update_of_ne, hp]
      rintro rfl
      exact hnode hp
    intro p hp hsome
    by_cases he : p = path
    · rw [he] at hp ⊢
      exact hkeep _ (hparent hp)
    · rw [Function.update_of_ne he] at hsome
      exact hkeep _ (t.rooted p hp hsome)

/-- `open`, to read or to append: a file to be appended to is created if its directory is
there. -/
def openFile (append : Bool) : Except OpenError FileTree :=
  match hnode : t.node path with
  | some .directory => if append then .error .refused else .ok t
  | some _ => .ok t
  | none =>
    match hparent : t.node (parent path) with
    | some .directory =>
      if append then .ok (t.put path (.regular []) (by rw [hnode]; nofun) fun _ => hparent)
      else .error .missing
    | some _ => .error .refused
    | none => .error .missing

/-- None if something is there, or nothing it could be made in. -/
def mkdir : Option FileTree :=
  match hnode : t.node path with
  | some _ => none
  | none =>
    match hparent : t.node (parent path) with
    | some .directory => some (t.put path .directory (by rw [hnode]; nofun) fun _ => hparent)
    | _ => none

/-- A write at the end of a file. What is no regular file swallows it. -/
def append (data : Bytes) : FileTree :=
  match hnode : t.node path with
  | some (.regular contents) => t.put path (.regular (contents ++ data)) (by rw [hnode]; nofun)
      fun hp => t.rooted path hp (by rw [hnode]; nofun)
  | _ => t

variable {t path} {t' : FileTree} {node : FileNode} {data : Bytes} {p : Bytes}

@[simp] theorem put_self (hnode hparent) : (t.put path node hnode hparent).node path = some node :=
  Function.update_self _ _ _

theorem put_other (hnode hparent) (h : p ≠ path) :
    (t.put path node hnode hparent).node p = t.node p :=
  Function.update_of_ne h _ _

theorem contents_congr (h : t'.node path = t.node path) : t'.contents path = t.contents path := by
  unfold contents
  rw [h]

/-- Opening to read changes nothing. -/
theorem openFile_read (h : t.openFile path false = .ok t') : t' = t ∧ t.node path ≠ none := by
  unfold openFile at h
  split at h
  · rename_i hnode
    cases h
    exact ⟨rfl, by rw [hnode]; nofun⟩
  · rename_i hnode
    cases h
    exact ⟨rfl, by rw [hnode]; nofun⟩
  · split at h
    · cases h
    · cases h
    · cases h

/-- A file opened to append to it is there as it was, or new and empty. -/
theorem openFile_append (h : t.openFile path true = .ok t') :
    t.node path ≠ some .directory ∧ t'.node path = some ((t.node path).getD (.regular [])) ∧
      ∀ p ≠ path, t'.node p = t.node p := by
  unfold openFile at h
  split at h
  · cases h
  · rename_i hdir hnode
    cases h
    rw [hnode]
    exact ⟨fun he => hdir (Option.some.inj he), rfl, fun _ _ => rfl⟩
  · rename_i hnode
    split at h
    · cases h
      refine ⟨by rw [hnode]; nofun, (put_self _ _).trans ?_, fun p hp => put_other _ _ hp⟩
      rw [hnode]
      rfl
    · cases h
    · cases h

theorem openFile_missing {append : Bool} (h : t.openFile path append = .error .missing) :
    t.node path = none := by
  unfold openFile at h
  split at h
  · split_ifs at h
    cases h
  · cases h
  · assumption

/-- What can be appended to. -/
theorem openFile_writable (hdir : t.node (parent path) = some .directory)
    (hnode : ∀ node ∈ t.node path, ∃ contents, node = .regular contents) :
    ∃ t', t.openFile path true = .ok t' := by
  unfold openFile
  split
  · rename_i hdir'
    obtain ⟨contents, hc⟩ := hnode _ hdir'
    cases hc
  · exact ⟨_, rfl⟩
  · split
    · exact ⟨_, rfl⟩
    · rename_i hother hparent
      exact absurd (Option.some.inj (hparent.symm.trans hdir)) hother
    · rename_i hparent
      cases hparent.symm.trans hdir

theorem openFile_nowhere {append : Bool} (hnode : t.node path = none)
    (hdir : t.node (parent path) = none) : t.openFile path append = .error .missing := by
  unfold openFile
  split
  · rename_i h
    cases h.symm.trans hnode
  · rename_i h
    cases h.symm.trans hnode
  · split
    · rename_i h
      cases h.symm.trans hdir
    · rename_i h
      cases h.symm.trans hdir
    · rfl

theorem mkdir_ok (h : t.mkdir path = some t') : t.node path = none ∧
    t'.node path = some .directory ∧ ∀ p ≠ path, t'.node p = t.node p := by
  unfold mkdir at h
  split at h
  · cases h
  · rename_i hnode
    split at h
    · cases h
      exact ⟨hnode, put_self _ _, fun p hp => put_other _ _ hp⟩
    · cases h

theorem mkdir_makes (hnode : t.node path = none) (hdir : t.node (parent path) = some .directory) :
    ∃ t', t.mkdir path = some t' := by
  unfold mkdir
  split
  · rename_i h
    cases h.symm.trans hnode
  · split
    · exact ⟨_, rfl⟩
    · rename_i h
      exact absurd hdir h

theorem append_other (h : p ≠ path) : (t.append path data).node p = t.node p := by
  unfold append
  split
  · exact put_other _ _ h
  · rfl

theorem append_contents : (t.append path data).contents path =
    (t.contents path).map (· ++ data) := by
  unfold append
  split
  · rename_i hnode
    unfold contents
    rw [put_self, hnode]
    rfl
  · rename_i hnode
    unfold contents
    split
    · rename_i contents h
      exact absurd h (hnode contents)
    · rfl

end FileTree
end Botniklas.Foundation
