import Botniklas.Foundation.Retry
import Botniklas.Restore
import Botniklas.WriteMsg

/-! The loops around `read` and `send`, with the answers of the kernel given, and the
files read by one of them. -/
namespace Botniklas
open Foundation Mem

section Loops
variable {L : Layout}

/-- `read` into a buffer; no bytes mean the end of the file. -/
def readCalls (buf : Nat) : Calls Bytes (Mem L) where
  size := List.length
  move nReadTot bytes m := m.storeAll (buf + nReadTot) bytes
  stopsAtEmpty := true

/-- `send` from a buffer, which answers how many bytes it took; the state is what the
kernel has been handed. -/
def sendCalls (buf : Bytes) : Calls Nat Bytes where
  size := id
  move nWrittenTot nWritten handed := handed ++ (buf.drop nWrittenTot).take nWritten
  stopsAtEmpty := false

/-- Returns the total. A failure exits. -/
def readn (buf n : Nat) (answers : List (CallResult Bytes)) (m : Mem L) : Transfer Bytes (Mem L) :=
  (readCalls buf).run n answers m

/-- A failure exits. -/
def writen (buf : Bytes) (answers : List (CallResult Nat)) : Transfer Nat Bytes :=
  (sendCalls buf).run buf.length answers []

end Loops

section Files

inductive FileType where
  | directory
  | regular
  | other
  deriving DecidableEq, Repr

/-- What the system answers while a file is read: whether it could be opened, its type
and size, the bytes, and whether it could be closed. -/
structure FileAnswers where
  opened : Bool
  fstat : Option (FileType × Nat)
  reads : List (CallResult Bytes)
  closed : Bool
  deriving DecidableEq, Repr

/-- The buffer returned, none for NULL, with `*len` and the warnings given. -/
inductive FileRead where
  | waiting
  | returned (buf : Option ((size : Nat) × Mem (.flat size))) (len : Nat) (warnings : List String)

/-- The label `err_close`. -/
def errClose (answers : FileAnswers) (len : Nat) (text : String) : FileRead :=
  .returned none len (text ::
    if answers.closed then [] else ["close() error after failed read on '%s'"])

/-- `heap` is what the file buffer holds when it is allocated. -/
def getFileContents (heap : Nat → UInt8) (answers : FileAnswers) (len : Nat) : FileRead :=
  if answers.opened then
    match answers.fstat with
    | none => errClose answers len "fstat() error on '%s'"
    | some (.directory, _) => errClose answers len "Error while opening '%s': Is a directory"
    | some (.other, _) => errClose answers len "Error while opening '%s': Not a regular file"
    | some (.regular, size) =>
      let read := (readCalls 0).run size answers.reads (⟨heap⟩ : Mem (.flat size))
      match read.status with
      | .waiting => .waiting
      | .failed => errClose answers len "read() error on '%s'"
      | .ended => .returned (some ⟨size, read.state⟩) read.total
          (if answers.closed then [] else ["close() error after successful read on '%s'"])
  else .returned none len []

end Files

/-! What the loops move. -/

section Send
variable {buf : Bytes} {answers : List (CallResult Nat)}

theorem writen_made (h : (sendCalls buf).Obeys buf.length answers 0) :
    ∃ calls, (sendCalls buf).Made buf.length
      (fun parts handed => handed = buf.take ((sendCalls buf).totalSize parts)) answers calls
      (writen buf answers) := by
  refine Calls.run_made (fun parts part handed hhanded _ => ?_) h (by simp [Calls.totalSize])
  rw [hhanded, Calls.totalSize_append, Calls.totalSize_singleton]
  exact List.take_add.symm

/-- The kernel has been handed what stands before the total: all of it at the end. -/
theorem writen_handed (h : (sendCalls buf).Obeys buf.length answers 0) :
    (writen buf answers).state = buf.take (writen buf answers).total ∧
    ((writen buf answers).status = .ended → (writen buf answers).state = buf) ∧
    (.failed ∉ answers → buf.length ≤ (moved answers).length →
      (writen buf answers).status = .ended) := by
  obtain ⟨calls, hmade⟩ := writen_made h
  have hstate : (writen buf answers).state = buf.take (writen buf answers).total := by
    rw [hmade.total]
    exact hmade.holds
  refine ⟨hstate, fun hended => ?_, fun hfail hmany => hmade.ends hfail (.inl hmany)⟩
  rcases hmade.ended hended with hall | ⟨hstops, -⟩
  · rw [hstate, hall, List.take_length]
  · cases hstops

end Send

section Read
variable {L : Layout} {buf n : Nat} {answers : List (CallResult Bytes)} {m : Mem L}

theorem readCalls_totalSize (parts : List Bytes) :
    (readCalls buf : Calls Bytes (Mem L)).totalSize parts = parts.flatten.length :=
  List.length_flatten.symm

/-- The parts stand one after the other, and nothing outside them has changed. -/
def Stored (m : Mem L) (buf : Nat) (parts : List Bytes) (m' : Mem L) : Prop :=
  m'.Holds buf parts.flatten ∧ Within buf (buf + parts.flatten.length) m m'

theorem readCalls_made (hd : L.Distinct buf (buf + n))
    (h : (readCalls buf : Calls Bytes (Mem L)).Obeys n answers 0) :
    ∃ calls, (readCalls buf).Made n (Stored m buf) answers calls
      ((readCalls buf).run n answers m) := by
  refine Calls.run_made (fun parts part m' hstored hle => ?_) h ⟨trivial, .refl _ _ _⟩
  rw [readCalls_totalSize] at hle ⊢
  obtain ⟨hholds, hwithin⟩ := hstored
  change parts.flatten.length + part.length ≤ n at hle
  have hstore := within_storeAll m' (buf + parts.flatten.length) part (le_refl _) (le_refl _)
  have hpart := holds_storeAll m' (buf + parts.flatten.length) part
    (hd.mono (by omega) (by omega))
  unfold Stored
  rw [List.flatten_append, List.flatten_singleton, List.length_append]
  refine ⟨(holds_append _ _ _ _).mpr ⟨?_, hpart⟩, ?_⟩
  · exact hstore.holds hd (by omega) (by omega) (le_refl _) (by omega) (by omega) hholds
  · exact (hwithin.mono (le_refl _) (by omega)).trans (hstore.mono (by omega) (by omega))

/-- The calls made brought `count` bytes, at most `n`, and these stand in the buffer. -/
structure Delivered (m : Mem L) (buf n : Nat) (calls : List (CallResult Bytes)) (m' : Mem L)
    (count : Nat) : Prop where
  stored : Stored m buf (moved calls) m'
  counted : count = (moved calls).flatten.length
  le : count ≤ n

/-- Reading ends when all is read or the last call met the end of the file. -/
def Finished (n : Nat) (calls : List (CallResult Bytes)) (count : Nat) : Prop :=
  .failed ∉ calls ∧ (count = n ∨ calls.getLast? = some (.moved []))

theorem delivered_of_made {calls : List (CallResult Bytes)} {t : Transfer Bytes (Mem L)}
    (h : (readCalls buf).Made n (Stored m buf) answers calls t) :
    Delivered m buf n calls t.state t.total ∧
    (t.status = .ended → Finished n calls t.total) := by
  refine ⟨⟨h.holds, h.total.trans (readCalls_totalSize _), h.le⟩, fun hended => ⟨?_, ?_⟩⟩
  · exact h.intact (by rw [hended]; decide)
  · rcases h.ended hended with hall | ⟨-, part, hlast, hempty⟩
    · exact .inl hall
    · rw [List.length_eq_zero_iff.mp hempty] at hlast
      exact .inr hlast

end Read

section File
variable {answers : FileAnswers} {len : Nat}

/-- Of a regular file: the loop still waits, or a read failed and NULL is returned, or
the buffer has the size of the file and holds what the calls brought. -/
theorem getFileContents_cases (heap : Nat → UInt8) {size : Nat} (hopened : answers.opened = true)
    (hfstat : answers.fstat = some (.regular, size))
    (h : (readCalls 0 : Calls Bytes (Mem (.flat size))).Obeys size answers.reads 0) :
    ∃ calls rest, answers.reads = calls ++ rest ∧
      match getFileContents heap answers len with
      | .waiting => .failed ∉ answers.reads ∧ (moved answers.reads).length < size ∧
        [] ∉ moved answers.reads
      | .returned none len' _ => calls.getLast? = some .failed ∧ len' = len
      | .returned (some ⟨size', m⟩) len' _ => size' = size ∧
        Delivered ⟨heap⟩ 0 size calls m len' ∧ Finished size calls len' := by
  obtain ⟨calls, hmade⟩ := @readCalls_made _ 0 size answers.reads ⟨heap⟩
    (Layout.flat_distinct size _ _) h
  obtain ⟨hdelivered, hfinished⟩ := delivered_of_made hmade
  refine ⟨calls, _, hmade.split, ?_⟩
  unfold getFileContents
  rw [if_pos hopened, hfstat]
  dsimp only
  generalize (readCalls 0 : Calls Bytes (Mem (.flat size))).run size answers.reads ⟨heap⟩ = t
    at hmade hdelivered hfinished ⊢
  cases hstatus : t.status with
  | waiting =>
    obtain ⟨hintact, hfew, hsome⟩ := hmade.waits hstatus
    exact ⟨hintact, hfew, fun hempty => Nat.lt_irrefl 0 (hsome [] hempty)⟩
  | failed => exact ⟨hmade.failed hstatus, rfl⟩
  | ended => exact ⟨rfl, hdelivered, hfinished hstatus⟩

/-- NULL comes with the length left as it was. -/
theorem getFileContents_null {heap : Nat → UInt8} {len' : Nat} {warnings : List String}
    (h : getFileContents heap answers len = .returned none len' warnings) : len' = len := by
  unfold getFileContents errClose at h
  by_cases hopened : answers.opened = true
  · rw [if_pos hopened] at h
    split at h
    · cases h
      rfl
    · cases h
      rfl
    · cases h
      rfl
    · dsimp only at h
      split at h
      · cases h
      · cases h
        rfl
      · cases h
  · rw [if_neg hopened] at h
    cases h
    rfl

end File

/-- Whatever way the kernel cuts the transfers up and interrupts them, `writen` hands
it exactly the buffer, and `readn` and `get_file_contents` store exactly what the calls
brought, never more than was asked for, and report its length; when a read fails, NULL
is returned and the length left alone. -/
theorem retry_loops_transfer_once :
    (∀ buf answers, (sendCalls buf).Obeys buf.length answers 0 →
      (writen buf answers).state <+: buf ∧
      ((writen buf answers).status = .ended → (writen buf answers).state = buf) ∧
      (.failed ∉ answers → buf.length ≤ (moved answers).length →
        (writen buf answers).status = .ended)) ∧
    (∀ (L : Layout) (buf n : Nat) (answers : List (CallResult Bytes)) (m : Mem L),
      L.Distinct buf (buf + n) →
      (readCalls buf : Calls Bytes (Mem L)).Obeys n answers 0 →
      ∃ calls, answers = calls ++ (readn buf n answers m).rest ∧
        Delivered m buf n calls (readn buf n answers m).state (readn buf n answers m).total ∧
        ((readn buf n answers m).status = .ended →
          Finished n calls (readn buf n answers m).total) ∧
        (.failed ∉ answers → n ≤ (moved answers).length ∨ [] ∈ moved answers →
          (readn buf n answers m).status = .ended)) ∧
    (∀ (heap : Nat → UInt8) (answers : FileAnswers) (len size : Nat), answers.opened = true →
      answers.fstat = some (.regular, size) →
      (readCalls 0 : Calls Bytes (Mem (.flat size))).Obeys size answers.reads 0 →
      ∃ calls rest, answers.reads = calls ++ rest ∧
        match getFileContents heap answers len with
        | .waiting => .failed ∉ answers.reads ∧ (moved answers.reads).length < size ∧
          [] ∉ moved answers.reads
        | .returned none len' _ => calls.getLast? = some .failed ∧ len' = len
        | .returned (some ⟨size', m⟩) len' _ => size' = size ∧
          Delivered ⟨heap⟩ 0 size calls m len' ∧ Finished size calls len') ∧
    (∀ (heap : Nat → UInt8) (answers : FileAnswers) (len len' : Nat) (warnings : List String),
      getFileContents heap answers len = .returned none len' warnings → len' = len) := by
  refine ⟨fun buf answers h => ?_, fun L buf n answers m hd h => ?_,
    fun heap answers len size => getFileContents_cases heap,
    fun heap answers len len' warnings => getFileContents_null⟩
  · obtain ⟨hstate, hended, hends⟩ := writen_handed h
    refine ⟨?_, hended, hends⟩
    rw [hstate]
    exact List.take_prefix _ _
  · obtain ⟨calls, hmade⟩ := readCalls_made hd h
    obtain ⟨hdelivered, hfinished⟩ := delivered_of_made hmade
    refine ⟨calls, hmade.split, hdelivered, hfinished, fun hfail henough => hmade.ends hfail ?_⟩
    exact henough.imp_right fun hempty => ⟨[], hempty, rfl⟩

/-- Two short writes with an interruption between them. -/
theorem interrupted_write :
    (writen (ascii "PONG") [.moved 1, .eintr, .moved 3]).state = ascii "PONG" :=
  (retry_loops_transfer_once.1 (ascii "PONG") [.moved 1, .eintr, .moved 3] (by
    refine ⟨by decide, fun _ => by decide, fun _ _ => ⟨by decide, fun _ => by decide, ?_⟩⟩
    exact fun _ h => absurd h (by decide))).2.1 rfl

end Botniklas
