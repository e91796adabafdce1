import Mathlib.Algebra.BigOperators.Group.List.Basic
import Mathlib.Algebra.GroupWithZero.Nat

/-! Moving data in parts: each call moves some of what it is asked for, or is
interrupted and made again, or fails. -/
namespace Botniklas.Foundation

inductive CallResult (α : Type) where
  | moved (part : α)
  | eintr
  | failed
  deriving DecidableEq, Repr

def CallResult.part {α : Type} : CallResult α → Option α
  | moved part => some part
  | _ => none

/-- The parts that some calls moved. -/
def moved {α : Type} (calls : List (CallResult α)) : List α := calls.filterMap CallResult.part

section Moved
variable {α : Type}

@[simp] theorem moved_append (calls calls' : List (CallResult α)) :
    moved (calls ++ calls') = moved calls ++ moved calls' := List.filterMap_append

@[simp] theorem moved_moved (part : α) : moved [.moved part] = [part] := rfl

@[simp] theorem moved_eintr : moved [(.eintr : CallResult α)] = [] := rfl

@[simp] theorem moved_failed : moved [(.failed : CallResult α)] = [] := rfl

end Moved

/-- A loop that has used up its answers is waiting for the next. -/
inductive Status where
  | waiting
  | ended
  | failed
  deriving DecidableEq, Repr

/-- A kind of call: the size of a part, what moving it at a total does to the state,
and whether an empty part ends the loop. -/
structure Calls (α σ : Type) where
  size : α → Nat
  move : Nat → α → σ → σ
  stopsAtEmpty : Bool

/-- How a loop stands, with the answers to calls it has not made. -/
structure Transfer (α σ : Type) where
  status : Status
  total : Nat
  state : σ
  rest : List (CallResult α)

namespace Calls
variable {α σ : Type} (c : Calls α σ) (n : Nat)

/-- The loop from its call on, while `total` is less than `n`. An interrupted call is
made again and leaves the total alone. -/
def again : List (CallResult α) → Nat → σ → Transfer α σ
  | [], total, s => ⟨.waiting, total, s, []⟩
  | .eintr :: answers, total, s => again answers total s
  | .failed :: answers, total, s => ⟨.failed, total, s, answers⟩
  | .moved part :: answers, total, s =>
    let s := c.move total part s
    if c.stopsAtEmpty ∧ c.size part = 0 then ⟨.ended, total, s, answers⟩
    else
      let total := total + c.size part
      if total < n then again answers total s else ⟨.ended, total, s, answers⟩

def run (answers : List (CallResult α)) (s : σ) : Transfer α σ :=
  if 0 < n then c.again n answers 0 s else ⟨.ended, 0, s, answers⟩

def totalSize (parts : List α) : Nat := (parts.map c.size).sum

/-- No call moves more than it is asked for, and each moves something unless that
may end the loop. Answers the loop does not come to are free. -/
def Obeys : List (CallResult α) → Nat → Prop
  | [], _ => True
  | .eintr :: answers, total => Obeys answers total
  | .failed :: _, _ => True
  | .moved part :: answers, total =>
    c.size part ≤ n - total ∧ (c.stopsAtEmpty = false → 0 < c.size part) ∧
      (0 < c.size part → total + c.size part < n → Obeys answers (total + c.size part))

/-- The loop has made `calls`, and `P` holds of the parts they moved and the state. -/
structure Made (P : List α → σ → Prop) (answers calls : List (CallResult α)) (t : Transfer α σ) :
    Prop where
  split : answers = calls ++ t.rest
  holds : P (moved calls) t.state
  total : t.total = c.totalSize (moved calls)
  le : t.total ≤ n
  ended : t.status = .ended → t.total = n ∨
    c.stopsAtEmpty = true ∧ ∃ part, calls.getLast? = some (.moved part) ∧ c.size part = 0
  failed : t.status = .failed → calls.getLast? = some .failed
  intact : t.status ≠ .failed → .failed ∉ calls
  waiting : t.status = .waiting →
    t.rest = [] ∧ t.total < n ∧ ∀ part ∈ moved calls, 0 < c.size part

variable {c n} {P : List α → σ → Prop} {answers calls done : List (CallResult α)} {s : σ}

@[simp] theorem totalSize_append (parts parts' : List α) :
    c.totalSize (parts ++ parts') = c.totalSize parts + c.totalSize parts' := by
  simp [totalSize]

@[simp] theorem totalSize_singleton (part : α) : c.totalSize [part] = c.size part := by
  simp [totalSize]

/-- Induction on the answers still to come, with the calls already made. -/
theorem again_made
    (hmove : ∀ parts part s, P parts s → c.totalSize parts + c.size part ≤ n →
      P (parts ++ [part]) (c.move (c.totalSize parts) part s))
    (hobeys : c.Obeys n answers (c.totalSize (moved done))) (hs : P (moved done) s)
    (hlt : c.totalSize (moved done) < n) (hsome : ∀ part ∈ moved done, 0 < c.size part)
    (hdone : .failed ∉ done) :
    ∃ calls, c.Made n P (done ++ answers) calls
      (c.again n answers (c.totalSize (moved done)) s) := by
  induction answers generalizing done s with
  | nil =>
    exact ⟨done, rfl, hs, rfl, Nat.le_of_lt hlt, nofun, nofun, fun _ => hdone,
      fun _ => ⟨rfl, hlt, hsome⟩⟩
  | cons answer answers ih =>
    have hcons : done ++ answer :: answers = done ++ [answer] ++ answers := by simp
    rw [hcons]
    cases answer with
    | eintr =>
      have hsame : moved (done ++ [.eintr]) = moved done := by simp
      have hnext := @ih (done ++ [.eintr]) s
      rw [hsame] at hnext
      exact hnext hobeys hs hlt hsome (by simpa using hdone)
    | failed =>
      have hsame : moved (done ++ [.failed]) = moved done := by simp
      refine ⟨done ++ [.failed], rfl, ?_, ?_, Nat.le_of_lt hlt, nofun,
        fun _ => List.getLast?_concat, fun h => absurd rfl h, nofun⟩
      · rwa [hsame]
      · rw [hsame]
        rfl
    | moved part =>
      obtain ⟨hsize, hpos, hobeys⟩ := hobeys
      have hparts : moved (done ++ [.moved part]) = moved done ++ [part] := by simp
      have htotal : c.totalSize (moved (done ++ [.moved part])) =
          c.totalSize (moved done) + c.size part := by simp
      have hholds := hmove _ part _ hs (by omega)
      rw [← hparts] at hholds
      have hintact : .failed ∉ done ++ [.moved part] := by simpa using hdone
      unfold again
      dsimp only
      split_ifs with hempty hmore
      · refine ⟨done ++ [.moved part], rfl, hholds, ?_, Nat.le_of_lt hlt,
          fun _ => .inr ⟨hempty.1, part, List.getLast?_concat, hempty.2⟩, nofun, fun _ => hintact, nofun⟩
        rw [htotal, hempty.2, Nat.add_zero]
      · have hnonempty : 0 < c.size part := by
          cases hstops : c.stopsAtEmpty with
          | false => exact hpos hstops
          | true => exact Nat.pos_of_ne_zero fun h0 => hempty ⟨hstops, h0⟩
        have hnext := @ih (done ++ [.moved part]) (c.move (c.totalSize (moved done)) part s)
        rw [htotal] at hnext
        refine hnext (hobeys hnonempty hmore) hholds hmore ?_ hintact
        rw [hparts]
        exact List.forall_mem_append.mpr ⟨hsome, by simpa using hnonempty⟩
      · refine ⟨done ++ [.moved part], rfl, hholds, htotal.symm, ?_, fun _ => .inl ?_, nofun,
          fun _ => hintact, nofun⟩
        · dsimp only
          omega
        · dsimp only
          omega

/-- What every move keeps, the whole loop keeps. -/
theorem run_made (hmove : ∀ parts part s, P parts s → c.totalSize parts + c.size part ≤ n →
      P (parts ++ [part]) (c.move (c.totalSize parts) part s))
    (hobeys : c.Obeys n answers 0) (hs : P [] s) :
    ∃ calls, c.Made n P answers calls (c.run n answers s) := by
  unfold run
  split_ifs with hn
  · have hfirst : ∃ calls, c.Made n P ([] ++ answers) calls
        (c.again n answers (c.totalSize (moved [])) s) :=
      again_made hmove hobeys hs hn (by simp [moved]) List.not_mem_nil
    exact hfirst
  · have h0 : n = 0 := Nat.eq_zero_of_not_pos hn
    exact ⟨[], rfl, hs, rfl, Nat.zero_le _, fun _ => .inl h0.symm, nofun,
      fun _ => List.not_mem_nil, nofun⟩

/-- A loop waits only while no call failed, no part was empty and fewer parts were
moved than there are units to move. -/
theorem Made.waits {t : Transfer α σ} (h : c.Made n P answers calls t)
    (hw : t.status = .waiting) :
    .failed ∉ answers ∧ (moved answers).length < n ∧ ∀ part ∈ moved answers, 0 < c.size part := by
  obtain ⟨hrest, hlt, hsome⟩ := h.waiting hw
  have hall : answers = calls := by rw [h.split, hrest, List.append_nil]
  have hparts : (moved calls).length ≤ c.totalSize (moved calls) := by
    rw [totalSize, ← List.length_map c.size]
    refine List.length_le_sum_of_one_le _ fun k hk => ?_
    obtain ⟨part, hpart, rfl⟩ := List.mem_map.mp hk
    exact hsome part hpart
  have htotal := h.total
  rw [hall]
  exact ⟨h.intact (by rw [hw]; decide), by omega, hsome⟩

/-- With answers enough, a loop whose calls do not fail ends. -/
theorem Made.ends {t : Transfer α σ} (h : c.Made n P answers calls t)
    (hfail : .failed ∉ answers)
    (henough : n ≤ (moved answers).length ∨ ∃ part ∈ moved answers, c.size part = 0) :
    t.status = .ended := by
  cases hstatus : t.status with
  | ended => rfl
  | failed =>
    have hlast := List.mem_of_getLast? (h.failed hstatus)
    exact absurd (h.split ▸ List.mem_append_left _ hlast) hfail
  | waiting =>
    obtain ⟨-, hfew, hsome⟩ := h.waits hstatus
    rcases henough with hmany | ⟨part, hpart, hempty⟩
    · omega
    · have := hsome part hpart
      omega

end Calls
end Botniklas.Foundation
