import Botniklas.Happenings
import Botniklas.Injection
import Botniklas.Transfers

/-! What has come to the server of the lines the bot writes: `send` may take a part of a
buffer, be interrupted, block or fail. -/
namespace Botniklas
open Foundation Irc

/-- What the kernel has been handed of some calls of the writer, which share one buffer. Each
has the answers to its calls of `send`; one that fails or still waits is the last. -/
def deliver (s : DString) : List (WriteCall × List (CallResult Nat)) → Bytes
  | [] => []
  | (call, answers) :: sends =>
    let s := call.run s
    let sent := writen s.contents answers
    match sent.status with
    | .ended => sent.state ++ deliver s sends
    | _ => sent.state

/-- No `send` takes more than it is given. -/
def Obeying (sends : List (WriteCall × List (CallResult Nat))) : Prop :=
  ∀ e ∈ sends, (sendCalls e.1.line).Obeys e.1.line.length e.2 0

section Sends
variable {s : DString} {sends : List (WriteCall × List (CallResult Nat))}

/-- Nothing is sent twice or out of order, and of a line that is not whole nothing follows. -/
theorem deliver_prefix (hs : s.Fits) (hlen : ∀ e ∈ sends, e.1.line.length < 2 ^ 63)
    (hobeys : Obeying sends) : deliver s sends <+: sends.flatMap (·.1.line) := by
  induction sends generalizing s with
  | nil => exact List.nil_prefix
  | cons e sends ih =>
    obtain ⟨call, answers⟩ := e
    obtain ⟨hcall, hlen⟩ := List.forall_mem_cons.mp hlen
    obtain ⟨hanswers, hobeys⟩ := List.forall_mem_cons.mp hobeys
    obtain ⟨hfits, hline⟩ := call.run_line hs hcall
    obtain ⟨hstate, hended, -⟩ := writen_handed hanswers
    have hpart : (writen call.line answers).state <+: call.line := by
      rw [hstate]
      exact List.take_prefix _ _
    unfold deliver
    dsimp only
    rw [hline, List.flatMap_cons]
    split
    · rename_i hwhole
      rw [hended hwhole, List.prefix_append_right_inj]
      exact ih hfits hlen hobeys
    · exact hpart.trans (List.prefix_append _ _)

/-- With no failure and answers enough all comes. -/
theorem deliver_all (hs : s.Fits) (hlen : ∀ e ∈ sends, e.1.line.length < 2 ^ 63)
    (hobeys : Obeying sends)
    (henough : ∀ e ∈ sends, .failed ∉ e.2 ∧ e.1.line.length ≤ (moved e.2).length) :
    deliver s sends = sends.flatMap (·.1.line) := by
  induction sends generalizing s with
  | nil => rfl
  | cons e sends ih =>
    obtain ⟨call, answers⟩ := e
    obtain ⟨hcall, hlen⟩ := List.forall_mem_cons.mp hlen
    obtain ⟨hanswers, hobeys⟩ := List.forall_mem_cons.mp hobeys
    obtain ⟨⟨hfail, hmany⟩, henough⟩ := List.forall_mem_cons.mp henough
    obtain ⟨hfits, hline⟩ := call.run_line hs hcall
    obtain ⟨-, hended, hends⟩ := writen_handed hanswers
    unfold deliver
    dsimp only
    rw [hline, hends hfail hmany, hended (hends hfail hmany), List.flatMap_cons]
    exact congrArg _ (ih hfits hlen hobeys henough)

end Sends

/-- The text of a line, without its end. -/
def WriteCall.text : WriteCall → Bytes
  | writeMsg text => text
  | say target text => privmsgTo target ++ text
  | compose target pieces => privmsgTo target ++ pieces.flatten

theorem WriteCall.line_eq (call : WriteCall) : call.line = call.text ++ crlf := by
  cases call with
  | writeMsg text | say target text | compose target pieces => rfl

/-- What stands before the end of a line. -/
theorem IsLine.record {call : WriteCall} (h : IsLine call.line) :
    ∀ b ∈ call.text ++ [cr], isLf b = false := by
  obtain ⟨text, hline, hclean⟩ := h
  rw [call.line_eq] at hline
  rw [List.append_cancel_right hline]
  exact List.forall_mem_append.mpr ⟨hclean.not_isLf, List.forall_mem_singleton.mpr rfl⟩

section Sessions
variable {pageSize : Nat} {env : Env} {opts : Options} {running : Bool} {l : Loop pageSize}

/-- At every point of every session and whatever `send` does: the server has the first of the
lines, each whole and as it was written, and then a part of the next; and it has them all
once nothing has failed and every `send` has been answered. -/
theorem server_receives_lines (h : Reaches env opts running l)
    -- no string in memory is longer
    (hlen : ∀ call ∈ l.bot.calls, call.line.length < 2 ^ 63)
    {sends : List (WriteCall × List (CallResult Nat))} (hsends : sends.map Prod.fst = l.bot.calls)
    (hobeys : Obeying sends) :
    ∃ come left, l.bot.calls = come ++ left ∧
      (pieces isLf (deliver .stringInit sends)).1 = come.map (·.text ++ [cr]) ∧
      (pieces isLf (deliver .stringInit sends)).2 <+: (left.map WriteCall.line).headD [] ∧
      ((∀ e ∈ sends, .failed ∉ e.2 ∧ e.1.line.length ≤ (moved e.2).length) → left = []) := by
  have hlines := h.clean.2.1.calls
  rw [← hsends] at hlines hlen ⊢
  have hlen' : ∀ e ∈ sends, e.1.line.length < 2 ^ 63 := fun e he =>
    hlen _ (List.mem_map_of_mem he)
  have hfits := DString.stringInit_fits.1
  have hall : sends.flatMap (·.1.line) =
      ((sends.map Prod.fst).map (·.text ++ [cr])).flatMap (· ++ [lf]) := by
    rw [List.map_map, List.flatMap_map]
    refine List.flatMap_congr fun e _ => ?_
    rw [WriteCall.line_eq, Function.comp_apply, List.append_assoc]
    rfl
  have hrecords : ∀ record ∈ (sends.map Prod.fst).map (·.text ++ [cr]),
      ∀ b ∈ record, isLf b = false := by
    intro record hrecord
    obtain ⟨call, hcall, rfl⟩ := List.mem_map.mp hrecord
    exact (hlines call hcall).record
  have hprefix := deliver_prefix hfits hlen' hobeys
  rw [hall] at hprefix
  obtain ⟨come, left, hsplit, hcome, hleft⟩ := pieces_prefix (show isLf lf = true from rfl) hrecords hprefix
  obtain ⟨come, left, hcalls, rfl, rfl⟩ := List.map_eq_append_iff.mp hsplit
  refine ⟨come, left, hcalls, hcome, ?_, fun henough => ?_⟩
  · cases left with
    | nil => exact hleft
    | cons call left =>
      refine hleft.trans ⟨[lf], ?_⟩
      change call.text ++ [cr] ++ [lf] = call.line
      rw [WriteCall.line_eq, List.append_assoc]
      rfl
  · have hwhole := deliver_all hfits hlen' hobeys henough
    rw [hwhole, hall, pieces_records rfl hrecords, hcalls, List.map_append] at hcome
    exact List.map_eq_nil_iff.mp (List.append_right_eq_self.mp hcome)

/-- The first line in two parts, and a connection lost in the second. -/
def cutShort : List (WriteCall × List (CallResult Nat)) :=
  [(.writeMsg (ascii "NICK botniklas"), [.moved 7, .eintr, .moved 9]),
   (.writeMsg (ascii "USER botniklas 0 * :botniklas"), [.moved 5, .failed])]

theorem registration_cut_short : ∃ (l : Loop 512) (come left : List WriteCall),
    Reaches (.still 9 (by decide)) .default true l ∧ l.bot.calls = come ++ left ∧
    (pieces isLf (deliver .stringInit cutShort)).1 = come.map (·.text ++ [cr]) := by
  have hopts : Options.default.Clean := ⟨by decide, by decide, by decide, by decide, by decide⟩
  obtain ⟨outcome, hrestore⟩ := restoreState_eq (.still 9 (by decide)) Bot.new.restarted
  have hl := @Reaches.first 512 _ _ ⟨fun _ => 0⟩ _ _ _ hopts rfl hrestore
  have hobeys : Obeying cutShort := by
    refine List.forall_mem_cons.mpr ⟨?_, List.forall_mem_singleton.mpr ?_⟩
    · exact ⟨by decide, fun _ => by decide, fun _ _ => ⟨by decide, fun _ => by decide,
        fun _ hlt => absurd hlt (by decide)⟩⟩
    · exact ⟨by decide, fun _ => by decide, fun _ _ => trivial⟩
  obtain ⟨come, left, hcalls, hcome, -⟩ := @server_receives_lines _ _ _ _ _ hl
    (List.forall_mem_cons.mpr ⟨by decide, List.forall_mem_singleton.mpr (by decide)⟩) cutShort rfl hobeys
  exact ⟨_, come, left, hl, hcalls, hcome⟩

end Sessions
end Botniklas
