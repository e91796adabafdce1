import Botniklas.RoundTrip
import Botniklas.Session

/-! Text without NUL, CR and LF: what the bot writes to the server is made of
it, and what it saves reads back as it. -/
namespace Botniklas
open Foundation Irc

/-- A byte that may stand inside a line. -/
def IsText (b : UInt8) : Prop := b ≠ nul ∧ b ≠ cr ∧ b ≠ lf

instance (b : UInt8) : Decidable (IsText b) := inferInstanceAs (Decidable (_ ∧ _))

def Clean (s : Bytes) : Prop := ∀ b ∈ s, IsText b

instance (s : Bytes) : Decidable (Clean s) := List.decidableBAll IsText s

@[simp] theorem clean_nil : Clean [] := fun _ h => nomatch h

@[simp] theorem clean_cons {b : UInt8} {s : Bytes} : Clean (b :: s) ↔ IsText b ∧ Clean s :=
  List.forall_mem_cons

@[simp] theorem clean_append {s t : Bytes} : Clean (s ++ t) ↔ Clean s ∧ Clean t :=
  List.forall_mem_append

theorem clean_flatten {ss : List Bytes} : Clean ss.flatten ↔ ∀ s ∈ ss, Clean s := by
  induction ss with
  | nil => simp
  | cons s ss ih => simp [ih]

theorem isText_of_isdigit {b : UInt8} (h : isdigit b = true) : IsText b :=
  ⟨isdigit_ne h rfl, isdigit_ne h rfl, isdigit_ne h rfl⟩

@[simp] theorem clean_decimal (n : Nat) : Clean (decimal n) := fun _ h =>
  isText_of_isdigit (isdigit_of_mem_decimal h)

/-- One line: CR and LF at the end and only there, and no NUL. -/
def IsLine (buffer : Bytes) : Prop := ∃ text, buffer = text ++ crlf ∧ Clean text

theorem IsLine.count_lf {buffer : Bytes} (h : IsLine buffer) : buffer.count lf = 1 := by
  obtain ⟨text, rfl, hclean⟩ := h
  have hnone : text.count lf = 0 := List.count_eq_zero.mpr fun hmem => (hclean lf hmem).2.2 rfl
  rw [List.count_append, hnone]
  rfl

theorem isLine_writeMsg {text : Bytes} (h : Clean text) : IsLine (WriteCall.writeMsg text).line :=
  ⟨text, rfl, h⟩

theorem clean_privmsgTo {target : Bytes} (h : Clean target) : Clean (privmsgTo target) := by
  unfold privmsgTo
  rw [clean_append, clean_append]
  exact ⟨⟨by decide, h⟩, by decide⟩

theorem isLine_say {target text : Bytes} (ht : Clean target) (hx : Clean text) :
    IsLine (WriteCall.say target text).line :=
  ⟨privmsgTo target ++ text, rfl, clean_append.mpr ⟨clean_privmsgTo ht, hx⟩⟩

theorem isLine_compose {target : Bytes} {pieces : List Bytes} (ht : Clean target)
    (hp : ∀ p ∈ pieces, Clean p) : IsLine (WriteCall.compose target pieces).line :=
  ⟨privmsgTo target ++ pieces.flatten, rfl,
    clean_append.mpr ⟨clean_privmsgTo ht, clean_flatten.mpr hp⟩⟩

theorem clean_amount (n : Nat) {unit : Bytes} (h : Clean unit) : Clean (amount n unit) := by
  unfold amount
  rw [clean_append, clean_append, clean_cons]
  refine ⟨⟨clean_decimal n, by decide, h⟩, ?_⟩
  split
  · exact clean_nil
  · decide

theorem clean_confirmation (diff : Int) : ∀ p ∈ confirmation diff, Clean p := by
  have some_amount : ∀ (n : Nat) (unit : Bytes), Clean unit →
      ∀ p ∈ if n ≠ 0 then [amount n unit ++ ascii ", "] else [], Clean p := by
    intro n unit hunit p hp
    split at hp
    · rw [List.mem_singleton.mp hp, clean_append]
      exact ⟨clean_amount n hunit, by decide⟩
    · cases hp
  intro p hp
  unfold confirmation at hp
  simp only [List.mem_append] at hp
  rcases hp with (((hp | hp) | hp) | hp) | hp
  · rw [List.mem_singleton.mp hp]
    decide
  · exact some_amount _ _ (by decide) p hp
  · exact some_amount _ _ (by decide) p hp
  · exact some_amount _ _ (by decide) p hp
  · rw [List.mem_singleton.mp hp, clean_append]
    exact ⟨clean_amount _ (by decide), by decide⟩

/-- The strings given on the command line that get into messages. -/
structure Options.Clean (opts : Options) : Prop where
  channel : Botniklas.Clean opts.channel
  nick : Botniklas.Clean opts.nick
  quitMessage : Botniklas.Clean opts.quitMessage
  realname : Botniklas.Clean opts.realname
  username : Botniklas.Clean opts.username

theorem clean_fixedReplies : ∀ text ∈ fixedReplies, Clean text := by decide +kernel

theorem CommandReply.isLine {rep : Bytes} {arg : Option Bytes} {call : WriteCall}
    (h : CommandReply rep arg call) (hrep : Clean rep) (harg : ∀ s ∈ arg, Clean s) :
    IsLine call.line := by
  cases h with
  | commands => exact isLine_compose hrep (by decide)
  | fixed ht => exact isLine_say hrep (clean_fixedReplies _ ht)
  | echo ha => exact isLine_say hrep (harg _ ha)
  | unknown ha =>
    apply isLine_say hrep
    rw [clean_append, clean_append]
    exact ⟨⟨by decide, harg _ ha⟩, by decide⟩
  | confirmation diff => exact isLine_compose hrep (clean_confirmation diff)

/-- Replies to a clean message are lines. -/
theorem Reply.isLine {opts : Options} {msg : MsgView} {writer : Writer} {call : WriteCall}
    (h : Reply opts msg writer call) (hopts : opts.Clean) (hmsg : msg.All IsText) :
    IsLine call.line := by
  cases h with
  | pong hs =>
    exact isLine_writeMsg (clean_append.mpr ⟨by decide, hmsg.params _ hs⟩)
  | join => exact isLine_writeMsg (clean_append.mpr ⟨by decide, hopts.channel⟩)
  | congratulation hn =>
    exact isLine_say (by decide) (clean_append.mpr ⟨hmsg.nick _ hn, by decide⟩)
  | command ht hx hrep hcall =>
    refine hcall.isLine (replyTarget_all hmsg ht hrep) fun arg harg b hb => ?_
    exact hmsg.params _ (List.mem_of_getElem? hx) b (mem_of_mem_commandArg harg hb)

/-! The file: every line in it ends in a whole record, so a target read from it
ends on the line it starts on. -/

def isLf (b : UInt8) : Bool := b = lf

structure SafeFile (file : Bytes) : Prop where
  bytes : ∀ b ∈ file, b ≠ nul ∧ b ≠ cr
  lines : ∀ l ∈ (pieces isLf file).1, 2 ≤ l.count space

theorem Clean.not_isLf {s : Bytes} (h : Clean s) : ∀ b ∈ s, isLf b = false := fun b hb =>
  decide_eq_false (h b hb).2.2

theorem safeFile_nil : SafeFile [] := ⟨by simp, by simp [pieces]⟩

namespace SafeFile
variable {file d : Bytes}

private theorem append_bytes {u : Bytes} (h : ∀ b ∈ file, b ≠ nul ∧ b ≠ cr)
    (hu : ∀ b ∈ u, b ≠ nul ∧ b ≠ cr) : ∀ b ∈ file ++ u, b ≠ nul ∧ b ≠ cr :=
  List.forall_mem_append.mpr ⟨h, hu⟩

private theorem tail_append (hd : Clean d) : ∀ b ∈ (pieces isLf file).2 ++ d, isLf b = false :=
  List.forall_mem_append.mpr ⟨pieces_tail file, hd.not_isLf⟩

theorem append_text (h : SafeFile file) (hd : Clean d) : SafeFile (file ++ d) := by
  refine ⟨append_bytes h.bytes fun b hb => ⟨(hd b hb).1, (hd b hb).2.1⟩, ?_⟩
  rw [pieces_append, pieces_of_open (tail_append hd), List.append_nil]
  exact h.lines

theorem append_line (h : SafeFile file) (hd : Clean d) (hspaces : 2 ≤ d.count space) :
    SafeFile (file ++ (d ++ [lf])) := by
  refine ⟨append_bytes h.bytes ?_, ?_⟩
  · intro b hb
    rcases List.mem_append.mp hb with hb | hb
    · exact ⟨(hd b hb).1, (hd b hb).2.1⟩
    · rw [List.mem_singleton.mp hb]
      decide
  · rw [pieces_append, ← List.append_assoc, pieces_cut (tail_append hd) rfl]
    intro l hl
    rcases List.mem_append.mp hl with hl | hl
    · exact h.lines l hl
    · rw [List.mem_singleton.mp hl, List.count_append]
      exact hspaces.trans (Nat.le_add_left _ _)

/-- A record, or what was written of it, keeps the file safe. -/
theorem append_file {outcome : Append} {old : Option Bytes} {when : Int} {target text : Bytes}
    (h : ∀ file ∈ old, SafeFile file) (hwhen : 0 ≤ when) (ht : Clean target) (hx : Clean text) :
    ∀ file ∈ outcome.file old (record when target text), SafeFile file := by
  have hold : SafeFile (old.getD []) := by
    cases old with
    | none => exact safeFile_nil
    | some file => exact h file rfl
  have hd : Clean (decimal when.toNat ++ space :: target ++ space :: text) := by
    simp only [clean_append, clean_cons, clean_decimal]
    exact ⟨⟨trivial, by decide, ht⟩, by decide, hx⟩
  have hspaces : 2 ≤ (decimal when.toNat ++ space :: target ++ space :: text).count space := by
    simp only [List.count_append, List.count_cons_self]
    omega
  unfold record
  rw [decimalInt_of_nonneg hwhen]
  generalize decimal when.toNat ++ space :: target ++ space :: text = d at hd hspaces
  intro file hfile
  cases outcome with
  | whole =>
    cases hfile
    exact hold.append_line hd hspaces
  | cut n =>
    cases hfile
    rw [List.take_append]
    rcases Nat.eq_zero_or_pos (n - d.length) with hn | hn
    · rw [hn, List.take_zero, List.append_nil]
      exact hold.append_text fun b hb => hd b (List.mem_of_mem_take hb)
    · rw [List.take_of_length_le (by omega), List.take_of_length_le (show [lf].length ≤ _ from hn)]
      exact hold.append_line hd hspaces
  | unopened => exact h file hfile

/-- The first record of a safe file stands on a line of its own. -/
private theorem record_clean {w rest : Bytes} {r : Reminder} (h : SafeFile w)
    (hrec : scanRecord w = .ok (r, rest)) : Clean r.target ∧ Clean r.text ∧ SafeFile rest := by
  obtain ⟨num, hr, rfl⟩ := scanRecord_ok_iff.mp hrec
  obtain ⟨hbytes, hlines⟩ := h
  have hnum : ∀ b ∈ num, isLf b = false := fun b hb =>
    (show Clean num from fun b hb => isText_of_isdigit (hr.digits.2 b hb)).not_isLf b hb
  have hdigits : num.count space = 0 := List.count_eq_zero.mpr fun hb =>
    absurd (hr.digits.2 _ hb) (by decide)
  have htarget : lf ∉ r.target := by
    intro hlf
    obtain ⟨a, b, hab, ha⟩ := List.eq_append_cons_of_mem hlf
    have hopen : ∀ b ∈ num ++ space :: a, isLf b = false := by
      simp only [List.forall_mem_append, List.forall_mem_cons]
      exact ⟨hnum, rfl, fun b hb => decide_eq_false fun he => ha (he ▸ hb)⟩
    have hcount : a.count space = 0 := List.count_eq_zero.mpr fun hb =>
      hr.target.2 (by rw [hab]; exact List.mem_append_left _ hb)
    have hw : num ++ space :: r.target ++ space :: r.text ++ lf :: rest =
        (num ++ space :: a) ++ lf :: (b ++ space :: r.text ++ lf :: rest) := by
      rw [hab]
      simp
    rw [hw, pieces_cut hopen rfl] at hlines
    have := hlines _ (.head _)
    rw [List.count_append, List.count_cons_self, hdigits, hcount] at this
    omega
  have clean_of : ∀ {s : Bytes}, (∀ b ∈ s, b ∈ num ++ space :: r.target ++ space :: r.text ++ lf :: rest) →
      lf ∉ s → Clean s := fun hsub hlf b hb =>
    ⟨(hbytes b (hsub b hb)).1, (hbytes b (hsub b hb)).2, fun he => hlf (he ▸ hb)⟩
  refine ⟨clean_of (fun b hb => by simp [hb]) htarget, clean_of (fun b hb => by simp [hb]) hr.text.2,
    ⟨fun b hb => hbytes b (by simp [hb]), ?_⟩⟩
  have hopen : ∀ b ∈ num ++ space :: r.target ++ space :: r.text, isLf b = false := by
    simp only [List.forall_mem_append, List.forall_mem_cons]
    exact ⟨⟨hnum, rfl, fun b hb => decide_eq_false fun he => htarget (he ▸ hb)⟩, rfl,
      fun b hb => decide_eq_false fun he => hr.text.2 (he ▸ hb)⟩
  rw [pieces_cut hopen rfl] at hlines
  exact fun l hl => hlines l (.tail _ hl)

/-- What is read from a safe file is clean. -/
theorem scan_clean (h : SafeFile file) :
    ∀ r ∈ (scanFile file).1, Clean r.target ∧ Clean r.text := by
  induction hlen : file.length using Nat.strongRecOn generalizing file with
  | ind n ih =>
    cases hrec : scanRecord file with
    | error text =>
      rw [scanFile_eq, hrec]
      split_ifs <;> exact fun _ hr => nomatch hr
    | ok p =>
      obtain ⟨r, rest⟩ := p
      obtain ⟨ht, hx, hrest⟩ := h.record_clean hrec
      rw [scanFile_cons hrec]
      intro r' hr'
      rcases List.mem_cons.mp hr' with rfl | hr'
      · exact ⟨ht, hx⟩
      · exact ih rest.length (hlen ▸ length_scanRecord hrec) hrest rfl r' hr'

end SafeFile
end Botniklas
