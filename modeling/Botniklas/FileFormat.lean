import Botniklas.RoundTrip

/-! The line format of the reminders file, and where the scanner leaves it: a
field loop that runs past the end of its line. -/
namespace Botniklas
open Foundation Irc

/-- A line of the format, without its newline: digits, a target and a text. -/
def FormatLine (l : Bytes) (r : Reminder) : Prop :=
  ∃ num, RecordOf num r ∧ lf ∉ r.target ∧ l = num ++ space :: r.target ++ space :: r.text

/-- `rs` stand on the longest prefix of lines of the format; `rest` follows. -/
structure LongestFormat (file : Bytes) (rs : List Reminder) (rest : Bytes) : Prop where
  lines : ∃ ls, List.Forall₂ FormatLine ls rs ∧ file = ls.flatMap (· ++ [lf]) ++ rest
  maximal : ∀ l r rest', FormatLine l r → rest ≠ l ++ lf :: rest'

/-- The reminders of the format that are not past get registered, with their own
targets and texts, and the scan stops where the format does. -/
def RestoresFormat (env : Env) (bot : Bot) (rs : List Reminder) (rest : Bytes) : Prop :=
  ∃ outcome bot', restoreRemindState env bot = .ok (outcome, bot') ∧
    bot'.queue = bot.queue.addAll (due (env.clock.now bot.instant) rs) ∧
    (∀ r ∈ rs, target r.registration.data = r.target ∧ reminder r.registration.data = r.text) ∧
    if AtEnd rest then outcome = .finished else ∃ text, outcome = .rejected (rs.length + 1) text

/-- A record whose target runs over the end of its line. -/
def SpansLines (rest : Bytes) : Prop :=
  ∃ num r rest', RecordOf num r ∧ lf ∈ r.target ∧
    rest = num ++ space :: r.target ++ space :: r.text ++ lf :: rest'

private theorem FormatLine.scanRecord {l : Bytes} {r : Reminder} (h : FormatLine l r) (rest : Bytes) :
    scanRecord (l ++ lf :: rest) = .ok (r, rest) := by
  obtain ⟨num, hrec, -, rfl⟩ := h
  exact scanRecord_ok_iff.mpr ⟨num, hrec, rfl⟩

private theorem scanFile_lines {ls : List Bytes} {rs : List Reminder}
    (h : List.Forall₂ FormatLine ls rs) (rest : Bytes) :
    scanFile (ls.flatMap (· ++ [lf]) ++ rest) = (rs ++ (scanFile rest).1, (scanFile rest).2) := by
  induction h with
  | nil => rfl
  | @cons l r ls rs hl _ ih =>
    have hscan := hl.scanRecord (ls.flatMap (· ++ [lf]) ++ rest)
    rw [List.flatMap_cons, List.append_assoc, List.append_assoc, List.singleton_append,
      scanFile_cons hscan, ih]
    rfl

private theorem mem_lines {ls : List Bytes} {rs : List Reminder} {r : Reminder}
    (h : List.Forall₂ FormatLine ls rs) (hr : r ∈ rs) : ∃ l ∈ ls, FormatLine l r := by
  induction h with
  | nil => cases hr
  | cons hl _ ih =>
    rcases List.mem_cons.mp hr with rfl | hr
    · exact ⟨_, .head _, hl⟩
    · obtain ⟨l, hmem, hline⟩ := ih hr
      exact ⟨l, .tail _ hmem, hline⟩

/-- The packed arrays of lines without a terminator hold their targets and texts. -/
private theorem registration_of_lines {ls : List Bytes} {rs : List Reminder}
    (h : List.Forall₂ FormatLine ls rs) (hnul : nul ∉ ls.flatMap (· ++ [lf])) :
    ∀ r ∈ rs, target r.registration.data = r.target ∧ reminder r.registration.data = r.text := by
  intro r hr
  obtain ⟨l, hl, num, -, -, rfl⟩ := mem_lines h hr
  have hfree : nul ∉ num ++ space :: r.target ++ space :: r.text := fun hb =>
    hnul (List.mem_flatMap.mpr ⟨_, hl, List.mem_append_left _ hb⟩)
  have htarget : nul ∉ r.target := fun hb => hfree (by simp [hb])
  have htext : nul ∉ r.text := fun hb => hfree (by simp [hb])
  exact ⟨target_reminderData htarget, reminder_reminderData htarget htext⟩

/-- What the scanner makes of the bytes after the longest prefix. -/
private theorem scanRecord_rest {rest : Bytes}
    (hmax : ∀ l r rest', FormatLine l r → rest ≠ l ++ lf :: rest') :
    (¬ SpansLines rest ∧ ∃ text, scanRecord rest = .error text) ∨
    (SpansLines rest ∧ ∃ r rest', scanRecord rest = .ok (r, rest')) := by
  cases h : scanRecord rest with
  | error text =>
    refine .inl ⟨?_, text, rfl⟩
    rintro ⟨num, r, rest', hrec, -, he⟩
    rw [scanRecord_ok_iff.mpr ⟨num, hrec, he⟩] at h
    cases h
  | ok p =>
    obtain ⟨r, rest'⟩ := p
    obtain ⟨num, hrec, he⟩ := scanRecord_ok_iff.mp h
    refine .inr ⟨⟨num, r, rest', hrec, ?_, he⟩, r, rest', rfl⟩
    by_contra hlf
    exact hmax _ r rest' ⟨num, hrec, hlf, rfl⟩ he

theorem longestFormat_exists (file : Bytes) : ∃ rs rest, LongestFormat file rs rest := by
  induction h : file.length using Nat.strongRecOn generalizing file with
  | ind n ih =>
    by_cases hl : ∃ l r rest', FormatLine l r ∧ file = l ++ lf :: rest'
    · obtain ⟨l, r, rest', hline, rfl⟩ := hl
      obtain ⟨rs, rest, ⟨ls, hls, rfl⟩, hmax⟩ := ih rest'.length (by simp at h; omega) rest' rfl
      exact ⟨r :: rs, rest, ⟨l :: ls, .cons hline hls, by simp⟩, hmax⟩
    · exact ⟨[], file, ⟨[], .nil, rfl⟩, fun l r rest' hline he => hl ⟨l, r, rest', hline, he⟩⟩

theorem LongestFormat.unique {file rest rest' : Bytes} {rs rs' : List Reminder}
    (h : LongestFormat file rs rest) (h' : LongestFormat file rs' rest') :
    rs = rs' ∧ rest = rest' := by
  obtain ⟨⟨ls, hls, rfl⟩, hmax⟩ := h
  obtain ⟨⟨ls', hls', he⟩, hmax'⟩ := h'
  induction hls generalizing ls' rs' with
  | nil =>
    cases hls' with
    | nil => exact ⟨rfl, by simpa using he⟩
    | cons hl _ => exact absurd (by simpa using he) (hmax _ _ _ hl)
  | @cons l r ls rs hl _ ih =>
    cases hls' with
    | nil => exact absurd (by simpa using he.symm) (hmax' _ _ _ hl)
    | @cons l' r' ls' rs' hl' htail =>
      simp only [List.flatMap_cons, List.append_assoc, List.cons_append, List.nil_append] at he
      have hscan := hl.scanRecord (ls.flatMap (· ++ [lf]) ++ rest)
      rw [he, hl'.scanRecord] at hscan
      obtain ⟨rfl, hrest⟩ := Prod.mk.inj (Except.ok.inj hscan)
      obtain ⟨rfl, hrest'⟩ := ih _ htail hrest.symm
      exact ⟨rfl, hrest'⟩

/-- `restore_remind_state` accepts exactly the line format if and only if the
first bytes outside it are no record whose target contains a newline. -/
theorem restore_accepts_format_iff (env : Env) {bot : Bot} {file : Bytes}
    (hfile : bot.reminders = some file) (hnul : nul ∉ file) :
    ∃ rs rest, (∀ rs' rest', LongestFormat file rs' rest' ↔ rs' = rs ∧ rest' = rest) ∧
      (RestoresFormat env bot rs rest ↔ ¬ SpansLines rest) := by
  obtain ⟨rs, rest, hfmt⟩ := longestFormat_exists file
  refine ⟨rs, rest, fun rs' rest' => ⟨fun h => h.unique hfmt, ?_⟩, ?_⟩
  · rintro ⟨rfl, rfl⟩
    exact hfmt
  obtain ⟨⟨ls, hls, hbytes⟩, hmax⟩ := hfmt
  have hscan := scanFile_lines hls rest
  rw [← hbytes] at hscan
  have hrun := restoreRemindState_some env hfile
  rw [hscan] at hrun
  have hdata := registration_of_lines hls fun hb => hnul (hbytes ▸ List.mem_append_left rest hb)
  by_cases hend : AtEnd rest
  · have hno : ¬ SpansLines rest := by
      rintro ⟨num, r, rest', hrec, -, he⟩
      exact not_atEnd_of_scanRecord (scanRecord_ok_iff.mpr ⟨num, hrec, he⟩) hend
    rw [scanFile_eq, if_pos hend, List.append_nil] at hrun
    exact ⟨fun _ => hno, fun _ => ⟨_, _, hrun, rfl, hdata, by rw [if_pos hend]; rfl⟩⟩
  · rcases scanRecord_rest hmax with ⟨hno, text, herr⟩ | ⟨hspan, r, rest', hok⟩
    · rw [scanFile_eq, if_neg hend, herr, List.append_nil] at hrun
      refine ⟨fun _ => hno, fun _ => ⟨_, _, hrun, rfl, hdata, ?_⟩⟩
      rw [if_neg hend]
      exact ⟨text, restoredAt_rejected_iff.mpr ⟨rfl, Nat.add_comm _ _⟩⟩
    · -- the scanner takes one record more than the format has
      rw [scanFile_cons hok] at hrun
      refine ⟨?_, fun hno => absurd hspan hno⟩
      rintro ⟨outcome, bot', hrun', -, -, hout⟩
      rw [hrun] at hrun'
      obtain ⟨rfl, -⟩ := Prod.mk.inj (Except.ok.inj hrun')
      rw [if_neg hend] at hout
      obtain ⟨text, hout⟩ := hout
      have hline := (restoredAt_rejected_iff.mp hout).2
      rw [List.length_append, List.length_cons] at hline
      omega

/-- The target of the second line's reminder starts on the first line. -/
theorem target_over_two_lines :
    LongestFormat (ascii "1 a\n2 b c\n") [] (ascii "1 a\n2 b c\n") ∧
    ¬ RestoresFormat (.still 1 (by decide))
      { Bot.new with reminders := some (ascii "1 a\n2 b c\n") } [] (ascii "1 a\n2 b c\n") := by
  have hscan : scanRecord (ascii "1 a\n2 b c\n") = .ok (⟨1, ascii "a\n2", ascii "b c"⟩, []) := by
    decide
  refine ⟨⟨⟨[], .nil, rfl⟩, ?_⟩, ?_⟩
  · intro l r rest' hline he
    rw [he, hline.scanRecord] at hscan
    obtain ⟨num, -, hlf, -⟩ := hline
    obtain ⟨rfl, -⟩ := Prod.mk.inj (Except.ok.inj hscan)
    exact hlf (by decide)
  · rintro ⟨outcome, bot', hrun, -, -, hout⟩
    obtain ⟨rfl, -⟩ := Prod.mk.inj (Except.ok.inj ((restoreRemindState_some _ rfl).symm.trans hrun))
    rw [if_neg (by decide), scanFile_cons hscan] at hout
    obtain ⟨text, hout⟩ := hout
    cases hout

theorem restore_accepts_two_lines : RestoresFormat (.still 3 (by decide))
    { Bot.new with reminders := some (ascii "5 a b\n2 c d\n!") }
    [⟨5, ascii "a", ascii "b"⟩, ⟨2, ascii "c", ascii "d"⟩] (ascii "!") := by
  have hno : ∀ r rest, scanRecord (ascii "!") ≠ .ok (r, rest) := by
    intro r rest h
    cases h
  have hfmt : LongestFormat (ascii "5 a b\n2 c d\n!")
      [⟨5, ascii "a", ascii "b"⟩, ⟨2, ascii "c", ascii "d"⟩] (ascii "!") := by
    refine ⟨⟨[ascii "5 a b", ascii "2 c d"], .cons ?_ (.cons ?_ .nil), rfl⟩, ?_⟩
    · exact ⟨ascii "5", ⟨⟨by decide, List.all_eq_true.mp rfl⟩, by decide, by decide, by decide,
        by decide⟩, by decide, rfl⟩
    · exact ⟨ascii "2", ⟨⟨by decide, List.all_eq_true.mp rfl⟩, by decide, by decide, by decide,
        by decide⟩, by decide, rfl⟩
    · intro l r rest' hline he
      exact hno r rest' (he ▸ hline.scanRecord rest')
  obtain ⟨rs, rest, huniq, hiff⟩ := restore_accepts_format_iff (.still 3 (by decide))
    (show ({ Bot.new with reminders := some (ascii "5 a b\n2 c d\n!") } : Bot).reminders = _ from rfl)
    (by decide)
  obtain ⟨rfl, rfl⟩ := (huniq _ _).mp hfmt
  apply hiff.mpr
  rintro ⟨num, r, rest', hrec, -, he⟩
  exact hno r rest' (scanRecord_ok_iff.mpr ⟨num, hrec, he⟩)

end Botniklas
