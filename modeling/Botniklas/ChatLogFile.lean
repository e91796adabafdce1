import Botniklas.Foundation.Timestamp
import Botniklas.Clean
import Botniklas.ParseDate
import Botniklas.Responses

/-! The chat log as the file it is: one line for each entry, the time in front. -/
namespace Botniklas
open Foundation Irc Calendar

/-- `format_now` for `%c`, with the time it reads. `localtime_r` fails if the year does not
fit in an int, `strftime` if the text does not fit in the buffer. -/
def formatNow (zone now : Int) : Option Bytes :=
  if now = -1 then none
  else
    let tm := localtime zone now
    if tm.year < -2 ^ 31 ∨ 2 ^ 31 ≤ tm.year then none
    else
      let timeStr := timestamp (weekday (now + zone)) tm
      if timeStr.length < 64 then some timeStr else none

/-- What `log_append` writes. -/
def logEntry (zone now : Int) (text : Bytes) : Option Bytes :=
  (formatNow zone now).map fun timeStr => timeStr ++ ascii "  " ++ text ++ [lf]

/-- The file after a call of `log_append`. -/
def logAppendFile (zone : Int) (file : Option Bytes) (outcome : Append) (now : Int)
    (text : Bytes) : Option Bytes :=
  match logEntry zone now text with
  | none => file
  | some entry => outcome.file file entry

/-- The file after some entries, each with what became of its append. -/
def chatLogFile (zone : Int) (file : Option Bytes) : List (Append × Int × Bytes) → Option Bytes
  | [] => file
  | (outcome, now, text) :: entries =>
    chatLogFile zone (logAppendFile zone file outcome now text) entries

/-- The entries appended whole where a line starts. -/
def ownLines (zone : Int) (file : Option Bytes) :
    List (Append × Int × Bytes) → List (Int × Bytes)
  | [] => []
  | (outcome, now, text) :: entries =>
    let rest := ownLines zone (logAppendFile zone file outcome now text) entries
    if outcome = .whole ∧ (pieces isLf (file.getD [])).2 = [] then (now, text) :: rest else rest

/-- The time and the text of a line of the file. -/
def readEntry (zone : Int) (line : Bytes) : Option (Int × Bytes) :=
  match readTimestamp line with
  | none => none
  | some (tm, rest) =>
    if rest.take 2 = ascii "  " then some ((mktime zone tm).1, rest.drop 2) else none

section Entry
variable {zone now : Int} {text : Bytes}

/-- The year of a time that is positive and no more than some thousand million years on. -/
theorem year_bounds (hzone : IsOffset zone) (hlo : 0 < now) (hhi : now < 2 ^ 55) :
    69 ≤ (localtime zone now).year ∧ (localtime zone now).year < 2 ^ 31 := by
  obtain ⟨hle, hlt⟩ := yearOf_spec ((now + zone) / 86400)
  have hyear : (localtime zone now).year = yearOf ((now + zone) / 86400) - 1900 := rfl
  obtain ⟨hz, hz'⟩ := hzone
  generalize yearOf ((now + zone) / 86400) = y at hle hlt hyear
  rw [hyear]
  constructor
  · by_contra hsmall
    have hmono := daysBeforeYear_mono (show y + 1 ≤ 1969 by omega)
    have hstart : daysBeforeYear 1969 = -365 := by decide
    omega
  · by_contra hbig
    have hmono := daysBeforeYear_mono (show (2147483648 : Int) ≤ y by omega)
    have hstart : daysBeforeYear 2147483648 = 784351576777 := by decide
    omega

/-- An entry is one line, from which its time and its text are read back. -/
theorem logEntry_eq (hzone : IsOffset zone) (hlo : 0 < now) (hhi : now < 2 ^ 55)
    (htext : Clean text) : ∃ line, logEntry zone now text = some (line ++ [lf]) ∧
      (∀ b ∈ line, isLf b = false) ∧ readEntry zone line = some (now, text) := by
  obtain ⟨hyear, hyear'⟩ := year_bounds hzone hlo hhi
  have hrange : (localtime zone now).InRange := Tm.ofSeconds_inRange (now + zone)
  have hpos : 0 ≤ (localtime zone now).year + 1900 := by omega
  have hlen := length_timestamp hrange hpos (weekday (now + zone))
  have hdigits : (decimal ((localtime zone now).year + 1900).toNat).length ≤ 10 :=
    length_decimal_le (by decide) (by omega)
  have hformat : formatNow zone now =
      some (timestamp (weekday (now + zone)) (localtime zone now)) := by
    unfold formatNow
    dsimp only
    rw [if_neg (by omega), if_neg (by omega), if_pos (by omega)]
  refine ⟨timestamp (weekday (now + zone)) (localtime zone now) ++ (ascii "  " ++ text), ?_, ?_, ?_⟩
  · unfold logEntry
    rw [hformat, Option.map_some, List.append_assoc _ (ascii "  ") text]
  · have hprintable := timestamp_printable hrange hpos (weekday (now + zone))
    refine List.forall_mem_append.mpr ⟨fun b hb => ?_, ?_⟩
    · refine decide_eq_false fun he => ?_
      have hle := hprintable b hb
      rw [he] at hle
      exact absurd hle (by decide)
    · exact List.forall_mem_append.mpr ⟨List.all_iff_forall_prop.mp rfl, htext.not_isLf⟩
  · have hread := readTimestamp_timestamp hrange hpos
      (show ∀ b ∈ (ascii "  " ++ text).head?, isdigit b = false from by
        rintro _ ⟨rfl⟩
        decide) (weekday (now + zone))
    unfold readEntry
    rw [hread]
    change some ((localtime zone now).seconds - zone, text) = _
    unfold localtime
    rw [Tm.seconds_ofSeconds, Int.add_sub_cancel]

end Entry

section File
variable {zone now : Int} {text : Bytes} {entries : List (Append × Int × Bytes)}

/-- What an entry can have been made at and of. -/
structure Loggable (now : Int) (text : Bytes) : Prop where
  pos : 0 < now
  lt : now < 2 ^ 55
  clean : Clean text

theorem logAppendFile_eq (hzone : IsOffset zone) (h : Loggable now text) (file : Option Bytes) :
    ∃ line, (∀ outcome : Append, logAppendFile zone file outcome now text =
        outcome.file file (line ++ [lf])) ∧
      (∀ b ∈ line, isLf b = false) ∧ readEntry zone line = some (now, text) := by
  obtain ⟨line, hentry, hline, hread⟩ := logEntry_eq hzone h.pos h.lt h.clean
  refine ⟨line, fun outcome => ?_, hline, hread⟩
  unfold logAppendFile
  rw [hentry]

/-- One more line in a file of whole lines. -/
theorem pieces_fullLine {file line : Bytes} (hfile : (pieces isLf file).2 = [])
    (hline : ∀ b ∈ line, isLf b = false) :
    pieces isLf (file ++ (line ++ [lf])) = ((pieces isLf file).1 ++ [line], []) := by
  have hlf : isLf lf = true := rfl
  rw [pieces_append, hfile, List.nil_append, pieces_cut hline hlf]
  rfl

/-- Whatever becomes of the others, an entry that is appended whole where a line starts is a
line of its own, which reads as it. -/
theorem chatLogFile_own (hzone : IsOffset zone) (hentries : ∀ e ∈ entries, Loggable e.2.1 e.2.2)
    (file : Option Bytes) :
    ∃ lines, (pieces isLf ((chatLogFile zone file entries).getD [])).1 =
        (pieces isLf (file.getD [])).1 ++ lines ∧
      ((ownLines zone file entries).map some).Sublist (lines.map (readEntry zone)) := by
  induction entries generalizing file with
  | nil => exact ⟨[], (List.append_nil _).symm, .slnil⟩
  | cons e entries ih =>
    obtain ⟨outcome, now, text⟩ := e
    obtain ⟨hentry, hrest⟩ := List.forall_mem_cons.mp hentries
    obtain ⟨line, happend, hline, hread⟩ := logAppendFile_eq hzone hentry file
    obtain ⟨lines, hlines, hreads⟩ := ih hrest (logAppendFile zone file outcome now text)
    by_cases hown : outcome = .whole ∧ (pieces isLf (file.getD [])).2 = []
    · obtain ⟨rfl, hfile⟩ := hown
      refine ⟨line :: lines, ?_, ?_⟩
      · change (pieces isLf ((chatLogFile zone _ entries).getD [])).1 = _
        rw [hlines, happend]
        change (pieces isLf (file.getD [] ++ (line ++ [lf]))).1 ++ lines = _
        rw [pieces_fullLine hfile hline, List.append_assoc]
        rfl
      · unfold ownLines
        rw [if_pos ⟨rfl, hfile⟩, List.map_cons, List.map_cons, hread]
        exact hreads.cons_cons _
    · have hmore : ∃ more, (pieces isLf ((logAppendFile zone file outcome now text).getD [])).1 =
          (pieces isLf (file.getD [])).1 ++ more := by
        rw [happend]
        cases outcome with
        | whole => exact ⟨_, congrArg Prod.fst (pieces_append _ _)⟩
        | cut n => exact ⟨_, congrArg Prod.fst (pieces_append _ _)⟩
        | unopened => exact ⟨[], (List.append_nil _).symm⟩
      obtain ⟨more, hmore⟩ := hmore
      refine ⟨more ++ lines, ?_, ?_⟩
      · change (pieces isLf ((chatLogFile zone _ entries).getD [])).1 = _
        rw [hlines, hmore, List.append_assoc]
      · unfold ownLines
        rw [if_neg hown, List.map_append]
        exact hreads.trans (List.sublist_append_right _ _)

/-- A file of whole lines, after some entries none of whose appends was cut short: each
entry appended is a line of its own, and there are no others. -/
theorem chatLogFile_lines (hzone : IsOffset zone) (hentries : ∀ e ∈ entries, Loggable e.2.1 e.2.2)
    (houtcomes : ∀ e ∈ entries, e.1 = .whole ∨ e.1 = .unopened) (file : Option Bytes)
    (hfile : (pieces isLf (file.getD [])).2 = []) :
    ∃ lines, pieces isLf ((chatLogFile zone file entries).getD []) =
        ((pieces isLf (file.getD [])).1 ++ lines, []) ∧
      lines.map (readEntry zone) =
        (entries.filter fun e => e.1 = .whole).map fun e => some e.2 := by
  induction entries generalizing file with
  | nil => exact ⟨[], Prod.ext (List.append_nil _).symm hfile, rfl⟩
  | cons e entries ih =>
    obtain ⟨outcome, now, text⟩ := e
    obtain ⟨hentry, hrest⟩ := List.forall_mem_cons.mp hentries
    obtain ⟨houtcome, hothers⟩ := List.forall_mem_cons.mp houtcomes
    obtain ⟨line, happend, hline, hread⟩ := logAppendFile_eq hzone hentry file
    unfold chatLogFile
    rw [happend]
    rcases houtcome with rfl | rfl
    · have hpieces := pieces_fullLine hfile hline
      obtain ⟨lines, hlines, hreads⟩ := ih hrest hothers (some (file.getD [] ++ (line ++ [lf])))
        (congrArg Prod.snd hpieces)
      refine ⟨line :: lines, ?_, ?_⟩
      · change pieces isLf ((chatLogFile zone (some _) entries).getD []) = _
        rw [hlines, Option.getD_some, hpieces, List.append_assoc]
        rfl
      · rw [List.map_cons, hread, hreads, List.filter_cons_of_pos rfl, List.map_cons]
    · obtain ⟨lines, hlines, hreads⟩ := ih hrest hothers file hfile
      refine ⟨lines, hlines, ?_⟩
      rw [hreads, List.filter_cons_of_neg Bool.false_ne_true]

end File

section Texts
variable {nick user text : Bytes} {host : Option Bytes}

theorem clean_hostmask (hnick : Clean nick) (huser : Clean user) (hhost : ∀ s ∈ host, Clean s) :
    Clean (hostmask nick user host) := by
  unfold hostmask
  simp only [clean_append]
  refine ⟨⟨⟨⟨⟨hnick, by decide⟩, huser⟩, by decide⟩, ?_⟩, by decide⟩
  cases host with
  | none => decide
  | some s => exact hhost s rfl

/-- What is logged of a message is made of its strings. -/
theorem clean_userText {cmd : Bytes} {params : List Bytes} (hnick : Clean nick)
    (huser : Clean user) (hhost : ∀ s ∈ host, Clean s) (hparams : ∀ p ∈ params, Clean p)
    (h : userText nick user host cmd params = some text) : Clean text := by
  have hmask := clean_hostmask hnick huser hhost
  unfold userText at h
  split_ifs at h
  -- A command with so many parameters has one text, made of the parameters.
  all_goals
    split at h
    all_goals cases h
    all_goals simp only [clean_append, hmask, hnick, true_and, and_true]
  all_goals
    first
    | decide
    | simp only [List.forall_mem_cons] at hparams
      simp only [hparams, true_and, and_true]
      decide

theorem clean_logText {msg : MsgView} (hmsg : msg.All IsText) (h : logText msg = some text) :
    Clean text := by
  obtain ⟨-, hnick, huser, hhost, -, hparams⟩ := hmsg
  unfold logText at h
  split at h
  · rename_i hn hu
    exact clean_userText (hnick _ hn) (huser _ hu) hhost hparams h
  · cases h

/-- A message in the stream is made of what may stand in a line. -/
theorem isText_messages {got : Bytes} {msg : MsgView} (h : msg ∈ messages got) :
    msg.All IsText := by
  obtain ⟨w, hw, hmsg⟩ := List.mem_filterMap.mp h
  have hraw := mem_pieces hw
  by_cases hempty : nul ∈ w ∨ w = []
  · cases (if_pos hempty).symm.trans hmsg
  · obtain ⟨h0, hne⟩ := not_or.mp hempty
    rw [acceptedMsg_eq h0 hne] at hmsg
    split at hmsg
    · rename_i g hparse
      cases hmsg
      obtain ⟨-, rfl⟩ := (parseMsg_ok_iff _ _).mp hparse
      apply Grammar.view_all
      intro b hb
      obtain ⟨heol, -⟩ := hraw b hb
      simp only [isEol, Bool.or_eq_false_iff, decide_eq_false_iff_not] at heol
      exact ⟨fun he => h0 (he ▸ hb), heol⟩
    · cases hmsg

end Texts

section MainLoop
variable {pageSize : Nat} {env : Env} {opts : Options} {bot₀ bot₁ : Bot} {outcome : Restored}
  {l : Loop pageSize} {page : Mem (.mirror pageSize)} {got : Bytes}

/-- The log has one entry for each message to be logged, and whatever becomes of their
appends, each that is appended whole where a line starts is read back from the file, its time
and its text; if none is cut short the file has exactly these lines. -/
theorem chat_log_reads_back (hqueue : bot₀.queue = .empty)
    (hrestore : restoreState env bot₀ = .ok (outcome, bot₁))
    (hrun : Loop.Run env opts (Loop.enter page (connectToIrcServer opts bot₁)) got l)
    (hzone : IsOffset env.zone) (hclock : ∀ n, env.clock.now n < 2 ^ 55) :
    ∃ entries, l.bot.chatLog = bot₁.chatLog ++ entries ∧
      entries.map Prod.snd = (messages got).filterMap logText ∧
      ∀ (log : List (Append × Int × Bytes)) (old : Option Bytes), log.map Prod.snd = entries →
        ∃ lines, (pieces isLf ((chatLogFile env.zone old log).getD [])).1 =
            (pieces isLf (old.getD [])).1 ++ lines ∧
          ((ownLines env.zone old log).map some).Sublist (lines.map (readEntry env.zone)) ∧
          ((∀ e ∈ log, e.1 = .whole ∨ e.1 = .unopened) → (pieces isLf (old.getD [])).2 = [] →
            lines.map (readEntry env.zone) =
              (log.filter fun e => e.1 = .whole).map fun e => some e.2) := by
  obtain ⟨hs, hr⟩ := hrun.refines (entered_inv page hqueue hrestore)
  obtain ⟨entries, hlog, htexts, -, hbounds⟩ := hr.happens.responds.log
  rw [flatMap_texts, hr.lines] at htexts
  refine ⟨entries, hlog, htexts, fun log old heq => ?_⟩
  have hentries : ∀ e ∈ log, Loggable e.2.1 e.2.2 := by
    intro e he
    have hmem : e.2 ∈ entries := heq ▸ List.mem_map_of_mem he
    obtain ⟨hlo, hhi⟩ := hbounds _ (List.mem_map_of_mem hmem)
    refine ⟨(env.clock.pos _).trans_le hlo, hhi.trans_lt (hclock _), ?_⟩
    have htext : e.2.2 ∈ (messages got).filterMap logText := htexts ▸ List.mem_map_of_mem hmem
    obtain ⟨msg, hmsg, hlogged⟩ := List.mem_filterMap.mp htext
    exact clean_logText (isText_messages hmsg) hlogged
  obtain ⟨lines, hlines, hown⟩ := chatLogFile_own hzone hentries old
  refine ⟨lines, hlines, hown, fun houtcomes hold => ?_⟩
  obtain ⟨lines', hlines', hreads⟩ := chatLogFile_lines hzone hentries houtcomes old hold
  rw [hlines'] at hlines
  rw [← List.append_cancel_left hlines, hreads]

end MainLoop

theorem quit_reads_back : ∃ (bot₁ : Bot) (l : Loop 512) (t : Int),
    l.bot.chatLog = bot₁.chatLog ++ [(t, ascii "n (u@h) quit: bye")] ∧
    (pieces isLf ((chatLogFile 0 none [(.whole, t, ascii "n (u@h) quit: bye")]).getD [])).1.map
      (readEntry 0) = [some (t, ascii "n (u@h) quit: bye")] := by
  obtain ⟨outcome, bot₁, l, hrestore, hl⟩ :=
    run_of_stream (ascii ":n!u@h QUIT :bye\nPAR") (by decide)
  have hclock : ∀ n, (Env.still 1 (by decide)).clock.now n < 2 ^ 55 := fun _ =>
    show (1 : Int) < 2 ^ 55 by decide
  obtain ⟨entries, hlog, htexts, hfile⟩ :=
    chat_log_reads_back rfl hrestore hl ⟨by decide, by decide⟩ hclock
  have hquit : (messages (ascii ":n!u@h QUIT :bye\nPAR")).filterMap logText =
      [ascii "n (u@h) quit: bye"] := by decide +kernel
  rw [hquit] at htexts
  obtain ⟨⟨t, text⟩, rfl, rfl⟩ := List.map_eq_singleton_iff.mp htexts
  obtain ⟨lines, hlines, -, hreads⟩ := hfile [(.whole, t, ascii "n (u@h) quit: bye")] none rfl
  refine ⟨bot₁, l, t, hlog, ?_⟩
  rw [show Env.zone _ = 0 from rfl] at hlines hreads
  rw [hlines]
  exact hreads (by simp) rfl

end Botniklas
