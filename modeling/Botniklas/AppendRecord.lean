import Botniklas.FileFormat
import Botniklas.ReadMsg
import Botniklas.Session

/-! What appending the record of a command does to a file that reads to its end. -/
namespace Botniklas
open Foundation Irc Grammar

/-- `restore_remind_state` reads the file to its end. -/
def ReadToEnd (file : Bytes) : Prop := ∀ env bot, bot.reminders = some file →
  ∃ bot', restoreRemindState env bot = .ok (.finished, bot')

/-- The reminder registered is the one saved: the longer file still reads to its
end and brings back what it did before and that reminder. -/
def KeepsReminders (file : Bytes) (bot bot' : Bot) : Prop :=
  ∃ (r : Reminder) (file' : Bytes), bot'.reminders = some file' ∧
    bot'.queue = bot.queue.addTimeEvent r.registration ∧ ReadToEnd file' ∧
    ∀ (env : Env) (bot₁ : Bot), env.clock.now bot₁.instant ≤ r.when →
      ∃ b b', restoreRemindState env { bot₁ with reminders := some file } = .ok (.finished, b) ∧
        restoreRemindState env { bot₁ with reminders := some file' } = .ok (.finished, b') ∧
        b'.queue = b.queue.addTimeEvent r.registration

/-- A private message whose prefix starts with '!', so that the part before it,
where replies go, is empty. -/
def EmptyReply (w : Bytes) : Prop :=
  ∃ g : Grammar, g.Valid ∧ g.bytes = w ∧ (∃ target, g.params[0]? = some target ∧
    isChannel target = false) ∧ ∃ p, g.pfx = some p ∧ p.head? = some bang

private theorem restore_finished (env : Env) {bot : Bot} {file : Bytes}
    (hfile : bot.reminders = some file) (h : (scanFile file).2 = none) :
    restoreRemindState env bot = .ok (.finished, { bot with
      instant := bot.instant + 1
      queue := bot.queue.addAll (due (env.clock.now bot.instant) (scanFile file).1) }) := by
  rw [restoreRemindState_some env hfile, restoredAt_finished_iff.mpr h]

theorem readToEnd_iff (file : Bytes) : ReadToEnd file ↔ (scanFile file).2 = none := by
  constructor
  · intro h
    obtain ⟨bot', hfin⟩ := h (.still 1 (by decide)) { Bot.new with reminders := some file } rfl
    rw [restoreRemindState_some _ rfl] at hfin
    exact restoredAt_finished_iff.mp (Prod.mk.inj (Except.ok.inj hfin)).1
  · intro h env bot hfile
    exact ⟨_, restore_finished env hfile h⟩

/-- The records at the start of a file read the same whatever follows them; the
last of them does not end in an empty line. -/
theorem scanFile_split (file : Bytes) : ∃ pre rest, file = pre ++ rest ∧
    (∀ more, scanFile (pre ++ more) =
      ((scanFile file).1 ++ (scanFile more).1, (scanFile more).2)) ∧
    ((scanFile file).2 = none → AtEnd rest) ∧
    (pre = [] ∨ ∃ u b, pre = u ++ [b, lf] ∧ b ≠ lf) := by
  induction h : file.length using Nat.strongRecOn generalizing file with
  | ind n ih =>
    cases hrec : scanRecord file with
    | error text =>
      refine ⟨[], file, rfl, fun more => ?_, fun hnone => ?_, .inl rfl⟩
      · rw [scanFile_eq file, hrec]
        split_ifs <;> rfl
      · rw [scanFile_eq, hrec] at hnone
        split_ifs at hnone with hend
        exact hend
    | ok p =>
      obtain ⟨r, rest₁⟩ := p
      obtain ⟨num, hr, rfl⟩ := scanRecord_ok_iff.mp hrec
      obtain ⟨pre, rest, rfl, hscan, hend, hlast⟩ := ih rest₁.length (by simp at h; omega) rest₁ rfl
      have hcons := scanFile_cons hrec
      refine ⟨num ++ space :: r.target ++ space :: r.text ++ lf :: pre, rest, by simp,
        fun more => ?_, fun hnone => hend (by rwa [hcons] at hnone), .inr ?_⟩
      · have hmore : scanRecord (num ++ space :: r.target ++ space :: r.text ++
            lf :: pre ++ more) = .ok (r, pre ++ more) :=
          scanRecord_ok_iff.mpr ⟨num, hr, by simp⟩
        rw [scanFile_cons hmore, hscan, hcons]
        rfl
      · rcases hlast with rfl | ⟨u, b, rfl, hb⟩
        · obtain ⟨u, b, hu⟩ := (List.eq_nil_or_concat' r.text).resolve_left hr.text.1
          have hb : b ≠ lf := fun hb => hr.text.2 (by simp [hu, hb])
          exact ⟨num ++ space :: r.target ++ space :: u, b, by simp [hu], hb⟩
        · exact ⟨num ++ space :: r.target ++ space :: r.text ++ lf :: u, b, by simp, hb⟩

/-- A file that reads to its end, up to a final lone newline. -/
private theorem scanFile_before_end {file : Bytes} (h : (scanFile file).2 = none) :
    ∃ pre rest, file = pre ++ rest ∧ AtEnd rest ∧
      (∀ more, scanFile (pre ++ more) = ((scanFile file).1 ++ (scanFile more).1, (scanFile more).2)) ∧
      (rest = [] ↔ file ≠ [lf] ∧ ¬ [lf, lf] <:+ file) := by
  obtain ⟨pre, rest, rfl, hscan, hend, hlast⟩ := scanFile_split file
  refine ⟨pre, rest, rfl, hend h, hscan, ?_⟩
  rcases hend h with rfl | rfl
  · simp only [List.append_nil, true_iff]
    rcases hlast with rfl | ⟨u, b, rfl, hb⟩
    · simp
    · refine ⟨fun he => ?_, fun hsuf => ?_⟩
      · have := congrArg List.length he
        simp at this
      · obtain ⟨t, ht⟩ := hsuf
        have := List.append_inj_right' ht rfl
        simp [hb.symm] at this
  · simp only [List.cons_ne_nil, false_iff, not_and, not_not]
    intro hne
    rcases hlast with rfl | ⟨u, b, rfl, -⟩
    · simp at hne
    · exact ⟨u ++ [b], by simp⟩

section Target
variable {g : Grammar} {r : Reminder}

/-- The target of a message with a text after it is a word. -/
private theorem word_of_params (hv : g.Valid) {t x : Bytes} (h0 : g.params[0]? = some t)
    (h1 : g.params[1]? = some x) : Word t := by
  unfold Grammar.params at h0 h1
  cases hm : g.middle with
  | nil => cases ht : g.trailing <;> simp [hm, ht] at h1
  | cons m ms =>
    rw [hm] at h0
    cases h0
    exact (hv.middle t (by simp [hm])).1

/-- The prefix of the view, when there is one. -/
private theorem view_pfx {p : Bytes} (h : g.pfx = some p) : g.view.pfx = some (before bang p) := by
  unfold Grammar.view
  rw [h]
  dsimp only
  split
  · rename_i ha
    have := before_append_after bang p
    rw [ha, List.append_nil] at this
    rw [this]
  · rfl

private theorem before_bang_eq_nil {p : Bytes} (hp : p ≠ []) :
    before bang p = [] ↔ p.head? = some bang := by
  obtain ⟨b, p, rfl⟩ := List.exists_cons_of_ne_nil hp
  by_cases hb : b = bang <;> simp [before, hb]

/-- Replies go to a word, or nowhere when the part of the prefix before '!' is
empty. -/
theorem AsksFor.target_word (hv : g.Valid) (ha : AsksFor g.view r) :
    space ∉ r.target ∧ (r.target = [] ↔ EmptyReply g.bytes) := by
  obtain ⟨t, h0, hrep⟩ := ha.target
  obtain ⟨x, -, h1, -⟩ := ha.text
  rw [view_params] at h0 h1
  obtain ⟨htne, htsp⟩ := word_of_params hv h0 h1
  have huniq : EmptyReply g.bytes ↔ isChannel t = false ∧ ∃ p, g.pfx = some p ∧ p.head? = some bang := by
    constructor
    · rintro ⟨g', hv', hb', ⟨t', ht', hc⟩, hp⟩
      have he := (parseMsg_ok_iff g.bytes g).mpr ⟨hv, rfl⟩
      rw [(parseMsg_ok_iff g.bytes g').mpr ⟨hv', hb'⟩] at he
      obtain rfl := Except.ok.inj he
      rw [h0] at ht'
      cases ht'
      exact ⟨hc, hp⟩
    · rintro ⟨hc, hp⟩
      exact ⟨g, hv, rfl, ⟨t, h0, hc⟩, hp⟩
  rw [huniq]
  unfold replyTarget at hrep
  cases hc : isChannel t with
  | true =>
    rw [hc] at hrep
    cases hrep
    exact ⟨htsp, by simp [htne]⟩
  | false =>
    rw [hc] at hrep
    cases hp : g.pfx with
    | none => simp [Grammar.view, hp, required] at hrep
    | some p =>
      rw [view_pfx hp] at hrep
      obtain ⟨hpne, hpsp⟩ := hv.pfx p hp
      have hr : before bang p = r.target := Except.ok.inj hrep
      rw [← hr, before_bang_eq_nil hpne]
      exact ⟨fun h => hpsp (mem_of_mem_before h), by simp⟩

end Target

/-- A line is asked for reminders that can be written; their target is a word,
unless replies go nowhere. -/
theorem Accepts.writable {env : Env} {bot bot' : Bot} {w : Bytes} {r : Option Reminder}
    (h : Accepts env w bot bot' r) (hline : ∀ b ∈ w, isEol b = false) :
    ∀ r' ∈ r, Writable r' ∧ (r'.target = [] ↔ EmptyReply w) := by
  intro r' hr'
  obtain ⟨g, hv, rfl, -, hask⟩ := h.asked r' hr'
  obtain ⟨hsp, hempty⟩ := hask.target_word hv
  have hpos := env.clock.pos bot.instant
  have htext := (hask.all (Grammar.view_all g hline)).2
  refine ⟨⟨hpos.le.trans (h.when r' hr'), hsp, hask.nonempty, fun hlf => ?_⟩, hempty⟩
  cases htext lf hlf

/-- A newline before a record makes the line of that record malformed. -/
private theorem scanFile_lf_cons (w : Bytes) (hw : w ≠ []) : (scanFile (lf :: w)).2 ≠ none := by
  have hrec : scanRecord (lf :: w) = .error "Missing or malformed timestamp" := rfl
  rw [scanFile_eq, if_neg (by simp [AtEnd, hw]), hrec]
  exact Option.some_ne_none _

/-- A record that does not read back is malformed. -/
private theorem scanFile_not_storable {r : Reminder} (h : Writable r) (hno : ¬ Storable r) :
    (scanFile r.record).2 ≠ none := by
  cases hrec : scanRecord r.record with
  | ok p =>
    have hok : scanRecord (r.record ++ []) = .ok (p.1, p.2) := by
      rw [List.append_nil]
      exact hrec
    exact absurd (h.storable hok) hno
  | error text =>
    have hend : ¬ AtEnd r.record := by
      rintro (h | h) <;>
      · have := congrArg List.length h
        simp [Reminder.record, record] at this
        try omega
    rw [scanFile_eq, if_neg hend, hrec]
    exact Option.some_ne_none _

/-- A record that reads back, after a file that does not end in an empty line. -/
theorem scanFile_append {r : Reminder} {file : Bytes} (hread : (scanFile file).2 = none)
    (hlast : file ≠ [lf] ∧ ¬ [lf, lf] <:+ file) (hr : Storable r) :
    scanFile (file ++ r.record) = ((scanFile file).1 ++ [r], none) := by
  obtain ⟨pre, rest, rfl, -, hscan, hclean⟩ := scanFile_before_end hread
  obtain rfl := hclean.mpr hlast
  rw [List.append_nil] at hscan ⊢
  have hone := @scanFile_records [r] (by simpa using hr) []
  rw [List.flatMap_singleton, List.append_nil] at hone
  rw [hscan, hone]
  rfl

/-- When a longer file still reads to its end. -/
theorem readToEnd_append_iff {r : Reminder} {file : Bytes} (hr : Writable r)
    (hread : (scanFile file).2 = none) :
    (scanFile (file ++ r.record)).2 = none ↔
      Storable r ∧ file ≠ [lf] ∧ ¬ [lf, lf] <:+ file := by
  constructor
  · intro h
    obtain ⟨pre, rest, rfl, hend, hscan, hclean⟩ := scanFile_before_end hread
    rw [List.append_assoc, hscan] at h
    rcases hend with rfl | rfl
    · refine ⟨?_, hclean.mp rfl⟩
      by_contra hno
      exact scanFile_not_storable hr hno h
    · apply absurd h
      apply scanFile_lf_cons
      unfold Reminder.record record
      simp
  · rintro ⟨hstore, hlast⟩
    rw [scanFile_append hread hlast hstore]

/-- A line that appends a record keeps the saved reminders if and only if it is
no private message from a prefix starting with '!', and the file neither is a
lone newline nor ends in an empty line. The times in the event list are values
of `time_t`. -/
theorem append_keeps_reminders_iff {env : Env} {opts : Options} {bot bot' : Bot} {file w : Bytes}
    (hfiles : ∀ i, env.append i = .whole) (hfile : bot.reminders = some file)
    (hread : ReadToEnd file) (hline : ∀ b ∈ w, isEol b = false)
    (h : processLine env opts w bot = .ok bot') (happend : bot'.reminders ≠ bot.reminders)
    (hfit : ∀ e ∈ bot'.queue.start, e.when ≤ llongMax) :
    KeepsReminders file bot bot' ↔ ¬ EmptyReply w ∧ file ≠ [lf] ∧ ¬ [lf, lf] <:+ file := by
  obtain ⟨opt, ha⟩ := processLine_accepts h
  obtain ⟨r, rfl⟩ : ∃ r, opt = some r := by
    cases opt with
    | none => exact absurd ha.reminders happend
    | some r => exact ⟨r, rfl⟩
  obtain ⟨hwritable, hempty⟩ := ha.writable hline r rfl
  have hqueue : bot'.queue = bot.queue.addTimeEvent r.registration := ha.queue
  have hfile' : bot'.reminders = some (file ++ r.record) := by
    rw [ha.reminders, Option.elim_some, hfiles, hfile]
    rfl
  have hin : bot.queue.node r.registration ∈ bot'.queue.start := by
    rw [hqueue, EventList.addTimeEvent_start, mem_insertAfter]
    exact .inl rfl
  have hstorable : Storable r ↔ ¬ EmptyReply w := by
    rw [← hempty]
    exact ⟨fun hr => hr.target.1, fun ht =>
      ⟨⟨hwritable.when, hfit _ hin⟩, ⟨ht, hwritable.target⟩, hwritable.text⟩⟩
  have hnone := (readToEnd_iff _).mp hread
  rw [← hstorable]
  constructor
  · rintro ⟨-, file', hf, -, hread', -⟩
    obtain rfl := Option.some.inj (hfile'.symm.trans hf)
    exact (readToEnd_append_iff hwritable hnone).mp ((readToEnd_iff _).mp hread')
  · rintro ⟨hr, hlast⟩
    have hboth := scanFile_append hnone hlast hr
    refine ⟨r, _, hfile', hqueue, (readToEnd_iff _).mpr (by rw [hboth]), fun env₁ bot₁ hnow => ?_⟩
    refine ⟨_, _, restore_finished env₁ rfl hnone, restore_finished env₁ rfl (by rw [hboth]), ?_⟩
    rw [hboth]
    simp [due, hnow, EventList.addAll]

/-- A private message from nowhere, and a file that is a lone newline. -/
theorem appended_record_unreadable :
    (ReadToEnd [] ∧ ∃ bot', processLine (.still 1000000 (by decide)) .default
      (ascii ":!u PRIVMSG bot :!remind 23:59 tea") { Bot.new with reminders := some [] } = .ok bot' ∧
      bot'.reminders = some (ascii "1036740  tea\n") ∧
      ¬ KeepsReminders [] { Bot.new with reminders := some [] } bot') ∧
    ReadToEnd [lf] ∧ ∃ bot', processLine (.still 1000000 (by decide)) .default
      (ascii ":al!u@h PRIVMSG #c :!remind 23:59 tea") { Bot.new with reminders := some [lf] } = .ok bot' ∧
      bot'.reminders = some (lf :: ascii "1036740 #c tea\n") ∧
      ¬ KeepsReminders [lf] { Bot.new with reminders := some [lf] } bot' := by
  have unreadable : ∀ {file file' : Bytes} {bot bot' : Bot}, bot'.reminders = some file' →
      (scanFile file').2 ≠ none → ¬ KeepsReminders file bot bot' := by
    rintro file file' bot bot' hf hbad ⟨-, file'', hf', -, hread, -⟩
    obtain rfl := Option.some.inj (hf.symm.trans hf')
    exact hbad ((readToEnd_iff _).mp hread)
  have hprivate := processLine_eq (.still 1000000 (by decide)) .default
    (ascii ":!u PRIVMSG bot :!remind 23:59 tea") { Bot.new with reminders := some [] }
  have hchannel := processLine_eq (.still 1000000 (by decide)) .default
    (ascii ":al!u@h PRIVMSG #c :!remind 23:59 tea") { Bot.new with reminders := some [lf] }
  refine ⟨⟨(readToEnd_iff _).mpr rfl, _, hprivate.trans rfl, rfl, unreadable rfl ?_⟩,
    (readToEnd_iff _).mpr rfl, _, hchannel.trans rfl, rfl, unreadable rfl ?_⟩
  · decide
  · decide

/-- A second record. -/
theorem append_keeps_tea : ∃ bot', processLine (.still 1000000 (by decide)) .default
      (ascii ":al!u@h PRIVMSG #c :!remind 23:59 tea")
      { Bot.new with reminders := some (ascii "1003600 #b milk\n") } = .ok bot' ∧
    (KeepsReminders (ascii "1003600 #b milk\n")
        { Bot.new with reminders := some (ascii "1003600 #b milk\n") } bot' ↔
      ¬ EmptyReply (ascii ":al!u@h PRIVMSG #c :!remind 23:59 tea") ∧
        ascii "1003600 #b milk\n" ≠ [lf] ∧ ¬ [lf, lf] <:+ ascii "1003600 #b milk\n") := by
  have hrun := processLine_eq (.still 1000000 (by decide)) .default
    (ascii ":al!u@h PRIVMSG #c :!remind 23:59 tea")
    { Bot.new with reminders := some (ascii "1003600 #b milk\n") }
  have hread : (scanFile (ascii "1003600 #b milk\n")).2 = none := by decide +kernel
  refine ⟨_, hrun.trans rfl, append_keeps_reminders_iff (fun _ => rfl) rfl
    ((readToEnd_iff _).mpr hread) (by decide +kernel) (hrun.trans rfl) (by decide) (by decide)⟩

end Botniklas
