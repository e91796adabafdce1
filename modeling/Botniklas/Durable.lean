import Botniklas.AtMostOnce

/-! The reminders file keeps what has been accepted: over any number of sessions, and when
the file ends in the middle of a record. -/
namespace Botniklas
open Foundation Irc
open scoped List

section Scan

/-- The records before the first that does not read back. -/
theorem scanFile_readable {read rest : List Reminder} (hread : ∀ r ∈ read, Storable r)
    (hrest : ∀ r ∈ rest, Writable r) (hfirst : ∀ r ∈ rest.head?, ¬ Storable r) :
    (scanFile ((read ++ rest).flatMap Reminder.record)).1 = read := by
  rw [List.flatMap_append, scanFile_records hread]
  cases rest with
  | nil => exact List.append_nil _
  | cons r rest =>
    have hnone : (scanFile ((r :: rest).flatMap Reminder.record)).1 = [] := by
      rw [List.flatMap_cons]
      cases hrec : scanRecord (r.record ++ rest.flatMap Reminder.record) with
      | error text =>
        rw [scanFile_eq, hrec]
        split_ifs <;> rfl
      | ok p =>
        have hstore := (hrest r List.mem_cons_self).storable (show scanRecord _ = .ok (p.1, p.2) from hrec)
        exact absurd hstore (hfirst r rfl)
    rw [hnone, List.append_nil]

/-- The start of a record is not one. -/
theorem scanRecord_part {r : Reminder} (hr : Storable r) {part : Bytes} (hpart : part <+: r.record)
    (hne : part ≠ r.record) : ∃ text, scanRecord part = .error text := by
  cases hrec : scanRecord part with
  | error text => exact ⟨text, rfl⟩
  | ok p =>
    obtain ⟨more, hmore⟩ := hpart
    obtain ⟨num, hr', rfl⟩ := scanRecord_ok_iff.mp (show scanRecord _ = .ok (p.1, p.2) from hrec)
    have hwhole : scanRecord (r.record ++ []) = .ok (p.1, p.2 ++ more) := by
      rw [List.append_nil, ← hmore]
      exact scanRecord_ok_iff.mpr ⟨num, hr', by simp⟩
    rw [scanRecord_record hr] at hwhole
    obtain ⟨hrest, hnil⟩ := List.append_eq_nil_iff.mp
      (Prod.mk.inj (Except.ok.inj hwhole)).2.symm
    rw [hnil, List.append_nil] at hmore
    exact absurd hmore hne

/-- Records of a file cut off somewhere: the whole ones and the start of another. -/
structure CutAfter (rs : List Reminder) (file : Bytes) (whole : List Reminder) (part : Bytes) :
    Prop where
  before : whole <+: rs
  bytes : file = whole.flatMap Reminder.record ++ part
  torn : part ≠ [] → ∃ r, whole ++ [r] <+: rs ∧ part <+: r.record ∧ part ≠ r.record

theorem exists_cutAfter {rs : List Reminder} {file : Bytes}
    (h : file <+: rs.flatMap Reminder.record) : ∃ whole part, CutAfter rs file whole part := by
  induction rs generalizing file with
  | nil =>
    rw [List.prefix_nil.mp h]
    exact ⟨[], [], List.nil_prefix, rfl, fun hne => absurd rfl hne⟩
  | cons r rs ih =>
    rw [List.flatMap_cons] at h
    by_cases hr : r.record <+: file
    · obtain ⟨file', rfl⟩ := hr
      obtain ⟨whole, part, hwhole, rfl, hpart⟩ := ih ((List.prefix_append_right_inj _).mp h)
      refine ⟨r :: whole, part, (List.prefix_cons_inj r).mpr hwhole, ?_, fun hne => ?_⟩
      · rw [List.flatMap_cons, List.append_assoc]
      · obtain ⟨r', hr', hp⟩ := hpart hne
        exact ⟨r', (List.prefix_cons_inj r).mpr hr', hp⟩
    · have hpart : file <+: r.record :=
        (List.prefix_or_prefix_of_prefix h (List.prefix_append _ _)).resolve_right hr
      exact ⟨[], file, List.nil_prefix, rfl, fun _ => ⟨r, ⟨rs, rfl⟩, hpart, fun he =>
        hr (he ▸ List.prefix_rfl)⟩⟩

theorem CutAfter.scanFile_eq {rs whole : List Reminder} {file part : Bytes}
    (h : CutAfter rs file whole part) (hrs : ∀ r ∈ rs, Storable r) :
    (scanFile file).1 = whole ∧ ((scanFile file).2 = none ↔ part = []) := by
  rw [h.bytes, scanFile_records fun r hr => hrs r (h.before.subset hr)]
  by_cases hpart : part = []
  · rw [hpart]
    exact ⟨List.append_nil _, by simp; rfl⟩
  · obtain ⟨r, hr, hprefix, hne⟩ := h.torn hpart
    have hstore := hrs r (hr.subset (by simp))
    obtain ⟨text, htext⟩ := scanRecord_part hstore hprefix hne
    have hend : ¬ AtEnd part := by
      rintro (he | he)
      · exact hpart he
      · obtain ⟨more, hmore⟩ := hprefix
        have hlf : scanRecord (lf :: (more ++ [])) = .error "Missing or malformed timestamp" := rfl
        have hrec := scanRecord_record hstore []
        rw [← hmore, he, List.append_assoc] at hrec
        cases hlf.symm.trans hrec
    rw [Botniklas.scanFile_eq, if_neg hend, htext]
    exact ⟨List.append_nil _, by simp [hpart]⟩

end Scan

/-- A file of records cut off at any byte, as a crash may leave it: what is restored are
exactly the reminders whose records are whole, and the scan stops at the torn one if there
is one. -/
theorem crash_keeps_whole_records {env : Env} {bot : Bot} {rs : List Reminder} {file : Bytes}
    (hrs : ∀ r ∈ rs, Storable r) (hcut : file <+: rs.flatMap Reminder.record)
    (hfile : bot.reminders = some file) :
    ∃ whole part outcome bot', CutAfter rs file whole part ∧
      restoreRemindState env bot = .ok (outcome, bot') ∧
      bot'.queue = bot.queue.addAll (due (env.clock.now bot.instant) whole) ∧
      (outcome = .finished ↔ part = []) := by
  obtain ⟨whole, part, hwhole⟩ := exists_cutAfter hcut
  obtain ⟨hread, hend⟩ := hwhole.scanFile_eq hrs
  refine ⟨whole, part, _, _, hwhole, restoreRemindState_some env hfile, ?_, ?_⟩
  · rw [hread]
  · rw [restoredAt_finished_iff, hend]

/-- Cut off in the text of the second of two records. -/
theorem crash_in_second_record : ∃ whole part outcome bot',
    CutAfter [⟨9, ascii "#c", ascii "tea"⟩, ⟨7, ascii "al", ascii "milk"⟩] (ascii "9 #c tea\n7 al mi")
      whole part ∧
    restoreRemindState (.still 5 (by decide))
      { Bot.new with reminders := some (ascii "9 #c tea\n7 al mi") } = .ok (outcome, bot') ∧
    bot'.queue = EventList.empty.addAll (due 5 whole) := by
  have hrs : ∀ r ∈ [(⟨9, ascii "#c", ascii "tea"⟩ : Reminder), ⟨7, ascii "al", ascii "milk"⟩],
      Storable r := by
    intro r hr
    simp only [List.mem_cons, List.not_mem_nil, or_false] at hr
    rcases hr with rfl | rfl
    · exact ⟨by decide, by decide, by decide⟩
    · exact ⟨by decide, by decide, by decide⟩
  obtain ⟨whole, part, outcome, bot', hwhole, hrun, hqueue, -⟩ :=
    @crash_keeps_whole_records (.still 5 (by decide))
      { Bot.new with reminders := some (ascii "9 #c tea\n7 al mi") } _ (ascii "9 #c tea\n7 al mi")
      hrs ⟨ascii "lk\n", by decide⟩ rfl
  exact ⟨whole, part, outcome, bot', hwhole, hrun, hqueue⟩

/-- The file holds the records of all that has been accepted, and what is not due yet is
pending, as often as it was accepted, if all can be read back. -/
structure Kept (env : Env) (bot : Bot) : Prop where
  file : bot.reminders.getD [] = bot.accepted.flatMap Reminder.record
  writable : ∀ r ∈ bot.accepted, Writable r ∧ nul ∉ r.target ∧ nul ∉ r.text
  good : bot.queue.Good
  pending : (∀ r ∈ bot.accepted, Storable r) →
    ∀ r, env.clock.now bot.instant < r.when → (pending bot).count r = bot.accepted.count r

section Steps
variable {env : Env} {opts : Options} {bot bot' : Bot}

/-- A list up to the first element that fails a test. -/
private theorem exists_split (P : Reminder → Prop) (rs : List Reminder) :
    ∃ read rest, rs = read ++ rest ∧ (∀ r ∈ read, P r) ∧ ∀ r ∈ rest.head?, ¬ P r := by
  induction rs with
  | nil => exact ⟨[], [], rfl, by simp, by simp⟩
  | cons r rs ih =>
    by_cases hr : P r
    · obtain ⟨read, rest, rfl, hread, hrest⟩ := ih
      exact ⟨r :: read, rest, rfl, List.forall_mem_cons.mpr ⟨hr, hread⟩, hrest⟩
    · exact ⟨[], r :: rs, rfl, by simp, by simpa using hr⟩

/-- What a restart now would restore. -/
theorem Kept.restored (h : Kept env bot) : ∃ read rest, bot.accepted = read ++ rest ∧
    (∀ r ∈ read, Storable r) ∧ (∀ r ∈ rest.head?, ¬ Storable r) ∧
    restored env bot = read.filter fun r => env.clock.now (bot.instant + 1) ≤ r.when := by
  obtain ⟨read, rest, hsplit, hread, hfirst⟩ := exists_split Storable bot.accepted
  refine ⟨read, rest, hsplit, hread, hfirst, ?_⟩
  have hfile := h.file
  have hwritable := h.writable
  rw [hsplit] at hfile hwritable
  have hscan := scanFile_readable hread
    (fun r hr => (hwritable r (List.mem_append_right _ hr)).1) hfirst
  rw [← hfile] at hscan
  cases hf : bot.reminders with
  | none =>
    rw [hf] at hscan
    rw [restored_none hf, ← hscan]
    rfl
  | some file =>
    rw [hf] at hscan
    rw [restored_some hf, show (scanFile file).1 = read from hscan, filterMap_announces fun r hr =>
      (hwritable r (List.mem_append_left _ (List.mem_of_mem_filter hr))).2]

theorem Kept.line {w : Bytes} (h : Kept env bot) (hfiles : ∀ i, env.append i = .whole)
    (hw : ∀ b ∈ w, isEol b = false) (hline : processLine env opts w bot = .ok bot') :
    Kept env bot' := by
  obtain ⟨r, ha⟩ := processLine_accepts hline
  obtain ⟨obs, ht, hacc, -⟩ := ha.trace
  have haccepted : bot'.accepted = bot.accepted ++ r.toList := by
    rw [Bot.accepted, ht, List.filterMap_append, hacc]
    rfl
  refine ⟨?_, ?_, ha.queue ▸ h.good.addAll _, fun hall r' hlater => ?_⟩
  · rw [haccepted, ha.reminders, List.flatMap_append, ← h.file]
    cases r with
    | none => exact (List.append_nil _).symm
    | some r =>
      rw [Option.elim_some, hfiles, Option.toList_some, List.flatMap_singleton]
      rfl
  · rw [haccepted]
    refine List.forall_mem_append.mpr ⟨h.writable, fun r' hr' => ?_⟩
    have hmem := Option.mem_toList.mp hr'
    exact ⟨(ha.writable hw r' hmem).1, ha.no_nul r' hmem⟩
  · rw [haccepted] at hall ⊢
    have hbefore := h.pending (fun r hr => hall r (List.mem_append_left _ hr)) r'
      ((env.clock.mono ha.instant).trans_lt hlater)
    rw [ha.pending.count_eq, List.count_append, List.count_append, hbefore]

theorem Kept.timer {event : TimeEvent Handler Bytes} (h : Kept env bot)
    (hhead : bot.queue.start.head? = some event) (hdue : event.when ≤ env.clock.now bot.instant)
    (hrun : handleTimeEvent Bot.queueIn (callHandler env) bot = some bot') : Kept env bot' := by
  have hh := handleTimeEvent_handles h.good hhead hdue hrun
  obtain ⟨obs, ht, hacc, -⟩ := hh.trace
  have haccepted : bot'.accepted = bot.accepted := by
    rw [Bot.accepted, ht, List.filterMap_append, hacc, List.append_nil]
    rfl
  refine ⟨?_, haccepted ▸ h.writable, hh.good, fun hall r hlater => ?_⟩
  · rw [haccepted, hh.reminders]
    exact h.file
  · have hnow := (env.clock.mono hh.instant).trans_lt hlater
    have hcount := hh.pending.count_eq r
    have hnone : event.registration.announces.toList.count r = 0 := by
      refine List.count_eq_zero.mpr fun hmem => ?_
      have hwhen : r.when = event.when := when_of_announces (Option.mem_toList.mp hmem)
      exact (hwhen.trans_le hdue).not_gt hnow
    rw [List.count_append, hnone, Nat.zero_add] at hcount
    rw [haccepted] at hall ⊢
    rw [← hcount, h.pending hall r hnow]

theorem Kept.wait (h : Kept env bot) : Kept env { bot with instant := bot.instant + 1 } :=
  ⟨h.file, h.writable, h.good, fun hall r hlater =>
    h.pending hall r ((env.clock.mono (Nat.le_succ _)).trans_lt hlater)⟩

/-- A new process finds the reminders in the file. -/
theorem Kept.restart {outcome : Restored} (h : Kept env bot)
    (hrestore : restoreState env { bot.restarted with trace := bot.trace } = .ok (outcome, bot')) :
    Kept env bot' := by
  obtain ⟨hg, -, hp⟩ := restoreState_pending rfl hrestore
  obtain ⟨outcome', he⟩ := restoreState_eq env { bot.restarted with trace := bot.trace }
  cases he.symm.trans hrestore
  refine ⟨h.file, h.writable, hg, fun hall r hlater => ?_⟩
  obtain ⟨read, rest, hsplit, -, hfirst, hrestored⟩ := h.restored
  have hall : ∀ r ∈ bot.accepted, Storable r := hall
  have hnil : rest = [] := by
    cases rest with
    | nil => rfl
    | cons r rest => exact absurd (hall r (by simp [hsplit])) (hfirst r rfl)
  rw [hnil, List.append_nil] at hsplit
  have hnow : env.clock.now (bot.instant + 1) ≤ r.when :=
    (env.clock.mono (Nat.le_succ _)).trans hlater.le
  rw [hp.count_eq]
  calc (Botniklas.restored env { bot.restarted with trace := bot.trace }).count r
    _ = (read.filter fun r => env.clock.now (bot.instant + 1) ≤ r.when).count r :=
      congrArg (List.count r) hrestored
    _ = read.count r := List.count_filter (by simpa using hnow)
    _ = bot.accepted.count r := by rw [hsplit]

end Steps

/-- Over any number of sessions, ended at any point: the file holds the records of all
reminders accepted, in order; a restart restores those before the first that cannot be read
back, as far as they are not past; and if all can, no reminder that is not due has been
lost or doubled. -/
theorem no_reminder_lost {env : Env} {Restart : List Reminder → Bot → Prop}
    {announced : List Reminder} {bot : Bot} (hfiles : ∀ i, env.append i = .whole)
    (h : Sessions env Restart announced bot) :
    bot.reminders.getD [] = bot.accepted.flatMap Reminder.record ∧
    (∃ read rest, bot.accepted = read ++ rest ∧ (∀ r ∈ read, Storable r) ∧
      (∀ r ∈ rest.head?, ¬ Storable r) ∧
      restored env bot = read.filter fun r => env.clock.now (bot.instant + 1) ≤ r.when) ∧
    ((∀ r ∈ bot.accepted, Storable r) → ∀ r, env.clock.now bot.instant < r.when →
      (pending bot).count r = bot.accepted.count r) := by
  have hk : Kept env bot := by
    induction h with
    | @first bot₀ bot outcome hnone hrestore =>
      have hempty : Kept env { bot₀ with queue := .empty, trace := [] } :=
        ⟨by rw [hnone]; rfl, fun _ h => (nomatch h), EventList.empty_good, fun _ _ _ => rfl⟩
      exact hempty.restart hrestore
    | line w _ hw h ih => exact ih.line hfiles hw h
    | timer _ hhead hdue h ih => exact ih.timer hhead hdue h
    | wait _ ih => exact ih.wait
    | restart _ _ h ih => exact ih.restart h
  exact ⟨hk.file, hk.restored, hk.pending⟩

/-- A command, and then another session. -/
theorem command_is_kept : ∃ bot, Sessions tick (fun _ _ => True) [] bot ∧
    bot.reminders.getD [] = bot.accepted.flatMap Reminder.record := by
  obtain ⟨outcome, hfirst⟩ := restoreState_eq tick Bot.new.restarted
  have h₁ : Sessions tick (fun _ _ => True) [] _ := .first rfl hfirst
  obtain ⟨bot₂, hline⟩ := @processLine_total tick .default rfl
    (ascii ":al!u@h PRIVMSG #c :!remind 00:00:09 tea") _
  have h₂ := h₁.line _ (by decide +kernel) hline
  obtain ⟨outcome', hrestore⟩ := restoreState_eq tick { bot₂.restarted with trace := bot₂.trace }
  have h₃ := h₂.restart trivial hrestore
  exact ⟨_, h₃, (no_reminder_lost (fun _ => rfl) h₃).1⟩

end Botniklas
