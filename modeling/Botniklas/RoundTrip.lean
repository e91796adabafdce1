import Botniklas.Scan

/-! Saving reminders and restoring them. -/
namespace Botniklas
open Foundation Irc

/-- A reminder whose record reads back. -/
structure Storable (r : Reminder) : Prop where
  when : 0 ≤ r.when ∧ r.when ≤ llongMax
  target : r.target ≠ [] ∧ space ∉ r.target
  text : r.text ≠ [] ∧ lf ∉ r.text

def Reminder.record (r : Reminder) : Bytes := Botniklas.record r.when r.target r.text

theorem Storable.recordOf {r : Reminder} (h : Storable r) : RecordOf (decimal r.when.toNat) r where
  digits := ⟨decimal_ne_nil _, fun _ => isdigit_of_mem_decimal⟩
  when := by
    rw [digitsValue_decimal]
    have := h.when.1
    omega
  fits := h.when.2
  target := h.target
  text := h.text

/-- A record reads back, whatever follows it. -/
theorem scanRecord_record {r : Reminder} (h : Storable r) (rest : Bytes) :
    scanRecord (r.record ++ rest) = .ok (r, rest) := by
  refine scanRecord_ok_iff.mpr ⟨decimal r.when.toNat, h.recordOf, ?_⟩
  unfold Reminder.record record
  rw [decimalInt_of_nonneg h.when.1]
  simp

/-- What is asked of a reminder before it is saved. -/
structure Writable (r : Reminder) : Prop where
  when : 0 ≤ r.when
  target : space ∉ r.target
  text : r.text ≠ [] ∧ lf ∉ r.text

/-- A record that reads back as any reminder reads back as its own. -/
theorem Writable.storable {r r' : Reminder} {rest rest' : Bytes} (h : Writable r)
    (hrec : scanRecord (r.record ++ rest) = .ok (r', rest')) : Storable r := by
  have space_free : ∀ {u : Bytes}, (∀ b ∈ u, isdigit b = true) → space ∉ u := fun hu hsp =>
    absurd (hu _ hsp) (by decide)
  obtain ⟨num, hr, hw⟩ := scanRecord_ok_iff.mp hrec
  unfold Reminder.record record at hw
  rw [decimalInt_of_nonneg h.when] at hw
  simp only [List.append_assoc, List.cons_append, List.nil_append] at hw
  obtain ⟨hnum, hrest⟩ := append_cons_inj (space_free fun _ => isdigit_of_mem_decimal)
    (space_free hr.digits.2) hw
  obtain ⟨htarget, -⟩ := append_cons_inj h.target hr.target.2 hrest
  have hwhen : r'.when = r.when := by
    have hpos := h.when
    rw [hr.when, ← hnum, digitsValue_decimal]
    omega
  exact ⟨⟨h.when, hwhen ▸ hr.fits⟩, ⟨htarget ▸ hr.target.1, h.target⟩, h.text⟩

/-- No record looks like the end of the file. -/
theorem not_atEnd_of_scanRecord {w rest : Bytes} {r : Reminder} (h : scanRecord w = .ok (r, rest)) :
    ¬ AtEnd w := by
  rintro (rfl | rfl) <;> cases h

theorem scanFile_cons {w rest : Bytes} {r : Reminder} (h : scanRecord w = .ok (r, rest)) :
    scanFile w = (r :: (scanFile rest).1, (scanFile rest).2) := by
  rw [scanFile_eq, if_neg (not_atEnd_of_scanRecord h), h]

theorem scanFile_records {rs : List Reminder} (h : ∀ r ∈ rs, Storable r) (rest : Bytes) :
    scanFile (rs.flatMap Reminder.record ++ rest) =
      (rs ++ (scanFile rest).1, (scanFile rest).2) := by
  induction rs with
  | nil => rfl
  | cons r rs ih =>
    simp only [List.mem_cons, forall_eq_or_imp] at h
    rw [List.flatMap_cons, List.append_assoc, scanFile_cons (scanRecord_record h.1 _), ih h.2]
    rfl

/-- Of the records saved, those before the first that cannot be read are read. -/
theorem scanFile_saved {rs : List Reminder} (h : ∀ r ∈ rs, Writable r) :
    (scanFile (rs.flatMap Reminder.record)).1 <+: rs := by
  induction rs with
  | nil => exact List.prefix_rfl
  | cons r rs ih =>
    obtain ⟨hr, hrs⟩ := List.forall_mem_cons.mp h
    rw [List.flatMap_cons]
    cases hrec : scanRecord (r.record ++ rs.flatMap Reminder.record) with
    | error text =>
      rw [scanFile_eq, hrec]
      split_ifs <;> exact List.nil_prefix
    | ok p =>
      have hstore := hr.storable (show scanRecord _ = .ok (p.1, p.2) from hrec)
      rw [scanFile_cons (scanRecord_record hstore _)]
      exact (List.prefix_cons_inj r).mpr (ih hrs)

/-- Save reminders one after the other. -/
def saveAll (env : Env) (bot : Bot) (rs : List Reminder) : Bot :=
  rs.foldl (fun bot r => saveReminder env bot r.when r.target r.text) bot

private theorem saveAll_eq {env : Env} (hfiles : ∀ i, env.append i = .whole) (bot : Bot)
    (rs : List Reminder) {old : Bytes} (hold : bot.reminders = some old) :
    saveAll env bot rs = { bot with reminders := some (old ++ rs.flatMap Reminder.record) } := by
  induction rs generalizing bot old with
  | nil => simp [saveAll, ← hold]
  | cons r rs ih =>
    have hsave : saveReminder env bot r.when r.target r.text =
        { bot with reminders := some (old ++ r.record) } := by
      simp [saveReminder, hfiles, hold, Append.file, Reminder.record]
    have := ih { bot with reminders := some (old ++ r.record) } rfl
    unfold saveAll at this ⊢
    rw [List.foldl_cons, hsave, this]
    simp

/-- The events made from registrations of reminders, in an empty list. -/
private theorem addAll_empty (rs : List Reminder) : ∃ pending, StableSort Reminder.when rs pending ∧
    ((EventList.empty.addAll (rs.map Reminder.registration)).start.map TimeEvent.registration) =
      pending.map Reminder.registration := by
  refine ⟨rs.foldl (fun s x => insertAfter Reminder.when x s) [], StableSort.nil.foldl rs, ?_⟩
  rw [EventList.map_addAll]
  generalize hl : ([] : List Reminder) = l
  have hstart : EventList.empty.start.map TimeEvent.registration = l.map Reminder.registration := by
    rw [← hl]
    rfl
  rw [hstart]
  clear hl hstart
  induction rs generalizing l with
  | nil => rfl
  | cons r rs ih =>
    have hkey : ∀ r : Reminder, r.registration.when = r.when := fun _ => rfl
    rw [List.map_cons, List.foldl_cons, List.foldl_cons, ← ih, map_insertAfter hkey]

/-- Restoring undoes saving: every line is read, the reminders that are not past
are pending in a stable order, and their arrays hold target and text. -/
theorem restore_undoes_save {env : Env} (hfiles : ∀ i, env.append i = .whole) {bot : Bot}
    (hqueue : bot.queue = .empty) (hempty : bot.reminders = some []) {rs : List Reminder}
    (hrs : ∀ r ∈ rs, Storable r ∧ nul ∉ r.target ∧ nul ∉ r.text) :
    ∃ bot' pending, restoreRemindState env (saveAll env bot rs) = .ok (.finished, bot') ∧
      StableSort Reminder.when
        (rs.filter fun r => env.clock.now (saveAll env bot rs).instant ≤ r.when) pending ∧
      bot'.queue.start.map TimeEvent.registration = pending.map Reminder.registration ∧
      ∀ r ∈ rs, target r.registration.data = r.target ∧ reminder r.registration.data = r.text := by
  have hsaved := saveAll_eq hfiles bot rs hempty
  rw [List.nil_append] at hsaved
  have hscan := scanFile_records (fun r hr => (hrs r hr).1) []
  rw [List.append_nil, show scanFile [] = ([], none) from rfl, List.append_nil] at hscan
  obtain ⟨pending, hsort, hstart⟩ :=
    addAll_empty (rs.filter fun r => env.clock.now bot.instant ≤ r.when)
  rw [hsaved]
  have hrun := @restoreRemindState_some env
    { bot with reminders := some (rs.flatMap Reminder.record) } _ rfl
  rw [hscan] at hrun
  rw [← hqueue] at hstart
  refine ⟨_, pending, hrun, hsort, hstart, fun r hr => ?_⟩
  obtain ⟨-, h1, h2⟩ := hrs r hr
  exact ⟨target_reminderData h1, reminder_reminderData h1 h2⟩

/-- Of two reminders saved late and early, both still to come. -/
theorem restore_two : ∃ bot' pending, restoreRemindState (.still 5 (by decide))
      (saveAll (.still 5 (by decide)) { Bot.new with reminders := some [] }
        [⟨9, ascii "#c", ascii " tea"⟩, ⟨7, ascii "al", ascii "x  y"⟩]) = .ok (.finished, bot') ∧
    StableSort Reminder.when [⟨9, ascii "#c", ascii " tea"⟩, ⟨7, ascii "al", ascii "x  y"⟩] pending ∧
    bot'.queue.start.map TimeEvent.registration = pending.map Reminder.registration := by
  have hrs : ∀ r ∈ [(⟨9, ascii "#c", ascii " tea"⟩ : Reminder), ⟨7, ascii "al", ascii "x  y"⟩],
      Storable r ∧ nul ∉ r.target ∧ nul ∉ r.text := by
    intro r hr
    simp only [List.mem_cons, List.not_mem_nil, or_false] at hr
    rcases hr with rfl | rfl
    · exact ⟨⟨by decide, by decide, by decide⟩, by decide, by decide⟩
    · exact ⟨⟨by decide, by decide, by decide⟩, by decide, by decide⟩
  obtain ⟨bot', pending, hrun, hsort, hstart, -⟩ :=
    @restore_undoes_save (.still 5 (by decide)) (fun _ => rfl) { Bot.new with reminders := some [] }
      rfl rfl _ hrs
  exact ⟨bot', pending, hrun, hsort, hstart⟩

end Botniklas
