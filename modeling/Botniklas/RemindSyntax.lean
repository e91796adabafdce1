import Botniklas.AllOrNothing
import Mathlib.Data.Multiset.ZeroCons

/-! The syntax `!remind` documents, against what it accepts. -/
namespace Botniklas
open Foundation

/-- One space. -/
def Sep.Single (s : Sep) : Prop := s.bytes = [space]

/-- Parts are separated by one space, and nothing stands before the first. -/
def DateText.Plain (d : DateText) : Prop :=
  d.lead.bytes = [] ∧ ∀ day ∈ d.day, day.sep.Single ∧ ∀ y ∈ day.year, y.sep.Single

/-- `hh:mm[:ss] [dd/MM [yy]] <text>`. -/
structure Reading (arg : Bytes) (d : DateText) (text : Bytes) : Prop where
  plain : d.Plain
  bytes : arg = d.bytes ++ space :: text
  nonempty : text ≠ []

/-- How many of date and year are written. -/
def DateText.parts (d : DateText) : Nat := if d.year.isSome then 2 else if d.day.isSome then 1 else 0

/-- The reading with the most date parts. -/
structure MaximalReading (arg : Bytes) (d : DateText) (text : Bytes) : Prop
    extends Reading arg d text where
  most : ∀ d' text', Reading arg d' text' → d'.parts ≤ d.parts

/-- One reminder is registered, for this time and with this text. -/
def RegistersReminder (env : Env) (bot : Bot) (arg rep : Bytes) (when : Int) (text : Bytes) : Prop :=
  ∃ data, (handleRemind env bot (some arg) rep).queue =
      bot.queue.addTimeEvent ⟨when, .remind, data⟩ ∧
    target data = rep ∧ reminder data = text

/-- The first byte after leading whitespace is a digit. -/
def BeginsWithDigit (text : Bytes) : Prop :=
  ∃ b ∈ (text.dropWhile isspace).head?, isdigit b = true

theorem startsPart_cons_iff (text : Bytes) :
    StartsPart (space :: text) ↔ BeginsWithDigit text := by
  unfold StartsPart BeginsWithDigit
  rw [List.dropWhile_cons_of_pos rfl]
  exact and_iff_right rfl

section Texts
variable {d : DateText} {text : Bytes}

theorem Sep.Single.spaced {s : Sep} (h : s.Single) : s.Spaced := by
  unfold Sep.Spaced
  rw [h]
  rfl

theorem DateText.Plain.spaced (h : d.Plain) : d.Spaced := fun day hday =>
  ⟨(h.2 day hday).1.spaced, fun y hy => ((h.2 day hday).2 y hy).spaced⟩

/-- The date is read to its end unless its text goes on like a date. -/
theorem DateText.endsBefore_space_iff :
    d.EndsBefore (space :: text) ↔ d.year.isSome ∨ ¬ BeginsWithDigit text := by
  have hend : ∀ n : Numeral, n.EndsBefore (space :: text) := fun n => n.endsBefore_cons rfl
  have htime : EndsTime d.min d.sec (space :: text) := endsTime_of_space _ _ rfl
  unfold DateText.EndsBefore DateText.year
  cases d.day with
  | none => simp [htime, startsPart_cons_iff]
  | some day =>
    dsimp only [Option.bind_some]
    unfold DayText.EndsBefore
    cases day.year with
    | none => simp [hend, startsPart_cons_iff]
    | some y => simp [hend]

/-! Counting spaces tells a text with a year from one without. -/

private theorem Numeral.count_space (n : Numeral) : n.digits.count space = 0 :=
  List.count_eq_zero.mpr fun h => absurd (n.all _ h) (by decide)

private theorem DayText.count_space (day : DayText) : day.bytes.count space =
    day.sep.bytes.count space + day.year.elim 0 fun y => y.sep.bytes.count space := by
  have hslash : (slash :: day.mon.digits).count space = 0 := by
    rw [List.count_cons_of_ne (by decide), Numeral.count_space]
  unfold DayText.bytes
  rw [List.count_append, List.count_append, List.count_append, hslash, Numeral.count_space]
  cases day.year with
  | none => rfl
  | some y =>
    simp only [Option.elim_some, YearText.bytes, List.count_append, Numeral.count_space]
    rfl

private theorem DateText.count_space (d : DateText) : d.bytes.count space =
    d.lead.bytes.count space + d.day.elim 0 fun day => day.bytes.count space := by
  have hcolon : ∀ n : Numeral, (colon :: n.digits).count space = 0 := fun n => by
    rw [List.count_cons_of_ne (by decide), Numeral.count_space]
  have hsec : (d.sec.elim [] fun s => colon :: s.digits).count space = 0 := by
    cases d.sec with
    | none => rfl
    | some s => exact hcolon s
  unfold DateText.bytes
  rw [List.count_append, List.count_append, List.count_append, List.count_append, hsec, hcolon,
    Numeral.count_space]
  cases d.day <;> rfl

private theorem Sep.Spaced.count_pos {s : Sep} (h : s.Spaced) : 0 < s.bytes.count space :=
  List.count_pos_iff.mpr (List.mem_of_mem_head? h)

private theorem Sep.Single.count {s : Sep} (h : s.Single) : s.bytes.count space = 1 := by
  rw [h]
  rfl

/-- A text that reads with a year has none without. -/
theorem year_of_same_bytes {d' : DateText} (h : d.Plain) (h' : d'.Spaced)
    (hbytes : d'.bytes = d.bytes) (hyear : d'.year.isSome) : d.year.isSome := by
  obtain ⟨y', hy'⟩ := Option.isSome_iff_exists.mp hyear
  obtain ⟨day', hday', hyear'⟩ := Option.bind_eq_some_iff.mp hy'
  obtain ⟨hsep', hyears'⟩ := h' day' hday'
  have hcount' := d'.count_space
  rw [hday', Option.elim_some, DayText.count_space, hyear', Option.elim_some, hbytes,
    d.count_space, h.1] at hcount'
  have hpos := hsep'.count_pos
  have hpos' := Sep.Spaced.count_pos (hyears' y' hyear')
  unfold DateText.year
  cases hday : d.day with
  | none =>
    rw [hday] at hcount'
    simp only [Option.elim_none, List.count_nil] at hcount'
    omega
  | some day =>
    rw [hday, Option.elim_some, DayText.count_space, (h.2 day hday).1.count] at hcount'
    cases hy : day.year with
    | none =>
      rw [hy] at hcount'
      simp only [Option.elim_none, List.count_nil] at hcount'
      omega
    | some y =>
      rw [Option.bind_some, hy]
      rfl

end Texts

/-- A list says which event was added to it. -/
theorem EventList.addTimeEvent_inj {η δ : Type} {q : EventList η δ} {r r' : Registration η δ}
    (h : q.addTimeEvent r = q.addTimeEvent r') : r = r' := by
  have hperm := congrArg EventList.start h
  rw [EventList.addTimeEvent_start, EventList.addTimeEvent_start] at hperm
  have h₁ : (insertAfter TimeEvent.when (q.node r) q.start).Perm (q.node r :: q.start) :=
    insertAfter_perm
  have h₂ : (insertAfter TimeEvent.when (q.node r') q.start).Perm (q.node r' :: q.start) :=
    insertAfter_perm
  rw [hperm] at h₁
  have hnode : q.node r = q.node r' :=
    (Multiset.cons_inj_left (q.start : Multiset (TimeEvent η δ))).mp (Multiset.coe_eq_coe.mpr (h₁.symm.trans h₂))
  exact congrArg TimeEvent.registration hnode

section Remind
variable {env : Env} {bot : Bot} {arg rep text : Bytes} {d : DateText} {when : Int}

/-- What is registered was parsed. -/
private theorem parsed_of_registers (hrep : nul ∉ rep) (harg : nul ∉ arg)
    (h : RegistersReminder env bot arg rep when text) :
    parseDate env.zone (env.clock.now bot.instant) arg = (when, space :: text) ∧
      env.clock.now (bot.instant + 1) ≤ when := by
  obtain ⟨data, hqueue, htarget, hreminder⟩ := h
  rcases handleRemind_checks env bot (some arg) rep with ⟨-, _, -, i, -, hrefusal⟩ |
    ⟨-, arg', when', text', hsome, hparse, -, hwhen, haccept⟩
  · rw [hrefusal] at hqueue
    have hfresh := congrArg EventList.fresh hqueue
    rw [EventList.addTimeEvent_fresh] at hfresh
    exact absurd hfresh.symm (Nat.succ_ne_self _)
  · cases hsome
    rw [haccept] at hqueue
    have hr := EventList.addTimeEvent_inj (q := bot.queue) (r := Reminder.registration ⟨when', rep, text'⟩)
      hqueue
    simp only [Reminder.registration, Registration.mk.injEq, true_and] at hr
    obtain ⟨rfl, rfl⟩ := hr
    have hsuffix := parseDate_suffix env.zone (env.clock.now bot.instant) arg
    rw [hparse] at hsuffix
    rw [reminder_reminderData hrep fun h0 =>
      harg (hsuffix.subset (List.mem_cons_of_mem _ h0))] at hreminder
    rw [← hreminder]
    exact ⟨hparse, hwhen⟩

/-- A date that is a time not yet past and is read to its end is registered. -/
private theorem registers_of_endsBefore (hrep : nul ∉ rep) (harg : nul ∉ arg)
    (h : Reading arg d text) (hends : d.EndsBefore (space :: text))
    (hvalid : (d.fields (localtime env.zone (env.clock.now bot.instant))).InRange)
    (hyear : (d.fields (localtime env.zone (env.clock.now bot.instant))).year < 138)
    (hwhen : env.clock.now (bot.instant + 1) ≤
      (d.fields (localtime env.zone (env.clock.now bot.instant))).seconds - env.zone) :
    RegistersReminder env bot arg rep
      ((d.fields (localtime env.zone (env.clock.now bot.instant))).seconds - env.zone) text := by
  have hpos := env.clock.pos (bot.instant + 1)
  have hparse := (@parseDate_bytes env.zone _ _ (env.clock.ne bot.instant) d h.plain.spaced
    hends).1 (fun y hy => ?_) hvalid (by omega)
  · rw [← h.bytes] at hparse
    rcases handleRemind_checks env bot (some arg) rep with ⟨hrefused, -⟩ |
      ⟨-, arg', when', text', hsome, hparse', -, -, haccept⟩
    · unfold Refused at hrefused
      dsimp only at hrefused
      rw [hparse] at hrefused
      rcases hrefused with h1 | h1 | h1 | h1
      · omega
      · exact absurd rfl h1
      · exact absurd h1 h.nonempty
      · omega
    · cases hsome
      rw [hparse] at hparse'
      cases hparse'
      unfold RegistersReminder
      rw [haccept]
      have htext : nul ∉ text := fun h0 => harg (h.bytes ▸ by simp [h0])
      exact ⟨reminderData rep text, rfl, target_reminderData hrep,
        reminder_reminderData hrep htext⟩
  · have := DateText.year_fields_some hy (localtime env.zone (env.clock.now bot.instant))
    omega

end Remind

/-- A reading whose time is valid, not past and before 2038 is registered as it
stands if and only if it has a year or its text does not begin like a number. This
holds of the reading with the most parts and of any other. -/
theorem remind_accepts_syntax_iff {env : Env} {bot : Bot} {arg rep text : Bytes} {d : DateText}
    (hrep : nul ∉ rep) (harg : nul ∉ arg) (h : Reading arg d text)
    (hvalid : (d.fields (localtime env.zone (env.clock.now bot.instant))).InRange)
    (hyear : (d.fields (localtime env.zone (env.clock.now bot.instant))).year < 138)
    (hwhen : env.clock.now (bot.instant + 1) ≤
      (d.fields (localtime env.zone (env.clock.now bot.instant))).seconds - env.zone) :
    RegistersReminder env bot arg rep
      ((d.fields (localtime env.zone (env.clock.now bot.instant))).seconds - env.zone) text ↔
    d.year.isSome ∨ ¬ BeginsWithDigit text := by
  constructor
  · intro hregisters
    obtain ⟨hparse, hnow⟩ := parsed_of_registers hrep harg hregisters
    have hpos := env.clock.pos (bot.instant + 1)
    obtain ⟨d', hspaced, hbytes, hends, -⟩ :=
      parseDate_sound (env.clock.ne bot.instant) hparse (by omega)
    have hsame : d'.bytes = d.bytes := List.append_cancel_right (hbytes.symm.trans h.bytes)
    rcases DateText.endsBefore_space_iff.mp hends with hsome | hdigit
    · exact .inl (year_of_same_bytes h.plain hspaced hsame hsome)
    · exact .inr hdigit
  · intro hcond
    exact registers_of_endsBefore hrep harg h (DateText.endsBefore_space_iff.mpr hcond) hvalid
      hyear hwhen

/-- Every use of the documented syntax for a time that can come is registered. -/
def AcceptsSyntax : Prop :=
  ∀ (env : Env) (bot : Bot) (arg rep text : Bytes) (d : DateText), nul ∉ rep → nul ∉ arg →
    MaximalReading arg d text →
    (d.fields (localtime env.zone (env.clock.now bot.instant))).InRange →
    (d.fields (localtime env.zone (env.clock.now bot.instant))).year < 138 →
    env.clock.now (bot.instant + 1) ≤
      (d.fields (localtime env.zone (env.clock.now bot.instant))).seconds - env.zone →
    RegistersReminder env bot arg rep
      ((d.fields (localtime env.zone (env.clock.now bot.instant))).seconds - env.zone) text

/-- Without a slash there is no date. -/
private theorem parts_of_no_slash {arg text : Bytes} {d : DateText} (h : Reading arg d text)
    (hslash : slash ∉ arg) : d.parts = 0 := by
  have hday : d.day = none := by
    cases hday : d.day with
    | none => rfl
    | some day =>
      refine absurd ?_ hslash
      rw [h.bytes]
      simp [DateText.bytes, hday, DayText.bytes]
  unfold DateText.parts DateText.year
  rw [hday]
  rfl

/-- The time of day alone. -/
def quarterToThree : DateText where
  lead := .none
  hour := ⟨ascii "14", .inr rfl, List.all_eq_true.mp rfl⟩
  min := ⟨ascii "45", .inr rfl, List.all_eq_true.mp rfl⟩
  sec := none
  day := none

/-- `14:45 5 apples` is refused: the 5 is taken for a day. -/
theorem apples_refused : ¬ AcceptsSyntax := by
  intro h
  have hreading : Reading (ascii "14:45 5 apples") quarterToThree (ascii "5 apples") :=
    ⟨⟨rfl, by rintro _ ⟨⟩⟩, by decide, by decide⟩
  have hmost : ∀ d' text', Reading (ascii "14:45 5 apples") d' text' →
      d'.parts ≤ quarterToThree.parts := fun d' text' h' =>
    (parts_of_no_slash h' (by decide)).trans_le (Nat.zero_le _)
  have hvalid : (quarterToThree.fields (localtime 0 1)).InRange := by
    refine ⟨?_, ?_, ?_, ?_, ?_⟩ <;> decide
  obtain ⟨data, hqueue, -⟩ := h (.still 1 (by decide)) .new _ (ascii "#c") _ quarterToThree
    (by decide) (by decide) ⟨hreading, hmost⟩ hvalid (by decide) (by decide)
  have hfresh := congrArg EventList.fresh hqueue
  rw [EventList.addTimeEvent_fresh] at hfresh
  exact absurd hfresh (by decide)

theorem tea_registered : RegistersReminder (.still 1 (by decide)) .new (ascii "14:45 tea")
    (ascii "#c") 53100 (ascii "tea") := by
  have hreading : Reading (ascii "14:45 tea") quarterToThree (ascii "tea") :=
    ⟨⟨rfl, by rintro _ ⟨⟩⟩, by decide, by decide⟩
  have hiff := @remind_accepts_syntax_iff (.still 1 (by decide)) .new _ (ascii "#c") _ _ (by decide)
    (by decide) hreading ?_ (by decide) (by decide)
  · refine hiff.mpr (.inr ?_)
    rintro ⟨b, hb, hdigit⟩
    cases hb
    exact absurd hdigit (by decide)
  · refine ⟨?_, ?_, ?_, ?_, ?_⟩ <;> decide

end Botniklas
