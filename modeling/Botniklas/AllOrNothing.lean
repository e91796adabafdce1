import Botniklas.ParseDate
import Botniklas.Remind

/-! A reminder is refused and leaves nothing behind, or accepted and left in the
event list, in the file and in the reply alike. -/
namespace Botniklas
open Foundation Calendar

/-- What is refused. The clock is read once for the parts left out of the date
and once more for the comparison. -/
def Refused (env : Env) (bot : Bot) : Option Bytes → Prop
  | none => True
  | some arg =>
    let (when, cur) := parseDate env.zone (env.clock.now bot.instant) arg
    when = -1 ∨ cur.head? ≠ some space ∨ cur.tail = [] ∨ when < env.clock.now (bot.instant + 1)

/-- An amount of time in the units of the confirmation. -/
structure Amounts where
  days : Nat
  hours : Nat
  minutes : Nat
  seconds : Nat
  hours_lt : hours < 24
  minutes_lt : minutes < 60
  seconds_lt : seconds < 60

namespace Amounts

def total (a : Amounts) : Int := a.days * 86400 + a.hours * 3600 + a.minutes * 60 + a.seconds

/-- A unit is left out when there is none of it. -/
def part (n : Nat) (unit : Bytes) : List Bytes :=
  if n ≠ 0 then [amount n unit ++ ascii ", "] else []

def confirmation (a : Amounts) : List Bytes :=
  [ascii "I will remind you in approx. "] ++ part a.days (ascii "day") ++
    part a.hours (ascii "hour") ++ part a.minutes (ascii "minute") ++
    [amount a.seconds (ascii "second") ++ ascii "!"]

end Amounts

/-- The amounts in the reply add up, unless the days overflow. -/
theorem confirmation_eq {diff : Int} (h0 : 0 ≤ diff) (h : diff < 86400 * 2 ^ 32) :
    ∃ a : Amounts, a.total = diff ∧ confirmation diff = a.confirmation := by
  have hdays : diff / (60 * 60 * 24) % 2 ^ 32 = diff / 86400 := by omega
  refine ⟨⟨(diff / 86400).toNat, (diff / 3600 % 24).toNat, (diff / 60 % 60).toNat,
    (diff % 60).toNat, by omega, by omega, by omega⟩, ?_, ?_⟩
  · unfold Amounts.total
    dsimp only
    omega
  · unfold confirmation
    rw [hdays]
    rfl

/-- The effects of accepting a reminder, and the amounts in the reply. -/
structure Acceptance (env : Env) (bot bot' : Bot) (arg : Option Bytes) (rep : Bytes)
    (when : Int) (text data : Bytes) (a : Amounts) : Prop where
  parsed : ∃ arg', arg = some arg' ∧
    parseDate env.zone (env.clock.now bot.instant) arg' = (when, space :: text)
  nonempty : text ≠ []
  effects : bot' = { bot with
    instant := bot.instant + 2
    queue := bot.queue.addTimeEvent ⟨when, .remind, data⟩
    reminders := some (bot.reminders.getD [] ++ record when rep text)
    trace := bot.trace ++ [.accept ⟨when, rep, text⟩,
      .write .command (.compose rep a.confirmation) (bot.instant + 2)] }
  target : target data = rep
  reminder : reminder data = text
  total : a.total = when - env.clock.now (bot.instant + 1)

/-- No date lies so far ahead that its days do not fit an unsigned number. -/
theorem parseDate_near {zone now t : Int} (hzone : IsOffset zone) (hnow : 0 < now)
    {s rest : Bytes} (h : parseDate zone now s = (t, rest)) : t - now < 86400 * 2 ^ 32 := by
  by_cases ht : t = -1
  · omega
  obtain ⟨d, -, -, -, hy, hr, rfl⟩ := parseDate_sound (by omega) h ht
  have hlt := hr.year_spec.2
  obtain ⟨hlo, hhi⟩ := hzone
  cases hyear : d.year with
  | some y =>
    have hfields := DateText.year_fields_some hyear (localtime zone now)
    have hfits := hy y hyear
    have hmono := daysBeforeYear_mono
      (show (d.fields (localtime zone now)).year + 1900 + 1 ≤ 2038 by omega)
    have hend : daysBeforeYear 2038 = 24837 := by decide
    omega
  | none =>
    have hfields := DateText.year_fields_none hyear (localtime zone now)
    have hcur := (Tm.ofSeconds_inRange (now + zone)).year_spec.1
    rw [Tm.seconds_ofSeconds] at hcur
    have hsame : (localtime zone now).year = (Tm.ofSeconds (now + zone)).year := rfl
    rw [hfields, hsame, daysBeforeYear_succ] at hlt
    have hlen : yearLength (isLeap ((Tm.ofSeconds (now + zone)).year + 1900)) ≤ 366 := by
      unfold yearLength
      split <;> decide
    omega

section Remind
variable {env : Env} {bot : Bot} {arg : Option Bytes} {rep : Bytes}

/-- A refusal inserts no event and an acceptance does. -/
private theorem Acceptance.not_refusal {bot' : Bot} {when : Int} {text data : Bytes} {a : Amounts}
    (h : Acceptance env bot bot' arg rep when text data a) : ¬ Refusal bot bot' rep := by
  rintro ⟨_, -, i, -, hrefusal⟩
  have hfresh := congrArg (fun bot => bot.queue.fresh) (h.effects.symm.trans hrefusal)
  dsimp only at hfresh
  rw [EventList.addTimeEvent_fresh] at hfresh
  exact absurd hfresh (Nat.succ_ne_self _)

/-- The checks of the command are those of the condition. -/
theorem handleRemind_checks (env : Env) (bot : Bot) (arg : Option Bytes) (rep : Bytes) :
    (Refused env bot arg ∧ Refusal bot (handleRemind env bot arg rep) rep) ∨
    (¬ Refused env bot arg ∧ ∃ arg' when text, arg = some arg' ∧
      parseDate env.zone (env.clock.now bot.instant) arg' = (when, space :: text) ∧ text ≠ [] ∧
      env.clock.now (bot.instant + 1) ≤ when ∧
      handleRemind env bot arg rep = acceptReminder env { bot with instant := bot.instant + 2 }
        ⟨when, rep, text⟩ (env.clock.now (bot.instant + 1))) := by
  have refusal : ∀ text ∈ refusals, ∀ i, bot.instant ≤ i →
      Refusal bot ({ bot with instant := i }.say .command rep text) rep := fun text ht i hi =>
    ⟨text, ht, i, hi, rfl⟩
  cases arg with
  | none => exact .inl ⟨trivial, refusal _ (by simp [refusals]) _ (Nat.le_refl _)⟩
  | some arg =>
    have hpos := env.clock.pos (bot.instant + 1)
    unfold Refused handleRemind Bot.time
    dsimp only
    cases hparse : parseDate env.zone (env.clock.now bot.instant) arg with
    | mk when cur =>
      dsimp only
      split_ifs with h1 h2 h3 h4 h5
      · exact .inl ⟨.inl h1, refusal _ (by simp [refusals]) _ (Nat.le_succ _)⟩
      · exact .inl ⟨.inr (.inl h2), refusal _ (by simp [refusals]) _ (Nat.le_succ _)⟩
      · exact .inl ⟨.inr (.inr (.inl h3)), refusal _ (by simp [refusals]) _ (Nat.le_succ _)⟩
      · omega
      · exact .inl ⟨.inr (.inr (.inr h5)), refusal _ (by simp [refusals]) _ (Nat.le_add_right _ 2)⟩
      · rw [not_not] at h2
        obtain ⟨text, rfl⟩ := List.head?_eq_some_iff.mp h2
        refine .inr ⟨?_, arg, when, text, rfl, hparse, h3, Int.not_lt.mp h5, rfl⟩
        rintro (h | h | h | h)
        · exact h1 h
        · exact h rfl
        · exact h3 h
        · exact h5 h

/-- What has been accepted is the same in memory, on disk and in the reply. -/
private theorem acceptReminder_acceptance (hfiles : ∀ n, env.append n = .whole) (hrep : nul ∉ rep)
    {arg' text : Bytes} {when : Int} (harg : arg = some arg') (htext : nul ∉ text)
    (hparse : parseDate env.zone (env.clock.now bot.instant) arg' = (when, space :: text))
    (hne : text ≠ []) {a : Amounts} (htotal : a.total = when - env.clock.now (bot.instant + 1))
    (hconfirm : confirmation (when - env.clock.now (bot.instant + 1)) = a.confirmation) :
    Acceptance env bot (acceptReminder env { bot with instant := bot.instant + 2 }
      ⟨when, rep, text⟩ (env.clock.now (bot.instant + 1))) arg rep when text
      (reminderData rep text) a := by
  refine ⟨⟨arg', harg, hparse⟩, hne, ?_, target_reminderData hrep,
    reminder_reminderData hrep htext, htotal⟩
  unfold acceptReminder saveReminder
  dsimp only
  rw [hfiles, hconfirm]
  simp [Bot.write, Bot.observe, Bot.addTimeEvent, Append.file, Reminder.registration]

end Remind

/-- Exactly one of the two: the request is refused with one line and nothing else,
or it is accepted with one record, one event for the same time, target and text,
and one confirmation whose amounts add up. -/
theorem handle_remind_all_or_nothing {env : Env} (hzone : IsOffset env.zone)
    (hfiles : ∀ n, env.append n = .whole) (bot : Bot) {arg : Option Bytes} {rep : Bytes}
    (harg : ∀ a ∈ arg, nul ∉ a) (hrep : nul ∉ rep) :
    (Refused env bot arg ↔ Refusal bot (handleRemind env bot arg rep) rep) ∧
    (¬ Refused env bot arg ↔ ∃ when text data a,
      Acceptance env bot (handleRemind env bot arg rep) arg rep when text data a) := by
  rcases handleRemind_checks env bot arg rep with ⟨h, hrefusal⟩ |
    ⟨h, arg', when, text, hsome, hparse, hne, hwhen, he⟩
  · refine ⟨iff_of_true h hrefusal, iff_of_false (not_not.mpr h) ?_⟩
    rintro ⟨when, text, data, a, haccept⟩
    exact haccept.not_refusal hrefusal
  · have hnear := parseDate_near hzone (env.clock.pos _) hparse
    have hclock : env.clock.now bot.instant ≤ env.clock.now (bot.instant + 1) :=
      env.clock.mono (Nat.le_succ _)
    obtain ⟨a, htotal, hconfirm⟩ := confirmation_eq
      (show 0 ≤ when - env.clock.now (bot.instant + 1) by omega)
      (show when - env.clock.now (bot.instant + 1) < 86400 * 2 ^ 32 by omega)
    have htext : nul ∉ text := by
      intro h0
      have hsuffix := parseDate_suffix env.zone (env.clock.now bot.instant) arg'
      rw [hparse] at hsuffix
      exact harg arg' hsome (hsuffix.subset (List.mem_cons_of_mem _ h0))
    have haccept := acceptReminder_acceptance hfiles hrep hsome htext hparse hne htotal hconfirm
    rw [← he] at haccept
    exact ⟨iff_of_false h haccept.not_refusal, iff_of_true h ⟨when, text, _, a, haccept⟩⟩

/-- A reminder for two minutes past midnight, one second after it. -/
theorem tea_all_done : ∃ when text data a, Acceptance (.still 1 (by decide)) .new
    (handleRemind (.still 1 (by decide)) .new (some (ascii "0:02 tea")) (ascii "#c"))
    (some (ascii "0:02 tea")) (ascii "#c") when text data a := by
  refine (handle_remind_all_or_nothing ⟨by decide, by decide⟩ (fun _ => rfl) .new ?_
    (by decide)).2.mp ?_
  · rintro _ ⟨⟩
    decide
  · rintro (h | h | h | h)
    · exact absurd h (by decide)
    · exact absurd h (by decide)
    · exact absurd h (by decide)
    · exact absurd h (by decide)

end Botniklas
