import Botniklas.Date
import Botniklas.LeetMonitor
import Botniklas.Foundation.Split

/-! Reminders: accepted from a command, saved to a file that only grows, and
announced by a timed event that carries target and text in one array. -/
namespace Botniklas
open Foundation

/-- The line saved for a reminder. -/
def record (when : Int) (target message : Bytes) : Bytes :=
  decimalInt when ++ space :: target ++ space :: message ++ [lf]

/-- A file after an attempt to append `data` to it. -/
def Append.file (outcome : Append) (old : Option Bytes) (data : Bytes) : Option Bytes :=
  match outcome with
  | .whole => some (old.getD [] ++ data)
  | .cut n => some (old.getD [] ++ data.take n)
  | .unopened => old

def saveReminder (env : Env) (bot : Bot) (when : Int) (target message : Bytes) : Bot :=
  { bot with
    reminders := (env.append bot.instant).file bot.reminders (record when target message) }

/-! The packed array: the target, a terminator, the message, a terminator. -/

def target (targetAndReminder : Bytes) : Bytes := before nul targetAndReminder

def reminder (targetAndReminder : Bytes) : Bytes := before nul (after nul targetAndReminder).tail

def remind (data : Bytes) (bot : Bot) : Bot :=
  bot.say .remind (target data) (ascii "REMINDER: " ++ reminder data)

/-- The array built for a reminder just accepted. -/
def reminderData (rep cur : Bytes) : Bytes := rep ++ [nul] ++ (cur ++ [nul])

/-- `%u <unit>%s`, with the plural. -/
def amount (n : Nat) (unit : Bytes) : Bytes :=
  decimal n ++ space :: unit ++ if n = 1 then [] else ascii "s"

/-- The pieces of the reply; the amounts are unsigned 32-bit. -/
def confirmation (diff : Int) : List Bytes :=
  let nDays := (diff / (60 * 60 * 24) % 2 ^ 32).toNat
  let nHours := (diff / (60 * 60) % 24).toNat
  let nMinutes := (diff / 60 % 60).toNat
  let nSeconds := (diff % 60).toNat
  [ascii "I will remind you in approx. "] ++
  (if nDays ≠ 0 then [amount nDays (ascii "day") ++ ascii ", "] else []) ++
  (if nHours ≠ 0 then [amount nHours (ascii "hour") ++ ascii ", "] else []) ++
  (if nMinutes ≠ 0 then [amount nMinutes (ascii "minute") ++ ascii ", "] else []) ++
  [amount nSeconds (ascii "second") ++ ascii "!"]

def Reminder.registration (r : Reminder) : Registration Handler Bytes :=
  ⟨r.when, .remind, reminderData r.target r.text⟩

/-- The part from a time that has been parsed and found acceptable on. -/
def acceptReminder (env : Env) (bot : Bot) (r : Reminder) (now : Int) : Bot :=
  let bot := saveReminder env bot r.when r.target r.text
  let bot := (bot.addTimeEvent r.registration).observe (.accept r)
  bot.write .command (.compose r.target (confirmation (r.when - now)))

def handleRemind (env : Env) (bot : Bot) (arg : Option Bytes) (rep : Bytes) : Bot :=
  match arg with
  | none => bot.say .command rep (ascii "Error: No time given.")
  | some arg =>
    let (now, bot) := bot.time env
    let (when, cur) := parseDate env.zone now arg
    if when = -1 then
      bot.say .command rep (ascii "Error: Malformed or invalid time or date.")
    else if cur.head? ≠ some space then
      bot.say .command rep (ascii "Error: Expected a space and the message after the time.")
    else if cur.tail = [] then
      bot.say .command rep (ascii "Error: Empty reminder message.")
    else
      let cur := cur.tail
      let (now, bot) := bot.time env
      if now = -1 then
        bot.say .command rep (ascii "Failed to add reminder due to an unexpected error.")
      else if when < now then
        bot.say .command rep (ascii "Error: That's in the past.")
      else acceptReminder env bot ⟨when, rep, cur⟩ now

/-- The function behind a registered event. -/
def callHandler (env : Env) (handler : Handler) (data : Bytes) (bot : Bot) : Bot :=
  let bot := bot.observe (.call handler)
  match handler with
  | .remind => remind data bot
  | .at1337 => at1337 bot
  | .at1338 => at1338 env bot

/-- What the call of a handler registers. -/
def registers (env : Env) : Handler → Bytes → Bot → List (Registration Handler Bytes)
  | .at1338, _, bot => leetRound env.zone (env.clock.now bot.instant)
  | _, _, _ => []

theorem target_reminderData {rep cur : Bytes} (h : nul ∉ rep) :
    target (reminderData rep cur) = rep := by
  unfold target reminderData
  rw [List.append_assoc]
  exact before_append_cons h

theorem reminder_reminderData {rep cur : Bytes} (h : nul ∉ rep) (h' : nul ∉ cur) :
    reminder (reminderData rep cur) = cur := by
  have ha : after nul (reminderData rep cur) = nul :: (cur ++ [nul]) := by
    unfold reminderData
    rw [List.append_assoc]
    exact after_append_cons h
  unfold reminder
  rw [ha]
  exact before_append_cons h'

/-- `at_1338`, with the round it registers. -/
theorem at1338_eq (env : Env) (bot : Bot) : at1338 env bot =
    { bot with
      instant := bot.instant + 1
      queue := bot.queue.addAll (leetRound env.zone (env.clock.now bot.instant))
      want1337 := false
      trace := bot.trace ++ if bot.want1337 then [.write .at1338
        (.say leetChannel (ascii "No one was 1337 today. :(")) bot.instant] else [] } := by
  unfold at1338
  cases hw : bot.want1337 <;> simp [scheduleNext1337_eq, Bot.say, Bot.write, Bot.observe, hw]

theorem callHandler_at1338 (env : Env) (data : Bytes) (bot : Bot) :
    callHandler env .at1338 data bot = at1338 env (bot.observe (.call .at1338)) := rfl

/-- The handlers of the bot reach the event list through registrations alone. -/
def handlers (env : Env) : Handlers Bot.queueIn where
  call := callHandler env
  registers := registers env
  get_call handler data bot := by
    cases handler with
    | remind => rfl
    | at1337 => rfl
    | at1338 => exact congrArg Bot.queue (at1338_eq env _)

/-- The error messages of the command. -/
def refusals : List Bytes :=
  [ascii "Error: No time given.",
   ascii "Error: Malformed or invalid time or date.",
   ascii "Error: Expected a space and the message after the time.",
   ascii "Error: Empty reminder message.",
   ascii "Failed to add reminder due to an unexpected error.",
   ascii "Error: That's in the past."]

/-- A reply that is an error message. -/
def Refusal (bot bot' : Bot) (rep : Bytes) : Prop :=
  ∃ text ∈ refusals, ∃ i, bot.instant ≤ i ∧ bot' = { bot with
    instant := i
    trace := bot.trace ++ [.write .command (.say rep text) i] }

/-- A command either is refused with an error message and changes nothing, or is
accepted with a time that has not passed and a suffix of its argument. -/
theorem handleRemind_cases (env : Env) (bot : Bot) (arg : Option Bytes) (rep : Bytes) :
    Refusal bot (handleRemind env bot arg rep) rep ∨
    ∃ arg' when text, arg = some arg' ∧ text ≠ [] ∧ text <:+ arg' ∧
      env.clock.now (bot.instant + 1) ≤ when ∧
      handleRemind env bot arg rep = acceptReminder env { bot with instant := bot.instant + 2 }
        ⟨when, rep, text⟩ (env.clock.now (bot.instant + 1)) := by
  have refusal : ∀ text ∈ refusals, ∀ i, bot.instant ≤ i →
      Refusal bot ({ bot with instant := i }.say .command rep text) rep := fun text ht i hi =>
    ⟨text, ht, i, hi, rfl⟩
  cases arg with
  | none => exact .inl (refusal _ (by simp [refusals]) _ (Nat.le_refl _))
  | some arg =>
    have hsuffix := parseDate_suffix env.zone (env.clock.now bot.instant) arg
    unfold handleRemind Bot.time
    dsimp only
    generalize parseDate env.zone (env.clock.now bot.instant) arg = parsed at hsuffix ⊢
    obtain ⟨when, cur⟩ := parsed
    dsimp only at hsuffix ⊢
    split_ifs with h1 h2 h3 h4 h5
    · exact .inl (refusal _ (by simp [refusals]) _ (Nat.le_succ _))
    · exact .inl (refusal _ (by simp [refusals]) _ (Nat.le_succ _))
    · exact .inl (refusal _ (by simp [refusals]) _ (Nat.le_succ _))
    · exact .inl (refusal _ (by simp [refusals]) _ (Nat.le_add_right _ 2))
    · exact .inl (refusal _ (by simp [refusals]) _ (Nat.le_add_right _ 2))
    · exact .inr ⟨arg, when, cur.tail, rfl, h3, (List.tail_suffix _).trans hsuffix,
        Int.not_lt.mp h5, rfl⟩

end Botniklas
