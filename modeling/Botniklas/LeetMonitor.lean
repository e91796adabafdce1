import Botniklas.Bot
import Mathlib.Order.Bounds.Basic

/-! The monitor of 13:37, which schedules its own next round. -/
namespace Botniklas
open Foundation

def leetChannel : Bytes := ascii "#code.se"
def leetHour : Int := 13
def leetMinute : Int := 37

def at1337 (bot : Bot) : Bot := { bot with want1337 := true }

/-- The fields of `tm` as `mktime` leaves them, and the bot. -/
def addTimeEventTm (zone : Int) (bot : Bot) (tm : Tm) (handler : Handler) : Tm × Bot :=
  let (t, tm) := mktime zone tm
  if t = -1 then (tm, bot) else (tm, bot.addTimeEvent ⟨t, handler, []⟩)

/-- 13:37:00, tomorrow if the minute has already begun. -/
def leetTm (tm : Tm) : Tm :=
  let tm :=
    if tm.hour > leetHour ∨ (tm.hour = leetHour ∧ tm.min ≥ leetMinute) then
      { tm with mday := tm.mday + 1 }
    else tm
  { tm with hour := leetHour, min := leetMinute, sec := 0 }

def scheduleNext1337 (env : Env) (bot : Bot) : Bot :=
  let (now, bot) := bot.time env
  match getCurrentTime env.zone now with
  | none => bot
  | some tm =>
    let (tm, bot) := addTimeEventTm env.zone bot (leetTm tm) .at1337
    let tm := { tm with min := leetMinute + 1 }
    (addTimeEventTm env.zone bot tm .at1338).2

def at1338 (env : Env) (bot : Bot) : Bot :=
  let bot :=
    if bot.want1337 then
      { bot with want1337 := false }.say .at1338 leetChannel (ascii "No one was 1337 today. :(")
    else bot
  scheduleNext1337 env bot

/-- `strstr(text, "1337") != NULL`. -/
def says1337 (text : Bytes) : Bool := decide (ascii "1337" <:+: text)

def leetMonitorPrivmsg (bot : Bot) (nick target text : Bytes) : Bot :=
  if bot.want1337 && target = leetChannel && says1337 text then
    { bot.say .leetMonitorPrivmsg leetChannel (nick ++ ascii " is the 1337est!!!") with
      want1337 := false }
  else bot

def initLeetMonitor (env : Env) (bot : Bot) : Bot := scheduleNext1337 env bot

/-- The first 13:37:00 after `now`: as many seconds on as the time of day lacks. -/
def next1337 (zone now : Int) : Int := now + 1 + (49020 - (now + 1 + zone)) % 86400

theorem lt_next1337 (zone now : Int) : now < next1337 zone now := by
  unfold next1337
  omega

/-- The local time of day is 13:37:00. -/
def Is1337 (zone t : Int) : Prop :=
  (localtime zone t).hour = leetHour ∧ (localtime zone t).min = leetMinute ∧
    (localtime zone t).sec = 0

theorem is1337_iff (zone t : Int) : Is1337 zone t ↔ (t + zone) % 86400 = 49020 := by
  have hhour : (localtime zone t).hour = (t + zone) / 3600 % 24 := rfl
  have hmin : (localtime zone t).min = (t + zone) / 60 % 60 := rfl
  have hsec : (localtime zone t).sec = (t + zone) % 60 := rfl
  unfold Is1337 leetHour leetMinute
  rw [hhour, hmin, hsec]
  omega

theorem next1337_isLeast (zone now : Int) : IsLeast {t | now < t ∧ Is1337 zone t} (next1337 zone now) := by
  constructor
  · refine ⟨lt_next1337 zone now, ?_⟩
    rw [is1337_iff]
    unfold next1337
    omega
  · rintro t ⟨hlt, ht⟩
    rw [is1337_iff] at ht
    unfold next1337
    omega

/-- What one round registers, in order. -/
def leetRound (zone now : Int) : List (Registration Handler Bytes) :=
  [⟨next1337 zone now, .at1337, []⟩, ⟨next1337 zone now + 60, .at1338, []⟩]

private theorem addTimeEventTm_eq (zone : Int) (bot : Bot) (tm : Tm) (handler : Handler)
    (h : tm.seconds - zone ≠ -1) : addTimeEventTm zone bot tm handler =
      (Tm.ofSeconds tm.seconds, bot.addTimeEvent ⟨tm.seconds - zone, handler, []⟩) := by
  simp [addTimeEventTm, mktime, h]

private theorem seconds_leetTm (zone now : Int) :
    (leetTm (localtime zone now)).seconds = next1337 zone now + zone := by
  have hs : (localtime zone now).seconds = now + zone := Tm.seconds_ofSeconds _
  have hhour : (localtime zone now).hour = (now + zone) / 3600 % 24 := rfl
  have hmin : (localtime zone now).min = (now + zone) / 60 % 60 := rfl
  have hsec : (localtime zone now).sec = (now + zone) % 60 := rfl
  generalize localtime zone now = tm at hs hhour hmin hsec
  unfold leetTm leetHour leetMinute next1337
  dsimp only
  split_ifs with hpast
  · rw [Tm.seconds_set_time, Tm.seconds_add_mday]
    dsimp only
    omega
  · rw [Tm.seconds_set_time]
    omega

private theorem seconds_next_minute {t : Int} (ht : t % 86400 = 49020) :
    ({ Tm.ofSeconds t with min := leetMinute + 1 } : Tm).seconds = t + 60 := by
  have hs := Tm.seconds_ofSeconds t
  have hmin : (Tm.ofSeconds t).min = t / 60 % 60 := rfl
  have hset := Tm.seconds_set_time (Tm.ofSeconds t) (Tm.ofSeconds t).hour (leetMinute + 1)
    (Tm.ofSeconds t).sec
  rw [hs, hmin] at hset
  apply hset.trans
  unfold leetMinute
  omega

/-- One round registers the next 13:37 and the minute after it. -/
theorem scheduleNext1337_eq (env : Env) (bot : Bot) :
    scheduleNext1337 env bot = { bot with
      instant := bot.instant + 1
      queue := bot.queue.addAll (leetRound env.zone (env.clock.now bot.instant)) } := by
  have hpos := env.clock.pos bot.instant
  have hlt := lt_next1337 env.zone (env.clock.now bot.instant)
  have hfirst := seconds_leetTm env.zone (env.clock.now bot.instant)
  have hsecond := seconds_next_minute
    (t := next1337 env.zone (env.clock.now bot.instant) + env.zone) (by unfold next1337; omega)
  unfold scheduleNext1337 Bot.time
  dsimp only
  rw [getCurrentTime_of_ne (env.clock.ne _)]
  dsimp only
  rw [addTimeEventTm_eq _ _ (leetTm _) .at1337 (by omega), hfirst]
  dsimp only at hsecond ⊢
  rw [addTimeEventTm_eq _ _ _ .at1338 (by omega), hsecond, Int.add_sub_cancel,
    show next1337 env.zone (env.clock.now bot.instant) + env.zone + 60 - env.zone =
      next1337 env.zone (env.clock.now bot.instant) + 60 by omega]
  rfl

/-- Two events are registered: the first 13:37:00 after now, whatever carries the
next day takes, and the minute after it. -/
theorem schedule_next_1337_picks_least (env : Env) (bot : Bot) :
    ∃ t, IsLeast {t | env.clock.now bot.instant < t ∧ Is1337 env.zone t} t ∧
      scheduleNext1337 env bot = { bot with
        instant := bot.instant + 1
        queue := bot.queue.addAll [⟨t, .at1337, []⟩, ⟨t + 60, .at1338, []⟩] } :=
  ⟨next1337 env.zone (env.clock.now bot.instant), next1337_isLeast _ _, scheduleNext1337_eq env bot⟩

end Botniklas
