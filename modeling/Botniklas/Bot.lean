import Botniklas.Irc.Message
import Botniklas.TimeEvent
import Botniklas.WriteMsg
import Botniklas.Foundation.Calendar
import Mathlib.Order.Monotone.Defs
import Mathlib.Data.Int.ConditionallyCompleteOrder

/-! The state the handlers share, and what they do seen from outside. -/
namespace Botniklas
open Foundation Irc

/-- The clock at successive instants; each call of `time()` reads one. -/
structure Clock where
  now : Nat → Int
  mono : Monotone now
  pos : ∀ n, 0 < now n

/-- What becomes of a record appended to a file: the open may fail, and a write
may stop after some bytes. -/
inductive Append where
  | whole
  | cut (n : Nat)
  | unopened
  deriving DecidableEq, Repr

/-- The clock never shows the error value. -/
theorem Clock.ne (clock : Clock) (n : Nat) : clock.now n ≠ -1 := by
  have hpos := clock.pos n
  omega

def Clock.still (t : Int) (h : 0 < t) : Clock := ⟨fun _ => t, monotone_const, fun _ => h⟩

/-- The zone is a fixed number of seconds ahead of UTC. -/
structure Env where
  clock : Clock
  zone : Int
  append : Nat → Append

/-- A standing clock, and files that take what they are given. -/
def Env.still (t : Int) (h : 0 < t) : Env := ⟨.still t h, 0, fun _ => .whole⟩

/-- The command character is the one byte of a string of length one. -/
structure Options where
  channel : Bytes
  cmdChar : UInt8
  cmdChar_ne : cmdChar ≠ nul
  nick : Bytes
  quitMessage : Bytes
  realname : Bytes
  username : Bytes
  exitOnInvalidMsg : Bool
  deriving DecidableEq, Repr

def Options.default : Options where
  channel := ascii "#botniklas"
  cmdChar := bang
  cmdChar_ne := by decide
  nick := ascii "botniklas"
  quitMessage := ascii "botniklas IRC bot signing off"
  realname := ascii "botniklas"
  username := ascii "botniklas"
  exitOnInvalidMsg := false

/-- The functions registered with the event list. -/
inductive Handler where
  | remind
  | at1337
  | at1338
  deriving DecidableEq, Repr

structure Reminder where
  when : Int
  target : Bytes
  text : Bytes
  deriving DecidableEq, Repr

/-- The function a message to the server comes from. -/
inductive Writer where
  | login
  | pong
  | join
  | quit
  | command
  | remind
  | leetMonitorPrivmsg
  | at1338
  deriving DecidableEq, Repr

inductive Obs where
  | handled (msg : MsgView)
  | accept (r : Reminder)
  | call (handler : Handler)
  | write (writer : Writer) (call : WriteCall) (instant : Nat)
  deriving DecidableEq, Repr

def Obs.accepted : Obs → Option Reminder
  | .accept r => some r
  | _ => none

def Obs.handledMsg : Obs → Option MsgView
  | .handled msg => some msg
  | _ => none

/-- `reminders` is the reminders file, none while it does not exist; `chatLog` is what
`log_append` is to append, whatever becomes of that; `trace` is a history that no
function of the bot reads. -/
structure Bot where
  instant : Nat
  queue : EventList Handler Bytes
  want1337 : Bool
  reminders : Option Bytes
  chatLog : List (Int × Bytes)
  trace : List Obs
  deriving DecidableEq, Repr

namespace Bot

/-- A process that has not run before and finds no file. -/
def new : Bot := ⟨0, .empty, false, none, [], []⟩

/-- `time(NULL)`. -/
def time (env : Env) (bot : Bot) : Int × Bot :=
  (env.clock.now bot.instant, { bot with instant := bot.instant + 1 })

def observe (bot : Bot) (o : Obs) : Bot := { bot with trace := bot.trace ++ [o] }

def write (bot : Bot) (writer : Writer) (call : WriteCall) : Bot :=
  bot.observe (.write writer call bot.instant)

def say (bot : Bot) (writer : Writer) (target text : Bytes) : Bot :=
  bot.write writer (.say target text)

def addTimeEvent (bot : Bot) (r : Registration Handler Bytes) : Bot :=
  { bot with queue := bot.queue.addTimeEvent r }

/-- Where the bot keeps its event list. -/
def queueIn : QueueIn Bot Handler Bytes where
  get := queue
  set bot q := { bot with queue := q }
  get_set _ _ := rfl

end Bot

/-- `localtime_r` of what `time()` answered, unless that is the error value. -/
def getCurrentTime (zone now : Int) : Option Tm :=
  if now = -1 then none else some (localtime zone now)

theorem getCurrentTime_of_ne {zone now : Int} (h : now ≠ -1) :
    getCurrentTime zone now = some (localtime zone now) := if_neg h

end Botniklas
