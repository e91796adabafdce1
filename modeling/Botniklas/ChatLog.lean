import Botniklas.Bot

/-! What is to be logged: each entry is the time it was made at and its text. -/
namespace Botniklas
open Foundation

def logAppend (env : Env) (bot : Bot) (text : Bytes) : Bot :=
  let (now, bot) := bot.time env
  if now = -1 then bot else { bot with chatLog := bot.chatLog ++ [(now, text)] }

/-- `nick (user@host)`. -/
def hostmask (nick user : Bytes) (host : Option Bytes) : Bytes :=
  nick ++ ascii " (" ++ user ++ ascii "@" ++ host.getD (ascii "<unknown>") ++ ascii ")"

/-- The text a user left behind, if any. -/
def remark : Option Bytes → Bytes
  | none => []
  | some text => ascii ": " ++ text

section Entries
variable (env : Env) (bot : Bot)

def logJoin (nick user : Bytes) (host : Option Bytes) (channel : Bytes) : Bot :=
  logAppend env bot (channel ++ ascii "  " ++ hostmask nick user host ++ ascii " joined")

def logKick (nick channel kickee : Bytes) (text : Option Bytes) : Bot :=
  logAppend env bot (channel ++ ascii "  " ++ kickee ++ ascii " was kicked by " ++ nick ++
    remark text)

def logNick (nick target : Bytes) : Bot :=
  logAppend env bot (nick ++ ascii " changed nick to " ++ target)

def logPart (nick user : Bytes) (host : Option Bytes) (channel : Bytes) (text : Option Bytes) :
    Bot :=
  logAppend env bot (channel ++ ascii "  " ++ hostmask nick user host ++ ascii " left" ++
    remark text)

def logPrivmsg (nick target text : Bytes) : Bot :=
  logAppend env bot (target ++ ascii "  <" ++ nick ++ ascii "> " ++ text)

def logQuit (nick user : Bytes) (host text : Option Bytes) : Bot :=
  logAppend env bot (hostmask nick user host ++ ascii " quit" ++ remark text)

end Entries

/-- One instant later, with one more entry in the chat log. -/
theorem logAppend_eq (env : Env) (bot : Bot) (text : Bytes) :
    logAppend env bot text = { bot with
      instant := bot.instant + 1
      chatLog := bot.chatLog ++ [(env.clock.now bot.instant, text)] } := by
  have hpos := env.clock.pos bot.instant
  unfold logAppend Bot.time
  dsimp only
  rw [if_neg (by omega)]

end Botniklas
