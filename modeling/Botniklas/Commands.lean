import Botniklas.Remind

/-! The commands of the bot. None reads who sent it or where; the reply target
is all they are given of that. -/
namespace Botniklas
open Foundation

inductive Cmd where
  | commands
  | compliment
  | echo
  | help
  | remind
  deriving DecidableEq, Repr

namespace Cmd

/-- The table of the commands, in its order. -/
def table : List Cmd := [commands, compliment, echo, help, remind]

def cmd : Cmd → Bytes
  | commands => ascii "commands"
  | compliment => ascii "compliment"
  | echo => ascii "echo"
  | help => ascii "help"
  | remind => ascii "remind"

def helpText : Cmd → Bytes
  | commands => ascii "Lists available commands."
  | compliment => ascii "Writes a compliment."
  | echo => ascii "Usage: !echo <text>"
  | help => ascii "Usage: !help <command>"
  | remind => ascii "Usage: !remind hh:mm[:ss] [dd/MM [yy]] <text of reminder>. " ++
      ascii "'yy' is nr. of years past 2000. Example: " ++
      ascii "!remind 14:45 11/2 do your laundry foobar, you slob."

section Handlers
variable (bot : Bot) (rep : Bytes) (arg : Option Bytes)

def handleCommands : Bot :=
  bot.write .command (.compose rep
    (ascii "Available commands:" :: table.map fun c => ascii " !" ++ c.cmd))

def handleCompliment : Bot := bot.say .command rep (ascii "You rock!")

def handleEcho : Bot :=
  match arg with
  | none => bot
  | some arg => bot.say .command rep arg

def handleHelp : Bot :=
  match arg with
  | none => bot.say .command rep (ascii "Usage: !help <command>. Use !commands to list commands.")
  | some arg =>
    match table.find? fun c => arg = c.cmd with
    | some c => bot.say .command rep c.helpText
    | none => bot.say .command rep
        (ascii "'" ++ arg ++ ascii "': No such command. Use !commands to list commands.")

def handler (env : Env) : Cmd → Bot
  | commands => handleCommands bot rep
  | compliment => handleCompliment bot rep
  | echo => handleEcho bot rep arg
  | help => handleHelp bot rep arg
  | remind => handleRemind env bot arg rep

end Handlers
end Cmd

def handleCmd (env : Env) (bot : Bot) (rep cmd : Bytes) (arg : Option Bytes) : Bot :=
  match Cmd.table.find? fun c => c.cmd = cmd with
  | some c => c.handler bot rep arg env
  | none => bot

end Botniklas
