import Botniklas.Remind
import Botniklas.Irc.Message
import Botniklas.Foundation.Memory

/-! Restoring reminders: the file is scanned in place in a buffer of its own
length, field by field. -/
namespace Botniklas
open Foundation Irc

/-- How the scan ended. -/
inductive Restored where
  | noFile
  | finished
  | rejected (lineNr : Nat) (text : String)
  deriving DecidableEq, Repr

section Scanner
variable {size : Nat} (m : Mem (.flat size)) (cur : Nat)

/-- `for (; cur != end && !stop(*cur); ++cur)`, with the end sentinel `size`. -/
def passTo (stop : UInt8 → Bool) : Nat := (m.find stop cur).getD size

/-- The time, and what follows its separator. -/
def restoreWhen : Except String (Int × Nat × Mem (.flat size)) :=
  let whenStr := cur
  let cur := passTo m cur fun b => !isdigit b
  if ¬ whenStr < cur then .error "Missing or malformed timestamp"
  else if ¬ (cur ≠ size ∧ m.load cur = space) then .error "Expected space after timestamp"
  else
    let m := m.store cur nul
    let (when, erange) := strtoll (m.cstr whenStr)
    -- time_t is as wide as long long, so nothing is truncated
    if when = llongMax ∧ erange then .error "Timestamp too large"
    else .ok (when, cur + 1, m)

def restoreTarget : Except String (Nat × Mem (.flat size)) :=
  let targetStr := cur
  let cur := passTo m cur fun b => b = space
  if ¬ targetStr < cur then .error "Missing or malformed target"
  else if ¬ (cur ≠ size ∧ m.load cur = space) then .error "Expected space after target"
  else .ok (cur + 1, m.store cur nul)

/-- The remaining characters before the end of the line. -/
def restoreText : Except String (Nat × Mem (.flat size)) :=
  let reminderStr := cur
  let cur := passTo m cur fun b => b = lf
  if ¬ reminderStr < cur then .error "Empty reminder message"
  else if cur = size then .error "Missing newline after reminder message"
  else .ok (cur + 1, m.store cur nul)

end Scanner

/-- The loop over the lines. Each takes at least a byte, so a buffer of `size`
bytes has fewer than `fuel = size + 1` lines. -/
def restoreLines {size : Nat} (now : Int) : (fuel lineNr : Nat) → Mem (.flat size) → (cur : Nat) →
    Bot → Restored × Bot
  | 0, _, _, _, bot => (.finished, bot)
  | fuel + 1, lineNr, m, cur, bot =>
    if cur = size ∨ (m.load cur = lf ∧ cur + 1 = size) then (.finished, bot)
    else
      match restoreWhen m cur with
      | .error text => (.rejected lineNr text, bot)
      | .ok (when, targetStr, m) =>
        match restoreTarget m targetStr with
        | .error text => (.rejected lineNr text, bot)
        | .ok (reminderStr, m) =>
          match restoreText m reminderStr with
          | .error text => (.rejected lineNr text, bot)
          | .ok (cur, m) =>
            if when < now then restoreLines now fuel (lineNr + 1) m cur bot
            else
              -- target and message already stand together in the packed format
              let data := m.slice targetStr (cur - targetStr)
              restoreLines now fuel (lineNr + 1) m cur (bot.addTimeEvent ⟨when, .remind, data⟩)

/-- The contents of a file in a buffer of that length. -/
def fileBuf (file : Bytes) : Mem (.flat file.length) := ⟨fun i => file.getD i 0⟩

def restoreRemindState (env : Env) (bot : Bot) : Except Stop (Restored × Bot) :=
  let (now, bot) := bot.time env
  if now = -1 then .error (.exited "time (load reminders)")
  else
    match bot.reminders with
    | none => .ok (.noFile, bot)
    | some file => .ok (restoreLines now (file.length + 1) 1 (fileBuf file) 0 bot)

def restoreState (env : Env) (bot : Bot) : Except Stop (Restored × Bot) :=
  restoreRemindState env (initLeetMonitor env bot)

end Botniklas
