import Botniklas.Foundation.Getopt
import Botniklas.Clean

/-! The command line: what `process_cmdline` makes of it. -/
namespace Botniklas
open Foundation

def letter (c : Char) : UInt8 := .ofNat c.toNat

/-- What is set by options. -/
structure Settings where
  options : Options
  port : Bytes
  traceMsgs : Bool
  deriving DecidableEq, Repr

def Settings.default : Settings where
  options := .default
  port := ascii "6667"
  traceMsgs := false

/-- The process exits: it has printed how it is used, after an error if it is one. -/
inductive CmdExit where
  | success
  | failure (text : String)
  deriving DecidableEq, Repr

def cmdSpec : UInt8 → Option Bool := optSpec (ascii ":c:ehn:m:p:q:r:tu:")

/-- The body of the loop. -/
def processOpt (l : Settings) : Opt → Except CmdExit Settings
  | .flag c =>
    if c = letter 'e' then .ok { l with options := { l.options with exitOnInvalidMsg := true } }
    else if c = letter 'h' then .error .success
    else if c = letter 't' then .ok { l with traceMsgs := true }
    else .ok l
  | .argument c arg =>
    if c = letter 'c' then .ok { l with options := { l.options with channel := arg } }
    else if c = letter 'm' then
      match arg with
      | [b] =>
        if h : b ≠ nul then
          .ok { l with options := { l.options with cmdChar := b, cmdChar_ne := h } }
        else .error (.failure "Command character must be a single character.")
      | _ => .error (.failure "Command character must be a single character.")
    else if c = letter 'n' then .ok { l with options := { l.options with nick := arg } }
    else if c = letter 'p' then .ok { l with port := arg }
    else if c = letter 'q' then .ok { l with options := { l.options with quitMessage := arg } }
    else if c = letter 'r' then .ok { l with options := { l.options with realname := arg } }
    else if c = letter 'u' then .ok { l with options := { l.options with username := arg } }
    else .ok l
  | .unknown _ => .error (.failure "Unknown flag '-%c'.")
  | .missing _ => .error (.failure "Missing argument to '-%c'.")

def processOpts : List Opt → Settings → Except CmdExit Settings
  | [], l => .ok l
  | o :: opts, l => do processOpts opts (← processOpt l o)

/-- Returns the server too. `argv` starts with the name of the program. -/
def processCmdline (argv : List Bytes) : Except CmdExit (Settings × Bytes) := do
  let (opts, operands) := getopt cmdSpec argv.tail
  let l ← processOpts opts .default
  match operands with
  | [server] => return (l, server)
  | _ => throw (.failure "Expected a single non-flag argument (the IRC server).")

/-! What it comes to. -/

/-- The argument of an option. -/
def argOf (c : Char) : Opt → Option Bytes
  | .argument c' arg => if c' = letter c then some arg else none
  | _ => none

/-- The last argument of an option. -/
def lastArg (c : Char) (opts : List Opt) : Option Bytes := (opts.filterMap (argOf c)).getLast?

/-- An option that does not end the process. -/
structure Allowed (o : Opt) : Prop where
  found : o.Found
  help : o ≠ .flag (letter 'h')
  cmdChar : ∀ arg, argOf 'm' o = some arg → ∃ b ≠ nul, arg = [b]

/-- From `l` to `l'` the options have been set, each to its last argument. -/
structure Sets (opts : List Opt) (l l' : Settings) : Prop where
  channel : l'.options.channel = (lastArg 'c' opts).getD l.options.channel
  cmdChar : [l'.options.cmdChar] = (lastArg 'm' opts).getD [l.options.cmdChar]
  nick : l'.options.nick = (lastArg 'n' opts).getD l.options.nick
  port : l'.port = (lastArg 'p' opts).getD l.port
  quitMessage : l'.options.quitMessage = (lastArg 'q' opts).getD l.options.quitMessage
  realname : l'.options.realname = (lastArg 'r' opts).getD l.options.realname
  username : l'.options.username = (lastArg 'u' opts).getD l.options.username
  exitOnInvalidMsg : l'.options.exitOnInvalidMsg =
    (decide (.flag (letter 'e') ∈ opts) || l.options.exitOnInvalidMsg)
  traceMsgs : l'.traceMsgs = (decide (.flag (letter 't') ∈ opts) || l.traceMsgs)

section Options
variable {o : Opt} {opts : List Opt} {l l' l'' : Settings} {e : CmdExit}

theorem argOf_argument (c : Char) (arg : Bytes) : argOf c (.argument (letter c) arg) = some arg :=
  if_pos rfl

theorem lastArg_single (c : Char) (o : Opt) : lastArg c [o] = argOf c o := by
  unfold lastArg
  cases h : argOf c o with
  | none => rw [List.filterMap_cons_none h]; rfl
  | some arg => rw [List.filterMap_cons_some h]; rfl

theorem lastArg_cons (c : Char) (o : Opt) (opts : List Opt) (d : Bytes) :
    (lastArg c (o :: opts)).getD d = (lastArg c opts).getD ((lastArg c [o]).getD d) := by
  rw [lastArg_single]
  unfold lastArg
  cases h : argOf c o with
  | none => rw [List.filterMap_cons_none h]; rfl
  | some arg =>
    rw [List.filterMap_cons_some h, List.getLast?_cons]
    rfl

theorem flag_cons (c : UInt8) (o : Opt) (opts : List Opt) (b : Bool) :
    (decide (.flag c ∈ o :: opts) || b) =
      (decide (.flag c ∈ opts) || (decide (.flag c ∈ [o]) || b)) := by
  rw [← Bool.or_assoc]
  congr 1
  simp [Bool.or_comm]

/-- What one option sets. -/
theorem processOpt_ok (h : processOpt l o = .ok l') : Allowed o ∧ Sets [o] l l' := by
  cases o with
  | flag c =>
    unfold processOpt at h
    dsimp only at h
    split_ifs at h with he hh ht
    all_goals cases h
    · subst he
      refine ⟨⟨trivial, by decide, nofun⟩, ?_⟩
      constructor <;> simp [lastArg_single, argOf, letter]
    · subst ht
      refine ⟨⟨trivial, by decide, nofun⟩, ?_⟩
      constructor <;> simp [lastArg_single, argOf, letter]
    · refine ⟨⟨trivial, fun hc => hh (Opt.flag.inj hc), nofun⟩, ?_⟩
      constructor <;> simp [lastArg_single, argOf, Ne.symm he, Ne.symm ht]
  | argument c arg =>
    unfold processOpt at h
    dsimp only at h
    by_cases hm : c = letter 'm'
    · subst hm
      rw [if_neg (by decide), if_pos rfl] at h
      split at h
      · rename_i b
        split_ifs at h with hb
        cases h
        refine ⟨⟨trivial, nofun, fun arg he => ⟨b, hb, ?_⟩⟩, ?_⟩
        · exact (Option.some.inj ((argOf_argument _ _).symm.trans he)).symm
        · constructor <;> simp [lastArg_single, argOf, letter]
      · cases h
    · refine ⟨⟨trivial, nofun, fun arg he => ?_⟩, ?_⟩
      · cases (if_neg hm).symm.trans he
      · rw [if_neg hm] at h
        split_ifs at h with hc hn hp hq hr hu
        all_goals cases h
        · constructor <;> simp [lastArg_single, argOf, letter, hc]
        · constructor <;> simp [lastArg_single, argOf, letter, hn]
        · constructor <;> simp [lastArg_single, argOf, letter, hp]
        · constructor <;> simp [lastArg_single, argOf, letter, hq]
        · constructor <;> simp [lastArg_single, argOf, letter, hr]
        · constructor <;> simp [lastArg_single, argOf, letter, hu]
        · constructor <;> simp [lastArg_single, argOf, hc, hm, hn, hp, hq, hr, hu]
  | unknown c => cases h
  | missing c => cases h

theorem processOpt_allowed (h : Allowed o) (l : Settings) : ∃ l', processOpt l o = .ok l' := by
  obtain ⟨hfound, hhelp, hcmd⟩ := h
  cases o with
  | flag c =>
    unfold processOpt
    dsimp only
    split_ifs with he hh
    · exact ⟨_, rfl⟩
    · exact absurd (congrArg Opt.flag hh) hhelp
    · exact ⟨_, rfl⟩
    · exact ⟨_, rfl⟩
  | argument c arg =>
    by_cases hm : c = letter 'm'
    · subst hm
      obtain ⟨b, hb, rfl⟩ := hcmd arg (argOf_argument _ _)
      unfold processOpt
      dsimp only
      rw [if_neg (by decide), if_pos rfl, dif_pos hb]
      exact ⟨_, rfl⟩
    · unfold processOpt
      dsimp only
      rw [if_neg hm]
      split_ifs
      all_goals exact ⟨_, rfl⟩
  | unknown c => exact hfound.elim
  | missing c => exact hfound.elim

/-- Setting options after others: the later ones count. -/
theorem Sets.trans (h : Sets [o] l l') (h' : Sets opts l' l'') : Sets (o :: opts) l l'' := by
  constructor
  · rw [h'.channel, h.channel, lastArg_cons _ o opts]
  · rw [h'.cmdChar, h.cmdChar, lastArg_cons _ o opts]
  · rw [h'.nick, h.nick, lastArg_cons _ o opts]
  · rw [h'.port, h.port, lastArg_cons _ o opts]
  · rw [h'.quitMessage, h.quitMessage, lastArg_cons _ o opts]
  · rw [h'.realname, h.realname, lastArg_cons _ o opts]
  · rw [h'.username, h.username, lastArg_cons _ o opts]
  · rw [h'.exitOnInvalidMsg, h.exitOnInvalidMsg, flag_cons _ o opts]
  · rw [h'.traceMsgs, h.traceMsgs, flag_cons _ o opts]

theorem processOpts_ok (h : processOpts opts l = .ok l') :
    (∀ o ∈ opts, Allowed o) ∧ Sets opts l l' := by
  induction opts generalizing l with
  | nil =>
    cases h
    exact ⟨List.forall_mem_nil _, rfl, rfl, rfl, rfl, rfl, rfl, rfl, rfl, rfl⟩
  | cons o opts ih =>
    rw [processOpts] at h
    cases hl₁ : processOpt l o with
    | error e =>
      rw [hl₁] at h
      cases h
    | ok l₁ =>
      rw [hl₁] at h
      obtain ⟨hallowed, hsets⟩ := processOpt_ok hl₁
      obtain ⟨hallowed', hsets'⟩ := ih h
      exact ⟨List.forall_mem_cons.mpr ⟨hallowed, hallowed'⟩, hsets.trans hsets'⟩

theorem processOpts_allowed (h : ∀ o ∈ opts, Allowed o) (l : Settings) :
    ∃ l', processOpts opts l = .ok l' := by
  induction opts generalizing l with
  | nil => exact ⟨l, rfl⟩
  | cons o opts ih =>
    obtain ⟨hallowed, h⟩ := List.forall_mem_cons.mp h
    obtain ⟨l₁, hl₁⟩ := processOpt_allowed hallowed l
    obtain ⟨l', hl'⟩ := ih h l₁
    refine ⟨l', ?_⟩
    rw [processOpts, hl₁]
    exact hl'

/-- Options that set the same from the same. -/
theorem Sets.unique (h : Sets opts l l') (h' : Sets opts l l'') : l' = l'' := by
  obtain ⟨⟨channel, cmdChar, hcmd, nick, quit, realname, username, exits⟩, port, trace⟩ := l'
  obtain ⟨⟨channel', cmdChar', hcmd', nick', quit', realname', username', exits'⟩, port',
    trace'⟩ := l''
  obtain rfl := h.channel.trans h'.channel.symm
  obtain rfl := (List.cons.inj (h.cmdChar.trans h'.cmdChar.symm)).1
  obtain rfl := h.nick.trans h'.nick.symm
  obtain rfl := h.port.trans h'.port.symm
  obtain rfl := h.quitMessage.trans h'.quitMessage.symm
  obtain rfl := h.realname.trans h'.realname.symm
  obtain rfl := h.username.trans h'.username.symm
  obtain rfl := h.exitOnInvalidMsg.trans h'.exitOnInvalidMsg.symm
  obtain rfl := h.traceMsgs.trans h'.traceMsgs.symm
  rfl

theorem processOpts_ok_iff :
    processOpts opts l = .ok l' ↔ (∀ o ∈ opts, Allowed o) ∧ Sets opts l l' := by
  refine ⟨processOpts_ok, fun ⟨hallowed, hsets⟩ => ?_⟩
  obtain ⟨l'', hl''⟩ := processOpts_allowed hallowed l
  rw [hl'', (processOpts_ok hl'').2.unique hsets]

theorem processOpt_success (h : processOpt l o = .error .success) : o = .flag (letter 'h') := by
  cases o with
  | flag c =>
    unfold processOpt at h
    dsimp only at h
    split_ifs at h with he hh
    exact congrArg Opt.flag hh
  | argument c arg =>
    unfold processOpt at h
    dsimp only at h
    split_ifs at h
    split at h
    · split_ifs at h
      cases h
    · cases h
  | unknown c => cases h
  | missing c => cases h

/-- The process ends well for a request for help, if nothing is wrong before it. -/
theorem processOpts_success : processOpts opts l = .error .success ↔
    ∃ before after, opts = before ++ .flag (letter 'h') :: after ∧ ∀ o ∈ before, Allowed o := by
  constructor
  · intro h
    induction opts generalizing l with
    | nil => cases h
    | cons o opts ih =>
      rw [processOpts] at h
      cases hl : processOpt l o with
      | error e =>
        rw [hl] at h
        obtain rfl : e = .success := Except.error.inj h
        obtain rfl := processOpt_success hl
        exact ⟨[], opts, rfl, List.forall_mem_nil _⟩
      | ok l₁ =>
        rw [hl] at h
        obtain ⟨before, after, rfl, hbefore⟩ := ih h
        exact ⟨o :: before, after, rfl, List.forall_mem_cons.mpr ⟨(processOpt_ok hl).1, hbefore⟩⟩
  · rintro ⟨before, after, rfl, hbefore⟩
    induction before generalizing l with
    | nil => rfl
    | cons o before ih =>
      obtain ⟨hallowed, hbefore⟩ := List.forall_mem_cons.mp hbefore
      obtain ⟨l₁, hl₁⟩ := processOpt_allowed hallowed l
      rw [List.cons_append, processOpts, hl₁]
      exact ih hbefore

end Options

section Cmdline
variable {argv : List Bytes} {l : Settings} {server : Bytes}

theorem processCmdline_ok_iff : processCmdline argv = .ok (l, server) ↔
    (getopt cmdSpec argv.tail).2 = [server] ∧ (∀ o ∈ (getopt cmdSpec argv.tail).1, Allowed o) ∧
      Sets (getopt cmdSpec argv.tail).1 .default l := by
  unfold processCmdline
  generalize getopt cmdSpec argv.tail = found
  obtain ⟨opts, operands⟩ := found
  rw [← processOpts_ok_iff]
  dsimp only
  constructor
  · intro h
    cases hopts : processOpts opts .default with
    | error e =>
      rw [hopts] at h
      cases h
    | ok l₁ =>
      rw [hopts] at h
      change (match operands with
        | [server] => Except.ok (l₁, server)
        | _ => _) = _ at h
      split at h
      · cases h
        exact ⟨rfl, rfl⟩
      · cases h
  · rintro ⟨rfl, hopts⟩
    rw [hopts]
    rfl

theorem processCmdline_success : processCmdline argv = .error .success ↔
    processOpts (getopt cmdSpec argv.tail).1 .default = .error .success := by
  unfold processCmdline
  generalize getopt cmdSpec argv.tail = found
  obtain ⟨opts, operands⟩ := found
  dsimp only
  cases processOpts opts .default with
  | error e => exact ⟨fun h => congrArg _ (Except.error.inj h), fun h => congrArg _ (Except.error.inj h)⟩
  | ok l =>
    refine ⟨fun h => ?_, fun h => nomatch h⟩
    change (match operands with
      | [server] => Except.ok (l, server)
      | _ => _) = _ at h
    split at h
    · cases h
    · cases h

/-- A string set is the default or stands at the end of a word. -/
theorem clean_setting {line : CommandLine cmdSpec} {c : Char} {d s : Bytes}
    (h : s = (lastArg c line.opts).getD d) (hd : Clean d) (hwords : ∀ word ∈ line.words, Clean word) :
    Clean s := by
  cases hlast : lastArg c line.opts with
  | none =>
    rw [hlast] at h
    exact h ▸ hd
  | some arg =>
    rw [hlast] at h
    obtain ⟨o, ho, harg⟩ := List.mem_filterMap.mp (List.mem_of_getLast? hlast)
    cases o with
    | argument c' arg' =>
      unfold argOf at harg
      dsimp only at harg
      split_ifs at harg
      obtain rfl := Option.some.inj harg
      obtain ⟨word, hword, hsuffix⟩ := CommandLine.exists_word ho
      rw [show s = arg' from h]
      exact fun b hb => hwords word hword b (hsuffix.subset hb)
    | flag c' | unknown c' | missing c' => cases harg

/-- The command lines accepted are those made of words in which nothing is wrong, with one
operand among them: however they are ordered, cut up or clustered each option is set to its
last argument. Only a request for help before anything wrong ends the process well. From words
without line breaks come settings without them. -/
theorem command_line_is_read (argv : List Bytes) :
    (∀ l server, processCmdline argv = .ok (l, server) ↔ ∃ line : CommandLine cmdSpec,
      argv.tail = line.words ∧ line.operands = [server] ∧ (∀ o ∈ line.opts, Allowed o) ∧
      Sets line.opts .default l) ∧
    (processCmdline argv = .error .success ↔ ∃ before after,
      (getopt cmdSpec argv.tail).1 = before ++ .flag (letter 'h') :: after ∧
      ∀ o ∈ before, Allowed o) ∧
    (∀ l server, processCmdline argv = .ok (l, server) → (∀ word ∈ argv.tail, Clean word) →
      l.options.Clean) := by
  have hdash : cmdSpec dash = none := by decide
  have hread : ∀ l server, processCmdline argv = .ok (l, server) ↔ ∃ line : CommandLine cmdSpec,
      argv.tail = line.words ∧ line.operands = [server] ∧ (∀ o ∈ line.opts, Allowed o) ∧
      Sets line.opts .default l := by
    intro l server
    rw [processCmdline_ok_iff]
    constructor
    · rintro ⟨hserver, hallowed, hsets⟩
      obtain ⟨line, hwords, hopts, hoperands⟩ :=
        exists_commandLine argv.tail fun o ho => (hallowed o ho).found
      rw [← hopts] at hallowed hsets
      exact ⟨line, hwords.symm, hoperands.trans hserver, hallowed, hsets⟩
    · rintro ⟨line, hwords, hserver, hallowed, hsets⟩
      rw [hwords, getopt_words hdash]
      exact ⟨hserver, hallowed, hsets⟩
  refine ⟨hread, processCmdline_success.trans processOpts_success, fun l server hok hclean => ?_⟩
  obtain ⟨line, hwords, -, -, hsets⟩ := (hread l server).mp hok
  rw [hwords] at hclean
  exact ⟨clean_setting hsets.channel (by decide) hclean, clean_setting hsets.nick (by decide) hclean,
    clean_setting hsets.quitMessage (by decide) hclean,
    clean_setting hsets.realname (by decide) hclean,
    clean_setting hsets.username (by decide) hclean⟩

example : (processCmdline [ascii "bot", ascii "-nal", ascii "irc.example", ascii "-ten",
    ascii "bo"]).toOption.map (fun (l, server) => (l.options.nick, l.traceMsgs, server)) =
      some (ascii "bo", true, ascii "irc.example") := by decide

end Cmdline
end Botniklas
