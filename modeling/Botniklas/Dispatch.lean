import Botniklas.LineEffect

/-! Which handler takes a message, and the messages that none takes. -/
namespace Botniklas
open Foundation Irc Mem

/-- A three-digit number from 400 to 599. -/
def IsErrorReply (cmd : Bytes) : Prop :=
  cmd.length = 3 ∧ (∀ b ∈ cmd, isdigit b = true) ∧ 400 ≤ digitsValue cmd ∧ digitsValue cmd ≤ 599

instance (cmd : Bytes) : Decidable (IsErrorReply cmd) :=
  decidable_of_iff (cmd.length = 3 ∧ cmd.all isdigit = true ∧ 400 ≤ digitsValue cmd ∧
    digitsValue cmd ≤ 599) (by rw [IsErrorReply, List.all_eq_true])

/-- The messages to be passed over. -/
inductive Ignored {α : Type} (table : List (MsgEntry α)) (msg : MsgView) : Prop where
  | errorReply : IsErrorReply msg.cmd → Ignored table msg
  | unknown : (∀ entry ∈ table, entry.cmd ≠ msg.cmd) → Ignored table msg
  | params {entry : MsgEntry α} : entry ∈ table → entry.cmd = msg.cmd →
      msg.params.length < entry.nParamsMin ∨ entry.nParamsMax < msg.params.length →
      Ignored table msg
  | noNick {entry : MsgEntry α} : entry ∈ table → entry.cmd = msg.cmd → entry.needsNick = true →
      msg.nick = none → Ignored table msg

section Table
variable {α : Type} {opts : Options} {table : List (MsgEntry α)} {msg : MsgView}

theorem checkForErrorReply_of_errorReply {cmd : Bytes} (h : IsErrorReply cmd) :
    checkForErrorReply cmd = .ok true := by
  obtain ⟨hlen, hdigits, hlo, hhi⟩ := h
  obtain ⟨a, b, c, rfl⟩ := List.length_eq_three.mp hlen
  simp only [List.mem_cons, List.not_mem_nil, or_false, forall_eq_or_imp, forall_eq] at hdigits
  obtain ⟨ha, hb, hc⟩ := hdigits
  have hvalue : digitsValue [a, b, c] = 100 * digit a + 10 * digit b + digit c := by
    simp only [digitsValue, List.foldl_cons, List.foldl_nil]
    omega
  rw [hvalue] at hlo hhi
  simp [checkForErrorReply, charAt, ha, hb, hc, hlo, hhi, bind, Except.bind, pure, Except.pure]

/-- Commands stand in the table once, so the entry found is the one meant. -/
private theorem find_cmd (hn : (table.map MsgEntry.cmd).Nodup) {entry : MsgEntry α}
    (hmem : entry ∈ table) (hcmd : entry.cmd = msg.cmd) :
    (table.find? fun entry => entry.cmd = msg.cmd) = some entry := by
  induction table with
  | nil => cases hmem
  | cons first table ih =>
    obtain ⟨hfirst, hn⟩ := List.nodup_cons.mp hn
    rcases List.mem_cons.mp hmem with rfl | hmem
    · exact List.find?_cons_of_pos (by simp [hcmd])
    · have hne : first.cmd ≠ msg.cmd := fun he =>
        hfirst (he.trans hcmd.symm ▸ List.mem_map_of_mem hmem)
      rw [List.find?_cons_of_neg (by simp [hne])]
      exact ih hn hmem

/-- One handler at most, the one the table has for the command. -/
theorem handlerOf_cases (hexit : opts.exitOnInvalidMsg = false) :
    handlerOf opts table msg = .ok none ∨
    ∃ entry ∈ table, entry.cmd = msg.cmd ∧ handlerOf opts table msg = .ok (some entry.handler) := by
  obtain ⟨reply, hreply⟩ := @checkForErrorReply_total msg.cmd
  unfold handlerOf ignore
  rw [hreply]
  cases reply with
  | true => exact .inl rfl
  | false =>
    cases hf : table.find? fun entry => entry.cmd = msg.cmd with
    | none => exact .inl rfl
    | some entry =>
      simp only [bind, Except.bind, hexit, Bool.false_eq_true, if_false]
      split_ifs
      · exact .inl rfl
      · exact .inl rfl
      · exact .inr ⟨entry, List.mem_of_find?_eq_some hf, by simpa using List.find?_some hf, rfl⟩

theorem handlerOf_ignored (hexit : opts.exitOnInvalidMsg = false)
    (hn : (table.map MsgEntry.cmd).Nodup) (h : Ignored table msg) :
    handlerOf opts table msg = .ok none := by
  obtain ⟨reply, hreply⟩ := @checkForErrorReply_total msg.cmd
  unfold handlerOf ignore
  cases h with
  | errorReply h =>
    rw [checkForErrorReply_of_errorReply h]
    rfl
  | unknown h =>
    rw [hreply, List.find?_eq_none.mpr fun entry hentry => by simpa using h entry hentry]
    cases reply <;> rfl
  | params hmem hcmd hcount =>
    rw [hreply, find_cmd hn hmem hcmd]
    simp only [hexit, Bool.false_eq_true, if_false, if_pos hcount]
    cases reply <;> rfl
  | noNick hmem hcmd hneeds hnick =>
    rw [hreply, find_cmd hn hmem hcmd]
    simp only [hexit, Bool.false_eq_true, if_false, hneeds, hnick, and_self, if_true, ite_self]
    cases reply <;> rfl

end Table

theorem msgs_nodup {α : Type} (env : Env) (opts : Options)
    (reading : (MsgView → Bot → Except Stop Bot) → α) (privmsg : α) :
    ((msgs env opts reading privmsg).map MsgEntry.cmd).Nodup := by
  change List.Nodup [ascii "001", ascii "ERROR", ascii "JOIN", ascii "KICK", ascii "NICK",
    ascii "PART", ascii "PING", ascii "PRIVMSG", ascii "QUIT"]
  decide

section Memory
variable {L : Layout} {m m' : Mem L} {p : Nat} {w : Bytes} {msg : IrcMsg} {opts : Options}

/-- A message that was split is handled to the end. -/
private theorem handleMsg_total (env : Env) (bot : Bot) (hexit : opts.exitOnInvalidMsg = false)
    (hm : m.CStr p w) (hd : L.Distinct p (p + w.length + 1)) (hp : p + w.length < L.size)
    (hsplit : (splitMsg opts.exitOnInvalidMsg p).run m = .ok msg m') :
    ∃ m'' bot', handleMsg env opts msg m' bot = .ok (m'', bot') := by
  have hrun := splitMsg_run opts.exitOnInvalidMsg hm hd hp
  cases hparse : parseMsg w with
  | error text =>
    rw [hparse] at hrun
    obtain ⟨_, hr, -⟩ := hrun
    rw [hsplit] at hr
    cases hr
  | ok g =>
    rw [hparse] at hrun
    obtain ⟨_, _, hr, -, hreads⟩ := hrun
    rw [hsplit] at hr
    cases hr
    obtain ⟨bot', heffect⟩ := msgEffect_total env hexit (hasNick_view g) bot
    have hc := handleMsg_computes env opts bot hreads hd (by omega)
    rw [heffect] at hc
    obtain ⟨m'', hhandle, -⟩ := hc
    exact ⟨m'', bot', hhandle⟩

/-- A line that was split is handled to the end: no handler meets a parameter, a
nickname or a byte of the command that is not there. One handler of the table runs
at most, and none for a message to be passed over, which changes nothing. -/
theorem handle_msg_touches_no_missing_field (env : Env) (bot : Bot)
    (hexit : opts.exitOnInvalidMsg = false) (hm : m.CStr p w)
    (hd : L.Distinct p (p + w.length + 1)) (hp : p + w.length < L.size)
    (hsplit : (splitMsg opts.exitOnInvalidMsg p).run m = .ok msg m') :
    (∃ m'' bot', handleMsg env opts msg m' bot = .ok (m'', bot')) ∧
    (handleMsg env opts msg m' bot = .ok (m', bot) ∨
      ∃ entry ∈ msgs env opts reading (handlePrivmsg env opts),
        entry.cmd = (msg.view m').cmd ∧
        handleMsg env opts msg m' bot = entry.handler msg m' bot) ∧
    (Ignored (msgs env opts (@reading L) (handlePrivmsg env opts)) (msg.view m') →
      handleMsg env opts msg m' bot = .ok (m', bot)) := by
  refine ⟨handleMsg_total env bot hexit hm hd hp hsplit, ?_, fun hignored => ?_⟩
  · unfold handleMsg
    rcases @handlerOf_cases _ opts (msgs env opts (@reading L) (handlePrivmsg env opts))
      (msg.view m') hexit with hnone | ⟨entry, hmem, hcmd, hsome⟩
    · rw [hnone]
      exact .inl rfl
    · rw [hsome]
      exact .inr ⟨entry, hmem, hcmd, rfl⟩
  · unfold handleMsg
    rw [handlerOf_ignored hexit (msgs_nodup _ _ _ _) hignored]
    rfl

/-- A numeric error reply changes nothing. -/
theorem error_reply_ignored :
    ∃ msg m', (splitMsg false 0).run (Mem.ofString (ascii ":s 433 bot :In use")) = .ok msg m' ∧
      handleMsg (.still 1 (by decide)) .default msg m' .new = .ok (m', .new) := by
  refine ⟨_, _, rfl, ?_⟩
  have hexit : Options.default.exitOnInvalidMsg = false := rfl
  refine (handle_msg_touches_no_missing_field (.still 1 (by decide)) .new hexit
    (cstr_ofString (w := ascii ":s 433 bot :In use") (by decide)) (Layout.flat_distinct _ _ _)
    (by simp [Layout.flat]) rfl).2.2 (.errorReply ?_)
  decide

end Memory

end Botniklas
