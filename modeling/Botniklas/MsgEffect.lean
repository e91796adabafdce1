import Botniklas.Msgs

/-! What a message does, from its strings alone: the handlers leave the memory
outside the message as it was. -/
namespace Botniklas
open Foundation Irc Mem

/-- The word after the command character; one that is itself a space hides the
start of the text. -/
def commandWord (text : Bytes) : Bytes :=
  match before space text with
  | [] => (after space text).tail
  | _ :: word => word

def commandArg (text : Bytes) : Option Bytes :=
  match after space text with
  | [] => none
  | _ :: arg => if arg = [] then none else some arg

theorem mem_of_mem_commandArg {text arg : Bytes} (h : commandArg text = some arg)
    {b : UInt8} (hb : b ∈ arg) : b ∈ text := by
  unfold commandArg at h
  cases ha : after space text with
  | nil =>
    rw [ha] at h
    cases h
  | cons c rest =>
    rw [ha] at h
    dsimp only at h
    split_ifs at h
    cases h
    exact mem_of_mem_after (c := space) (by rw [ha]; exact List.mem_cons_of_mem c hb)

/-- Where replies to a message go. -/
def replyTarget (msg : MsgView) (target : Bytes) : Except Stop Bytes :=
  if isChannel target then .ok target else required msg.pfx

def privmsgEffect (env : Env) (opts : Options) (msg : MsgView) (bot : Bot) : Except Stop Bot := do
  let bot ← noteMsg env msg bot
  let target ← param msg 0
  let text ← param msg 1
  if text.head? = some opts.cmdChar then
    let rep ← replyTarget msg target
    return handleCmd env bot rep (commandWord text) (commandArg text)
  else return bot

def msgEffect (env : Env) (opts : Options) (msg : MsgView) (bot : Bot) : Except Stop Bot := do
  match ← handlerOf opts (msgs env opts id (privmsgEffect env opts)) msg with
  | none => return bot
  | some handler => handler msg bot

/-! The steps of a message that comes through, one after the other. -/

theorem bind_ok {α β : Type} {x : Except Stop α} {f : α → Except Stop β} {b : β}
    (h : (x >>= f) = .ok b) : ∃ a, x = .ok a ∧ f a = .ok b := by
  cases x with
  | error e => cases h
  | ok a => exact ⟨a, rfl, h⟩

theorem required_ok {o : Option Bytes} {s : Bytes} (h : required o = .ok s) :
    o = some s := by
  cases o with
  | none => cases h
  | some s' =>
    cases h
    rfl

theorem param_ok {msg : MsgView} {i : Nat} {s : Bytes} (h : param msg i = .ok s) :
    msg.params[i]? = some s := required_ok h

section Steps
variable {env : Env} {opts : Options} {msg : MsgView} {bot bot' : Bot}

/-- The observers read the nickname, the target and the text. -/
theorem noteMsg_ok_iff : noteMsg env msg bot = .ok bot' ↔
    ∃ nick target text, msg.nick = some nick ∧ msg.params[0]? = some target ∧
      msg.params[1]? = some text ∧
      bot' = leetMonitorPrivmsg (logPrivmsg env bot nick target text) nick target text := by
  constructor
  · intro h
    obtain ⟨nick, hnick, h⟩ := bind_ok h
    obtain ⟨target, ht, h⟩ := bind_ok h
    obtain ⟨text, hx, h⟩ := bind_ok h
    cases h
    exact ⟨nick, target, text, required_ok hnick, param_ok ht, param_ok hx, rfl⟩
  · rintro ⟨nick, target, text, hnick, ht, hx, rfl⟩
    unfold noteMsg param
    rw [hnick, ht, hx]
    rfl

/-- A command runs after the observers, and only then is the target looked at. -/
theorem privmsgEffect_ok_iff : privmsgEffect env opts msg bot = .ok bot' ↔
    ∃ bot₁ target text, noteMsg env msg bot = .ok bot₁ ∧ msg.params[0]? = some target ∧
      msg.params[1]? = some text ∧
      (text.head? = some opts.cmdChar ∧ (∃ rep, replyTarget msg target = .ok rep ∧
        bot' = handleCmd env bot₁ rep (commandWord text) (commandArg text)) ∨
      text.head? ≠ some opts.cmdChar ∧ bot' = bot₁) := by
  constructor
  · intro h
    obtain ⟨bot₁, hnote, h⟩ := bind_ok h
    obtain ⟨target, ht, h⟩ := bind_ok h
    obtain ⟨text, hx, h⟩ := bind_ok h
    refine ⟨bot₁, target, text, hnote, param_ok ht, param_ok hx, ?_⟩
    split_ifs at h with hcmd
    · obtain ⟨rep, hrep, h⟩ := bind_ok h
      cases h
      exact .inl ⟨hcmd, rep, hrep, rfl⟩
    · cases h
      exact .inr ⟨hcmd, rfl⟩
  · rintro ⟨bot₁, target, text, hnote, ht, hx, hcmd⟩
    unfold privmsgEffect param
    rw [hnote, ht, hx]
    rcases hcmd with ⟨hcmd, rep, hrep, rfl⟩ | ⟨hcmd, rfl⟩
    · change (if _ then _ else _) = _
      rw [if_pos hcmd, hrep]
      rfl
    · exact if_neg hcmd

end Steps

/-- `act` computes `effect` and stays inside the window. -/
def Computes {L : Layout} (lo hi : Nat) (m : Mem L) (act : Except Stop (Mem L × Bot))
    (effect : Except Stop Bot) : Prop :=
  match effect with
  | .error e => act = .error e
  | .ok bot => ∃ m', act = .ok (m', bot) ∧ Within lo hi m m'

/-- Stores inside the window may come first. -/
theorem Computes.after {L : Layout} {lo hi : Nat} {m m' : Mem L} {act : Except Stop (Mem L × Bot)}
    {effect : Except Stop Bot} (h : Computes lo hi m' act effect) (hw : Within lo hi m m') :
    Computes lo hi m act effect := by
  unfold Computes at h ⊢
  split at h
  · exact h
  · obtain ⟨m'', hact, hw'⟩ := h
    exact ⟨m'', hact, hw.trans hw'⟩

/-- Which entry of the table applies does not depend on what its handlers are. -/
private theorem handlerOf_msgs {α : Type} (env : Env) (opts : Options)
    (reading : (MsgView → Bot → Except Stop Bot) → α) (privmsg : α) (msg : MsgView) :
    handlerOf opts (msgs env opts reading privmsg) msg =
      (handlerOf opts (msgs env opts Sum.inl (Sum.inr ())) msg).map
        (Option.map (Sum.elim reading fun () => privmsg)) := by
  let lift : MsgEntry ((MsgView → Bot → Except Stop Bot) ⊕ Unit) → MsgEntry α := fun entry =>
    ⟨entry.cmd, entry.handler.elim reading fun () => privmsg, entry.nParamsMin, entry.nParamsMax,
      entry.needsNick⟩
  have htable : msgs env opts reading privmsg =
      (msgs env opts Sum.inl (Sum.inr ())).map lift := rfl
  have hcmd : (fun entry : MsgEntry α => decide (entry.cmd = msg.cmd)) ∘ lift =
      fun entry => decide (entry.cmd = msg.cmd) := rfl
  unfold handlerOf
  rw [htable, List.find?_map, hcmd]
  cases checkForErrorReply msg.cmd with
  | error e => rfl
  | ok reply =>
    cases reply with
    | true => rfl
    | false =>
      cases (msgs env opts Sum.inl (Sum.inr ())).find? fun entry => entry.cmd = msg.cmd with
      | none => rfl
      | some entry =>
        dsimp only [Option.map_some]
        unfold ignore
        dsimp only [lift]
        split_ifs <;> rfl

section Privmsg
variable {L : Layout} {m : Mem L} {lo hi : Nat} {msg : IrcMsg} {v : MsgView}

/-- The command word and its argument, as the cut text reads. -/
private theorem cut_command {p : Nat} {t : Bytes} (hc : m.CStr p t) (ht : t ≠ [])
    (hd : L.Distinct p (p + t.length + 1)) (hp : p + t.length < L.size) :
    ∃ found m', (strchr p space).run m = .ok found m ∧ terminate m found = m' ∧
      Within p (p + t.length) m m' ∧ m'.cstr (p + 1) = commandWord t ∧
      (found.bind fun cur => if m'.load (cur + 1) = nul then none else some (cur + 1)).map m'.cstr =
        commandArg t := by
  have hfind := strchr_run space hc hp (by decide)
  unfold commandWord commandArg
  rcases cut_cases space t with h0 | ⟨u, r, rfl, hu⟩
  · rw [after_of_not_mem h0] at hfind
    obtain ⟨c, w, rfl⟩ := List.exists_cons_of_ne_nil ht
    rw [before_of_not_mem h0, after_of_not_mem h0]
    refine ⟨none, m, hfind, rfl, .refl _ _ _, ?_, rfl⟩
    simp only [List.length_cons] at hp
    exact cstr_eq (s := w) (CStr.drop (a := [c]) hc) (by omega)
  · rw [after_append_cons hu, before_append_cons hu] at hfind
    obtain ⟨hcu, hcr⟩ := hc.cut hd
    simp only [List.length_append, List.length_cons] at hp ⊢
    refine ⟨some (p + u.length), m.store (p + u.length) nul, hfind, rfl,
      within_store m nul (by omega) (by omega), ?_, ?_⟩
    · rw [before_append_cons hu, after_append_cons hu]
      cases u with
      | nil => exact cstr_eq hcr (by simp at hp ⊢; omega)
      | cons c u =>
        simp only [List.length_cons] at hp hcu
        exact cstr_eq (s := u) (CStr.drop (a := [c]) hcu) (by omega)
    · rw [after_append_cons hu]
      have hread := cstr_eq hcr (by omega)
      cases r with
      | nil => simp [hcr.1.1]
      | cons b r =>
        have hb : b ≠ nul := fun hb => hcr.2 (by simp [hb])
        simp [hcr.1.1, hb, hread]

/-- What it reads was there when the text was noted. -/
private theorem params_of_noteMsg {env : Env} {bot bot' : Bot} (h : noteMsg env v bot = .ok bot') :
    ∃ a t rest, v.params = a :: t :: rest := by
  obtain ⟨_, _, _, -, ht, hx, -⟩ := noteMsg_ok_iff.mp h
  match hp : v.params with
  | [] =>
    rw [hp] at ht
    cases ht
  | [_] =>
    rw [hp] at hx
    cases hx
  | a :: t :: rest => exact ⟨a, t, rest, rfl⟩

theorem handlePrivmsg_computes (env : Env) (opts : Options) (bot : Bot) (h : Reads m lo hi msg v)
    (hd : L.Distinct lo hi) (hs : hi ≤ L.size) :
    Computes lo hi m (handlePrivmsg env opts msg m bot) (privmsgEffect env opts v bot) := by
  have hview := h.view_eq hs
  unfold Computes handlePrivmsg privmsgEffect
  rw [hview]
  cases hnote : noteMsg env v bot with
  | error e => rfl
  | ok bot =>
    obtain ⟨a, t, rest, hv⟩ := params_of_noteMsg hnote
    obtain ⟨pa, p, hpa, hp, hlo, hlt, hc, hkeep⟩ := h.second hs hv
    have h0 : param v 0 = .ok a := by simp [param, hv, required]
    have h1 : param v 1 = .ok t := by simp [param, hv, required]
    have hhead : m.load p = opts.cmdChar ↔ t.head? = some opts.cmdChar := by
      cases t with
      | nil => simpa [hc.1.1] using opts.cmdChar_ne.symm
      | cons b t => simp [hc.1.1]
    simp only [hp, h0, h1, bind, Except.bind]
    by_cases hcmd : t.head? = some opts.cmdChar
    · have ht : t ≠ [] := by
        rintro rfl
        cases hcmd
      obtain ⟨found, m', hrun, hm', hwi, hword, harg⟩ :=
        cut_command hc ht (hd.mono hlo hlt) (by omega)
      obtain ⟨ha, hpfx⟩ := hkeep m' fun i hi hi' =>
        hwi.load hd hlo (by omega) hi (by omega) (.inl hi')
      have h0' : param (msg.view m') 0 = .ok a := by
        simp [param, IrcMsg.view, hpa, ha, required]
      have hp' : (msg.view m').pfx = v.pfx := hpfx
      rw [if_pos (hhead.mpr hcmd), if_pos hcmd, hrun]
      dsimp only
      rw [hm', h0', hp', hword, harg]
      unfold replyTarget
      dsimp only
      split_ifs
      · exact ⟨m', rfl, hwi.mono hlo (by omega)⟩
      · cases v.pfx with
        | none => rfl
        | some sender => exact ⟨m', rfl, hwi.mono hlo (by omega)⟩
    · rw [if_neg (fun hl => hcmd (hhead.mp hl)), if_neg hcmd]
      exact ⟨m, rfl, .refl _ _ _⟩

end Privmsg

/-- `handle_msg` in memory is its effect on the strings of the message. -/
theorem handleMsg_computes {L : Layout} {m : Mem L} {lo hi : Nat} {msg : IrcMsg} {v : MsgView}
    (env : Env) (opts : Options) (bot : Bot) (h : Reads m lo hi msg v)
    (hd : L.Distinct lo hi) (hs : hi ≤ L.size) :
    Computes lo hi m (handleMsg env opts msg m bot) (msgEffect env opts v bot) := by
  have hview := h.view_eq hs
  unfold handleMsg msgEffect
  rw [handlerOf_msgs env opts reading, handlerOf_msgs env opts id, hview]
  cases handlerOf opts (msgs env opts Sum.inl (Sum.inr ())) v with
  | error e => rfl
  | ok found =>
    cases found with
    | none => exact ⟨m, rfl, .refl _ _ _⟩
    | some entry =>
      cases entry with
      | inl handler =>
        change Computes lo hi m (reading handler msg m bot) (handler v bot)
        unfold reading
        rw [hview]
        cases handler v bot with
        | error e => rfl
        | ok bot => exact ⟨m, rfl, .refl _ _ _⟩
      | inr u => exact handlePrivmsg_computes env opts bot h hd hs

end Botniklas
