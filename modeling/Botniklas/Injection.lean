import Botniklas.Clean
import Botniklas.Main

/-! Over all its sessions the bot sends one line for each call of the writer,
whatever the server sends. -/
namespace Botniklas
open Foundation Irc

def Obs.writeCall : Obs → Option WriteCall
  | .write _ written _ => some written
  | _ => none

/-- The calls of the writer in this process. -/
def Bot.calls (bot : Bot) : List WriteCall := bot.trace.filterMap Obs.writeCall

/-- A new process; the files and the clock are as they are. -/
def Bot.restarted (bot : Bot) : Bot :=
  { Bot.new with
    instant := bot.instant
    reminders := bot.reminders
    chatLog := bot.chatLog }

/-- Nothing the bot holds, has saved or has sent breaks a line. -/
structure Bot.Clean (bot : Bot) : Prop where
  pending : ∀ r ∈ pending bot, Botniklas.Clean r.target ∧ Botniklas.Clean r.text
  file : ∀ file ∈ bot.reminders, SafeFile file
  calls : ∀ call ∈ bot.calls, IsLine call.line

section Steps
variable {env : Env} {opts : Options} {bot bot' : Bot}

theorem processLine_clean (hopts : opts.Clean) (hc : bot.Clean) {w : Bytes}
    (hw : ∀ b ∈ w, isEol b = false) (h : processLine env opts w bot = .ok bot') : bot'.Clean := by
  rcases processLine_cases h with ⟨rfl, -⟩ | ⟨g, r, hnul, hparse, hout, hask⟩
  · exact hc
  · obtain ⟨-, rfl⟩ := (parseMsg_ok_iff _ _).mp hparse
    have hmsg : g.view.All IsText := by
      apply Grammar.view_all
      intro b hb
      have heol := hw b hb
      simp only [isEol, Bool.or_eq_false_iff, decide_eq_false_iff_not] at heol
      exact ⟨fun he => hnul (he ▸ hb), heol⟩
    obtain ⟨obs, ht, -, hobs⟩ := hout.trace
    have hqueue : bot'.queue = bot.queue.addAll (r.toList.map Reminder.registration) := hout.queue
    refine ⟨?_, ?_, ?_⟩
    · intro r' hr'
      have hp := pendingIn_addAll bot.queue (r.toList.map Reminder.registration)
      rw [announces_accepted hnul hask, ← hqueue] at hp
      rcases List.mem_append.mp (hp.mem_iff.mp hr') with hr' | hr'
      · exact hc.pending r' hr'
      · exact (hask r' (by simpa using hr')).all hmsg
    · rw [hout.reminders]
      cases r with
      | none => exact hc.file
      | some r =>
        obtain ⟨k, -, -, hk⟩ := hout.when r rfl
        obtain ⟨htarget, htext⟩ := (hask r rfl).all hmsg
        exact SafeFile.append_file hc.file ((env.clock.pos k).le.trans hk) htarget htext
    · intro call hcall
      obtain ⟨o, ho, he⟩ := List.mem_filterMap.mp hcall
      rw [ht] at ho
      rcases List.mem_append.mp ho with ho | ho
      · rcases List.mem_append.mp ho with ho | ho
        · exact hc.calls call (List.mem_filterMap.mpr ⟨o, ho, he⟩)
        · rw [List.mem_singleton.mp ho] at he
          cases he
      · rcases hobs o ho with ⟨r', rfl⟩ | ⟨writer, written, i, rfl, hreply⟩
        · cases he
        · cases he
          exact hreply.isLine hopts hmsg

theorem processLines_clean (hopts : opts.Clean) {ws : List Bytes}
    (hws : ∀ w ∈ ws, ∀ b ∈ w, isEol b = false) (hc : bot.Clean)
    (h : processLines env opts ws bot = .ok bot') : bot'.Clean := by
  induction ws generalizing bot with
  | nil =>
    cases h
    exact hc
  | cons w ws ih =>
    obtain ⟨hw, hws⟩ := List.forall_mem_cons.mp hws
    cases hline : processLine env opts w bot with
    | error e =>
      rw [processLines, hline] at h
      cases h
    | ok bot₁ =>
      rw [processLines, hline] at h
      exact ih hws (processLine_clean hopts hc hw hline) h

/-- What a handler says. -/
private theorem callHandler_calls (event : TimeEvent Handler Bytes) :
    ∀ call ∈ (callHandler env event.handler event.data bot).calls, call ∈ bot.calls ∨
      (∃ r ∈ event.registration.announces,
        call = .say r.target (ascii "REMINDER: " ++ r.text)) ∨
      call = .say leetChannel (ascii "No one was 1337 today. :(") := by
  obtain ⟨id, when, handler, data⟩ := event
  have mem_calls : ∀ (obs : List Obs) (call : WriteCall),
      call ∈ (bot.trace ++ [Obs.call handler] ++ obs).filterMap Obs.writeCall →
      call ∈ bot.calls ∨ call ∈ obs.filterMap Obs.writeCall := by
    intro obs call hcall
    rw [List.append_assoc, List.filterMap_append, List.mem_append] at hcall
    exact hcall
  intro call hcall
  cases handler with
  | remind =>
    rcases mem_calls [.write .remind (.say (target data) _) _] call hcall with hold | hnew
    · exact .inl hold
    · exact .inr (.inl ⟨_, rfl, List.mem_singleton.mp hnew⟩)
  | at1337 =>
    rcases mem_calls [] call (by rw [List.append_nil]; exact hcall) with hold | hnew
    · exact .inl hold
    · cases hnew
  | at1338 =>
    rw [callHandler_at1338, at1338_eq] at hcall
    rcases mem_calls _ call hcall with hold | hnew
    · exact .inl hold
    · cases hw : bot.want1337 with
      | false => simp [Bot.observe, hw] at hnew
      | true => exact .inr (.inr (by simpa [Bot.observe, hw, Obs.writeCall] using hnew))

theorem handleTimeEvent_clean (hg : bot.queue.Good) (hc : bot.Clean)
    {event : TimeEvent Handler Bytes} (hhead : bot.queue.start.head? = some event)
    (hdue : event.when ≤ env.clock.now bot.instant)
    (h : handleTimeEvent Bot.queueIn (callHandler env) bot = some bot') : bot'.Clean := by
  have hh := handleTimeEvent_handles hg hhead hdue h
  obtain ⟨rest, hs⟩ := List.head?_eq_some_iff.mp hhead
  obtain ⟨q', hrun, -⟩ := handleTimeEvent_due hg hs hdue
  obtain rfl := Option.some.inj (hrun.symm.trans h)
  have held : ∀ r ∈ event.registration.announces.toList ++ pending _,
      Botniklas.Clean r.target ∧ Botniklas.Clean r.text := fun r hr =>
    hc.pending r (hh.pending.mem_iff.mpr hr)
  obtain ⟨hevent, hrest⟩ := List.forall_mem_append.mp held
  refine ⟨hrest, hh.reminders ▸ hc.file, ?_⟩
  intro call hcall
  rcases callHandler_calls event call hcall with hold | ⟨r, hr, rfl⟩ | rfl
  · exact hc.calls call hold
  · obtain ⟨ht, hx⟩ := hevent r (Option.mem_toList.mpr hr)
    exact isLine_say ht (clean_append.mpr ⟨by decide, hx⟩)
  · exact isLine_say (by decide) (by decide)

/-- A new process starts clean if the file is safe. -/
theorem restarted_clean {outcome : Restored} (hopts : opts.Clean)
    (hfile : ∀ file ∈ bot.reminders, SafeFile file)
    (h : restoreState env bot.restarted = .ok (outcome, bot')) :
    (connectToIrcServer opts bot').Clean := by
  obtain ⟨-, -, hp⟩ := restoreState_pending rfl h
  obtain ⟨outcome', he⟩ := restoreState_eq env bot.restarted
  cases he.symm.trans h
  refine ⟨fun r hr => ?_, hfile, ?_⟩
  · have hr' := hp.mem_iff.mp hr
    cases hf : bot.reminders with
    | none =>
      rw [restored_none (show bot.restarted.reminders = none from hf)] at hr'
      cases hr'
    | some file =>
      rw [restored_some (show bot.restarted.reminders = some file from hf)] at hr'
      obtain ⟨r₀, hr₀, hannounces⟩ := List.mem_filterMap.mp hr'
      obtain ⟨ht, hx⟩ := (hfile file hf).scan_clean r₀ (List.mem_of_mem_filter hr₀)
      have hsame := announces_registration (fun h => (ht nul h).1 rfl) fun h => (hx nul h).1 rfl
      obtain rfl := Option.some.inj (hsame.symm.trans hannounces)
      exact ⟨ht, hx⟩
  · have hnick : IsLine (WriteCall.writeMsg (ascii "NICK " ++ opts.nick)).line :=
      isLine_writeMsg (clean_append.mpr ⟨by decide, hopts.nick⟩)
    have huser : IsLine (WriteCall.writeMsg
        (ascii "USER " ++ opts.username ++ ascii " 0 * :" ++ opts.realname)).line := by
      apply isLine_writeMsg
      simp only [clean_append]
      exact ⟨⟨⟨by decide, hopts.username⟩, by decide⟩, hopts.realname⟩
    exact List.forall_mem_cons.mpr ⟨hnick, List.forall_mem_singleton.mpr huser⟩

end Steps

/-! Sessions one after the other, over one reminders file. -/

section Sessions
variable {pageSize : Nat}

/-- The states of the main loop over all the sessions, and what is left of a
session that ended (`running = false`) inside `process_msgs`: each starts with
the file of the one before, the first with none. -/
inductive Reaches (env : Env) : (opts : Options) → (running : Bool) → Loop pageSize → Prop where
  | first {opts : Options} {page : Mem (.mirror pageSize)} {bot₀ bot : Bot} {outcome : Restored} :
      opts.Clean → bot₀.reminders = none →
      restoreState env bot₀.restarted = .ok (outcome, bot) →
      Reaches env opts true (.enter page (connectToIrcServer opts bot))
  | step {opts : Options} {l l' : Loop pageSize} : Reaches env opts true l → l.Step env opts l' →
      Reaches env opts true l'
  | interrupted {opts : Options} {l : Loop pageSize} {rest : List Source} {recv : Recv}
      {rb rb' : ReadBuf pageSize} {rounds : Nat} {bot : Bot} : Reaches env opts true l →
      l.batch = .server :: rest → recv.AtMost (pageSize - (l.rb.finish - l.rb.start)) →
      l.rb.recvMsgs recv = .ok (some rb) → rb.handleMsgs env opts rounds l.bot = .ok (rb', bot) →
      Reaches env opts false { l with bot }
  | restart {opts opts' : Options} {running : Bool} {l : Loop pageSize}
      {page : Mem (.mirror pageSize)} {bot : Bot} {outcome : Restored} :
      Reaches env opts running l → opts'.Clean →
      restoreState env l.bot.restarted = .ok (outcome, bot) →
      Reaches env opts' true (.enter page (connectToIrcServer opts' bot))

variable {env : Env} {opts : Options} {running : Bool} {l l' : Loop pageSize}

theorem Loop.Step.clean (hopts : opts.Clean) (hi : l.Inv env) (hc : l.bot.Clean)
    (h : l.Step env opts l') : l'.bot.Clean := by
  cases h with
  | wait => exact ⟨hc.pending, hc.file, hc.calls⟩
  | epollWait events _ _ _ _ => exact hc
  | server hb hrecv h =>
    obtain ⟨w, hun, hs⟩ := hi.buffer
    obtain ⟨data, -, hlines, -⟩ := ReadBuf.processMsgs_some hun hs hrecv h
    exact processLines_clean hopts (fun w hw b hb => (mem_pieces hw b hb).1) hc hlines
  | timer hb h =>
    obtain ⟨-, event, hhead, hdue⟩ := hi.due (hb ▸ List.mem_cons_self)
    exact handleTimeEvent_clean hi.good hc hhead hdue h
  | signal _ _ =>
    refine ⟨hc.pending, hc.file, ?_⟩
    intro call hcall
    rw [Bot.calls, Bot.write, Bot.observe, List.filterMap_append, List.mem_append] at hcall
    rcases hcall with hcall | hcall
    · exact hc.calls call hcall
    · rw [List.mem_singleton.mp hcall]
      exact isLine_writeMsg (clean_append.mpr ⟨by decide, hopts.quitMessage⟩)

/-- All that is reachable is clean; and a running loop keeps its invariant. -/
theorem Reaches.clean (h : Reaches env opts running l) :
    opts.Clean ∧ l.bot.Clean ∧ (running = true → l.Inv env) := by
  have enter : ∀ {opts : Options} {page : Mem (.mirror pageSize)} {bot₀ bot : Bot}
      {outcome : Restored}, opts.Clean → (∀ file ∈ bot₀.reminders, SafeFile file) →
      restoreState env bot₀.restarted = .ok (outcome, bot) →
      opts.Clean ∧ (connectToIrcServer opts bot).Clean ∧
        (true = true → (Loop.enter page (connectToIrcServer opts bot)).Inv env) := by
    intro opts page bot₀ bot outcome hopts hfile hrestore
    obtain ⟨hg, hne, -⟩ := restoreState_pending rfl hrestore
    exact ⟨hopts, restarted_clean hopts hfile hrestore,
      fun _ => Loop.enter_inv page hg fun hnil => absurd hnil hne⟩
  induction h with
  | first hopts hfile hrestore =>
    refine enter hopts ?_ hrestore
    rw [hfile]
    exact fun _ h => nomatch h
  | step _ hstep ih =>
    obtain ⟨hopts, hc, hi⟩ := ih
    exact ⟨hopts, hstep.clean hopts (hi rfl) hc, fun _ => hstep.inv (hi rfl)⟩
  | interrupted _ _ hrecv hrb hrun ih =>
    obtain ⟨hopts, hc, hi⟩ := ih
    obtain ⟨w, hun, hs⟩ := (hi rfl).buffer
    obtain ⟨data, -, -, hun'⟩ := ReadBuf.recvMsgs_some hun hs hrecv hrb
    obtain ⟨ws, hws, hlines⟩ := ReadBuf.handleMsgs_rounds _ _ _ hun' hrun
    exact ⟨hopts, processLines_clean hopts (fun w hw b hb =>
      (mem_pieces (hws.subset hw) b hb).1) hc hlines, fun h => nomatch h⟩
  | restart _ hopts hrestore ih => exact enter hopts ih.2.1.file hrestore

/-- Every call of the writer stands for one line, and each buffer handed to
`writen` is that line: the server sees as many lines as there were calls. -/
theorem no_line_injected (h : Reaches env opts running l) :
    (∀ call ∈ l.bot.calls, IsLine call.line) ∧
    -- no string in memory is longer
    ((∀ call ∈ l.bot.calls, call.line.length < 2 ^ 63) →
      WriteCall.buffers DString.stringInit l.bot.calls = l.bot.calls.map WriteCall.line ∧
      (WriteCall.buffers DString.stringInit l.bot.calls).flatten.count lf =
        l.bot.calls.length) := by
  have hlines := h.clean.2.1.calls
  refine ⟨hlines, fun hlen => ?_⟩
  have hbuffers := WriteCall.buffers_eq DString.stringInit_fits.1 l.bot.calls hlen
  refine ⟨hbuffers, ?_⟩
  rw [hbuffers]
  generalize l.bot.calls = calls at hlines
  induction calls with
  | nil => rfl
  | cons call calls ih =>
    obtain ⟨hline, hlines⟩ := List.forall_mem_cons.mp hlines
    rw [List.map_cons, List.flatten_cons, List.count_append, hline.count_lf, ih hlines,
      List.length_cons, Nat.add_comm]

/-- An echo, after the two registration messages. -/
theorem echo_in_one_line : ∃ l : Loop 512, Reaches (.still 9 (by decide)) .default true l ∧
    WriteCall.buffers DString.stringInit l.bot.calls =
      [ascii "NICK botniklas\r\n", ascii "USER botniklas 0 * :botniklas\r\n",
        ascii "PRIVMSG #c :hi\r\n"] := by
  have hopts : Options.default.Clean := ⟨by decide, by decide, by decide, by decide, by decide⟩
  have served : ∀ {outcome : Restored} {bot bot' : Bot} (data : Bytes),
      restoreState (.still 9 (by decide)) Bot.new.restarted = .ok (outcome, bot) →
      processLines (.still 9 (by decide)) .default (pieces isEol data).1
        (connectToIrcServer .default bot) = .ok bot' → data.length ≤ 512 →
      ∃ l : Loop 512, Reaches (.still 9 (by decide)) .default true l ∧ l.bot = bot' := by
    intro outcome bot bot' data hrestore hlines hdata
    have hwait : @Reaches 512 (.still 9 (by decide)) .default true
        ⟨connectToIrcServer .default bot, ⟨⟨fun _ => 0⟩, 0, 0⟩, [.server], 0, true⟩ :=
      (Reaches.first hopts rfl hrestore).step (.epollWait [.server] rfl (by decide) (by decide)
        (by simp))
    have hrun := @ReadBuf.processMsgs_run 512 ⟨⟨fun _ => 0⟩, 0, 0⟩ [] (.still 9 (by decide))
      .default data (connectToIrcServer .default bot) ⟨rfl, by decide, by decide, trivial⟩
      (by decide) (by simpa using hdata)
    rw [if_neg (by decide), List.nil_append, hlines] at hrun
    obtain ⟨rb', hrun, -⟩ := hrun
    exact ⟨_, hwait.step (.server rfl (show Recv.AtMost _ (.data data) from hdata) hrun), rfl⟩
  obtain ⟨outcome, hrestore⟩ := restoreState_eq (.still 9 (by decide)) Bot.new.restarted
  have hpieces : (pieces isEol (ascii ":al!u@h PRIVMSG #c :!echo hi\r\n")).1 =
      [ascii ":al!u@h PRIVMSG #c :!echo hi", []] := by decide
  have hline := fun bot => processLine_eq (.still 9 (by decide)) .default
    (ascii ":al!u@h PRIVMSG #c :!echo hi") bot
  obtain ⟨l, hl, hbot⟩ := served (ascii ":al!u@h PRIVMSG #c :!echo hi\r\n") hrestore
    (by rw [hpieces, processLines, hline]; rfl) (by decide)
  have hcalls : l.bot.calls = [.writeMsg (ascii "NICK botniklas"),
      .writeMsg (ascii "USER botniklas 0 * :botniklas"), .say (ascii "#c") (ascii "hi")] := by
    rw [hbot]
    rfl
  refine ⟨l, hl, ((no_line_injected hl).2 ?_).1.trans ?_⟩
  · rw [hcalls]
    decide
  · rw [hcalls]
    decide

end Sessions
end Botniklas
