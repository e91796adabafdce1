import Botniklas.Clean
import Botniklas.Framing

/-! What the writer sends, the reader decodes, whatever the chunks it comes in. -/
namespace Botniklas
open Foundation Irc Mem

/-- A true answer of `get_msg`: NULL, or a message with the memory it stands in. -/
inductive Answer (pageSize : Nat) where
  | null
  | msg (p : Nat) (buf : Mem (.mirror pageSize))

namespace ReadBuf
variable {pageSize : Nat}

/-- The calls of `get_msg` until it answers false. A message is split in place before
the next call, as `process_msgs` does, or left as it is. -/
inductive Drains (e inPlace : Bool) :
    ReadBuf pageSize → List (Answer pageSize) → ReadBuf pageSize → Prop where
  | none {rb rb' : ReadBuf pageSize} : rb.getMsg e = .ok (.none, rb') →
      Drains e inPlace rb [] rb'
  | null {rb rb₁ rb' : ReadBuf pageSize} {answers : List (Answer pageSize)} :
      rb.getMsg e = .ok (.null, rb₁) → Drains e inPlace rb₁ answers rb' →
      Drains e inPlace rb (.null :: answers) rb'
  | msg {rb rb₁ rb' : ReadBuf pageSize} {answers : List (Answer pageSize)} {p : Nat}
      {buf : Mem (.mirror pageSize)} : rb.getMsg e = .ok (.msg p, rb₁) →
      (if inPlace then ∃ msg, (splitMsg e p).run rb₁.buf = .ok msg buf else buf = rb₁.buf) →
      Drains e inPlace { rb₁ with buf } answers rb' →
      Drains e inPlace rb (.msg p rb₁.buf :: answers) rb'

/-- The bytes `fed` into the buffer in chunks that each fit its free space, with the
true answers of `get_msg`. -/
inductive Feeds (e inPlace : Bool) (rb₀ : ReadBuf pageSize) :
    (fed : Bytes) → List (Answer pageSize) → ReadBuf pageSize → Prop where
  | init : Feeds e inPlace rb₀ [] [] rb₀
  | chunk {fed chunk : Bytes} {answers new : List (Answer pageSize)}
      {rb rb₁ rb' : ReadBuf pageSize} : Feeds e inPlace rb₀ fed answers rb →
      chunk.length ≤ pageSize - (rb.finish - rb.start) →
      rb.recvMsgs (.data chunk) = .ok (some rb₁) → Drains e inPlace rb₁ new rb' →
      Feeds e inPlace rb₀ (fed ++ chunk) (answers ++ new) rb'

end ReadBuf

/-- The answer to a complete piece of the stream. -/
def Answer.To {pageSize : Nat} (u : Bytes) : Answer pageSize → Prop
  | .null => u = [] ∨ nul ∈ u
  | .msg p buf => u ≠ [] ∧ buf.CStr p u ∧ p + u.length < 2 * pageSize ∧ u.length < pageSize

namespace ReadBuf
variable {pageSize : Nat} {e inPlace : Bool} {rb rb₀ rb' : ReadBuf pageSize} {u w fed : Bytes}
  {answers : List (Answer pageSize)}

/-- `split_msg` run on an answer's memory is the pure parser. -/
theorem splitMsg_answer {p : Nat} {buf : Mem (.mirror pageSize)} {g : Grammar}
    (h : (Answer.msg p buf).To u) (hg : parseMsg u = .ok g) :
    ∃ msg m', (splitMsg e p).run buf = .ok msg m' ∧ Within p (p + u.length + 1) buf m' ∧
      msg.view m' = g.view := by
  obtain ⟨-, hstr, hp, hlen⟩ := h
  have hrun := splitMsg_run e hstr (Layout.mirror_distinct pageSize _ _ (by omega)) hp
  rw [hg] at hrun
  obtain ⟨msg, m', hrun, hwi, hreads⟩ := hrun
  exact ⟨msg, m', hrun, hwi, hreads.view_eq hp⟩

/-- A message split in place leaves the bytes after it. -/
private theorem unread_split {p : Nat} {buf : Mem (.mirror pageSize)} {r : Bytes}
    (hun : rb.Unread r) (hstr : rb.buf.CStr p u) (hp : p + u.length + 1 = rb.start)
    (hroom : u.length + 1 + r.length ≤ pageSize)
    (h : if inPlace then ∃ msg, (splitMsg e p).run rb.buf = .ok msg buf else buf = rb.buf) :
    ({ rb with buf } : ReadBuf pageSize).Unread r := by
  have hf := hun.finish
  have hm := hun.mapped
  cases inPlace with
  | false =>
    obtain rfl : buf = rb.buf := h
    exact hun
  | true =>
    obtain ⟨msg, hsplit⟩ := h
    have hrun := splitMsg_run e hstr (Layout.mirror_distinct pageSize _ _ (by omega))
      (by change _ < 2 * pageSize; omega)
    cases hg : parseMsg u with
    | error t =>
      rw [hg] at hrun
      obtain ⟨m', hrun, -⟩ := hrun
      rw [hsplit] at hrun
      cases hrun
    | ok g =>
      rw [hg] at hrun
      obtain ⟨msg', m', hrun, hwi, -⟩ := hrun
      rw [hsplit] at hrun
      cases hrun
      exact hun.within hp hroom hwi

/-- The true answers are those to the complete pieces of the unread bytes, in order. -/
theorem Drains.forall_pieces (h : Drains e inPlace rb answers rb') (hun : rb.Unread w) :
    List.Forall₂ Answer.To (pieces isEol w).1 answers ∧ rb'.Unread (pieces isEol w).2 ∧
      rb'.start ≤ pageSize := by
  induction h generalizing w with
  | none hget =>
    obtain ⟨hw, hend⟩ := getMsg_ok hun hget
    rw [pieces_of_open hw]
    exact ⟨.nil, hend⟩
  | null hget _ ih =>
    obtain ⟨u, c, r, rfl, hu, hc, hnull, hun'⟩ := getMsg_ok hun hget
    obtain ⟨hrest, hend⟩ := ih hun'
    rw [pieces_cut hu hc]
    exact ⟨.cons hnull hrest, hend⟩
  | msg hget hbuf _ ih =>
    obtain ⟨u, c, r, rfl, hu, hc, hne, hun', hstr, hp, hroom⟩ := getMsg_ok hun hget
    have hf := hun'.finish
    have hm := hun'.mapped
    obtain ⟨hrest, hend⟩ := ih (unread_split hun' hstr hp hroom hbuf)
    rw [pieces_cut hu hc]
    exact ⟨.cons ⟨hne, hstr, by omega, by omega⟩ hrest, hend⟩

/-- A piece that `get_msg` does not reject, and that splits if it is a message. -/
def Readable (u : Bytes) : Prop := nul ∉ u ∧ (u ≠ [] → ∃ g, parseMsg u = .ok g)

/-- The calls of `get_msg` come to an answer of false. -/
theorem drains_of_readable (hun : rb.Unread w) (hw : ∀ u ∈ (pieces isEol w).1, Readable u) :
    ∃ answers rb', Drains e inPlace rb answers rb' := by
  induction w using cut_induction isEol generalizing rb with
  | rest u hu =>
    obtain ⟨rb', hget, -⟩ := getMsg_open e hun hu
    exact ⟨[], rb', .none hget⟩
  | cut u c r hu hc ih =>
    rw [pieces_cut hu hc] at hw
    obtain ⟨⟨hz, hparse⟩, hr⟩ := List.forall_mem_cons.mp hw
    obtain ⟨rb₁, hun', hcases⟩ := getMsg_cut e hun hu hc
    rcases hcases with ⟨hz', -⟩ | ⟨-, hget⟩ | ⟨-, hne, p, hget, hstr, hp, hroom⟩
    · exact absurd hz' hz
    · obtain ⟨answers, rb', h⟩ := ih hun' hr
      exact ⟨_, rb', .null hget h⟩
    · have hf := hun'.finish
      have hm := hun'.mapped
      obtain ⟨g, hg⟩ := hparse hne
      have hto : (Answer.msg p rb₁.buf).To u := ⟨hne, hstr, by omega, by omega⟩
      obtain ⟨msg, m', hrun, -⟩ := @splitMsg_answer pageSize e u p rb₁.buf g hto hg
      have hbuf : ∃ buf, if inPlace then ∃ msg, (splitMsg e p).run rb₁.buf = .ok msg buf
          else buf = rb₁.buf := by
        cases inPlace with
        | false => exact ⟨rb₁.buf, rfl⟩
        | true => exact ⟨m', msg, hrun⟩
      obtain ⟨buf, hbuf⟩ := hbuf
      obtain ⟨answers, rb', h⟩ := ih (unread_split hun' hstr hp hroom hbuf) hr
      exact ⟨_, rb', .msg hget hbuf h⟩

theorem Feeds.inv (h : Feeds e inPlace rb₀ fed answers rb) (hempty : rb₀.start = rb₀.finish)
    (hstart : rb₀.start ≤ pageSize) :
    List.Forall₂ Answer.To (pieces isEol fed).1 answers ∧ rb.Unread (pieces isEol fed).2 ∧
      rb.start ≤ pageSize := by
  induction h with
  | init => exact ⟨.nil, ⟨hempty, Nat.zero_le _, by omega, trivial⟩, hstart⟩
  | @chunk fed chunk answers new rb rb₁ rb' _ hroom hrecv hdrain ih =>
    obtain ⟨hanswers, hun, hs⟩ := ih
    obtain ⟨_, ⟨rfl⟩, -, hun₁⟩ := recvMsgs_some hun hs
      (show (Recv.data chunk).AtMost _ from hroom) hrecv
    obtain ⟨hnew, hend⟩ := hdrain.forall_pieces hun₁
    rw [pieces_append]
    exact ⟨List.rel_append hanswers hnew, hend⟩

/-- Of a stream of readable pieces every chunk that fits is taken. -/
theorem Feeds.next {chunk : Bytes} (h : Feeds e inPlace rb₀ fed answers rb)
    (hempty : rb₀.start = rb₀.finish) (hstart : rb₀.start ≤ pageSize)
    (hw : ∀ u ∈ (pieces isEol (fed ++ chunk)).1, Readable u)
    (htail : (pieces isEol fed).2.length < pageSize)
    (hroom : chunk.length ≤ pageSize - (rb.finish - rb.start)) :
    ∃ new rb', Feeds e inPlace rb₀ (fed ++ chunk) (answers ++ new) rb' := by
  obtain ⟨-, hun, hs⟩ := h.inv hempty hstart
  have hf := hun.finish
  have hrecv := @recvMsgs_run _ _ _ chunk hun hs (by omega)
  rw [if_neg (by omega)] at hrecv
  obtain ⟨rb₁, hrecv, hun₁⟩ := hrecv
  rw [pieces_append] at hw
  obtain ⟨new, rb', hdrain⟩ := @drains_of_readable pageSize e inPlace rb₁ _ hun₁
    fun u hu => hw u (List.mem_append_right _ hu)
  exact ⟨new, rb', h.chunk hroom hrecv hdrain⟩

end ReadBuf

section Privmsg
variable {pageSize : Nat} {target text : Bytes} {call : WriteCall}

/-- The calls that send `text` to `target`. -/
inductive WriteCall.Sends (target text : Bytes) : WriteCall → Prop where
  | say : Sends target text (.say target text)
  | compose {pieces : List Bytes} : pieces.flatten = text → Sends target text (.compose target pieces)

theorem WriteCall.Sends.line_eq (h : call.Sends target text) :
    call.line = privmsgTo target ++ text ++ crlf := by
  cases h with
  | say => rfl
  | compose htext =>
    subst htext
    rfl

theorem parseMsg_privmsgTo (text : Bytes) (h : Grammar.Middle target) :
    parseMsg (privmsgTo target ++ text) =
      .ok ⟨none, ascii "PRIVMSG", [target], some text⟩ := by
  have hword : Grammar.Word (ascii "PRIVMSG") := ⟨by decide, by decide⟩
  have hhead : (ascii "PRIVMSG").head? ≠ some colon := by decide
  have hcmd : ascii "PRIVMSG " = ascii "PRIVMSG" ++ [space] := by decide
  have hcolon : ascii " :" = [space, colon] := by decide
  rw [parseMsg_ok_iff]
  constructor
  · exact ⟨by simp, hword, fun _ => hhead, by simpa using h, by simp [Grammar.params, maxParams]⟩
  · unfold privmsgTo
    rw [hcmd, hcolon]
    simp [Grammar.bytes, Grammar.prefixBytes, Grammar.paramBytes]

private theorem Clean.not_isEol {u : Bytes} (h : Clean u) : ∀ b ∈ u, isEol b = false := by
  intro b hb
  obtain ⟨-, hcr, hlf⟩ := h b hb
  simp [isEol, hcr, hlf]

/-- A line is one piece, and an empty one between its CR and its LF. -/
theorem pieces_line {u : Bytes} (h : Clean u) : pieces isEol (u ++ crlf) = ([u, []], []) := by
  have hlf : pieces isEol [lf] = ([[]], []) := by decide
  rw [crlf, pieces_cut h.not_isEol (by decide), hlf]

/-- What has come of a line at any time is some of its pieces and the start of one. -/
theorem pieces_line_start {u fed : Bytes} (h : Clean u) (hfed : fed <+: u ++ crlf) :
    (pieces isEol fed).1 <+: [u, []] ∧ (pieces isEol fed).2.length ≤ u.length := by
  obtain ⟨rest, hrest⟩ := hfed
  constructor
  · have hline := pieces_line h
    rw [← hrest, pieces_append] at hline
    exact ⟨_, congrArg Prod.fst hline⟩
  · rcases List.append_eq_append_iff.mp hrest with ⟨v, rfl, -⟩ | ⟨c, rfl, hc⟩
    · rw [pieces_of_open (clean_append.mp h).1.not_isEol, List.length_append]
      exact Nat.le_add_right _ _
    · rcases c with _ | ⟨b, _ | ⟨b', c⟩⟩
      · rw [List.append_nil, pieces_of_open h.not_isEol]
      · obtain ⟨rfl, -⟩ := List.cons.inj hc
        rw [pieces_cut h.not_isEol (by decide)]
        exact Nat.zero_le _
      · simp only [crlf, List.cons_append, List.cons.injEq] at hc
        obtain ⟨rfl, rfl, hnil⟩ := hc
        obtain ⟨rfl, -⟩ := List.append_eq_nil_iff.mp hnil.symm
        rw [← crlf, pieces_line h]
        exact Nat.zero_le _

/-- The answers to a line are its message, which splits as the pure parser says, and a NULL. -/
private theorem answers_line {u : Bytes} {g : Grammar} {e : Bool} {answers : List (Answer pageSize)}
    (hclean : Clean u) (hparse : parseMsg u = .ok g)
    (h : List.Forall₂ Answer.To [u, []] answers) :
    ∃ p buf, answers = [.msg p buf, .null] ∧
      ∃ msg buf', (splitMsg e p).run buf = .ok msg buf' ∧ msg.view buf' = g.view := by
  obtain ⟨first, rest, hfirst, hrest, rfl⟩ := List.forall₂_cons_left_iff.mp h
  obtain ⟨second, rest, hsecond, hnone, rfl⟩ := List.forall₂_cons_left_iff.mp hrest
  obtain rfl := List.forall₂_nil_left_iff.mp hnone
  cases second with
  | msg p buf => exact absurd rfl hsecond.1
  | null =>
    cases first with
    | null =>
      rcases hfirst with rfl | hz
      · cases hparse
      · exact absurd rfl (hclean _ hz).1
    | msg p buf =>
      obtain ⟨msg, buf', hsplit, -, hview⟩ := ReadBuf.splitMsg_answer hfirst hparse
      exact ⟨p, buf, rfl, msg, buf', hsplit, hview⟩

/-- The reader decodes what the writer sends: to any start index, in any chunks, by
`say` or piece by piece, whatever the write buffer was used for before. -/
theorem reader_decodes_writer {s : DString} {e inPlace : Bool} {rb₀ : ReadBuf pageSize}
    (htarget : Grammar.Middle target ∧ Clean target) (htext : Clean text)
    (hcall : call.Sends target text) (hs : s.Fits)
    (hlen : (privmsgTo target ++ text).length < pageSize)
    -- `msg_read_buf_init` maps four pages
    (hpage : 4 * pageSize ≤ 2 ^ 63)
    (hempty : rb₀.start = rb₀.finish) (hstart : rb₀.start ≤ pageSize) :
    (∀ answers rb, ReadBuf.Feeds e inPlace rb₀ (call.run s).contents answers rb →
      ∃ p buf, answers = [.msg p buf, .null] ∧
        ∃ msg buf', (splitMsg e p).run buf = .ok msg buf' ∧
          msg.view buf' = ⟨none, none, none, none, ascii "PRIVMSG", [target, text]⟩) ∧
    (∀ fed chunk answers rb, ReadBuf.Feeds e inPlace rb₀ fed answers rb →
      fed ++ chunk <+: (call.run s).contents → rb.finish - rb.start < pageSize ∧
        (chunk.length ≤ pageSize - (rb.finish - rb.start) →
          ∃ new rb', ReadBuf.Feeds e inPlace rb₀ (fed ++ chunk) (answers ++ new) rb')) := by
  have hclean : Clean (privmsgTo target ++ text) :=
    clean_append.mpr ⟨clean_privmsgTo htarget.2, htext⟩
  have hparse := parseMsg_privmsgTo text htarget.1
  have hsent : (call.run s).contents = privmsgTo target ++ text ++ crlf := by
    have hline := hcall.line_eq
    rw [(WriteCall.run_line hs call ?_).2, hline]
    rw [hline, List.length_append, show crlf.length = 2 from rfl]
    omega
  rw [hsent]
  generalize privmsgTo target ++ text = u at *
  constructor
  · intro answers rb hfeeds
    obtain ⟨hanswers, -⟩ := hfeeds.inv hempty hstart
    rw [pieces_line hclean] at hanswers
    exact answers_line hclean hparse hanswers
  · intro fed chunk answers rb hfeeds hfed
    obtain ⟨-, hun, -⟩ := hfeeds.inv hempty hstart
    have htail := (pieces_line_start hclean ((List.prefix_append fed chunk).trans hfed)).2
    have hf := hun.finish
    refine ⟨by omega, fun hroom => hfeeds.next hempty hstart ?_ (by omega) hroom⟩
    intro v hv
    have hmem := (pieces_line_start hclean hfed).1.subset hv
    simp only [List.mem_cons, List.not_mem_nil, or_false] at hmem
    rcases hmem with rfl | rfl
    · exact ⟨fun hz => (hclean _ hz).1 rfl, fun _ => ⟨_, hparse⟩⟩
    · exact ⟨by simp, fun hne => absurd rfl hne⟩

/-- A message of two pieces in two chunks, the first over the end of the page. -/
theorem hi_read_back : ∃ answers rb,
    ReadBuf.Feeds false true (⟨⟨fun _ => 0⟩, 510, 510⟩ : ReadBuf 512)
      (ascii "PRIVMSG #c :h" ++ ascii "i\r\n") answers rb ∧
    ∃ p buf, answers = [.msg p buf, .null] ∧
      ∃ msg buf', (splitMsg false p).run buf = .ok msg buf' ∧
        msg.view buf' = ⟨none, none, none, none, ascii "PRIVMSG", [ascii "#c", ascii "hi"]⟩ := by
  have hcall : WriteCall.Sends (ascii "#c") (ascii "hi")
      (.compose (ascii "#c") [ascii "h", ascii "i"]) := .compose rfl
  have htarget : Grammar.Middle (ascii "#c") ∧ Clean (ascii "#c") :=
    ⟨⟨⟨by decide, by decide⟩, by decide⟩, by decide⟩
  have hsent := (WriteCall.run_line DString.stringInit_fits.1
    (.compose (ascii "#c") [ascii "h", ascii "i"]) (by decide)).2
  have hread := @reader_decodes_writer 512 _ _ _ DString.stringInit false true
    ⟨⟨fun _ => 0⟩, 510, 510⟩ htarget (by decide) hcall DString.stringInit_fits.1 (by decide)
    (by decide) rfl (by decide)
  rw [hsent] at hread
  obtain ⟨hdecodes, hnext⟩ := hread
  have hnext₁ := (hnext [] (ascii "PRIVMSG #c :h") _ _ .init (by decide)).2
  obtain ⟨new, rb₁, h₁⟩ := hnext₁ (by decide)
  have hunread : rb₁.start + 13 = rb₁.finish := (h₁.inv rfl (by decide)).2.1.finish
  have hnext₂ := (hnext _ (ascii "i\r\n") _ _ h₁ (by decide)).2
  obtain ⟨new', rb₂, h₂⟩ := hnext₂ (by change 3 ≤ _; omega)
  exact ⟨_, _, h₂, hdecodes _ _ h₂⟩

end Privmsg
end Botniklas
