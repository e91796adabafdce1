import Botniklas.FileRuns
import Botniklas.Main

/-! A process from `init` to `deinit`: the descriptors it opens beside those of its files. -/
namespace Botniklas
open Foundation Irc

namespace Storage

/-- A descriptor of no file; the path beside it is never looked up. -/
def create (s : Storage) (fd : Nat) : Storage := { s with fds := (fd, []) :: s.fds }

def Unused (s : Storage) (fd : Nat) : Prop := ∀ e ∈ s.fds, e.1 ≠ fd

def Open (s : Storage) (fd : Nat) : Prop := ∃ e ∈ s.fds, e.1 = fd

instance (s : Storage) (fd : Nat) : Decidable (s.Open fd) :=
  inferInstanceAs (Decidable (∃ e ∈ s.fds, e.1 = fd))

end Storage

/-- What `socket` and `connect` answer for an address. -/
structure AddrAnswers where
  socket : Option Nat
  connected : Bool

/-- The loop over the addresses. -/
def connectAny : List AddrAnswers → Storage → Option Nat × Storage
  | [], s => (none, s)
  | ai :: ais, s =>
    match ai.socket with
    | none => connectAny ais s
    | some peerFd =>
      if ai.connected then (some peerFd, s.create peerFd)
      else connectAny ais ((s.create peerFd).sysClose peerFd)

/-- `ais` are the addresses `getaddrinfo` finds, none if it fails. -/
def connectTo (ais : Option (List AddrAnswers)) (s : Storage) : Except Stop (Nat × Storage) :=
  match ais with
  | none => .error (.exited
      "Failed to look up '%s' (using service/port '%s' and socket type %s): %s")
  | some ais =>
    match connectAny ais s.malloc with
    | (some peerFd, s) => .ok (peerFd, s.free)
    | (none, _) => .error (.exited
        "Failed to connect to '%s' (using service/port '%s' and socket type %s)")

/-- What the system answers until the first `epoll_wait`. -/
structure StartAnswers where
  signalfd : Option Nat
  masked : Bool
  timerfd : Option Nat
  restore : ReadAnswers
  ais : Option (List AddrAnswers)
  epoll : Option Nat
  watched : Source → Bool

structure CloseAnswers where
  unmapped : Bool
  serv : Bool
  signal : Bool
  timer : Bool
  epoll : Bool

structure Descriptors where
  signalFd : Nat
  timerFd : Nat
  servFd : Nat
  epollFd : Nat

/-- The descriptor a call answers, or `err_exit`. -/
def given (text : String) : Option Nat → Except Stop Nat
  | some fd => .ok fd
  | none => .error (.exited text)

def granted (text : String) (answer : Bool) : Except Stop Unit :=
  if answer then .ok () else .error (.exited text)

/-- Returns `signal_fd` and `timer_fd`. How `msg_read_buf_init` maps the read buffer is
`setUpMirroring`. -/
def init (account : Account) (zone : Int) (k : StartAnswers) (s : Storage) :
    Except Stop ((Nat × Nat) × Storage) := do
  let s := s.malloc
  let signalFd ← given "signalfd" k.signalfd
  let s := s.create signalFd
  granted "sigprocmask" k.masked
  let timerFd ← given "timerfd_create" k.timerfd
  let s := s.create timerFd
  return ((signalFd, timerFd), (FileOp.restore k.restore).run account zone s)

def addEpollReadFd (k : StartAnswers) (source : Source) : Except Stop Unit :=
  granted (if source = .timer then "epoll_ctl (EPOLL_CTL_ADD) with EPOLLET"
    else "epoll_ctl (EPOLL_CTL_ADD)") (k.watched source)

def initEpoll (k : StartAnswers) (s : Storage) : Except Stop (Nat × Storage) := do
  let epollFd ← given "epoll_create" k.epoll
  addEpollReadFd k .server
  addEpollReadFd k .timer
  addEpollReadFd k .signal
  return (epollFd, s.create epollFd)

/-- `main` before its loop. -/
def startUp (account : Account) (zone : Int) (k : StartAnswers) (s : Storage) :
    Except Stop (Descriptors × Storage) := do
  let ((signalFd, timerFd), s) ← init account zone k s
  let (servFd, s) ← connectTo k.ais s
  let (epollFd, s) ← initEpoll k s
  return (⟨signalFd, timerFd, servFd, epollFd⟩, s)

/-- `close` of a descriptor that is not open is an error. -/
def closeOrExit (text : String) (answer : Bool) (fd : Nat) (s : Storage) : Except Stop Storage := do
  granted text (answer && s.Open fd)
  return s.sysClose fd

def deinit (k : CloseAnswers) (d : Descriptors) (s : Storage) : Except Stop Storage := do
  granted "munmap (message read buffer)" k.unmapped
  let s := s.free
  let s ← closeOrExit "close (serv_fd)" k.serv d.servFd s
  let s ← closeOrExit "close (signal_fd)" k.signal d.signalFd s
  let s ← closeOrExit "close timer_fd (for time events)" k.timer d.timerFd s
  closeOrExit "close (epoll_fd)" k.epoll d.epollFd s

/-! What the calls leave. -/

section Calls
variable {text : String} {answer : Option Nat} {ok : Bool} {fd fd' : Nat} {s s' : Storage}
  {ai : AddrAnswers} {ais tried : List AddrAnswers}

theorem bind_ok_iff {α β : Type} {x : Except Stop α} {f : α → Except Stop β} {b : β} :
    (x >>= f) = .ok b ↔ ∃ a, x = .ok a ∧ f a = .ok b := by
  constructor
  · exact bind_ok
  · rintro ⟨a, rfl, h⟩
    exact h

theorem given_ok_iff : given text answer = .ok fd ↔ answer = some fd := by
  unfold given
  cases answer <;> simp

theorem granted_ok_iff {u : Unit} : granted text ok = .ok u ↔ ok = true := by
  unfold granted
  cases ok <;> simp

/-- A descriptor not in use is closed again. -/
theorem create_sysClose (h : s.Unused fd) : (s.create fd).sysClose fd = s := sysClose_opened h

theorem open_sysClose : (s.sysClose fd).Open fd' ↔ s.Open fd' ∧ fd' ≠ fd := by
  unfold Storage.Open Storage.sysClose
  constructor
  · rintro ⟨e, he, rfl⟩
    obtain ⟨he, hne⟩ := List.mem_filter.mp he
    exact ⟨⟨e, he, rfl⟩, of_decide_eq_true hne⟩
  · rintro ⟨⟨e, he, rfl⟩, hne⟩
    exact ⟨e, List.mem_filter.mpr ⟨he, decide_eq_true hne⟩, rfl⟩

theorem closeOrExit_ok_iff : closeOrExit text ok fd s = .ok s' ↔
    (ok = true ∧ s.Open fd) ∧ s' = s.sysClose fd := by
  unfold closeOrExit
  rw [bind_ok_iff]
  constructor
  · rintro ⟨u, hgranted, h⟩
    have hboth := granted_ok_iff.mp hgranted
    rw [Bool.and_eq_true, decide_eq_true_iff] at hboth
    exact ⟨hboth, (Except.ok.inj h).symm⟩
  · rintro ⟨⟨rfl, hopen⟩, rfl⟩
    exact ⟨(), granted_ok_iff.mpr (by simpa using hopen), rfl⟩

def AddrAnswers.Connects (ai : AddrAnswers) (fd : Nat) : Prop :=
  ai.socket = some fd ∧ ai.connected = true

/-- `fd` is the socket for the first address that can be connected to. -/
def FirstConnected (ais : List AddrAnswers) (fd : Nat) : Prop :=
  ∃ tried ai rest, ais = tried ++ ai :: rest ∧ (∀ a ∈ tried, ∀ fd, ¬ a.Connects fd) ∧
    ai.Connects fd

/-- The loop leaves nothing behind of the addresses that cannot be connected to. -/
theorem connectAny_tried (htried : ∀ a ∈ tried, ∀ fd, ¬ a.Connects fd)
    (hunused : ∀ a ∈ tried, ∀ fd ∈ a.socket, s.Unused fd) :
    connectAny (tried ++ ais) s = connectAny ais s := by
  induction tried with
  | nil => rfl
  | cons a tried ih =>
    have hrest := ih (fun a ha => htried a (List.mem_cons_of_mem _ ha))
      fun a ha => hunused a (List.mem_cons_of_mem _ ha)
    rw [List.cons_append, connectAny]
    split
    · exact hrest
    · rename_i peerFd hsocket
      -- the socket made for an address that refuses is closed again
      have hclosed := create_sysClose (hunused a List.mem_cons_self peerFd hsocket)
      rw [if_neg fun hok => htried a List.mem_cons_self peerFd ⟨hsocket, hok⟩, hclosed]
      exact hrest

theorem exists_firstConnected (ais : List AddrAnswers) :
    (∀ a ∈ ais, ∀ fd, ¬ a.Connects fd) ∨ ∃ fd, FirstConnected ais fd := by
  induction ais with
  | nil => exact .inl fun _ h => nomatch h
  | cons ai ais ih =>
    by_cases hai : ∃ fd, ai.Connects fd
    · obtain ⟨fd, hfd⟩ := hai
      exact .inr ⟨fd, [], ai, ais, rfl, fun _ h => (nomatch h), hfd⟩
    · have hnot : ∀ fd, ¬ ai.Connects fd := fun fd hfd => hai ⟨fd, hfd⟩
      rcases ih with hnone | ⟨fd, tried, a, rest, rfl, htried, hfd⟩
      · exact .inl (List.forall_mem_cons.mpr ⟨hnot, hnone⟩)
      · exact .inr ⟨fd, ai :: tried, a, rest, rfl, List.forall_mem_cons.mpr ⟨hnot, htried⟩, hfd⟩

theorem FirstConnected.connectAny_eq (h : FirstConnected ais fd)
    (hunused : ∀ a ∈ ais, ∀ fd ∈ a.socket, s.Unused fd) :
    connectAny ais s = (some fd, s.create fd) := by
  obtain ⟨tried, ai, rest, rfl, htried, hsocket, hok⟩ := h
  rw [connectAny_tried htried fun a ha => hunused a (List.mem_append_left _ ha), connectAny, hsocket]
  exact if_pos hok

theorem connectTo_ok_iff {found : Option (List AddrAnswers)}
    (hunused : ∀ ais ∈ found, ∀ a ∈ ais, ∀ fd ∈ a.socket, s.Unused fd) :
    connectTo found s = .ok (fd, s') ↔
      (∃ ais, found = some ais ∧ FirstConnected ais fd) ∧ s' = s.create fd := by
  cases found with
  | none => exact ⟨nofun, nofun⟩
  | some ais =>
    have hunused : ∀ a ∈ ais, ∀ fd ∈ a.socket, s.malloc.Unused fd := hunused ais rfl
    unfold connectTo
    dsimp only
    constructor
    · intro h
      rcases exists_firstConnected ais with hnone | ⟨fd', hfirst⟩
      · have hfailed := @connectAny_tried s.malloc [] ais hnone hunused
        rw [List.append_nil] at hfailed
        rw [hfailed] at h
        cases h
      · rw [hfirst.connectAny_eq hunused] at h
        cases h
        exact ⟨⟨ais, rfl, hfirst⟩, rfl⟩
    · rintro ⟨⟨_, ⟨rfl⟩, hfirst⟩, rfl⟩
      rw [hfirst.connectAny_eq hunused]
      rfl

end Calls

/-! What the files leave. -/

section Files
variable {account : Account} {home filename data : Bytes} {zone : Int} {s s₁ : Storage}
  {k : AppendAnswers} {mode : OpenMode} {ops : List FileOp}

/-- Without a home directory nothing is opened. -/
theorem openFile_homeless {k : OpenAnswers} (hhome : account.getHomeDir = none) :
    openFile account k filename mode s = (none, s) := by
  unfold openFile
  rw [hhome]

/-- Only the descriptor of a stream that could not be made stays open. -/
def LeavesOpen (stream : Bool) (s s' : Storage) : Prop :=
  s'.live = s.live ∧ (s'.fds = s.fds ∨
    stream = false ∧ ∃ fd path, s.Unused fd ∧ s'.fds = (fd, path) :: s.fds)

theorem appendTo_leavesOpen (hnul : ∀ home ∈ account.getHomeDir, nul ∉ home) (hname : nul ∉ filename)
    (hunused : ∀ fd, k.opened = some fd ∨ k.reopened = some fd → s.Unused fd) :
    LeavesOpen k.stream s (appendTo account k filename data s) := by
  cases hhome : account.getHomeDir with
  | none =>
    unfold appendTo openFileStdio
    rw [openFile_homeless hhome]
    exact ⟨rfl, .inl rfl⟩
  | some home =>
    cases hopen : openFile account k.toOpenAnswers filename .append s with
    | mk found s' =>
      obtain ⟨hleaves, hfound⟩ := openFile_append hhome (hnul home hhome) hname hopen
      unfold appendTo openFileStdio
      rw [hopen]
      cases found with
      | none => exact ⟨hleaves.live, .inl hfound.1⟩
      | some fd =>
        obtain ⟨hanswer, hfds, -, -⟩ := hfound
        dsimp only
        by_cases hstream : k.stream = true
        · rw [if_pos hstream]
          dsimp only
          rw [writeClose hfds (hunused fd hanswer)]
          exact ⟨hleaves.live, .inl rfl⟩
        · rw [if_neg hstream]
          exact ⟨hleaves.live, .inr ⟨eq_false_of_ne_true hstream, fd, _, hunused fd hanswer, hfds⟩⟩

/-- Restoring leaves everything as it was. -/
theorem restore_eq {k : ReadAnswers} (hnul : ∀ home ∈ account.getHomeDir, nul ∉ home)
    (hobeys : (FileOp.restore k).Obeys account s) : (FileOp.restore k).run account zone s = s := by
  cases hhome : account.getHomeDir with
  | none =>
    unfold FileOp.run readFile
    dsimp only
    rw [openFile_homeless hhome]
  | some home =>
    rcases @FileOp.run_appends _ _ zone _ _ hhome (hnul home hhome) hobeys with
      ⟨-, hsame⟩ | ⟨_, _, _, hsome, -⟩
    · exact hsame
    · cases hsome

theorem FileOp.run_leavesOpen {op : FileOp} (hnul : ∀ home ∈ account.getHomeDir, nul ∉ home)
    (hobeys : op.Obeys account s) : LeavesOpen (!op.noStream) s (op.run account zone s) := by
  cases op with
  | save k when target message =>
    unfold noStream
    rw [Bool.not_not]
    exact appendTo_leavesOpen hnul (by decide) hobeys
  | log k now text =>
    unfold noStream run Storage.logAppend
    rw [Bool.not_not]
    dsimp only
    cases logEntry zone now text with
    | none => exact ⟨rfl, .inl rfl⟩
    | some entry => exact appendTo_leavesOpen hnul (by decide) hobeys
  | restore k =>
    rw [restore_eq hnul hobeys]
    exact ⟨rfl, .inl rfl⟩

/-- Beside the descriptors of `s₁` only those of streams that could not be made are open. -/
structure Leaked (s₁ : Storage) (ops : List FileOp) (s : Storage) (leaked : List (Nat × Bytes)) :
    Prop where
  fds : s.fds = leaked ++ s₁.fds
  few : leaked.length ≤ ops.countP FileOp.noStream
  unused : ∀ e ∈ leaked, s₁.Unused e.1
  live : s.live = s₁.live

theorem FileRun.leaked (hnul : ∀ home ∈ account.getHomeDir, nul ∉ home)
    (h : FileRun account zone s₁ ops s) : ∃ leaked, Leaked s₁ ops s leaked := by
  induction h with
  | init => exact ⟨[], rfl, Nat.zero_le _, fun _ h => (nomatch h), rfl⟩
  | @op ops s op hrun hobeys ih =>
    obtain ⟨leaked, hfds, hfew, hunused, hlive⟩ := ih
    have hleaves : LeavesOpen (!op.noStream) s (op.run account zone s) :=
      op.run_leavesOpen hnul hobeys
    obtain ⟨hlive', hkept⟩ := hleaves
    rcases hkept with hkept | ⟨hstream, fd, path, hfd, hkept⟩
    · refine ⟨leaked, hkept.trans hfds, ?_, hunused, hlive'.trans hlive⟩
      rw [List.countP_append]
      exact hfew.trans (Nat.le_add_right _ _)
    · have hcount : [op].countP FileOp.noStream = 1 :=
        List.countP_singleton.trans (if_pos (by simpa using hstream))
      refine ⟨(fd, path) :: leaked, by rw [hkept, hfds]; rfl, ?_, ?_, hlive'.trans hlive⟩
      · rw [List.countP_append, hcount, List.length_cons]
        exact Nat.succ_le_succ hfew
      · refine List.forall_mem_cons.mpr ⟨fun e he => hfd e ?_, hunused⟩
        rw [hfds]
        exact List.mem_append_right _ he

end Files

/-! What is open from the start to the end. -/

def Descriptors.all (d : Descriptors) : List Nat := [d.epollFd, d.servFd, d.timerFd, d.signalFd]

/-- Every call that can fail succeeds, and some address can be connected to. -/
structure StartAnswers.Grants (k : StartAnswers) : Prop where
  signalfd : k.signalfd ≠ none
  masked : k.masked = true
  timerfd : k.timerfd ≠ none
  connected : ∃ ais, k.ais = some ais ∧ ∃ ai ∈ ais, ∃ fd, ai.Connects fd
  epoll : k.epoll ≠ none
  watched : ∀ source, k.watched source = true

/-- Documented behaviour: no call gives a descriptor that is in use. -/
structure StartAnswers.Obeys (account : Account) (k : StartAnswers) (s : Storage) : Prop where
  signalfd : ∀ fd ∈ k.signalfd, s.Unused fd
  timerfd : ∀ signalFd ∈ k.signalfd, ∀ fd ∈ k.timerfd, (s.create signalFd).Unused fd
  restore : ∀ signalFd ∈ k.signalfd, ∀ timerFd ∈ k.timerfd,
    (FileOp.restore k.restore).Obeys account ((s.malloc.create signalFd).create timerFd)
  socket : ∀ signalFd ∈ k.signalfd, ∀ timerFd ∈ k.timerfd, ∀ ais ∈ k.ais, ∀ ai ∈ ais,
    ∀ fd ∈ ai.socket, ((s.create signalFd).create timerFd).Unused fd
  epoll : ∀ signalFd ∈ k.signalfd, ∀ timerFd ∈ k.timerfd, ∀ ais ∈ k.ais, ∀ servFd,
    FirstConnected ais servFd → ∀ fd ∈ k.epoll,
      (((s.create signalFd).create timerFd).create servFd).Unused fd

/-- From `s₀` to `s₁` the descriptors `d` have been opened, no two of them the same. -/
structure Started (k : StartAnswers) (s₀ s₁ : Storage) (d : Descriptors) : Prop where
  signal : k.signalfd = some d.signalFd
  timer : k.timerfd = some d.timerFd
  epoll : k.epoll = some d.epollFd
  serv : ∃ ais, k.ais = some ais ∧ FirstConnected ais d.servFd
  tree : s₁.tree = s₀.tree
  fds : s₁.fds = d.all.map (·, []) ++ s₀.fds
  live : s₁.live = s₀.live + 1
  distinct : d.all.Nodup
  unused : ∀ fd ∈ d.all, s₀.Unused fd

section Start
variable {account : Account} {zone : Int} {k : StartAnswers} {s s' s₀ s₁ : Storage}
  {d : Descriptors} {fd fd' signalFd timerFd epollFd : Nat}

theorem init_ok_iff (hnul : ∀ home ∈ account.getHomeDir, nul ∉ home) (hobeys : k.Obeys account s) :
    init account zone k s = .ok ((signalFd, timerFd), s') ↔
      (k.signalfd = some signalFd ∧ k.masked = true ∧ k.timerfd = some timerFd) ∧
        s' = (s.malloc.create signalFd).create timerFd := by
  unfold init
  simp only [bind_ok_iff, given_ok_iff, granted_ok_iff]
  constructor
  · rintro ⟨signalFd', hsignal, -, hmasked, timerFd', htimer, h⟩
    rw [restore_eq hnul (hobeys.restore _ hsignal _ htimer)] at h
    cases h
    exact ⟨⟨hsignal, hmasked, htimer⟩, rfl⟩
  · rintro ⟨⟨hsignal, hmasked, htimer⟩, rfl⟩
    refine ⟨signalFd, hsignal, (), hmasked, timerFd, htimer, ?_⟩
    rw [restore_eq hnul (hobeys.restore _ hsignal _ htimer)]
    rfl

theorem initEpoll_ok_iff : initEpoll k s = .ok (epollFd, s') ↔
    (k.epoll = some epollFd ∧ ∀ source, k.watched source = true) ∧ s' = s.create epollFd := by
  unfold initEpoll addEpollReadFd
  simp only [bind_ok_iff, given_ok_iff, granted_ok_iff]
  constructor
  · rintro ⟨epollFd', hepoll, -, hserver, -, htimer, -, hsignal, h⟩
    cases h
    refine ⟨⟨hepoll, fun source => ?_⟩, rfl⟩
    cases source with
    | server => exact hserver
    | timer => exact htimer
    | signal => exact hsignal
  · rintro ⟨⟨hepoll, hwatched⟩, rfl⟩
    exact ⟨epollFd, hepoll, (), hwatched _, (), hwatched _, (), hwatched _, rfl⟩

theorem startUp_ok_iff (hnul : ∀ home ∈ account.getHomeDir, nul ∉ home)
    (hobeys : k.Obeys account s) : startUp account zone k s = .ok (d, s') ↔
      (k.signalfd = some d.signalFd ∧ k.masked = true ∧ k.timerfd = some d.timerFd) ∧
      (∃ ais, k.ais = some ais ∧ FirstConnected ais d.servFd) ∧
      (k.epoll = some d.epollFd ∧ ∀ source, k.watched source = true) ∧
      s' = (((s.malloc.create d.signalFd).create d.timerFd).create d.servFd).create d.epollFd := by
  unfold startUp
  simp only [bind_ok_iff]
  constructor
  · rintro ⟨⟨⟨signalFd, timerFd⟩, s₁⟩, hinit, ⟨servFd, s₂⟩, hconnect, ⟨epollFd, s₃⟩, hepoll, h⟩
    obtain ⟨hgiven, rfl⟩ := (init_ok_iff hnul hobeys).mp hinit
    have hunused := hobeys.socket _ hgiven.1 _ hgiven.2.2
    obtain ⟨hserv, rfl⟩ :=
      (connectTo_ok_iff (s := (s.malloc.create signalFd).create timerFd) hunused).mp hconnect
    obtain ⟨hwatched, rfl⟩ := initEpoll_ok_iff.mp hepoll
    cases h
    exact ⟨hgiven, hserv, hwatched, rfl⟩
  · rintro ⟨hgiven, hserv, hwatched, rfl⟩
    have hunused := hobeys.socket _ hgiven.1 _ hgiven.2.2
    refine ⟨_, (init_ok_iff hnul hobeys).mpr ⟨hgiven, rfl⟩, ?_⟩
    refine ⟨_, (connectTo_ok_iff (s := (s.malloc.create d.signalFd).create d.timerFd) hunused).mpr
      ⟨hserv, rfl⟩, ?_⟩
    exact ⟨_, initEpoll_ok_iff.mpr ⟨hwatched, rfl⟩, rfl⟩

/-- The start comes through exactly if nothing fails. -/
theorem exists_startUp_iff (hnul : ∀ home ∈ account.getHomeDir, nul ∉ home)
    (hobeys : k.Obeys account s) :
    (∃ d s', startUp account zone k s = .ok (d, s')) ↔ k.Grants := by
  constructor
  · rintro ⟨d, s', h⟩
    obtain ⟨⟨hsignal, hmasked, htimer⟩, ⟨ais, hais, tried, ai, rest, rfl, -, hai⟩,
      ⟨hepoll, hwatched⟩, -⟩ := (startUp_ok_iff hnul hobeys).mp h
    exact ⟨by simp [hsignal], hmasked, by simp [htimer],
      ⟨_, hais, ai, List.mem_append_right _ List.mem_cons_self, _, hai⟩, by simp [hepoll], hwatched⟩
  · rintro ⟨hsignal, hmasked, htimer, ⟨ais, hais, ai, hmem, fd, hai⟩, hepoll, hwatched⟩
    obtain ⟨signalFd, hsignal⟩ := Option.ne_none_iff_exists'.mp hsignal
    obtain ⟨timerFd, htimer⟩ := Option.ne_none_iff_exists'.mp htimer
    obtain ⟨epollFd, hepoll⟩ := Option.ne_none_iff_exists'.mp hepoll
    rcases exists_firstConnected ais with hnone | ⟨servFd, hserv⟩
    · exact absurd hai (hnone ai hmem fd)
    · exact ⟨⟨signalFd, timerFd, servFd, epollFd⟩, _, (startUp_ok_iff hnul hobeys).mpr
        ⟨⟨hsignal, hmasked, htimer⟩, ⟨ais, hais, hserv⟩, ⟨hepoll, hwatched⟩, rfl⟩⟩

theorem unused_create : (s.create fd).Unused fd' ↔ fd ≠ fd' ∧ s.Unused fd' := List.forall_mem_cons

theorem startUp_started (hnul : ∀ home ∈ account.getHomeDir, nul ∉ home)
    (hobeys : k.Obeys account s₀) (h : startUp account zone k s₀ = .ok (d, s₁)) :
    Started k s₀ s₁ d := by
  obtain ⟨⟨hsignal, -, htimer⟩, ⟨ais, hais, hfirst⟩, ⟨hepoll, -⟩, rfl⟩ :=
    (startUp_ok_iff hnul hobeys).mp h
  obtain ⟨tried, ai, rest, rfl, -, hsocket, -⟩ := id hfirst
  have hsignalFd := hobeys.signalfd _ hsignal
  have htimerFd := hobeys.timerfd _ hsignal _ htimer
  have hservFd := hobeys.socket _ hsignal _ htimer _ hais ai
    (List.mem_append_right _ List.mem_cons_self) _ hsocket
  have hepollFd := hobeys.epoll _ hsignal _ htimer _ hais _ hfirst _ hepoll
  simp only [unused_create] at htimerFd hservFd hepollFd
  refine ⟨hsignal, htimer, hepoll, ⟨_, hais, hfirst⟩, rfl, rfl, rfl, ?_, ?_⟩
  · unfold Descriptors.all
    simp [hepollFd.1.symm, hepollFd.2.1.symm, hepollFd.2.2.1.symm, hservFd.1.symm,
      hservFd.2.1.symm, htimerFd.1.symm]
  · unfold Descriptors.all
    simp only [List.forall_mem_cons]
    exact ⟨hepollFd.2.2.2, hservFd.2.2, htimerFd.2, hsignalFd, fun _ h => nomatch h⟩

end Start

/-- Every call of `deinit` succeeds. -/
structure CloseAnswers.Grants (k : CloseAnswers) : Prop where
  unmapped : k.unmapped = true
  serv : k.serv = true
  signal : k.signal = true
  timer : k.timer = true
  epoll : k.epoll = true

section Stop
variable {account : Account} {zone : Int} {s s' s₀ s₁ : Storage} {d : Descriptors}
  {ops : List FileOp} {leaked : List (Nat × Bytes)}

theorem sysClose_all : ((((s.free.sysClose d.servFd).sysClose d.signalFd).sysClose
    d.timerFd).sysClose d.epollFd) =
      { s with fds := s.fds.filter (·.1 ∉ d.all), live := s.live - 1 } := by
  unfold Storage.sysClose Storage.free
  dsimp only
  rw [List.filter_filter, List.filter_filter, List.filter_filter]
  refine congrArg (Storage.mk s.tree · (s.live - 1)) (List.filter_congr fun e _ => ?_)
  rw [← Bool.decide_and, ← Bool.decide_and, ← Bool.decide_and]
  refine decide_eq_decide.mpr ?_
  simp only [Descriptors.all, List.mem_cons, List.not_mem_nil, or_false, not_or]
  tauto

/-- `deinit` closes the four descriptors, which are open until then. -/
theorem deinit_ok_iff {k : CloseAnswers} (hdistinct : d.all.Nodup) (hopen : ∀ fd ∈ d.all, s.Open fd) :
    deinit k d s = .ok s' ↔ k.Grants ∧
      s' = { s with fds := s.fds.filter (·.1 ∉ d.all), live := s.live - 1 } := by
  unfold Descriptors.all at hopen
  simp only [List.forall_mem_cons] at hopen
  obtain ⟨hepoll, hserv, htimer, hsignal, -⟩ := hopen
  have hne := hdistinct
  simp only [Descriptors.all, List.nodup_cons, List.mem_cons, List.not_mem_nil, or_false, not_or] at hne
  obtain ⟨⟨hes, het, heg⟩, ⟨hst, hsg⟩, htg, -⟩ := hne
  have hsignal : (s.free.sysClose d.servFd).Open d.signalFd :=
    open_sysClose.mpr ⟨hsignal, Ne.symm hsg⟩
  have htimer : ((s.free.sysClose d.servFd).sysClose d.signalFd).Open d.timerFd :=
    open_sysClose.mpr ⟨open_sysClose.mpr ⟨htimer, Ne.symm hst⟩, htg⟩
  have hepoll : (((s.free.sysClose d.servFd).sysClose d.signalFd).sysClose d.timerFd).Open
      d.epollFd :=
    open_sysClose.mpr ⟨open_sysClose.mpr ⟨open_sysClose.mpr ⟨hepoll, hes⟩, heg⟩, het⟩
  unfold deinit
  simp only [bind_ok_iff, granted_ok_iff, closeOrExit_ok_iff]
  rw [← sysClose_all]
  constructor
  · rintro ⟨-, hunmapped, s₁, ⟨⟨hserv, -⟩, rfl⟩, s₂, ⟨⟨hsignal, -⟩, rfl⟩, s₃, ⟨⟨htimer, -⟩, rfl⟩,
      ⟨hepoll, -⟩, rfl⟩
    exact ⟨⟨hunmapped, hserv, hsignal, htimer, hepoll⟩, rfl⟩
  · rintro ⟨⟨hunmapped, hserv', hsignal', htimer', hepoll'⟩, rfl⟩
    exact ⟨(), hunmapped, _, ⟨⟨hserv', hserv⟩, rfl⟩, _, ⟨⟨hsignal', hsignal⟩, rfl⟩, _,
      ⟨⟨htimer', htimer⟩, rfl⟩, ⟨hepoll', hepoll⟩, rfl⟩

/-- The table of a process that has started, without the four descriptors. -/
theorem Started.filter {k : StartAnswers} (hs : Started k s₀ s₁ d) (hl : Leaked s₁ ops s leaked) :
    s.fds.filter (·.1 ∉ d.all) = leaked ++ s₀.fds := by
  have hown : (d.all.map fun fd => (fd, ([] : Bytes))).filter (·.1 ∉ d.all) = [] := by
    refine List.filter_eq_nil_iff.mpr fun e he => ?_
    obtain ⟨fd, hfd, rfl⟩ := List.mem_map.mp he
    simpa using hfd
  have hleaked : leaked.filter (·.1 ∉ d.all) = leaked := by
    refine List.filter_eq_self.mpr fun e he => decide_eq_true fun hmem => ?_
    refine hl.unused e he (e.1, []) ?_ rfl
    rw [hs.fds]
    exact List.mem_append_left _ (List.mem_map.mpr ⟨_, hmem, rfl⟩)
  have hold : s₀.fds.filter (·.1 ∉ d.all) = s₀.fds := by
    refine List.filter_eq_self.mpr fun e he => decide_eq_true fun hmem => ?_
    exact hs.unused _ hmem e he rfl
  rw [hl.fds, hs.fds, List.filter_append, List.filter_append, hown, hleaked, hold, List.nil_append]

end Stop

end Botniklas
