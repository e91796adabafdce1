import Botniklas.Foundation.Heap
import Botniklas.Happenings

/-! The arrays behind the reminders: allocated when one is accepted or restored, pointed to by
its event, read and freed by its handler. -/
namespace Botniklas
open Foundation

/-- A call of `emalloc`: the address, and what stands in the memory there. -/
structure Emalloc where
  address : Nat
  contents : Nat → UInt8

/-- The array that `handle_remind` makes. -/
def packReminder (contents : Nat → UInt8) (rep cur : Bytes) : Block :=
  let targetLen := rep.length + 1
  let reminderLen := cur.length + 1
  let reminderData : Mem (.flat (targetLen + reminderLen)) := ⟨contents⟩
  ⟨targetLen + reminderLen,
    (reminderData.storeAll 0 (rep ++ [nul])).storeAll targetLen (cur ++ [nul])⟩

/-- That of `restore_remind_state`, which copies both strings at once. -/
def copyReminder (contents : Nat → UInt8) (packed : Bytes) : Block :=
  let reminderData : Mem (.flat packed.length) := ⟨contents⟩
  ⟨packed.length, reminderData.storeAll 0 packed⟩

/-- The event list with the pointers in its nodes, none for NULL; `said` are the targets and
texts that `remind` has announced. -/
structure ReminderArrays where
  queue : EventList Handler (Option Nat)
  heap : Heap
  said : List (Bytes × Bytes)

namespace ReminderArrays

def add (s : ReminderArrays) (p : Nat) (b : Block) (when : Int) : ReminderArrays :=
  { s with heap := s.heap.alloc p b, queue := s.queue.addTimeEvent ⟨when, .remind, some p⟩ }

def acceptReminder (s : ReminderArrays) (new : Emalloc) (r : Reminder) : ReminderArrays :=
  s.add new.address (packReminder new.contents r.target r.text) r.when

def restoreReminder (s : ReminderArrays) (new : Emalloc) (r : Registration Handler Bytes) :
    ReminderArrays := s.add new.address (copyReminder new.contents r.data) r.when

/-- None for a read outside of an array or a pointer to none, here and below. -/
def remind (s : ReminderArrays) (data : Option Nat) : Option ReminderArrays := do
  let targetAndReminder ← data
  let b ← s.heap.lookup targetAndReminder
  let target ← b.cstr 0
  let reminder := (← b.strlen 0) + 1
  let text ← b.cstr reminder
  let heap ← s.heap.free targetAndReminder
  return { s with heap, said := s.said ++ [(target, text)] }

/-- What one round of the leet monitor registers, with NULL for the data. -/
def leetRound (zone now : Int) : List (Registration Handler (Option Nat)) :=
  (Botniklas.leetRound zone now).map fun r => ⟨r.when, r.handler, none⟩

def callHandler (zone now : Int) (s : ReminderArrays) (handler : Handler) (data : Option Nat) :
    Option ReminderArrays :=
  match handler with
  | .remind => s.remind data
  | .at1337 => some s
  | .at1338 => some { s with queue := s.queue.addAll (leetRound zone now) }

def handleTimeEvent (zone now : Int) (s : ReminderArrays) : Option ReminderArrays :=
  match s.queue.start with
  | [] => none
  | event :: _ => do
    let s ← s.callHandler zone now event.handler event.data
    let queue ← s.queue.dropStart
    return { s with queue }

end ReminderArrays

/-- What the restored state starts with, wherever `emalloc` puts the arrays. -/
inductive RestoresArrays (env : Env) (bot : Bot) : ReminderArrays → Prop where
  | intro (news : List (Emalloc × Registration Handler Bytes)) :
      news.map Prod.snd = restoredEvents env bot →
      (news.map fun new => new.1.address).Nodup →
      RestoresArrays env bot (news.foldl (fun s new => s.restoreReminder new.1 new.2)
        ⟨EventList.empty.addAll (ReminderArrays.leetRound env.zone (env.clock.now bot.instant)),
          .empty, []⟩)

/-- The arrays after all that has happened to `bot₀`. -/
inductive InArrays (env : Env) (opts : Options) (bot₀ : Bot) (s₀ : ReminderArrays) :
    List Happening → Bot → ReminderArrays → Prop where
  | init : InArrays env opts bot₀ s₀ [] bot₀ s₀
  | line {hs : List Happening} {bot bot' : Bot} {s : ReminderArrays} {w : Bytes}
      {r : Option Reminder} (new : Emalloc) : InArrays env opts bot₀ s₀ hs bot s →
      processLine env opts w bot = .ok bot' →
      bot'.queue = bot.queue.addAll (r.toList.map Reminder.registration) →
      new.address ∉ s.heap.blocks →
      InArrays env opts bot₀ s₀ (hs ++ [.line w]) bot' (r.elim s (s.acceptReminder new))
  | timer {hs : List Happening} {bot bot' : Bot} {s s' : ReminderArrays}
      {event : TimeEvent Handler Bytes} : InArrays env opts bot₀ s₀ hs bot s →
      bot.queue.start.head? = some event → event.when ≤ env.clock.now bot.instant →
      handleTimeEvent Bot.queueIn (callHandler env) bot = some bot' →
      s.handleTimeEvent env.zone (env.clock.now bot.instant) = some s' →
      InArrays env opts bot₀ s₀ (hs ++ [.timer event]) bot' s'
  | wait {hs : List Happening} {bot : Bot} {s : ReminderArrays} :
      InArrays env opts bot₀ s₀ hs bot s →
      InArrays env opts bot₀ s₀ (hs ++ [.wait]) { bot with instant := bot.instant + 1 } s
  | signal {hs : List Happening} {bot : Bot} {s : ReminderArrays} :
      InArrays env opts bot₀ s₀ hs bot s → .signal ∉ hs →
      InArrays env opts bot₀ s₀ (hs ++ [.signal])
        (bot.write .quit (.writeMsg (ascii "QUIT :" ++ opts.quitMessage))) s

/-! Event lists that differ in the data alone. -/

def TimeEvent.withData {η δ δ' : Type} (event : TimeEvent η δ) (data : δ') : TimeEvent η δ' :=
  ⟨event.id, event.when, event.handler, data⟩

namespace EventList
variable {η δ δ' : Type} {q : EventList η δ} {d d' : TimeEvent η δ → δ'}

def withData (q : EventList η δ) (d : TimeEvent η δ → δ') : EventList η δ' :=
  ⟨q.start.map fun event => event.withData (d event), q.fresh, q.timer⟩

theorem withData_congr (h : ∀ event ∈ q.start, d event = d' event) :
    q.withData d = q.withData d' := by
  unfold withData
  congr 1
  apply List.map_congr_left
  intro event hevent
  rw [h event hevent]

theorem withData_addTimeEvent (r : Registration η δ) :
    (q.withData d).addTimeEvent ⟨r.when, r.handler, d (q.node r)⟩ =
      (q.addTimeEvent r).withData d := by
  have hkeys : ∀ event : TimeEvent η δ, (event.withData (d event)).when = event.when := fun _ => rfl
  have hstart : insertAfter TimeEvent.when ((q.withData d).node ⟨r.when, r.handler, d (q.node r)⟩)
      (q.withData d).start =
        (insertAfter TimeEvent.when (q.node r) q.start).map fun event => event.withData (d event) :=
    (map_insertAfter hkeys (q.node r) q.start).symm
  unfold addTimeEvent
  dsimp only
  rw [hstart, List.head?_map, Option.map_map]
  change (if ((insertAfter TimeEvent.when (q.node r) q.start).head?.map TimeEvent.id) =
    some (q.node r).id then _ else _) = withData (if _ then _ else _) d
  split_ifs
  · rfl
  · rfl

theorem withData_dropStart {q' : EventList η δ} (h : q.dropStart = some q') :
    (q.withData d).dropStart = some (q'.withData d) := by
  unfold dropStart at h ⊢
  unfold withData
  cases hs : q.start with
  | nil =>
    rw [hs] at h
    cases h
  | cons event rest =>
    rw [hs] at h
    cases rest with
    | nil =>
      cases h
      rfl
    | cons next rest =>
      cases h
      rfl

end EventList

/-- The pointer of an event: for a reminder to an array with its data, which are two strings at
least. -/
def Points (heap : Heap) (ptr : Option Nat) (event : TimeEvent Handler Bytes) : Prop :=
  match event.handler with
  | .remind => ∃ p b, ptr = some p ∧ heap.lookup p = some b ∧ b.Holds event.data ∧
      2 ≤ event.data.count nul
  | _ => ptr = none

/-- The arrays allocated are those of the reminders pending, each with one of its own. -/
structure Backs (s : ReminderArrays) (q : EventList Handler Bytes) (ptr : Nat → Option Nat) :
    Prop where
  queue : s.queue = q.withData fun event => ptr event.id
  points : ∀ event ∈ q.start, Points s.heap (ptr event.id) event
  owns : s.heap.Owns (q.start.filterMap fun event => ptr event.id)

section Backs
variable {heap heap' : Heap} {s : ReminderArrays} {q q' : EventList Handler Bytes}
  {ptr : Nat → Option Nat} {event : TimeEvent Handler Bytes} {rest : List (TimeEvent Handler Bytes)}
  {r : Registration Handler Bytes} {p : Nat} {b : Block} {data : Bytes}

theorem Points.frame {ptr : Option Nat} (h : Points heap ptr event)
    (hsame : ∀ p ∈ ptr, heap'.lookup p = heap.lookup p) : Points heap' ptr event := by
  unfold Points at h ⊢
  split at h
  · obtain ⟨p, b, rfl, hlookup, hholds⟩ := h
    exact ⟨p, b, rfl, (hsame p rfl).trans hlookup, hholds⟩
  · exact h

theorem Backs.addTimeEvent {new : Option Nat} (h : Backs s q ptr) (hg : q.Good)
    (hpoints : Points heap new (q.node r))
    (howns : heap.Owns (new.toList ++ q.start.filterMap fun event => ptr event.id))
    (hsame : ∀ p ∈ q.start.filterMap fun event => ptr event.id,
      heap.lookup p = s.heap.lookup p) :
    Backs { s with heap, queue := s.queue.addTimeEvent ⟨r.when, r.handler, new⟩ }
      (q.addTimeEvent r) (Function.update ptr q.fresh new) := by
  have hold : ∀ event ∈ q.start, ptr event.id = Function.update ptr q.fresh new event.id :=
    fun event hevent => (Function.update_of_ne (hg.fresh event hevent).ne _ _).symm
  have hnew : Function.update ptr q.fresh new (q.node r).id = new := Function.update_self _ _ _
  refine ⟨?_, fun event hevent => ?_, ?_⟩
  · have hadd := EventList.withData_addTimeEvent (q := q)
      (d := fun event => Function.update ptr q.fresh new event.id) r
    rw [hnew, ← EventList.withData_congr hold, ← h.queue] at hadd
    exact hadd
  · rw [EventList.addTimeEvent_start, mem_insertAfter] at hevent
    rcases hevent with rfl | hevent
    · rw [hnew]
      exact hpoints
    · rw [← hold event hevent]
      exact (h.points event hevent).frame fun p hp => hsame p (List.mem_filterMap.mpr ⟨event, hevent, hp⟩)
  · apply howns.perm
    rw [EventList.addTimeEvent_start]
    have hcons : (q.node r :: q.start).filterMap
        (fun event => Function.update ptr q.fresh new event.id) =
          new.toList ++ q.start.filterMap fun event => ptr event.id := by
      rw [List.filterMap_congr fun event hevent => hold event hevent, List.filterMap_cons, hnew]
      cases new <;> rfl
    rw [← hcons]
    exact (insertAfter_perm.filterMap _).symm

/-- A reminder is added with a new array. -/
theorem Backs.add (h : Backs s q ptr) (hg : q.Good) (hr : r.handler = .remind)
    (hfresh : p ∉ s.heap.blocks) (hb : b.Holds r.data) (hcount : 2 ≤ r.data.count nul) :
    Backs (s.add p b r.when) (q.addTimeEvent r) (Function.update ptr q.fresh (some p)) := by
  have hadd : Backs { s with
      heap := s.heap.alloc p b
      queue := s.queue.addTimeEvent ⟨r.when, r.handler, some p⟩ } (q.addTimeEvent r)
        (Function.update ptr q.fresh (some p)) := by
    apply h.addTimeEvent hg
    · unfold Points
      rw [show (q.node r).handler = .remind from hr]
      exact ⟨p, b, rfl, Heap.lookup_alloc, hb, hcount⟩
    · exact h.owns.alloc hfresh
    · intro p' hp'
      apply Heap.lookup_alloc_of_ne
      rintro rfl
      exact hfresh ((h.owns.allocated _).mpr hp')
  rw [hr] at hadd
  exact hadd

/-- Other events carry NULL. -/
theorem Backs.addNulls {rs : List (Registration Handler Bytes)} (h : Backs s q ptr) (hg : q.Good)
    (hrs : ∀ r ∈ rs, r.handler ≠ .remind) :
    ∃ ptr', Backs { s with queue := s.queue.addAll (rs.map fun r => ⟨r.when, r.handler, none⟩) }
      (q.addAll rs) ptr' := by
  induction rs generalizing s q ptr with
  | nil => exact ⟨ptr, h⟩
  | cons r rs ih =>
    rw [List.forall_mem_cons] at hrs
    have hadd : Backs { s with queue := s.queue.addTimeEvent ⟨r.when, r.handler, none⟩ }
        (q.addTimeEvent r) (Function.update ptr q.fresh none) := by
      apply h.addTimeEvent hg
      · unfold Points
        split
        · rename_i hremind
          exact absurd hremind hrs.1
        · rfl
      · exact h.owns
      · exact fun _ _ => rfl
    exact ih hadd (hg.addTimeEvent r) hrs.2

theorem two_strings (h : 2 ≤ data.count nul) :
    ∃ t u v, data = t ++ nul :: (u ++ nul :: v) ∧ nul ∉ t ∧ nul ∉ u := by
  rcases cut_cases nul data with hnot | ⟨t, d, rfl, ht⟩
  · rw [List.count_eq_zero_of_not_mem hnot] at h
    omega
  · rw [List.count_append, List.count_eq_zero_of_not_mem ht, List.count_cons_self] at h
    rcases cut_cases nul d with hnot | ⟨u, v, rfl, hu⟩
    · rw [List.count_eq_zero_of_not_mem hnot] at h
      omega
    · exact ⟨t, u, v, rfl, ht, hu⟩

/-- The handler of a reminder stays inside its array and frees it. -/
theorem Backs.remind (h : Backs s q ptr) (hs : q.start = event :: rest)
    (hr : event.handler = .remind) :
    ∃ heap, s.remind (ptr event.id) =
        some { s with heap, said := s.said ++ [(target event.data, reminder event.data)] } ∧
      (∀ event ∈ rest, Points heap (ptr event.id) event) ∧
      heap.Owns (rest.filterMap fun event => ptr event.id) := by
  have hpoints := h.points
  have howns := h.owns
  rw [hs, List.forall_mem_cons] at hpoints
  obtain ⟨hhead, hrest⟩ := hpoints
  unfold Points at hhead
  rw [hr] at hhead
  obtain ⟨p, b, hp, hlookup, hholds, hcount⟩ := hhead
  rw [hs, List.filterMap_cons, hp] at howns
  obtain ⟨heap, hfree, howns', hsame⟩ := howns.free
  obtain ⟨t, u, v, hdata, ht, hu⟩ := two_strings hcount
  rw [hdata] at hholds
  obtain ⟨hlen, htarget⟩ := Block.Holds.string (u := []) hholds ht
  have hsecond : b.Holds ((t ++ [nul]) ++ (u ++ 0 :: v)) := by
    rw [List.append_assoc]
    exact hholds
  obtain ⟨-, htext⟩ := hsecond.string hu
  rw [List.length_append] at htext
  have hafter : after nul event.data = nul :: (u ++ nul :: v) := by
    rw [hdata]
    exact after_append_cons ht
  have hfirst : target event.data = t := by
    unfold target
    rw [hdata]
    exact before_append_cons ht
  have hother : reminder event.data = u := by
    unfold reminder
    rw [hafter]
    exact before_append_cons hu
  refine ⟨heap, ?_, fun event hevent => ?_, howns'⟩
  · unfold ReminderArrays.remind
    rw [hp, hfirst, hother]
    dsimp only [List.length_nil, List.length_singleton] at hlen htarget htext
    simp only [bind, Option.bind, hlookup, htarget, hlen, htext, hfree]
    rfl
  · exact (hrest event hevent).frame fun p hp => hsame p (List.mem_filterMap.mpr ⟨event, hevent, hp⟩)

/-- The head goes with its array, if it has one. -/
theorem Backs.dropStart (hs : q.start = event :: rest)
    (hqueue : s.queue = q.withData fun event => ptr event.id)
    (hpoints : ∀ event ∈ rest, Points s.heap (ptr event.id) event)
    (howns : s.heap.Owns (rest.filterMap fun event => ptr event.id))
    (hq : q.dropStart = some q') :
    ∃ queue, s.queue.dropStart = some queue ∧ Backs { s with queue } q' ptr := by
  obtain ⟨hrest, -⟩ := EventList.dropStart_timer hs hq
  rw [hqueue]
  refine ⟨_, EventList.withData_dropStart hq, rfl, ?_, ?_⟩
  · rw [hrest]
    exact hpoints
  · rw [hrest]
    exact howns

/-- What stands behind the head is stored without it, if the head carries NULL. -/
theorem Backs.dropNull (h : Backs s q ptr) (hs : q.start = event :: rest)
    (hnull : ptr event.id = none) (hq : q.dropStart = some q') :
    ∃ queue, s.queue.dropStart = some queue ∧ Backs { s with queue } q' ptr := by
  have hpoints := h.points
  have howns := h.owns
  rw [hs, List.forall_mem_cons] at hpoints
  rw [hs, List.filterMap_cons, hnull] at howns
  exact Backs.dropStart hs h.queue hpoints.2 howns hq

theorem leetRound_handlers (zone now : Int) : ∀ r ∈ leetRound zone now, r.handler ≠ .remind := by
  intro r hr
  simp only [leetRound, List.mem_cons, List.not_mem_nil, or_false] at hr
  rcases hr with rfl | rfl
  · exact Handler.noConfusion
  · exact Handler.noConfusion

end Backs

section Runs
variable {env : Env} {opts : Options} {bot bot' bot₀ : Bot} {s s₀ : ReminderArrays}
  {ptr : Nat → Option Nat} {event : TimeEvent Handler Bytes} {hs : List Happening}

/-- What the head announces, as it is read from its array. -/
def TimeEvent.says (event : TimeEvent Handler Bytes) : List (Bytes × Bytes) :=
  event.registration.announces.toList.map fun r => (r.target, r.text)

theorem Backs.handleTimeEvent (h : Backs s bot.queue ptr) (hg : bot.queue.Good)
    (hhead : bot.queue.start.head? = some event) (hdue : event.when ≤ env.clock.now bot.instant)
    (hrun : handleTimeEvent Bot.queueIn (callHandler env) bot = some bot') :
    ∃ s' ptr', s.handleTimeEvent env.zone (env.clock.now bot.instant) = some s' ∧
      Backs s' bot'.queue ptr' ∧ s'.said = s.said ++ event.says := by
  obtain ⟨rest, hs⟩ := List.head?_eq_some_iff.mp hhead
  obtain ⟨q', hcall, -, hdrop, -⟩ := handleTimeEvent_due hg hs hdue
  obtain rfl := Option.some.inj (hcall.symm.trans hrun)
  have hpoints := h.points event (hs ▸ List.mem_cons_self)
  have hstart : s.queue.start = event.withData (ptr event.id) ::
      rest.map fun event => event.withData (ptr event.id) := by
    rw [h.queue]
    unfold EventList.withData
    rw [hs]
    rfl
  unfold ReminderArrays.handleTimeEvent
  rw [hstart]
  obtain ⟨id, when, handler, data⟩ := event
  cases handler with
  | remind =>
    obtain ⟨heap, hremind, hrest, howns⟩ := h.remind hs rfl
    obtain ⟨queue, hqueue, hbacks⟩ := Backs.dropStart
      (s := { s with heap, said := s.said ++ [(target data, reminder data)] }) hs h.queue hrest
      howns hdrop
    refine ⟨_, ptr, ?_, hbacks, rfl⟩
    change (s.remind (ptr id) >>= _) = _
    rw [hremind]
    change (s.queue.dropStart >>= _) = _
    rw [hqueue]
    rfl
  | at1337 =>
    obtain ⟨queue, hqueue, hbacks⟩ := h.dropNull hs hpoints hdrop
    refine ⟨_, ptr, ?_, hbacks, (List.append_nil _).symm⟩
    change (s.queue.dropStart >>= _) = _
    rw [hqueue]
    rfl
  | at1338 =>
    obtain ⟨ptr', hadded⟩ := h.addNulls hg
      (leetRound_handlers env.zone (env.clock.now bot.instant))
    obtain ⟨rest', hs', -, -⟩ := hg.addAll_of_le hs fun r (hr : r ∈ registers env .at1338 data bot) =>
      (hdue.trans_lt (lt_registers hr)).le
    have hnull := hadded.points _ (hs' ▸ List.mem_cons_self)
    obtain ⟨queue, hqueue, hbacks⟩ := hadded.dropNull hs' hnull hdrop
    have hround : (s.queue.addAll (ReminderArrays.leetRound env.zone
        (env.clock.now bot.instant))).dropStart = some queue := hqueue
    refine ⟨_, ptr', ?_, hbacks, (List.append_nil _).symm⟩
    change ((s.queue.addAll _).dropStart >>= _) = _
    rw [hround]
    rfl

theorem count_reminderData (rep cur : Bytes) : 2 ≤ (reminderData rep cur).count nul := by
  unfold reminderData
  rw [List.count_append, List.count_append, List.count_append, List.count_singleton_self]
  omega

theorem packReminder_holds (contents : Nat → UInt8) (rep cur : Bytes) :
    (packReminder contents rep cur).Holds (reminderData rep cur) := by
  apply Block.holds_storeAll_storeAll
  · rw [List.length_append, List.length_append]
    rfl
  · rw [List.length_append]
    rfl

theorem Backs.acceptReminder {q : EventList Handler Bytes} (h : Backs s q ptr) (hg : q.Good)
    {new : Emalloc} (hfresh : new.address ∉ s.heap.blocks) (r : Reminder) :
    ∃ ptr', Backs (s.acceptReminder new r) (q.addTimeEvent r.registration) ptr' :=
  ⟨_, h.add (r := r.registration) hg rfl hfresh (packReminder_holds _ _ _) (count_reminderData _ _)⟩

theorem mem_restoredEvents {r : Registration Handler Bytes} (h : r ∈ restoredEvents env bot) :
    ∃ reminder : Reminder, reminder.registration = r := by
  unfold restoredEvents at h
  split at h
  · cases h
  · obtain ⟨reminder, -, hr⟩ := List.mem_map.mp h
    exact ⟨reminder, hr⟩

/-- The arrays of the reminders restored, at addresses of their own. -/
theorem Backs.restoreAll {q : EventList Handler Bytes}
    {news : List (Emalloc × Registration Handler Bytes)} (h : Backs s q ptr) (hg : q.Good)
    (hnews : ∀ new ∈ news, ∃ reminder : Reminder, reminder.registration = new.2)
    (hnodup : (news.map fun new => new.1.address).Nodup)
    (hfresh : ∀ new ∈ news, new.1.address ∉ s.heap.blocks) :
    ∃ ptr', Backs (news.foldl (fun s new => s.restoreReminder new.1 new.2) s)
      (q.addAll (news.map Prod.snd)) ptr' ∧
      (news.foldl (fun s new => s.restoreReminder new.1 new.2) s).said = s.said := by
  induction news generalizing s q ptr with
  | nil => exact ⟨ptr, h, rfl⟩
  | cons new news ih =>
    rw [List.forall_mem_cons] at hnews hfresh
    rw [List.map_cons, List.nodup_cons] at hnodup
    obtain ⟨⟨reminder, hr⟩, hnews⟩ := hnews
    have hadd := h.add (r := new.2) hg (hr ▸ rfl) hfresh.1 (Block.holds_storeAll ⟨new.1.contents⟩)
      (hr ▸ count_reminderData _ _)
    refine ih hadd (hg.addTimeEvent _) hnews hnodup.2 fun new' hnew' => ?_
    change new'.1.address ∉ (s.heap.alloc new.1.address _).blocks
    unfold Heap.alloc
    rw [AList.mem_insert, not_or]
    refine ⟨fun he => hnodup.1 ?_, hfresh.2 new' hnew'⟩
    rw [← he]
    exact List.mem_map_of_mem hnew'

theorem RestoresArrays.backs {outcome : Restored} {bot₁ : Bot} (hqueue : bot.queue = .empty)
    (hrestore : restoreState env bot = .ok (outcome, bot₁)) (h : RestoresArrays env bot s₀) :
    (∃ ptr, Backs s₀ bot₁.queue ptr) ∧ s₀.said = [] := by
  obtain ⟨outcome', he⟩ := restoreState_eq env bot
  rw [hqueue] at he
  cases he.symm.trans hrestore
  have hempty : Backs ⟨.empty, .empty, []⟩ .empty fun _ => none :=
    ⟨rfl, nofun, Heap.empty_owns⟩
  obtain ⟨ptr, hround⟩ := hempty.addNulls EventList.empty_good
    (leetRound_handlers env.zone (env.clock.now bot.instant))
  cases h with
  | intro news hnews hnodup =>
    have hmade : ∀ new ∈ news, ∃ reminder : Reminder, reminder.registration = new.2 := fun new hnew =>
      mem_restoredEvents (hnews ▸ List.mem_map_of_mem hnew)
    obtain ⟨ptr', hbacks, hsaid⟩ := hround.restoreAll (EventList.empty_good.addAll _) hmade hnodup
      fun new _ => AList.notMem_empty _
    rw [hnews] at hbacks
    exact ⟨⟨ptr', hbacks⟩, hsaid⟩

/-- After whatever has happened, the arrays are those of the pending reminders, and what has
been said is what has been called. -/
theorem InArrays.backs (hg : bot₀.queue.Good) (h₀ : ∃ ptr, Backs s₀ bot₀.queue ptr)
    (h : InArrays env opts bot₀ s₀ hs bot s) :
    bot.queue.Good ∧ (∃ ptr, Backs s bot.queue ptr) ∧
      s.said = s₀.said ++ (hs.filterMap Happening.called).flatMap TimeEvent.says := by
  induction h with
  | init => exact ⟨hg, h₀, (List.append_nil _).symm⟩
  | @line hs bot bot' s w r new _ _ hqueue hfresh ih =>
    obtain ⟨hgood, ⟨ptr, hbacks⟩, hsaid⟩ := ih
    rw [List.filterMap_append, List.filterMap_cons_none rfl, List.filterMap_nil, List.append_nil]
    refine ⟨hqueue ▸ hgood.addAll _, ?_, ?_⟩
    · rw [hqueue]
      cases r with
      | none => exact ⟨ptr, hbacks⟩
      | some r => exact hbacks.acceptReminder hgood hfresh r
    · cases r with
      | none => exact hsaid
      | some r => exact hsaid
  | @timer hs bot bot' s s' event _ hhead hdue hrun hcall ih =>
    obtain ⟨hgood, ⟨ptr, hbacks⟩, hsaid⟩ := ih
    obtain ⟨s₁, ptr', hcall', hbacks', hsaid'⟩ := hbacks.handleTimeEvent hgood hhead hdue hrun
    obtain rfl := Option.some.inj (hcall.symm.trans hcall')
    refine ⟨(handleTimeEvent_handles hgood hhead hdue hrun).good, ⟨ptr', hbacks'⟩, ?_⟩
    rw [hsaid', hsaid, List.filterMap_append, List.flatMap_append, List.append_assoc]
    congr 2
    exact (List.append_nil _).symm
  | wait _ ih | signal _ _ ih =>
    rw [List.filterMap_append, List.filterMap_cons_none rfl, List.filterMap_nil, List.append_nil]
    exact ih

/-- Nothing that happens to the bot is impossible with the arrays. -/
theorem Happens.inArrays (hg : bot₀.queue.Good) (h₀ : ∃ ptr, Backs s₀ bot₀.queue ptr)
    (h : Happens env opts bot₀ hs bot) : ∃ s, InArrays env opts bot₀ s₀ hs bot s := by
  induction h with
  | init => exact ⟨s₀, .init⟩
  | line _ hline ih =>
    obtain ⟨s, hs⟩ := ih
    obtain ⟨r, haccepts⟩ := processLine_accepts hline
    obtain ⟨p, hfresh⟩ := s.heap.exists_fresh
    exact ⟨_, hs.line ⟨p, fun _ => 0⟩ hline haccepts.queue hfresh⟩
  | timer _ hhead hdue hrun ih =>
    obtain ⟨s, hs⟩ := ih
    obtain ⟨hgood, ⟨ptr, hbacks⟩, -⟩ := hs.backs hg h₀
    obtain ⟨s', ptr', hcall, -⟩ := hbacks.handleTimeEvent hgood hhead hdue hrun
    exact ⟨s', hs.timer hhead hdue hrun hcall⟩
  | wait _ ih =>
    obtain ⟨s, hs⟩ := ih
    exact ⟨s, hs.wait⟩
  | signal _ hfirst ih =>
    obtain ⟨s, hs⟩ := ih
    exact ⟨s, hs.signal hfirst⟩

end Runs

/-- Over every run of the main loop and wherever `emalloc` puts the arrays: no handler reads
outside of an array or uses one that has been freed; the arrays allocated are those of the
reminders pending, each with one of its own; and what is announced is what is read from them. -/
theorem reminder_arrays_refine {pageSize : Nat} {env : Env} {opts : Options} {bot₀ bot₁ : Bot}
    {outcome : Restored} {s₀ : ReminderArrays} {page : Mem (.mirror pageSize)} {l : Loop pageSize}
    (hqueue : bot₀.queue = .empty) (hrestore : restoreState env bot₀ = .ok (outcome, bot₁))
    (hs₀ : RestoresArrays env bot₀ s₀)
    (hrun : Relation.ReflTransGen (Loop.Step env opts)
      (.enter page (connectToIrcServer opts bot₁)) l) :
    ∃ hs, (∃ s, InArrays env opts (connectToIrcServer opts bot₁) s₀ hs l.bot s) ∧
      ∀ s, InArrays env opts (connectToIrcServer opts bot₁) s₀ hs l.bot s →
        (∃ ptr, Backs s l.bot.queue ptr) ∧
        s.said = (hs.filterMap Happening.called).flatMap TimeEvent.says ∧
        ∀ event ∈ l.bot.queue.start.head?, event.when ≤ env.clock.now l.bot.instant →
          s.handleTimeEvent env.zone (env.clock.now l.bot.instant) ≠ none := by
  have hg : (connectToIrcServer opts bot₁).queue.Good := (restoreState_pending hqueue hrestore).1
  obtain ⟨hstart, hsaid₀⟩ := hs₀.backs hqueue hrestore
  have hbacks₀ : ∃ ptr, Backs s₀ (connectToIrcServer opts bot₁).queue ptr := hstart
  have hi := @entered_inv pageSize env opts bot₀ bot₁ outcome page hqueue hrestore
  obtain ⟨got, hgot⟩ := Loop.exists_run hi hrun
  obtain ⟨hs, hrefines⟩ := hgot.refines hi
  refine ⟨hs, hrefines.happens.inArrays hg hbacks₀, fun s hin => ?_⟩
  obtain ⟨hgood, ⟨ptr, hbacks⟩, hsaid⟩ := hin.backs hg hbacks₀
  rw [hsaid₀, List.nil_append] at hsaid
  refine ⟨⟨ptr, hbacks⟩, hsaid, fun event hhead hdue => ?_⟩
  obtain ⟨rest, hs⟩ := List.head?_eq_some_iff.mp hhead
  obtain ⟨q', hcall, -⟩ := handleTimeEvent_due hgood hs hdue
  obtain ⟨s', ptr', hsome, -⟩ := hbacks.handleTimeEvent hgood hhead hdue hcall
  rw [hsome]
  exact Option.some_ne_none s'

/-- A reminder restored in its own second, with its array at address 7. -/
theorem tea_at_seven : ∃ outcome bot₁ s hs,
    restoreState (.still 5 (by decide)) { Bot.new with reminders := some (ascii "5 #c tea\n") } =
      .ok (outcome, bot₁) ∧
    InArrays (.still 5 (by decide)) .default (connectToIrcServer .default bot₁)
      (ReminderArrays.restoreReminder ⟨EventList.empty.addAll (ReminderArrays.leetRound 0 5), .empty, []⟩
        ⟨7, fun _ => 0⟩ ⟨5, .remind, reminderData (ascii "#c") (ascii "tea")⟩) hs
      (connectToIrcServer .default bot₁) s ∧
    s.handleTimeEvent 0 5 ≠ none := by
  obtain ⟨outcome, hrestore⟩ := restoreState_eq (.still 5 (by decide))
    { Bot.new with reminders := some (ascii "5 #c tea\n") }
  have hs₀ := @RestoresArrays.intro (.still 5 (by decide))
    { Bot.new with reminders := some (ascii "5 #c tea\n") }
    [(⟨7, fun _ => 0⟩, ⟨5, .remind, reminderData (ascii "#c") (ascii "tea")⟩)] (by decide) (by decide)
  obtain ⟨hs, ⟨s, hin⟩, hall⟩ := @reminder_arrays_refine 512 _ .default _ _ _ _ ⟨fun _ => 0⟩ _ rfl
    hrestore hs₀ .refl
  obtain ⟨-, -, hcalls⟩ := hall s hin
  exact ⟨outcome, _, s, hs, hrestore, hin, hcalls _ rfl (by decide)⟩

end Botniklas
