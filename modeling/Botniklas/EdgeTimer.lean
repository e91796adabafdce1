import Botniklas.Foundation.TimerFd
import Botniklas.Armed
import Botniklas.Happenings

/-! The timer as the kernel keeps it: `timer_fd` is watched for edges and never read. What the
main loop is told of it is what the loop of the model is told. -/
namespace Botniklas
open Foundation

/-- `arm_timer`, some times. -/
def Timer.setAll (t : Timer) (whens : List Int) : Timer :=
  whens.foldl (fun t when => ⟨when, t.settings + 1⟩) t

/-- What it was last set to. -/
def Timer.last (t : Timer) : Option Int := if t.settings = 0 then none else some t.deadline

section Timer
variable {t : Timer} {whens : List Int} {η δ : Type}

theorem Timer.setAll_append (t : Timer) (whens whens' : List Int) :
    t.setAll (whens ++ whens') = (t.setAll whens).setAll whens' := List.foldl_append

theorem Timer.settings_setAll : (t.setAll whens).settings = t.settings + whens.length := by
  induction whens generalizing t with
  | nil => rfl
  | cons when whens ih =>
    change (Timer.setAll ⟨when, t.settings + 1⟩ whens).settings = _
    rw [ih, List.length_cons]
    dsimp only
    omega

theorem Timer.last_setAll : (t.setAll whens).last = whens.getLast?.or t.last := by
  rcases List.eq_nil_or_concat' whens with rfl | ⟨whens, when, rfl⟩
  · rfl
  · rw [Timer.setAll_append, List.getLast?_concat]
    rfl

/-- Whatever is added, the timer is set some times, to times that are added. -/
theorem exists_setAll_addAll (q : EventList η δ) {rs : List (Registration η δ)}
    (h : ∀ r ∈ rs, 0 < r.when) :
    ∃ whens, (q.addAll rs).timer = q.timer.setAll whens ∧ ∀ when ∈ whens, 0 < when := by
  induction rs generalizing q with
  | nil => exact ⟨[], rfl, nofun⟩
  | cons r rs ih =>
    rw [List.forall_mem_cons] at h
    obtain ⟨whens, hwhens, hpos⟩ := ih (q.addTimeEvent r) h.2
    have hfirst : ∃ whens, (q.addTimeEvent r).timer = q.timer.setAll whens ∧
        ∀ when ∈ whens, 0 < when := by
      unfold EventList.addTimeEvent
      dsimp only
      split_ifs
      · exact ⟨[r.when], rfl, List.forall_mem_singleton.mpr h.1⟩
      · exact ⟨[], rfl, nofun⟩
    obtain ⟨whens', hwhens', hpos'⟩ := hfirst
    refine ⟨whens' ++ whens, hwhens.trans ?_, List.forall_mem_append.mpr ⟨hpos', hpos⟩⟩
    rw [hwhens', Timer.setAll_append]

theorem exists_setAll_dropStart {q q' : EventList η δ} (h : q.dropStart = some q')
    (hq : ∀ event ∈ q.start, 0 < event.when) :
    ∃ whens, q'.timer = q.timer.setAll whens ∧ ∀ when ∈ whens, 0 < when := by
  unfold EventList.dropStart at h
  split at h
  · cases h
  · rename_i rest hs
    split at h
    · cases h
      exact ⟨[], rfl, nofun⟩
    · rename_i event _
      cases h
      refine ⟨[event.when], rfl, List.forall_mem_singleton.mpr (hq event ?_)⟩
      rw [hs]
      exact List.mem_cons_of_mem _ List.mem_cons_self

end Timer

/-- A step of the loop and of the descriptor. -/
inductive WatchedStep {pageSize : Nat} (env : Env) (opts : Options) :
    TimerFd × Loop pageSize → TimerFd × Loop pageSize → Prop where
  | wait {fd : TimerFd} {l : Loop pageSize} :
      WatchedStep env opts (fd, l) (fd, { l with bot := { l.bot with instant := l.bot.instant + 1 } })
  | expire {fd : TimerFd} {l : Loop pageSize} {when : Int} : fd.deadline = some when →
      when ≤ env.clock.now l.bot.instant → WatchedStep env opts (fd, l) (fd.expire, l)
  /-- There is room in `events` for all sources. -/
  | epollWait {fd : TimerFd} {l : Loop pageSize} (events : List Source) : l.batch = [] →
      events ≠ [] → events.Nodup → (.timer ∈ events ↔ fd.reports = true) →
      WatchedStep env opts (fd, l) (fd.collect, { l with
        batch := events
        reported := if .timer ∈ events then l.timer.settings else l.reported })
  /-- `epoll_wait` finds nothing behind an edge and goes on waiting. -/
  | waitOn {fd : TimerFd} {l : Loop pageSize} : l.batch = [] → fd.reports = false →
      WatchedStep env opts (fd, l) (fd.collect, l)
  | handle {fd fd' : TimerFd} {l l' : Loop pageSize} {whens : List Int} : l.batch ≠ [] →
      l.Step env opts l' → l'.batch = l.batch.tail → l'.timer = l.timer.setAll whens →
      fd.Sets (env.clock.now l'.bot.instant) whens fd' → WatchedStep env opts (fd, l) (fd', l')

section Watched
variable {pageSize : Nat} {env : Env} {opts : Options} {l l' : Loop pageSize} {fd fd' : TimerFd}

/-- The descriptor is as the loop has set it. -/
def Tied (env : Env) (fd : TimerFd) (l : Loop pageSize) : Prop :=
  fd.Tracks (env.clock.now l.bot.instant) l.timer.last (decide (l.timer.settings ≤ l.reported))

theorem PositiveTimes.start {bot : Bot} (h : PositiveTimes env bot) :
    ∀ event ∈ bot.queue.start, 0 < event.when := by
  obtain ⟨reg, hops, hreg⟩ := h
  intro event hevent
  apply hreg event
  apply (hops.ordered.sublist event.when).subset
  exact List.mem_filter.mpr ⟨hevent, decide_eq_true rfl⟩

/-- What a step of the loop does to the timer. It is set to none but positive times. -/
theorem Loop.Step.exists_setAll (hi : l.Inv env) (hp : PositiveTimes env l.bot)
    (h : l.Step env opts l') :
    l.bot.instant ≤ l'.bot.instant ∧ PositiveTimes env l'.bot ∧
      ∃ whens, l'.timer = l.timer.setAll whens ∧ ∀ when ∈ whens, 0 < when := by
  obtain ⟨reg, hops, hreg⟩ := id hp
  cases h with
  | wait => exact ⟨Nat.le_succ _, ⟨reg, hops.other rfl, hreg⟩, [], rfl, nofun⟩
  | epollWait events _ _ _ _ => exact ⟨Nat.le_refl _, hp, [], rfl, nofun⟩
  | server hb hrecv h =>
    obtain ⟨w, hun, hs⟩ := hi.buffer
    obtain ⟨data, -, hlines, -⟩ := ReadBuf.processMsgs_some hun hs hrecv h
    obtain ⟨hinstant, rs, hq, hrs⟩ := processLines_adds hlines
    have hlater : ∀ r ∈ rs, 0 < r.when := fun r hr => (env.clock.pos _).trans_le (hrs r hr)
    obtain ⟨whens, hwhens, hpos⟩ := exists_setAll_addAll l.bot.queue hlater
    exact ⟨hinstant, hp.registers ⟨rs, hq, hlater⟩, whens,
      (congrArg EventList.timer hq).trans hwhens, hpos⟩
  | timer hb h =>
    obtain ⟨-, event, hhead, hdue⟩ := hi.due (hb ▸ List.mem_cons_self)
    obtain ⟨rest, hs⟩ := List.head?_eq_some_iff.mp hhead
    obtain ⟨q', hrun, -, hdrop, -⟩ := handleTimeEvent_due hi.good hs hdue
    have hlater : ∀ r ∈ registers env event.handler event.data l.bot, 0 < r.when := fun r hr =>
      (env.clock.pos _).trans (lt_registers hr)
    have hsession : SessionStep env opts l.bot _ := .timer hhead hdue h
    refine ⟨(handleTimeEvent_handles hi.good hhead hdue h).instant, hsession.positiveTimes hp, ?_⟩
    obtain rfl := Option.some.inj (hrun.symm.trans h)
    obtain ⟨whens, hwhens, hpos⟩ := exists_setAll_addAll l.bot.queue hlater
    have hadded : PositiveTimes env { l.bot with
        queue := l.bot.queue.addAll (registers env event.handler event.data l.bot) } :=
      hp.registers ⟨_, rfl, hlater⟩
    obtain ⟨whens', hwhens', hpos'⟩ := exists_setAll_dropStart hdrop hadded.start
    refine ⟨whens ++ whens', hwhens'.trans ?_, List.forall_mem_append.mpr ⟨hpos, hpos'⟩⟩
    rw [hwhens, Timer.setAll_append]
    rfl
  | signal _ _ => exact ⟨Nat.le_refl _, ⟨reg, hops.other rfl, hreg⟩, [], rfl, nofun⟩

/-- What is handled is the next of the batch. -/
theorem Loop.Step.handles (h : l.Step env opts l') (hb : l.batch ≠ [])
    (htail : l'.batch = l.batch.tail) : l'.reported = l.reported := by
  cases h with
  | wait | server _ _ _ | timer _ _ | signal _ _ => rfl
  | epollWait events hnil _ _ _ => exact absurd hnil hb

/-- A step of both is a step of the loop, or nothing it can see. -/
theorem WatchedStep.simulates (hi : l.Inv env) (hp : PositiveTimes env l.bot) (ht : Tied env fd l)
    (h : WatchedStep env opts (fd, l) (fd', l')) :
    (l' = l ∨ l.Step env opts l') ∧ Tied env fd' l' := by
  cases h with
  | wait =>
    exact ⟨.inr .wait, ht.mono (env.clock.mono (Nat.le_succ _))⟩
  | expire hset hnow => exact ⟨.inl rfl, ht.expire hset hnow⟩
  | epollWait events hb hne hd hevents =>
    constructor
    · refine .inr (.epollWait events hb hne hd fun htimer => ?_)
      obtain ⟨hseen, when, hlast, -, hwhen⟩ := ht.of_reports (hevents.mp htimer)
      have hunreported : l.Unreported := Nat.lt_of_not_le (of_decide_eq_false hseen)
      have hset : 0 < l.timer.settings := Nat.zero_lt_of_lt hunreported
      rw [Timer.last, if_neg (Nat.ne_of_gt hset)] at hlast
      obtain rfl := Option.some.inj hlast
      exact ⟨⟨hset, hwhen⟩, hunreported⟩
    · have hcollect := ht.collect
      by_cases htimer : .timer ∈ events
      · rw [hevents.mp htimer, Bool.true_or, ← decide_eq_true (Nat.le_refl l.timer.settings)] at hcollect
        rw [if_pos htimer]
        exact hcollect
      · rw [eq_false_of_ne_true (mt hevents.mpr htimer), Bool.false_or] at hcollect
        rw [if_neg htimer]
        exact hcollect
  | waitOn hb hreports =>
    refine ⟨.inl rfl, ?_⟩
    have hcollect := ht.collect
    rw [hreports, Bool.false_or] at hcollect
    exact hcollect
  | handle hb hstep htail htimer hsets =>
    obtain ⟨hinstant, -⟩ := hstep.exists_setAll hi hp
    refine ⟨.inr hstep, ?_⟩
    have htracks := (ht.mono (env.clock.mono hinstant)).sets hsets
    have hreported := hstep.handles hb htail
    unfold Tied
    rw [hreported, htimer, Timer.last_setAll, Timer.settings_setAll]
    split_ifs at htracks with hwhens
    · subst hwhens
      exact htracks
    · have hpos := List.length_pos_iff.mpr hwhens
      have hrep := hi.reported
      rw [decide_eq_false (by omega)]
      exact htracks

theorem WatchedStep.run {p p' : TimerFd × Loop pageSize} (hi : p.2.Inv env)
    (hp : PositiveTimes env p.2.bot) (ht : Tied env p.1 p.2)
    (h : Relation.ReflTransGen (WatchedStep env opts) p p') :
    Relation.ReflTransGen (Loop.Step env opts) p.2 p'.2 ∧ PositiveTimes env p'.2.bot ∧
      Tied env p'.1 p'.2 := by
  induction h with
  | refl => exact ⟨.refl, hp, ht⟩
  | @tail p₁ p₂ _ hstep ih =>
    obtain ⟨hrun, hp₁, ht₁⟩ := ih
    have hi₁ := Loop.inv_of_run hi hrun
    obtain ⟨hsame | hnext, ht₂⟩ := WatchedStep.simulates hi₁ hp₁ ht₁ hstep
    · rw [← hsame] at hrun hp₁
      exact ⟨hrun, hp₁, ht₂⟩
    · exact ⟨hrun.tail hnext, (hnext.exists_setAll hi₁ hp₁).2.1, ht₂⟩

/-- A wait reports the timer exactly if the head of the list is due. -/
theorem Tied.reports (ht : Tied env fd l) (hi : l.Inv env) (hp : PositiveTimes env l.bot)
    (hb : l.batch = []) :
    (fd.settle (env.clock.now l.bot.instant)).reports = true ↔
      ∃ event ∈ l.bot.queue.start.head?, event.when ≤ env.clock.now l.bot.instant := by
  rw [ht.reports_settle]
  have hnone : Source.timer ∉ l.batch := by
    rw [hb]
    exact List.not_mem_nil
  have hlast : 0 < l.timer.settings → l.timer.last = some l.timer.deadline := fun hset =>
    if_neg (Nat.ne_of_gt hset)
  constructor
  · rintro ⟨hseen, when, hwhen, -, hnow⟩
    have hunreported : l.Unreported := Nat.lt_of_not_le (of_decide_eq_false hseen)
    have hsome : l.bot.queue.start ≠ [] := fun hnil => hi.quiet hnil hunreported
    obtain ⟨event, rest, hs⟩ := List.exists_cons_of_ne_nil hsome
    have hhead : event ∈ l.bot.queue.start.head? := by
      rw [hs]
      rfl
    obtain ⟨hdeadline, hset⟩ := hi.good.armed event hhead
    obtain rfl := Option.some.inj ((hlast hset).symm.trans hwhen)
    exact ⟨event, hhead, hdeadline ▸ hnow⟩
  · rintro ⟨event, hhead, hdue⟩
    obtain ⟨hdeadline, hset⟩ := hi.good.armed event hhead
    have hsome : l.bot.queue.start ≠ [] := by
      intro hnil
      rw [hnil] at hhead
      cases hhead
    have hunreported := hi.wakes hnone hsome
    have hpos : 0 < l.timer.deadline :=
      (hp.start event (List.mem_of_mem_head? hhead)).trans_eq hdeadline.symm
    exact ⟨decide_eq_false (Nat.not_le_of_lt hunreported), _, hlast hset, Int.ne_of_gt hpos,
      hdeadline.trans_le hdue⟩

end Watched

section MainLoop
variable {pageSize : Nat} {env : Env} {opts : Options} {bot₀ bot₁ : Bot} {outcome : Restored}
  {l : Loop pageSize} {page : Mem (.mirror pageSize)} {fd₀ fd : TimerFd} {whens : List Int}

/-- The timer of a bot that has restored its state, watched from then on. -/
theorem watch_tied (hqueue : bot₀.queue = .empty)
    (hrestore : restoreState env bot₀ = .ok (outcome, bot₁))
    (hwhens : bot₁.queue.timer = (⟨0, 0⟩ : Timer).setAll whens)
    (hsets : TimerFd.create.Sets (env.clock.now bot₁.instant) whens fd₀) :
    Tied env fd₀.watch (.enter page (connectToIrcServer opts bot₁)) := by
  obtain ⟨hg, hne, -⟩ := restoreState_pending hqueue hrestore
  obtain ⟨event, rest, hs⟩ := List.exists_cons_of_ne_nil hne
  obtain ⟨-, hset⟩ := hg.armed event (by rw [hs]; rfl)
  have hcount := congrArg Timer.settings hwhens
  rw [Timer.settings_setAll, Nat.zero_add] at hcount
  have hsome : whens ≠ [] := by
    rintro rfl
    rw [hcount] at hset
    exact Nat.lt_irrefl 0 hset
  have htracks := (TimerFd.create_tracks (env.clock.now bot₁.instant) false).sets hsets
  rw [if_neg hsome] at htracks
  have hlast : bot₁.queue.timer.last = whens.getLast?.or none := by
    rw [hwhens, Timer.last_setAll]
    rfl
  change fd₀.watch.Tracks (env.clock.now bot₁.instant) bot₁.queue.timer.last
    (decide (bot₁.queue.timer.settings ≤ 0))
  rw [decide_eq_false (Nat.not_le_of_lt hset), hlast]
  exact htracks.watch

/-- A timer descriptor that is watched for edges and never read loses no expiry and repeats
none: the loop runs as that of the model does, nothing it handles is held up, and whenever it
comes to wait it is told of the timer exactly if the head of the list is due by then. -/
theorem edge_triggered_timer_refines (hqueue : bot₀.queue = .empty)
    (hrestore : restoreState env bot₀ = .ok (outcome, bot₁))
    (hwhens : bot₁.queue.timer = (⟨0, 0⟩ : Timer).setAll whens)
    (hsets : TimerFd.create.Sets (env.clock.now bot₁.instant) whens fd₀)
    (hrun : Relation.ReflTransGen (WatchedStep env opts)
      (fd₀.watch, .enter page (connectToIrcServer opts bot₁)) (fd, l)) :
    Relation.ReflTransGen (Loop.Step env opts) (.enter page (connectToIrcServer opts bot₁)) l ∧
    (∀ l', l.batch ≠ [] → l.Step env opts l' → l'.batch = l.batch.tail →
      ∃ fd', WatchedStep env opts (fd, l) (fd', l')) ∧
    (l.batch = [] → ((fd.settle (env.clock.now l.bot.instant)).reports = true ↔
      ∃ event ∈ l.bot.queue.start.head?, event.when ≤ env.clock.now l.bot.instant)) := by
  have henter := @entered_inv pageSize env opts bot₀ bot₁ outcome page hqueue hrestore
  have hpos : PositiveTimes env (connectToIrcServer opts bot₁) := by
    obtain ⟨reg, hops, hreg⟩ := restoreState_positiveTimes hqueue hrestore
    exact ⟨reg, hops.other rfl, hreg⟩
  obtain ⟨hsteps, hp, ht⟩ :=
    WatchedStep.run henter hpos (watch_tied hqueue hrestore hwhens hsets) hrun
  have hi := Loop.inv_of_run henter hsteps
  refine ⟨hsteps, fun l' hb hstep htail => ?_, ht.reports hi hp⟩
  obtain ⟨-, -, whens, htimer, hwhens⟩ := hstep.exists_setAll hi hp
  obtain ⟨fd', hsets⟩ := TimerFd.exists_sets (env.clock.now l'.bot.instant) fd
    fun when hwhen => (hwhens when hwhen).le
  exact ⟨fd', .handle hb hstep htail htimer hsets⟩

/-- A reminder restored in its own second has expired before the timer is watched. -/
theorem expired_before_watched : ∃ outcome bot₁,
    restoreState (.still 5 (by decide)) { Bot.new with reminders := some (ascii "5 #c tea\n") } =
      .ok (outcome, bot₁) ∧
    (∃ event ∈ bot₁.queue.start.head?, event.when ≤ 5) ∧
    (((TimerFd.create.set 49020).set 5).expire.watch.settle 5).reports = true := by
  obtain ⟨outcome, hrestore⟩ := restoreState_eq (.still 5 (by decide))
    { Bot.new with reminders := some (ascii "5 #c tea\n") }
  have hsets : TimerFd.Sets 5 .create [49020, 5] ((TimerFd.create.set 49020).set 5).expire :=
    .expire (.set (.set .refl (by decide)) (by decide)) rfl (by decide)
  have hrefines := @edge_triggered_timer_refines 512 _ .default _ _ outcome _ ⟨fun _ => 0⟩ _ _ _ rfl
    hrestore (by decide) hsets .refl
  have hreports := hrefines.2.2 rfl
  exact ⟨outcome, _, hrestore, by decide, hreports.mpr (by decide)⟩

end MainLoop
end Botniklas
