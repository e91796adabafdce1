import Mathlib.Data.Int.Order.Basic
import Mathlib.Data.List.Induction

/-! A timer descriptor watched for edges: it is never read, so only setting it anew takes an
expiry back, and a wait reports an expiry once. -/
namespace Botniklas.Foundation

/-- `deadline` is the time it is set to, until it expires, and `ticks` counts the expiries
since it was set; `edge` is a change that no wait has looked at. -/
structure TimerFd where
  deadline : Option Int
  ticks : Nat
  edge : Bool
  deriving DecidableEq, Repr

namespace TimerFd

def create : TimerFd := ⟨none, 0, false⟩

/-- Zero turns it off. -/
def set (fd : TimerFd) (when : Int) : TimerFd :=
  { fd with deadline := if when = 0 then none else some when, ticks := 0 }

/-- The time it is set to has come. -/
def expire (fd : TimerFd) : TimerFd := ⟨none, fd.ticks + 1, true⟩

/-- From now on it is watched. -/
def watch (fd : TimerFd) : TimerFd := { fd with edge := 0 < fd.ticks }

/-- Whether a wait that looks at it reports it. -/
def reports (fd : TimerFd) : Bool := fd.edge && 0 < fd.ticks

/-- After a wait has looked at it. -/
def collect (fd : TimerFd) : TimerFd := { fd with edge := false }

/-- What the clock does to it. -/
def settle (fd : TimerFd) (now : Int) : TimerFd :=
  match fd.deadline with
  | some when => if when ≤ now then fd.expire else fd
  | none => fd

/-- It is set to some times, one after the other, and may expire in between, not after
`now`. A negative time is refused. -/
inductive Sets (now : Int) : TimerFd → List Int → TimerFd → Prop where
  | refl {fd : TimerFd} : Sets now fd [] fd
  | set {fd fd' : TimerFd} {whens : List Int} {when : Int} : Sets now fd whens fd' →
      0 ≤ when → Sets now fd (whens ++ [when]) (fd'.set when)
  | expire {fd fd' : TimerFd} {whens : List Int} {when : Int} : Sets now fd whens fd' →
      fd'.deadline = some when → when ≤ now → Sets now fd whens fd'.expire

/-- `last` is what it was last set to, none for never, and `seen` whether a wait has reported
that it expired. -/
structure Tracks (fd : TimerFd) (now : Int) (last : Option Int) (seen : Bool) : Prop where
  set : ∀ when, fd.deadline = some when →
    last = some when ∧ when ≠ 0 ∧ fd.ticks = 0 ∧ seen = false
  expired : 0 < fd.ticks → fd.deadline = none ∧ (fd.edge = true ↔ seen = false) ∧
    ∃ when, last = some when ∧ when ≠ 0 ∧ when ≤ now
  off : fd.deadline = none → fd.ticks = 0 → ∀ when, last = some when → when = 0

section Tracks
variable {fd fd' : TimerFd} {now now' : Int} {last : Option Int} {seen : Bool}

theorem exists_sets (now : Int) (fd : TimerFd) {whens : List Int}
    (h : ∀ when ∈ whens, 0 ≤ when) : ∃ fd', Sets now fd whens fd' := by
  induction whens using List.reverseRecOn with
  | nil => exact ⟨fd, .refl⟩
  | append_singleton whens when ih =>
    rw [List.forall_mem_append, List.forall_mem_singleton] at h
    obtain ⟨fd', hsets⟩ := ih h.1
    exact ⟨_, hsets.set h.2⟩

theorem create_tracks (now : Int) (seen : Bool) : create.Tracks now none seen :=
  ⟨nofun, fun h => absurd h (Nat.lt_irrefl 0), nofun⟩

theorem Tracks.mono (h : fd.Tracks now last seen) (hle : now ≤ now') : fd.Tracks now' last seen := by
  refine ⟨h.set, fun hticks => ?_, h.off⟩
  obtain ⟨hnone, hedge, when, hlast, hne, hwhen⟩ := h.expired hticks
  exact ⟨hnone, hedge, when, hlast, hne, Int.le_trans hwhen hle⟩

/-- Setting it loses no expiry: that of the time before is taken back, that of the new time is
still to come. -/
theorem set_tracks (fd : TimerFd) (now when : Int) :
    (fd.set when).Tracks now (some when) false := by
  refine ⟨fun when' hset => ?_, fun h => absurd h (Nat.lt_irrefl 0), fun hnone _ when' hlast => ?_⟩
  · obtain ⟨hne, hsome⟩ := Option.ite_none_left_eq_some.mp hset
    obtain rfl := Option.some.inj hsome
    exact ⟨rfl, hne, rfl, rfl⟩
  · obtain rfl := Option.some.inj hlast
    by_contra hne
    exact Option.some_ne_none _ ((if_neg hne).symm.trans hnone)

theorem Tracks.expire (h : fd.Tracks now last seen) {when : Int} (hset : fd.deadline = some when)
    (hnow : when ≤ now) : fd.expire.Tracks now last seen := by
  obtain ⟨hlast, hne, -, hseen⟩ := h.set when hset
  refine ⟨nofun, fun _ => ⟨rfl, ?_, when, hlast, hne, hnow⟩,
    fun _ h => absurd h (Nat.succ_ne_zero _)⟩
  exact iff_of_true rfl hseen

/-- The last of the times it was set to. -/
theorem Tracks.sets {whens : List Int} (h : fd.Tracks now last seen)
    (hsets : Sets now fd whens fd') :
    fd'.Tracks now (whens.getLast?.or last) (if whens = [] then seen else false) := by
  induction hsets with
  | refl => exact h
  | set hsets hwhen ih =>
    rw [List.getLast?_concat, if_neg (List.concat_ne_nil _ _)]
    exact set_tracks _ _ _
  | expire hsets hset hnow ih => exact ih.expire hset hnow

theorem Tracks.watch (h : fd.Tracks now last false) : fd.watch.Tracks now last false := by
  refine ⟨h.set, fun hticks => ?_, h.off⟩
  obtain ⟨hnone, -, hlast⟩ := h.expired hticks
  exact ⟨hnone, iff_of_true (decide_eq_true hticks) rfl, hlast⟩

/-- A wait has reported what there was to report. -/
theorem Tracks.collect (h : fd.Tracks now last seen) :
    fd.collect.Tracks now last (fd.reports || seen) := by
  refine ⟨fun when hset => ?_, fun hticks => ?_, h.off⟩
  · obtain ⟨hlast, hne, hticks, hseen⟩ := h.set when hset
    refine ⟨hlast, hne, hticks, ?_⟩
    rw [hseen, Bool.or_false]
    unfold reports
    rw [hticks]
    exact Bool.and_false _
  · obtain ⟨hnone, hedge, hlast⟩ := h.expired hticks
    refine ⟨hnone, ?_, hlast⟩
    unfold reports
    rw [decide_eq_true (show 0 < fd.ticks from hticks), Bool.and_true]
    refine iff_of_false Bool.false_ne_true fun hnone => ?_
    obtain ⟨hquiet, hseen⟩ := Bool.or_eq_false_iff.mp hnone
    rw [hedge.mpr hseen] at hquiet
    cases hquiet

/-- A wait reports it exactly if it has been set to a time that has come and no wait has
reported that. -/
theorem Tracks.reports_settle (h : fd.Tracks now last seen) :
    (fd.settle now).reports = true ↔
      seen = false ∧ ∃ when, last = some when ∧ when ≠ 0 ∧ when ≤ now := by
  unfold settle
  cases hset : fd.deadline with
  | some when =>
    obtain ⟨hlast, hne, hticks, hseen⟩ := h.set when hset
    dsimp only
    split_ifs with hnow
    · refine iff_of_true ?_ ⟨hseen, when, hlast, hne, hnow⟩
      exact decide_eq_true (Nat.succ_pos fd.ticks)
    · refine iff_of_false ?_ ?_
      · unfold reports
        rw [hticks, decide_eq_false (Nat.lt_irrefl 0), Bool.and_false]
        exact Bool.false_ne_true
      · rintro ⟨-, when', hlast', -, hnow'⟩
        obtain rfl := Option.some.inj (hlast.symm.trans hlast')
        exact hnow hnow'
  | none =>
    dsimp only
    unfold reports
    rcases Nat.eq_zero_or_pos fd.ticks with hticks | hticks
    · rw [hticks, decide_eq_false (Nat.lt_irrefl 0), Bool.and_false]
      refine iff_of_false Bool.false_ne_true ?_
      rintro ⟨-, when, hlast, hne, -⟩
      exact hne (h.off hset hticks when hlast)
    · obtain ⟨-, hedge, hlast⟩ := h.expired hticks
      rw [decide_eq_true hticks, Bool.and_true, hedge]
      exact ⟨fun hseen => ⟨hseen, hlast⟩, fun h => h.1⟩

theorem Tracks.of_reports (h : fd.Tracks now last seen) (hreports : fd.reports = true) :
    seen = false ∧ ∃ when, last = some when ∧ when ≠ 0 ∧ when ≤ now := by
  obtain ⟨hedge, hticks⟩ := Bool.and_eq_true_iff.mp hreports
  obtain ⟨-, hseen, hlast⟩ := h.expired (of_decide_eq_true hticks)
  exact ⟨hseen.mp hedge, hlast⟩

end Tracks
end TimerFd
end Botniklas.Foundation
