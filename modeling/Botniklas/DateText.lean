import Botniklas.Date

/-! The written form of a date, and what the parser makes of it. -/
namespace Botniklas
open Foundation

/-- A number written with one or two digits. -/
structure Numeral where
  digits : Bytes
  short : digits.length = 1 ∨ digits.length = 2
  all : ∀ b ∈ digits, isdigit b = true

def Numeral.value (n : Numeral) : Int := digitsValue n.digits

/-- Any amount of whitespace. -/
structure Gap where
  bytes : Bytes
  white : ∀ b ∈ bytes, isspace b = true

def Gap.none : Gap := ⟨[], List.all_eq_true.mp rfl⟩

/-- Any but zero amount of whitespace. -/
structure Sep extends Gap where
  nonempty : bytes ≠ []

def Sep.one : Sep := ⟨⟨ascii " ", List.all_eq_true.mp rfl⟩, by decide⟩

structure YearText where
  sep : Sep
  year : Numeral

structure DayText where
  sep : Sep
  mday : Numeral
  mon : Numeral
  year : Option YearText

/-- `hh:mm[:ss] [dd/MM [yy]]`. -/
structure DateText where
  lead : Gap
  hour : Numeral
  min : Numeral
  sec : Option Numeral
  day : Option DayText

namespace YearText

def bytes (y : YearText) : Bytes := y.sep.bytes ++ y.year.digits

def fields (tm : Tm) (y : YearText) : Tm := { tm with year := y.year.value + 100 }

end YearText

namespace DayText

def bytes (d : DayText) : Bytes :=
  d.sep.bytes ++ d.mday.digits ++ slash :: d.mon.digits ++ d.year.elim [] YearText.bytes

def fields (tm : Tm) (d : DayText) : Tm :=
  let tm := { tm with mday := d.mday.value, mon := d.mon.value - 1 }
  d.year.elim tm (YearText.fields tm)

end DayText

namespace DateText

def bytes (d : DateText) : Bytes :=
  d.lead.bytes ++ d.hour.digits ++ colon :: d.min.digits ++
    d.sec.elim [] (fun s => colon :: s.digits) ++ d.day.elim [] DayText.bytes

/-- The time written; what is left out comes from `tm`, seconds are 0 then. -/
def fields (tm : Tm) (d : DateText) : Tm :=
  let tm := { tm with hour := d.hour.value, min := d.min.value, sec := d.sec.elim 0 Numeral.value }
  d.day.elim tm (DayText.fields tm)

/-- The year as far as it is written. -/
def year (d : DateText) : Option YearText := d.day.bind DayText.year

end DateText

/-- The year of a date with no year is the current one. -/
theorem DateText.year_fields_none {d : DateText} (h : d.year = none) (tm : Tm) :
    (d.fields tm).year = tm.year := by
  unfold DateText.fields
  cases hday : d.day with
  | none => rfl
  | some day =>
    unfold DateText.year at h
    rw [hday] at h
    have hyear : day.year = none := h
    dsimp only [Option.elim_some]
    unfold DayText.fields
    rw [hyear]
    rfl

theorem DateText.year_fields_some {d : DateText} {y : YearText} (h : d.year = some y) (tm : Tm) :
    (d.fields tm).year = y.year.value + 100 := by
  obtain ⟨day, hday, hyear⟩ := Option.bind_eq_some_iff.mp h
  unfold DateText.fields DayText.fields
  rw [hday]
  dsimp only [Option.elim_some]
  rw [hyear]
  rfl

/-! Where the parser stops. -/

/-- The number does not go on in what follows it. -/
def Numeral.EndsBefore (n : Numeral) (rest : Bytes) : Prop :=
  n.digits.length = 2 ∨ ∀ b ∈ rest.head?, isdigit b = false

/-- What the parser takes for the beginning of one more part. -/
def StartsPart (w : Bytes) : Prop :=
  w.head? = some space ∧ ∃ b ∈ (w.dropWhile isspace).head?, isdigit b = true

/-- The separator begins with a proper space. -/
def Sep.Spaced (s : Sep) : Prop := s.bytes.head? = some space

def YearText.Spaced (y : YearText) : Prop := y.sep.Spaced

def DayText.Spaced (d : DayText) : Prop := d.sep.Spaced ∧ ∀ y ∈ d.year, y.Spaced

def DateText.Spaced (d : DateText) : Prop := ∀ day ∈ d.day, day.Spaced

def DayText.EndsBefore (d : DayText) (rest : Bytes) : Prop :=
  match d.year with
  | some y => y.year.EndsBefore rest
  | none => d.mon.EndsBefore rest ∧ ¬ StartsPart rest

/-- What follows ends the time of day. -/
def EndsTime (min : Numeral) (sec : Option Numeral) (w : Bytes) : Prop :=
  match sec with
  | some s => s.EndsBefore w
  | none => min.EndsBefore w ∧ w.head? ≠ some colon

/-- Nothing in what follows belongs to the date. -/
def DateText.EndsBefore (d : DateText) (rest : Bytes) : Prop :=
  match d.day with
  | some day => day.EndsBefore rest
  | none => ¬ StartsPart rest ∧ EndsTime d.min d.sec rest

section Numbers
variable {n : Numeral} {g : Gap} {s rest : Bytes} {v : Int}

theorem Numeral.one_or_two (n : Numeral) :
    (∃ a, n.digits = [a] ∧ isdigit a = true ∧ n.value = digit a) ∨
    ∃ a b, n.digits = [a, b] ∧ isdigit a = true ∧ isdigit b = true ∧
      n.value = 10 * digit a + digit b := by
  obtain ⟨digits, hlen, hall⟩ := n
  rcases hlen with hlen | hlen
  · obtain ⟨a, rfl⟩ := List.length_eq_one_iff.mp hlen
    refine .inl ⟨a, rfl, hall a (by simp), ?_⟩
    simp [value, digitsValue]
  · obtain ⟨a, b, rfl⟩ := List.length_eq_two.mp hlen
    refine .inr ⟨a, b, rfl, hall a (by simp), hall b (by simp), ?_⟩
    simp [value, digitsValue]

/-- One digit, then what follows. -/
private theorem read_number (h : n.EndsBefore rest) :
    parseOneOrTwoDigits (n.digits ++ rest) false = some (n.value, rest) := by
  rcases n.one_or_two with ⟨a, hn, ha, hv⟩ | ⟨a, b, hn, ha, hb, hv⟩
  · have hnext : ∀ b ∈ rest.head?, isdigit b = false := by
      rcases h with h | h
      · rw [hn] at h
        cases h
      · exact h
    rw [hn, hv]
    cases rest with
    | nil => simp [parseOneOrTwoDigits, ha]
    | cons b rest => simp [parseOneOrTwoDigits, ha, hnext b rfl]
  · rw [hn, hv]
    simp [parseOneOrTwoDigits, ha, hb]

theorem parseNumber_iff : parseOneOrTwoDigits s false = some (v, rest) ↔
    ∃ n : Numeral, s = n.digits ++ rest ∧ v = n.value ∧ n.EndsBefore rest := by
  constructor
  · intro h
    unfold parseOneOrTwoDigits at h
    match s with
    | [] => cases h
    | [a] =>
      simp only [Bool.false_eq_true, if_false] at h
      split_ifs at h with ha
      cases h
      exact ⟨⟨[a], .inl rfl, by simpa using ha⟩, rfl, by simp [Numeral.value, digitsValue],
        .inr (by simp)⟩
    | a :: b :: s =>
      simp only [Bool.false_eq_true, if_false] at h
      split_ifs at h with ha hb
      · cases h
        exact ⟨⟨[a, b], .inr rfl, by simpa using ⟨ha, hb⟩⟩, rfl,
          by simp [Numeral.value, digitsValue], .inl rfl⟩
      · cases h
        exact ⟨⟨[a], .inl rfl, by simpa using ha⟩, rfl, by simp [Numeral.value, digitsValue],
          .inr (by simpa using hb)⟩
  · rintro ⟨n, rfl, rfl, h⟩
    exact read_number h

theorem Numeral.head (n : Numeral) (w : Bytes) :
    ∃ b ∈ (n.digits ++ w).head?, isdigit b = true := by
  rcases n.one_or_two with ⟨a, hn, ha, -⟩ | ⟨a, b, hn, ha, -⟩
  · exact ⟨a, by simp [hn], ha⟩
  · exact ⟨a, by simp [hn], ha⟩

theorem dropWhile_gap (g : Gap) (n : Numeral) (w : Bytes) :
    (g.bytes ++ (n.digits ++ w)).dropWhile isspace = n.digits ++ w := by
  obtain ⟨b, hb, hdigit⟩ := n.head w
  obtain ⟨rest, hrest⟩ := List.head?_eq_some_iff.mp hb
  rw [List.dropWhile_append_of_pos g.white, hrest,
    List.dropWhile_cons_of_neg (by simp [isspace_of_isdigit hdigit])]

/-- Whitespace before a number is skipped. -/
theorem parseNumber_skip (g : Gap) (n : Numeral) (w : Bytes) :
    parseOneOrTwoDigits (g.bytes ++ (n.digits ++ w)) true =
      parseOneOrTwoDigits (n.digits ++ w) false := by
  change parseOneOrTwoDigits ((g.bytes ++ (n.digits ++ w)).dropWhile isspace) false = _
  rw [dropWhile_gap]

theorem parseNumber_gap (g : Gap) (h : n.EndsBefore rest) :
    parseOneOrTwoDigits (g.bytes ++ (n.digits ++ rest)) true = some (n.value, rest) :=
  (parseNumber_skip g n rest).trans (read_number h)

theorem parseNumber_gap_iff : parseOneOrTwoDigits s true = some (v, rest) ↔
    ∃ (g : Gap) (n : Numeral), s = g.bytes ++ (n.digits ++ rest) ∧ v = n.value ∧
      n.EndsBefore rest := by
  constructor
  · intro h
    change parseOneOrTwoDigits (s.dropWhile isspace) false = _ at h
    obtain ⟨n, hs, hv, hends⟩ := parseNumber_iff.mp h
    refine ⟨⟨s.takeWhile isspace, fun b hb => List.mem_takeWhile_imp hb⟩, n, ?_, hv, hends⟩
    rw [← hs]
    exact List.takeWhile_append_dropWhile.symm
  · rintro ⟨g, n, rfl, rfl, h⟩
    exact parseNumber_gap g h

/-- No number is read where no digit follows the whitespace. -/
theorem parseNumber_none_iff : parseOneOrTwoDigits s true = none ↔
    ¬ ∃ b ∈ (s.dropWhile isspace).head?, isdigit b = true := by
  constructor
  · rintro h ⟨b, hb, hdigit⟩
    obtain ⟨rest, hrest⟩ := List.head?_eq_some_iff.mp hb
    change parseOneOrTwoDigits (s.dropWhile isspace) false = _ at h
    rw [hrest] at h
    cases rest with
    | nil => simp [parseOneOrTwoDigits, hdigit] at h
    | cons c rest => cases hc : isdigit c <;> simp [parseOneOrTwoDigits, hdigit, hc] at h
  · intro h
    cases hp : parseOneOrTwoDigits s true with
    | none => rfl
    | some p =>
      obtain ⟨v, rest⟩ := p
      obtain ⟨g, n, rfl, -⟩ := parseNumber_gap_iff.mp hp
      rw [dropWhile_gap] at h
      exact absurd (n.head rest) h

end Numbers

section Texts
variable {tm tm' : Tm} {s rest : Bytes}

theorem Sep.Spaced.head {sep : Sep} (h : sep.Spaced) (w : Bytes) :
    (sep.bytes ++ w).head? = some space := by
  rw [List.head?_append, h]
  rfl

private theorem eat_some {c : UInt8} (h : eat s c = some rest) : s = c :: rest := by
  unfold eat at h
  cases s with
  | nil => cases h
  | cons b s =>
    dsimp only at h
    split_ifs at h with hb
    cases h
    rw [hb]

theorem parseYear_bytes (y : YearText) (h : y.year.EndsBefore rest) :
    parseYear tm (y.bytes ++ rest) =
      if y.year.value < 38 then some (y.fields tm, rest) else none := by
  unfold parseYear YearText.bytes
  rw [List.append_assoc, parseNumber_gap y.sep.toGap h]
  dsimp only
  split_ifs with h1 h2 h3
  · omega
  · rfl
  · rfl
  · omega

theorem parseYear_none (h : ¬ StartsPart s) (hs : s.head? = some space) :
    parseYear tm s = some (tm, s) := by
  unfold parseYear
  rw [parseNumber_none_iff.mpr fun hd => h ⟨hs, hd⟩]

theorem parseDay_none (h : ¬ StartsPart s) (hs : s.head? = some space) :
    parseDay tm s = some (tm, s) := by
  unfold parseDay
  rw [parseNumber_none_iff.mpr fun hd => h ⟨hs, hd⟩]

/-- A byte that is no digit ends any number. -/
theorem Numeral.endsBefore_cons (n : Numeral) {b : UInt8} {w : Bytes} (hb : isdigit b = false) :
    n.EndsBefore (b :: w) := .inr (by simpa using hb)

theorem Sep.Spaced.endsBefore {sep : Sep} (h : sep.Spaced) (n : Numeral) (w : Bytes) :
    n.EndsBefore (sep.bytes ++ w) := by
  refine .inr fun b hb => ?_
  rw [h.head w] at hb
  cases hb
  rfl

theorem parseDay_bytes (d : DayText) (hs : d.Spaced) (h : d.EndsBefore rest) :
    parseDay tm (d.bytes ++ rest) =
      if ∀ y ∈ d.year, y.year.value < 38 then some (d.fields tm, rest) else none := by
  obtain ⟨sep, mday, mon, year⟩ := d
  have hday : ∀ w, parseOneOrTwoDigits
      (sep.bytes ++ (mday.digits ++ slash :: (mon.digits ++ w))) true =
        some (mday.value, slash :: (mon.digits ++ w)) := fun w =>
    parseNumber_gap sep.toGap (mday.endsBefore_cons rfl)
  unfold parseDay DayText.bytes
  simp only [List.append_assoc, List.cons_append, hday, eat, if_true, Option.bind_eq_bind,
    Option.bind_some]
  cases year with
  | none =>
    obtain ⟨hends, hstop⟩ := h
    have hmon : parseOneOrTwoDigits (mon.digits ++ rest) false = some (mon.value, rest) :=
      parseNumber_iff.mpr ⟨mon, rfl, rfl, hends⟩
    simp only [Option.elim_none, List.nil_append, hmon, Option.bind_some]
    split_ifs with hsp hy hy
    · exact parseYear_none hstop hsp
    · simp at hy
    · rfl
    · simp at hy
  | some y =>
    have hy : y.Spaced := hs.2 y rfl
    have hmon : parseOneOrTwoDigits (mon.digits ++ (y.bytes ++ rest)) false =
        some (mon.value, y.bytes ++ rest) := by
      refine parseNumber_iff.mpr ⟨mon, rfl, rfl, ?_⟩
      unfold YearText.bytes
      rw [List.append_assoc]
      exact Sep.Spaced.endsBefore hy _ _
    have hhead : (y.bytes ++ rest).head? = some space := by
      unfold YearText.bytes
      rw [List.append_assoc]
      exact Sep.Spaced.head hy _
    simp only [Option.elim_some, hmon, Option.bind_some, hhead, if_true]
    rw [parseYear_bytes y h]
    simp only [Option.mem_some_iff, forall_eq']
    rfl

theorem DayText.head {d : DayText} (hs : d.Spaced) (w : Bytes) :
    (d.bytes ++ w).head? = some space := by
  unfold DayText.bytes
  rw [List.append_assoc, List.append_assoc, List.append_assoc]
  exact hs.1.head _

theorem endsTime_of_space (min : Numeral) (sec : Option Numeral) {w : Bytes}
    (hw : w.head? = some space) : EndsTime min sec w := by
  obtain ⟨w, rfl⟩ := List.head?_eq_some_iff.mp hw
  cases sec with
  | none => exact ⟨min.endsBefore_cons rfl, by simp⟩
  | some s => exact s.endsBefore_cons rfl

/-- The time of day is read, and the date if a space follows. -/
theorem parseFields_time (lead : Gap) (hour min : Numeral) (sec : Option Numeral) {w : Bytes}
    (htm : tm.sec = 0) (hends : EndsTime min sec w) :
    parseFields tm (lead.bytes ++ (hour.digits ++ colon :: (min.digits ++
      (sec.elim [] (fun s => colon :: s.digits) ++ w)))) =
      if w.head? = some space then
        parseDay { tm with hour := hour.value, min := min.value, sec := sec.elim 0 Numeral.value } w
      else
        some ({ tm with hour := hour.value, min := min.value, sec := sec.elim 0 Numeral.value }, w) := by
  have hhour : ∀ v, parseOneOrTwoDigits (lead.bytes ++ (hour.digits ++ colon :: v)) true =
      some (hour.value, colon :: v) := fun v => parseNumber_gap lead (hour.endsBefore_cons rfl)
  unfold parseFields
  simp only [hhour, eat, if_true, Option.bind_eq_bind, Option.bind_some]
  cases sec with
  | none =>
    obtain ⟨hmin, hcolon⟩ := hends
    have hread : parseOneOrTwoDigits (min.digits ++ w) false = some (min.value, w) :=
      parseNumber_iff.mpr ⟨min, rfl, rfl, hmin⟩
    simp only [Option.elim_none, List.nil_append, hread, Option.bind_some]
    rw [if_neg hcolon, ← htm]
  | some sec =>
    have hread : parseOneOrTwoDigits (min.digits ++ (colon :: (sec.digits ++ w))) false =
        some (min.value, colon :: (sec.digits ++ w)) :=
      parseNumber_iff.mpr ⟨min, rfl, rfl, min.endsBefore_cons rfl⟩
    have hread' : parseOneOrTwoDigits (sec.digits ++ w) false = some (sec.value, w) :=
      parseNumber_iff.mpr ⟨sec, rfl, rfl, hends⟩
    simp only [Option.elim_some, List.cons_append, hread, Option.bind_some, List.head?_cons,
      if_true, List.tail_cons, hread']

/-- A written date is read to its end. -/
theorem parseFields_bytes (d : DateText) (hs : d.Spaced) (h : d.EndsBefore rest)
    (htm : tm.sec = 0) : parseFields tm (d.bytes ++ rest) =
      if ∀ y ∈ d.year, y.year.value < 38 then some (d.fields tm, rest) else none := by
  obtain ⟨lead, hour, min, sec, day⟩ := d
  unfold DateText.bytes
  simp only [List.append_assoc, List.cons_append]
  cases day with
  | none =>
    obtain ⟨hstop, hends⟩ := h
    apply (parseFields_time lead hour min sec htm hends).trans
    change (if rest.head? = some space then _ else some (_, rest)) = some (_, rest)
    by_cases hsp : rest.head? = some space
    · rw [if_pos hsp]
      exact parseDay_none hstop hsp
    · exact if_neg hsp
  | some day =>
    have hday := hs day rfl
    have hhead := day.head hday rest
    apply (parseFields_time lead hour min sec htm (endsTime_of_space min sec hhead)).trans
    rw [if_pos hhead]
    exact parseDay_bytes day hday h

/-- Whitespace that begins with a space is a separator. -/
private theorem Gap.spaced (g : Gap) (n : Numeral) (w : Bytes)
    (h : (g.bytes ++ (n.digits ++ w)).head? = some space) :
    ∃ sep : Sep, sep.bytes = g.bytes ∧ sep.Spaced := by
  have hne : g.bytes ≠ [] := by
    intro hnil
    obtain ⟨b, hb, hdigit⟩ := n.head w
    rw [hnil, List.nil_append] at h
    rw [h] at hb
    cases hb
    exact absurd hdigit (by decide)
  refine ⟨⟨g, hne⟩, rfl, ?_⟩
  rwa [List.head?_append_of_ne_nil _ hne] at h

private theorem year_sound {cur : Bytes}
    (h : (if cur.head? = some space then parseYear tm cur else some (tm, cur)) = some (tm', rest)) :
    ∃ year : Option YearText, (∀ y ∈ year, y.Spaced ∧ y.year.value < 38) ∧
      cur = year.elim [] YearText.bytes ++ rest ∧ tm' = year.elim tm (YearText.fields tm) ∧
      match year with
      | some y => y.year.EndsBefore rest
      | none => ¬ StartsPart rest := by
  by_cases hsp : cur.head? = some space
  · rw [if_pos hsp] at h
    unfold parseYear at h
    cases hp : parseOneOrTwoDigits cur true with
    | none =>
      rw [hp] at h
      cases h
      exact ⟨none, by simp, rfl, rfl, fun hstart => parseNumber_none_iff.mp hp hstart.2⟩
    | some p =>
      obtain ⟨v, cur'⟩ := p
      rw [hp] at h
      dsimp only at h
      split_ifs at h with hbig
      cases h
      obtain ⟨g, n, rfl, rfl, hends⟩ := parseNumber_gap_iff.mp hp
      obtain ⟨sep, hsep, hspaced⟩ := g.spaced n _ hsp
      refine ⟨some ⟨sep, n⟩, ?_, ?_, rfl, hends⟩
      · rintro _ ⟨⟩
        exact ⟨hspaced, by dsimp only; omega⟩
      · simp [YearText.bytes, hsep]
  · rw [if_neg hsp] at h
    cases h
    exact ⟨none, by simp, rfl, rfl, fun hstart => hsp hstart.1⟩

private theorem day_sound {cur : Bytes}
    (h : (if cur.head? = some space then parseDay tm cur else some (tm, cur)) = some (tm', rest)) :
    ∃ day : Option DayText, (∀ d ∈ day, d.Spaced ∧ ∀ y ∈ d.year, y.year.value < 38) ∧
      cur = day.elim [] DayText.bytes ++ rest ∧ tm' = day.elim tm (DayText.fields tm) ∧
      match day with
      | some d => d.EndsBefore rest
      | none => ¬ StartsPart rest := by
  by_cases hsp : cur.head? = some space
  · rw [if_pos hsp] at h
    unfold parseDay at h
    cases hp : parseOneOrTwoDigits cur true with
    | none =>
      rw [hp] at h
      cases h
      exact ⟨none, by simp, rfl, rfl, fun hstart => parseNumber_none_iff.mp hp hstart.2⟩
    | some p =>
      obtain ⟨v, cur₁⟩ := p
      rw [hp] at h
      simp only [Option.bind_eq_bind, Option.bind_eq_some_iff] at h
      obtain ⟨cur₂, heat, ⟨mon, cur₃⟩, hmon, h⟩ := h
      obtain ⟨g, n, rfl, rfl, hends⟩ := parseNumber_gap_iff.mp hp
      obtain ⟨sep, hsep, hspaced⟩ := g.spaced n _ hsp
      obtain rfl := eat_some heat
      obtain ⟨n', rfl, rfl, hends'⟩ := parseNumber_iff.mp hmon
      obtain ⟨year, hyear, rfl, rfl, hstop⟩ := year_sound h
      refine ⟨some ⟨sep, n, n', year⟩, ?_, ?_, rfl, ?_⟩
      · rintro _ ⟨⟩
        exact ⟨⟨hspaced, fun y hy => (hyear y hy).1⟩, fun y hy => (hyear y hy).2⟩
      · simp [DayText.bytes, hsep]
      · cases year with
        | none => exact ⟨hends', hstop⟩
        | some y => exact hstop
  · rw [if_neg hsp] at h
    cases h
    exact ⟨none, by simp, rfl, rfl, fun hstart => hsp hstart.1⟩

/-- Whatever is read was written, up to where the parser stopped. -/
theorem parseFields_sound (htm : tm.sec = 0) (h : parseFields tm s = some (tm', rest)) :
    ∃ d : DateText, d.Spaced ∧ s = d.bytes ++ rest ∧ d.EndsBefore rest ∧
      (∀ y ∈ d.year, y.year.value < 38) ∧ tm' = d.fields tm := by
  unfold parseFields at h
  simp only [Option.bind_eq_bind, Option.bind_eq_some_iff] at h
  obtain ⟨⟨v, cur₁⟩, hhour, cur₂, heat, ⟨v', cur₃⟩, hmin, h⟩ := h
  obtain ⟨lead, hour, rfl, rfl, -⟩ := parseNumber_gap_iff.mp hhour
  obtain rfl := eat_some heat
  obtain ⟨min, rfl, rfl, hends⟩ := parseNumber_iff.mp hmin
  by_cases hcolon : cur₃.head? = some colon
  · simp only [if_pos hcolon, Option.bind_eq_some_iff] at h
    obtain ⟨⟨v'', cur₄⟩, hsec, h⟩ := h
    obtain ⟨cur₅, rfl⟩ := List.head?_eq_some_iff.mp hcolon
    obtain ⟨sec, hcur, rfl, hends'⟩ := parseNumber_iff.mp hsec
    rw [List.tail_cons] at hcur
    obtain ⟨day, hday, rfl, rfl, hstop⟩ := day_sound h
    refine ⟨⟨lead, hour, min, some sec, day⟩, fun d hd => (hday d hd).1, ?_, ?_, ?_, rfl⟩
    · simp [DateText.bytes, hcur]
    · cases day with
      | none => exact ⟨hstop, hends'⟩
      | some d => exact hstop
    · intro y hy
      obtain ⟨d, hd, hy⟩ := Option.bind_eq_some_iff.mp hy
      exact (hday d hd).2 y hy
  · rw [if_neg hcolon] at h
    obtain ⟨day, hday, rfl, rfl, hstop⟩ := day_sound h
    refine ⟨⟨lead, hour, min, none, day⟩, fun d hd => (hday d hd).1, ?_, ?_, ?_, ?_⟩
    · simp [DateText.bytes]
    · cases day with
      | none => exact ⟨hstop, hends, hcolon⟩
      | some d => exact hstop
    · intro y hy
      obtain ⟨d, hd, hy⟩ := Option.bind_eq_some_iff.mp hy
      exact (hday d hd).2 y hy
    · unfold DateText.fields
      simp only [Option.elim_none, ← htm]

end Texts

section Dates
variable {zone now t : Int} {s rest : Bytes}

/-- A failure leaves the cursor where it was. -/
theorem parseDate_failed (h : (parseDate zone now s).1 = -1) : parseDate zone now s = (-1, s) := by
  unfold parseDate at h ⊢
  cases hcur : getCurrentTime zone now with
  | none => rfl
  | some cur =>
    rw [hcur] at h
    dsimp only at h ⊢
    cases hf : parseFields { cur with sec := 0 } s with
    | none => rfl
    | some p =>
      rw [hf] at h
      dsimp only at h ⊢
      split_ifs at h ⊢ with h1 h2
      · rfl
      · rfl
      · exact absurd h h1

/-- `mktime` leaves the fields alone exactly when they are in range. -/
theorem parseDate_fields (hnow : now ≠ -1) : parseDate zone now s =
    match parseFields { localtime zone now with sec := 0 } s with
    | none => (-1, s)
    | some (tm, cur) =>
      if tm.seconds - zone = -1 ∨ Tm.ofSeconds tm.seconds ≠ tm then (-1, s)
      else (tm.seconds - zone, cur) := by
  unfold parseDate mktime
  rw [getCurrentTime_of_ne hnow]
  dsimp only
  cases parseFields { localtime zone now with sec := 0 } s with
  | none => rfl
  | some p =>
    dsimp only
    rw [ite_or]

/-- The time of a written date is returned if it is one; otherwise the cursor stays. -/
theorem parseDate_bytes (hnow : now ≠ -1) (d : DateText) (hs : d.Spaced) (h : d.EndsBefore rest) :
    ((∀ y ∈ d.year, y.year.value < 38) → (d.fields (localtime zone now)).InRange →
      (d.fields (localtime zone now)).seconds - zone ≠ -1 →
      parseDate zone now (d.bytes ++ rest) =
        ((d.fields (localtime zone now)).seconds - zone, rest)) ∧
    (((∃ y ∈ d.year, 38 ≤ y.year.value) ∨ ¬ (d.fields (localtime zone now)).InRange) →
      parseDate zone now (d.bytes ++ rest) = (-1, d.bytes ++ rest)) := by
  have hfields : d.fields { localtime zone now with sec := 0 } = d.fields (localtime zone now) := rfl
  rw [parseDate_fields hnow, parseFields_bytes d hs h rfl, hfields]
  refine ⟨fun hy hr hne => ?_, fun hbad => ?_⟩
  · rw [if_pos hy]
    dsimp only
    rw [if_neg (by simp [hne, Tm.ofSeconds_seconds hr])]
  · rcases hbad with ⟨y, hy, hbig⟩ | hr
    · rw [if_neg fun hall => Int.not_lt.mpr hbig (hall y hy)]
    · split_ifs
      · dsimp only
        rw [if_pos (.inr (mt Tm.ofSeconds_seconds_iff.mp hr))]
      · rfl

/-- What is returned was written, and is a time. -/
theorem parseDate_sound (hnow : now ≠ -1) (h : parseDate zone now s = (t, rest)) (ht : t ≠ -1) :
    ∃ d : DateText, d.Spaced ∧ s = d.bytes ++ rest ∧ d.EndsBefore rest ∧
      (∀ y ∈ d.year, y.year.value < 38) ∧ (d.fields (localtime zone now)).InRange ∧
      t = (d.fields (localtime zone now)).seconds - zone := by
  rw [parseDate_fields hnow] at h
  cases hf : parseFields { localtime zone now with sec := 0 } s with
  | none =>
    rw [hf] at h
    cases h
    exact absurd rfl ht
  | some p =>
    obtain ⟨tm, cur⟩ := p
    rw [hf] at h
    dsimp only at h
    split_ifs at h with hbad
    · cases h
      exact absurd rfl ht
    · cases h
      obtain ⟨d, hs, hbytes, hends, hy, rfl⟩ := parseFields_sound rfl hf
      rw [not_or, not_not] at hbad
      exact ⟨d, hs, hbytes, hends, hy, Tm.ofSeconds_seconds_iff.mp hbad.2, rfl⟩

end Dates

end Botniklas
