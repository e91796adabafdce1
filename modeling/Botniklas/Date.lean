import Botniklas.Foundation.Ascii
import Botniklas.Foundation.Calendar
import Botniklas.Bot

/-! Parsing a date. A cursor is the rest of the string; its end is the
terminator. -/
namespace Botniklas
open Foundation

/-- One or two digits, behind whitespace if that is accepted. -/
def parseOneOrTwoDigits (s : Bytes) (acceptLeadingWs : Bool) : Option (Int × Bytes) :=
  match if acceptLeadingWs then s.dropWhile isspace else s with
  | [] => none
  | a :: cur =>
    if isdigit a then
      match cur with
      | [] => some (digit a, [])
      | b :: rest =>
        if isdigit b then some (10 * digit a + digit b, rest) else some (digit a, b :: rest)
    else none

/-- `EAT`. -/
def eat (s : Bytes) (c : UInt8) : Option Bytes :=
  match s with
  | [] => none
  | b :: rest => if b = c then some rest else none

/-- From the space before the year. None stands for `return -1`. -/
def parseYear (tm : Tm) (cur : Bytes) : Option (Tm × Bytes) :=
  match parseOneOrTwoDigits cur true with
  | none => some (tm, cur)
  | some (year, cur) => if year ≥ 38 then none else some ({ tm with year := year + 100 }, cur)

/-- From the label `parse_day`. -/
def parseDay (tm : Tm) (cur : Bytes) : Option (Tm × Bytes) :=
  match parseOneOrTwoDigits cur true with
  | none => some (tm, cur)
  | some (mday, cur) => do
    let cur ← eat cur slash
    let (mon, cur) ← parseOneOrTwoDigits cur false
    let tm := { tm with mday, mon := mon - 1 }
    if cur.head? = some space then parseYear tm cur else some (tm, cur)

/-- Everything before the label `got_time`. -/
def parseFields (tm : Tm) (s : Bytes) : Option (Tm × Bytes) := do
  let (hour, cur) ← parseOneOrTwoDigits s true
  let cur ← eat cur colon
  let (min, cur) ← parseOneOrTwoDigits cur false
  let tm := { tm with hour, min }
  if cur.head? = some colon then
    let (sec, cur) ← parseOneOrTwoDigits cur.tail false
    let tm := { tm with sec }
    if cur.head? = some space then parseDay tm cur else some (tm, cur)
  else if cur.head? = some space then parseDay tm cur
  else some (tm, cur)

/-- The time and the new cursor; -1 and the old cursor when the time is
malformed or invalid. -/
def parseDate (zone now : Int) (s : Bytes) : Int × Bytes :=
  match getCurrentTime zone now with
  | none => (-1, s)
  | some tm =>
    match parseFields { tm with sec := 0 } s with
    | none => (-1, s)
    | some (tm, cur) =>
      let (res, adjusted) := mktime zone tm
      if res = -1 then (-1, s)
      else if adjusted ≠ tm then (-1, s)
      else (res, cur)

private theorem suffix_digits {s rest : Bytes} {ws : Bool} {n : Int}
    (h : parseOneOrTwoDigits s ws = some (n, rest)) : rest <:+ s := by
  have hdrop : (if ws then s.dropWhile isspace else s) <:+ s := by
    split
    · exact List.dropWhile_suffix _
    · exact List.suffix_refl _
  unfold parseOneOrTwoDigits at h
  generalize (if ws then s.dropWhile isspace else s) = t at h hdrop
  refine List.IsSuffix.trans ?_ hdrop
  cases t with
  | nil => cases h
  | cons a cur =>
    dsimp only at h
    split_ifs at h
    cases cur with
    | nil =>
      cases h
      exact List.nil_suffix
    | cons b cur =>
      dsimp only at h
      split_ifs at h <;> cases h
      · exact (List.suffix_cons _ _).trans (List.suffix_cons _ _)
      · exact List.suffix_cons _ _

private theorem suffix_eat {s rest : Bytes} {c : UInt8} (h : eat s c = some rest) : rest <:+ s := by
  unfold eat at h
  cases s with
  | nil => cases h
  | cons b s =>
    dsimp only at h
    split_ifs at h
    cases h
    exact List.suffix_cons _ _

private theorem suffix_year {tm tm' : Tm} {s rest : Bytes} (h : parseYear tm s = some (tm', rest)) :
    rest <:+ s := by
  unfold parseYear at h
  split at h
  · cases h
    exact List.suffix_refl _
  · rename_i hd
    split_ifs at h
    cases h
    exact suffix_digits hd

private theorem suffix_day {tm tm' : Tm} {s rest : Bytes} (h : parseDay tm s = some (tm', rest)) :
    rest <:+ s := by
  unfold parseDay at h
  split at h
  · cases h
    exact List.suffix_refl _
  · rename_i hd
    simp only [Option.bind_eq_bind, Option.bind_eq_some_iff] at h
    obtain ⟨cur, he, ⟨mon, cur'⟩, hd', h⟩ := h
    have hs := (suffix_digits hd').trans ((suffix_eat he).trans (suffix_digits hd))
    dsimp only at h
    split_ifs at h
    · exact (suffix_year h).trans hs
    · cases h
      exact hs

private theorem suffix_fields {tm tm' : Tm} {s rest : Bytes}
    (h : parseFields tm s = some (tm', rest)) : rest <:+ s := by
  unfold parseFields at h
  simp only [Option.bind_eq_bind, Option.bind_eq_some_iff] at h
  obtain ⟨⟨hour, cur⟩, hd, cur₁, he, ⟨min, cur₂⟩, hd', h⟩ := h
  have hs := (suffix_digits hd').trans ((suffix_eat he).trans (suffix_digits hd))
  dsimp only at h
  split_ifs at h with hc hsp
  · simp only [Option.bind_eq_some_iff] at h
    obtain ⟨⟨sec, cur₃⟩, hd'', h⟩ := h
    have hs' := (suffix_digits hd'').trans ((List.tail_suffix _).trans hs)
    dsimp only at h
    split_ifs at h
    · exact (suffix_day h).trans hs'
    · cases h
      exact hs'
  · exact (suffix_day h).trans hs
  · cases h
    exact hs

/-- The cursor only moves forward over the string. -/
theorem parseDate_suffix (zone now : Int) (s : Bytes) : (parseDate zone now s).2 <:+ s := by
  unfold parseDate
  split
  · exact List.suffix_refl _
  · split
    · exact List.suffix_refl _
    · rename_i hf
      dsimp only
      split_ifs
      · exact List.suffix_refl _
      · exact List.suffix_refl _
      · exact suffix_fields hf

end Botniklas
