import Botniklas.Foundation.Ascii
import Botniklas.Foundation.Pieces

/-! Command lines as `getopt` reads them: words that are options, their arguments, and
operands, which may stand anywhere. -/
namespace Botniklas.Foundation

@[simp] abbrev dash : UInt8 := 45

/-- What is found: an option, or a letter that is none, or one whose argument is missing. -/
inductive Opt where
  | flag (c : UInt8)
  | argument (c : UInt8) (arg : Bytes)
  | unknown (c : UInt8)
  | missing (c : UInt8)
  deriving DecidableEq, Repr

/-- An option, with its argument. -/
def Opt.Found : Opt → Prop
  | flag _ => True
  | argument _ _ => True
  | unknown _ => False
  | missing _ => False

/-- A word that is no operand. -/
def isOption : Bytes → Bool
  | b :: _ :: _ => b = dash
  | _ => false

/-- Whether a letter is an option, and if it takes an argument: it has a colon behind it. -/
def optSpec (optstring : Bytes) (c : UInt8) : Option Bool :=
  if c = colon ∨ c = 59 then none
  else
    match optstring.dropWhile (· ≠ c) with
    | [] => none
    | _ :: rest => some (rest.head? = some colon)

section Getopt
-- Of each letter that is an option: whether it takes an argument.
variable (spec : UInt8 → Option Bool)

/-- The letters of a word, and the one that takes the next word, if any. -/
def cluster : Bytes → List Opt × Option UInt8
  | [] => ([], none)
  | c :: cs =>
    match spec c with
    | none => (.unknown c :: (cluster cs).1, (cluster cs).2)
    | some false => (.flag c :: (cluster cs).1, (cluster cs).2)
    | some true => if cs = [] then ([], some c) else ([.argument c cs], none)

/-- The options, and the operands behind them once the words have been rearranged. -/
def getopt : List Bytes → List Opt × List Bytes
  | [] => ([], [])
  | word :: words =>
    if word = [dash, dash] then ([], words)
    else if isOption word then
      match cluster spec word.tail, words with
      | (opts, none), words => (opts ++ (getopt words).1, (getopt words).2)
      | (opts, some c), [] => (opts ++ [.missing c], [])
      | (opts, some c), arg :: words => (opts ++ .argument c arg :: (getopt words).1, (getopt words).2)
    else ((getopt words).1, word :: (getopt words).2)

end Getopt

/-- A word or two of a command line in which nothing is wrong. -/
inductive Item (spec : UInt8 → Option Bool) where
  | operand (word : Bytes) (h : isOption word = false)
  | flags (cs : Bytes) (hne : cs ≠ []) (hcs : ∀ c ∈ cs, spec c = some false)
  | attached (cs : Bytes) (c : UInt8) (arg : Bytes) (hcs : ∀ c ∈ cs, spec c = some false)
    (hc : spec c = some true) (harg : arg ≠ [])
  | detached (cs : Bytes) (c : UInt8) (arg : Bytes) (hcs : ∀ c ∈ cs, spec c = some false)
    (hc : spec c = some true)

namespace Item
variable {spec : UInt8 → Option Bool}

def words : Item spec → List Bytes
  | operand word _ => [word]
  | flags cs _ _ => [dash :: cs]
  | attached cs c arg _ _ _ => [dash :: (cs ++ c :: arg)]
  | detached cs c arg _ _ => [dash :: (cs ++ [c]), arg]

def opts : Item spec → List Opt
  | operand _ _ => []
  | flags cs _ _ => cs.map .flag
  | attached cs c arg _ _ _ => cs.map .flag ++ [.argument c arg]
  | detached cs c arg _ _ => cs.map .flag ++ [.argument c arg]

def operands : Item spec → List Bytes
  | operand word _ => [word]
  | _ => []

end Item

/-- A command line in which nothing is wrong: behind two dashes all words are operands. -/
structure CommandLine (spec : UInt8 → Option Bool) where
  items : List (Item spec)
  rest : Option (List Bytes)

namespace CommandLine
variable {spec : UInt8 → Option Bool} (l : CommandLine spec)

def words : List Bytes :=
  l.items.flatMap Item.words ++ (match l.rest with
    | none => []
    | some words => [dash, dash] :: words)

def opts : List Opt := l.items.flatMap Item.opts

def operands : List Bytes := l.items.flatMap Item.operands ++ l.rest.getD []

end CommandLine

namespace CommandLine
variable {spec : UInt8 → Option Bool} {l : CommandLine spec}

/-- An argument is the end of a word. -/
theorem exists_word {c : UInt8} {arg : Bytes} (h : Opt.argument c arg ∈ l.opts) :
    ∃ word ∈ l.words, arg <:+ word := by
  obtain ⟨item, hitem, hopt⟩ := List.mem_flatMap.mp h
  have hwords : ∀ word ∈ item.words, word ∈ l.words := fun word hword =>
    List.mem_append_left _ (List.mem_flatMap.mpr ⟨item, hitem, hword⟩)
  have hflags : ∀ cs : Bytes, Opt.argument c arg ∉ cs.map .flag := by simp
  cases item with
  | operand word h => cases hopt
  | flags cs hne hcs => exact absurd hopt (hflags cs)
  | attached cs c' arg' hcs hc harg =>
    obtain ⟨rfl, rfl⟩ := Opt.argument.inj
      (List.mem_singleton.mp ((List.mem_append.mp hopt).resolve_left (hflags cs)))
    exact ⟨_, hwords _ List.mem_cons_self, dash :: (cs ++ [c]), by simp⟩
  | detached cs c' arg' hcs hc =>
    obtain ⟨rfl, rfl⟩ := Opt.argument.inj
      (List.mem_singleton.mp ((List.mem_append.mp hopt).resolve_left (hflags cs)))
    exact ⟨arg, hwords _ (List.mem_cons_of_mem _ List.mem_cons_self), List.suffix_rfl⟩

end CommandLine

section Read
variable {spec : UInt8 → Option Bool} {cs w : Bytes} {opts : List Opt} {c : UInt8}

theorem cluster_append (h : ∀ c ∈ cs, spec c = some false) (w : Bytes) :
    cluster spec (cs ++ w) = (cs.map .flag ++ (cluster spec w).1, (cluster spec w).2) := by
  induction cs with
  | nil => rfl
  | cons c cs ih =>
    obtain ⟨hc, hcs⟩ := List.forall_mem_cons.mp h
    rw [List.cons_append, cluster, hc, ih hcs]
    rfl

theorem cluster_flags (h : ∀ c ∈ cs, spec c = some false) :
    cluster spec cs = (cs.map .flag, none) := by
  have hcs := cluster_append h []
  rwa [List.append_nil, cluster, List.append_nil] at hcs

theorem cluster_attached (h : ∀ c ∈ cs, spec c = some false) (hc : spec c = some true)
    {arg : Bytes} (harg : arg ≠ []) :
    cluster spec (cs ++ c :: arg) = (cs.map .flag ++ [.argument c arg], none) := by
  rw [cluster_append h, cluster, hc]
  dsimp only
  rw [if_neg harg]

theorem cluster_detached (h : ∀ c ∈ cs, spec c = some false) (hc : spec c = some true) :
    cluster spec (cs ++ [c]) = (cs.map .flag, some c) := by
  rw [cluster_append h, cluster, hc]
  dsimp only
  rw [if_pos rfl, List.append_nil]

theorem getopt_operand {word : Bytes} (h : isOption word = false) (words : List Bytes) :
    getopt spec (word :: words) = ((getopt spec words).1, word :: (getopt spec words).2) := by
  have hne : word ≠ [dash, dash] := by
    rintro rfl
    cases h
  rw [getopt.eq_def]
  dsimp only
  rw [if_neg hne, if_neg (by rw [h]; decide)]

theorem isOption_iff {word : Bytes} :
    isOption word = true ↔ ∃ w, w ≠ [] ∧ word = dash :: w := by
  constructor
  · intro h
    match word, h with
    | b :: c :: cs, h =>
      obtain rfl : b = dash := of_decide_eq_true h
      exact ⟨c :: cs, List.cons_ne_nil _ _, rfl⟩
  · rintro ⟨w, hw, rfl⟩
    cases w with
    | nil => exact absurd rfl hw
    | cons c cs => rfl

theorem getopt_closed (hw : w ≠ []) (hne : w ≠ [dash]) (h : cluster spec w = (opts, none))
    (words : List Bytes) : getopt spec ((dash :: w) :: words) =
      (opts ++ (getopt spec words).1, (getopt spec words).2) := by
  rw [getopt.eq_def]
  dsimp only
  rw [if_neg fun he => hne (List.cons.inj he).2, if_pos (isOption_iff.mpr ⟨w, hw, rfl⟩), List.tail_cons, h]

theorem getopt_open (hw : w ≠ []) (hne : w ≠ [dash]) (h : cluster spec w = (opts, some c))
    (arg : Bytes) (words : List Bytes) : getopt spec ((dash :: w) :: arg :: words) =
      (opts ++ .argument c arg :: (getopt spec words).1, (getopt spec words).2) := by
  rw [getopt.eq_def]
  dsimp only
  rw [if_neg fun he => hne (List.cons.inj he).2, if_pos (isOption_iff.mpr ⟨w, hw, rfl⟩), List.tail_cons, h]

/-- An item is read as what it stands for, whatever follows it. -/
theorem getopt_item (hdash : spec dash = none) (item : Item spec) (words : List Bytes) :
    getopt spec (item.words ++ words) =
      (item.opts ++ (getopt spec words).1, item.operands ++ (getopt spec words).2) := by
  cases item with
  | operand word h => exact getopt_operand h words
  | flags cs hne hcs =>
    refine getopt_closed hne ?_ (cluster_flags hcs) words
    rintro rfl
    cases hdash.symm.trans (hcs dash List.mem_cons_self)
  | attached cs c arg hcs hc harg =>
    refine getopt_closed (by simp) ?_ (cluster_attached hcs hc harg) words
    intro he
    have hlen := congrArg List.length he
    have hpos := List.length_pos_iff.mpr harg
    simp at hlen
    omega
  | detached cs c arg hcs hc =>
    have hread := getopt_open (by simp) ?_ (cluster_detached hcs hc) arg words
    · refine hread.trans ?_
      change _ = (cs.map .flag ++ [.argument c arg] ++ (getopt spec words).1, _)
      rw [List.append_assoc]
      rfl
    · intro he
      have hmem : c ∈ [dash] := he ▸ List.mem_append_right _ List.mem_cons_self
      rw [List.mem_singleton.mp hmem, hdash] at hc
      cases hc

/-- A command line is read as what it stands for. -/
theorem getopt_words (hdash : spec dash = none) (l : CommandLine spec) :
    getopt spec l.words = (l.opts, l.operands) := by
  obtain ⟨items, rest⟩ := l
  induction items with
  | nil =>
    cases rest with
    | none => rfl
    | some words =>
      change getopt spec ([dash, dash] :: words) = ([], words)
      rw [getopt.eq_def]
      exact if_pos rfl
  | cons item items ih =>
    have hitem := getopt_item hdash item (CommandLine.words ⟨items, rest⟩)
    rw [ih] at hitem
    unfold CommandLine.words CommandLine.opts CommandLine.operands at *
    rw [List.flatMap_cons, List.flatMap_cons, List.flatMap_cons, List.append_assoc,
      List.append_assoc]
    exact hitem

/-- The letters of a word: flags, and then one that is none, if any. -/
theorem cluster_cases {next : Option UInt8} (h : cluster spec w = (opts, next))
    (hfound : ∀ o ∈ opts, o.Found) : (∀ c ∈ w, spec c = some false) ∨ ∃ cs c arg, w = cs ++ c :: arg ∧
      (∀ c ∈ cs, spec c = some false) ∧ spec c = some true := by
  rcases open_or_cut (fun c => decide (spec c ≠ some false)) w with hall | ⟨cs, c, arg, rfl, hcs, hc⟩
  · exact .inl fun c hc => by simpa using hall c hc
  · have hcs : ∀ c ∈ cs, spec c = some false := fun c hc => by simpa using hcs c hc
    refine .inr ⟨cs, c, arg, rfl, hcs, ?_⟩
    rw [cluster_append hcs, cluster] at h
    cases hspec : spec c with
    | none =>
      rw [hspec] at h
      obtain ⟨rfl, -⟩ := Prod.mk.inj h
      exact (hfound (.unknown c) (List.mem_append_right _ List.mem_cons_self)).elim
    | some takes =>
      cases takes with
      | false => exact absurd hspec (of_decide_eq_true hc)
      | true => rfl

theorem exists_item (hw : w ≠ []) (h : cluster spec w = (opts, none))
    (hfound : ∀ o ∈ opts, o.Found) : ∃ item : Item spec,
      item.words = [dash :: w] ∧ item.opts = opts ∧ item.operands = [] := by
  rcases cluster_cases h hfound with hall | ⟨cs, c, arg, rfl, hcs, hc⟩
  · rw [cluster_flags hall] at h
    exact ⟨.flags w hw hall, rfl, (Prod.mk.inj h).1, rfl⟩
  · by_cases harg : arg = []
    · subst harg
      rw [cluster_detached hcs hc] at h
      cases (Prod.mk.inj h).2
    · rw [cluster_attached hcs hc harg] at h
      exact ⟨.attached cs c arg hcs hc harg, rfl, (Prod.mk.inj h).1, rfl⟩

theorem exists_detached (h : cluster spec w = (opts, some c)) (hfound : ∀ o ∈ opts, o.Found)
    (arg : Bytes) : ∃ item : Item spec, item.words = [dash :: w, arg] ∧
      item.opts = opts ++ [.argument c arg] ∧ item.operands = [] := by
  rcases cluster_cases h hfound with hall | ⟨cs, c', arg', rfl, hcs, hc⟩
  · rw [cluster_flags hall] at h
    cases (Prod.mk.inj h).2
  · by_cases harg : arg' = []
    · subst harg
      rw [cluster_detached hcs hc] at h
      obtain ⟨rfl, hc'⟩ := Prod.mk.inj h
      obtain rfl := Option.some.inj hc'
      exact ⟨.detached cs _ arg hcs hc, rfl, rfl, rfl⟩
    · rw [cluster_attached hcs hc harg] at h
      cases (Prod.mk.inj h).2

/-- A command line with one more item. -/
theorem CommandLine.exists_cons (item : Item spec) (l : CommandLine spec) :
    ∃ l' : CommandLine spec, l'.words = item.words ++ l.words ∧ l'.opts = item.opts ++ l.opts ∧
      l'.operands = item.operands ++ l.operands := by
  refine ⟨⟨item :: l.items, l.rest⟩, ?_, ?_, ?_⟩
  · exact List.append_assoc _ _ _
  · rfl
  · exact List.append_assoc _ _ _

/-- Words in which nothing is found wrong are a command line. -/
theorem exists_commandLine (words : List Bytes) (hfound : ∀ o ∈ (getopt spec words).1, o.Found) :
    ∃ l : CommandLine spec, l.words = words ∧ l.opts = (getopt spec words).1 ∧
      l.operands = (getopt spec words).2 := by
  fun_induction getopt spec words with
  | case1 => exact ⟨⟨[], none⟩, rfl, rfl, rfl⟩
  | case2 words => exact ⟨⟨[], some words⟩, rfl, rfl, rfl⟩
  | case3 word _ hoption opts words hcluster ih =>
    obtain ⟨w, hw, rfl⟩ := isOption_iff.mp hoption
    obtain ⟨hopts, hfound⟩ := List.forall_mem_append.mp hfound
    obtain ⟨item, hwords, hopts, hoperands⟩ := exists_item hw hcluster hopts
    obtain ⟨l, rfl, hopts', hoperands'⟩ := ih hfound
    obtain ⟨l', hl, hl', hl''⟩ := CommandLine.exists_cons item l
    rw [hwords] at hl
    rw [hopts, hopts'] at hl'
    rw [hoperands, hoperands'] at hl''
    exact ⟨l', hl, hl', hl''⟩
  | case4 word _ hoption opts c hcluster =>
    exact (hfound (.missing c) (List.mem_append_right _ List.mem_cons_self)).elim
  | case5 word _ hoption opts c arg words hcluster ih =>
    obtain ⟨w, hw, rfl⟩ := isOption_iff.mp hoption
    obtain ⟨hopts, hfound⟩ := List.forall_mem_append.mp hfound
    obtain ⟨item, hwords, hopts, hoperands⟩ := exists_detached hcluster hopts arg
    obtain ⟨l, rfl, hopts', hoperands'⟩ := ih (List.forall_mem_cons.mp hfound).2
    obtain ⟨l', hl, hl', hl''⟩ := CommandLine.exists_cons item l
    rw [hwords] at hl
    rw [hopts, hopts', List.append_assoc] at hl'
    rw [hoperands, hoperands'] at hl''
    exact ⟨l', hl, hl', hl''⟩
  | case6 word words _ hoption ih =>
    obtain ⟨l, rfl, hopts, hoperands⟩ := ih hfound
    obtain ⟨l', hl, hl', hl''⟩ :=
      CommandLine.exists_cons (.operand word (eq_false_of_ne_true hoption)) l
    rw [hopts] at hl'
    rw [hoperands] at hl''
    exact ⟨l', hl, hl', hl''⟩

end Read
end Botniklas.Foundation
