import Botniklas.Foundation.AddressSpace
import Botniklas.RingBuffer

/-! The pages behind the read buffer: how `set_up_mirroring` maps them, and the buffer
functions on what is mapped. -/
namespace Botniklas
open Foundation Irc Mem

/-- `shm` are the shared memory objects by name, `fds` the open descriptors. -/
structure Process where
  pid : Nat
  space : AddressSpace
  shm : List Bytes
  fds : List Nat

abbrev System := EStateM Stop Process

/-- What the system calls of `set_up_mirroring` answer, none and false for their errors.
`shm_open` gives a descriptor and the object behind it. -/
structure MirrorAnswers where
  pageSize : Option Nat
  reserved : Option Nat
  shmOpened : Option (Nat × Nat)
  shmUnlinked : Bool
  truncated : Bool
  mappedFirst : Bool
  mappedSecond : Bool
  closed : Bool
  deriving DecidableEq, Repr

section SetUp

/-- The result of a call, or `err_exit`. -/
def orExit {α : Type} (text : String) : Option α → System α
  | some a => pure a
  | none => throw (.exited text)

def check (text : String) (answer : Bool) : System Unit :=
  if answer then pure () else throw (.exited text)

/-- `mmap` at `lo`, over what was there. -/
def mmap (lo length : Nat) (f : Nat → Mapping) : System Unit :=
  modify fun p => { p with space := p.space.map lo length f }

def loadByte (a : Nat) : System UInt8 := fun p =>
  match p.space.load a with
  | some b => .ok b p
  | none => .error .unmapped p

def storeByte (a : Nat) (b : UInt8) : System Unit := fun p =>
  match p.space.store a b with
  | some space => .ok () { p with space }
  | none => .error .unmapped p

/-- The value of `i % 10` in a byte. -/
def digitAt (i : Nat) : UInt8 := .ofNat (i % 10)

def brokenMirror : Stop := .exited "message read buffer: memory mirror is broken"

/-- The first loop of `test_mirroring`. -/
def fillPage (buf : Nat) : (left i : Nat) → System Unit
  | 0, _ => pure ()
  | left + 1, i => do
    storeByte (buf + i) (digitAt i)
    fillPage buf left (i + 1)

/-- The second one. -/
def comparePage (buf pageSize : Nat) : (left i : Nat) → System Unit
  | 0, _ => pure ()
  | left + 1, i => do
    if (← loadByte (buf + (pageSize + i))) = digitAt i then comparePage buf pageSize left (i + 1)
    else throw brokenMirror

def testMirroring (buf pageSize : Nat) : System Unit := do
  fillPage buf pageSize 0
  comparePage buf pageSize pageSize 0

def shmTmpName (pid : Nat) : Bytes := ascii "/botniklas-ring-buffer-" ++ decimal pid

/-- With `O_CREAT` and `O_EXCL`, so a name in use is an error. -/
def shmOpen (name : Bytes) (answer : Option (Nat × Nat)) : System (Nat × Nat) := do
  let p ← get
  if name ∈ p.shm then throw (.exited "shm_open (message read buffer)")
  else
    let (fd, object) ← orExit "shm_open (message read buffer)" answer
    set { p with shm := name :: p.shm, fds := fd :: p.fds }
    return (fd, object)

/-- Returns `buf` and `page_size`. -/
def setUpMirroring (k : MirrorAnswers) : System (Nat × Nat) := do
  let pageSize ← orExit "sysconf(_SC_PAGESIZE) (message read buffer)" k.pageSize
  check "message read buffer: page size too small (%ld bytes)" (512 ≤ pageSize)
  let buf ← orExit "mmap setup (message read buffer)" k.reserved
  mmap buf (4 * pageSize) fun _ => .noAccess
  let shmName := shmTmpName (← get).pid
  let (fd, object) ← shmOpen shmName k.shmOpened
  check "shm_unlink (message read buffer)" k.shmUnlinked
  modify fun p => { p with shm := p.shm.erase shmName }
  check "ftruncate (message read buffer)" k.truncated
  modify fun p => { p with space := p.space.truncate object pageSize }
  check "mmap first (message read buffer)" k.mappedFirst
  mmap buf pageSize (.byte object)
  check "mmap second (message read buffer)" k.mappedSecond
  mmap (buf + pageSize) pageSize (.byte object)
  check "close (message read buffer)" k.closed
  modify fun p => { p with fds := p.fds.erase fd }
  testMirroring buf pageSize
  return (buf, pageSize)

end SetUp

/-! What the set-up leaves. -/

/-- Documented behaviour: the addresses handed out are not in use, and no address stands for
a new object. -/
structure MirrorAnswers.Obeys (k : MirrorAnswers) (p : Process) : Prop where
  reserved : ∀ buf ∈ k.reserved, ∀ pageSize ∈ k.pageSize, ∀ i < 4 * pageSize,
    p.space.mapping (buf + i) = .unmapped
  opened : ∀ fd object, k.shmOpened = some (fd, object) →
    ∀ a i, p.space.mapping a ≠ .byte object i

/-- The page after the test. -/
def testPage (pageSize : Nat) : Mem (.mirror pageSize) := ⟨digitAt⟩

/-- Two pages that show one object, two that give no access, and else what there was. -/
structure Mirrored (p p' : Process) (buf pageSize object : Nat) : Prop where
  page : 512 ≤ pageSize
  maps : p'.space.Maps buf object (.mirror pageSize)
  shows : p'.space.Shows buf (testPage pageSize)
  guards : ∀ i, 2 * pageSize ≤ i → i < 4 * pageSize → p'.space.mapping (buf + i) = .noAccess
  mapping : ∀ a, a < buf ∨ buf + 4 * pageSize ≤ a → p'.space.mapping a = p.space.mapping a
  load : ∀ a, a < buf ∨ buf + 4 * pageSize ≤ a → p'.space.load a = p.space.load a
  fresh : ∀ i < 4 * pageSize, p.space.mapping (buf + i) = .unmapped
  apart : ∀ a i, p.space.mapping a ≠ .byte object i
  shm : p'.shm = p.shm
  fds : p'.fds = p.fds

/-- Every call that can fail succeeds. -/
structure MirrorAnswers.Grants (k : MirrorAnswers) (p : Process) : Prop where
  pageSize : ∃ pageSize, k.pageSize = some pageSize ∧ 512 ≤ pageSize
  reserved : k.reserved ≠ none
  name : shmTmpName p.pid ∉ p.shm
  shmOpened : k.shmOpened ≠ none
  shmUnlinked : k.shmUnlinked = true
  truncated : k.truncated = true
  mappedFirst : k.mappedFirst = true
  mappedSecond : k.mappedSecond = true
  closed : k.closed = true

/-- The code runs to an end that satisfies `Q`, or exits because of a failure. -/
def Runs {α : Type} (failure : Prop) (x : System α) (p : Process) (Q : α → Process → Prop) : Prop :=
  match x p with
  | .ok a p' => Q a p'
  | .error e _ => failure ∧ e ≠ .unmapped ∧ e ≠ brokenMirror

section Runs
variable {α β : Type} {failure : Prop} {x : System α} {f : α → System β} {p : Process}
  {Q : α → Process → Prop} {R : β → Process → Prop} {text : String}

theorem Runs.bind (h : Runs failure x p Q) (h' : ∀ a p', Q a p' → Runs failure (f a) p' R) :
    Runs failure (x >>= f) p R := by
  unfold Runs at h ⊢
  change match EStateM.bind x f p with | .ok a p' => R a p' | .error e _ => _
  unfold EStateM.bind
  cases hx : x p with
  | ok a p' =>
    rw [hx] at h
    exact h' a p' h
  | error e p' =>
    rw [hx] at h
    exact h

theorem Runs.imp {Q' : α → Process → Prop} (h : Runs failure x p Q)
    (h' : ∀ a p', Q a p' → Q' a p') : Runs failure x p Q' := by
  unfold Runs at h ⊢
  cases hx : x p with
  | ok a p' =>
    rw [hx] at h
    exact h' a p' h
  | error e p' =>
    rw [hx] at h
    exact h

theorem orExit_runs {answer : Option α} (ht : Stop.exited text ≠ brokenMirror)
    (hf : answer = none → failure) :
    Runs failure (orExit text answer) p fun a p' => answer = some a ∧ p' = p := by
  cases answer with
  | none => exact ⟨hf rfl, nofun, ht⟩
  | some a => exact ⟨rfl, rfl⟩

theorem check_runs {answer : Bool} (ht : Stop.exited text ≠ brokenMirror)
    (hf : answer ≠ true → failure) :
    Runs failure (check text answer) p fun _ p' => answer = true ∧ p' = p := by
  cases answer with
  | false => exact ⟨hf nofun, nofun, ht⟩
  | true => exact ⟨rfl, rfl⟩

theorem modify_runs {g : Process → Process} : Runs failure (modify g) p fun _ p' => p' = g p := rfl

theorem get_runs : Runs failure get p fun p₁ p' => p₁ = p ∧ p' = p := ⟨rfl, rfl⟩

theorem shmOpen_runs {name : Bytes} {answer : Option (Nat × Nat)}
    (hf : name ∈ p.shm ∨ answer = none → failure) :
    Runs failure (shmOpen name answer) p fun r p' => answer = some r ∧
      p' = { p with shm := name :: p.shm, fds := r.1 :: p.fds } := by
  apply get_runs.bind
  rintro p₁ p₂ ⟨rfl, rfl⟩
  by_cases hname : name ∈ p₂.shm
  · rw [if_pos hname]
    exact ⟨hf (.inl hname), nofun, by decide⟩
  · rw [if_neg hname]
    apply (orExit_runs (by decide) fun hnone => hf (.inr hnone)).bind
    rintro r _ ⟨hanswer, rfl⟩
    exact ⟨hanswer, rfl⟩

end Runs

section Test
variable {p : Process} {buf pageSize object : Nat}

private theorem fillPage_eq {left i : Nat} {space : AddressSpace}
    (h : p.space.storeAll (buf + i) ((List.range' i left).map digitAt) = some space) :
    fillPage buf left i p = .ok () { p with space } := by
  induction left generalizing i p with
  | zero =>
    cases h
    rfl
  | succ left ih =>
    obtain ⟨space₁, hstore, hrest⟩ := Option.bind_eq_some_iff.mp h
    unfold fillPage storeByte
    simp only [bind, EStateM.bind, hstore]
    exact ih (p := { p with space := space₁ }) hrest

private theorem comparePage_eq {left i : Nat}
    (h : ∀ j, i ≤ j → j < i + left → p.space.load (buf + (pageSize + j)) = some (digitAt j)) :
    comparePage buf pageSize left i p = .ok () p := by
  induction left generalizing i with
  | zero => rfl
  | succ left ih =>
    unfold comparePage loadByte
    simp only [bind, EStateM.bind, h i (le_refl _) (by omega), if_pos]
    exact ih fun j hj hj' => h j (by omega) (by omega)

/-- The test passes on a mirrored page, in which it leaves its digits. -/
theorem testMirroring_runs {failure : Prop} (h : p.space.Maps buf object (.mirror pageSize)) :
    Runs failure (testMirroring buf pageSize) p fun _ p' => ∃ space, p' = { p with space } ∧
      AddressSpace.Stores object p.space space ∧ space.Shows buf (testPage pageSize) := by
  have hlen : ((List.range' 0 pageSize).map digitAt).length = pageSize := by simp
  obtain ⟨space, hstore, hkept, hshows⟩ := h.storeAll h.shows (i := 0)
    ((List.range' 0 pageSize).map digitAt) (by rw [hlen]; change _ ≤ 2 * pageSize; omega)
  have hholds := holds_storeAll (⟨p.space.byte object⟩ : Mem (.mirror pageSize)) 0
    ((List.range' 0 pageSize).map digitAt) (Layout.mirror_distinct pageSize _ _ (by omega))
  rw [holds_iff] at hholds
  have htest : space.Shows buf (testPage pageSize) := by
    intro i hi
    have hlt : i % pageSize < pageSize := Nat.mod_lt i (by change i < 2 * pageSize at hi; omega)
    have hdigit := hholds (i % pageSize) (by rw [hlen]; exact hlt)
    rw [hshows i hi]
    simp only [List.getElem_map, List.getElem_range', Nat.zero_add, Nat.one_mul] at hdigit
    change some (Mem.byte _ (i % pageSize)) = some (digitAt (i % pageSize))
    rw [← hdigit]
    change _ = some (Mem.byte _ (i % pageSize % pageSize))
    rw [Nat.mod_mod]
  have hfill := fillPage_eq (p := p) (i := 0) hstore
  have hcompare : comparePage buf pageSize pageSize 0 { p with space } = .ok () { p with space } := by
    refine comparePage_eq fun j _ hj => ?_
    rw [Nat.zero_add] at hj
    have hload := htest (pageSize + j) (by change _ < 2 * pageSize; omega)
    refine hload.trans (congrArg some ?_)
    change digitAt ((pageSize + j) % pageSize) = digitAt j
    rw [Nat.add_mod_left, Nat.mod_eq_of_lt hj]
  unfold Runs testMirroring
  simp only [bind, EStateM.bind, hfill, hcompare]
  exact ⟨space, rfl, hkept, htest⟩

end Test

/-- The address space once both pages are mapped. -/
def mirrorSpace (s : AddressSpace) (buf pageSize object : Nat) : AddressSpace :=
  (((s.map buf (4 * pageSize) fun _ => .noAccess).truncate object pageSize).map buf pageSize
    (.byte object)).map (buf + pageSize) pageSize (.byte object)

section Mapped
variable {s : AddressSpace} {buf pageSize object a : Nat}

theorem mirrorSpace_maps (s : AddressSpace) (buf pageSize object : Nat) :
    (mirrorSpace s buf pageSize object).Maps buf object (.mirror pageSize) := by
  apply AddressSpace.maps_mirror
  unfold AddressSpace.truncate
  dsimp only
  rw [Function.update_self]

theorem mirrorSpace_guards {i : Nat} (hi : 2 * pageSize ≤ i) (hi' : i < 4 * pageSize) :
    (mirrorSpace s buf pageSize object).mapping (buf + i) = .noAccess := by
  unfold mirrorSpace
  rw [AddressSpace.map_outside _ _ (by omega), AddressSpace.map_outside _ _ (by omega)]
  exact AddressSpace.map_inside s (fun _ => .noAccess) hi'

theorem mirrorSpace_mapping (ha : a < buf ∨ buf + 4 * pageSize ≤ a) :
    (mirrorSpace s buf pageSize object).mapping a = s.mapping a := by
  unfold mirrorSpace
  rw [AddressSpace.map_outside _ _ (by omega), AddressSpace.map_outside _ _ (by omega)]
  exact AddressSpace.map_outside s (fun _ => .noAccess) ha

theorem mirrorSpace_load (ha : a < buf ∨ buf + 4 * pageSize ≤ a)
    (hnew : ∀ i, s.mapping a ≠ .byte object i) :
    (mirrorSpace s buf pageSize object).load a = s.load a := by
  refine AddressSpace.load_congr (mirrorSpace_mapping ha) fun other i hother => ?_
  have hne : other ≠ object := by
    rintro rfl
    exact hnew i hother
  exact ⟨Function.update_of_ne hne _ _, Function.update_of_ne hne _ _⟩

end Mapped

/-- If no call fails, the pages are mapped as they should be. -/
theorem setUpMirroring_runs {k : MirrorAnswers} {p : Process} (hk : k.Obeys p) :
    Runs (¬ k.Grants p) (setUpMirroring k) p fun r p' => ∃ object, Mirrored p p' r.1 r.2 object := by
  refine Runs.bind (orExit_runs (by decide) fun hnone hg => ?_) ?_
  · obtain ⟨pageSize, hpage, -⟩ := hg.pageSize
    cases hnone.symm.trans hpage
  rintro pageSize _ ⟨hpage, rfl⟩
  refine Runs.bind (check_runs (by decide) fun hsmall hg => hsmall (decide_eq_true ?_)) ?_
  · obtain ⟨pageSize', hpage', hle⟩ := hg.pageSize
    cases hpage.symm.trans hpage'
    exact hle
  rintro - _ ⟨hsize, rfl⟩
  refine Runs.bind (orExit_runs (by decide) fun hnone hg => hg.reserved hnone) ?_
  rintro buf p ⟨hbuf, rfl⟩
  refine Runs.bind modify_runs ?_
  rintro - p₁ rfl
  refine Runs.bind (Q := fun q p' => q = p' ∧ p' = _) ⟨rfl, rfl⟩ ?_
  rintro - _ ⟨rfl, rfl⟩
  refine Runs.bind (shmOpen_runs fun hfail hg => hfail.elim hg.name hg.shmOpened) ?_
  rintro ⟨fd, object⟩ _ ⟨hopen, rfl⟩
  refine Runs.bind (check_runs (by decide) fun hfail hg => hfail hg.shmUnlinked) ?_
  rintro - _ ⟨-, rfl⟩
  refine Runs.bind modify_runs ?_
  rintro - _ rfl
  refine Runs.bind (check_runs (by decide) fun hfail hg => hfail hg.truncated) ?_
  rintro - _ ⟨-, rfl⟩
  refine Runs.bind modify_runs ?_
  rintro - _ rfl
  refine Runs.bind (check_runs (by decide) fun hfail hg => hfail hg.mappedFirst) ?_
  rintro - _ ⟨-, rfl⟩
  refine Runs.bind modify_runs ?_
  rintro - _ rfl
  refine Runs.bind (check_runs (by decide) fun hfail hg => hfail hg.mappedSecond) ?_
  rintro - _ ⟨-, rfl⟩
  refine Runs.bind modify_runs ?_
  rintro - _ rfl
  refine Runs.bind (check_runs (by decide) fun hfail hg => hfail hg.closed) ?_
  rintro - _ ⟨-, rfl⟩
  refine Runs.bind modify_runs ?_
  rintro - _ rfl
  have hnew := hk.opened fd object hopen
  have hmaps := mirrorSpace_maps p.space buf pageSize object
  refine Runs.bind (testMirroring_runs (p := { p with
    space := mirrorSpace p.space buf pageSize object
    shm := (shmTmpName p.pid :: p.shm).erase (shmTmpName p.pid)
    fds := (fd :: p.fds).erase fd }) hmaps) ?_
  rintro - _ ⟨space, rfl, hkept, hshows⟩
  refine ⟨object, of_decide_eq_true hsize, hmaps.stores hkept, hshows, fun i hi hi' => ?_,
    fun a ha => ?_, fun a ha => ?_, hk.reserved buf hbuf pageSize hpage, hnew,
    List.erase_cons_head _ _, List.erase_cons_head _ _⟩
  · exact (congrFun hkept.mapping _).trans (mirrorSpace_guards hi hi')
  · exact (congrFun hkept.mapping _).trans (mirrorSpace_mapping ha)
  · refine (hkept.load fun i => ?_).trans (mirrorSpace_load ha (hnew a))
    dsimp only
    rw [mirrorSpace_mapping ha]
    exact hnew a i

end Botniklas
