import Botniklas.Foundation.Memory
import Mathlib.Data.List.AList

/-! Arrays in a heap, each with its bounds, and who owns them. -/
namespace Botniklas.Foundation

/-- An allocated array. -/
structure Block where
  size : Nat
  mem : Mem (.flat size)

namespace Block

/-- None for a read past the end, here and below. -/
def strlen (b : Block) (p : Nat) : Option Nat := (b.mem.find (· = 0) p).map (· - p)

def cstr (b : Block) (p : Nat) : Option (List UInt8) := (b.strlen p).map fun _ => b.mem.cstr p

/-- These bytes and no more. -/
structure Holds (b : Block) (w : List UInt8) : Prop where
  size : b.size = w.length
  bytes : b.mem.Holds 0 w

section Holds
variable {b : Block} {u v w : List UInt8}

/-- A string inside an array. -/
theorem Holds.string (h : b.Holds (u ++ (v ++ 0 :: w))) (hv : 0 ∉ v) :
    b.strlen u.length = some v.length ∧ b.cstr u.length = some v := by
  have hbytes := h.bytes
  rw [← List.singleton_append (l := w), ← List.append_assoc v, Mem.holds_append,
    Mem.holds_append, Nat.zero_add] at hbytes
  have hsize := h.size
  rw [List.length_append, List.length_append, List.length_cons] at hsize
  have hlt : u.length + v.length < (Layout.flat b.size).size := by
    change _ < b.size
    omega
  have hstrlen : b.strlen u.length = some v.length := by
    unfold strlen
    rw [Mem.find_eq b.mem _ hbytes.2.1 (fun x hx => ?_) (decide_eq_true rfl) hlt]
    · exact congrArg some (Nat.add_sub_cancel_left _ _)
    · exact decide_eq_false fun he => hv (he ▸ hx)
  refine ⟨hstrlen, ?_⟩
  unfold cstr
  rw [hstrlen]
  exact congrArg some (Mem.cstr_eq ⟨hbytes.2.1, hv⟩ hlt)

/-- An array written from its start to its end. -/
theorem holds_storeAll (mem : Mem (.flat w.length)) : (⟨w.length, mem.storeAll 0 w⟩ : Block).Holds w :=
  ⟨rfl, Mem.holds_storeAll mem 0 w (Layout.flat_distinct _ _ _)⟩

/-- An array written in two parts. -/
theorem holds_storeAll_storeAll {size cut : Nat} (mem : Mem (.flat size))
    (hsize : size = v.length + w.length) (hcut : cut = v.length) :
    (⟨size, (mem.storeAll 0 v).storeAll cut w⟩ : Block).Holds (v ++ w) := by
  subst hsize hcut
  refine ⟨List.length_append.symm, (Mem.holds_append _ _ _ _).mpr ⟨?_, ?_⟩⟩
  · have hwithin := Mem.within_storeAll (mem.storeAll 0 v) v.length w le_rfl le_rfl
    apply hwithin.holds (Layout.flat_distinct _ 0 (v.length + w.length)) (Nat.zero_le _) le_rfl
      le_rfl
    · omega
    · exact .inl (Nat.zero_add _).le
    · exact Mem.holds_storeAll mem 0 v (Layout.flat_distinct _ _ _)
  · rw [Nat.zero_add]
    exact Mem.holds_storeAll _ _ w (Layout.flat_distinct _ _ _)

end Holds
end Block

/-- The arrays allocated, by their addresses. -/
structure Heap where
  blocks : AList fun _ : Nat => Block

namespace Heap

def empty : Heap := ⟨∅⟩

def lookup (h : Heap) (p : Nat) : Option Block := h.blocks.lookup p

def alloc (h : Heap) (p : Nat) (b : Block) : Heap := ⟨h.blocks.insert p b⟩

/-- None if nothing is allocated at the address. -/
def free (h : Heap) (p : Nat) : Option Heap :=
  if p ∈ h.blocks then some ⟨h.blocks.erase p⟩ else none

/-- What is allocated is what these pointers point to, each to an array of its own. -/
structure Owns (h : Heap) (ptrs : List Nat) : Prop where
  nodup : ptrs.Nodup
  allocated : ∀ p, p ∈ h.blocks ↔ p ∈ ptrs

section Owns
variable {h : Heap} {ptrs ptrs' : List Nat} {p q : Nat} {b : Block}

theorem empty_owns : empty.Owns [] :=
  ⟨List.nodup_nil, fun _ => iff_of_false (AList.notMem_empty _) List.not_mem_nil⟩

theorem exists_fresh (h : Heap) : ∃ p, p ∉ h.blocks := by
  have habove : ∀ l : List Nat, ∃ n, ∀ p ∈ l, p < n := by
    intro l
    induction l with
    | nil => exact ⟨0, nofun⟩
    | cons q l ih =>
      obtain ⟨n, hn⟩ := ih
      refine ⟨max (q + 1) n, List.forall_mem_cons.mpr ⟨Nat.le_max_left _ _, fun p hp => ?_⟩⟩
      exact (hn p hp).trans_le (Nat.le_max_right _ _)
  obtain ⟨n, hn⟩ := habove h.blocks.keys
  exact ⟨n, fun hin => Nat.lt_irrefl n (hn n (AList.mem_keys.mp hin))⟩

theorem Owns.perm (ho : h.Owns ptrs) (hp : ptrs.Perm ptrs') : h.Owns ptrs' :=
  ⟨hp.nodup_iff.mp ho.nodup, fun q => (ho.allocated q).trans hp.mem_iff⟩

theorem lookup_alloc : (h.alloc p b).lookup p = some b := AList.lookup_insert _

theorem lookup_alloc_of_ne (hne : q ≠ p) : (h.alloc p b).lookup q = h.lookup q :=
  AList.lookup_insert_ne hne

theorem Owns.alloc (ho : h.Owns ptrs) (hfresh : p ∉ h.blocks) :
    (h.alloc p b).Owns (p :: ptrs) := by
  refine ⟨List.nodup_cons.mpr ⟨mt (ho.allocated p).mpr hfresh, ho.nodup⟩, fun q => ?_⟩
  unfold Heap.alloc
  rw [AList.mem_insert, List.mem_cons, ho.allocated]

/-- What a pointer owns can be freed, and the others keep theirs. -/
theorem Owns.free (ho : h.Owns (p :: ptrs)) :
    ∃ h', h.free p = some h' ∧ h'.Owns ptrs ∧ ∀ q ∈ ptrs, h'.lookup q = h.lookup q := by
  obtain ⟨hnot, hnodup⟩ := List.nodup_cons.mp ho.nodup
  refine ⟨_, if_pos ((ho.allocated p).mpr List.mem_cons_self), ⟨hnodup, fun q => ?_⟩, fun q hq => ?_⟩
  · rw [AList.mem_erase, ho.allocated, List.mem_cons]
    constructor
    · rintro ⟨hne, he | hq⟩
      · exact absurd he hne
      · exact hq
    · exact fun hq => ⟨fun he => hnot (he ▸ hq), .inr hq⟩
  · exact AList.lookup_erase_ne fun he => hnot (he ▸ hq)

end Owns
end Heap
end Botniklas.Foundation
