import Botniklas.Foundation.Ascii
import Mathlib.Data.Nat.Log
import Mathlib.Order.Bounds.Basic

/-! The growing string behind the message writer. -/
namespace Botniklas
open Foundation

/-- Leading zero bits of a nonzero word. -/
def builtinClzll (m : UInt64) : Nat := 63 - Nat.log2 m.toNat

def gePow2 (n : UInt64) : UInt64 :=
  if n < 2 then n else 1 <<< (64 - builtinClzll (n - 1)).toUInt64

/-- The allocated bytes and the length of the text at their start. -/
structure DString where
  buf : Bytes
  len : Nat
  deriving DecidableEq, Repr

namespace DString

def initialBufLen : Nat := 4096

def bufLen (s : DString) : Nat := s.buf.length

/-- Write bytes into a buffer from an offset on. -/
def overwrite (buf : Bytes) (off : Nat) (data : Bytes) : Bytes :=
  buf.take off ++ data ++ buf.drop (off + data.length)

/-- `vsnprintf` of a rendered text: as much of it as `size` allows with its
terminator. -/
def vsnprintf (buf : Bytes) (off size : Nat) (text : Bytes) : Bytes :=
  if size = 0 then buf else overwrite buf off (text.take (size - 1) ++ [nul])

def vsprintf (buf : Bytes) (off : Nat) (text : Bytes) : Bytes := overwrite buf off (text ++ [nul])

/-- The old bytes are kept; the new ones are unspecified, zero here. -/
def erealloc (buf : Bytes) (size : Nat) : Bytes :=
  buf.take size ++ List.replicate (size - buf.length) 0

def stringClear (s : DString) : DString := ⟨overwrite s.buf 0 [nul], 0⟩

def stringInit : DString := stringClear ⟨List.replicate initialBufLen 0, 0⟩

def stringAppendV (s : DString) (text : Bytes) : DString :=
  let newLen := s.len + text.length
  let buf := vsnprintf s.buf s.len (s.bufLen - s.len) text
  if newLen + 1 > s.bufLen then
    let buf := erealloc buf (gePow2 (newLen + 1).toUInt64).toNat
    ⟨vsprintf buf s.len text, newLen⟩
  else ⟨buf, newLen⟩

def stringSetV (s : DString) (text : Bytes) : DString := stringAppendV { s with len := 0 } text

/-- What `string_get` and `string_len` give the writer. -/
def contents (s : DString) : Bytes := s.buf.take s.len

/-! The operations once more, with each write checked against the size of the buffer
at that moment, and with nothing said of what a new block holds. -/

/-- What the bytes of a new block hold. -/
abbrev Heap := Nat → UInt8

/-- None if a byte lies outside the buffer. -/
def overwriteChecked (buf : Bytes) (off : Nat) (data : Bytes) : Option Bytes :=
  if off + data.length ≤ buf.length then some (overwrite buf off data) else none

def vsnprintfChecked (buf : Bytes) (off size : Nat) (text : Bytes) : Option Bytes :=
  if size = 0 then some buf else overwriteChecked buf off (text.take (size - 1) ++ [nul])

def vsprintfChecked (buf : Bytes) (off : Nat) (text : Bytes) : Option Bytes :=
  overwriteChecked buf off (text ++ [nul])

def emallocChecked (heap : Heap) (size : Nat) : Bytes := (List.range size).map heap

def ereallocChecked (heap : Heap) (buf : Bytes) (size : Nat) : Bytes :=
  buf.take size ++ ((List.range size).drop buf.length).map heap

def stringClearChecked (s : DString) : Option DString := do
  return ⟨← overwriteChecked s.buf 0 [nul], 0⟩

def stringInitChecked (heap : Heap) : Option DString :=
  stringClearChecked ⟨emallocChecked heap initialBufLen, 0⟩

def stringAppendVChecked (heap : Heap) (s : DString) (text : Bytes) : Option DString := do
  let newLen := s.len + text.length
  let buf ← vsnprintfChecked s.buf s.len (s.bufLen - s.len) text
  if newLen + 1 > s.bufLen then
    let buf := ereallocChecked heap buf (gePow2 (newLen + 1).toUInt64).toNat
    return ⟨← vsprintfChecked buf s.len text, newLen⟩
  else return ⟨buf, newLen⟩

def stringSetVChecked (heap : Heap) (s : DString) (text : Bytes) : Option DString :=
  stringAppendVChecked heap { s with len := 0 } text

end DString

/-- The count is that of the bits above the highest one set. -/
theorem builtinClzll_eq {m : UInt64} (h : m ≠ 0) : builtinClzll m = m.toBitVec.clz.toNat := by
  have hne : m.toBitVec ≠ 0#64 := fun h0 => h (UInt64.eq_of_toBitVec_eq h0)
  have hlo := BitVec.two_pow_sub_clz_le_toNat_of_ne_zero (by omega) hne
  have hhi := BitVec.toNat_lt_two_pow_sub_clz (x := m.toBitVec)
  have hlt := BitVec.lt_def.mp (BitVec.clz_lt_iff_ne_zero.mpr hne)
  change m.toBitVec.clz.toNat < 64 at hlt
  have hlog : Nat.log2 m.toNat = 63 - m.toBitVec.clz.toNat := by
    refine (Nat.log2_eq_iff ?_).mpr ⟨hlo, ?_⟩
    · exact fun h0 => h (UInt64.toNat_inj.mp h0)
    · exact hhi.trans_le (Nat.pow_le_pow_right (by omega) (by omega))
  unfold builtinClzll
  rw [hlog]
  omega

private theorem toNat_pred {n : UInt64} (h2 : 2 ≤ n.toNat) : (n - 1).toNat = n.toNat - 1 := by
  rw [UInt64.toNat_sub_of_le _ _ (UInt64.le_iff_toNat_le.mpr (by simpa using by omega))]
  rfl

theorem builtinClzll_pred {n : UInt64} (h2 : 2 ≤ n.toNat) (h63 : n.toNat ≤ 2 ^ 63) :
    64 - builtinClzll (n - 1) = Nat.log2 (n.toNat - 1) + 1 ∧ Nat.log2 (n.toNat - 1) < 63 := by
  have hsub := toNat_pred h2
  have hlog : Nat.log2 (n.toNat - 1) < 63 := (Nat.log2_lt (by omega)).mpr (by omega)
  unfold builtinClzll
  rw [hsub]
  omega

/-- From 2 on the shift stays inside the word, so the result is the power of two
it denotes. -/
theorem gePow2_toNat {n : UInt64} (h2 : 2 ≤ n.toNat) (h63 : n.toNat ≤ 2 ^ 63) :
    (gePow2 n).toNat = 2 ^ (Nat.log2 (n.toNat - 1) + 1) := by
  obtain ⟨hshift, hlog⟩ := builtinClzll_pred h2 h63
  have hlt : ¬ n < 2 := by
    rw [UInt64.lt_iff_toNat_lt]
    simpa using by omega
  unfold gePow2
  rw [if_neg hlt, hshift, UInt64.toNat_shiftLeft]
  have hk : (Nat.log2 (n.toNat - 1) + 1).toUInt64.toNat % 64 = Nat.log2 (n.toNat - 1) + 1 := by
    simp
    omega
  rw [hk]
  simp only [UInt64.toNat_one, Nat.one_shiftLeft]
  exact Nat.mod_eq_of_lt (Nat.pow_lt_pow_right (by omega) (by omega))

theorem le_gePow2 {n : UInt64} (h63 : n.toNat ≤ 2 ^ 63) : n.toNat ≤ (gePow2 n).toNat := by
  rcases Nat.lt_or_ge n.toNat 2 with h | h
  · have hlt : n < 2 := by
      rw [UInt64.lt_iff_toNat_lt]
      simpa using h
    unfold gePow2
    rw [if_pos hlt]
  · rw [gePow2_toNat h h63]
    have := Nat.lt_log2_self (n := n.toNat - 1)
    omega

private theorem clog_two {n : Nat} (h2 : 2 ≤ n) : Nat.clog 2 n = Nat.log2 (n - 1) + 1 := by
  apply eq_of_forall_ge_iff
  intro k
  rw [Nat.clog_le_iff_le_pow (by omega), Nat.add_one_le_iff, Nat.log2_lt (by omega)]
  omega

/-- The exponent is the logarithm rounded up. -/
theorem gePow2_clog {n : UInt64} (h1 : 1 ≤ n.toNat) (h63 : n.toNat ≤ 2 ^ 63) :
    (gePow2 n).toNat = 2 ^ Nat.clog 2 n.toNat := by
  rcases Nat.lt_or_ge n.toNat 2 with h | h
  · obtain rfl : n = 1 := UInt64.toNat_inj.mp (by change n.toNat = 1; omega)
    rfl
  · rw [gePow2_toNat h h63, clog_two h]

/-- From 2 on the argument of the count is not 0, the count is that of its leading
zero bits, and the shift is less wide than the word. The result is the least power of
two not below `n`, so it grows with `n`, and a power of two stays as it is. -/
theorem ge_pow_2_least {n : UInt64} (h1 : 1 ≤ n) (h63 : n.toNat ≤ 2 ^ 63) :
    (2 ≤ n → n - 1 ≠ 0 ∧ builtinClzll (n - 1) = (n - 1).toBitVec.clz.toNat ∧
      1 ≤ 64 - builtinClzll (n - 1) ∧ 64 - builtinClzll (n - 1) ≤ 63) ∧
    IsLeast {p | (∃ k, p = 2 ^ k) ∧ n.toNat ≤ p} (gePow2 n).toNat ∧
    (∀ m, n ≤ m → m.toNat ≤ 2 ^ 63 → gePow2 n ≤ gePow2 m) ∧
    gePow2 (gePow2 n) = gePow2 n := by
  have hn : 1 ≤ n.toNat := UInt64.le_iff_toNat_le.mp h1
  have hclog := gePow2_clog hn h63
  refine ⟨fun h2 => ?_, ⟨⟨⟨_, hclog⟩, ?_⟩, ?_⟩, fun m hm hm63 => ?_, ?_⟩
  · have h2' : 2 ≤ n.toNat := UInt64.le_iff_toNat_le.mp h2
    obtain ⟨hshift, hlog⟩ := builtinClzll_pred h2' h63
    have hne : n - 1 ≠ 0 := by
      intro h0
      have hpred := toNat_pred h2'
      rw [h0] at hpred
      change 0 = _ at hpred
      omega
    exact ⟨hne, builtinClzll_eq hne, by omega, by omega⟩
  · rw [hclog]
    exact Nat.le_pow_clog (by omega) _
  · rintro _ ⟨⟨k, rfl⟩, hk⟩
    rw [hclog]
    exact Nat.pow_le_pow_right (by omega) (Nat.clog_le_of_le_pow hk)
  · have hnm := UInt64.le_iff_toNat_le.mp hm
    rw [UInt64.le_iff_toNat_le, hclog, gePow2_clog (hn.trans hnm) hm63]
    exact Nat.pow_le_pow_right (by omega) (Nat.clog_mono_right 2 hnm)
  · apply UInt64.toNat_inj.mp
    have hpos : 1 ≤ 2 ^ Nat.clog 2 n.toNat := Nat.one_le_two_pow
    have hmax : 2 ^ Nat.clog 2 n.toNat ≤ 2 ^ 63 :=
      Nat.pow_le_pow_right (by omega) (Nat.clog_le_of_le_pow h63)
    rw [← hclog] at hpos hmax
    rw [gePow2_clog hpos hmax, hclog, Nat.clog_pow _ _ (by omega)]

/-- One byte more than the first buffer holds. -/
theorem first_growth : IsLeast {p | (∃ k, p = 2 ^ k) ∧ 4097 ≤ p} 8192 :=
  (@ge_pow_2_least 4097 (by decide) (by decide)).2.1

namespace DString

/-- The text ends before the buffer does. -/
structure Fits (s : DString) : Prop where
  room : s.len < s.bufLen
  terminated : s.buf[s.len]? = some nul

theorem length_contents {s : DString} (h : s.len < s.bufLen) : s.contents.length = s.len := by
  unfold bufLen at h
  simp [contents]
  omega

theorem contents_length {s : DString} (h : s.Fits) : s.contents.length = s.len :=
  length_contents h.room

private theorem overwrite_take {buf : Bytes} (data : Bytes) {off : Nat} (h : off ≤ buf.length)
    (n : Nat) (hn : n ≤ data.length) :
    (overwrite buf off data).take (off + n) = buf.take off ++ data.take n := by
  unfold overwrite
  rw [List.append_assoc, List.take_append, List.length_take, Nat.min_eq_left h,
    Nat.add_sub_cancel_left, List.take_append_of_le_length hn]
  congr 1
  exact List.take_of_length_le (by simp)

private theorem overwrite_getElem? {buf data : Bytes} {off : Nat} (h : off ≤ buf.length)
    (b : UInt8) : (overwrite buf off (data ++ [b]))[off + data.length]? = some b := by
  unfold overwrite
  rw [List.append_assoc, List.getElem?_append_right (by simp), List.length_take,
    Nat.min_eq_left h, Nat.add_sub_cancel_left]
  simp

private theorem length_overwrite {buf data : Bytes} {off : Nat}
    (h : off + data.length ≤ buf.length) : (overwrite buf off data).length = buf.length := by
  unfold overwrite
  simp
  omega

theorem stringInit_fits : stringInit.Fits ∧ stringInit.contents = [] := by
  have hlen : (overwrite (List.replicate initialBufLen 0) 0 [nul]).length = initialBufLen :=
    (length_overwrite (by rw [List.length_replicate]; decide)).trans (List.length_replicate ..)
  refine ⟨⟨?_, rfl⟩, rfl⟩
  change 0 < (overwrite (List.replicate initialBufLen 0) 0 [nul]).length
  rw [hlen]
  decide

/-- Formatting into a buffer with room leaves the old text followed by the new one. -/
private theorem vsprintf_fits {buf text : Bytes} {off : Nat} (h : off + text.length < buf.length) :
    Fits ⟨vsprintf buf off text, off + text.length⟩ ∧
      contents ⟨vsprintf buf off text, off + text.length⟩ = buf.take off ++ text := by
  have hoff : off ≤ buf.length := by omega
  refine ⟨⟨?_, ?_⟩, ?_⟩
  · unfold bufLen vsprintf
    dsimp only
    rw [length_overwrite (by simp; omega)]
    exact h
  · exact overwrite_getElem? hoff nul
  · have htake := overwrite_take (text ++ [nul]) hoff text.length (by simp)
    unfold contents vsprintf
    dsimp only
    rw [htake, List.take_left']
    rfl

private theorem vsnprintf_whole (buf : Bytes) (off : Nat) {size : Nat} {text : Bytes}
    (h : text.length < size) : vsnprintf buf off size text = vsprintf buf off text := by
  unfold vsnprintf vsprintf
  rw [if_neg (Nat.ne_zero_of_lt h), List.take_of_length_le (by omega)]

/-- A formatting cut short by the size stays in the buffer and keeps what stands
before it. -/
private theorem vsnprintf_cut {buf : Bytes} {off size : Nat} (text : Bytes)
    (h : off + size ≤ buf.length) : (vsnprintf buf off size text).length = buf.length ∧
      (vsnprintf buf off size text).take off = buf.take off := by
  unfold vsnprintf
  split_ifs with hsize
  · exact ⟨rfl, rfl⟩
  · refine ⟨length_overwrite (by simp; omega), ?_⟩
    have htake := overwrite_take (text.take (size - 1) ++ [nul]) (show off ≤ buf.length by omega) 0
      (Nat.zero_le _)
    simpa using htake

private theorem erealloc_grown (heap : Heap) {buf : Bytes} {off size : Nat}
    (hoff : off ≤ buf.length) (h : buf.length ≤ size) :
    (ereallocChecked heap buf size).length = size ∧
      (ereallocChecked heap buf size).take off = buf.take off := by
  unfold ereallocChecked
  rw [List.take_of_length_le h]
  refine ⟨?_, List.take_append_of_le_length hoff⟩
  rw [List.length_append, List.length_map, List.length_drop, List.length_range]
  omega

private theorem vsnprintfChecked_eq {buf : Bytes} {off size : Nat} (text : Bytes)
    (h : off + size ≤ buf.length) :
    vsnprintfChecked buf off size text = some (vsnprintf buf off size text) := by
  unfold vsnprintfChecked vsnprintf
  split_ifs with hsize
  · rfl
  · exact if_pos (by simp; omega)

private theorem vsprintfChecked_eq {buf text : Bytes} {off : Nat}
    (h : off + text.length < buf.length) :
    vsprintfChecked buf off text = some (vsprintf buf off text) :=
  if_pos (by simp; omega)

private theorem length_vsprintf {buf text : Bytes} {off : Nat}
    (h : off + text.length < buf.length) : (vsprintf buf off text).length = buf.length :=
  length_overwrite (by simp; omega)

/-- An append leaves the old text followed by the new one, whether or not the
buffer had to grow and the text to be written again, and no write leaves the buffer. -/
theorem stringAppendVChecked_fits {s : DString} (hroom : s.len < s.bufLen) (heap : Heap)
    (text : Bytes) (hlen : s.len + text.length + 1 ≤ 2 ^ 63) :
    ∃ s', stringAppendVChecked heap s text = some s' ∧ s'.Fits ∧
      s'.contents = s.contents ++ text ∧
      (s'.bufLen = s.bufLen ∨ s.bufLen ≤ s'.bufLen ∧ ∃ k, s'.bufLen = 2 ^ k) := by
  unfold bufLen at hroom
  have hsize : s.len + (s.buf.length - s.len) ≤ s.buf.length := by omega
  unfold stringAppendVChecked bufLen
  rw [vsnprintfChecked_eq text hsize]
  simp only [Option.bind_eq_bind, Option.bind_some]
  by_cases hgrow : s.len + text.length + 1 > s.buf.length
  · rw [if_pos hgrow]
    have hn : (s.len + text.length + 1).toUInt64.toNat = s.len + text.length + 1 := by
      simp
      omega
    have hclog := gePow2_clog (n := (s.len + text.length + 1).toUInt64) (by omega) (by omega)
    have hle := le_gePow2 (n := (s.len + text.length + 1).toUInt64) (by omega)
    rw [hn] at hle
    generalize (gePow2 _).toNat = size at hclog hle ⊢
    obtain ⟨hcut, hkeep⟩ := vsnprintf_cut text hsize
    generalize vsnprintf s.buf s.len (s.buf.length - s.len) text = buf at hcut hkeep ⊢
    obtain ⟨hgrown, hold⟩ := erealloc_grown heap (show s.len ≤ buf.length by omega)
      (show buf.length ≤ size by omega)
    generalize ereallocChecked heap buf size = buf' at hgrown hold ⊢
    have hin : s.len + text.length < buf'.length := by omega
    obtain ⟨hfits, hcontents⟩ := vsprintf_fits hin
    rw [vsprintfChecked_eq hin]
    refine ⟨_, rfl, hfits, ?_, .inr ⟨?_, _, (length_vsprintf hin).trans (hgrown.trans hclog)⟩⟩
    · rw [hcontents, hold, hkeep]
      rfl
    · change s.buf.length ≤ (vsprintf buf' s.len text).length
      rw [length_vsprintf hin]
      omega
  · rw [if_neg hgrow, vsnprintf_whole _ _ (by omega)]
    have hin : s.len + text.length < s.buf.length := by omega
    obtain ⟨hfits, hcontents⟩ := vsprintf_fits hin
    exact ⟨_, rfl, hfits, hcontents, .inl (length_vsprintf hin)⟩

/-- A write that is not refused is the unchecked one. -/
private theorem overwrite_of_checked {buf buf' data : Bytes} {off : Nat}
    (h : overwriteChecked buf off data = some buf') : overwrite buf off data = buf' := by
  unfold overwriteChecked at h
  split_ifs at h
  exact Option.some.inj h

private theorem stringAppendV_of_checked {s s' : DString} {text : Bytes}
    (h : stringAppendVChecked (fun _ => 0) s text = some s') : s.stringAppendV text = s' := by
  obtain ⟨buf, hbuf, h⟩ := Option.bind_eq_some_iff.mp h
  have hcut : vsnprintf s.buf s.len (s.bufLen - s.len) text = buf := by
    unfold vsnprintfChecked at hbuf
    unfold vsnprintf
    split_ifs at hbuf ⊢
    · exact Option.some.inj hbuf
    · exact overwrite_of_checked hbuf
  have hzero : ∀ size, erealloc buf size = ereallocChecked (fun _ => 0) buf size := by
    intro size
    unfold erealloc ereallocChecked
    rw [List.map_const', List.length_drop, List.length_range]
  unfold stringAppendV
  dsimp only at h ⊢
  rw [hcut]
  split_ifs at h ⊢ with hgrow
  · obtain ⟨buf', hbuf', h⟩ := Option.bind_eq_some_iff.mp h
    rw [hzero, vsprintf, overwrite_of_checked hbuf']
    exact Option.some.inj h
  · exact Option.some.inj h

theorem stringAppendV_fits {s : DString} (hroom : s.len < s.bufLen) (text : Bytes)
    (hlen : s.len + text.length + 1 ≤ 2 ^ 63) :
    (s.stringAppendV text).Fits ∧ (s.stringAppendV text).contents = s.contents ++ text := by
  obtain ⟨s', hrun, hfits, hcontents, -⟩ := stringAppendVChecked_fits hroom (fun _ => 0) text hlen
  rw [stringAppendV_of_checked hrun]
  exact ⟨hfits, hcontents⟩

theorem stringSetV_fits {s : DString} (h : s.Fits) (text : Bytes)
    (hlen : text.length + 1 ≤ 2 ^ 63) :
    (s.stringSetV text).Fits ∧ (s.stringSetV text).contents = text :=
  stringAppendV_fits (s := { s with len := 0 }) (Nat.zero_lt_of_lt h.room) text
    (by simpa using hlen)

/-! The string over any sequence of its operations. -/

inductive StringOp where
  | set (text : Bytes)
  | append (text : Bytes)
  | clear
  deriving DecidableEq, Repr

def StringOp.run (heap : Heap) (s : DString) : StringOp → Option DString
  | set text => stringSetVChecked heap s text
  | append text => stringAppendVChecked heap s text
  | clear => stringClearChecked s

/-- The text after an operation, given the text before it. -/
def StringOp.put (old : Bytes) : StringOp → Bytes
  | set text => text
  | append text => old ++ text
  | clear => []

/-- `string_init`, then the operations, each with what the heap holds at that time. -/
def run (heap : Heap) (ops : List (StringOp × Heap)) : Option DString := do
  ops.foldlM (fun s call => call.1.run call.2 s) (← stringInitChecked heap)

/-- The texts put in since the last set or clear, that set's included. -/
def putIn (ops : List (StringOp × Heap)) : Bytes := ops.foldl (fun old call => call.1.put old) []

/-- The buffer holds exactly `text`. -/
structure Holds (s : DString) (text : Bytes) : Prop extends Fits s where
  contents : s.contents = text
  len : s.len = text.length
  pow : ∃ k, s.bufLen = 2 ^ k
  least : initialBufLen ≤ s.bufLen

section Runs
variable {s : DString} {old : Bytes}

private theorem stringClearChecked_holds (hpow : ∃ k, s.bufLen = 2 ^ k)
    (hleast : initialBufLen ≤ s.bufLen) :
    ∃ s', stringClearChecked s = some s' ∧ Holds s' [] ∧ s'.bufLen = s.bufLen := by
  have hin : 0 + ([] : Bytes).length < s.buf.length := Nat.lt_of_lt_of_le (by decide) hleast
  have hlen := length_vsprintf hin
  obtain ⟨hfits, hcontents⟩ := vsprintf_fits hin
  have hrun : stringClearChecked s = some ⟨vsprintf s.buf 0 [], 0⟩ := by
    unfold stringClearChecked
    rw [show overwriteChecked s.buf 0 [nul] = some (vsprintf s.buf 0 []) from
      vsprintfChecked_eq hin]
    rfl
  refine ⟨_, hrun, ⟨hfits, hcontents, rfl, ?_, ?_⟩, hlen⟩
  · obtain ⟨k, hk⟩ := hpow
    exact ⟨k, hlen.trans hk⟩
  · exact hleast.trans hlen.ge

/-- `string_init` sets up the invariant. -/
theorem stringInitChecked_holds (heap : Heap) :
    ∃ s, stringInitChecked heap = some s ∧ Holds s [] := by
  have hlen : (emallocChecked heap initialBufLen).length = initialBufLen := by
    simp [emallocChecked]
  unfold stringInitChecked
  generalize emallocChecked heap initialBufLen = buf at hlen ⊢
  obtain ⟨s, hrun, hs, -⟩ := @stringClearChecked_holds ⟨buf, 0⟩ ⟨12, hlen⟩ hlen.ge
  exact ⟨s, hrun, hs⟩

/-- An append needs of the old text only that it ends inside the buffer: `string_set`
leaves it without a terminator. -/
private theorem stringAppendVChecked_holds (hroom : s.len < s.bufLen)
    (hpow : ∃ k, s.bufLen = 2 ^ k) (hleast : initialBufLen ≤ s.bufLen) (hold : s.contents = old)
    (heap : Heap) (text : Bytes) (hlen : (old ++ text).length + 1 ≤ 2 ^ 63) :
    ∃ s', stringAppendVChecked heap s text = some s' ∧ Holds s' (old ++ text) ∧
      s.bufLen ≤ s'.bufLen := by
  have hold' := length_contents hroom
  rw [List.length_append, ← hold, hold'] at hlen
  obtain ⟨s', hrun, hfits, hcontents, hbuf⟩ := stringAppendVChecked_fits hroom heap text hlen
  rw [hold] at hcontents
  have hgrown : s.bufLen ≤ s'.bufLen := by
    rcases hbuf with hbuf | ⟨hbuf, -⟩
    · exact hbuf.ge
    · exact hbuf
  refine ⟨s', hrun, ⟨hfits, hcontents, ?_, ?_, hleast.trans hgrown⟩, hgrown⟩
  · rw [← contents_length hfits, hcontents]
  · rcases hbuf with hbuf | ⟨-, hbuf⟩
    · rwa [hbuf]
    · exact hbuf

/-- One operation: no write is refused, the text is the one put in, and the buffer
does not shrink. -/
theorem StringOp.run_holds (h : Holds s old) (heap : Heap) (op : StringOp)
    (hlen : (op.put old).length + 1 ≤ 2 ^ 63) :
    ∃ s', op.run heap s = some s' ∧ Holds s' (op.put old) ∧ s.bufLen ≤ s'.bufLen := by
  cases op with
  | set text =>
    have hempty : DString.contents { s with len := 0 } = [] := rfl
    exact stringAppendVChecked_holds (s := { s with len := 0 }) (Nat.zero_lt_of_lt h.room) h.pow
      h.least hempty heap text hlen
  | append text =>
    exact stringAppendVChecked_holds h.room h.pow h.least h.contents heap text hlen
  | clear =>
    obtain ⟨s', hrun, hs, hbuf⟩ := stringClearChecked_holds h.pow h.least
    exact ⟨s', hrun, hs, hbuf.ge⟩

/-- The operations from any string that keeps the invariant. -/
private theorem foldlM_holds (h : Holds s old) (ops : List (StringOp × Heap))
    (hlen : ∀ done, done <+: ops →
      (done.foldl (fun old call => call.1.put old) old).length + 1 ≤ 2 ^ 63) :
    ∃ s', ops.foldlM (fun s call => call.1.run call.2 s) s = some s' ∧
      Holds s' (ops.foldl (fun old call => call.1.put old) old) ∧
      s.bufLen ≤ s'.bufLen := by
  induction ops generalizing s old with
  | nil => exact ⟨s, rfl, h, le_refl _⟩
  | cons op ops ih =>
    obtain ⟨op, heap⟩ := op
    have hfirst := hlen [(op, heap)] (List.prefix_append _ ops)
    obtain ⟨s₁, hrun, h₁, hle⟩ := op.run_holds h heap hfirst
    obtain ⟨s₂, hruns, h₂, hle'⟩ := ih h₁ fun done hdone =>
      hlen ((op, heap) :: done) (List.prefix_cons_inj _ |>.mpr hdone)
    refine ⟨s₂, ?_, h₂, hle.trans hle'⟩
    rw [List.foldlM_cons]
    dsimp only
    rw [hrun]
    exact hruns

/-- After any operations the string is the concatenation of what was put in since
the last set or clear, terminated, in a buffer whose size is a power of two and at no
time was larger; and no write left the buffer. -/
theorem dynamic_string_concatenates (heap : Heap) (ops : List (StringOp × Heap))
    (hlen : ∀ done, done <+: ops → (putIn done).length + 1 ≤ 2 ^ 63) :
    ∃ s, run heap ops = some s ∧ Holds s (putIn ops) ∧
      ∀ done s', done <+: ops → run heap done = some s' → s'.bufLen ≤ s.bufLen := by
  obtain ⟨s₀, hinit, h₀⟩ := stringInitChecked_holds heap
  have hrun : ∀ ops, run heap ops =
      ops.foldlM (fun s call => call.1.run call.2 s) s₀ := by
    intro ops
    unfold run
    rw [hinit]
    rfl
  obtain ⟨s, hs, h, -⟩ := foldlM_holds h₀ ops hlen
  refine ⟨s, (hrun ops).trans hs, h, ?_⟩
  rintro done s' ⟨rest, rfl⟩ hdone
  rw [hrun] at hdone
  obtain ⟨s₁, hs₁, h₁, -⟩ := foldlM_holds h₀ done fun first hfirst =>
    hlen first (hfirst.trans (List.prefix_append _ _))
  rw [hdone] at hs₁
  cases hs₁
  obtain ⟨s₂, hs₂, -, hle⟩ := foldlM_holds h₁ rest fun first hfirst => by
    have h2 := hlen (done ++ first) ((List.prefix_append_right_inj done).mpr hfirst)
    rwa [putIn, List.foldl_append] at h2
  rw [List.foldlM_append, hdone] at hs
  rw [show s = s₂ from Option.some.inj (hs.symm.trans hs₂)]
  exact hle

end Runs

/-- A set and an append, in blocks that hold anything but terminators. -/
theorem set_then_append : ∃ s,
    run (fun _ => 255) [(.set (ascii "12"), fun _ => 255), (.append (ascii "3"), fun _ => 255)] =
      some s ∧ Holds s (ascii "123") := by
  obtain ⟨s, hrun, hs, -⟩ := dynamic_string_concatenates (fun _ => 255)
    [(.set (ascii "12"), fun _ => 255), (.append (ascii "3"), fun _ => 255)] (by
      intro done hdone
      simp only [List.prefix_cons_iff, List.prefix_nil] at hdone
      rcases hdone with rfl | ⟨_, rfl, rfl | ⟨_, rfl, rfl⟩⟩ <;> decide)
  exact ⟨s, hrun, hs⟩

end DString
end Botniklas
