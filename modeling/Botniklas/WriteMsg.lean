import Botniklas.DynamicString

/-! Messages to the server: each call of the writer hands one buffer to the
socket. -/
namespace Botniklas
open Foundation

/-- The calls of the writer, with their texts rendered. `compose` is a
`begin_say`, some calls of `append_msg` and the `send_msg` that ends them. -/
inductive WriteCall where
  | writeMsg (text : Bytes)
  | say (target text : Bytes)
  | compose (target : Bytes) (pieces : List Bytes)
  deriving DecidableEq, Repr

def crlf : Bytes := [cr, lf]

def privmsgTo (target : Bytes) : Bytes := ascii "PRIVMSG " ++ target ++ ascii " :"

namespace WriteCall
open DString

/-- The write buffer afterwards; its contents are what `writen` receives. -/
def run (s : DString) : WriteCall → DString
  | writeMsg text => (s.stringSetV text).stringAppendV crlf
  | say target text => ((s.stringSetV (privmsgTo target)).stringAppendV text).stringAppendV crlf
  | compose target pieces =>
    (pieces.foldl stringAppendV (s.stringSetV (privmsgTo target))).stringAppendV crlf

/-- The line a call stands for. -/
def line : WriteCall → Bytes
  | writeMsg text => text ++ crlf
  | say target text => privmsgTo target ++ text ++ crlf
  | compose target pieces => privmsgTo target ++ pieces.flatten ++ crlf

/-- The buffers handed to `writen` by a sequence of calls. -/
def buffers (s : DString) : List WriteCall → List Bytes
  | [] => []
  | c :: cs => (c.run s).contents :: buffers (c.run s) cs

private theorem appendAll_fits {s : DString} (h : s.Fits) (pieces : List Bytes)
    (hlen : s.contents.length + pieces.flatten.length + 1 ≤ 2 ^ 63) :
    (pieces.foldl stringAppendV s).Fits ∧
      (pieces.foldl stringAppendV s).contents = s.contents ++ pieces.flatten := by
  induction pieces generalizing s with
  | nil => exact ⟨h, by simp⟩
  | cons p pieces ih =>
    simp only [List.flatten_cons, List.length_append] at hlen
    have hl := contents_length h
    obtain ⟨h1, h2⟩ := stringAppendV_fits h.room p (by omega)
    obtain ⟨h3, h4⟩ := ih h1 (by rw [h2, List.length_append]; omega)
    exact ⟨h3, by rw [List.foldl_cons, h4, h2]; simp⟩

/-- Each call leaves its line in the buffer, whatever the buffer held before. -/
theorem run_line {s : DString} (h : s.Fits) (c : WriteCall) (hlen : c.line.length + 1 ≤ 2 ^ 63) :
    (c.run s).Fits ∧ (c.run s).contents = c.line := by
  cases c with
  | writeMsg text =>
    simp only [line, List.length_append] at hlen
    obtain ⟨h1, h2⟩ := stringSetV_fits h text (by omega)
    have hl := contents_length h1
    rw [h2] at hl
    obtain ⟨h3, h4⟩ := stringAppendV_fits h1.room crlf (by omega)
    exact ⟨h3, by rw [run, h4, h2]; rfl⟩
  | say target text =>
    simp only [line, List.length_append] at hlen
    obtain ⟨h1, h2⟩ := stringSetV_fits h (privmsgTo target) (by omega)
    have hl := contents_length h1
    rw [h2] at hl
    obtain ⟨h3, h4⟩ := stringAppendV_fits h1.room text (by omega)
    have hl' := contents_length h3
    rw [h4, h2, List.length_append] at hl'
    obtain ⟨h5, h6⟩ := stringAppendV_fits h3.room crlf (by omega)
    exact ⟨h5, by rw [run, h6, h4, h2]; rfl⟩
  | compose target pieces =>
    simp only [line, List.length_append] at hlen
    obtain ⟨h1, h2⟩ := stringSetV_fits h (privmsgTo target) (by omega)
    obtain ⟨h3, h4⟩ := appendAll_fits h1 pieces (by rw [h2]; omega)
    have hl' := contents_length h3
    rw [h4, h2, List.length_append] at hl'
    obtain ⟨h5, h6⟩ := stringAppendV_fits h3.room crlf (by omega)
    exact ⟨h5, by rw [run, h6, h4, h2]; rfl⟩

/-- The buffers of a sequence of calls are their lines, one for each call. -/
theorem buffers_eq {s : DString} (h : s.Fits) (cs : List WriteCall)
    (hlen : ∀ c ∈ cs, c.line.length + 1 ≤ 2 ^ 63) : buffers s cs = cs.map line := by
  induction cs generalizing s with
  | nil => rfl
  | cons c cs ih =>
    simp only [List.mem_cons, forall_eq_or_imp] at hlen
    obtain ⟨h1, h2⟩ := run_line h c hlen.1
    rw [buffers, h2, ih h1 hlen.2, List.map_cons]

end WriteCall
end Botniklas
