import JosKernel.Console.Display
import JosKernel.Format.Sink

/-!
# `cprintf`

`kern/printf.c`: the formatter with the console as its sink, and the count of characters.
-/

set_option autoImplicit false

namespace Jos

variable {δ : Type} (d : Device δ)

/-- `putch`, with `putdat` pointing to the count. -/
def putch (ch : Int) (r : Console δ × Int) : Console δ × Int :=
  (cputchar d ch r.1, int32 (r.2 + 1))

/-- `vcprintf`, which is also `cprintf`: the console afterwards and the count. -/
def vcprintf (fmt : CStr) (ap : List Arg) (m : Console δ) : Except Fault (Console δ × Int) :=
  vprintfmt (putch d) fmt ap (m, 0)

theorem emit_putch : ∀ (t : List Int) (m : Console δ) (n : Int), IsInt32 n →
    emit (putch d) t (m, n) = (emit (cputchar d) t m, int32 (n + t.length))
  | [], m, n, hn => by simp [int32_of_range hn]
  | c :: t, m, n, _ => by
    rw [emit_cons, putch, emit_putch t _ _ (int32_isInt32 _), emit_cons]
    rw [int32_add_left, List.length_cons, Int.add_assoc, Int.add_comm 1]
    rfl

/-- The console receives the output, and the count is its length. -/
theorem vcprintf_of_output {fmt : CStr} {ap : List Arg} {t : List Int}
    (h : output fmt ap = .ok t) (m : Console δ) :
    vcprintf d fmt ap m = .ok (emit (cputchar d) t m, int32 t.length) := by
  rw [vcprintf, vprintfmt_of_output _ h, emit_putch d t m 0 (by unfold IsInt32; omega)]
  simp

end Jos
