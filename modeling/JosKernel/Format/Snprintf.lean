import JosKernel.Foundation.Memory
import JosKernel.Format.Cprintf
import JosKernel.Format.Scan

/-!
# `vsnprintf`

`lib/printfmt.c`: the formatter with a bounded buffer as its sink.  The buffer is a range of
memory; the format and the strings among the arguments do not overlap it.  Addresses are numbers
here: the `n` bytes at `buf` are an object in memory, so `buf + n` is at most 2 ^ 32 and no pointer
into them wraps.

Principal result: `vsnprintf_bounded` — the buffer receives the longest prefix of the
output that fits with its terminator, and the return value is the length of the whole output,
the count that `vcprintf` returns.
-/

set_option autoImplicit false

namespace Jos

/-- `struct sprintbuf`, with the memory its pointers point into. -/
structure Sprintbuf where
  mem : Memory
  buf : Nat
  ebuf : Nat
  cnt : Int

/-- `sprintputch`. -/
def sprintputch (ch : Int) (b : Sprintbuf) : Sprintbuf :=
  let b := { b with cnt := int32 (b.cnt + 1) }
  if b.buf < b.ebuf then
    { b with mem := Function.update b.mem b.buf (BitVec.ofInt 8 ch), buf := b.buf + 1 }
  else b

def E_INVAL : Int := 3

/-- `vsnprintf`: the return value and the memory afterwards.  `NULL` is address 0. -/
def vsnprintf (buf : Nat) (n : Int) (fmt : CStr) (ap : List Arg) (mem : Memory) :
    Except Fault (Int × Memory) :=
  let b : Sprintbuf := ⟨mem, buf, (buf + n - 1).toNat, 0⟩
  if buf = 0 ∨ n < 1 then .ok (-E_INVAL, mem)
  else do
    let b ← vprintfmt sprintputch fmt ap b
    .ok (b.cnt, Function.update b.mem b.buf 0)

/-- What a list of characters leaves in the buffer: as many as fit before `ebuf`. -/
theorem emit_sprintputch : ∀ (t : List Int) (b : Sprintbuf), IsInt32 b.cnt → b.buf ≤ b.ebuf →
    emit sprintputch t b =
      { mem := writeBytes b.mem b.buf ((t.take (b.ebuf - b.buf)).map (BitVec.ofInt 8))
        buf := b.buf + min (b.ebuf - b.buf) t.length
        ebuf := b.ebuf
        cnt := int32 (b.cnt + t.length) }
  | [], b, hcnt, _ => by simp [writeBytes, int32_of_range hcnt]
  | c :: t, b, _, hle => by
    have hcount : int32 (int32 (b.cnt + 1) + t.length) = int32 (b.cnt + (t.length + 1)) := by
      rw [int32_add_left, Int.add_assoc, Int.add_comm 1]
    rw [emit_cons, sprintputch]
    by_cases hroom : b.buf < b.ebuf
    · -- the character is stored
      obtain ⟨k, hk⟩ : ∃ k, b.ebuf - b.buf = k + 1 := ⟨b.ebuf - b.buf - 1, by omega⟩
      have hk' : b.ebuf - (b.buf + 1) = k := by omega
      simp only [if_pos hroom]
      rw [emit_sprintputch t _ (int32_isInt32 _) (by simp only; omega)]
      simp only [hk, hk', List.take_succ_cons, List.map_cons, writeBytes, List.length_cons]
      rw [hcount]
      congr 1
      omega
    · -- the buffer is full: the character is only counted
      have hk : b.ebuf - b.buf = 0 := by omega
      simp only [if_neg hroom]
      rw [emit_sprintputch t _ (int32_isInt32 _) (by simp only; omega)]
      simp only [hk, List.length_cons, Nat.zero_min]
      rw [hcount]
      rfl

/-- `vsnprintf` on a good buffer: a prefix of the output and the terminator. -/
theorem vsnprintf_of_output {buf : Nat} {n : Int} {fmt : CStr} {ap : List Arg} {t : List Int}
    (hbuf : buf ≠ 0) (hn : 1 ≤ n) (h : output fmt ap = .ok t) (mem : Memory) :
    vsnprintf buf n fmt ap mem =
      .ok (int32 t.length, writeBytes mem buf
        ((t.take (n - 1).toNat).map (BitVec.ofInt 8) ++ [0])) := by
  have hsize : (buf + n - 1).toNat - buf = (n - 1).toNat := by omega
  rw [vsnprintf, if_neg (by omega), vprintfmt_of_output _ h,
    emit_sprintputch t _ (by simp only [IsInt32]; omega) (by simp only; omega)]
  simp only [hsize, writeBytes_append, writeBytes, List.length_map, List.length_take, Int.zero_add]
  rfl

/-- **`vsnprintf` is a bounded prefix of the formatter**, for a buffer that does not go around the
    end of memory. -/
theorem vsnprintf_bounded (buf : Nat) (n : Int) (fmt : CStr) (ap : List Arg)
    (mem : Memory) :
    (buf = 0 ∨ n < 1 → vsnprintf buf n fmt ap mem = .ok (-E_INVAL, mem)) ∧
    (buf ≠ 0 → 1 ≤ n → output fmt ap ≠ .error .badArg →
      ∃ t, output fmt ap = .ok t ∧ (t.length < 2147483648 →
        (∃ mem', vsnprintf buf n fmt ap mem = .ok ((t.length : Int), mem') ∧
          (∀ i (hi : i < t.length), (i : Int) < n - 1 → mem' (buf + i) = BitVec.ofInt 8 t[i]) ∧
          mem' (buf + min (n - 1).toNat t.length) = 0 ∧
          ∀ a, a < buf ∨ buf + min (n - 1).toNat t.length < a → mem' a = mem a) ∧
        ∀ (δ : Type) (d : Device δ) (m : Console δ),
          ∃ m', vcprintf d fmt ap m = .ok (m', (t.length : Int)))) := by
  constructor
  · intro hbad
    rw [vsnprintf, if_pos hbad]
  · intro hbuf hn hargs
    obtain ⟨t, ht⟩ := output_total hargs
    refine ⟨t, ht, fun hlen => ?_⟩
    have hcnt : int32 t.length = t.length := int32_of_range (by unfold IsInt32; omega)
    constructor
    · refine ⟨_, by rw [vsnprintf_of_output hbuf hn ht, hcnt], fun i hi hin => ?_, ?_, ?_⟩
      · rw [writeBytes_apply, dif_pos (by simp; omega)]
        rw [List.getElem_append_left (by simp; omega)]
        simp
      · rw [writeBytes_apply, dif_pos (by simp)]
        rw [List.getElem_append_right (by simp)]
        simp
      · intro a ha
        rw [writeBytes_apply, dif_neg (by simp; omega)]
    · intro δ d m
      exact ⟨_, by rw [vcprintf_of_output d ht, hcnt]⟩

/-- `"abc"` in three bytes. -/
theorem vsnprintf_bounded_abc :
    ∃ mem', vsnprintf 4096 3 (CStr.ofString "abc") [] (fun _ => 1) = .ok (3, mem') ∧
      mem' 4096 = char 'a' ∧ mem' 4097 = char 'b' ∧ mem' 4098 = 0 ∧ mem' 4099 = 1 := by
  have hout : output (CStr.ofString "abc") [] = .ok [97, 98, 99] := rfl
  obtain ⟨t, ht, hgood⟩ := (vsnprintf_bounded 4096 3 (CStr.ofString "abc") []
    (fun _ => 1)).2 (by decide) (by decide) (by rw [hout]; simp)
  cases hout.symm.trans ht
  obtain ⟨⟨mem', hrun, htext, hend, hrest⟩, _⟩ := hgood (by decide)
  exact ⟨mem', hrun, htext 0 (by decide) (by decide), htext 1 (by decide) (by decide), hend,
    hrest 4099 (by decide)⟩

end Jos
