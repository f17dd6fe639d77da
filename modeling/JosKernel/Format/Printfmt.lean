import JosKernel.Format.CStr

/-!
# `vprintfmt`

`lib/printfmt.c`: the formatter, over an arbitrary sink `putch` with its `putdat` as an
explicit state.  The variable arguments are the 32-bit slots of the caller's stack
(`Arg`), each given as what its conversion takes it for: a number or an address, or a pointer
to a string.  A `long long` takes two slots, low word first.

`reswitch` is the part of the `switch` whose cases end in `goto reswitch`; `convert` the
cases that end in `break`, apart from `%e` and the default, which are in `escape` because
they call the formatter again or move `fmt` back.  The outer loop and `reswitch` carry a step
budget; `Format/Scan.lean` shows that it always suffices.
-/

set_option autoImplicit false

namespace Jos

/-! ## Arguments -/

/-- One 32-bit slot of a variable argument list. -/
inductive Arg where
  | word (v : Word)
  | str (s : CStr)
  deriving DecidableEq

/-- `va_arg` for a 32-bit type. -/
def vaArgWord : List Arg → Except Fault (Word × List Arg)
  | .word v :: ap => .ok (v, ap)
  | _ => .error .badArg

/-- `va_arg(ap, int)`. -/
def vaArgInt (ap : List Arg) : Except Fault (Int × List Arg) :=
  (vaArgWord ap).map fun r => (r.1.toInt, r.2)

/-- `va_arg` for a 64-bit type. -/
def vaArgQuad : List Arg → Except Fault (BitVec 64 × List Arg)
  | .word lo :: .word hi :: ap => .ok (hi ++ lo, ap)
  | _ => .error .badArg

/-- `va_arg(ap, char *)`: `none` is `NULL`. -/
def vaArgStr : List Arg → Except Fault (Option CStr × List Arg)
  | .str s :: ap => .ok (some s, ap)
  | .word v :: ap => if v = 0 then .ok (none, ap) else .error .badArg
  | [] => .error .badArg

/-- `getuint`. -/
def getuint (ap : List Arg) (lflag : Int) : Except Fault (Nat × List Arg) :=
  if lflag ≥ 2 then (vaArgQuad ap).map fun r => (r.1.toNat, r.2)
  else (vaArgWord ap).map fun r => (r.1.toNat, r.2)

/-- `getint`. -/
def getint (ap : List Arg) (lflag : Int) : Except Fault (Int × List Arg) :=
  if lflag ≥ 2 then (vaArgQuad ap).map fun r => (r.1.toInt, r.2)
  else vaArgInt ap

/-! ## The escape sequence -/

/-- The labels of the `switch`. -/
inductive Label where
  | minus | zero | digit | star | dot | hash | ell
  | chr | err | str | dec | uns | oct | ptr | hex | percent
  | other
  deriving DecidableEq, Repr

def label (ch : Byte) : Label :=
  if ch = char '-' then .minus
  else if ch = char '0' then .zero
  else if char '1' ≤ ch ∧ ch ≤ char '9' then .digit
  else if ch = char '*' then .star
  else if ch = char '.' then .dot
  else if ch = char '#' then .hash
  else if ch = char 'l' then .ell
  else if ch = char 'c' then .chr
  else if ch = char 'e' then .err
  else if ch = char 's' then .str
  else if ch = char 'd' then .dec
  else if ch = char 'u' then .uns
  else if ch = char 'o' then .oct
  else if ch = char 'p' then .ptr
  else if ch = char 'x' then .hex
  else if ch = char '%' then .percent
  else .other

/-- The variables that the flags of an escape sequence set. -/
structure Spec where
  padc : Int
  width : Int
  precision : Int
  lflag : Int
  altflag : Bool
  deriving DecidableEq, Repr

def Spec.init : Spec := ⟨(char ' ').toInt, -1, -1, 0, false⟩

/-- `process_precision`. -/
def Spec.processPrecision (precision : Int) (e : Spec) : Spec :=
  if e.width < 0 then { e with width := precision, precision := -1 }
  else { e with precision }

/-- `for (precision = 0; ; ++fmt)`, reading a decimal number that starts with `ch`. -/
def scanNumber : Byte → Int → List Byte → List Byte → Except Fault (Int × Cursor)
  | _, _, _, [] => .error .outside
  | ch, precision, before, c :: after =>
      let precision := int32 (precision * 10 + ch.toNat - (char '0').toNat)
      if c.toInt < (char '0').toInt ∨ c.toInt > (char '9').toInt then
        .ok (precision, ⟨before, c :: after⟩)
      else scanNumber c precision (c :: before) after

/-- The flags and fields of an escape sequence, up to the first other character. -/
def reswitch : Nat → Cursor → Spec → List Arg →
    Except Fault (Byte × Cursor × Spec × List Arg)
  | 0, _, _, _ => .error .fuel
  | fuel + 1, fmt, e, ap => do
      let (ch, fmt) ← fmt.next
      match label ch with
      | .minus => reswitch fuel fmt { e with padc := (char '-').toInt } ap
      | .zero => reswitch fuel fmt { e with padc := (char '0').toInt } ap
      | .digit => do
          let (precision, fmt) ← scanNumber ch 0 fmt.before fmt.after
          reswitch fuel fmt (e.processPrecision precision) ap
      | .star => do
          let (precision, ap) ← vaArgInt ap
          reswitch fuel fmt (e.processPrecision precision) ap
      | .dot => reswitch fuel fmt { e with width := if e.width < 0 then 0 else e.width } ap
      | .hash => reswitch fuel fmt { e with altflag := true } ap
      | .ell => reswitch fuel fmt { e with lflag := int32 (e.lflag + 1) } ap
      | _ => .ok (ch, fmt, e, ap)

/-- `for (; fmt[-1] != '%'; fmt--)`. -/
def rewindLoop : List Byte → List Byte → Except Fault Cursor
  | [], _ => .error .outside
  | c :: before, after =>
      if c = char '%' then .ok ⟨c :: before, after⟩ else rewindLoop before (c :: after)

/-- `for (fmt--; fmt[-1] != '%'; fmt--)`. -/
def rewind (fmt : Cursor) : Except Fault Cursor := do
  let fmt ← fmt.prev
  rewindLoop fmt.before fmt.after

/-! ## Error texts -/

def MAXERROR : Int := 7

def errorTable : List (Option CStr) :=
  [none, some (.ofString "unspecified error"), some (.ofString "bad environment"),
    some (.ofString "invalid parameter"), some (.ofString "out of memory"),
    some (.ofString "out of environments"), some (.ofString "segmentation fault")]

/-- `error_string[err]`, the word at `error_string + 4 * err` in 32-bit addresses. -/
def errorString (err : Int) : Option CStr := (errorTable[uint32 (4 * err) / 4]?).join

/-! ## Output -/

section Output

variable {σ : Type} (putch : Int → σ → σ)

/-- `for (; k > 0; k--) putch(c, putdat)`. -/
def pad (c : Int) : Nat → σ → σ
  | 0, s => s
  | k + 1, s => pad c k (putch c s)

/-- `"0123456789abcdef"[d]`. -/
def digit (d : Nat) : Int := ((("0123456789abcdef".toList)[d]?).getD ' ').toNat

theorem decimal_base : 2 ≤ 10 := by decide

theorem hex_base : 2 ≤ 16 := by decide

/-- `printnum`; every call has a base of at least 2. -/
def printnum (num base : Nat) (hbase : 2 ≤ base) (width padc : Int) (s : σ) : σ :=
  putch (digit (num % base))
    (if base ≤ num then printnum (num / base) base hbase (int32 (width - 1)) padc s
    else pad putch padc (int32 (width - 1)).toNat s)
termination_by num
decreasing_by exact Nat.div_lt_self (by omega) (by omega)

theorem printnum_of_le {num base : Nat} (h : base ≤ num) (hbase : 2 ≤ base) (width padc : Int)
    (s : σ) :
    printnum putch num base hbase width padc s =
      putch (digit (num % base))
        (printnum putch (num / base) base hbase (int32 (width - 1)) padc s) := by
  rw [printnum, if_pos h]

theorem printnum_of_lt {num base : Nat} (h : num < base) (hbase : 2 ≤ base) (width padc : Int)
    (s : σ) :
    printnum putch num base hbase width padc s =
      putch (digit num) (pad putch padc (int32 (width - 1)).toNat s) := by
  rw [printnum, if_neg (by omega), Nat.mod_eq_of_lt h]

/-- The loop of `case 's'` over the characters of `p`; returns the final `width`. -/
def putString (altflag : Bool) : List Byte → Int → Int → σ → Int × σ
  | [], _, width, s => (width, s)
  | c :: p, precision, width, s =>
      let ch := c.toInt
      if precision < 0 ∨ precision - 1 ≥ 0 then
        let precision := if precision < 0 then precision else precision - 1
        let s :=
          if altflag ∧ (ch < (char ' ').toInt ∨ ch > (char '~').toInt) then
            putch (char '?').toInt s
          else putch ch s
        putString altflag p precision (int32 (width - 1)) s
      else (width, s)

/-- The padding in front of a string; returns the remaining `width`. -/
def padString (e : Spec) (p : CStr) (s : σ) : Int × σ :=
  if e.width > 0 ∧ e.padc ≠ (char '-').toInt then
    let width := int32 (e.width - strnlen p (uint32 e.precision))
    (min width 0, pad putch e.padc width.toNat s)
  else (e.width, s)

/-- `case 's'`. -/
def printString (e : Spec) (p : CStr) (s : σ) : σ :=
  let r := padString putch e p s
  let r := putString putch e.altflag p.bytes e.precision r.1 r.2
  pad putch (char ' ').toInt r.1.toNat r.2

/-- The cases of the `switch` that consume arguments and print. -/
def convert (l : Label) (e : Spec) (ap : List Arg) (s : σ) : Except Fault (List Arg × σ) :=
  match l with
  | .chr => do
      let (v, ap) ← vaArgInt ap
      .ok (ap, putch v s)
  | .str => do
      let (p, ap) ← vaArgStr ap
      .ok (ap, printString putch e (p.getD (.ofString "(null)")) s)
  | .dec => do
      let (num, ap) ← getint ap e.lflag
      if num < 0 then
        .ok (ap, printnum putch (uint64 (-num)) 10 decimal_base e.width e.padc
          (putch (char '-').toInt s))
      else .ok (ap, printnum putch num.toNat 10 decimal_base e.width e.padc s)
  | .uns => do
      let (num, ap) ← getuint ap e.lflag
      .ok (ap, printnum putch num 10 decimal_base e.width e.padc s)
  | .oct =>
      .ok (ap, putch (char 'X').toInt (putch (char 'X').toInt (putch (char 'X').toInt s)))
  | .ptr => do
      let (v, ap) ← vaArgWord ap
      .ok (ap, printnum putch v.toNat 16 hex_base e.width e.padc
        (putch (char 'x').toInt (putch (char '0').toInt s)))
  | .hex => do
      let (num, ap) ← getuint ap e.lflag
      .ok (ap, printnum putch num 16 hex_base e.width e.padc s)
  | _ => .ok (ap, putch (char '%').toInt s)

/-- `case 'e'`, with `printfmt` for the nested call of the formatter. -/
def printError (printfmt : CStr → List Arg → σ → Except Fault σ) (err : Int) (s : σ) :
    Except Fault σ :=
  let err := if err < 0 then int32 (-err) else err
  match if err ≥ MAXERROR then none else errorString err with
  | none => printfmt (CStr.ofString "error %d") [.word (BitVec.ofInt 32 err)] s
  | some p => printfmt (CStr.ofString "%s") [.str p] s

/-- An escape sequence, from behind its `%`. -/
def escape (printfmt : CStr → List Arg → σ → Except Fault σ) (fmt : Cursor) (ap : List Arg)
    (s : σ) : Except Fault (Cursor × List Arg × σ) := do
  let (ch, fmt, e, ap) ← reswitch (fmt.after.length + 1) fmt Spec.init ap
  match label ch with
  | .err => do
      let (err, ap) ← vaArgInt ap
      let s ← printError printfmt err s
      .ok (fmt, ap, s)
  | .other => do
      -- unrecognized escape sequence - just print it literally
      let fmt ← rewind fmt
      .ok (fmt, ap, putch (char '%').toInt s)
  | l => do
      let (ap, s) ← convert putch l e ap s
      .ok (fmt, ap, s)

/-- The outer loop of `vprintfmt`, with `ap` as it is at the end. -/
def vprintfmtLoopAp : Nat → Cursor → List Arg → σ → Except Fault (List Arg × σ)
  | 0, _, _, _ => .error .fuel
  | fuel + 1, fmt, ap, s => do
      let (ch, fmt) ← fmt.next
      if ch ≠ char '%' then
        if ch = 0 then .ok (ap, s) else vprintfmtLoopAp fuel fmt ap (putch ch.toNat s)
      else do
        let (fmt, ap, s) ←
          escape putch (fun fmt ap s => (vprintfmtLoopAp fuel fmt.start ap s).map Prod.snd) fmt ap s
        vprintfmtLoopAp fuel fmt ap s

/-- The outer loop of `vprintfmt`. -/
def vprintfmtLoop (fuel : Nat) (fmt : Cursor) (ap : List Arg) (s : σ) : Except Fault σ :=
  (vprintfmtLoopAp putch fuel fmt ap s).map Prod.snd

theorem vprintfmtLoop_succ (fuel : Nat) (fmt : Cursor) (ap : List Arg) (s : σ) :
    vprintfmtLoop putch (fuel + 1) fmt ap s = (do
      let (ch, fmt) ← fmt.next
      if ch ≠ char '%' then
        if ch = 0 then .ok s else vprintfmtLoop putch fuel fmt ap (putch ch.toNat s)
      else do
        let (fmt, ap, s) ←
          escape putch (fun fmt ap s => vprintfmtLoop putch fuel fmt.start ap s) fmt ap s
        vprintfmtLoop putch fuel fmt ap s) := by
  rw [vprintfmtLoop, vprintfmtLoopAp, map_bind]
  congr 1
  funext ⟨ch, fmt⟩
  simp only
  split
  · split
    · rfl
    · rfl
  · rw [map_bind]
    rfl

/-- `vprintfmt`. -/
def vprintfmt (fmt : CStr) (ap : List Arg) (s : σ) : Except Fault σ :=
  vprintfmtLoop putch (fmt.bytes.length + 12) fmt.start ap s

end Output

end Jos
