import JosKernel.Console.Terminal
import JosKernel.Format.Cprintf

/-!
# `readline`

`lib/readline.c`: the line editor, one step for each result of `getchar`.  It echoes what it
stores, so that the characters in its buffer are the cells in front of the cursor, and it
trusts the display to keep them there.

Principal results: `OnScreen.step` — one key keeps the buffer on the screen;
`readline_on_screen` — at every call of `getchar` the screen shows the buffer.
-/

set_option autoImplicit false

namespace Jos

def BUFLEN : Int := 1024

/-- `iscons`. -/
def iscons (_fdnum : Int) : Int := 1

/-- The variables of `readline`, with the console. -/
structure Editor (δ : Type) where
  con : Console δ
  buf : Int → Byte
  i : Int
  echoing : Int

/-- Where the loop of `readline` is after a key. -/
inductive Reading (δ : Type) where
  /-- at the next call of `getchar` -/
  | more (e : Editor δ)
  /-- `return NULL` -/
  | null (e : Editor δ)
  /-- `return buf` -/
  | line (e : Editor δ)

section

variable {δ : Type} (d : Device δ)

/-- `if (echoing) cputchar(c)`. -/
def Editor.echo (c : Int) (e : Editor δ) : Editor δ :=
  if e.echoing ≠ 0 then { e with con := cputchar d c e.con } else e

/-- The prompt and the initial values. -/
def readlineStart (prompt : Option CStr) (buf : Int → Byte) (m : Console δ) :
    Except Fault (Editor δ) := do
  let con ← match prompt with
    | some p => (vcprintf d (CStr.ofString "%s") [.str p] m).map Prod.fst
    | none => .ok m
  .ok { con, buf, i := 0, echoing := iscons 0 }

/-- The body of the loop, for `c = getchar()`. -/
def readlineStep (c : Int) (e : Editor δ) : Except Fault (Reading δ) :=
  if c < 0 then do
    let (con, _) ← vcprintf d (CStr.ofString "read error: %e\n") [.word (BitVec.ofInt 32 c)] e.con
    .ok (.null { e with con })
  else if (c = (char '\x08').toInt ∨ c = (char '\x7f').toInt) ∧ e.i > 0 then
    let e := e.echo d (char '\x08').toInt
    .ok (.more { e with i := e.i - 1 })
  else if c ≥ (char ' ').toInt ∧ e.i < BUFLEN - 1 then
    let e := e.echo d c
    .ok (.more { e with buf := Function.update e.buf e.i (BitVec.ofInt 8 c), i := e.i + 1 })
  else if c = (char '\n').toInt ∨ c = (char '\r').toInt then
    let e := e.echo d (char '\n').toInt
    .ok (.line { e with buf := Function.update e.buf e.i 0 })
  else .ok (.more e)

/-- The loop over the results of `getchar`; keys behind the end of the line are not read. -/
def readlineLoop : List Int → Editor δ → Except Fault (Reading δ)
  | [], e => .ok (.more e)
  | c :: cs, e => do
      match ← readlineStep d c e with
      | .more e => readlineLoop cs e
      | r => .ok r

end

/-! ## The buffer on the screen -/

/-- A byte in the default attribute. -/
def typedCell (b : Byte) : Cell := 0x0700 ||| b.setWidth 16

/-- The tape of the terminal holds the buffer in front of the cursor, inside the window. -/
structure OnTape (buf : Int → Byte) (i : Int) (T : Terminal) : Prop where
  nonneg : 0 ≤ i
  bound : i ≤ BUFLEN - 1
  inside : 80 * T.t + i ≤ T.a
  cells : ∀ k : Nat, (k : Int) < i → T.cell (T.a - i.toNat + k) = typedCell (buf k)

variable {buf : Int → Byte} {i : Int} {T : Terminal}

theorem OnTape.start (h : 80 * T.t ≤ T.a) : OnTape buf 0 T where
  nonneg := Int.le_refl 0
  bound := by decide
  inside := by omega
  cells k hk := absurd hk (by omega)

/-- A stored character is printed behind the others; the scroll leaves 24 rows in the window. -/
theorem OnTape.print (h : OnTape buf i T) (hi : i < BUFLEN - 1) (hwin : T.a < 80 * T.t + 2000)
    (b : Byte) : OnTape (Function.update buf i b) (i + 1) (T.print (typedCell b)) := by
  obtain ⟨hnonneg, -, hinside, hcells⟩ := h
  have hbuf : BUFLEN = 1024 := rfl
  obtain ⟨ht, hsame⟩ := Terminal.print_t (typedCell b) T
  constructor
  · omega
  · omega
  · rw [Terminal.print_a]
    omega
  · intro k hk
    rw [Terminal.print_a, Terminal.print_cell]
    by_cases hlast : (k : Int) = i
    · rw [hlast, Function.update_self, show T.a + 1 - (i + 1).toNat + k = T.a by omega,
        Function.update_self]
    · have hcell : T.a + 1 - (i + 1).toNat + k = T.a - i.toNat + k := by omega
      rw [Function.update_of_ne hlast, hcell,
        Function.update_of_ne (by omega), hcells k (by omega)]

/-- A backspace erases the last character. -/
theorem OnTape.backspace (h : OnTape buf i T) (hi : 0 < i) (x : Cell) :
    OnTape buf (i - 1) (T.backspace x) := by
  obtain ⟨hnonneg, hbound, hinside, hcells⟩ := h
  unfold Terminal.backspace
  rw [if_pos (by omega)]
  constructor
  · omega
  · omega
  · simp only
    omega
  · intro k hk
    simp only
    rw [show T.a - 1 - (i - 1).toNat + k = T.a - i.toNat + k by omega,
      Function.update_of_ne (by omega), hcells k (by omega)]

/-- The screen shows the buffer: some tape has the screen for its window. -/
def OnScreen {δ : Type} (e : Editor δ) : Prop :=
  e.echoing = 1 ∧ ∃ T, Window e.con.crt T ∧ OnTape e.buf e.i T

theorem putc_typed {c : Int} (h0 : 32 ≤ c) (h1 : c ≤ 255) (T : Terminal) :
    T.putc (BitVec.ofInt 32 c) = T.print (typedCell (BitVec.ofInt 8 c)) := by
  have hval : (BitVec.ofInt 32 c).toNat = c.toNat := by
    rw [BitVec.toNat_ofInt]
    omega
  have hcell : cellOf (BitVec.ofInt 32 c) = typedCell (BitVec.ofInt 8 c) := by
    rw [cellOf, if_pos (by omega), typedCell]
    congr 1
    rw [← BitVec.toNat_inj, BitVec.toNat_setWidth, BitVec.toNat_setWidth, BitVec.toNat_ofInt,
      BitVec.toNat_ofInt]
    omega
  unfold Terminal.putc
  rw [hval, if_neg (by omega), if_neg (by omega), if_neg (by omega), if_neg (by omega), hcell]

variable {δ : Type} (d : Device δ)

theorem echo_eq {e : Editor δ} (hecho : e.echoing = 1) (c : Int) :
    e.echo d c = { e with con := cputchar d c e.con } :=
  if_pos (by omega)

theorem cputchar_window {m : Console δ} {T : Terminal} (h : Window m.crt T) (c : Int) :
    Window (cputchar d c m).crt (T.putc (BitVec.ofInt 32 c)) := by
  rw [cputchar, consPutc_crt]
  exact (h.putc _).1

/-- **One key keeps the buffer on the screen**, and no key is an error. -/
theorem OnScreen.step {e : Editor δ} (h : OnScreen e) {c : Int} (h0 : 1 ≤ c) (h1 : c ≤ 255) :
    ∃ r, readlineStep d c e = .ok r ∧ ∀ e', r = .more e' → OnScreen e' := by
  obtain ⟨hecho, T, hwin, htape⟩ := h
  unfold readlineStep
  rw [if_neg (show ¬c < 0 by omega)]
  simp only [echo_eq d hecho]
  by_cases hback : (c = (char '\x08').toInt ∨ c = (char '\x7f').toInt) ∧ e.i > 0
  · -- the erased character was in front of the cursor
    refine ⟨_, if_pos hback, ?_⟩
    rintro _ ⟨⟩
    exact ⟨hecho, _, cputchar_window d hwin _, htape.backspace hback.2 _⟩
  rw [if_neg hback]
  by_cases htyped : c ≥ (char ' ').toInt ∧ e.i < BUFLEN - 1
  · -- the stored character is the one that was printed
    refine ⟨_, if_pos htyped, ?_⟩
    rintro _ ⟨⟩
    have hpos := hwin.pos
    have hon := hwin.onScreen
    rw [CRT_SIZE_eq] at hon
    have hprint := htape.print htyped.2 (by omega) (BitVec.ofInt 8 c)
    rw [← putc_typed htyped.1 h1] at hprint
    exact ⟨hecho, _, cputchar_window d hwin c, hprint⟩
  rw [if_neg htyped]
  by_cases hend : c = (char '\n').toInt ∨ c = (char '\r').toInt
  · refine ⟨_, if_pos hend, ?_⟩
    rintro _ ⟨⟩
  · refine ⟨_, if_neg hend, ?_⟩
    rintro _ ⟨⟩
    exact ⟨hecho, T, hwin, htape⟩

/-- Every sequence of keys. -/
theorem OnScreen.loop : ∀ (cs : List Int) {e : Editor δ}, OnScreen e →
    (∀ c ∈ cs, 1 ≤ c ∧ c ≤ 255) →
    ∃ r, readlineLoop d cs e = .ok r ∧ ∀ e', r = .more e' → OnScreen e'
  | [], e, h, _ => ⟨.more e, rfl, fun e' he' => by cases he'; exact h⟩
  | c :: cs, e, h, hcs => by
    obtain ⟨⟨h0, h1⟩, hrest⟩ := List.forall_mem_cons.mp hcs
    obtain ⟨r, hr, hkeep⟩ := h.step d h0 h1
    rw [readlineLoop, hr]
    cases r with
    | more e' => exact OnScreen.loop cs (hkeep e' rfl) hrest
    | null e' => exact ⟨.null e', rfl, fun _ he => by cases he⟩
    | line e' => exact ⟨.line e', rfl, fun _ he => by cases he⟩

/-- The relation between the screen and the buffer, cell by cell. -/
theorem OnScreen.cells {e : Editor δ} (h : OnScreen e) :
    0 ≤ e.i ∧ e.i ≤ BUFLEN - 1 ∧ e.i ≤ e.con.crt.pos ∧
      ∀ k : Nat, (k : Int) < e.i →
        e.con.crt.buf (e.con.crt.pos - e.i.toNat + k) = typedCell (e.buf k) := by
  obtain ⟨-, T, hwin, htape⟩ := h
  have hpos := hwin.pos
  have hon := hwin.onScreen
  have hinside := htape.inside
  have hnonneg := htape.nonneg
  refine ⟨htape.nonneg, htape.bound, by omega, fun k hk => ?_⟩
  rw [hwin.cells _ (by omega), ← htape.cells k hk]
  congr 1
  omega

/-- The initial values of the loop, behind any prompt. -/
theorem readlineStart_onScreen {prompt : Option CStr} {buf : Int → Byte} {m : Console δ}
    {e : Editor δ} (h : readlineStart d prompt buf m = .ok e) (hpos : e.con.crt.pos < CRT_SIZE) :
    OnScreen e := by
  have hvalues : e.echoing = 1 ∧ e.i = 0 := by
    cases prompt with
    | none =>
      cases h
      exact ⟨rfl, rfl⟩
    | some p =>
      obtain ⟨con, -, he⟩ := bind_ok.mp h
      cases he
      exact ⟨rfl, rfl⟩
  refine ⟨hvalues.1, _, Window.ofScreen hpos, ?_⟩
  rw [hvalues.2]
  exact OnTape.start (by simp [Terminal.ofScreen])

/-- **What the user sees is what `readline` has.** -/
theorem readline_on_screen (prompt : Option CStr) (buf : Int → Byte) (m : Console δ)
    (e : Editor δ) (hstart : readlineStart d prompt buf m = .ok e)
    (hpos : e.con.crt.pos < CRT_SIZE) (cs : List Int) (hcs : ∀ c ∈ cs, 1 ≤ c ∧ c ≤ 255) :
    ∃ r, readlineLoop d cs e = .ok r ∧ ∀ e', r = .more e' →
      0 ≤ e'.i ∧ e'.i ≤ BUFLEN - 1 ∧ e'.i ≤ e'.con.crt.pos ∧
      ∀ k : Nat, (k : Int) < e'.i →
        e'.con.crt.buf (e'.con.crt.pos - e'.i.toNat + k) = 0x0700 ||| (e'.buf k).setWidth 16 := by
  obtain ⟨r, hr, hkeep⟩ := (readlineStart_onScreen d hstart hpos).loop d cs hcs
  exact ⟨r, hr, fun e' he' => (hkeep e' he').cells⟩

/-- `AB` from the last cell on, where the screen scrolls with the line; two backspaces, the second
    from the first column behind the scroll; and `C`. -/
theorem readline_on_screen_last :
    ∃ e', readlineLoop readyDevice [0x41, 0x42, 0x08, 0x08, 0x43] ⟨lastCell, fun _ => 0, 0, 1⟩ =
        .ok (.more e') ∧ e'.i = 1 ∧ 1 ≤ e'.con.crt.pos ∧
      e'.con.crt.buf (e'.con.crt.pos - 1) = 0x0743 := by
  obtain ⟨r, hr, hshown⟩ := readline_on_screen readyDevice none (fun _ => 0) lastCell _ rfl
    (by decide) [0x41, 0x42, 0x08, 0x08, 0x43] (by decide)
  have hmore : ∃ e', readlineLoop readyDevice [0x41, 0x42, 0x08, 0x08, 0x43]
      ⟨lastCell, fun _ => 0, 0, 1⟩ = .ok (.more e') ∧ e'.i = 1 ∧ e'.buf 0 = 0x43 :=
    ⟨_, rfl, rfl, rfl⟩
  obtain ⟨e', hrun, hi, hbuf⟩ := hmore
  obtain ⟨-, -, hpos, hcells⟩ := hshown e' (Except.ok.inj (hr.symm.trans hrun))
  have hcell := hcells 0 (by rw [hi]; decide)
  rw [hi, Int.natCast_zero, hbuf] at hcell
  exact ⟨e', hrun, hi, by omega, hcell⟩

end Jos
