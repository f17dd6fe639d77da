import JosKernel.Foundation.Transducer
import JosKernel.Monitor.Commands
import JosKernel.Monitor.LineEditor

/-!
# A session with the monitor

`monitor` of `kern/monitor.c` with `readline` and `runcmd`, one step for each result of
`getchar`.  `readline` keeps the line in a static array, and `runcmd` cuts it into arguments
there, over what the next line will be stored on.

`shell` is what the monitor is for: a machine whose state is the line so far, and which answers
each line and prompts for the next.  Principal result: `monitor_is_shell` — whatever is typed,
the monitor never fails and never returns, and it prints what the shell prints.
-/

set_option autoImplicit false

namespace Jos

open Transducer

/-! ## The monitor -/

def PROMPT : CStr := CStr.ofString "K> "

/-- Where the monitor is between two calls of `getchar`. -/
inductive Monitor (δ : Type) where
  /-- at `getchar` in `readline` -/
  | reading (e : Editor δ)
  /-- behind the `break` -/
  | left (con : Console δ) (buf : Int → Byte)

/-- The array `buf` of `readline`. -/
def bufferBytes (buf : Int → Byte) : List Byte := (List.range 1024).map fun k : Nat => buf k

/-- A block stored from the start of the array on. -/
def storeBlock (block : List Byte) (buf : Int → Byte) (a : Int) : Byte :=
  if 0 ≤ a then (block[a.toNat]?).getD (buf a) else buf a

def Parsed.block : Parsed → List Byte
  | .args a => a.buf.block
  | .tooMany a => a.buf.block

section

variable {δ : Type} (d : Device δ) (syms : KernelSymbols)

/-- `readline("K> ")` up to its first `getchar`. -/
def monitorPrompt (buf : Int → Byte) (m : Console δ) : Except Fault (Monitor δ) :=
  (readlineStart d (some PROMPT) buf m).map .reading

/-- `monitor` up to its first `getchar`. -/
def monitorStart (buf : Int → Byte) (m : Console δ) : Except Fault (Monitor δ) := do
  let (m, _) ← vcprintf d (CStr.ofString "Welcome to the JOS kernel monitor!\n") [] m
  let (m, _) ← vcprintf d (CStr.ofString "Type 'help' for a list of commands.\n") [] m
  monitorPrompt d buf m

/-- `if (runcmd(buf, tf) < 0) break;` and the next `readline`. -/
def monitorCommand (stack : Nat → Option Nat) (e : Editor δ) : Except Fault (Monitor δ) := do
  let line ← cstrAt (bufferBytes e.buf) 0
  let parsed ← parse line stack
  let (con, result) ← runcmd d syms line stack e.con
  let buf := storeBlock parsed.block e.buf
  if result < 0 then .ok (.left con buf) else monitorPrompt d buf con

/-- From one `getchar` to the next: its result, and what the stack holds where a call of `runcmd`
    has `argv`. -/
def monitorStep (g : Monitor δ) (key : Int × (Nat → Option Nat)) : Except Fault (Monitor δ) :=
  match g with
  | .left con buf => .ok (.left con buf)
  | .reading e => do
      match ← readlineStep d key.1 e with
      | .more e => .ok (.reading e)
      | .null e => monitorPrompt d e.buf e.con
      | .line e => monitorCommand d syms key.2 e

end

/-! ## The shell -/

/-- The string that starts a sequence of bytes. -/
def cstrOf (s : List Byte) : CStr := ⟨s.takeWhile (· != 0), nul_free_takeWhile s⟩

/-- What is echoed for a key that does not end the line. -/
def keyEcho (s : List Byte) (c : Int) : List Int :=
  if IsErase c ∧ s ≠ [] then [(char '\x08').toInt]
  else if c ≥ (char ' ').toInt ∧ (s.length : Int) < BUFLEN - 1 then [c]
  else []

/-- The line so far is the state; a key that ends it is answered. -/
def shell (syms : KernelSymbols) : Machine (List Byte) Int Int where
  next s c := if IsEnd c then [] else storeKey s c
  emit s c :=
    if IsEnd c then (char '\n').toInt :: (response syms (cstrOf s) ++ plain PROMPT.bytes)
    else keyEcho s c

def welcomeText : List Int :=
  plain (CStr.ofString "Welcome to the JOS kernel monitor!\n").bytes ++
    plain (CStr.ofString "Type 'help' for a list of commands.\n").bytes ++ plain PROMPT.bytes

/-! ## The buffer -/

theorem cstrOf_of_nul_free {s : List Byte} (h : (0 : Byte) ∉ s) : cstrOf s = ⟨s, h⟩ := by
  have hall : ∀ b ∈ s, (b != 0) = true := fun b hb => by
    rw [bne_iff_ne]
    exact fun h0 => h (h0 ▸ hb)
  unfold cstrOf
  congr 1
  have htake := @List.takeWhile_append_of_pos _ (· != 0) s [] hall
  rwa [List.takeWhile_nil, List.append_nil] at htake

/-- The string that `readline` leaves is what `runcmd` is given. -/
theorem cstrAt_buffer {buf : Int → Byte} {s : List Byte} (h : IsString buf s)
    (hbound : (s.length : Int) ≤ BUFLEN - 1) : cstrAt (bufferBytes buf) 0 = .ok (cstrOf s) := by
  have hlen : (s ++ [0]).length ≤ (bufferBytes buf).length := by
    have hbuf : BUFLEN = 1024 := rfl
    rw [List.length_append, List.length_singleton, bufferBytes, List.length_map, List.length_range]
    omega
  have htoken : s ++ [0] <+: (bufferBytes buf).drop 0 := by
    rw [List.drop_zero, List.prefix_iff_eq_take]
    refine List.ext_getElem (by rw [List.length_take]; omega) fun k h1 h2 => ?_
    rw [List.getElem_take]
    simp only [bufferBytes, List.getElem_map, List.getElem_range]
    by_cases hk : k < s.length
    · rw [List.getElem_append_left hk, h.bytes k hk]
    · rw [List.length_append, List.length_singleton] at h1
      obtain rfl : k = s.length := by omega
      rw [List.getElem_concat_length rfl, h.terminator]
  rw [cstrAt_of_token htoken h.nul_free, cstrOf_of_nul_free h.nul_free]

theorem Cursor.block_length (p : Cursor) : p.block.length = p.before.length + p.after.length := by
  rw [Cursor.block, List.length_append, List.length_reverse]

/-- The parser overwrites characters, so that the block keeps its length. -/
theorem gobbleWhitespace_length : ∀ (after before : List Byte) {p : Cursor},
    gobbleWhitespace before after = .ok p → p.block.length = before.length + after.length
  | [], _, _, h => nomatch h
  | c :: after, before, p, h => by
    rw [gobbleWhitespace] at h
    split at h
    · rw [gobbleWhitespace_length after _ h, List.length_cons, List.length_cons]
      omega
    · cases h
      exact Cursor.block_length _

theorem scanPastArg_length : ∀ (after before : List Byte) {p : Cursor},
    scanPastArg before after = .ok p → p.block.length = before.length + after.length
  | [], _, _, h => nomatch h
  | c :: after, before, p, h => by
    rw [scanPastArg] at h
    split at h
    · rw [scanPastArg_length after _ h, List.length_cons, List.length_cons]
      omega
    · cases h
      exact Cursor.block_length _

theorem parseLoop_length : ∀ (fuel : Nat) (a : Args) {p : Parsed}, parseLoop fuel a = .ok p →
    p.block.length = a.buf.block.length
  | 0, _, _, h => nomatch h
  | fuel + 1, a, p, h => by
    obtain ⟨buf, hgobble, h⟩ := bind_ok.mp h
    have hbuf := gobbleWhitespace_length _ _ hgobble
    rw [← a.buf.block_length] at hbuf
    obtain ⟨c, -, h⟩ := bind_ok.mp h
    split at h
    · obtain ⟨argv, -, h⟩ := bind_ok.mp h
      cases h
      exact hbuf
    · split at h
      · cases h
        exact hbuf
      · obtain ⟨argv, -, h⟩ := bind_ok.mp h
        obtain ⟨buf', hscan, h⟩ := bind_ok.mp h
        rw [parseLoop_length fuel _ h, scanPastArg_length _ _ hscan, ← buf.block_length, hbuf]

theorem parse_length {line : CStr} {stack : Nat → Option Nat} {p : Parsed}
    (h : parse line stack = .ok p) : p.block.length = line.bytes.length + 1 := by
  obtain ⟨argv, -, h⟩ := bind_ok.mp h
  rw [parseLoop_length _ _ h, Cursor.block_length]
  simp [CStr.start]

/-- The parser stores inside the array. -/
theorem storeBlock_outside {block : List Byte} (h : (block.length : Int) ≤ BUFLEN)
    (buf : Int → Byte) {a : Int} (ha : ¬(0 ≤ a ∧ a < BUFLEN)) : storeBlock block buf a = buf a := by
  unfold storeBlock
  split
  · rw [List.getElem?_eq_none (by omega)]
    rfl
  · rfl

/-! ## The monitor is the shell -/

section

variable {δ : Type} {d : Device δ} {syms : KernelSymbols} {outside : Int → Byte} {m : Console δ}
  {e : Editor δ} {s : List Byte} {out : List Int}

/-- What every key finds: the line so far is in the buffer, and the console has the output. -/
structure AtKey (d : Device δ) (outside : Int → Byte) (m : Console δ) (e : Editor δ)
    (s : List Byte) (out : List Int) : Prop where
  held : Held outside e.buf e.i s
  echoing : e.echoing = 1
  con : e.con = emit (cputchar d) out m

/-- The console behind a key of the line. -/
theorem readlineStep_con (h : AtKey d outside m e s out) {c : Int} (h0 : 1 ≤ c) (hc : ¬IsEnd c)
    {e' : Editor δ} (hstep : readlineStep d c e = .ok (.more e')) :
    e'.echoing = 1 ∧ e'.con = emit (cputchar d) (keyEcho s c) e.con := by
  obtain ⟨⟨hlen, -, -, -, -⟩, hecho, -⟩ := h
  unfold readlineStep at hstep
  rw [if_neg (show ¬c < 0 by omega)] at hstep
  simp only [echo_eq d hecho] at hstep
  unfold keyEcho
  by_cases herase : IsErase c ∧ s ≠ []
  · have hi : e.i > 0 := by
      have := List.length_pos_iff.mpr herase.2
      omega
    rw [if_pos ⟨herase.1, hi⟩] at hstep
    cases hstep
    rw [if_pos herase]
    exact ⟨hecho, rfl⟩
  · have hnot : ¬((c = (char '\x08').toInt ∨ c = (char '\x7f').toInt) ∧ e.i > 0) := by
      rintro ⟨hkey, hi⟩
      refine herase ⟨hkey, fun hs => ?_⟩
      rw [hs, List.length_nil] at hlen
      omega
    rw [if_neg hnot, hlen] at hstep
    rw [if_neg herase]
    by_cases hchar : c ≥ (char ' ').toInt ∧ (s.length : Int) < BUFLEN - 1
    · rw [if_pos hchar] at hstep
      cases hstep
      rw [if_pos hchar]
      exact ⟨hecho, rfl⟩
    · have hno : ¬(c = (char '\n').toInt ∨ c = (char '\r').toInt) := hc
      rw [if_neg hchar, if_neg hno] at hstep
      cases hstep
      rw [if_neg hchar]
      exact ⟨hecho, rfl⟩

/-- The key that ends the line is echoed as a newline. -/
theorem readlineStep_end (hecho : e.echoing = 1) {c : Int} (hc : IsEnd c) :
    readlineStep d c e = .ok (.line { e with
      con := cputchar d (char '\n').toInt e.con
      buf := Function.update e.buf e.i 0 }) := by
  have hcode : c = 10 ∨ c = 13 := hc
  have herase : ¬((c = (char '\x08').toInt ∨ c = (char '\x7f').toInt) ∧ e.i > 0) := by
    rintro ⟨hkey, -⟩
    have hkey : c = 8 ∨ c = 127 := hkey
    omega
  have hchar : ¬(c ≥ (char ' ').toInt ∧ e.i < BUFLEN - 1) := by
    rintro ⟨hkey, -⟩
    have hkey : c ≥ 32 := hkey
    omega
  unfold readlineStep
  rw [if_neg (show ¬c < 0 by omega), if_neg herase, if_neg hchar]
  simp only [echo_eq d hecho]
  exact if_pos hc

theorem readlineStart_prompt (p : CStr) (buf : Int → Byte) (m : Console δ) :
    readlineStart d (some p) buf m = .ok ⟨emit (cputchar d) (stringText p.bytes) m, buf, 0, 1⟩ := by
  unfold readlineStart
  simp only [vcprintf_of_output d (output_string p) m, map_ok]
  rfl

theorem prompt_text : stringText PROMPT.bytes = plain PROMPT.bytes := by decide

/-- The prompt for a line; what was in the buffer is not looked at. -/
theorem monitorPrompt_spec {buf : Int → Byte}
    (hframe : ∀ a, ¬(0 ≤ a ∧ a < BUFLEN) → buf a = outside a) (m : Console δ) (out : List Int) :
    ∃ e', monitorPrompt d buf (emit (cputchar d) out m) = .ok (.reading e') ∧
      AtKey d outside m e' [] (out ++ plain PROMPT.bytes) := by
  refine ⟨_, by rw [monitorPrompt, readlineStart_prompt]; rfl, ?_⟩
  refine ⟨⟨rfl, by decide, nofun, nofun, hframe⟩, rfl, ?_⟩
  rw [emit_append, prompt_text]

/-- **A line is answered**, and the buffer is ready for the next one. -/
theorem monitorCommand_spec (e : Editor δ) (hstring : IsString e.buf s)
    (hbound : (s.length : Int) ≤ BUFLEN - 1)
    (hframe : ∀ a, ¬(0 ≤ a ∧ a < BUFLEN) → e.buf a = outside a)
    (hcon : e.con = emit (cputchar d) out m) (stack : Nat → Option Nat) :
    ∃ e', monitorCommand d syms stack e = .ok (.reading e') ∧
      AtKey d outside m e' [] (out ++ (response syms (cstrOf s) ++ plain PROMPT.bytes)) := by
  obtain ⟨parsed, hparse⟩ : ∃ parsed, parse (cstrOf s) stack = .ok parsed := by
    rcases parse_spec (cstrOf s) stack with ⟨-, a, hparse, -⟩ | ⟨-, a, hparse, -⟩ <;>
      exact ⟨_, hparse⟩
  have hlen : (parsed.block.length : Int) ≤ BUFLEN := by
    rw [parse_length hparse, cstrOf_of_nul_free hstring.nul_free]
    simp only [Nat.cast_add, Nat.cast_one]
    omega
  have hstored : ∀ a, ¬(0 ≤ a ∧ a < BUFLEN) → storeBlock parsed.block e.buf a = outside a :=
    fun a ha => by rw [storeBlock_outside hlen e.buf ha, hframe a ha]
  obtain ⟨e', hprompt, hkey⟩ := @monitorPrompt_spec _ d _ _ hstored m
    (out ++ response syms (cstrOf s))
  refine ⟨e', ?_, by rw [← List.append_assoc]; exact hkey⟩
  unfold monitorCommand
  rw [cstrAt_buffer hstring hbound]
  simp only [Bind.bind, Except.bind, hparse, runcmd_responds d syms]
  rw [if_neg (by decide), hcon, ← emit_append, hprompt]

/-- **One key**: the monitor does what the shell does. -/
theorem monitor_represents (d : Device δ) (syms : KernelSymbols) (outside : Int → Byte)
    (m : Console δ) :
    Represents (monitorStep d syms) (shell syms) Prod.fst (fun key => 1 ≤ key.1 ∧ key.1 ≤ 255)
      (fun g s out => ∃ e, g = .reading e ∧ AtKey d outside m e s out) := by
  rintro _ s out ⟨c, stack⟩ ⟨e, rfl, h⟩ ⟨h0, h1⟩
  simp only at h0 h1
  by_cases hc : IsEnd c
  · obtain ⟨hstring, hframe⟩ := h.held.terminate
    have hnewline : cputchar d (char '\n').toInt e.con =
        emit (cputchar d) (out ++ [(char '\n').toInt]) m := by
      rw [emit_append, ← h.con]
      rfl
    obtain ⟨e', hcommand, hkey⟩ := @monitorCommand_spec _ d syms _ _ _ _
      { e with con := cputchar d (char '\n').toInt e.con, buf := Function.update e.buf e.i 0 }
      hstring h.held.bound hframe hnewline stack
    refine ⟨_, ?_, e', rfl, ?_⟩
    · simp only [monitorStep, readlineStep_end h.echoing hc, Bind.bind, Except.bind]
      exact hcommand
    · simp only [shell, if_pos hc]
      rw [List.append_cons]
      exact hkey
  · obtain ⟨e', hstep, hheld⟩ := h.held.step h0 h1 hc
    obtain ⟨hecho, hcon⟩ := readlineStep_con h h0 hc hstep
    refine ⟨.reading e', by rw [monitorStep, hstep]; rfl, e', rfl, ?_⟩
    simp only [shell, if_neg hc]
    refine ⟨hheld, hecho, ?_⟩
    rw [hcon, emit_append, ← h.con]

/-- `monitor` is entered; what was in the buffer is not looked at. -/
theorem monitorStart_spec {buf : Int → Byte}
    (hframe : ∀ a, ¬(0 ≤ a ∧ a < BUFLEN) → buf a = outside a) (m : Console δ) (out : List Int) :
    ∃ e, monitorStart d buf (emit (cputchar d) out m) = .ok (.reading e) ∧
      AtKey d outside m e [] (out ++ welcomeText) := by
  have hwelcome : output (CStr.ofString "Welcome to the JOS kernel monitor!\n") [] = .ok
      (plain (CStr.ofString "Welcome to the JOS kernel monitor!\n").bytes) :=
    output_text (by decide +kernel) []
  have htype : output (CStr.ofString "Type 'help' for a list of commands.\n") [] = .ok
      (plain (CStr.ofString "Type 'help' for a list of commands.\n").bytes) :=
    output_text (by decide +kernel) []
  unfold monitorStart
  simp only [vcprintf_bind d hwelcome, vcprintf_bind d htype, ← emit_append]
  rw [welcomeText, ← List.append_assoc, ← List.append_assoc]
  exact monitorPrompt_spec hframe m _

end

section

variable {δ : Type} (d : Device δ) (syms : KernelSymbols)

/-- The monitor over the results of `getchar`. -/
def monitor (buf : Int → Byte) (m : Console δ) (keys : List (Int × (Nat → Option Nat))) :
    Except Fault (Monitor δ) := do
  let g ← monitorStart d buf m
  run (monitorStep d syms) g keys

/-- What the monitor has printed behind a sequence of keys. -/
def transcript (cs : List Int) : List Int := welcomeText ++ (shell syms).output [] cs

/-- **The monitor is the shell**: for every sequence of keys it is at the next call of `getchar`,
    the console has the transcript, the buffer has the line so far, and no other memory is
    written. -/
theorem monitor_is_shell (buf : Int → Byte) (m : Console δ)
    (keys : List (Int × (Nat → Option Nat))) (hkeys : ∀ key ∈ keys, 1 ≤ key.1 ∧ key.1 ≤ 255) :
    ∃ e, monitor d syms buf m keys = .ok (.reading e) ∧
      e.con = emit (cputchar d) (transcript syms (keys.map Prod.fst)) m ∧
      e.i = ((shell syms).state [] (keys.map Prod.fst)).length ∧
      (∀ (k : Nat) (hk : k < ((shell syms).state [] (keys.map Prod.fst)).length),
        e.buf k = ((shell syms).state [] (keys.map Prod.fst))[k]) ∧
      ∀ a, ¬(0 ≤ a ∧ a < BUFLEN) → e.buf a = buf a := by
  obtain ⟨e, hstart, hkey⟩ := @monitorStart_spec _ d buf _ (fun _ _ => rfl) m []
  rw [List.nil_append] at hkey
  obtain ⟨g, hrun, e', rfl, hkey'⟩ :=
    (monitor_represents d syms buf m).run keys ⟨e, rfl, hkey⟩ hkeys
  refine ⟨e', ?_, hkey'.con, hkey'.held.length, hkey'.held.bytes, hkey'.held.frame⟩
  have hstart : monitorStart d buf m = .ok (.reading e) := hstart
  rw [monitor, hstart]
  exact hrun

/-- Two keys and the end of the line. -/
theorem monitor_is_shell_typed :
    ∃ e, monitor readyDevice linkedImage (fun _ => 0) lastCell
        [(0x68, fun _ => none), (0x69, fun _ => none), (0x0d, fun _ => none)] =
          .ok (.reading e) ∧
      e.con = emit (cputchar readyDevice) (transcript linkedImage [0x68, 0x69, 0x0d]) lastCell := by
  obtain ⟨e, hrun, hcon, -⟩ := monitor_is_shell readyDevice linkedImage (fun _ => 0) lastCell
    [(0x68, fun _ => none), (0x69, fun _ => none), (0x0d, fun _ => none)] (by simp)
  exact ⟨e, hrun, hcon⟩

end

/-! ## Lines -/

/-- The keys of a line leave the line that `readline` stores. -/
theorem shell_state_line (syms : KernelSymbols) : ∀ (cs : List Int) (s : List Byte),
    (∀ c ∈ cs, ¬IsEnd c) → (shell syms).state s cs = cs.foldl storeKey s
  | [], _, _ => rfl
  | c :: cs, s, h => by
    obtain ⟨hc, hcs⟩ := List.forall_mem_cons.mp h
    rw [Machine.state, shell_state_line syms cs _ hcs]
    simp only [shell, if_neg hc, List.foldl_cons]

/-- **A line is answered once it ends**: behind its keys and the end of the line come the
    response to the stored line and the prompt, and the next line starts anew. -/
theorem shell_output_line (syms : KernelSymbols) {cs : List Int} (hcs : ∀ c ∈ cs, ¬IsEnd c)
    {c : Int} (hc : IsEnd c) (rest : List Int) :
    (shell syms).output [] (cs ++ c :: rest) =
      (shell syms).output [] cs ++ (char '\n').toInt ::
        (response syms (cstrOf (storedLine cs)) ++ plain PROMPT.bytes) ++
        (shell syms).output [] rest := by
  have hline : (shell syms).emit (storedLine cs) c = (char '\n').toInt ::
      (response syms (cstrOf (storedLine cs)) ++ plain PROMPT.bytes) := if_pos hc
  have hnext : (shell syms).next (storedLine cs) c = [] := if_pos hc
  have hstate : (shell syms).state [] cs = storedLine cs := shell_state_line syms cs [] hcs
  rw [output_append, hstate, Machine.output, hline, hnext, List.append_assoc]

/-- A backspace, and a line that names no command. -/
example : (shell linkedImage).output [] [0x68, 0x78, 0x08, 0x69, 0x0d] =
    plain (CStr.ofString "hx\x08i\nUnknown command 'hi'\nK> ").bytes := by decide +kernel

end Jos
