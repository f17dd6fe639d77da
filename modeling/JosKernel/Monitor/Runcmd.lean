import JosKernel.Format.Number
import JosKernel.Foundation.Words
import JosKernel.Lib.CString

/-!
# The command line of the monitor

`runcmd` of `kern/monitor.c`: the parser that cuts the line into arguments where it stands, and
the lookup of the command.  A pointer into the line is an offset, `none` is the null pointer;
an access outside the line or outside `argv` is a `Fault`.

Principal results: `parse_spec` — the arguments are the words of the line, up to 15 of them;
`lookup_eq` — the command is the first with the name; `runcmd_runs_words` — what a line does.
-/

set_option autoImplicit false

namespace Jos

open Words

/-! ## The parser -/

def WHITESPACE : CStr := CStr.ofString "\t\r\n "

def MAXARGS : Nat := 16

/-- The variables of the parser. -/
structure Args where
  buf : Cursor
  argc : Nat
  argv : Nat → Option Nat

/-- A pointer as an offset into its string. -/
def Cursor.offset (p : Cursor) : Nat := p.before.length

/-- The bytes that the string of a pointer has now. -/
def Cursor.block (p : Cursor) : List Byte := p.before.reverse ++ p.after

/-- `*p`. -/
def Cursor.read (p : Cursor) : Except Fault Byte := p.next.map Prod.fst

/-- `argv[i] = p`. -/
def setArgv (i : Nat) (p : Option Nat) (argv : Nat → Option Nat) :
    Except Fault (Nat → Option Nat) :=
  if i < MAXARGS then .ok (Function.update argv i p) else .error .outside

/-- `while (*buf && strchr(WHITESPACE, *buf)) *buf++ = 0;` -/
def gobbleWhitespace : List Byte → List Byte → Except Fault Cursor
  | _, [] => .error .outside
  | before, c :: after =>
      if c ≠ 0 ∧ (strchr WHITESPACE c).isSome then gobbleWhitespace (0 :: before) after
      else .ok ⟨before, c :: after⟩

/-- `while (*buf && !strchr(WHITESPACE, *buf)) buf++;` -/
def scanPastArg : List Byte → List Byte → Except Fault Cursor
  | _, [] => .error .outside
  | before, c :: after =>
      if c ≠ 0 ∧ ¬(strchr WHITESPACE c).isSome then scanPastArg (c :: before) after
      else .ok ⟨before, c :: after⟩

/-- How the parser ends. -/
inductive Parsed where
  /-- behind `argv[argc] = 0` -/
  | args (a : Args)
  /-- at the message about too many arguments -/
  | tooMany (a : Args)

/-- `while (1)`, with a bound on the passes. -/
def parseLoop : Nat → Args → Except Fault Parsed
  | 0, _ => .error .fuel
  | fuel + 1, a => do
      -- gobble whitespace
      let buf ← gobbleWhitespace a.buf.before a.buf.after
      if (← buf.read) = 0 then
        let argv ← setArgv a.argc none a.argv
        .ok (.args { a with buf, argv })
      -- save and scan past next arg
      else if a.argc = MAXARGS - 1 then .ok (.tooMany { a with buf })
      else
        let argv ← setArgv a.argc (some buf.offset) a.argv
        let buf ← scanPastArg buf.before buf.after
        parseLoop fuel { buf, argc := a.argc + 1, argv }

/-- The parser of `runcmd`; `stack` is what `argv` holds before. -/
def parse (line : CStr) (stack : Nat → Option Nat) : Except Fault Parsed := do
  let argv ← setArgv 0 none stack
  parseLoop MAXARGS ⟨line.start, 0, argv⟩

/-! ## The commands -/

/-- The functions that a command can have. -/
inductive Handler where
  | help
  | kerninfo
  deriving DecidableEq, Repr

structure Command where
  name : CStr
  desc : CStr
  func : Handler

def commands : List Command :=
  [⟨CStr.ofString "help", CStr.ofString "Display this list of commands", .help⟩,
    ⟨CStr.ofString "kerninfo", CStr.ofString "Display information about the kernel",
      .kerninfo⟩]

/-- The symbols of the linker. -/
structure KernelSymbols where
  start : Word
  entry : Word
  etext : Word
  edata : Word
  end_ : Word

def KERNBASE : Word := 0xF0000000#32

def ROUNDUP (a n : Word) : Word := a + n - 1#32 - (a + n - 1#32) % n

section

variable {δ : Type} (d : Device δ) (syms : KernelSymbols)

/-- The loop of `mon_help`. -/
def monHelpLoop : List Command → Console δ → Except Fault (Console δ)
  | [], m => .ok m
  | c :: cs, m => do
      let (m, _) ← vcprintf d (CStr.ofString "%s - %s\n") [.str c.name, .str c.desc] m
      monHelpLoop cs m

def monHelp (m : Console δ) : Except Fault (Console δ × Int) := do
  let m ← monHelpLoop d commands m
  .ok (m, 0)

def monKerninfo (m : Console δ) : Except Fault (Console δ × Int) := do
  let (m, _) ← vcprintf d (CStr.ofString "Special kernel symbols:\n") [] m
  let (m, _) ← vcprintf d (CStr.ofString "  _start                  %08x (phys)\n")
    [.word syms.start] m
  let (m, _) ← vcprintf d (CStr.ofString "  entry  %08x (virt)  %08x (phys)\n")
    [.word syms.entry, .word (syms.entry - KERNBASE)] m
  let (m, _) ← vcprintf d (CStr.ofString "  etext  %08x (virt)  %08x (phys)\n")
    [.word syms.etext, .word (syms.etext - KERNBASE)] m
  let (m, _) ← vcprintf d (CStr.ofString "  edata  %08x (virt)  %08x (phys)\n")
    [.word syms.edata, .word (syms.edata - KERNBASE)] m
  let (m, _) ← vcprintf d (CStr.ofString "  end    %08x (virt)  %08x (phys)\n")
    [.word syms.end_, .word (syms.end_ - KERNBASE)] m
  let (m, _) ← vcprintf d (CStr.ofString "Kernel executable memory footprint: %dKB\n")
    [.word ((ROUNDUP (syms.end_ - syms.entry) 1024#32).sdiv 1024#32)] m
  .ok (m, 0)

/-- `func(argc, argv, tf)`; neither function uses its arguments. -/
def Handler.call (func : Handler) (_ : Args) (m : Console δ) : Except Fault (Console δ × Int) :=
  match func with
  | .help => monHelp d m
  | .kerninfo => monKerninfo d syms m

/-- The command at which the lookup stops; `argv0` is the line from `argv[0]` on. -/
def lookup (argv0 : List Byte) : List Command → Except Fault (Option Command)
  | [] => .ok none
  | c :: cs => do
      if (← strcmp argv0 c.name.cells) = 0 then .ok (some c) else lookup argv0 cs

/-- `runcmd`. -/
def runcmd (line : CStr) (stack : Nat → Option Nat) (m : Console δ) :
    Except Fault (Console δ × Int) := do
  match ← parse line stack with
  | .tooMany _ =>
      let (m, _) ← vcprintf d (CStr.ofString "Too many arguments (max %d)\n")
        [.word (BitVec.ofNat 32 MAXARGS)] m
      .ok (m, 0)
  | .args a =>
      if a.argc = 0 then .ok (m, 0)
      else match a.argv 0 with
      | none => .error .outside
      | some p =>
          match ← lookup (a.buf.block.drop p) commands with
          | some c => c.func.call d syms a m
          | none =>
              let argv0 ← cstrAt a.buf.block p
              let (m, _) ← vcprintf d (CStr.ofString "Unknown command '%s'\n") [.str argv0] m
              .ok (m, 0)

end

/-! ## The arguments of a line -/

def isWhitespace (c : Byte) : Bool := WHITESPACE.bytes.contains c

/-- The words of a line. -/
def arguments (line : CStr) : List (List Byte) := words isWhitespace line.bytes

/-- What the parser leaves of a character. -/
def blank (c : Byte) : Byte := if isWhitespace c then 0 else c

/-- A line with its whitespace overwritten. -/
def cutLine (line : CStr) : List Byte := line.bytes.map blank ++ [0]

theorem strchr_whitespace (c : Byte) : (strchr WHITESPACE c).isSome = isWhitespace c := by
  rw [Bool.eq_iff_iff, strchr_isSome, isWhitespace, List.contains_iff_mem]

theorem isWhitespace_zero : isWhitespace 0 = false := by decide

/-- Whitespace is overwritten up to the next character that is none. -/
theorem gobbleWhitespace_seps {rest : List Byte}
    (hrest : ∀ c ∈ rest.head?, isWhitespace c = false) :
    ∀ (p before : List Byte), (∀ c ∈ p, isWhitespace c = true) →
      gobbleWhitespace before (p ++ (rest ++ [0])) =
        .ok ⟨(p.map blank).reverse ++ before, rest ++ [0]⟩
  | [], before, _ => by
    cases rest with
    | nil => rfl
    | cons c rest =>
      have hc : isWhitespace c = false := hrest c rfl
      refine if_neg fun h => ?_
      rw [strchr_whitespace, hc] at h
      exact absurd h.2 (by decide)
  | c :: p, before, hp => by
    obtain ⟨hc, hp⟩ := List.forall_mem_cons.mp hp
    have hne : c ≠ 0 := fun h => by
      rw [h, isWhitespace_zero] at hc
      cases hc
    have hblank : blank c = 0 := if_pos hc
    rw [List.cons_append, gobbleWhitespace, strchr_whitespace, if_pos ⟨hne, hc⟩,
      gobbleWhitespace_seps hrest p _ hp, List.map_cons, hblank, List.reverse_cons,
      List.append_assoc]
    rfl

/-- An argument is passed over. -/
theorem scanPastArg_token {rest : List Byte} (hrest : ∀ c ∈ rest.head?, isWhitespace c = true) :
    ∀ (w before : List Byte), (∀ c ∈ w, isWhitespace c = false) → (0 : Byte) ∉ w →
      scanPastArg before (w ++ (rest ++ [0])) = .ok ⟨w.reverse ++ before, rest ++ [0]⟩
  | [], before, _, _ => by
    cases rest with
    | nil => rfl
    | cons c rest =>
      have hc : isWhitespace c = true := hrest c rfl
      refine if_neg fun h => ?_
      rw [strchr_whitespace, hc] at h
      exact h.2 rfl
  | c :: w, before, hw, h0 => by
    obtain ⟨hc, hw⟩ := List.forall_mem_cons.mp hw
    obtain ⟨hne, h0⟩ := not_or.mp (fun h => h0 (List.mem_cons.mpr h))
    rw [List.cons_append, scanPastArg, strchr_whitespace, hc,
      if_pos ⟨Ne.symm hne, Bool.false_ne_true⟩, scanPastArg_token hrest w _ hw h0,
      List.reverse_cons, List.append_assoc]
    rfl

/-- Each of the first arguments points to its word in the cut line. -/
def Holds (block : List Byte) (argv : Nat → Option Nat) (ws : List (List Byte)) : Prop :=
  ∀ k (h : k < ws.length), ∃ p, argv k = some p ∧ ws[k] ++ [0] <+: block.drop p

/-- The parser between two passes: the words `ws` are done and the text `rest` is left. -/
structure Parsing (line : CStr) (stack : Nat → Option Nat) (a : Args) (ws : List (List Byte))
    (rest : List Byte) : Prop where
  after : a.buf.after = rest ++ [0]
  block : a.buf.before.reverse ++ (rest.map blank ++ [0]) = cutLine line
  words : arguments line = ws ++ words isWhitespace rest
  argc : a.argc = ws.length
  strings : Holds (cutLine line) a.argv ws
  nul_free : ∀ w ∈ ws, (0 : Byte) ∉ w
  rest_nul_free : (0 : Byte) ∉ rest
  frame : ∀ i, MAXARGS ≤ i → a.argv i = stack i

/-- What the parser leaves: the words of the line, a null pointer behind them, and the line with
    its whitespace overwritten. -/
structure Tokenized (line : CStr) (a : Args) : Prop where
  argc : a.argc = (arguments line).length
  null : a.argv a.argc = none
  strings : Holds a.buf.block a.argv (arguments line)
  nul_free : ∀ w ∈ arguments line, (0 : Byte) ∉ w
  block : a.buf.block = cutLine line

variable {line : CStr} {stack : Nat → Option Nat} {a : Args} {ws : List (List Byte)}
  {rest : List Byte}

theorem Holds.update {block : List Byte} {argv : Nat → Option Nat} (h : Holds block argv ws)
    (p : Option Nat) : Holds block (Function.update argv ws.length p) ws := by
  intro k hk
  obtain ⟨q, hq, htoken⟩ := h k hk
  refine ⟨q, ?_, htoken⟩
  rw [Function.update_of_ne (Nat.ne_of_lt hk), hq]

/-- One more argument. -/
theorem Holds.concat {block : List Byte} {argv : Nat → Option Nat} (h : Holds block argv ws)
    {w : List Byte} {p : Nat} (hw : w ++ [0] <+: block.drop p) :
    Holds block (Function.update argv ws.length (some p)) (ws ++ [w]) := by
  intro k hk
  by_cases hlast : k = ws.length
  · subst hlast
    refine ⟨p, Function.update_self .., ?_⟩
    rwa [List.getElem_concat_length rfl]
  · have hlt : k < ws.length := by
      rw [List.length_append, List.length_singleton] at hk
      omega
    obtain ⟨q, hq, htoken⟩ := h.update (some p) k hlt
    refine ⟨q, hq, ?_⟩
    rwa [List.getElem_append_left hlt]

/-- Before the first pass. -/
theorem Parsing.start (line : CStr) (stack : Nat → Option Nat) :
    Parsing line stack ⟨line.start, 0, Function.update stack 0 none⟩ [] line.bytes where
  after := rfl
  block := rfl
  words := rfl
  argc := rfl
  strings := nofun
  nul_free := nofun
  rest_nul_free := line.nul_free
  frame _ hi := Function.update_of_ne (Nat.ne_of_gt (Nat.lt_of_lt_of_le (by decide) hi)) _ _

/-- The whitespace in front of the next argument. -/
theorem Parsing.gobble (h : Parsing line stack a ws rest) :
    ∃ buf rest', gobbleWhitespace a.buf.before a.buf.after = .ok buf ∧
      Parsing line stack { a with buf } ws rest' ∧ ∀ c ∈ rest'.head?, isWhitespace c = false := by
  obtain ⟨p, rest', hrest, hp, hhead⟩ := @exists_seps _ isWhitespace rest
  have hrun := gobbleWhitespace_seps hhead p a.buf.before hp
  refine ⟨⟨(p.map blank).reverse ++ a.buf.before, rest' ++ [0]⟩, rest', ?_, ?_, hhead⟩
  · rw [h.after, hrest, List.append_assoc]
    exact hrun
  · constructor
    · rfl
    · rw [← h.block, hrest, List.map_append, List.reverse_append, List.reverse_reverse]
      simp only [List.append_assoc]
    · rw [h.words, hrest, words_seps hp]
    · exact h.argc
    · exact h.strings
    · exact h.nul_free
    · intro h0
      exact h.rest_nul_free (hrest ▸ List.mem_append_right p h0)
    · exact h.frame

/-- The next argument is saved and passed over. -/
theorem Parsing.scan (h : Parsing line stack a ws rest) (hlt : ws.length < MAXARGS)
    (hne : rest ≠ []) (hhead : ∀ c ∈ rest.head?, isWhitespace c = false) :
    ∃ buf w rest', scanPastArg a.buf.before a.buf.after = .ok buf ∧
      Parsing line stack ⟨buf, a.argc + 1, Function.update a.argv a.argc (some a.buf.offset)⟩
        (ws ++ [w]) rest' := by
  obtain ⟨w, rest', hrest, htoken⟩ := exists_token hne hhead
  have hw0 : (0 : Byte) ∉ w := fun h0 => h.rest_nul_free (hrest ▸ List.mem_append_left rest' h0)
  have hmap : w.map blank = w := by
    refine (List.map_congr_left fun c hc => ?_).trans (List.map_id w)
    exact if_neg (by rw [htoken.run c hc]; exact Bool.false_ne_true)
  have hblock : a.buf.before.reverse ++ (w ++ (rest'.map blank ++ [0])) = cutLine line := by
    rw [← h.block, hrest, List.map_append, hmap, List.append_assoc]
  -- behind the argument is whitespace, which is overwritten, or the terminator
  have hend : [0] <+: rest'.map blank ++ [0] := by
    cases rest' with
    | nil => exact List.prefix_rfl
    | cons c rest' =>
      have hc : blank c = 0 := if_pos (htoken.ended c rfl)
      rw [List.map_cons, hc]
      exact ⟨rest'.map blank ++ [0], rfl⟩
  have hstring : w ++ [0] <+: (cutLine line).drop a.buf.offset := by
    rw [← hblock, List.drop_left' (by rw [List.length_reverse]; rfl)]
    exact (List.prefix_append_right_inj w).2 hend
  refine ⟨⟨w.reverse ++ a.buf.before, rest' ++ [0]⟩, w, rest', ?_, ?_⟩
  · rw [h.after, hrest, List.append_assoc]
    exact scanPastArg_token htoken.ended w a.buf.before htoken.run hw0
  · constructor
    · rfl
    · rw [List.reverse_append, List.reverse_reverse, List.append_assoc]
      exact hblock
    · rw [h.words, hrest, words_token htoken, List.append_assoc]
      rfl
    · rw [List.length_append, h.argc]
      rfl
    · rw [h.argc]
      exact h.strings.concat hstring
    · intro w' hw'
      rcases List.mem_append.mp hw' with hw' | hw'
      · exact h.nul_free w' hw'
      · rw [List.mem_singleton.mp hw']
        exact hw0
    · exact fun h0 => h.rest_nul_free (hrest ▸ List.mem_append_right w h0)
    · intro i hi
      have hargc := h.argc
      exact (Function.update_of_ne (by omega) _ _).trans (h.frame i hi)

/-- The last pass: `argv[argc] = 0`. -/
theorem Parsing.done (h : Parsing line stack a ws []) :
    Tokenized line { a with argv := Function.update a.argv a.argc none } := by
  have hwords : arguments line = ws := by rw [h.words, words_nil, List.append_nil]
  have hblock : a.buf.block = cutLine line := by
    rw [← h.block, Cursor.block, h.after]
    rfl
  constructor
  · rw [hwords, h.argc]
  · exact Function.update_self ..
  · show Holds a.buf.block (Function.update a.argv a.argc none) (arguments line)
    rw [hblock, hwords, h.argc]
    exact h.strings.update none
  · rw [hwords]
    exact h.nul_free
  · exact hblock

/-- The string at `argv[k]` is word `k`. -/
theorem Tokenized.cstrAt (h : Tokenized line a) {k : Nat} (hk : k < (arguments line).length) :
    ∃ p, a.argv k = some p ∧
      (cstrAt a.buf.block p).map CStr.bytes = .ok (arguments line)[k] := by
  obtain ⟨p, hp, htoken⟩ := h.strings k hk
  refine ⟨p, hp, ?_⟩
  rw [cstrAt_of_token htoken (h.nul_free _ (List.getElem_mem hk))]
  rfl

theorem Cursor.read_of_after {p : Cursor} {c : Byte} {s : List Byte} (h : p.after = c :: s) :
    p.read = .ok c := by
  obtain ⟨before, after⟩ := p
  cases h
  rfl

theorem setArgv_argc (h : Parsing line stack a ws rest) (hlt : ws.length < MAXARGS)
    (p : Option Nat) :
    setArgv a.argc p a.argv = .ok (Function.update a.argv a.argc p) :=
  if_pos (by rw [h.argc]; exact hlt)

/-- The passes: one more word each, up to the end of the line or one word too many. -/
theorem parseLoop_spec : ∀ (fuel : Nat) {a : Args} {ws : List (List Byte)} {rest : List Byte},
    Parsing line stack a ws rest → ws.length < MAXARGS → MAXARGS ≤ fuel + ws.length →
    ((arguments line).length < MAXARGS ∧ ∃ a', parseLoop fuel a = .ok (.args a') ∧
        Tokenized line a' ∧ ∀ i, MAXARGS ≤ i → a'.argv i = stack i) ∨
      MAXARGS ≤ (arguments line).length ∧ ∃ a', parseLoop fuel a = .ok (.tooMany a') ∧
        ∀ i, MAXARGS ≤ i → a'.argv i = stack i
  | 0, _, ws, _, _, hlt, hfuel => absurd hfuel (by omega)
  | fuel + 1, a, ws, rest, h, hlt, hfuel => by
    obtain ⟨buf, rest', hgobble, h', hhead⟩ := h.gobble
    rw [parseLoop, hgobble]
    simp only [Bind.bind, Except.bind]
    cases rest' with
    | nil =>
      refine Or.inl ⟨?_, _, ?_, h'.done, ?_⟩
      · rw [h'.words, words_nil, List.append_nil]
        exact hlt
      · rw [Cursor.read_of_after h'.after]
        simp only [if_true, setArgv_argc h' hlt]
      · intro i hi
        have hargc := h'.argc
        exact (Function.update_of_ne (by omega) _ _).trans (h'.frame i hi)
    | cons c rest' =>
      have hc : c ≠ 0 := fun h0 => h'.rest_nul_free (h0 ▸ List.mem_cons_self)
      obtain ⟨buf', w, rest'', hscan, hnext⟩ := h'.scan hlt (by simp) hhead
      have hmore : ws.length < (arguments line).length := by
        rw [hnext.words, List.length_append, List.length_append]
        exact Nat.lt_add_right _ (Nat.lt_succ_self _)
      rw [Cursor.read_of_after h'.after]
      simp only [if_neg hc]
      by_cases hfull : a.argc = MAXARGS - 1
      · refine Or.inr ⟨?_, _, if_pos hfull, h'.frame⟩
        have := h.argc
        omega
      · have hnextlt : (ws ++ [w]).length < MAXARGS := by
          rw [List.length_append, List.length_singleton]
          have := h.argc
          omega
        simp only [if_neg hfull, setArgv_argc h' hlt, hscan]
        refine parseLoop_spec fuel hnext hnextlt ?_
        rw [List.length_append, List.length_singleton]
        omega

/-- **The arguments are the words of the line**, unless there are too many. -/
theorem parse_spec (line : CStr) (stack : Nat → Option Nat) :
    ((arguments line).length < MAXARGS ∧ ∃ a, parse line stack = .ok (.args a) ∧
        Tokenized line a ∧ ∀ i, MAXARGS ≤ i → a.argv i = stack i) ∨
      MAXARGS ≤ (arguments line).length ∧ ∃ a, parse line stack = .ok (.tooMany a) ∧
        ∀ i, MAXARGS ≤ i → a.argv i = stack i :=
  parseLoop_spec MAXARGS (Parsing.start line stack) (by decide) (Nat.le_refl _)

/-! ## The command of a line -/

/-- The lookup finds the first command with the name. -/
theorem lookup_eq {block w : List Byte} {p : Nat} (h : w ++ [0] <+: block.drop p)
    (hw : (0 : Byte) ∉ w) : ∀ cs : List Command,
    lookup (block.drop p) cs = .ok (cs.find? fun c => c.name.bytes = w)
  | [] => rfl
  | c :: cs => by
    obtain ⟨r, hr⟩ := h
    obtain ⟨v, hv, hiff⟩ := strcmp_eq_zero r hw c.name.nul_free
    rw [List.append_assoc, List.singleton_append] at hr
    rw [lookup, ← hr, CStr.cells, hv, List.find?_cons]
    simp only [Bind.bind, Except.bind]
    by_cases heq : c.name.bytes = w
    · rw [if_pos (hiff.2 heq.symm), decide_eq_true heq]
    · rw [if_neg (fun h0 => heq (hiff.1 h0).symm), decide_eq_false heq, hr]
      exact lookup_eq ⟨r, by rw [List.append_assoc]; exact hr⟩ hw cs

/-- The first command whose name is the first word of the line. -/
def commandOf (line : CStr) : Option Command :=
  (arguments line).head?.bind fun w => commands.find? fun c => c.name.bytes = w

/-- What is printed for a line that names no command. -/
def refusal : List (List Byte) → List Int
  | [] => []
  | w :: _ => plain (CStr.ofString "Unknown command '").bytes ++ stringText w ++
      plain (CStr.ofString "'\n").bytes

/-- What is printed for a line of more than 15 words. -/
def tooManyText : List Int :=
  plain (CStr.ofString "Too many arguments (max ").bytes ++ decText (BitVec.ofNat 32 MAXARGS) ++
    plain (CStr.ofString ")\n").bytes

theorem output_unknown (s : CStr) :
    output (CStr.ofString "Unknown command '%s'\n") [.str s] =
      .ok (plain (CStr.ofString "Unknown command '").bytes ++ stringText s.bytes ++
        plain (CStr.ofString "'\n").bytes) :=
  output_string_between (by decide +kernel) (by decide) (by decide +kernel) s

theorem output_tooMany :
    output (CStr.ofString "Too many arguments (max %d)\n") [.word (BitVec.ofNat 32 MAXARGS)] =
      .ok tooManyText :=
  output_dec_between (by decide +kernel) (by decide) (by decide +kernel) _

variable {δ : Type} (d : Device δ) (syms : KernelSymbols)

/-- What `runcmd` does behind a parser that has ended normally. -/
theorem runcmd_of_args (hparse : parse line stack = .ok (.args a)) (h : Tokenized line a)
    (m : Console δ) :
    runcmd d syms line stack m =
      match commandOf line with
      | some c => c.func.call d syms a m
      | none => .ok (emit (cputchar d) (refusal (arguments line)) m, 0) := by
  rw [runcmd, hparse]
  simp only [Bind.bind, Except.bind]
  cases hwords : arguments line with
  | nil =>
    have hargc : a.argc = 0 := by rw [h.argc, hwords]; rfl
    have hnone : commandOf line = none := by rw [commandOf, hwords]; rfl
    rw [if_pos hargc, hnone]
    rfl
  | cons w ws =>
    have hargc : a.argc ≠ 0 := by rw [h.argc, hwords]; exact Nat.succ_ne_zero _
    have hw : (0 : Byte) ∉ w := h.nul_free w (by rw [hwords]; exact List.mem_cons_self)
    have hfind : commandOf line = commands.find? fun c => c.name.bytes = w := by
      rw [commandOf, hwords]
      rfl
    obtain ⟨p, hp, htoken⟩ : ∃ p, a.argv 0 = some p ∧ w ++ [0] <+: a.buf.block.drop p :=
      (hwords ▸ h.strings) 0 (Nat.succ_pos _)
    rw [if_neg hargc, hp]
    simp only [lookup_eq htoken hw, ← hfind]
    cases commandOf line with
    | some c => rfl
    | none =>
      simp only [cstrAt_of_token htoken hw, vcprintf_of_output d (output_unknown _) m]
      rfl

theorem runcmd_of_tooMany (hparse : parse line stack = .ok (.tooMany a)) (m : Console δ) :
    runcmd d syms line stack m = .ok (emit (cputchar d) tooManyText m, 0) := by
  rw [runcmd, hparse]
  simp only [Bind.bind, Except.bind, vcprintf_of_output d output_tooMany m]

/-- **`runcmd` runs the command that the words of the line say**: up to 15 words are cut out of
    the line where they stand, and the command is the first with the first word for its name;
    with 16 words or more nothing is run. -/
theorem runcmd_runs_words (line : CStr) (stack : Nat → Option Nat) (m : Console δ) :
    ((arguments line).length ≤ MAXARGS - 1 →
      ∃ a, parse line stack = .ok (.args a) ∧
        a.argc = (arguments line).length ∧ a.argv a.argc = none ∧
        (∀ k (hk : k < (arguments line).length), ∃ p, a.argv k = some p ∧
          (cstrAt a.buf.block p).map CStr.bytes = .ok (arguments line)[k]) ∧
        a.buf.block = cutLine line ∧ (∀ i, MAXARGS ≤ i → a.argv i = stack i) ∧
        (∀ c, commandOf line = some c → runcmd d syms line stack m = c.func.call d syms a m) ∧
        (commandOf line = none → runcmd d syms line stack m =
          .ok (emit (cputchar d) (refusal (arguments line)) m, 0))) ∧
    (MAXARGS ≤ (arguments line).length →
      (∃ a, parse line stack = .ok (.tooMany a) ∧ ∀ i, MAXARGS ≤ i → a.argv i = stack i) ∧
        runcmd d syms line stack m = .ok (emit (cputchar d) tooManyText m, 0)) := by
  have hmax : MAXARGS = 16 := rfl
  rcases parse_spec line stack with ⟨hfew, a, hparse, h, hframe⟩ | ⟨hmany, a, hparse, hframe⟩
  · refine ⟨fun _ => ?_, fun hmany => absurd hmany (by omega)⟩
    have hrun := runcmd_of_args d syms hparse h m
    refine ⟨a, hparse, h.argc, h.null, fun k hk => h.cstrAt hk, h.block, hframe, ?_, ?_⟩
    · intro c hc
      rw [hrun, hc]
    · intro hnone
      rw [hrun, hnone]
  · refine ⟨fun hfew => absurd hmany (by omega), fun _ => ⟨⟨a, hparse, hframe⟩, ?_⟩⟩
    exact runcmd_of_tooMany d syms hparse m

end Jos
