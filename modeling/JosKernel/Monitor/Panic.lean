import JosKernel.Monitor.Session

/-!
# Panics

`_panic` and `_warn` of `kern/init.c`.  A panic enters the monitor, which does not return, and
the commands of the monitor are kernel code too: a panic can come at any key, with other panics
behind it.  `panicstr` is the format of the first one.

Principal result: `panic_once` — however often the kernel panics, and whatever is typed between,
the message of the first panic is printed, no other, and each panic ends in a monitor of its own.
-/

set_option autoImplicit false

namespace Jos

open Transducer

/-- The arguments of `_panic` and `_warn`. -/
structure Report where
  file : CStr
  line : Word
  fmt : CStr
  ap : List Arg

section

variable {δ : Type} (d : Device δ)

/-- `cprintf(header, file, line); vcprintf(fmt, ap); cprintf("\n");` -/
def report (header : CStr) (r : Report) (m : Console δ) : Except Fault (Console δ) := do
  let (m, _) ← vcprintf d header [.str r.file, .word r.line] m
  let (m, _) ← vcprintf d r.fmt r.ap m
  let (m, _) ← vcprintf d (CStr.ofString "\n") [] m
  .ok m

/-- `_warn`. -/
def warn (r : Report) (m : Console δ) : Except Fault (Console δ) :=
  report d (CStr.ofString "kernel warning at %s:%d: ") r m

/-- `_panic` up to the first `getchar` of the monitor; the result has the new `panicstr`. -/
def panic (panicstr : Option CStr) (r : Report) (buf : Int → Byte) (m : Console δ) :
    Except Fault (Option CStr × Monitor δ) := do
  match panicstr with
  | some fmt =>
      let g ← monitorStart d buf m
      .ok (some fmt, g)
  | none =>
      let m ← report d (CStr.ofString "kernel panic at %s:%d: ") r m
      let g ← monitorStart d buf m
      .ok (some r.fmt, g)

def Monitor.conBuf : Monitor δ → Console δ × (Int → Byte)
  | .reading e => (e.con, e.buf)
  | .left con buf => (con, buf)

/-- A result of `getchar`, or a panic. -/
inductive KernelEvent where
  | key (c : Int) (stack : Nat → Option Nat)
  | panic (r : Report)

/-- The monitor and `panicstr`. -/
structure Panicking (δ : Type) where
  panicstr : Option CStr
  monitor : Monitor δ

def Panicking.step (syms : KernelSymbols) (k : Panicking δ) :
    KernelEvent → Except Fault (Panicking δ)
  | .key c stack => do
      let monitor ← monitorStep d syms k.monitor (c, stack)
      .ok { k with monitor }
  | .panic r => do
      let (con, buf) := k.monitor.conBuf
      let (panicstr, monitor) ← panic d k.panicstr r buf con
      .ok ⟨panicstr, monitor⟩

/-- `monitor` with nothing wrong yet. -/
def Panicking.start (buf : Int → Byte) (m : Console δ) : Except Fault (Panicking δ) := do
  let monitor ← monitorStart d buf m
  .ok ⟨none, monitor⟩

end

/-! ## What is printed -/

/-- A header: two texts, the file and the line. -/
def headerText (kind : String) (r : Report) : List Int :=
  plain (CStr.ofString kind).bytes ++ (stringText r.file.bytes ++
    (plain (CStr.ofString ":").bytes ++ (decText r.line ++ plain (CStr.ofString ": ").bytes)))

/-- A message behind its header, on a line of its own. -/
def reportText (kind : String) (r : Report) (message : List Int) : List Int :=
  headerText kind r ++ message ++ plain (CStr.ofString "\n").bytes

theorem output_header_of {kind : String} {fmt : CStr} (hkind : IsText (CStr.ofString kind).bytes)
    (hfmt : fmt.bytes = (CStr.ofString kind).bytes ++ (CStr.ofString "%s:%d: ").bytes)
    (r : Report) : output fmt [.str r.file, .word r.line] = .ok (headerText kind r) := by
  have hparts := @output_parts
    [.text (CStr.ofString kind).bytes hkind, .conv (strField r.file),
      .text (CStr.ofString ":").bytes (by decide), .conv (decField r.line),
      .text (CStr.ofString ": ").bytes (by decide)]
    (by simp [strField, decField, bareDirective]) fmt (by
      rw [hfmt, List.flatMap_cons]
      congr 1)
  simp only [List.flatMap_cons, List.flatMap_nil, Part.printed, strField_text, decField_text,
    List.append_nil] at hparts
  exact hparts

section

variable {δ : Type} {d : Device δ} {r : Report} {message : List Int}

theorem report_prints {kind : String} {header : CStr} (hkind : IsText (CStr.ofString kind).bytes)
    (hheader : header.bytes = (CStr.ofString kind).bytes ++ (CStr.ofString "%s:%d: ").bytes)
    (hmessage : output r.fmt r.ap = .ok message) (m : Console δ) :
    report d header r m = .ok (emit (cputchar d) (reportText kind r message) m) := by
  have hnewline : output (CStr.ofString "\n") [] = .ok (plain (CStr.ofString "\n").bytes) :=
    output_text (by decide) []
  unfold report
  simp only [vcprintf_bind d (output_header_of hkind hheader r), vcprintf_bind d hmessage,
    vcprintf_bind d hnewline, reportText, emit_append]

/-- A warning prints its message, and the caller goes on. -/
theorem warn_prints (hmessage : output r.fmt r.ap = .ok message) (m : Console δ) :
    warn d r m = .ok (emit (cputchar d) (reportText "kernel warning at " r message) m) :=
  report_prints (by decide +kernel) (by decide +kernel) hmessage m

/-! ## Panics and keys -/

variable {syms : KernelSymbols} {outside : Int → Byte} {m : Console δ} {e : Editor δ}
  {s : List Byte} {out : List Int}

/-- The first panic. -/
theorem panic_first (h : AtKey d outside m e s out) (hmessage : output r.fmt r.ap = .ok message) :
    ∃ e', Panicking.step d syms ⟨none, .reading e⟩ (.panic r) = .ok ⟨some r.fmt, .reading e'⟩ ∧
      AtKey d outside m e' []
        (out ++ (reportText "kernel panic at " r message ++ welcomeText)) := by
  obtain ⟨e', hstart, hkey⟩ := @monitorStart_spec _ d outside e.buf h.held.frame m
    (out ++ reportText "kernel panic at " r message)
  have hreport : report d (CStr.ofString "kernel panic at %s:%d: ") r e.con =
      .ok (emit (cputchar d) (out ++ reportText "kernel panic at " r message) m) := by
    rw [h.con, emit_append]
    exact report_prints (by decide +kernel) (by decide +kernel) hmessage _
  refine ⟨e', ?_, by rw [← List.append_assoc]; exact hkey⟩
  simp only [Panicking.step, Monitor.conBuf, panic, hreport, hstart, Bind.bind, Except.bind]

/-- Every other panic. -/
theorem panic_again (h : AtKey d outside m e s out) (fmt : CStr) (r : Report) :
    ∃ e', Panicking.step d syms ⟨some fmt, .reading e⟩ (.panic r) = .ok ⟨some fmt, .reading e'⟩ ∧
      AtKey d outside m e' [] (out ++ welcomeText) := by
  obtain ⟨e', hstart, hkey⟩ := @monitorStart_spec _ d outside e.buf h.held.frame m out
  rw [← h.con] at hstart
  refine ⟨e', ?_, hkey⟩
  simp only [Panicking.step, Monitor.conBuf, panic, hstart, Bind.bind, Except.bind]

/-- The keys of a line. -/
theorem Panicking.run_keys : ∀ (keys : List (Int × (Nat → Option Nat))) {e : Editor δ}
    {s : List Byte} {out : List Int}, AtKey d outside m e s out →
    (∀ key ∈ keys, 1 ≤ key.1 ∧ key.1 ≤ 255) → ∀ (panicstr : Option CStr)
    (more : List KernelEvent),
    ∃ e', run (Panicking.step d syms) ⟨panicstr, .reading e⟩
        (keys.map (fun key => .key key.1 key.2) ++ more) =
          run (Panicking.step d syms) ⟨panicstr, .reading e'⟩ more ∧
      AtKey d outside m e' ((shell syms).state s (keys.map Prod.fst))
        (out ++ (shell syms).output s (keys.map Prod.fst))
  | [], e, s, out, h, _, _, _ => ⟨e, rfl, (List.append_nil out).symm ▸ h⟩
  | key :: keys, e, s, out, h, hkeys, panicstr, more => by
    obtain ⟨hkey, hkeys⟩ := List.forall_mem_cons.mp hkeys
    obtain ⟨g, hstep, e₁, rfl, h₁⟩ := monitor_represents d syms outside m _ _ _ key ⟨e, rfl, h⟩ hkey
    obtain ⟨e', hrun, h'⟩ := run_keys keys h₁ hkeys panicstr more
    refine ⟨e', ?_, ?_⟩
    · rw [List.map_cons, List.cons_append, run]
      have hfirst : Panicking.step d syms ⟨panicstr, .reading e⟩ (.key key.1 key.2) =
          .ok ⟨panicstr, .reading e₁⟩ := by
        simp only [Panicking.step, hstep, Bind.bind, Except.bind]
      rw [hfirst]
      exact hrun
    · rw [List.map_cons, Machine.output, ← List.append_assoc]
      exact h'

/-- The keys that are typed behind a panic. -/
abbrev Keys : Type := List (Int × (Nat → Option Nat))

def keyEvents (keys : Keys) : List KernelEvent := keys.map fun key => .key key.1 key.2

/-- Panics behind the first one. -/
theorem Panicking.run_again (fmt : CStr) : ∀ (later : List (Report × Keys)) {e : Editor δ}
    {s : List Byte} {out : List Int}, AtKey d outside m e s out →
    (∀ p ∈ later, ∀ key ∈ p.2, 1 ≤ key.1 ∧ key.1 ≤ 255) →
    ∃ e' s', run (Panicking.step d syms) ⟨some fmt, .reading e⟩
        (later.flatMap fun p => .panic p.1 :: keyEvents p.2) = .ok ⟨some fmt, .reading e'⟩ ∧
      AtKey d outside m e' s' (out ++ later.flatMap fun p => transcript syms (p.2.map Prod.fst))
  | [], e, s, out, h, _ => ⟨e, s, rfl, (List.append_nil out).symm ▸ h⟩
  | p :: later, e, s, out, h, hkeys => by
    obtain ⟨hp, hlater⟩ := List.forall_mem_cons.mp hkeys
    obtain ⟨e₁, hpanic, h₁⟩ := @panic_again _ d syms _ _ _ _ _ h fmt p.1
    obtain ⟨e₂, hrun₂, h₂⟩ := @Panicking.run_keys _ d syms _ _ p.2 _ _ _ h₁ hp (some fmt)
      (later.flatMap fun p => .panic p.1 :: keyEvents p.2)
    obtain ⟨e', s', hrun, h'⟩ := run_again fmt later h₂ hlater
    refine ⟨e', s', ?_, ?_⟩
    · rw [List.flatMap_cons, List.cons_append, run, hpanic]
      exact hrun₂.trans hrun
    · rw [List.flatMap_cons, transcript]
      simp only [List.append_assoc] at h' ⊢
      exact h'

end

/-- **Only the first panic is reported**, if its arguments fit its format: whatever was typed before
    it, however often the kernel panics again, and whatever is typed between, every panic ends in
    the monitor, `panicstr` is the format of the first one, and its message is the only one that is
    printed. -/
theorem panic_once {δ : Type} (d : Device δ) (syms : KernelSymbols) (buf : Int → Byte)
    (m : Console δ) (before : Keys) (first : Report) (keys : Keys) (later : List (Report × Keys))
    {message : List Int} (hmessage : output first.fmt first.ap = .ok message)
    (hbefore : ∀ key ∈ before, 1 ≤ key.1 ∧ key.1 ≤ 255)
    (hkeys : ∀ key ∈ keys, 1 ≤ key.1 ∧ key.1 ≤ 255)
    (hlater : ∀ p ∈ later, ∀ key ∈ p.2, 1 ≤ key.1 ∧ key.1 ≤ 255) :
    ∃ e, (Panicking.start d buf m >>= fun k => run (Panicking.step d syms) k
        (keyEvents before ++ .panic first :: keyEvents keys ++
          later.flatMap fun p => .panic p.1 :: keyEvents p.2)) =
        .ok ⟨some first.fmt, .reading e⟩ ∧
      e.con = emit (cputchar d) (transcript syms (before.map Prod.fst) ++
        (reportText "kernel panic at " first message ++ transcript syms (keys.map Prod.fst)) ++
        later.flatMap fun p => transcript syms (p.2.map Prod.fst)) m := by
  obtain ⟨e₀, hstart, h₀⟩ := @monitorStart_spec _ d buf _ (fun _ _ => rfl) m []
  have hstart : monitorStart d buf m = .ok (.reading e₀) := hstart
  obtain ⟨e₁, hrun₁, h₁⟩ := @Panicking.run_keys _ d syms _ _ before _ _ _ h₀ hbefore none
    (.panic first :: keyEvents keys ++ later.flatMap fun p => .panic p.1 :: keyEvents p.2)
  obtain ⟨e₂, hpanic, h₂⟩ := @panic_first _ d _ _ syms _ _ _ _ _ h₁ hmessage
  obtain ⟨e₃, hrun₃, h₃⟩ := @Panicking.run_keys _ d syms _ _ keys _ _ _ h₂ hkeys (some first.fmt)
    (later.flatMap fun p => .panic p.1 :: keyEvents p.2)
  obtain ⟨e, s, hrun, h⟩ := @Panicking.run_again _ d syms _ _ first.fmt later _ _ _ h₃ hlater
  refine ⟨e, ?_, ?_⟩
  · rw [Panicking.start, hstart]
    simp only [Bind.bind, Except.bind]
    rw [List.append_assoc]
    refine hrun₁.trans ?_
    rw [List.cons_append, run, hpanic]
    exact hrun₃.trans hrun
  · rw [h.con, transcript, transcript]
    simp only [List.nil_append, List.append_assoc]

/-- A panic with an argument, and one whose format does not fit its arguments. -/
def trapReport : Report :=
  ⟨CStr.ofString "kern/trap.c", 87, CStr.ofString "unhandled trap %d", [.word 13]⟩

def brokenReport : Report := ⟨CStr.ofString "kern/trap.c", 90, CStr.ofString "%s", []⟩

/-- The second panic comes behind a key, and its format is never looked at. -/
theorem panic_once_twice :
    ∃ e, (Panicking.start readyDevice (fun _ => 0) lastCell >>= fun k =>
        run (Panicking.step readyDevice linkedImage) k
          (keyEvents [] ++ .panic trapReport :: keyEvents [(0x68, fun _ => none)] ++
            [(brokenReport, [])].flatMap fun p => .panic p.1 :: keyEvents p.2)) =
        .ok ⟨some trapReport.fmt, .reading e⟩ ∧
      e.con = emit (cputchar readyDevice) (transcript linkedImage [] ++
        (reportText "kernel panic at " trapReport
            (plain (CStr.ofString "unhandled trap 13").bytes) ++ transcript linkedImage [0x68]) ++
        transcript linkedImage []) lastCell :=
  panic_once readyDevice linkedImage (fun _ => 0) lastCell [] trapReport [(0x68, fun _ => none)]
    [(brokenReport, [])] (by decide +kernel) nofun (by simp) (by simp)

end Jos
