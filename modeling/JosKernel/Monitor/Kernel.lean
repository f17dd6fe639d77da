import JosKernel.Console.Receivers
import JosKernel.Lib.Memset
import JosKernel.Monitor.System

/-!
# From the entry of the kernel on

`i386_init` of `kern/init.c` clears the uninitialised data, sets up the console, prints the
messages of the first lab and enters the monitor.

Principal results: `testBacktrace_prints` — the calls of `test_backtrace` and their returns,
properly nested; `kernel_is_shell` — from any contents of memory and any state of the hardware,
in whatever order the events come.
-/

set_option autoImplicit false

namespace Jos

open RepString Transducer

/-! ## `test_backtrace` -/

section

variable {δ : Type} (d : Device δ)

/-- `mon_backtrace` does nothing and returns 0. -/
def monBacktrace (m : Console δ) : Console δ × Int := (m, 0)

theorem int_sub_one {x : Word} (h : 0 < x.toInt) : (x - 1).toInt = x.toInt - 1 := by
  have hx := @BitVec.toInt_lt 32 x
  rw [BitVec.toInt_sub, Int.bmod_def]
  have hone : (1 : Word).toInt = 1 := rfl
  omega

theorem int_sub_one_lt {x : Word} (h : 0 < x.toInt) : (x - 1).toInt.toNat < x.toInt.toNat := by
  rw [int_sub_one h]
  omega

/-- `test_backtrace`. -/
def testBacktrace (x : Word) (m : Console δ) : Except Fault (Console δ) := do
  let (m, _) ← vcprintf d (CStr.ofString "entering test_backtrace %d\n") [.word x] m
  let m ← if h : x.toInt > 0 then testBacktrace (x - 1) m else .ok (monBacktrace m).1
  let (m, _) ← vcprintf d (CStr.ofString "leaving test_backtrace %d\n") [.word x] m
  .ok m
termination_by x.toInt.toNat
decreasing_by exact int_sub_one_lt h

/-- The arguments of the calls, the outermost first. -/
def depths (x : Word) : List Word :=
  (List.range (x.toInt.toNat + 1)).map fun k => x - BitVec.ofNat 32 k

def enterText (x : Word) : List Int :=
  plain (CStr.ofString "entering test_backtrace ").bytes ++ decText x ++
    plain (CStr.ofString "\n").bytes

def leaveText (x : Word) : List Int :=
  plain (CStr.ofString "leaving test_backtrace ").bytes ++ decText x ++
    plain (CStr.ofString "\n").bytes

def backtraceText (x : Word) : List Int :=
  (depths x).flatMap enterText ++ (depths x).reverse.flatMap leaveText

theorem depths_of_pos {x : Word} (h : 0 < x.toInt) : depths x = x :: depths (x - 1) := by
  have hlen : x.toInt.toNat + 1 = (x - 1).toInt.toNat + 1 + 1 := by
    rw [int_sub_one h]
    omega
  rw [depths, hlen, List.range_succ_eq_map, List.map_cons, List.map_map, depths]
  congr 1
  · simp
  · refine List.map_congr_left fun k _ => ?_
    show x - BitVec.ofNat 32 (k + 1) = x - 1 - BitVec.ofNat 32 k
    rw [BitVec.ofNat_add]
    bv_omega

theorem depths_of_not_pos {x : Word} (h : ¬0 < x.toInt) : depths x = [x] := by
  have hzero : x.toInt.toNat = 0 := by omega
  rw [depths, hzero]
  simp

theorem backtraceText_of_pos {x : Word} (h : 0 < x.toInt) :
    backtraceText x = enterText x ++ (backtraceText (x - 1) ++ leaveText x) := by
  rw [backtraceText, depths_of_pos h, List.flatMap_cons, List.reverse_cons, List.flatMap_append,
    List.flatMap_singleton, backtraceText]
  simp only [List.append_assoc]

/-- **The calls and their returns are nested**: the messages of the calls, from the outermost to
    the innermost, and then those of the returns, the other way round. -/
theorem testBacktrace_prints (x : Word) (m : Console δ) :
    testBacktrace d x m = .ok (emit (cputchar d) (backtraceText x) m) := by
  have henter : output (CStr.ofString "entering test_backtrace %d\n") [.word x] =
      .ok (enterText x) :=
    output_dec_between (by decide +kernel) (by decide +kernel) (by decide +kernel) x
  have hleave : output (CStr.ofString "leaving test_backtrace %d\n") [.word x] =
      .ok (leaveText x) :=
    output_dec_between (by decide +kernel) (by decide +kernel) (by decide +kernel) x
  rw [testBacktrace]
  simp only [vcprintf_bind d henter]
  by_cases hpos : x.toInt > 0
  · -- the inner call prints between the two messages
    rw [dif_pos hpos, testBacktrace_prints (x - 1), backtraceText_of_pos hpos]
    simp only [Bind.bind, Except.bind, vcprintf_of_output d hleave, emit_append]
  · rw [dif_neg hpos, backtraceText, depths_of_not_pos hpos]
    simp only [Bind.bind, Except.bind, vcprintf_of_output d hleave, List.reverse_singleton,
      List.flatMap_singleton, emit_append]
    rfl
termination_by x.toInt.toNat
decreasing_by exact int_sub_one_lt hpos

end

/-! ## `i386_init` -/

/-- A word in memory, the lowest byte first. -/
def wordAt (mem : Word → Byte) (a : Word) : Word :=
  mem (a + 3#32) ++ (mem (a + 2#32) ++ (mem (a + 1#32) ++ mem a))

/-- The link addresses of the static variables: `shift` of `kbd_proc_data`, `cons` of the
    console, `buf` of `readline`. -/
structure Statics where
  shift : Word
  cons : Word
  buf : Word

/-- `n` bytes from `a` on are uninitialised data. -/
def InBss (bss_start stop a : Word) (n : Nat) : Prop :=
  bss_start.toNat ≤ a.toNat ∧ a.toNat + n ≤ stop.toNat

instance (bss_start stop a : Word) (n : Nat) : Decidable (InBss bss_start stop a n) :=
  inferInstanceAs (Decidable (_ ∧ _))

/-- The linker puts the static variables into the uninitialised data. -/
structure Statics.Placed (s : Statics) (bss_start stop : Word) : Prop where
  shift : InBss bss_start stop s.shift 4
  cons : InBss bss_start stop s.cons 520
  buf : InBss bss_start stop s.buf 1024

/-- `cons`: the buffer and the two positions behind it. -/
def Statics.loadCons (s : Statics) (mem : Word → Byte) : Cons where
  buf k := if k < CONSBUFSIZE then mem (s.cons + BitVec.ofNat 32 k) else 0
  rpos := (wordAt mem (s.cons + 512#32)).toNat
  wpos := (wordAt mem (s.cons + 516#32)).toNat

/-- `buf`, and the memory around it. -/
def Statics.loadBuf (s : Statics) (mem : Word → Byte) (a : Int) : Byte :=
  mem (s.buf + BitVec.ofInt 32 a)

section

variable {ε : Type} (d : Device ε) (syms : KernelSymbols) (s : Statics) (bss_start stop : Word)

/-- `i386_init` up to the first `getchar`; the result has `serial_exists`.  `monitor` does not
    return. -/
def i386Init (v : Video) (io : Io (List Scan × ε)) (m : Machine) :
    Except Fault (Bool × Machine × System ε) := do
  let m := clearBss bss_start stop m
  let (serialExists, con) ← consInit (i8042 d) v io
  let (con, _) ← vcprintf (i8042 d) (CStr.ofString "6828 decimal is %o octal!\n") [.word 6828] con
  let con ← testBacktrace (i8042 d) 5 con
  let monitor ← monitorStart (i8042 d) (s.loadBuf m.mem) con
  .ok (serialExists, m, ⟨monitor, wordAt m.mem s.shift, ⟨s.loadCons m.mem, [], []⟩⟩)

/-- The kernel from `i386_init` on. -/
def kernel (v : Video) (io : Io (List Scan × ε)) (m : Machine) (events : List SystemEvent) :
    Except Fault (Machine × System ε) := do
  let (serialExists, m, S) ← i386Init d s bss_start stop v io m
  let S ← run (System.step d syms serialExists) S events
  .ok (m, S)

end

/-- The messages in front of the monitor. -/
def bootText (serialExists : Bool) : List Int :=
  serialText serialExists ++ plain (CStr.ofString "6828 decimal is XXX octal!\n").bytes ++
    backtraceText 5

section

variable {ε : Type} (d : Device ε) (s : Statics) {bss_start stop : Word}

/-! ### The static variables -/

theorem clearBss_inBss {a : Word} {n : Nat} (h : InBss bss_start stop a n) (m : Machine) {k : Nat}
    (hk : k < n) : (clearBss bss_start stop m).mem (a + BitVec.ofNat 32 k) = 0 := by
  obtain ⟨hstart, hstop⟩ := h
  have hlt := stop.isLt
  have hadd : (a + BitVec.ofNat 32 k).toNat = a.toNat + k := by
    rw [BitVec.toNat_add, BitVec.toNat_ofNat]
    omega
  have horder : bss_start ≤ stop := by
    rw [BitVec.le_def]
    omega
  have hin : bss_start ≤ a + BitVec.ofNat 32 k ∧ a + BitVec.ofNat 32 k < stop := by
    rw [BitVec.le_def, BitVec.lt_def]
    omega
  rw [clearBss_spec horder, if_pos hin]
  rfl

theorem clearBss_wordAt {a : Word} (h : InBss bss_start stop a 4) (m : Machine) :
    wordAt (clearBss bss_start stop m).mem a = 0 := by
  have hbyte : ∀ k < 4, (clearBss bss_start stop m).mem (a + BitVec.ofNat 32 k) = 0 :=
    fun k hk => clearBss_inBss h m hk
  have h0 := hbyte 0 (by decide)
  rw [show a + BitVec.ofNat 32 0 = a from BitVec.add_zero a] at h0
  rw [wordAt, h0, show (3#32 : Word) = BitVec.ofNat 32 3 from rfl,
    show (2#32 : Word) = BitVec.ofNat 32 2 from rfl,
    show (1#32 : Word) = BitVec.ofNat 32 1 from rfl,
    hbyte 3 (by decide), hbyte 2 (by decide), hbyte 1 (by decide)]
  rfl

/-- **Clearing the uninitialised data initialises the console input.** -/
theorem loadCons_cleared (h : s.Placed bss_start stop) (m : Machine) :
    s.loadCons (clearBss bss_start stop m).mem = Cons.init := by
  have hoffset : ∀ k, k + 4 ≤ 520 → InBss bss_start stop (s.cons + BitVec.ofNat 32 k) 4 := by
    intro k hk
    obtain ⟨hstart, hstop⟩ := h.cons
    have hlt := stop.isLt
    have hadd : (s.cons + BitVec.ofNat 32 k).toNat = s.cons.toNat + k := by
      rw [BitVec.toNat_add, BitVec.toNat_ofNat]
      omega
    unfold InBss
    omega
  have hbuf : ∀ k, (if k < CONSBUFSIZE then
      (clearBss bss_start stop m).mem (s.cons + BitVec.ofNat 32 k) else 0) = 0 := by
    intro k
    split
    · rename_i hk
      have hsize : CONSBUFSIZE = 512 := rfl
      exact clearBss_inBss h.cons m (by omega)
    · rfl
  rw [Statics.loadCons, clearBss_wordAt (hoffset 512 (by decide)),
    clearBss_wordAt (hoffset 516 (by decide))]
  simp only [hbuf]
  rfl

/-! ### The console -/

theorem initial_pending (v : Video) (io : Io (List Scan × ε)) :
    (Console.initial (i8042 d) v io).pending = io.dev.1 := by
  have hcga : ∀ io, (inb (i8042 d) (v.adapter.port + 1) io).2.dev.1 = io.dev.1 := by
    cases v.adapter
    · exact inb_pending d (by decide) (by decide)
    · exact inb_pending d (by decide) (by decide)
  have hlsr : ∀ io, (inb (i8042 d) (COM1 + COM_LSR) io).2.dev.1 = io.dev.1 :=
    inb_pending d (by decide) (by decide)
  have hiir : ∀ io, (inb (i8042 d) (COM1 + COM_IIR) io).2.dev.1 = io.dev.1 :=
    inb_pending d (by decide) (by decide)
  have hrx : ∀ io, (inb (i8042 d) (COM1 + COM_RX) io).2.dev.1 = io.dev.1 :=
    inb_pending d (by decide) (by decide)
  show (serialInit (i8042 d) (cgaInit (i8042 d) v io).io).2.dev.1 = _
  simp only [serialInit, hrx, hiir, hlsr, outb_pending, cgaInit, cursorLocation, hcga]

theorem output_octal :
    output (CStr.ofString "6828 decimal is %o octal!\n") [.word 6828] =
      .ok (plain (CStr.ofString "6828 decimal is XXX octal!\n").bytes) := by
  decide +kernel

/-- The console at the first message of the monitor. -/
def Console.booted (v : Video) (io : Io (List Scan × ε)) : Console (List Scan × ε) :=
  emit (cputchar (i8042 d)) (bootText (serialFound (i8042 d) v io)) (Console.initial (i8042 d) v io)

variable (syms : KernelSymbols)

/-- The bytes that are in the keyboard controller before the kernel starts. -/
def bootEvents (io : Io (List Scan × ε)) : List SystemEvent := io.dev.1.map .arrive

/-- `i386_init` leaves the system at the first `getchar` of the monitor. -/
theorem i386Init_start (h : s.Placed bss_start stop) (v : Video) (io : Io (List Scan × ε))
    (m : Machine) :
    ∃ S e, i386Init d s bss_start stop v io m =
        .ok (serialFound (i8042 d) v io, clearBss bss_start stop m, S) ∧
      S.input = InputRun.init ∧
      S.Running syms (serialFound (i8042 d) v io) (s.loadBuf (clearBss bss_start stop m).mem)
        (Console.booted d v io) (bootEvents io) e [] [] [welcomeText] := by
  have hpending : (Console.booted d v io).pending = io.dev.1 := by
    rw [Console.booted, emit_pending, initial_pending]
  obtain ⟨e, hmonitor, hrun⟩ := System.begin_running d syms (serialFound (i8042 d) v io)
    (s.loadBuf (clearBss bss_start stop m).mem) (Console.booted d v io)
  rw [hpending] at hrun
  refine ⟨_, e, ?_, rfl, hrun⟩
  unfold i386Init
  simp only [consInit_spec, Bind.bind, Except.bind, vcprintf_of_output _ output_octal,
    testBacktrace_prints, ← emit_append, clearBss_wordAt h.shift, loadCons_cleared s h]
  rw [Console.booted, bootText] at hmonitor
  rw [hmonitor]
  rfl

/-- The monitor runs on what `i386_init` leaves. -/
theorem kernel_run (h : s.Placed bss_start stop) (v : Video) (io : Io (List Scan × ε))
    (m : Machine) (events : List SystemEvent) :
    ∃ S e p out, kernel d syms s bss_start stop v io m events =
        .ok (clearBss bss_start stop m, S) ∧
      S.Running syms (serialFound (i8042 d) v io) (s.loadBuf (clearBss bss_start stop m).mem)
        (Console.booted d v io) (bootEvents io ++ events) e S.input.read p out := by
  obtain ⟨S₀, e₀, hstart, hinit, hrun₀⟩ := i386Init_start d s syms h v io m
  have hread : S₀.input.read = [] := by
    rw [hinit]
    rfl
  obtain ⟨S, e, p, out, hrun, -, hrunning⟩ := System.Running.run d syms _ events
    (hread.symm ▸ hrun₀)
  refine ⟨S, e, p, out, ?_, hrunning⟩
  unfold kernel
  simp only [hstart, Bind.bind, Except.bind, hrun]

/-- **From the entry of the kernel on it is a shell**: whatever memory holds and whatever state
    the hardware is in, `i386_init` clears the uninitialised data and prints the messages of the
    boot, and then the monitor runs, in whatever order the events come; what was in the keyboard
    controller before is read as if it came first. -/
theorem kernel_is_shell (h : s.Placed bss_start stop) (v : Video) (io : Io (List Scan × ε))
    (m : Machine) (events : List SystemEvent) :
    ∃ S e p out, kernel d syms s bss_start stop v io m events =
        .ok (clearBss bss_start stop m, S) ∧
      S.Running syms (serialFound (i8042 d) v io) (s.loadBuf (clearBss bss_start stop m).mem)
        (Console.booted d v io) (bootEvents io ++ events) e S.input.read p out ∧
      Printed (Console.initial (i8042 d) v io) e.con
        (bootText (serialFound (i8042 d) v io) ++ out.flatten)
        (List.replicate (resets p) 0x03) := by
  obtain ⟨S, e, p, out, hrun, hrunning⟩ := kernel_run d s syms h v io m events
  refine ⟨S, e, p, out, hrun, hrunning, ?_⟩
  have hboot := printed_emit (i8042 d) (bootText (serialFound (i8042 d) v io))
    (Console.initial (i8042 d) v io)
  exact hboot.trans hrunning.printed

end

/-- The static variables between `0xF0112300` and `0xF0113000`. -/
def linkedStatics : Statics := ⟨0xF0112300, 0xF0112320, 0xF0112540⟩

theorem linkedStatics_placed : linkedStatics.Placed 0xF0112300 0xF0113000 :=
  ⟨by decide, by decide, by decide⟩

/-- The video memory behind a reset, and memory that was never written. -/
def blankVideo : Video := ⟨fun _ _ => 0x0720, 0⟩

def unwritten : Machine := ⟨fun _ => 0xCC, true⟩

/-- A key that was struck during the boot. -/
def keyStruck : Io (List Scan × Unit) := ⟨([⟨false, 0x1E⟩], ()), []⟩

/-- It is read behind the boot, and one more, on uninitialised memory. -/
theorem kernel_is_shell_key :
    ∃ (S : System Unit) (e : Editor (List Scan × Unit)) (p : List Byte) (out : List (List Int)),
      kernel readyDevice linkedImage linkedStatics 0xF0112300 0xF0113000 blankVideo keyStruck
          unwritten [.getchar [] fun _ => none, .arrive ⟨false, 0x30⟩] =
        .ok (clearBss 0xF0112300 0xF0113000 unwritten, S) ∧
      S.monitor = .reading e ∧
      [⟨false, 0x1E⟩, ⟨false, 0x30⟩] = p.map Scan.key ++ e.con.pending ∧
      Printed (Console.initial (i8042 readyDevice) blankVideo keyStruck) e.con
        (bootText (serialFound (i8042 readyDevice) blankVideo keyStruck) ++ out.flatten)
        (List.replicate (resets p) 0x03) := by
  obtain ⟨S, e, p, out, hrun, hrunning, hprinted⟩ := kernel_is_shell readyDevice linkedStatics
    linkedImage linkedStatics_placed blankVideo keyStruck unwritten
    [.getchar [] fun _ => none, .arrive ⟨false, 0x30⟩]
  exact ⟨S, e, p, out, hrun, hrunning.monitor, hrunning.decoded, hprinted⟩

end Jos
