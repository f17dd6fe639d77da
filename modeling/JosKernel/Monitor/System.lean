import JosKernel.Console.Overrun
import JosKernel.Console.Reboot
import JosKernel.Foundation.Merge
import JosKernel.Monitor.Session

/-!
# The kernel at work

The monitor with the console under it: scan codes arrive in the keyboard controller, bytes at
the serial port, interrupt routines and the polling of `getchar` move them through the decoder
into the circular buffer, and each character that `getchar` takes out is a key of the monitor.
One event is one of these steps, and they come in any order.

Principal results: `System.Running.step` — what every event keeps; `system_is_shell` — in every
run the monitor is a shell over the characters it has read, which are the keys typed and the
serial bytes, merged, and the devices show the transcript with the messages of the resets.
-/

set_option autoImplicit false

namespace Jos

open Transducer Merging

variable {ε : Type}

/-! ## The system -/

def Monitor.con {δ : Type} : Monitor δ → Console δ
  | .reading e => e.con
  | .left con _ => con

def Monitor.setCon {δ : Type} (con : Console δ) : Monitor δ → Monitor δ
  | .reading e => .reading { e with con }
  | .left _ buf => .left con buf

/-- The monitor with its console, the static `shift` of the decoder, and the console input. -/
structure System (ε : Type) where
  monitor : Monitor (List Scan × ε)
  shift : Word
  input : InputRun

inductive SystemEvent where
  /-- a byte arrives in the keyboard controller -/
  | arrive (s : Scan)
  /-- `serial_intr`, with the bytes in the receiver -/
  | serialIntr (received : List Byte)
  /-- `kbd_intr` -/
  | kbdIntr
  /-- a pass of the loop of `getchar`; the stack below it -/
  | getchar (received : List Byte) (stack : Nat → Option Nat)

/-- The results of `serial_proc_data`. -/
def serialProcData (received : List Byte) : List Int := plain received

/-- The event for the console input. -/
def SystemEvent.bus : SystemEvent → BusEvent
  | .arrive s => .arrive s
  | .serialIntr received => .serialIntr (serialProcData received)
  | .kbdIntr => .kbdIntr
  | .getchar received _ => .consGetc (serialProcData received)

def System.bus (S : System ε) : Bus ε := ⟨⟨S.monitor.con, S.shift⟩, S.input⟩

def System.setBus (S : System ε) (b : Bus ε) : System ε :=
  ⟨S.monitor.setCon b.kbd.con, b.kbd.shift, b.input⟩

/-- What the last call of `cons_getc` returned. -/
def InputRun.last (r : InputRun) : Int := r.returned.getLast?.getD 0

variable (d : Device ε) (syms : KernelSymbols) (serialExists : Bool)

/-- One event; `getchar` returns to the monitor when it has a character. -/
def System.step (S : System ε) (e : SystemEvent) : Except Fault (System ε) := do
  let b ← S.bus.step d serialExists e.bus
  let S := S.setBus b
  match e with
  | .getchar _ stack =>
      if b.input.last = 0 then .ok S
      else do
        let monitor ← monitorStep (i8042 d) syms S.monitor (b.input.last, stack)
        .ok { S with monitor }
  | _ => .ok S

/-- The monitor at its first `getchar`, with nothing in the keyboard controller. -/
def System.start (buf : Int → Byte) (con : Console (List Scan × ε)) :
    Except Fault (System ε) := do
  let monitor ← monitorStart (i8042 d) buf (con.withPending [])
  .ok ⟨monitor, 0, InputRun.init⟩

/-! ## One event of the console input -/

/-- The bytes that arrive in the controller. -/
def BusEvent.arrival : BusEvent → List Scan
  | .arrive s => [s]
  | _ => []

/-- The results of `cons_getc`, where the event is a call. -/
def BusEvent.returns : BusEvent → Int → List Int
  | .consGetc _, c => [c]
  | _, _ => []

/-- What an event does: the decoder reads the bytes `p`, and the console input takes `ies`. -/
structure Bus.Effect (b b' : Bus ε) (e : BusEvent) (p : List Byte) (ies : List InputEvent) :
    Prop where
  shift : b'.kbd.shift = shiftAfter p b.kbd.shift
  pending : b.pending ++ e.arrival = p.map Scan.key ++ b'.pending
  printed : PrintedResets b.kbd.con b'.kbd.con (reboots p b.kbd.shift)
  input : b'.input = b.input.run serialExists ies
  once : ies.length ≤ 1
  range : ∀ ie ∈ ies, ie.InRange
  delivered : b'.delivered = b.delivered ++ (e.serial serialExists ++ typed p b.kbd.shift)
  returned : b'.input.returned = b.input.returned ++ e.returns b'.input.last
  stalled : e.polls = true → Stalled b'.pending
  hungry : b.input.cons.Sound → e.returns b'.input.last = [0] → b'.input.cons.unread = []

/-- The keyboard bytes in front of the first mouse byte. -/
theorem exists_stalled : ∀ q : List Scan,
    ∃ (p : List Byte) (tail : List Scan), q = p.map Scan.key ++ tail ∧ Stalled tail
  | [] => ⟨[], [], rfl, nofun⟩
  | ⟨true, data⟩ :: q => by
    refine ⟨[], ⟨true, data⟩ :: q, rfl, fun s hs => ?_⟩
    cases hs
    rfl
  | ⟨false, data⟩ :: q => by
    obtain ⟨p, tail, hq, htail⟩ := exists_stalled q
    exact ⟨data :: p, tail, by rw [hq]; rfl, htail⟩

variable {d}

theorem kbdResults_printed {tail : List Scan} (htail : Stalled tail) :
    ∀ (fuel : Nat) (p : List Byte) {k k' : Typing ε} {cs : List Int},
      k.con.pending = p.map Scan.key ++ tail → kbdResults (i8042 d) fuel k = .ok (cs, k') →
      PrintedResets k.con k'.con (reboots p k.shift)
  | 0, _, _, _, _, _, hrun => nomatch hrun
  | fuel + 1, [], k, k', cs, h, hrun => by
    have hend : kbdProcData (i8042 d) k = .ok (-1, k) := by
      cases tail with
      | nil => exact kbdProcData_empty h
      | cons s tail => exact kbdProcData_mouse h (htail s rfl)
    obtain ⟨r, hr, hrun⟩ := bind_ok.mp hrun
    rw [hend] at hr
    cases hr
    cases hrun
    exact Printed.refl _
  | fuel + 1, b :: p, k, k', cs, h, hrun => by
    obtain ⟨k1, hcall, hshift, hpending⟩ := @kbdProcData_key ε d k _ _ h rfl
    have hone := kbdProcData_printed h rfl hcall
    have hrange := kbdDecode_range b k.shift
    have hgo : (kbdDecode b k.shift).1 ≠ -1 := by omega
    obtain ⟨r, hr, hrun⟩ := bind_ok.mp hrun
    rw [show kbdProcData (i8042 d) k = .ok ((kbdDecode b k.shift).1, k1) from hcall] at hr
    cases hr
    simp only [if_neg hgo] at hrun
    obtain ⟨r', hrest, hk⟩ := bind_ok.mp hrun
    cases hk
    have hmore := kbdResults_printed htail fuel p hpending hrest
    rw [hshift] at hmore
    exact hone.trans hmore

theorem serialProcData_range (received : List Byte) :
    ∀ c ∈ serialProcData received, -1 ≤ c ∧ c ≤ 255 := by
  intro c hc
  obtain ⟨b, -, rfl⟩ := List.mem_map.mp hc
  have := b.isLt
  omega

theorem poll_range {received p : List Byte} {shift : Word} :
    ∀ c ∈ serialProcData received ++ (resultsOf p shift ++ [-1]), -1 ≤ c ∧ c ≤ 255 := by
  intro c hc
  rcases List.mem_append.mp hc with hc | hc
  · exact serialProcData_range received c hc
  · rcases List.mem_append.mp hc with hc | hc
    · have := resultsOf_range p shift c hc
      omega
    · rw [List.mem_singleton.mp hc]
      omega

/-- Both polls empty the controller up to the first mouse byte. -/
theorem kbdResults_effect (b : Bus ε) :
    ∃ p k', kbdResults (i8042 d) (b.pending.length + 1) b.kbd =
        .ok (resultsOf p b.kbd.shift ++ [-1], k') ∧
      k'.shift = shiftAfter p b.kbd.shift ∧ b.pending = p.map Scan.key ++ k'.con.pending ∧
      PrintedResets b.kbd.con k'.con (reboots p b.kbd.shift) ∧ Stalled k'.con.pending := by
  obtain ⟨p, tail, hq, htail⟩ := exists_stalled b.pending
  have hfuel : p.length < b.pending.length + 1 := by
    rw [hq, List.length_append, List.length_map]
    omega
  obtain ⟨k', hrun, hshift, hpending⟩ := @kbdResults_spec ε d tail htail _ p b.kbd hq hfuel
  exact ⟨p, k', hrun, hshift, hpending ▸ hq, kbdResults_printed htail _ p hq hrun,
    hpending.symm ▸ htail⟩

/-- `cons_getc` returns 0 when nothing is unread. -/
theorem consTake_zero {s : Cons} (h : s.Sound) (hc : (consTake s).1 = 0) :
    (consTake s).2.unread = [] := by
  rcases consTake_unread h.inBounds with ⟨hnil, htake⟩ | ⟨b, rest, hcons, hb, -⟩
  · rw [htake]
    exact hnil
  · rw [hb] at hc
    have hzero : b = 0 := BitVec.eq_of_toNat_eq (Int.natCast_eq_zero.mp hc)
    exact absurd hzero (h.nonzero b (by rw [hcons]; exact List.mem_cons_self))

/-- **One event of the console input.** -/
theorem Bus.step_effect (b : Bus ε) (e : SystemEvent) :
    ∃ b' p ies, b.step d serialExists e.bus = .ok b' ∧
      Bus.Effect serialExists b b' e.bus p ies := by
  cases e with
  | arrive s =>
    refine ⟨_, [], [], rfl, rfl, rfl, Printed.of_eq rfl rfl, rfl, Nat.zero_le 1, nofun, ?_, ?_,
      nofun, nofun⟩ <;>
      exact (List.append_nil _).symm
  | serialIntr received =>
    refine ⟨_, [], [.serialIntr (serialProcData received)], rfl, rfl, ?_, Printed.refl _, rfl,
      Nat.le_refl 1, List.forall_mem_singleton.mpr (serialProcData_range received), ?_, ?_,
      nofun, nofun⟩
    · exact List.append_nil _
    · show characters (b.input.results ++ serialCalls _ _) = _ ++ (_ ++ [])
      rw [characters_append, List.append_nil]
      rfl
    · exact (List.append_nil _).symm
  | kbdIntr =>
    obtain ⟨p, k', hrun, hshift, hpending, hprinted, hstalled⟩ := @kbdResults_effect ε d b
    have hstep : b.step d serialExists .kbdIntr =
        .ok ⟨k', b.input.step serialExists (.kbdIntr (resultsOf p b.kbd.shift ++ [-1]))⟩ :=
      bind_ok.mpr ⟨_, hrun, rfl⟩
    refine ⟨_, p, [.kbdIntr (resultsOf p b.kbd.shift ++ [-1])], hstep, hshift, ?_, hprinted, rfl,
      Nat.le_refl 1, List.forall_mem_singleton.mpr (@poll_range [] p _), ?_, ?_,
      fun _ => hstalled, nofun⟩
    · exact (List.append_nil _).trans hpending
    · show characters (b.input.results ++ callsMade _) = _
      rw [characters_append, characters_callsMade]
      rfl
    · exact (List.append_nil _).symm
  | getchar received stack =>
    obtain ⟨p, k', hrun, hshift, hpending, hprinted, hstalled⟩ := @kbdResults_effect ε d b
    have hstep : b.step d serialExists (.consGetc (serialProcData received)) =
        .ok ⟨k', b.input.step serialExists
          (.consGetc (serialProcData received) (resultsOf p b.kbd.shift ++ [-1]))⟩ :=
      bind_ok.mpr ⟨_, hrun, rfl⟩
    refine ⟨_, p, [.consGetc (serialProcData received) (resultsOf p b.kbd.shift ++ [-1])], hstep,
      hshift, ?_, hprinted, rfl, Nat.le_refl 1,
      List.forall_mem_singleton.mpr (@poll_range received p _), ?_, ?_, fun _ => hstalled, ?_⟩
    · exact (List.append_nil _).trans hpending
    · show characters (b.input.results ++ (serialCalls _ _ ++ callsMade _)) = _
      rw [characters_append, characters_append, characters_callsMade]
      rfl
    · show b.input.returned ++ [_] = b.input.returned ++ [_]
      rw [InputRun.last, InputRun.step, List.getLast?_concat]
      rfl
    · intro hsound hzero
      have hpolled := hsound.intrs (@InputEvent.procs_range serialExists
        (.consGetc (serialProcData received) (resultsOf p b.kbd.shift ++ [-1])) poll_range)
      rw [← InputRun.polled_eq] at hpolled
      refine consTake_zero hpolled ?_
      have hlast := List.singleton_inj.mp hzero
      rw [InputRun.last, InputRun.step, List.getLast?_concat] at hlast
      exact hlast

/-- At most 511 characters are stored that have not been read: the state before a step and the
    one behind it. -/
def Bus.HasRoom (b b' : Bus ε) : Prop := b'.delivered.length ≤ b.input.read.length + 511

/-- The queue behind an event that had room. -/
theorem Bus.Effect.fifo {b b' : Bus ε} {e : BusEvent} {p : List Byte} {ies : List InputEvent}
    (h : Bus.Effect serialExists b b' e p ies) (hfifo : b.input.Fifo) (hroom : b.HasRoom b') :
    b'.input.Fifo := by
  rw [HasRoom, Bus.delivered] at hroom
  have honce := h.once
  have hrange := h.range
  rw [h.input] at hroom ⊢
  match ies, honce, hrange with
  | [], _, _ => exact hfifo
  | [ie], _, hrange =>
    have hresults : (b.input.run serialExists [ie]).results =
        b.input.results ++ ie.results serialExists := by cases ie <;> rfl
    rw [hresults] at hroom
    exact hfifo.step (List.forall_mem_singleton.mp hrange) hroom

/-! ## What every event keeps -/

/-- The bytes that have arrived in the keyboard controller. -/
def arrivals (events : List SystemEvent) : List Scan := events.flatMap fun e => e.bus.arrival

/-- The characters that have been received at the serial port. -/
def serialChars (events : List SystemEvent) : List Int :=
  events.flatMap fun e => e.bus.serial serialExists

/-- The transcript, in a piece for each key. -/
def transcriptTexts (cs : List Int) : List (List Int) := welcomeText :: (shell syms).words [] cs

/-- The monitor waits in `getchar` with the characters `cs` behind it, the decoder has read the
    bytes `p`, and `out` has been printed: the transcript of `cs`, with the messages of the
    resets. -/
structure System.Running (outside : Int → Byte) (con : Console (List Scan × ε))
    (events : List SystemEvent) (S : System ε) (e : Editor (List Scan × ε)) (cs : List Int)
    (p : List Byte) (out : List (List Int)) : Prop where
  monitor : S.monitor = .reading e
  echoing : e.echoing = 1
  line : Held outside e.buf e.i ((shell syms).state [] cs)
  returned : ∀ c ∈ S.input.returned, c = 0 ∨ 1 ≤ c ∧ c ≤ 255
  sound : S.input.cons.Sound
  shift : S.shift = shiftAfter p 0
  decoded : arrivals events = p.map Scan.key ++ e.con.pending
  delivered : Merge (typed p 0) (serialChars serialExists events) (characters S.input.results)
  texts : Merge (transcriptTexts syms cs) (List.replicate (resets p) rebootText) out
  printed : Printed con e.con out.flatten (List.replicate (resets p) 0x03)

variable {outside : Int → Byte} {con : Console (List Scan × ε)} {events : List SystemEvent}
  {S : System ε} {e : Editor (List Scan × ε)} {cs : List Int} {p : List Byte}
  {out : List (List Int)}

theorem resets_append (p q : List Byte) :
    resets (p ++ q) = resets p + reboots q (shiftAfter p 0) := by
  rw [← reboots_eq_resets, reboots_append, reboots_eq_resets]

variable (d)

/-- **The part of an event below the monitor.** -/
theorem System.Running.poll (h : S.Running syms serialExists outside con events e cs p out)
    (ev : SystemEvent) :
    ∃ b' q, S.bus.step d serialExists ev.bus = .ok b' ∧
      b'.input.returned = S.input.returned ++ ev.bus.returns b'.input.last ∧
      (S.input.Fifo → S.bus.HasRoom b' → b'.input.Fifo) ∧
      (ev.bus.polls = true → Stalled b'.pending) ∧
      (ev.bus.returns b'.input.last = [0] → b'.input.cons.unread = []) ∧
      (S.setBus b').Running syms serialExists outside con (events ++ [ev])
        { e with con := b'.kbd.con } cs (p ++ q)
        (out ++ List.replicate (reboots q (shiftAfter p 0)) rebootText) := by
  obtain ⟨b', q, ies, hstep, heff⟩ := @Bus.step_effect ε d serialExists S.bus ev
  have hcon : S.bus.kbd.con = e.con := by
    show S.monitor.con = _
    rw [h.monitor]
    rfl
  have hshift : S.bus.kbd.shift = shiftAfter p 0 := h.shift
  have hfifo := heff.fifo
  obtain ⟨hshift', hpending, hprinted, hinput, -, hrange, hdelivered, hreturned, hstalled,
    hhungry⟩ := heff
  rw [hshift] at hshift' hprinted hdelivered
  refine ⟨b', q, hstep, hreturned, hfifo, hstalled, hhungry h.sound, ?_⟩
  constructor
  · show S.monitor.setCon b'.kbd.con = _
    rw [h.monitor]
    rfl
  · exact h.echoing
  · exact h.line
  · show ∀ c ∈ b'.input.returned, _
    rw [hinput]
    have hbefore : ∀ c ∈ S.input.returned, 0 ≤ c ∧ c < 256 := fun c hc => by
      have hkey := h.returned c hc
      omega
    intro c hc
    have hbyte := InputRun.run_returned ies hbefore c hc
    omega
  · show b'.input.cons.Sound
    rw [hinput]
    exact InputRun.run_sound ies h.sound hrange
  · rw [shiftAfter_append]
    exact hshift'
  · have hp : S.bus.pending = e.con.pending := congrArg Console.pending hcon
    rw [hp] at hpending
    rw [arrivals, List.flatMap_append, ← arrivals, h.decoded, List.map_append, List.append_assoc,
      List.append_assoc]
    congr 1
    rw [List.flatMap_singleton]
    exact hpending
  · have hchars : characters b'.input.results = _ := hdelivered
    show Merge _ _ (characters b'.input.results)
    rw [hchars, typed_append, serialChars, List.flatMap_append, List.flatMap_singleton,
      ← List.append_assoc]
    exact append_left _ (append_right _ h.delivered)
  · rw [resets_append, ← List.replicate_append_replicate]
    exact append_right _ h.texts
  · have htrans := (hcon ▸ h.printed : Printed con S.bus.kbd.con _ _).trans hprinted
    rw [resets_append, ← List.replicate_append_replicate, List.flatten_append]
    exact htrans

/-- **A character for the monitor**: the shell goes on, and its answer is printed. -/
theorem System.Running.key (h : S.Running syms serialExists outside con events e cs p out)
    {c : Int} (hc : 1 ≤ c ∧ c ≤ 255) (stack : Nat → Option Nat) :
    ∃ e', monitorStep (i8042 d) syms S.monitor (c, stack) = .ok (.reading e') ∧
      { S with monitor := .reading e' }.Running syms serialExists outside con events e'
        (cs ++ [c]) p (out ++ [(shell syms).emit ((shell syms).state [] cs) c]) := by
  have hat : AtKey (i8042 d) outside e.con e ((shell syms).state [] cs) [] :=
    ⟨h.line, h.echoing, rfl⟩
  obtain ⟨g, hstep, e', rfl, hkey⟩ := monitor_represents (i8042 d) syms outside e.con _ _ _
    (c, stack) ⟨e, rfl, hat⟩ hc
  have hcon : e'.con = emit (cputchar (i8042 d)) ((shell syms).emit _ c) e.con := hkey.con
  have hlocal := printed_emit (i8042 d) ((shell syms).emit ((shell syms).state [] cs) c) e.con
  rw [← hcon] at hlocal
  refine ⟨e', by rw [h.monitor]; exact hstep, rfl, hkey.echoing, ?_, h.returned, h.sound, h.shift,
    ?_, h.delivered, ?_, ?_⟩
  · rw [state_append]
    exact hkey.held
  · rw [hcon, emit_pending]
    exact h.decoded
  · rw [transcriptTexts, words_concat]
    exact (h.texts.left _ :)
  · have htrans := h.printed.trans hlocal
    rwa [List.append_nil, ← List.flatten_concat] at htrans

/-- At most 511 characters are stored that have not been read, behind the polling of a step. -/
def System.HasRoom (S S' : System ε) : Prop :=
  (characters S'.input.results).length ≤ S.input.read.length + 511

instance (S S' : System ε) : Decidable (S.HasRoom S') := inferInstanceAs (Decidable (_ ≤ _))

/-- What one event does for the characters that are under way. -/
structure System.Served (S S' : System ε) (ev : SystemEvent) : Prop where
  fifo : S.input.Fifo → S.HasRoom S' → S'.input.Fifo
  stalled : ev.bus.polls = true → Stalled S'.monitor.con.pending
  progress : ∀ received stack, ev = .getchar received stack →
    S'.input.cons.unread = [] ∨ S.input.read.length < S'.input.read.length

/-- **One event**: the monitor is at its next `getchar`, with the characters read behind it. -/
theorem System.Running.step
    (h : S.Running syms serialExists outside con events e S.input.read p out) (ev : SystemEvent) :
    ∃ S' e' q out', S.step d syms serialExists ev = .ok S' ∧
      S.Served S' ev ∧
      S'.Running syms serialExists outside con (events ++ [ev]) e' S'.input.read (p ++ q) out' := by
  obtain ⟨b', q, hpoll, hreturned, hfifo, hstalled, hhungry, hrun⟩ :=
    h.poll d syms serialExists ev
  have hread : b'.input.read =
      S.input.read ++ (ev.bus.returns b'.input.last).filter fun c => c ≠ 0 := by
    rw [InputRun.read, hreturned, List.filter_append]
    rfl
  by_cases hnone : (ev.bus.returns b'.input.last).filter (fun c => c ≠ 0) = []
  · -- no character: an interrupt, or one more pass of the loop of `getchar`
    have hstep : S.step d syms serialExists ev = .ok (S.setBus b') := by
      rw [System.step, hpoll]
      cases ev with
      | arrive _ => rfl
      | serialIntr _ => rfl
      | kbdIntr => rfl
      | getchar _ stack =>
        have hlast : b'.input.last = 0 := by simpa [SystemEvent.bus, BusEvent.returns] using hnone
        simp only [Bind.bind, Except.bind, if_pos hlast]
    have hsame : (S.setBus b').input.read = S.input.read := by
      rw [hnone, List.append_nil] at hread
      exact hread
    refine ⟨_, _, q, _, hstep, ⟨hfifo, ?_, ?_⟩, hsame.symm ▸ hrun⟩
    · intro hpolls
      rw [hrun.monitor]
      exact hstalled hpolls
    · rintro received stack rfl
      have hlast : b'.input.last = 0 := by simpa [SystemEvent.bus, BusEvent.returns] using hnone
      exact Or.inl (hhungry (congrArg (fun c => [c]) hlast))
  · cases ev with
    | arrive _ => exact absurd rfl hnone
    | serialIntr _ => exact absurd rfl hnone
    | kbdIntr => exact absurd rfl hnone
    | getchar received stack =>
      have hlast : b'.input.last ≠ 0 := fun h0 => hnone (by
        rw [h0]
        rfl)
      have hmem : b'.input.last ∈ b'.input.returned := by
        rw [hreturned]
        exact List.mem_append_right _ (List.mem_singleton.mpr rfl)
      have hchar := (hrun.returned _ hmem).resolve_left hlast
      have hnew : b'.input.read = S.input.read ++ [b'.input.last] := by
        rw [hread]
        simp [SystemEvent.bus, BusEvent.returns, hlast]
      obtain ⟨e', hkey, hrun'⟩ := hrun.key d syms serialExists hchar stack
      refine ⟨⟨.reading e', b'.kbd.shift, b'.input⟩, e', q, _, ?_, ⟨hfifo, ?_, ?_⟩, hnew ▸ hrun'⟩
      · rw [System.step, hpoll]
        simp only [Bind.bind, Except.bind, if_neg hlast, hkey]
        rfl
      · intro hpolls
        -- the monitor leaves the controller alone
        have hsame := hrun.decoded.symm.trans hrun'.decoded
        exact List.append_cancel_left hsame ▸ hstalled hpolls
      · intro _ _ _
        rw [hnew, List.length_append]
        exact Or.inr (Nat.lt_succ_self _)

/-! ## Whole runs -/

/-- No step of the run stores more unread characters than fit. -/
def System.NeverOverrun : System ε → List SystemEvent → Prop
  | _, [] => True
  | S, ev :: events => ∃ S', S.step d syms serialExists ev = .ok S' ∧ S.HasRoom S' ∧
      NeverOverrun S' events

theorem System.Running.run : ∀ (more : List SystemEvent) {events : List SystemEvent} {S : System ε}
    {e : Editor (List Scan × ε)} {p : List Byte} {out : List (List Int)},
    S.Running syms serialExists outside con events e S.input.read p out →
    ∃ S' e' q out', run (System.step d syms serialExists) S more = .ok S' ∧
      (S.input.Fifo → S.NeverOverrun d syms serialExists more → S'.input.Fifo) ∧
      S'.Running syms serialExists outside con (events ++ more) e' S'.input.read (p ++ q) out'
  | [], events, S, e, p, out, h => by
    refine ⟨S, e, [], out, rfl, fun hfifo _ => hfifo, ?_⟩
    rw [List.append_nil, List.append_nil]
    exact h
  | ev :: more, events, S, e, p, out, h => by
    obtain ⟨S1, e1, q1, out1, hstep, hserved, h1⟩ := h.step d syms serialExists ev
    obtain ⟨S', e', q, out', hrun, hfifo, h'⟩ := System.Running.run more h1
    refine ⟨S', e', q1 ++ q, out', ?_, ?_, ?_⟩
    · rw [Transducer.run, hstep]
      exact hrun
    · rintro hf ⟨S2, hstep2, hroom, hmore⟩
      rw [hstep] at hstep2
      cases hstep2
      exact hfifo (hserved.fifo hf hroom) hmore
    · rw [← List.append_assoc, List.append_cons]
      exact h'

/-- The monitor at its first `getchar`: what is in the keyboard controller has arrived. -/
theorem System.begin_running (buf : Int → Byte) (con : Console (List Scan × ε)) :
    ∃ e, monitorStart (i8042 d) buf con = .ok (.reading e) ∧
      System.Running syms serialExists buf con (con.pending.map .arrive)
        ⟨.reading e, 0, InputRun.init⟩ e [] [] [welcomeText] := by
  obtain ⟨e, hstart, hkey⟩ := @monitorStart_spec _ (i8042 d) buf _ (fun _ _ => rfl) con []
  rw [List.nil_append] at hkey
  have harrivals : ∀ q : List Scan, arrivals (q.map .arrive) = q := by
    intro q
    induction q with
    | nil => rfl
    | cons s q ih => exact congrArg (s :: ·) ih
  have hserial : ∀ q : List Scan, serialChars serialExists (q.map .arrive) = [] := by
    intro q
    induction q with
    | nil => rfl
    | cons s q ih => exact ih
  refine ⟨e, hstart, rfl, hkey.echoing, hkey.held, nofun, Cons.init_sound, rfl, ?_, ?_,
    .left _ .nil, ?_⟩
  · rw [harrivals, hkey.con, emit_pending]
    rfl
  · rw [hserial]
    exact .nil
  · rw [hkey.con, List.flatten_singleton]
    exact printed_emit _ _ _

theorem System.start_running (buf : Int → Byte) (con : Console (List Scan × ε)) :
    ∃ S e, System.start d buf con = .ok S ∧ S.input = InputRun.init ∧
      S.Running syms serialExists buf (con.withPending []) [] e [] [] [welcomeText] := by
  obtain ⟨e, hstart, hrun⟩ := System.begin_running d syms serialExists buf (con.withPending [])
  refine ⟨_, e, ?_, rfl, hrun⟩
  rw [System.start, hstart]
  rfl

/-- The kernel from the first `getchar` on. -/
def system (buf : Int → Byte) (con : Console (List Scan × ε)) (events : List SystemEvent) :
    Except Fault (System ε) := do
  let S ← System.start d buf con
  run (System.step d syms serialExists) S events

/-- **The kernel at work is a shell**: in whatever order scan codes arrive, interrupts come and
    `getchar` polls, the monitor waits for its next character with the line so far in its buffer;
    the keys typed, in their order, and the bytes received, in theirs, are what was stored; the
    output is the transcript of the characters read with the messages of the resets.  Where the
    circular buffer never overruns, the characters read and those unread are all that was
    stored. -/
theorem system_is_shell (buf : Int → Byte) (con : Console (List Scan × ε))
    (events : List SystemEvent) :
    ∃ S e p out, system d syms serialExists buf con events = .ok S ∧
      S.Running syms serialExists buf (con.withPending []) events e S.input.read p out ∧
      ∀ S₀, System.start d buf con = .ok S₀ → S₀.NeverOverrun d syms serialExists events →
        bytes S.input.read ++ S.input.cons.unread = bytes (characters S.input.results) := by
  obtain ⟨S₀, e₀, hstart, hinit, h₀⟩ := System.start_running d syms serialExists buf con
  have hread : S₀.input.read = [] := by
    rw [hinit]
    rfl
  obtain ⟨S, e, p, out, hrun, hfifo, h⟩ :=
    System.Running.run d syms serialExists events (hread.symm ▸ h₀)
  refine ⟨S, e, p, out, ?_, h, fun S₁ hstart₁ hnever => ?_⟩
  · rw [system, hstart]
    exact hrun
  · rw [hstart] at hstart₁
    cases hstart₁
    exact (hfifo (hinit.symm ▸ InputRun.init_fifo) hnever).exact

end Jos
