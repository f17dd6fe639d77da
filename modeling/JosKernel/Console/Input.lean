import JosKernel.Foundation.CInt
import JosKernel.Foundation.Ring

/-!
# The console input buffer

`kern/console.c`: the circular buffer `cons` that the serial and keyboard interrupt routines
fill through `cons_intr` and that `cons_getc` empties after polling both devices.

A device callback `proc` is given by the results its successive calls return; past the end
of the list it has no data and returns `-1`.  The two positions stay below `CONSBUFSIZE`
(`Cons.InBounds`), so their 32-bit increments never wrap.

Principal results: `consIntr_unread` and `consTake_unread` — each entry point is a queue
operation on the unread characters as long as the buffer has room; `console_input_fifo` —
over every run the characters come out in the order in which they were stored.
-/

set_option autoImplicit false

namespace Jos

open RingBuffer

def CONSBUFSIZE : Nat := 512

/-- The static `cons`. -/
structure Cons where
  buf : Nat → Byte
  rpos : Nat
  wpos : Nat

/-- `cons` as the loader leaves it. -/
def Cons.init : Cons := ⟨fun _ => 0, 0, 0⟩

/-- The body of the loop in `cons_intr` for a character. -/
def consStore (c : Int) (s : Cons) : Cons :=
  let wpos := s.wpos + 1
  { s with
    buf := Function.update s.buf s.wpos (BitVec.ofInt 8 c)
    wpos := if wpos = CONSBUFSIZE then 0 else wpos }

/-- `cons_intr`. -/
def consIntr : List Int → Cons → Cons
  | [], s => s
  | c :: proc, s =>
      if c = -1 then s
      else if c = 0 then consIntr proc s
      else consIntr proc (consStore c s)

/-- `serial_intr`: the port is polled only if it was found at start-up. -/
def serialIntr (serialExists : Bool) (serialProcData : List Int) (s : Cons) : Cons :=
  if serialExists then consIntr serialProcData s else s

/-- `kbd_intr`. -/
def kbdIntr (kbdProcData : List Int) (s : Cons) : Cons := consIntr kbdProcData s

/-- The polling at the head of `cons_getc`. -/
def consPoll (serialExists : Bool) (serialProcData kbdProcData : List Int) (s : Cons) : Cons :=
  kbdIntr kbdProcData (serialIntr serialExists serialProcData s)

/-- `cons_getc` behind the polling: the next character, or 0 if none is waiting. -/
def consTake (s : Cons) : Int × Cons :=
  if s.rpos ≠ s.wpos then
    let c := s.buf s.rpos
    let rpos := s.rpos + 1
    (c.toNat, { s with rpos := if rpos = CONSBUFSIZE then 0 else rpos })
  else (0, s)

/-- `cons_getc`. -/
def consGetc (serialExists : Bool) (serialProcData kbdProcData : List Int) (s : Cons) :
    Int × Cons :=
  consTake (consPoll serialExists serialProcData kbdProcData s)

/-! ## The buffer as a queue -/

/-- Both positions are indices into `buf`. -/
structure Cons.InBounds (s : Cons) : Prop where
  rpos : s.rpos < CONSBUFSIZE
  wpos : s.wpos < CONSBUFSIZE

/-- The unread content of `cons.buf`. -/
def Cons.unread (s : Cons) : List Byte := contents CONSBUFSIZE s.buf s.rpos s.wpos

/-- The results of the calls that `cons_intr` makes: it stops at the first `-1`. -/
def callsMade : List Int → List Int
  | [] => [-1]
  | c :: proc => if c = -1 then [-1] else c :: callsMade proc

/-- The results that are characters: all but 0 and `-1`. -/
def characters (results : List Int) : List Int := results.filter fun c => c ≠ 0 ∧ c ≠ -1

/-- Characters as they are stored. -/
def bytes (cs : List Int) : List Byte := cs.map (BitVec.ofInt 8)

@[simp] theorem characters_nil : characters [] = [] := rfl

theorem characters_append (xs ys : List Int) :
    characters (xs ++ ys) = characters xs ++ characters ys := by
  simp [characters]

theorem bytes_append (xs ys : List Int) : bytes (xs ++ ys) = bytes xs ++ bytes ys := by
  simp [bytes]

@[simp] theorem length_bytes (cs : List Int) : (bytes cs).length = cs.length := by
  simp [bytes]

theorem Cons.init_inBounds : Cons.init.InBounds := by
  constructor <;> decide

theorem Cons.init_unread : Cons.init.unread = [] :=
  (contents_eq_nil (by decide) _).2 rfl

theorem consStore_inBounds {s : Cons} (h : s.InBounds) (c : Int) : (consStore c s).InBounds :=
  ⟨h.rpos, next_lt h.wpos⟩

theorem consIntr_inBounds : ∀ (proc : List Int) {s : Cons}, s.InBounds → (consIntr proc s).InBounds
  | [], _, h => h
  | c :: proc, s, h => by
    unfold consIntr
    split
    · exact h
    · split
      · exact consIntr_inBounds proc h
      · exact consIntr_inBounds proc (consStore_inBounds h c)

theorem consPoll_inBounds {s : Cons} (h : s.InBounds) (ex : Bool) (serial kbd : List Int) :
    (consPoll ex serial kbd s).InBounds := by
  unfold consPoll kbdIntr serialIntr
  apply consIntr_inBounds
  split
  · exact consIntr_inBounds serial h
  · exact h

theorem consTake_inBounds {s : Cons} (h : s.InBounds) : (consTake s).2.InBounds := by
  unfold consTake
  split
  · exact ⟨next_lt h.rpos, h.wpos⟩
  · exact h

/-- Storing a character appends it, as long as one cell stays free behind it. -/
theorem consStore_unread {s : Cons} (h : s.InBounds) (hroom : s.unread.length + 1 < CONSBUFSIZE)
    (c : Int) : (consStore c s).unread = s.unread ++ [BitVec.ofInt 8 c] := by
  unfold Cons.unread at hroom
  rw [length_contents] at hroom
  exact contents_push h.rpos h.wpos hroom s.buf _

/-- **`cons_intr` appends the characters of its callback**, in order, if they fit. -/
theorem consIntr_unread : ∀ (proc : List Int) {s : Cons}, s.InBounds →
    s.unread.length + (characters (callsMade proc)).length < CONSBUFSIZE →
    (consIntr proc s).unread = s.unread ++ bytes (characters (callsMade proc))
  | [], s, _, _ => by simp [consIntr, callsMade, characters, bytes]
  | c :: proc, s, h, hroom => by
    unfold consIntr callsMade
    unfold callsMade at hroom
    by_cases hend : c = -1
    · simp [hend, characters, bytes]
    · rw [if_neg hend] at hroom ⊢
      rw [if_neg hend]
      by_cases hzero : c = 0
      · -- the zero is skipped
        have hskip : characters (c :: callsMade proc) = characters (callsMade proc) := by
          simp [characters, hzero]
        rw [hskip] at hroom ⊢
        rw [if_pos hzero]
        exact consIntr_unread proc h hroom
      · have hkeep : characters (c :: callsMade proc) = c :: characters (callsMade proc) := by
          simp [characters, hzero, hend]
        rw [hkeep, List.length_cons] at hroom
        have hone := consStore_unread h (by omega) c
        rw [if_neg hzero, hkeep, consIntr_unread proc (consStore_inBounds h c), hone]
        · simp [bytes]
        · rw [hone, List.length_append, List.length_singleton]
          omega

/-- **`cons_getc` takes the oldest unread character**; it returns 0 on an empty buffer. -/
theorem consTake_unread {s : Cons} (h : s.InBounds) :
    (s.unread = [] ∧ consTake s = (0, s)) ∨
      ∃ b rest, s.unread = b :: rest ∧ (consTake s).1 = b.toNat ∧ (consTake s).2.unread = rest := by
  unfold consTake
  split
  · rename_i hne
    exact Or.inr ⟨_, _, contents_pop h.rpos h.wpos hne s.buf, rfl, rfl⟩
  · rename_i heq
    exact Or.inl ⟨(contents_eq_nil h.rpos _).2 (Decidable.not_not.1 heq), rfl⟩

/-- A read moves the oldest unread character out of a buffer that holds no NUL, and returns 0
    exactly when there is none. -/
theorem consTake_fifo {s : Cons} (h : s.InBounds) (hnz : ∀ b ∈ s.unread, b ≠ 0) :
    bytes ([(consTake s).1].filter fun c => c ≠ 0) ++ (consTake s).2.unread = s.unread ∧
      ((consTake s).1 = 0 ↔ s.unread = []) := by
  rcases consTake_unread h with ⟨hnil, htake⟩ | ⟨b, rest, hcons, hc, hrest⟩
  · rw [htake]
    simp [bytes, hnil]
  · have hb : b.toNat ≠ 0 := fun h0 =>
      hnz b (by rw [hcons]; exact List.mem_cons_self) (BitVec.eq_of_toNat_eq h0)
    rw [hc, hrest, hcons]
    simp [bytes, hb]

/-! ## Runs -/

/-- One use of the console input: an interrupt or a read, with what the callbacks return. -/
inductive InputEvent where
  | serialIntr (serialProcData : List Int)
  | kbdIntr (kbdProcData : List Int)
  | consGetc (serialProcData kbdProcData : List Int)

/-- The callback results that `serial_intr` obtains. -/
def serialCalls (serialExists : Bool) (serialProcData : List Int) : List Int :=
  if serialExists then callsMade serialProcData else []

/-- The callback results that the event obtains, in order of the calls. -/
def InputEvent.results (serialExists : Bool) : InputEvent → List Int
  | .serialIntr serial => serialCalls serialExists serial
  | .kbdIntr kbd => callsMade kbd
  | .consGetc serial kbd => serialCalls serialExists serial ++ callsMade kbd

/-- Every callback result lies in `-1 .. 255`. -/
def InputEvent.InRange : InputEvent → Prop
  | .serialIntr serial => ∀ c ∈ serial, -1 ≤ c ∧ c ≤ 255
  | .kbdIntr kbd => ∀ c ∈ kbd, -1 ≤ c ∧ c ≤ 255
  | .consGetc serial kbd => ∀ c ∈ serial ++ kbd, -1 ≤ c ∧ c ≤ 255

instance : (e : InputEvent) → Decidable e.InRange
  | .serialIntr _ => inferInstanceAs (Decidable (∀ c ∈ _, _))
  | .kbdIntr _ => inferInstanceAs (Decidable (∀ c ∈ _, _))
  | .consGetc _ _ => inferInstanceAs (Decidable (∀ c ∈ _, _))

/-- A run of the console input with its history. -/
structure InputRun where
  cons : Cons
  /-- all callback results so far -/
  results : List Int
  /-- all values returned by `cons_getc` so far -/
  returned : List Int

def InputRun.init : InputRun := ⟨Cons.init, [], []⟩

def InputRun.step (serialExists : Bool) (r : InputRun) (e : InputEvent) : InputRun :=
  let results := r.results ++ e.results serialExists
  match e with
  | .serialIntr serial => ⟨serialIntr serialExists serial r.cons, results, r.returned⟩
  | .kbdIntr kbd => ⟨kbdIntr kbd r.cons, results, r.returned⟩
  | .consGetc serial kbd =>
      let t := consGetc serialExists serial kbd r.cons
      ⟨t.2, results, r.returned ++ [t.1]⟩

def InputRun.run (serialExists : Bool) (r : InputRun) (events : List InputEvent) : InputRun :=
  events.foldl (InputRun.step serialExists) r

/-- The characters that `cons_getc` has returned. -/
def InputRun.read (r : InputRun) : List Int := r.returned.filter fun c => c ≠ 0

/-- After the polling of `e`, at most 511 stored characters have not been read. -/
def InputRun.HasRoom (serialExists : Bool) (r : InputRun) (e : InputEvent) : Prop :=
  (characters (r.results ++ e.results serialExists)).length ≤ r.read.length + 511

instance (ex : Bool) (r : InputRun) (e : InputEvent) : Decidable (r.HasRoom ex e) :=
  inferInstanceAs (Decidable (_ ≤ _))

/-- No step of the run stores more unread characters than fit. -/
def InputRun.NeverOverrun (serialExists : Bool) : InputRun → List InputEvent → Prop
  | _, [] => True
  | r, e :: events =>
      r.HasRoom serialExists e ∧ NeverOverrun serialExists (r.step serialExists e) events

/-- The queue invariant: what was read and what is unread make up what was stored, and no
    NUL was stored. -/
structure InputRun.Fifo (r : InputRun) : Prop where
  inBounds : r.cons.InBounds
  exact : bytes r.read ++ r.cons.unread = bytes (characters r.results)
  nonzero : ∀ b ∈ r.cons.unread, b ≠ 0

theorem InputRun.init_fifo : InputRun.init.Fifo :=
  ⟨Cons.init_inBounds, by simp [init, read, bytes, Cons.init_unread],
    by simp [init, Cons.init_unread]⟩

theorem mem_callsMade : ∀ {proc : List Int} {c : Int}, c ∈ callsMade proc → c = -1 ∨ c ∈ proc
  | [], c, h => by simp [callsMade] at h; exact Or.inl h
  | d :: proc, c, h => by
    unfold callsMade at h
    split at h
    · simp at h; exact Or.inl h
    · rcases List.mem_cons.1 h with rfl | h
      · exact Or.inr List.mem_cons_self
      · exact (mem_callsMade h).imp_right (List.mem_cons_of_mem _)

/-- The characters of an in-range event lie in `1 .. 255`. -/
theorem InputEvent.characters_range {ex : Bool} {e : InputEvent} (h : e.InRange) :
    ∀ c ∈ characters (e.results ex), 0 < c ∧ c < 256 := by
  have key : ∀ proc : List Int, (∀ c ∈ proc, -1 ≤ c ∧ c ≤ 255) →
      ∀ c ∈ characters (callsMade proc), 0 < c ∧ c < 256 := by
    intro proc hproc c hc
    simp only [characters, List.mem_filter, decide_eq_true_eq] at hc
    rcases mem_callsMade hc.1 with hm | hm
    · exact absurd hm hc.2.2
    · have := hproc c hm
      omega
  have keySerial : ∀ proc : List Int, (∀ c ∈ proc, -1 ≤ c ∧ c ≤ 255) →
      ∀ c ∈ characters (serialCalls ex proc), 0 < c ∧ c < 256 := by
    intro proc hproc
    unfold serialCalls
    split
    · exact key proc hproc
    · simp
  cases e with
  | serialIntr serial => exact keySerial serial h
  | kbdIntr kbd => exact key kbd h
  | consGetc serial kbd =>
    intro c hc
    rw [results, characters_append, List.mem_append] at hc
    rcases hc with hc | hc
    · exact keySerial serial (fun c hm => h c (List.mem_append_left _ hm)) c hc
    · exact key kbd (fun c hm => h c (List.mem_append_right _ hm)) c hc

theorem serialIntr_inBounds {s : Cons} (h : s.InBounds) (ex : Bool) (serial : List Int) :
    (serialIntr ex serial s).InBounds := by
  unfold serialIntr
  split
  · exact consIntr_inBounds serial h
  · exact h

theorem serialIntr_unread {s : Cons} (h : s.InBounds) (ex : Bool) (serial : List Int)
    (hroom : s.unread.length + (characters (serialCalls ex serial)).length < CONSBUFSIZE) :
    (serialIntr ex serial s).unread = s.unread ++ bytes (characters (serialCalls ex serial)) := by
  cases ex with
  | false => simp [serialIntr, serialCalls, bytes]
  | true => exact consIntr_unread serial h hroom

/-- Polling both devices appends the serial characters and then the keyboard's. -/
theorem consPoll_unread {s : Cons} (h : s.InBounds) (ex : Bool) (serial kbd : List Int)
    (hroom : s.unread.length + (characters (InputEvent.results ex (.consGetc serial kbd))).length <
      CONSBUFSIZE) :
    (consPoll ex serial kbd s).unread =
      s.unread ++ bytes (characters (InputEvent.results ex (.consGetc serial kbd))) := by
  rw [InputEvent.results, characters_append, List.length_append] at hroom
  have hserial := serialIntr_unread h ex serial (by omega)
  have hkbd := consIntr_unread kbd (serialIntr_inBounds h ex serial) (by
    rw [hserial, List.length_append, length_bytes]; omega)
  rw [InputEvent.results, characters_append, bytes_append, ← List.append_assoc, ← hserial]
  exact hkbd

/-- The state that an event's polling leaves, before a character is taken. -/
def InputRun.polled (ex : Bool) (r : InputRun) : InputEvent → Cons
  | .serialIntr serial => serialIntr ex serial r.cons
  | .kbdIntr kbd => kbdIntr kbd r.cons
  | .consGetc serial kbd => consPoll ex serial kbd r.cons

theorem InputRun.polled_inBounds {r : InputRun} (h : r.cons.InBounds) (ex : Bool) :
    ∀ e : InputEvent, (r.polled ex e).InBounds
  | .serialIntr serial => serialIntr_inBounds h ex serial
  | .kbdIntr kbd => consIntr_inBounds kbd h
  | .consGetc serial kbd => consPoll_inBounds h ex serial kbd

/-- Polling appends the event's characters to the unread ones. -/
theorem InputRun.Fifo.polled_unread {ex : Bool} {r : InputRun} (h : r.Fifo) {e : InputEvent}
    (hroom : r.HasRoom ex e) :
    (r.polled ex e).unread = r.cons.unread ++ bytes (characters (e.results ex)) := by
  have hlen : r.read.length + r.cons.unread.length = (characters r.results).length := by
    simpa using congrArg List.length h.exact
  have hfit : r.cons.unread.length + (characters (e.results ex)).length < CONSBUFSIZE := by
    unfold HasRoom at hroom
    rw [characters_append, List.length_append] at hroom
    simp only [CONSBUFSIZE]
    omega
  cases e with
  | serialIntr serial => exact serialIntr_unread h.inBounds ex serial hfit
  | kbdIntr kbd => exact consIntr_unread kbd h.inBounds hfit
  | consGetc serial kbd => exact consPoll_unread h.inBounds ex serial kbd hfit

/-- What has been read and what is unread after the polling make up what was stored. -/
theorem InputRun.Fifo.polled_exact {ex : Bool} {r : InputRun} (h : r.Fifo) {e : InputEvent}
    (hroom : r.HasRoom ex e) :
    bytes r.read ++ (r.polled ex e).unread =
      bytes (characters (r.results ++ e.results ex)) := by
  rw [h.polled_unread hroom, ← List.append_assoc, h.exact, characters_append, bytes_append]

theorem InputRun.Fifo.polled_nonzero {ex : Bool} {r : InputRun} (h : r.Fifo) {e : InputEvent}
    (hrange : e.InRange) (hroom : r.HasRoom ex e) : ∀ b ∈ (r.polled ex e).unread, b ≠ 0 := by
  intro b hb
  rw [h.polled_unread hroom, List.mem_append] at hb
  rcases hb with hb | hb
  · exact h.nonzero b hb
  · obtain ⟨c, hc, rfl⟩ := List.mem_map.1 hb
    have := InputEvent.characters_range hrange c hc
    exact byte_ne_zero this.1 this.2

/-- **One event keeps the queue invariant**, if what it stores fits. -/
theorem InputRun.Fifo.step {ex : Bool} {r : InputRun} (h : r.Fifo) {e : InputEvent}
    (hrange : e.InRange) (hroom : r.HasRoom ex e) : (r.step ex e).Fifo := by
  have hin := polled_inBounds h.inBounds ex e
  have hex := h.polled_exact hroom
  have hnz := h.polled_nonzero hrange hroom
  cases e with
  | serialIntr serial => exact ⟨hin, hex, hnz⟩
  | kbdIntr kbd => exact ⟨hin, hex, hnz⟩
  | consGetc serial kbd =>
    obtain ⟨htake, -⟩ := consTake_fifo hin hnz
    have hread : bytes (r.step ex (.consGetc serial kbd)).read = bytes r.read ++
        bytes ([(consTake (r.polled ex (.consGetc serial kbd))).1].filter fun c => c ≠ 0) := by
      rw [← bytes_append, read, InputRun.step, List.filter_append]
      rfl
    refine ⟨consTake_inBounds hin, ?_, fun b hb => hnz b ?_⟩
    · rw [hread, List.append_assoc]
      exact (congrArg _ htake).trans hex
    · rw [← htake]
      exact List.mem_append_right _ hb

theorem InputRun.Fifo.run {ex : Bool} : ∀ (events : List InputEvent) {r : InputRun}, r.Fifo →
    (∀ e ∈ events, e.InRange) → r.NeverOverrun ex events → (r.run ex events).Fifo
  | [], _, h, _, _ => h
  | e :: events, _, h, hrange, hroom =>
    Fifo.run events (h.step (hrange e List.mem_cons_self) hroom.1)
      (fun e he => hrange e (List.mem_cons_of_mem _ he)) hroom.2

theorem InputRun.step_inBounds {r : InputRun} (h : r.cons.InBounds) (ex : Bool) :
    ∀ e : InputEvent, (r.step ex e).cons.InBounds
  | .serialIntr serial => serialIntr_inBounds h ex serial
  | .kbdIntr kbd => consIntr_inBounds kbd h
  | .consGetc serial kbd => consTake_inBounds (consPoll_inBounds h ex serial kbd)

theorem InputRun.run_inBounds (ex : Bool) : ∀ (events : List InputEvent) {r : InputRun},
    r.cons.InBounds → (r.run ex events).cons.InBounds
  | [], _, h => h
  | e :: events, _, h => run_inBounds ex events (step_inBounds h ex e)

/-! ## The values -/

theorem consTake_range (s : Cons) : 0 ≤ (consTake s).1 ∧ (consTake s).1 < 256 := by
  unfold consTake
  split
  · have hbyte := (s.buf s.rpos).isLt
    simp only
    omega
  · simp only
    omega

/-- `cons_getc` returns bytes. -/
theorem InputRun.run_returned {ex : Bool} : ∀ (events : List InputEvent) {r : InputRun},
    (∀ c ∈ r.returned, 0 ≤ c ∧ c < 256) → ∀ c ∈ (r.run ex events).returned, 0 ≤ c ∧ c < 256
  | [], _, h => h
  | e :: events, r, h => by
    refine run_returned events fun c hc => ?_
    cases e with
    | serialIntr serial => exact h c hc
    | kbdIntr kbd => exact h c hc
    | consGetc serial kbd =>
      rcases List.mem_append.1 hc with hc | hc
      · exact h c hc
      · rw [List.mem_singleton.1 hc]
        exact consTake_range (consPoll ex serial kbd r.cons)

/-- What the callbacks deliver are bytes. -/
theorem InputRun.run_stored {ex : Bool} : ∀ (events : List InputEvent) {r : InputRun},
    (∀ e ∈ events, e.InRange) → (∀ c ∈ characters r.results, 0 ≤ c ∧ c < 256) →
    ∀ c ∈ characters (r.run ex events).results, 0 ≤ c ∧ c < 256
  | [], _, _, h => h
  | e :: events, r, hrange, h => by
    obtain ⟨he, hevents⟩ := List.forall_mem_cons.1 hrange
    refine run_stored events hevents fun c hc => ?_
    have hresults : (r.step ex e).results = r.results ++ e.results ex := by cases e <;> rfl
    rw [hresults, characters_append, List.mem_append] at hc
    rcases hc with hc | hc
    · exact h c hc
    · have hpos := InputEvent.characters_range he c hc
      omega

/-- The characters that bytes stand for. -/
def byteValues (bs : List Byte) : List Int := bs.map fun b => (b.toNat : Int)

theorem byteValues_append (bs cs : List Byte) :
    byteValues (bs ++ cs) = byteValues bs ++ byteValues cs :=
  List.map_append

theorem byteValues_bytes :
    ∀ {cs : List Int}, (∀ c ∈ cs, 0 ≤ c ∧ c < 256) → byteValues (bytes cs) = cs
  | [], _ => rfl
  | c :: cs, h => by
    obtain ⟨⟨hlow, hhigh⟩, hcs⟩ := List.forall_mem_cons.1 h
    have hc : ((BitVec.ofInt 8 c).toNat : Int) = c := by
      rw [BitVec.toNat_ofInt]
      omega
    show ((BitVec.ofInt 8 c).toNat : Int) :: byteValues (bytes cs) = c :: cs
    rw [hc, byteValues_bytes hcs]

/-- What was read and what is unread make up what was stored, value by value. -/
theorem InputRun.Fifo.values_exact {r : InputRun} (h : r.Fifo)
    (hreturned : ∀ c ∈ r.returned, 0 ≤ c ∧ c < 256)
    (hstored : ∀ c ∈ characters r.results, 0 ≤ c ∧ c < 256) :
    r.read ++ byteValues r.cons.unread = characters r.results := by
  have hread : byteValues (bytes r.read) = r.read :=
    byteValues_bytes fun c hc => hreturned c (List.mem_filter.1 hc).1
  have hexact := congrArg byteValues h.exact
  rwa [byteValues_append, hread, byteValues_bytes hstored] at hexact

/-- **The console input is an exact FIFO.**  The positions are always indices into the buffer.
    In a run that never has more than 511 characters waiting, what `cons_getc` returned
    followed by the unread content is what the callbacks delivered, as bytes and as values, and a
    further read returns 0 exactly when nothing is unread after its polling. -/
theorem console_input_fifo (serialExists : Bool) (events : List InputEvent)
    (hrange : ∀ e ∈ events, e.InRange) :
    (InputRun.init.run serialExists events).cons.rpos < CONSBUFSIZE ∧
    (InputRun.init.run serialExists events).cons.wpos < CONSBUFSIZE ∧
    (InputRun.init.NeverOverrun serialExists events →
      bytes (InputRun.init.run serialExists events).read ++
          (InputRun.init.run serialExists events).cons.unread =
        bytes (characters (InputRun.init.run serialExists events).results) ∧
      (InputRun.init.run serialExists events).read ++
          byteValues (InputRun.init.run serialExists events).cons.unread =
        characters (InputRun.init.run serialExists events).results ∧
      ∀ serial kbd, (InputEvent.consGetc serial kbd).InRange →
        (InputRun.init.run serialExists events).HasRoom serialExists (.consGetc serial kbd) →
        ((consGetc serialExists serial kbd (InputRun.init.run serialExists events).cons).1 = 0 ↔
          (consPoll serialExists serial kbd
            (InputRun.init.run serialExists events).cons).unread = [])) := by
  have hin := InputRun.run_inBounds serialExists events InputRun.init_fifo.inBounds
  refine ⟨hin.rpos, hin.wpos, fun hnever => ?_⟩
  have hfifo := InputRun.init_fifo.run events hrange hnever
  have hvalues := hfifo.values_exact (InputRun.run_returned events nofun)
    (InputRun.run_stored events hrange nofun)
  refine ⟨hfifo.exact, hvalues, fun serial kbd hr hroom => ?_⟩
  have hnz := hfifo.polled_nonzero hr hroom
  have hpoll := InputRun.polled_inBounds hfifo.inBounds serialExists (.consGetc serial kbd)
  exact (consTake_fifo hpoll hnz).2

theorem console_input_fifo_hi :
    (InputRun.init.run true [.kbdIntr [104, 0, 105], .consGetc [33, -1] []]).read ++
        byteValues
          (InputRun.init.run true [.kbdIntr [104, 0, 105], .consGetc [33, -1] []]).cons.unread =
      [104, 105, 33] :=
  ((console_input_fifo true [.kbdIntr [104, 0, 105], .consGetc [33, -1] []] (by decide)).2.2
    ⟨by decide, by decide, trivial⟩).2.1

end Jos
