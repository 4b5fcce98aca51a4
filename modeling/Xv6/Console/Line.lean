import Mathlib
import Xv6.Lib.Machine
import Xv6.Lib.Ring
import Xv6.Sched.Table

/-!
# The console's line discipline

`consoleintr` edits a line in the ring buffer `input` and commits it; `consoleread` takes
characters out of the part that has been committed.  Beside the buffer the model keeps
what a terminal is for: the characters committed so far, the line being edited, and who
has taken which character.
-/

namespace Xv6.Console

open Xv6.Lib
open Xv6.Sched (Slot)

def INPUT_BUF : Nat := 128

def C (x : Char) : UInt8 := x.toNat.toUInt8 - 64

def NL : UInt8 := 10

def CR : UInt8 := 13

def DEL : UInt8 := 0x7f

structure Input where
  buf : Nat → UInt8
  r : Nat
  w : Nat
  e : Nat

namespace Input

def back (i : Input) : Nat := (i.e + 2 ^ 32 - 1) % 2 ^ 32

def committed (i : Input) : Nat := (i.w + 2 ^ 32 - i.r) % 2 ^ 32

def used (i : Input) : Nat := (i.e + 2 ^ 32 - i.r) % 2 ^ 32

def edited (i : Input) : Nat := (i.e + 2 ^ 32 - i.w) % 2 ^ 32

end Input

/-! ## consoleintr -/

/-- The loop that kills a line.  Each turn takes one character back, so it makes no more
turns than there are characters between the write and the edit index. -/
def killLine : Nat → Input → Input
  | 0, i => i
  | n + 1, i =>
    if i.e ≠ i.w ∧ i.buf (i.back % INPUT_BUF) ≠ NL then killLine n { i with e := i.back } else i

def consoleintrChar (i : Input) (c : UInt8) : Input :=
  if c = C 'P' then i
  else if c = C 'U' then killLine i.edited i
  else if c = C 'H' ∨ c = DEL then if i.e ≠ i.w then { i with e := i.back } else i
  else if c ≠ 0 ∧ i.used < INPUT_BUF then
    let c := if c = CR then NL else c
    let i := { i with buf := Function.update i.buf (i.e % INPUT_BUF) c, e := (i.e + 1) % 2 ^ 32 }
    if c = NL ∨ c = C 'D' ∨ i.e = (i.r + INPUT_BUF) % 2 ^ 32 then { i with w := i.e } else i
  else i

/-- `consoleintr`, with what `getc` returns before it is negative. -/
def consoleintr (i : Input) (cs : List UInt8) : Input := cs.foldl consoleintrChar i

/-! ## consoleread -/

inductive Stop
  /-- It has all it was asked for. -/
  | count
  | newline
  /-- A control-D ended an empty read. -/
  | mark
  /-- A control-D ended a read that has characters, and is left for the next one. -/
  | kept
  | killed
  deriving DecidableEq

/-- Where the loop of `consoleread` gets to, with `n` as it then is. -/
inductive Pause
  | returns (stop : Stop) (n : Nat)
  | sleeps (n : Nat)
  deriving DecidableEq

/-- The loop of `consoleread` up to its end or the next `sleep`, with the characters that it
stores at `dst`. -/
def readLoop (killed : Bool) (target : Nat) : Nat → Input → Input × List UInt8 × Pause
  | 0, i => (i, [], .returns .count 0)
  | n + 1, i =>
    if i.r = i.w then (i, [], if killed then .returns .killed (n + 1) else .sleeps (n + 1))
    else
      let c := i.buf (i.r % INPUT_BUF)
      let i := { i with r := (i.r + 1) % 2 ^ 32 }
      if c = C 'D' then
        if n + 1 < target then
          ({ i with r := (i.r + 2 ^ 32 - 1) % 2 ^ 32 }, [], .returns .kept (n + 1))
        else (i, [], .returns .mark (n + 1))
      else if c = NL then (i, [c], .returns .newline n)
      else
        let (i, cs, pause) := readLoop killed target n i
        (i, c :: cs, pause)

/-! ## The terminal -/

structure Tty where
  log : List UInt8
  line : List UInt8

/-- What typing a character means, when `taken` characters have been read. -/
def Tty.type (taken : Nat) (t : Tty) (c : UInt8) : Tty :=
  if c = C 'P' then t
  else if c = C 'U' then { t with line := [] }
  else if c = C 'H' ∨ c = DEL then { t with line := t.line.dropLast }
  else if c ≠ 0 ∧ t.log.length - taken + t.line.length < INPUT_BUF then
    let c := if c = CR then NL else c
    let line := t.line ++ [c]
    if c = NL ∨ c = C 'D' ∨ t.log.length - taken + line.length = INPUT_BUF then ⟨t.log ++ line, []⟩
    else { t with line := line }
  else t

/-- What reading means: the loop on the characters that wait, with those it leaves. -/
def takeLoop (target : Nat) : Nat → List UInt8 → List UInt8 × List UInt8 × Pause
  | 0, cs => (cs, [], .returns .count 0)
  | n + 1, [] => ([], [], .sleeps (n + 1))
  | n + 1, c :: cs =>
    if c = C 'D' then
      if n + 1 < target then (c :: cs, [], .returns .kept (n + 1))
      else (cs, [], .returns .mark (n + 1))
    else if c = NL then (cs, [c], .returns .newline n)
    else
      let (rest, bytes, pause) := takeLoop target n cs
      (rest, c :: bytes, pause)

def Pause.mark : Pause → List UInt8
  | .returns .mark _ => [C 'D']
  | _ => []

def takenOf (x : List UInt8 × Pause) : List UInt8 := x.1 ++ x.2.mark

/-- The buffer holds what the terminal has, of which `taken` characters have been read. -/
structure Input.Holds (i : Input) (t : Tty) (taken : Nat) : Prop where
  carries : RingBuffer.Carries INPUT_BUF (2 ^ 32) ⟨i.buf, i.r, i.e⟩ (t.log.drop taken ++ t.line)
  taken_le : taken ≤ t.log.length
  w_eq : i.w = (i.r + (t.log.length - taken)) % 2 ^ 32
  /-- A line is committed when it ends. -/
  open_line : NL ∉ t.line

namespace Input.Holds

variable {i : Input} {t : Tty} {taken : Nat}

theorem buf_lt : INPUT_BUF < 2 ^ 32 := by decide

theorem buf_dvd : INPUT_BUF ∣ 2 ^ 32 := by decide

theorem length_le (h : i.Holds t taken) :
    t.log.length - taken + t.line.length ≤ INPUT_BUF := by
  have hlen := h.carries.length_le
  rwa [List.length_append, List.length_drop] at hlen

theorem e_eq (h : i.Holds t taken) :
    i.e = (i.r + (t.log.length - taken + t.line.length)) % 2 ^ 32 := by
  have hwrite := h.carries.nwrite_eq
  rwa [List.length_append, List.length_drop] at hwrite

theorem used_eq (h : i.Holds t taken) : i.used = t.log.length - taken + t.line.length := by
  have hsub := h.carries.sub_mod buf_lt
  rwa [List.length_append, List.length_drop] at hsub

theorem committed_eq (h : i.Holds t taken) : i.committed = t.log.length - taken := by
  have hle := h.length_le
  have hlt := buf_lt
  have hread : i.r = (i.r + 0) % 2 ^ 32 := (Nat.mod_eq_of_lt h.carries.nread_lt).symm
  have hsub := RingBuffer.add_mod_sub (M := 2 ^ 32) (a := i.r) (Nat.zero_le (t.log.length - taken))
    (by omega)
  rw [← hread, ← h.w_eq] at hsub
  exact hsub

theorem edited_eq (h : i.Holds t taken) : i.edited = t.line.length := by
  have hle := h.length_le
  have hlt := buf_lt
  have hsub := RingBuffer.add_mod_sub (M := 2 ^ 32) (a := i.r)
    (Nat.le_add_right (t.log.length - taken) t.line.length) (by omega)
  rw [← h.w_eq, ← h.e_eq] at hsub
  rw [edited, hsub]
  omega

theorem e_eq_w_iff (h : i.Holds t taken) : i.e = i.w ↔ t.line = [] := by
  have hle := h.length_le
  have hlt := buf_lt
  rw [h.e_eq, h.w_eq, RingBuffer.add_mod_eq_iff (by omega) (by omega)]
  rw [← List.length_eq_zero_iff]
  omega

theorem r_eq_w_iff (h : i.Holds t taken) : i.r = i.w ↔ t.log.length = taken := by
  have hle := h.length_le
  have hlt := buf_lt
  have hread : i.r = (i.r + 0) % 2 ^ 32 := (Nat.mod_eq_of_lt h.carries.nread_lt).symm
  have htaken := h.taken_le
  calc i.r = i.w ↔ (i.r + 0) % 2 ^ 32 = (i.r + (t.log.length - taken)) % 2 ^ 32 := by
        rw [← hread, ← h.w_eq]
    _ ↔ 0 = t.log.length - taken := RingBuffer.add_mod_eq_iff (by decide) (by omega)
    _ ↔ t.log.length = taken := by omega

/-! ### Editing -/

/-- The last character of the line is taken back. -/
theorem erase {line : List UInt8} {c : UInt8} (h : i.Holds ⟨t.log, line ++ [c]⟩ taken) :
    i.buf (i.back % INPUT_BUF) = c ∧ Input.Holds { i with e := i.back } ⟨t.log, line⟩ taken := by
  have hcarries := h.carries
  simp only [← List.append_assoc] at hcarries
  refine ⟨hcarries.back_eq buf_dvd, hcarries.unput, h.taken_le, h.w_eq, fun hmem => ?_⟩
  exact h.open_line (List.mem_append_left [c] hmem)

theorem killLine {n : Nat} {line : List UInt8} (h : i.Holds ⟨t.log, line⟩ taken)
    (hn : line.length ≤ n) : (Console.killLine n i).Holds ⟨t.log, []⟩ taken := by
  induction n generalizing i line with
  | zero =>
    obtain rfl : line = [] := List.length_eq_zero_iff.1 (by omega)
    exact h
  | succ n ih =>
    rw [Console.killLine]
    rcases List.eq_nil_or_concat line with rfl | ⟨init, c, rfl⟩
    · rw [if_neg fun hne => hne.1 (h.e_eq_w_iff.2 rfl)]
      exact h
    · rw [List.concat_eq_append] at h hn
      obtain ⟨hback, hrest⟩ := h.erase
      have hne : i.e ≠ i.w := fun heq => by
        have hnil := h.e_eq_w_iff.1 heq
        simp at hnil
      have hc : c ≠ NL := fun heq => h.open_line (by simp [heq])
      rw [if_pos ⟨hne, by rw [hback]; exact hc⟩]
      apply ih hrest
      rw [List.length_append, List.length_singleton] at hn
      omega

theorem backspace (h : i.Holds t taken) :
    Input.Holds (if i.e ≠ i.w then { i with e := i.back } else i)
      ⟨t.log, t.line.dropLast⟩ taken := by
  rcases List.eq_nil_or_concat t.line with hnil | ⟨init, c, hline⟩
  · rw [if_neg (not_not.2 (h.e_eq_w_iff.2 hnil)), hnil, List.dropLast_nil, ← hnil]
    exact h
  · have hne : i.e ≠ i.w := fun heq => by
      have hnil := h.e_eq_w_iff.1 heq
      simp [hline] at hnil
    rw [if_pos hne, hline, List.concat_eq_append, List.dropLast_concat]
    rw [List.concat_eq_append] at hline
    have hholds : i.Holds ⟨t.log, init ++ [c]⟩ taken := hline ▸ h
    exact hholds.erase.2

/-! ### Typing -/

theorem put (h : i.Holds t taken) (c : UInt8)
    (hroom : t.log.length - taken + t.line.length < INPUT_BUF) :
    RingBuffer.Carries INPUT_BUF (2 ^ 32)
      ⟨Function.update i.buf (i.e % INPUT_BUF) c, i.r, (i.e + 1) % 2 ^ 32⟩
      (t.log.drop taken ++ (t.line ++ [c])) := by
  have hput := h.carries.put (a := c) buf_dvd
    (by rw [List.length_append, List.length_drop]; exact hroom)
  rwa [List.append_assoc] at hput

theorem store (h : i.Holds t taken) (c : UInt8)
    (hroom : t.log.length - taken + t.line.length < INPUT_BUF) :
    Input.Holds
      (let i := { i with buf := Function.update i.buf (i.e % INPUT_BUF) c, e := (i.e + 1) % 2 ^ 32 }
       if c = NL ∨ c = C 'D' ∨ i.e = (i.r + INPUT_BUF) % 2 ^ 32 then { i with w := i.e } else i)
      (let line := t.line ++ [c]
       if c = NL ∨ c = C 'D' ∨ t.log.length - taken + line.length = INPUT_BUF
       then ⟨t.log ++ line, []⟩ else { t with line := line }) taken := by
  have hput := h.put c hroom
  have hfull := hput.eq_iff_full buf_lt
  have htaken := h.taken_le
  simp only [List.length_append, List.length_drop, List.length_singleton] at hfull
  have hlen : t.log.length - taken + (t.line ++ [c]).length =
      t.log.length - taken + (t.line.length + 1) := by
    rw [List.length_append, List.length_singleton]
  simp only [hfull, hlen]
  split_ifs with hend
  · -- what waits to be read is now the line as well
    refine ⟨?_, ?_, ?_, List.not_mem_nil⟩
    · rw [List.append_nil, List.drop_append_of_le_length htaken]
      exact hput
    · rw [List.length_append]
      omega
    · have hwrite := hput.nwrite_eq
      simp only [List.length_append, List.length_drop, List.length_singleton] at hwrite ⊢
      rw [hwrite]
      congr 1
      omega
  · refine ⟨hput, htaken, h.w_eq, ?_⟩
    rw [List.mem_append, List.mem_singleton]
    rintro (hmem | hc)
    · exact h.open_line hmem
    · exact hend (.inl hc.symm)

theorem type (h : i.Holds t taken) (c : UInt8) :
    (consoleintrChar i c).Holds (t.type taken c) taken := by
  unfold consoleintrChar Tty.type
  rw [h.used_eq]
  by_cases hP : c = C 'P'
  · rw [if_pos hP, if_pos hP]
    exact h
  rw [if_neg hP, if_neg hP]
  by_cases hU : c = C 'U'
  · rw [if_pos hU, if_pos hU]
    exact h.killLine (Nat.le_of_eq h.edited_eq.symm)
  rw [if_neg hU, if_neg hU]
  by_cases hH : c = C 'H' ∨ c = DEL
  · rw [if_pos hH, if_pos hH]
    exact h.backspace
  rw [if_neg hH, if_neg hH]
  by_cases hroom : c ≠ 0 ∧ t.log.length - taken + t.line.length < INPUT_BUF
  · rw [if_pos hroom, if_pos hroom]
    exact h.store _ hroom.2
  · rw [if_neg hroom, if_neg hroom]
    exact h

theorem consoleintr (h : i.Holds t taken) (cs : List UInt8) :
    (Console.consoleintr i cs).Holds (cs.foldl (Tty.type taken) t) taken := by
  induction cs generalizing i t with
  | nil => exact h
  | cons c cs ih => exact ih (h.type c)

/-! ### Reading -/

theorem next {c : UInt8} {cs : List UInt8} (h : i.Holds t taken)
    (hwait : t.log.drop taken = c :: cs) :
    i.buf (i.r % INPUT_BUF) = c ∧
      Input.Holds { i with r := (i.r + 1) % 2 ^ 32 } t (taken + 1) ∧
      t.log.drop (taken + 1) = cs := by
  have hcarries := h.carries
  rw [hwait, List.cons_append] at hcarries
  have hrest : t.log.drop (taken + 1) = cs := by
    rw [← List.drop_drop, hwait, List.drop_succ_cons, List.drop_zero]
  have hlen : t.log.length - taken = cs.length + 1 := by
    rw [← List.length_drop, hwait, List.length_cons]
  refine ⟨hcarries.front_eq, ⟨?_, by omega, ?_, h.open_line⟩, hrest⟩
  · rw [hrest]
    exact hcarries.take buf_dvd
  · have hw := h.w_eq
    simp only at hw ⊢
    rw [hw, Nat.mod_add_mod, hlen]
    congr 1
    omega

theorem restore {r : Nat} (hr : r < 2 ^ 32) : ((r + 1) % 2 ^ 32 + 2 ^ 32 - 1) % 2 ^ 32 = r := by
  omega

theorem readLoop {target n : Nat} (h : i.Holds t taken) :
    (Console.readLoop false target n i).2 = (takeLoop target n (t.log.drop taken)).2 ∧
      (Console.readLoop false target n i).1.Holds t
        (taken + (takenOf (takeLoop target n (t.log.drop taken)).2).length) := by
  induction n generalizing i taken with
  | zero => exact ⟨rfl, h⟩
  | succ n ih =>
    rw [Console.readLoop]
    cases hwait : t.log.drop taken with
    | nil =>
      have hlen : t.log.length = taken :=
        Nat.le_antisymm (List.drop_eq_nil_iff.1 hwait) h.taken_le
      rw [if_pos (h.r_eq_w_iff.2 hlen)]
      exact ⟨rfl, h⟩
    | cons c cs =>
      obtain ⟨hc, hnext, hrest⟩ := h.next hwait
      have hne : i.r ≠ i.w := fun heq => by
        rw [← h.r_eq_w_iff.1 heq, List.drop_length] at hwait
        simp at hwait
      rw [if_neg hne, takeLoop]
      simp only [hc]
      by_cases hD : c = C 'D'
      · rw [if_pos hD, if_pos hD]
        by_cases hlt : n + 1 < target
        · rw [if_pos hlt, if_pos hlt, restore h.carries.nread_lt]
          exact ⟨rfl, h⟩
        · rw [if_neg hlt, if_neg hlt]
          exact ⟨rfl, hnext⟩
      · rw [if_neg hD, if_neg hD]
        by_cases hNL : c = NL
        · rw [if_pos hNL, if_pos hNL]
          exact ⟨rfl, hnext⟩
        · rw [if_neg hNL, if_neg hNL]
          obtain ⟨hout, hholds⟩ := ih hnext
          rw [hrest] at hout hholds
          refine ⟨by simp only [hout], ?_⟩
          have hcount : taken + (takenOf (c :: (takeLoop target n cs).2.1,
              (takeLoop target n cs).2.2)).length =
              taken + 1 + (takenOf (takeLoop target n cs).2).length := by
            simp only [takenOf, List.cons_append, List.length_cons]
            omega
          rw [hcount]
          exact hholds

end Input.Holds

/-! ## What a read takes -/

def Pause.left : Pause → Nat
  | .returns _ n => n
  | .sleeps n => n

structure Reads (target n : Nat) (cs rest bytes : List UInt8) (pause : Pause) : Prop where
  split : cs = takenOf (bytes, pause) ++ rest
  plain : C 'D' ∉ bytes
  count : bytes.length + pause.left = n
  mark : ∀ k, pause = .returns .mark k → target ≤ k
  kept : ∀ k, pause = .returns .kept k → k < target ∧ rest.head? = some (C 'D')
  lives : ∀ k, pause ≠ .returns .killed k

theorem reads_takeLoop (target n : Nat) (cs : List UInt8) :
    Reads target n cs (takeLoop target n cs).1 (takeLoop target n cs).2.1
      (takeLoop target n cs).2.2 := by
  induction n generalizing cs with
  | zero =>
    rw [takeLoop]
    exact ⟨rfl, List.not_mem_nil, rfl, by simp, by simp, by simp⟩
  | succ n ih =>
    cases cs with
    | nil =>
      rw [takeLoop]
      exact ⟨rfl, List.not_mem_nil, by simp [Pause.left], by simp, by simp, by simp⟩
    | cons c cs =>
      rw [takeLoop]
      by_cases hD : c = C 'D'
      · rw [if_pos hD]
        by_cases hlt : n + 1 < target
        · rw [if_pos hlt]
          refine ⟨rfl, List.not_mem_nil, by simp [Pause.left], by simp, fun k hk => ?_, by simp⟩
          obtain rfl : n + 1 = k := by simpa using hk
          exact ⟨hlt, by rw [hD]; rfl⟩
        · rw [if_neg hlt]
          refine ⟨by rw [hD]; rfl, List.not_mem_nil, by simp [Pause.left], fun k hk => ?_,
            by simp, by simp⟩
          obtain rfl : n + 1 = k := by simpa using hk
          exact Nat.not_lt.1 hlt
      · rw [if_neg hD]
        by_cases hNL : c = NL
        · rw [if_pos hNL]
          refine ⟨rfl, ?_, by simp [Pause.left]; omega, by simp, by simp, by simp⟩
          rw [List.mem_singleton]
          exact fun heq => hD heq.symm
        · rw [if_neg hNL]
          have h := ih cs
          refine ⟨?_, ?_, ?_, h.mark, h.kept, h.lives⟩
          · have hsplit := h.split
            simp only [takenOf] at hsplit ⊢
            rw [List.cons_append, List.cons_append, ← hsplit]
          · rw [List.mem_cons, not_or]
            exact ⟨fun heq => hD heq.symm, h.plain⟩
          · have hcount := h.count
            change (takeLoop target n cs).2.1.length + 1 + (takeLoop target n cs).2.2.left = n + 1
            omega

/-! ## Runs -/

/-- A character that has left the buffer: stored for the caller of a read, or a control-D
that ended one. -/
inductive Item
  | byte (p : Slot) (b : UInt8)
  | mark (p : Slot)
  deriving DecidableEq

def Item.char : Item → UInt8
  | .byte _ b => b
  | .mark _ => C 'D'

def Item.byteOf (p : Slot) : Item → Option UInt8
  | .byte q b => if q = p then some b else none
  | .mark _ => none

def items (p : Slot) (x : List UInt8 × Pause) : List Item :=
  x.1.map (.byte p) ++ x.2.mark.map fun _ => .mark p

/-- A read that has returned: what it stored, why it stopped, its result, and how many
characters had left the buffer then. -/
structure Done where
  proc : Slot
  bytes : List UInt8
  stop : Stop
  ret : Int
  pos : Nat
  deriving DecidableEq

/-- A process asleep in `consoleread`, with what it has stored so far. -/
structure Reading where
  target : Nat
  n : Nat
  got : List UInt8

structure State where
  input : Input
  killed : Slot → Bool
  reading : Slot → Option Reading
  tty : Tty
  taken : List Item
  done : List Done

inductive Event
  /-- An interrupt of the keyboard or the serial line. -/
  | intr (cs : List UInt8)
  /-- A call of `consoleread`. -/
  | read (p : Slot) (n : Int)
  /-- The process goes on after `sleep`. -/
  | resume (p : Slot)
  | kill (p : Slot)

def result (target : Nat) : Stop → Nat → Int
  | .killed, _ => -1
  | _, n => (target : Int) - n

/-- The loop of `consoleread` has left `input`, with what it has stored and where it is. -/
def State.after (s : State) (p : Slot) (rd : Reading) (input : Input) (x : List UInt8 × Pause) :
    State :=
  let taken := s.taken ++ items p x
  let got := rd.got ++ x.1
  let s := { s with input := input, taken := taken }
  match x.2 with
  | .sleeps n =>
    { s with reading := Function.update s.reading p (some { rd with n := n, got := got }) }
  | .returns stop n =>
    { s with
      reading := Function.update s.reading p none
      done := s.done ++ [⟨p, got, stop, result rd.target stop n, taken.length⟩] }

/-- Process `p` runs in `consoleread` until it returns or sleeps. -/
def State.run (s : State) (p : Slot) (rd : Reading) : State :=
  let out := readLoop (s.killed p) rd.target rd.n s.input
  s.after p rd out.1 out.2

def next (s : State) : Event → Option State
  | .intr cs => some
      { s with input := consoleintr s.input cs, tty := cs.foldl (Tty.type s.taken.length) s.tty }
  | .read p n => if s.reading p = none then some (s.run p ⟨n.toNat, n.toNat, []⟩) else none
  | .resume p => (s.reading p).map (s.run p)
  | .kill p => some { s with killed := Function.update s.killed p true }

/-- The console after `consoleinit`; the buffer is zero. -/
def init : State :=
  { input := ⟨fun _ => 0, 0, 0, 0⟩, killed := fun _ => false, reading := fun _ => none,
    tty := ⟨[], []⟩, taken := [], done := [] }

def machine : Machine State Event := Machine.ofFun init next

def Spares (_ : State) : Event → Prop
  | .kill _ => False
  | _ => True

instance (s : State) : (e : Event) → Decidable (Spares s e)
  | .kill _ => inferInstanceAs (Decidable False)
  | .intr _ | .read _ _ | .resume _ => inferInstanceAs (Decidable True)

def State.stored (s : State) (p : Slot) : List UInt8 :=
  (s.done.filter fun d => d.proc = p).flatMap Done.bytes ++
    ((s.reading p).map Reading.got).getD []

structure Inv (s : State) : Prop where
  holds : s.input.Holds s.tty s.taken.length
  alive : ∀ p, s.killed p = false
  chars : s.taken.map Item.char = s.tty.log.take s.taken.length
  stored : ∀ p, s.taken.filterMap (Item.byteOf p) = s.stored p
  plain : ∀ p b, .byte p b ∈ s.taken → b ≠ C 'D'
  reading : ∀ p rd, s.reading p = some rd → rd.got.length + rd.n = rd.target
  ret : ∀ d ∈ s.done, d.ret = d.bytes.length
  marks : ∀ j p, s.taken[j]? = some (.mark p) →
    ∃ d ∈ s.done, d.proc = p ∧ d.bytes = [] ∧ d.stop = .mark ∧ d.pos = j + 1
  kept : ∀ d ∈ s.done, d.stop = .kept → d.bytes ≠ [] ∧ s.tty.log[d.pos]? = some (C 'D')

theorem Tty.log_type (taken : Nat) (t : Tty) (c : UInt8) : t.log <+: (t.type taken c).log := by
  unfold Tty.type
  simp only
  split_ifs
  all_goals first | exact List.prefix_rfl | exact List.prefix_append _ _

theorem Tty.log_foldl (taken : Nat) (t : Tty) (cs : List UInt8) :
    t.log <+: (cs.foldl (Tty.type taken) t).log := by
  induction cs generalizing t with
  | nil => exact List.prefix_rfl
  | cons c cs ih => exact (Tty.log_type taken t c).trans (ih _)

theorem inv_init : Inv init := by
  have hring : init.input.Holds init.tty init.taken.length :=
    ⟨RingBuffer.carries_nil (by decide) _, Nat.le_refl 0, rfl, List.not_mem_nil⟩
  exact ⟨hring, fun _ => rfl, rfl, fun _ => rfl, by simp [init], by simp [init], by simp [init],
    by simp [init], by simp [init]⟩

theorem Inv.intr {s : State} (h : Inv s) (cs : List UInt8) :
    Inv { s with
      input := consoleintr s.input cs
      tty := cs.foldl (Tty.type s.taken.length) s.tty } := by
  have hlog := Tty.log_foldl s.taken.length s.tty cs
  obtain ⟨more, hmore⟩ := hlog
  refine ⟨h.holds.consoleintr cs, h.alive, ?_, h.stored, h.plain, h.reading, h.ret, h.marks, ?_⟩
  · rw [h.chars, ← hmore, List.take_append_of_le_length h.holds.taken_le]
  · intro d hd hstop
    obtain ⟨hne, hlook⟩ := h.kept d hd hstop
    refine ⟨hne, ?_⟩
    have hlt := (List.getElem?_eq_some_iff.1 hlook).1
    rw [← hmore, List.getElem?_append_left hlt]
    exact hlook

theorem map_char_items (p : Slot) (x : List UInt8 × Pause) :
    (items p x).map Item.char = takenOf x := by
  have hmark : ∀ y : Pause, (y.mark.map fun _ => Item.mark p).map Item.char = y.mark := by
    intro y
    rw [Pause.mark.eq_def]
    split <;> rfl
  rw [items, takenOf, List.map_append, hmark, List.map_map]
  congr 1
  exact List.map_id _

theorem filterMap_items (p q : Slot) (x : List UInt8 × Pause) :
    (items p x).filterMap (Item.byteOf q) = if p = q then x.1 else [] := by
  have hmark : (x.2.mark.map fun _ => Item.mark p).filterMap (Item.byteOf q) = [] := by
    rw [List.filterMap_map]
    exact List.filterMap_eq_nil_iff.2 fun _ _ => rfl
  rw [items, List.filterMap_append, hmark, List.append_nil, List.filterMap_map]
  by_cases hpq : p = q
  · rw [if_pos hpq]
    have hsome : (Item.byteOf q ∘ Item.byte p) = fun b => some b := by
      funext b
      simp [Item.byteOf, hpq]
    rw [hsome]
    exact List.filterMap_some
  · rw [if_neg hpq]
    apply List.filterMap_eq_nil_iff.2
    intro b _
    simp [Item.byteOf, hpq]

theorem mem_items_byte {p q : Slot} {b : UInt8} {x : List UInt8 × Pause}
    (h : .byte q b ∈ items p x) : b ∈ x.1 := by
  rw [items, List.mem_append, List.mem_map, List.mem_map] at h
  rcases h with ⟨c, hc, heq⟩ | ⟨_, _, heq⟩
  · injection heq with _ heq
    exact heq ▸ hc
  · simp at heq

theorem getElem_items_mark {p q : Slot} {x : List UInt8 × Pause} {j : Nat}
    (h : (items p x)[j]? = some (.mark q)) :
    q = p ∧ j = x.1.length ∧ ∃ k, x.2 = .returns .mark k := by
  rw [items] at h
  by_cases hj : j < x.1.length
  · rw [List.getElem?_append_left (by simpa using hj), List.getElem?_map] at h
    obtain ⟨b, _, hb⟩ := Option.map_eq_some_iff.1 h
    simp at hb
  · rw [List.getElem?_append_right (by simpa using hj), List.getElem?_map, List.length_map] at h
    obtain ⟨b, hb, hq⟩ := Option.map_eq_some_iff.1 h
    have hlt := (List.getElem?_eq_some_iff.1 hb).1
    cases hx : x.2 with
    | sleeps n =>
      rw [hx] at hlt
      simp [Pause.mark] at hlt
    | returns stop n =>
      cases stop with
      | mark =>
        rw [hx, Pause.mark, List.length_singleton] at hlt
        refine ⟨?_, by omega, n, rfl⟩
        have hpq : Item.mark p = Item.mark q := hq
        injection hpq with hpq
        exact hpq.symm
      | count | newline | kept | killed =>
        rw [hx] at hlt
        simp [Pause.mark] at hlt

theorem Reads.take_log {target n L : Nat} {log rest bytes : List UInt8} {pause : Pause}
    (h : Reads target n (log.drop L) rest bytes pause) :
    log.take (L + (takenOf (bytes, pause)).length) = log.take L ++ takenOf (bytes, pause) := by
  rw [List.take_add, h.split, List.take_left]

theorem Reads.mark_empty {target n k : Nat} {cs rest bytes got : List UInt8}
    (h : Reads target n cs rest bytes (.returns .mark k)) (hgot : got.length + n = target) :
    got = [] ∧ bytes = [] := by
  have hle := h.mark k rfl
  have hcount := h.count
  simp only [Pause.left] at hcount
  rw [← List.length_eq_zero_iff, ← List.length_eq_zero_iff]
  omega

theorem Reads.kept_nonempty {target n k : Nat} {cs rest bytes got : List UInt8}
    (h : Reads target n cs rest bytes (.returns .kept k)) (hgot : got.length + n = target) :
    got ++ bytes ≠ [] := by
  have hlt := (h.kept k rfl).1
  have hcount := h.count
  simp only [Pause.left] at hcount
  intro hnil
  have hlen := congrArg List.length hnil
  rw [List.length_append, List.length_nil] at hlen
  omega

theorem Reads.result_eq {target n k : Nat} {cs rest bytes got : List UInt8} {stop : Stop}
    (h : Reads target n cs rest bytes (.returns stop k)) (hgot : got.length + n = target) :
    result target stop k = (got ++ bytes).length := by
  have hcount := h.count
  simp only [Pause.left] at hcount
  cases stop with
  | killed => exact absurd rfl (h.lives k)
  | count | newline | mark | kept =>
    rw [List.length_append]
    simp only [result]
    omega

section

variable {s : State} {p : Slot} {rd : Reading} {input : Input} {x : List UInt8 × Pause}

theorem State.after_eq (s : State) (p : Slot) (rd : Reading) (input : Input)
    (x : List UInt8 × Pause) : (s.after p rd input x).input = input ∧
    (s.after p rd input x).tty = s.tty ∧ (s.after p rd input x).killed = s.killed ∧
    (s.after p rd input x).taken = s.taken ++ items p x := by
  obtain ⟨bytes, pause⟩ := x
  cases pause with
  | sleeps n => exact ⟨rfl, rfl, rfl, rfl⟩
  | returns stop n => exact ⟨rfl, rfl, rfl, rfl⟩

theorem stored_after (hstored : ∀ q, s.taken.filterMap (Item.byteOf q) = s.stored q)
    (hcur : ((s.reading p).map Reading.got).getD [] = rd.got) (q : Slot) :
    (s.taken ++ items p x).filterMap (Item.byteOf q) = (s.after p rd input x).stored q := by
  obtain ⟨bytes, pause⟩ := x
  rw [List.filterMap_append, filterMap_items, hstored q]
  by_cases hpq : p = q
  · subst hpq
    rw [if_pos rfl, State.stored, hcur]
    cases pause with
    | sleeps n => simp [State.after, State.stored]
    | returns stop n => simp [State.after, State.stored]
  · have hqp : q ≠ p := fun heq => hpq heq.symm
    rw [if_neg hpq, List.append_nil]
    cases pause with
    | sleeps n => simp [State.after, State.stored, hqp]
    | returns stop n => simp [State.after, State.stored, hqp, hpq]

theorem reading_after {cs rest : List UInt8} (hreads : Reads rd.target rd.n cs rest x.1 x.2)
    (hgot : rd.got.length + rd.n = rd.target)
    (hold : ∀ q rd', s.reading q = some rd' → rd'.got.length + rd'.n = rd'.target) :
    ∀ q rd', (s.after p rd input x).reading q = some rd' → rd'.got.length + rd'.n = rd'.target := by
  obtain ⟨bytes, pause⟩ := x
  intro q rd' hq
  cases pause with
  | sleeps n =>
    have hcount := hreads.count
    simp only [Pause.left] at hcount
    by_cases hqp : q = p
    · subst hqp
      simp only [State.after, Function.update_self, Option.some.injEq] at hq
      subst hq
      simp only [List.length_append]
      omega
    · simp only [State.after, Function.update_of_ne hqp] at hq
      exact hold q rd' hq
  | returns stop n =>
    by_cases hqp : q = p
    · subst hqp
      simp [State.after] at hq
    · simp only [State.after, Function.update_of_ne hqp] at hq
      exact hold q rd' hq

theorem mem_done_after {d : Done} : d ∈ (s.after p rd input x).done ↔ d ∈ s.done ∨
    ∃ stop n, x.2 = .returns stop n ∧ d = ⟨p, rd.got ++ x.1, stop, result rd.target stop n,
      (s.taken ++ items p x).length⟩ := by
  obtain ⟨bytes, pause⟩ := x
  cases pause with
  | sleeps n => simp [State.after]
  | returns stop n => simp [State.after]

end

theorem Inv.run {s : State} {p : Slot} {rd : Reading} (h : Inv s)
    (hgot : rd.got.length + rd.n = rd.target)
    (hcur : ((s.reading p).map Reading.got).getD [] = rd.got) : Inv (s.run p rd) := by
  obtain ⟨hout, hholds⟩ : (readLoop false rd.target rd.n s.input).2 =
      (takeLoop rd.target rd.n (s.tty.log.drop s.taken.length)).2 ∧ _ := h.holds.readLoop
  have hreads := reads_takeLoop rd.target rd.n (s.tty.log.drop s.taken.length)
  have hrun : s.run p rd = s.after p rd (readLoop false rd.target rd.n s.input).1
      (takeLoop rd.target rd.n (s.tty.log.drop s.taken.length)).2 := by
    simp only [State.run, h.alive, hout]
  rw [hrun]
  generalize (readLoop false rd.target rd.n s.input).1 = input at hholds ⊢
  generalize takeLoop rd.target rd.n (s.tty.log.drop s.taken.length) = out at hreads hholds ⊢
  obtain ⟨rest, x⟩ := out
  simp only at hreads hholds ⊢
  obtain ⟨hinput, htty, hkilled, htaken⟩ := State.after_eq s p rd input x
  have hlen : (items p x).length = (takenOf x).length := by
    rw [← map_char_items p x, List.length_map]
  have hpos : (s.taken ++ items p x).length = s.taken.length + (takenOf x).length := by
    rw [List.length_append, hlen]
  constructor
  · rw [hinput, htty, htaken, hpos]
    exact hholds
  · rw [hkilled]
    exact h.alive
  · rw [htaken, htty, hpos, List.map_append, map_char_items, h.chars]
    exact hreads.take_log.symm
  · rw [htaken]
    exact stored_after h.stored hcur
  · intro q b hmem
    rw [htaken, List.mem_append] at hmem
    rcases hmem with hmem | hmem
    · exact h.plain q b hmem
    · rintro rfl
      exact hreads.plain (mem_items_byte hmem)
  · exact reading_after hreads hgot h.reading
  · intro d hd
    rcases mem_done_after.1 hd with hold | ⟨stop, n, hx, rfl⟩
    · exact h.ret d hold
    · rw [hx] at hreads
      exact hreads.result_eq hgot
  · intro j q hj
    rw [htaken] at hj
    by_cases hlt : j < s.taken.length
    · rw [List.getElem?_append_left hlt] at hj
      obtain ⟨d, hd, hdone⟩ := h.marks j q hj
      exact ⟨d, mem_done_after.2 (.inl hd), hdone⟩
    · rw [List.getElem?_append_right (Nat.not_lt.1 hlt)] at hj
      obtain ⟨rfl, hjx, k, hx⟩ := getElem_items_mark hj
      rw [hx] at hreads
      obtain ⟨hnil, hbytes⟩ := hreads.mark_empty hgot
      refine ⟨_, mem_done_after.2 (.inr ⟨.mark, k, hx, rfl⟩), rfl, ?_, rfl, ?_⟩
      · rw [hnil, hbytes, List.append_nil]
      · have hone : (takenOf x).length = 1 := by
          rw [takenOf, hbytes, hx]
          rfl
        rw [hbytes, List.length_nil] at hjx
        simp only [hpos, hone]
        omega
  · intro d hd hstop
    rw [htty]
    rcases mem_done_after.1 hd with hold | ⟨stop, n, hx, rfl⟩
    · exact h.kept d hold hstop
    · simp only at hstop
      subst hstop
      have hwait : s.tty.log[s.taken.length + (takenOf x).length]? = rest.head? := by
        rw [← List.getElem?_drop, hreads.split, List.getElem?_append_right (Nat.le_refl _),
          Nat.sub_self, List.head?_eq_getElem?]
      rw [hx] at hreads
      refine ⟨hreads.kept_nonempty hgot, ?_⟩
      simp only [hpos, hwait]
      exact (hreads.kept n rfl).2

theorem Inv.next {s t : State} {e : Event} (h : Inv s) (hok : Spares s e)
    (hnext : Console.next s e = some t) : Inv t := by
  cases e with
  | intr cs =>
    obtain rfl := Option.some.inj hnext
    exact h.intr cs
  | read p n =>
    rw [Console.next] at hnext
    split_ifs at hnext with hnone
    obtain rfl := Option.some.inj hnext
    apply h.run
    · simp
    · rw [hnone]
      rfl
  | resume p =>
    obtain ⟨rd, hrd, rfl⟩ := Option.map_eq_some_iff.1 hnext
    apply h.run (h.reading p rd hrd)
    rw [hrd]
    rfl
  | kill p => exact hok.elim

theorem inv_of_reach {s : State} (h : machine.Reach Spares s) : Inv s := by
  apply Machine.Reach.invariant (I := Inv) _ _ h
  · rintro t rfl
    exact inv_init
  · intro t e u ht hok hstep
    exact ht.next hok hstep

structure Sound (s : State) : Prop where
  /-- The indices are in order, and the buffer is large enough. -/
  order : s.input.committed ≤ s.input.used ∧ s.input.used ≤ INPUT_BUF
  /-- Editing moves the edit index back, to the write index at most. -/
  edits : ∀ c, c = C 'U' ∨ c = C 'H' ∨ c = DEL →
    (consoleintrChar s.input c).buf = s.input.buf ∧ (consoleintrChar s.input c).r = s.input.r ∧
      (consoleintrChar s.input c).w = s.input.w ∧
      (consoleintrChar s.input c).edited ≤ s.input.edited
  /-- What has been taken out is what was committed first. -/
  taken : s.taken.map Item.char <+: s.tty.log
  /-- Every character but a control-D is stored for its reader. -/
  stored : ∀ p, s.taken.filterMap (Item.byteOf p) = s.stored p
  ret : ∀ d ∈ s.done, d.ret = d.bytes.length
  /-- A control-D that is taken out is an empty read. -/
  marks : ∀ j x, s.taken[j]? = some x → x.char = C 'D' →
    ∃ d ∈ s.done, x = .mark d.proc ∧ d.bytes = [] ∧ d.ret = 0 ∧ d.pos = j + 1
  /-- A control-D that ended another read is the next character that is taken out. -/
  kept : ∀ d ∈ s.done, d.stop = .kept → d.bytes ≠ [] ∧ s.tty.log[d.pos]? = some (C 'D') ∧
    ∀ x, s.taken[d.pos]? = some x → x.char = C 'D'

theorem killLine_keeps (n : Nat) (i : Input) : (killLine n i).buf = i.buf ∧
    (killLine n i).r = i.r ∧ (killLine n i).w = i.w := by
  induction n generalizing i with
  | zero => exact ⟨rfl, rfl, rfl⟩
  | succ n ih =>
    rw [killLine]
    split_ifs
    · exact ih _
    · exact ⟨rfl, rfl, rfl⟩

/-- The keys that edit. -/
theorem consoleintrChar_edits {i : Input} {c : UInt8} (hc : c = C 'U' ∨ c = C 'H' ∨ c = DEL) :
    (consoleintrChar i c).buf = i.buf ∧ (consoleintrChar i c).r = i.r ∧
      (consoleintrChar i c).w = i.w := by
  have hP : c ≠ C 'P' := by
    rcases hc with rfl | rfl | rfl <;> decide
  unfold consoleintrChar
  rw [if_neg hP]
  by_cases hU : c = C 'U'
  · rw [if_pos hU]
    exact killLine_keeps _ i
  · rw [if_neg hU, if_pos (hc.resolve_left hU)]
    split_ifs
    · exact ⟨rfl, rfl, rfl⟩
    · exact ⟨rfl, rfl, rfl⟩

theorem Tty.line_type_edits {t : Tty} {taken : Nat} {c : UInt8}
    (hc : c = C 'U' ∨ c = C 'H' ∨ c = DEL) : (t.type taken c).line.length ≤ t.line.length := by
  have hP : c ≠ C 'P' := by
    rcases hc with rfl | rfl | rfl <;> decide
  unfold Tty.type
  rw [if_neg hP]
  by_cases hU : c = C 'U'
  · rw [if_pos hU]
    exact Nat.zero_le _
  · rw [if_neg hU, if_pos (hc.resolve_left hU)]
    simp only [List.length_dropLast]
    omega

/-- In every run in which no reader is killed the console is sound. -/
theorem console_line_discipline {s : State} (h : machine.Reach Spares s) : Sound s := by
  have hinv := inv_of_reach h
  have hholds := hinv.holds
  have hchar : ∀ (j : Nat) (x : Item), s.taken[j]? = some x → s.tty.log[j]? = some x.char := by
    intro j x hx
    have hmap : (s.taken.map Item.char)[j]? = some x.char := by
      rw [List.getElem?_map, hx]
      rfl
    rw [hinv.chars, List.getElem?_take] at hmap
    split_ifs at hmap
    exact hmap
  constructor
  · rw [hholds.committed_eq, hholds.used_eq]
    exact ⟨Nat.le_add_right _ _, hholds.length_le⟩
  · intro c hc
    obtain ⟨hbuf, hr, hw⟩ := consoleintrChar_edits (i := s.input) hc
    refine ⟨hbuf, hr, hw, ?_⟩
    rw [(hholds.type c).edited_eq, hholds.edited_eq]
    exact Tty.line_type_edits hc
  · rw [hinv.chars]
    exact List.take_prefix _ _
  · exact hinv.stored
  · exact hinv.ret
  · intro j x hx hD
    cases x with
    | byte p b => exact absurd hD (hinv.plain p b (List.mem_of_getElem? hx))
    | mark p =>
      obtain ⟨d, hd, hproc, hnil, _, hpos⟩ := hinv.marks j p hx
      refine ⟨d, hd, by rw [hproc], hnil, ?_, hpos⟩
      rw [hinv.ret d hd, hnil]
      rfl
  · intro d hd hstop
    obtain ⟨hne, hlog⟩ := hinv.kept d hd hstop
    refine ⟨hne, hlog, fun x hx => ?_⟩
    have hx' := hchar _ x hx
    rw [hlog] at hx'
    exact (Option.some.inj hx').symm

/-- Two readers share a line that ends with control-D. -/
theorem console_line_discipline_shared : ∃ s, machine.Reach Spares s ∧
    s.taken.map Item.char = [97, 99, 4] ∧ s.tty = ⟨[97, 99, 4], [100]⟩ ∧ Sound s := by
  have hrun : (Machine.runList (fun s e => if Spares s e then next s e else none) init
      [.read ⟨1, by decide⟩ 10, .intr [97, 98, 8, 99, 4, 100], .resume ⟨1, by decide⟩,
        .read ⟨2, by decide⟩ 5]).map (fun s => (s.taken.map Item.char, s.tty.log, s.tty.line)) =
      some ([97, 99, 4], [97, 99, 4], [100]) := by
    decide +kernel
  obtain ⟨s, hs, hend⟩ := Option.map_eq_some_iff.1 hrun
  simp only [Prod.mk.injEq] at hend
  have hreach : machine.Reach Spares s := Machine.reach_of_runList _ (.init rfl) hs
  refine ⟨s, hreach, hend.1, ?_, console_line_discipline hreach⟩
  rw [← hend.2.1, ← hend.2.2]

end Xv6.Console
