import Mathlib.Data.BitVec
import Xv6.Lib.Transition

/-!
# The console's input

`consoleintr`, `consoleread` and `setconsbuf` of `console.c` on the buffer `input`.  The
keyboard interrupt handler takes one character at a time, and any number of calls of
`consoleread` are under way; `cons.lock` orders them, but `setconsbuf` does not take it.
What the handler does to the screen is left out.

Beside the program's variables the state keeps what a user of the console would remember:
the keys obeyed since the last commit, every character committed, and which call took it.
-/

namespace Xv6.Console

open Lib

abbrev Byte := BitVec 8

abbrev INPUT_BUF : Nat := 128

/-- `C('C')`, `C('D')`, `C('H')`, `C('P')` and `C('U')` -/
abbrev ctrlC : Byte := 0x03
abbrev ctrlD : Byte := 0x04
abbrev ctrlH : Byte := 0x08
abbrev ctrlP : Byte := 0x10
abbrev ctrlU : Byte := 0x15
abbrev DELETE : Byte := 0x7f
/-- `'\n'` and `'\r'` -/
abbrev LF : Byte := 10
abbrev CR : Byte := 13

structure Input where
  buf : Nat → Byte
  r : BitVec 32
  w : BitVec 32
  e : BitVec 32

namespace Input

/-- `input.buf[input.e++ % INPUT_BUF] = c` -/
def store (inp : Input) (c : Byte) : Input :=
  { inp with buf := Function.update inp.buf (inp.e.toNat % INPUT_BUF) c, e := inp.e + 1 }

/-- `input.buf[(input.e - 1) % INPUT_BUF]` -/
def latest (inp : Input) : Byte := inp.buf ((inp.e - 1).toNat % INPUT_BUF)

/-- `input.buf[input.r % INPUT_BUF]` -/
def front (inp : Input) : Byte := inp.buf (inp.r.toNat % INPUT_BUF)

def killLoop : Nat → Input → Input
  | 0, inp => inp
  | n + 1, inp =>
    if inp.e ≠ inp.w ∧ inp.latest ≠ LF then killLoop n { inp with e := inp.e - 1 } else inp

/-- The cases `C('U')` and `C('C')`. -/
def killLine (buffering : Int) (inp : Input) : Input :=
  if buffering ≠ 0 then killLoop (inp.e - inp.w).toNat inp else inp

/-- The cases `C('H')` and `'\x7f'`. -/
def erase (buffering : Int) (inp : Input) : Input :=
  if buffering ≠ 0 ∧ inp.e ≠ inp.w then { inp with e := inp.e - 1 } else inp

/-- `c != 0 && input.e - input.r < INPUT_BUF` -/
def Accepts (inp : Input) (c : Byte) : Prop := c ≠ 0 ∧ (inp.e - inp.r).toNat < INPUT_BUF

instance (inp : Input) (c : Byte) : Decidable (inp.Accepts c) :=
  inferInstanceAs (Decidable (_ ∧ _))

/-- `!buffering || c == '\n' || c == C('D') || input.e == input.r + INPUT_BUF` -/
def Commits (buffering : Int) (inp : Input) (c : Byte) : Prop :=
  buffering = 0 ∨ c = LF ∨ c = ctrlD ∨ inp.e = inp.r + BitVec.ofNat 32 INPUT_BUF

instance (buffering : Int) (inp : Input) (c : Byte) : Decidable (inp.Commits buffering c) :=
  inferInstanceAs (Decidable (_ ∨ _))

/-- `c = (c == '\r') ? '\n' : c` -/
def translate (c : Byte) : Byte := if c = CR then LF else c

/-- The `default` case. -/
def typeChar (buffering : Int) (inp : Input) (c : Byte) : Input :=
  if inp.Accepts c then
    let stored := inp.store (translate c)
    if stored.Commits buffering (translate c) then { stored with w := stored.e } else stored
  else inp

end Input

/-- The case of `consoleintr` a character takes. -/
inductive Case where
  | procdump
  | kill
  | erase
  | other
  deriving DecidableEq

def caseOf (c : Byte) : Case :=
  if c = ctrlP then .procdump
  else if c = ctrlU then .kill
  else if c = ctrlC then .kill
  else if c = ctrlH ∨ c = DELETE then .erase
  else .other

/-- One round of the loop of `consoleintr`. -/
def Input.handle (buffering : Int) (inp : Input) (c : Byte) : Input :=
  match caseOf c with
  | .procdump => inp
  | .kill => inp.killLine buffering
  | .erase => inp.erase buffering
  | .other => inp.typeChar buffering c

def edit (line : List Byte) (c : Byte) : List Byte :=
  match caseOf c with
  | .procdump => line
  | .kill => []
  | .erase => line.dropLast
  | .other => line ++ [c]

def edited (keys : List Byte) : List Byte := keys.foldl edit []

structure Memory where
  /-- the keys obeyed since the last commit, oldest first -/
  typed : List Byte
  committed : List Byte
  /-- the characters taken by `consoleread`, each with the call that took it -/
  taken : List (Nat × Byte)

def Memory.key (m : Memory) (c : Byte) (commits : Bool) : Memory :=
  let typed := m.typed ++ [c]
  if commits then { m with typed := [], committed := m.committed ++ edited typed }
  else { m with typed := typed }

def Memory.handle (m : Memory) (buffering : Int) (inp : Input) (c : Byte) : Memory :=
  match caseOf c with
  | .procdump => m
  | .kill => if buffering ≠ 0 then m.key c false else m
  | .erase => if buffering ≠ 0 then m.key c false else m
  | .other =>
    if inp.Accepts c then
      m.key (Input.translate c)
        (decide ((inp.store (Input.translate c)).Commits buffering (Input.translate c)))
    else m

inductive ReadAt where
  /-- `acquire(&cons.lock)`, on entry and at the end of `sleep` -/
  | acquire
  | loop
  | returned (value : Int)
  deriving DecidableEq

structure Read where
  target : Nat
  n : Nat
  dst : List Byte
  point : ReadAt

inductive Holder where
  | intr
  | read (k : Nat)
  deriving DecidableEq

structure Tty where
  input : Input
  buffering : Int
  lock : Option Holder
  reads : Nat → Option Read
  memory : Memory

namespace Tty

def setRead (s : Tty) (k : Nat) (rd : Read) : Tty :=
  { s with reads := Function.update s.reads k (some rd) }

/-- `release(&cons.lock)` and the `return`. -/
def leave (s : Tty) (k : Nat) (rd : Read) (value : Int) : Tty :=
  { s.setRead k { rd with point := .returned value } with lock := none }

/-- `sleep(&input.r, &cons.lock)` -/
def sleep (s : Tty) (k : Nat) (rd : Read) : Tty :=
  { s.setRead k { rd with point := .acquire } with lock := none }

/-- `input.r++`, and the call `k` that has the character. -/
def take (s : Tty) (k : Nat) : Tty :=
  { s with
    input := { s.input with r := s.input.r + 1 }
    memory := { s.memory with taken := s.memory.taken ++ [(k, s.input.front)] } }

/-- `*dst++ = c; --n;` -/
def deliver (rd : Read) (c : Byte) : Read := { rd with dst := rd.dst ++ [c], n := rd.n - 1 }

/-- One round of the loop of `consoleread`, with `cons.lock` held. -/
def round (s : Tty) (k : Nat) (rd : Read) (killed : Bool) : Tty :=
  if rd.n = 0 then s.leave k rd (rd.target - rd.n)
  else if s.input.r = s.input.w then
    if killed then s.leave k rd (-1) else s.sleep k rd
  else
    let c := s.input.front
    if c = ctrlD then
      -- `input.r--` takes the character back
      if rd.n < rd.target then s.leave k rd (rd.target - rd.n)
      else (s.take k).leave k rd (rd.target - rd.n)
    else
      let rd' := deliver rd c
      if c = LF then (s.take k).leave k rd' (rd'.target - rd'.n)
      else (s.take k).setRead k rd'

end Tty

inductive Action where
  | setconsbuf (isbuf : Int)
  | intr
  | getc (c : Byte)
  | endIntr
  | read (k n : Nat)
  | acquire (k : Nat)
  | round (k : Nat) (killed : Bool)

def stepInput (s : Tty) : Action → Outcome Tty Unit
  | .setconsbuf isbuf => .ok () { s with buffering := isbuf }
  | .intr => if s.lock = none then .ok () { s with lock := some .intr } else .blocked
  | .getc c =>
    if s.lock = some .intr then
      .ok () { s with
        input := s.input.handle s.buffering c
        memory := s.memory.handle s.buffering s.input c }
    else .blocked
  | .endIntr => if s.lock = some .intr then .ok () { s with lock := none } else .blocked
  | .read k n =>
    match s.reads k with
    | none => if 0 < n then .ok () (s.setRead k ⟨n, n, [], .acquire⟩) else .blocked
    | some _ => .blocked
  | .acquire k =>
    match s.reads k with
    | some rd =>
      if rd.point = .acquire ∧ s.lock = none then
        .ok () { s.setRead k { rd with point := .loop } with lock := some (.read k) }
      else .blocked
    | none => .blocked
  | .round k killed =>
    match s.reads k with
    | some rd =>
      if rd.point = .loop ∧ s.lock = some (.read k) then .ok () (s.round k rd killed) else .blocked
    | none => .blocked

/-- The console as the kernel boots: `static int buffering = 1`, the rest zero. -/
def bootTty : Tty where
  input := ⟨fun _ => 0, 0, 0, 0⟩
  buffering := 1
  lock := none
  reads := fun _ => none
  memory := ⟨[], [], []⟩

end Xv6.Console
