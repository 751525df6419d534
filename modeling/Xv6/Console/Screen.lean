import Mathlib.Algebra.Group.Int.Defs
import Mathlib.Data.Int.Order.Basic
import Mathlib.Logic.Function.Basic
import Xv6.Lib.Transition

/-!
# The screen

The functions of `console.c` that use the CGA text memory `crt` and the hardware cursor,
and the system calls that reach them.  A C `int` is an `Int`, with `wrap` where the
arithmetic can overflow.  `crt` is a bare pointer, so it can be indexed by every `int`;
the screen remembers which elements have been read or written.
-/

namespace Xv6.Console

open Lib

abbrev MAX_ROW : Int := 24
abbrev MAX_COL : Int := 80
abbrev MAX_CHAR : Int := MAX_ROW * MAX_COL
abbrev CMD_LINE : Int := MAX_ROW * MAX_COL
abbrev CMD_BUF_SZ : Int := 40
abbrev V_CMD : Int := 3
abbrev KEY_UP : Int := 0xE2
abbrev KEY_DN : Int := 0xE3
abbrev KEY_LF : Int := 0xE4
abbrev KEY_RT : Int := 0xE5
abbrev BACKSPACE : Int := 0x100
abbrev NEWLINE : Int := 10

abbrev EMPTY_CHAR : BitVec 16 := 0
abbrev L_GREY : BitVec 16 := 0x0700
abbrev WHITE : BitVec 16 := 0x0f00
abbrev WHITE_ON_GREY : BitVec 16 := 0x8f00
abbrev SPACE : BitVec 16 := 32

def wrap (x : Int) : Int := x.bmod (2 ^ 32)

structure Screen where
  crt : Int → BitVec 16
  cursor : BitVec 16
  /-- the indices at which `crt` has been read or written -/
  touched : List Int

namespace Screen

def read (s : Screen) (i : Int) : BitVec 16 × Screen :=
  (s.crt i, { s with touched := i :: s.touched })

def write (s : Screen) (i : Int) (v : BitVec 16) : Screen :=
  { s with crt := Function.update s.crt i v, touched := i :: s.touched }

/-- The two `outb` of `pos >> 8` and `pos`, each cut to a byte. -/
def place (s : Screen) (pos : Int) : Screen := { s with cursor := BitVec.ofInt 16 pos }

/-- `memmove(crt, crt + src, n * sizeof(crt[0]))` -/
def moveToTop (s : Screen) (src n : Nat) : Screen :=
  { s with
    crt := fun i => if 0 ≤ i ∧ i < n then s.crt (i + src) else s.crt i
    touched := (List.range n).map (fun k : Nat => ((k + src : Nat) : Int)) ++
      (List.range n).map (fun k : Nat => (k : Int)) ++ s.touched }

/-- `memset(crt + pos, 0, n * sizeof(crt[0]))` -/
def clear (s : Screen) (pos : Int) (n : Nat) : Screen :=
  { s with
    crt := fun i => if pos ≤ i ∧ i < pos + n then 0 else s.crt i
    touched := (List.range n).map (fun k : Nat => pos + k) ++ s.touched }

def getcursor (s : Screen) : Int := s.cursor.toNat

/-- `c & 0xff` -/
def char (c : Int) : BitVec 16 := BitVec.ofInt 16 c &&& 0xff

/-- `cgaputc`: the scrolling and the new cursor, once the character is written. -/
def cgaAdvance (s : Screen) (pos : Int) : Outcome Screen Unit :=
  if pos < 0 ∨ pos > 25 * 80 then .panic "pos under/overflow"
  else
    let (pos, s) :=
      if pos / 80 ≥ 24 then
        let s := s.moveToTop 80 (23 * 80)
        let pos := pos - 80
        (pos, s.clear pos (24 * 80 - pos).toNat)
      else (pos, s)
    .ok () ((s.place pos).write pos (SPACE ||| L_GREY))

def cgaputc (s : Screen) (c : Int) : Outcome Screen Unit :=
  let pos := s.getcursor
  if c = NEWLINE then s.cgaAdvance (pos + (80 - pos % 80))
  else if c = BACKSPACE then s.cgaAdvance (if pos > 0 then pos - 1 else pos)
  else (s.write pos (char c ||| L_GREY)).cgaAdvance (pos + 1)

def setcursor (s : Screen) (pos : Int) : Int × Screen :=
  let s := s.place pos
  let (ch, s) := s.read pos
  (0, if ch = EMPTY_CHAR then s.write pos (ch ||| WHITE) else s.write pos ch)

def getcch (s : Screen) (pos : Int) : Int × Screen :=
  let (ch, s) := s.read pos
  (ch.toNat, s)

def putchar (s : Screen) (pos c : Int) : Screen := s.write pos (char c ||| WHITE)

/-- The loop of `pushword`, with the rounds it makes. -/
def pushLoop : Nat → Int → Screen → Int × Screen
  | 0, i, s => (i, s)
  | n + 1, i, s =>
    let (ch, s) := s.read (i - 1)
    pushLoop n (i - 1) (s.write i ch)

/-- `(line + 1) * MAX_COL - 1` -/
def lineEnd (line : Int) : Int := wrap ((line + 1) * MAX_COL - 1)

def pushword (s : Screen) (pos line : Int) : Int × Screen :=
  let i := lineEnd line
  let (i, s) := pushLoop (i - pos).toNat i s
  s.getcch i

/-- `scrputc`: the new cursor, once the character is written. -/
def scrAdvance (s : Screen) (pos : Int) : Screen :=
  (s.place pos).write pos (if pos ≥ CMD_LINE then SPACE ||| WHITE_ON_GREY else SPACE ||| L_GREY)

def scrputc (s : Screen) (pos c : Int) : Screen :=
  let s := (s.setcursor pos).2
  let ch := if pos ≥ CMD_LINE then char c ||| WHITE_ON_GREY else char c ||| WHITE
  if c = NEWLINE then s.scrAdvance (wrap (pos + (80 - pos.tmod 80)))
  else if c = BACKSPACE then s.scrAdvance (if pos > 0 then pos - 1 else pos)
  else (s.write pos ch).scrAdvance (wrap (pos + 1))

/-- The loop of `deletech`, with the rounds it makes. -/
def deleteLoop : Nat → Int → Screen → Screen
  | 0, _, s => s
  | n + 1, i, s =>
    let (ch, s) := s.read (i + 1)
    deleteLoop n (i + 1) (s.write i ch)

def deleteFrom (s : Screen) (currentline : Int) : Int :=
  wrap (s.getcursor % 80 + (currentline - 1) * MAX_COL)

def deleteTo (s : Screen) (currentline linecount : Int) : Int :=
  wrap ((MAX_COL - s.deleteFrom currentline) + MAX_COL * linecount - 1)

def deletech (s : Screen) (currentline linecount : Int) : Screen :=
  let pos := s.getcursor
  let p := s.deleteFrom currentline
  let s := deleteLoop (s.deleteTo currentline linecount - p).toNat p s
  (s.setcursor pos).2

/-- `(crt[i] & 0xff) == EMPTY_CHAR` -/
def isEmpty (s : Screen) (i : Int) : Bool × Screen :=
  let (ch, s) := s.read i
  (ch &&& 0xff = EMPTY_CHAR, s)

def curmove (s : Screen) (move mode : Int) : Screen :=
  let pos := s.getcursor
  if move = KEY_LF then
    if (if mode = V_CMD then pos > CMD_LINE else pos > 0) then (s.setcursor (pos - 1)).2 else s
  else if move = KEY_RT then
    if mode = V_CMD then
      if pos < MAX_CHAR + CMD_BUF_SZ then
        let (empty, s) := s.isEmpty (pos + 1)
        if empty then s else (s.setcursor (pos + 1)).2
      else s
    else if pos < MAX_CHAR then
      let (empty, s) := s.isEmpty (pos + 1)
      -- the second operand of the inner conjunction is read only if the first holds
      let (both, s) := if empty then s.isEmpty pos else (false, s)
      if both then s else (s.setcursor (pos + 1)).2
    else s
  else if move = KEY_DN then
    if mode ≠ V_CMD ∧ pos / 80 < MAX_ROW then
      let (empty, s) := s.isEmpty (pos + MAX_COL)
      if empty then s else (s.setcursor (pos + MAX_COL)).2
    else s
  else if move = KEY_UP then
    if mode ≠ V_CMD ∧ pos / 80 > 0 then
      -- `setcursor(pos - MAX_COL && ..)`: the argument is a truth value
      if pos - MAX_COL ≠ 0 then
        let (empty, s) := s.isEmpty (pos - MAX_COL)
        (s.setcursor (if empty then 0 else 1)).2
      else (s.setcursor 0).2
    else s
  else s

end Screen

/-- A call that reaches the screen.  The arguments are what the stack of the process
holds, or, where `argint` fails, what was left in the slot of the parameter. -/
inductive Call where
  | setcursor (pos : BitVec 32)
  | scrputc (pos c : BitVec 32)
  | putchar (pos c : BitVec 32)
  | getcch (pos : BitVec 32)
  | pushword (pos line : BitVec 32)
  | deletech (currentline linecount : BitVec 32)
  | curmove (move mode : BitVec 32)
  | cgaputc (c : BitVec 32)

def step (s : Screen) : Call → Outcome Screen Unit
  | .setcursor pos => .ok () (s.setcursor pos.toInt).2
  | .scrputc pos c => .ok () (s.scrputc pos.toInt c.toInt)
  | .putchar pos c => .ok () (s.putchar pos.toInt c.toInt)
  | .getcch pos => .ok () (s.getcch pos.toInt).2
  | .pushword pos line => .ok () (s.pushword pos.toInt line.toInt).2
  | .deletech currentline linecount => .ok () (s.deletech currentline.toInt linecount.toInt)
  | .curmove move mode => .ok () (s.curmove move.toInt mode.toInt)
  | .cgaputc c => s.cgaputc c.toInt

def boot (crt : Int → BitVec 16) (cursor : BitVec 16) : Screen := ⟨crt, cursor, []⟩

end Xv6.Console
