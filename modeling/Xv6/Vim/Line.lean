import Mathlib.Algebra.Group.Int.Defs
import Mathlib.Algebra.Group.Nat.Defs
import Xv6.Lib.Text

/-!
# The text of the editor

The list of lines of `vim.c`, how `readfile` builds it and what `writefile` writes.

The array `c` of a `struct line` has no room for a terminator: a C string that starts at
`c[0]` runs on into the bytes of `len`, `lineno` and `para`, and a store past the array
changes them.  `malloc` is taken never to fail, and the counters never to overflow; the user
stack, which is one page, is taken to hold the array `buf[f_size]` of `readfile`.
-/

namespace Xv6.Vim

open Lib

abbrev Byte := BitVec 8

abbrev MAX_FILE_SIZE : Nat := 200000
abbrev EMPTY_CHAR : Byte := 0
abbrev NL : Byte := 10

structure Line where
  c : List Byte
  len : Nat
  lineno : Nat
  para : Nat
  size : c.length = 80
  deriving DecidableEq

/-- The four bytes of an `int`, the lowest first. -/
def intBytes (x : Nat) : List Byte :=
  [BitVec.ofNat 8 x, BitVec.ofNat 8 (x / 256), BitVec.ofNat 8 (x / 256 ^ 2),
    BitVec.ofNat 8 (x / 256 ^ 3)]

/-- An `int` with one of its bytes replaced. -/
def setByte (x k : Nat) (v : Byte) : Nat :=
  x % 256 ^ k + v.toNat * 256 ^ k + x / 256 ^ (k + 1) * 256 ^ (k + 1)

namespace Line

/-- The fields that lie behind `c` in memory, up to the pointer `next`. -/
def behind (l : Line) : List Byte := intBytes l.len ++ intBytes l.lineno ++ intBytes l.para

def string (l : Line) : List Byte := before EMPTY_CHAR (l.c ++ l.behind)

/-- `strlen(p->c)` -/
def strlen (l : Line) : Nat := l.string.length

/-- The text of a line: the cells of `c` before the first empty one. -/
def text (l : Line) : List Byte := before EMPTY_CHAR l.c

/-- `p->c[i] = v`, for an `i` up to the pointer `next`. -/
def poke (l : Line) (i : Nat) (v : Byte) : Line :=
  if i < 80 then { l with c := l.c.set i v, size := by rw [List.length_set, l.size] }
  else if i < 84 then { l with len := setByte l.len (i - 80) v }
  else if i < 88 then { l with lineno := setByte l.lineno (i - 84) v }
  else if i < 92 then { l with para := setByte l.para (i - 88) v }
  else l

/-- `p->c[p->len++] = v`: the new `len` is stored first. -/
def push (l : Line) (v : Byte) : Line := poke { l with len := l.len + 1 } l.len v

/-- `p->len = strlen(p->c)` -/
def measure (l : Line) : Line := { l with len := l.strlen }

/-- A new line, its cells set to `EMPTY_CHAR`. -/
def empty (lineno para : Nat) : Line :=
  { c := List.replicate 80 EMPTY_CHAR, len := 0, lineno, para, size := List.length_replicate }

end Line

/-- `struct ctext`.  The list is never empty; `last` is its last node. -/
structure Ctext where
  init : List Line
  last : Line
  lines : Nat
  deriving DecidableEq

namespace Ctext

def nodes (t : Ctext) : List Line := t.init ++ [t.last]

/-- One round of the loop of `readfile`; `p` is the last node. -/
def readByte (t : Ctext) (i : Nat) (ch : Byte) : Ctext :=
  if ch = NL then
    let p := { t.last.measure with lineno := i / 80 + 1 }
    let nl := Line.empty (p.lineno + 1) (p.para + 1)
    let nl := if nl.len < 80 then nl.push NL else nl
    { init := t.init ++ [p], last := nl, lines := t.lines + 1 }
  else { t with last := (t.last.push ch).measure }

def readLoop (t : Ctext) (i : Nat) : List Byte → Ctext
  | [] => t
  | ch :: buf => (t.readByte i ch).readLoop (i + 1) buf

end Ctext

/-- `readfile` on a file with the content `buf`; it refuses one that is too big. -/
def readfile (buf : List Byte) : Option Ctext :=
  if buf.length > MAX_FILE_SIZE then none
  else some (Ctext.readLoop { init := [], last := Line.empty 1 1, lines := 1 } 0 buf)

/-- What `writefile` writes, line after line. -/
def Ctext.written (t : Ctext) : List Byte := (t.nodes.map Line.string).flatten

def Ctext.text (t : Ctext) : List Byte := (t.nodes.map Line.text).flatten

end Xv6.Vim
