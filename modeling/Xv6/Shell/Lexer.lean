import Xv6.Fs.Layout
import Xv6.Lib.Text
import Xv6.Shell.Tree

/-!
# Tokens of a command line

`gettoken` and `peek` of sh.c.  A pointer into the command line is an offset from its start.
-/

namespace Xv6.Shell

open Lib Fs

/-- `whitespace`: blank, tab, carriage return, newline and vertical tab. -/
def whitespace : List Byte := [32, 9, 13, 10, 11]

inductive Symbol where
  | lt
  | bar
  | gt
  | amp
  | semi
  | lpar
  | rpar
  deriving DecidableEq, Repr

def Symbol.char : Symbol → Byte
  | .lt => 60
  | .bar => 124
  | .gt => 62
  | .amp => 38
  | .semi => 59
  | .lpar => 40
  | .rpar => 41

def symbols : List Symbol := [.lt, .bar, .gt, .amp, .semi, .lpar, .rpar]

/-- `strchr(whitespace, c)`. -/
def isSpace (c : Byte) : Bool := whitespace.contains c

/-- `strchr(symbols, c)`. -/
def symbolOf (c : Byte) : Option Symbol := symbols.find? fun x => x.char == c

def inWord (c : Byte) : Bool := !isSpace c && (symbolOf c).isNone

structure Buffer where
  bytes : List Byte
  terminated : 0 ∈ bytes

namespace Buffer

variable (b : Buffer)

def str : List Byte := before 0 b.bytes

/-- `s + strlen(s)`. -/
def es : Nat := b.str.length

def deref (p : Nat) : Byte := b.bytes.getD p 0

/-- `while(s < es && cond(*s)) s++;` with a bound on the rounds. -/
def advanceFor (cond : Byte → Bool) : Nat → Nat → Nat
  | 0, s => s
  | rounds + 1, s =>
    if s < b.es && cond (b.deref s) then advanceFor cond rounds (s + 1) else s

def advance (cond : Byte → Bool) (s : Nat) : Nat := b.advanceFor cond (b.es - s) s

end Buffer

/-- What `gettoken` stores in `q` and `eq`. -/
structure Span where
  q : Nat
  eq : Nat
  deriving DecidableEq, Repr

/-- What `gettoken` returns: one of the symbols, `+` for `>>`, or `a` for a word, together with
the word. -/
inductive Tok (W : Type) where
  | sym (x : Symbol)
  | append
  | word (w : W)
  deriving DecidableEq, Repr

namespace Buffer

variable (b : Buffer)

/-- The `switch` of `gettoken` at `q`: the token, none for 0, and its end. -/
def token (q : Nat) : Option (Tok Span) × Nat :=
  match symbolOf (b.deref q) with
  | some .gt =>
    if b.deref (q + 1) = Symbol.gt.char then (some .append, q + 2) else (some (.sym .gt), q + 1)
  | some x => (some (.sym x), q + 1)
  | none =>
    if b.deref q = 0 then (none, q)
    else (some (.word ⟨q, b.advance inWord q⟩), b.advance inWord q)

/-- `gettoken`, with the new `*ps`. -/
def gettoken (ps : Nat) : Option (Tok Span) × Nat :=
  let q := b.advance isSpace ps
  let (tok, eq) := b.token q
  (tok, b.advance isSpace eq)

/-- `peek`, with the new `*ps`. -/
def peek (toks : List Symbol) (ps : Nat) : Bool × Nat :=
  let s := b.advance isSpace ps
  (b.deref s != 0 && toks.any fun x => x.char == b.deref s, s)

end Buffer

end Xv6.Shell
