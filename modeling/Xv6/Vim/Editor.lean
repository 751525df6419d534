import Xv6.Console.Screen
import Xv6.Vim.Line

/-!
# The editor

The key loop of `vim.c`: the text, the current line, the mode and the screen, and what
each key does to them.

A key is what `read` returns in the unbuffered mode of the console.  Backspace is not a
key: the interrupt handler of the console acts on it itself.  Two places of the source read
memory that does not belong to their variable: `getchar` with a negative column, and
`readcmd` with a `len` it has not assigned.  A key carries what is found there.
-/

namespace Xv6.Vim

open Lib Console List

def ascii (c : Char) : Byte := BitVec.ofNat 8 c.toNat

abbrev KEY_ESC : Byte := 0x1B

def viewable (c : Byte) : Bool :=
  (ascii 'a' ≤ c && c ≤ ascii 'z') || (ascii 'A' ≤ c && c ≤ ascii 'Z') ||
  (ascii '0' ≤ c && c ≤ ascii '9') ||
  c ∈ ['#', '.', '/', '\\', '+', '-', '*', '_', '!', '@', '$', '%', '^', '&', ':', ' '].map ascii

def cmdfilter (c : Byte) : Bool := viewable c

def inputfilter (c : Byte) : Bool := viewable c || c = NL

/-- The locals of `readcmd` while it reads. -/
structure Prompt where
  precur : Int
  len : Option Int
  deriving DecidableEq

/-- The mode; in `V_CMD` either `readcmd` is reading or a command has failed. -/
inductive Mode where
  | readonly
  | insert
  | cmd (prompt : Option Prompt)
  deriving DecidableEq

/-- `mode == V_CMD` -/
def Mode.isCmd : Mode → Bool
  | .cmd _ => true
  | _ => false

inductive Move where
  | up
  | down
  | left
  | right
  deriving DecidableEq

inductive Status where
  | running
  | quit
  | saved
  | panicked
  deriving DecidableEq

namespace Line

/-- `memmove(p->c + col, p->c + col + 1, 80 - col)`: the last byte comes from `len`. -/
def remove (l : Line) (col : Nat) (hcol : col < 80) : Line :=
  { l with
    c := l.c.take col ++ (l.c ++ [BitVec.ofNat 8 l.len]).drop (col + 1)
    size := by
      simp only [length_append, length_take, length_drop, length_singleton,
        l.size]
      omega }

end Line

namespace Ctext

/-- `while (p->next && p->lineno < line) p = p->next`: how far `p` gets. -/
def walk (line : Int) : List Line → Nat
  | [] => 0
  | p :: rest => if (p.lineno : Int) < line then walk line rest + 1 else 0

def index (t : Ctext) (line : Int) : Nat := walk line t.init

def get (t : Ctext) (i : Nat) : Line := (t.init[i]?).getD t.last

def modify (t : Ctext) (i : Nat) (f : Line → Line) : Ctext :=
  if i < t.init.length then { t with init := t.init.modify i f } else { t with last := f t.last }

def append (t : Ctext) (l : Line) : Ctext :=
  { init := t.nodes, last := l, lines := t.lines + 1 }

end Ctext

structure Editor where
  text : Ctext
  vimline : Int
  mode : Mode
  screen : Screen
  precrt : Int → BitVec 16
  precursor : Int
  /-- the memory at the literal that `readcmd` fills and returns -/
  cmd : Nat → Byte
  status : Status
  /-- the positions passed to `scrputc`, `setcursor` and `getcch` -/
  passed : List Int
  /-- the positions at which the text of the file has been drawn or edited -/
  drawn : List Int

namespace Editor

def getcursor (e : Editor) : Int := e.screen.getcursor

def setcursor (e : Editor) (pos : Int) : Editor :=
  { e with screen := (e.screen.setcursor pos).2, passed := pos :: e.passed }

def scrputc (e : Editor) (pos c : Int) : Editor :=
  { e with screen := e.screen.scrputc pos c, passed := pos :: e.passed }

def mark (e : Editor) (pos : Int) : Editor := { e with drawn := pos :: e.drawn }

def col (e : Editor) : Nat := (e.getcursor % 80).toNat

theorem col_lt (e : Editor) : e.col < 80 := by
  unfold col
  omega

/-- `scrputc(pos++, c)` for every `c`. -/
@[irreducible] def puts (e : Editor) (pos : Int) : List Int → Editor
  | [] => e
  | c :: cs => (e.scrputc pos c).puts (pos + 1) cs

def clearcli (e : Editor) : Editor := e.puts MAX_CHAR (List.replicate 80 0)

/-- `(c & 0xff) | WHITE` -/
def white (c : Int) : Int := c % 256 + 0x0f00

/-- The number of the line as `showline` shows it. -/
def label (vimline : Int) : List Int :=
  let d1 := if vimline ≥ 10 then vimline / 10 else 0
  let d2 := if vimline ≥ 10 then vimline % 10 else vimline
  [108, 105, 110, 101, 58, d1 + 48, d2 + 48].map white

def showline (e : Editor) : Editor :=
  let precur := e.getcursor
  (e.puts MAX_CHAR (List.replicate 60 0 ++ label e.vimline ++ List.replicate 13 0)).setcursor precur

/-- The node that `getchar`, `rmch` and the insertion select. -/
def line (e : Editor) : Line := e.text.get (e.text.index e.vimline)

/-- `getchar`; `junk` is what lies below the line. -/
def getchar (e : Editor) (pos : Int) (junk : Int) : Byte :=
  let col := pos.tmod 80
  if col < 0 then BitVec.ofInt 8 junk else (e.line.c[col.toNat]?).getD 0

def cursormove (e : Editor) (move : Move) (junk : Int) : Editor :=
  let pos := e.getcursor
  match move with
  | .left =>
    if e.mode.isCmd then if pos > CMD_LINE then e.setcursor (pos - 1) else e
    else if pos > 0 ∧ e.getchar (pos - 1) junk ≠ EMPTY_CHAR then e.setcursor (pos - 1)
    else e
  | .right =>
    if e.mode.isCmd then
      if pos < MAX_CHAR + CMD_BUF_SZ then
        let (ch, screen) := e.screen.getcch (pos + 1)
        let e := { e with screen, passed := (pos + 1) :: e.passed }
        if ch ≠ 0 then e.setcursor (pos + 1) else e
      else e
    else if pos < MAX_CHAR ∧ e.getchar (pos + 1) junk ≠ EMPTY_CHAR then e.setcursor (pos + 1)
    else e
  | .down =>
    if ¬e.mode.isCmd ∧ pos / 80 + 1 ≤ MAX_ROW ∧ pos / 80 + 1 < e.text.lines ∧
        e.getchar (pos + MAX_COL) junk ≠ EMPTY_CHAR then
      let pos := if pos + MAX_COL ≥ MAX_CHAR then MAX_CHAR - 1 else pos + MAX_COL
      { e.setcursor pos with vimline := e.vimline + 1 }
    else e
  | .up =>
    if ¬e.mode.isCmd ∧ pos / 80 + 1 > 0 ∧ e.getchar (pos - MAX_COL) junk ≠ EMPTY_CHAR then
      let pos := if pos - MAX_COL < 0 then 0 else pos - MAX_COL
      { e.setcursor pos with vimline := e.vimline - 1 }
    else e

/-- The two loops of `printtext` over the characters of the lines. -/
@[irreducible] def printChars (e : Editor) (pos : Int) : List Byte → Editor
  | [] => e
  | ch :: rest =>
    if ch = NL then
      let pos := pos + 80 - (pos + 1).tmod 80
      ((((e.scrputc pos NEWLINE).mark pos).scrputc pos ch.toInt).mark pos).printChars (pos + 1) rest
    else ((e.scrputc pos ch.toInt).mark pos).printChars (pos + 1) rest

def printtext (e : Editor) (line : Int) : Editor :=
  (e.printChars 0 ((e.text.nodes.drop (e.text.index line)).map Line.string).flatten).setcursor 0

def removed (e : Editor) : Ctext :=
  if e.line.strlen < 80 then
    e.text.modify (e.text.index e.vimline) fun p => p.remove e.col e.col_lt
  else e.text

def rmch (e : Editor) : Editor :=
  let pos := e.getcursor
  (({ e with text := e.removed }.mark pos).printtext 1).setcursor pos

/-- The case `'\n'` of the key loop. -/
def enter (e : Editor) : Editor :=
  let p := e.text.last
  let l := Line.empty (p.lineno + 1) (p.para + 1)
  let p := if p.len < 80 then p.poke p.strlen NL else p
  let e := { e with vimline := e.vimline + 1, text := { e.text with last := p }.append l }
  (e.scrputc e.getcursor NEWLINE).mark e.getcursor

def opensLine (e : Editor) : Prop := e.col = 0 ∧ e.getcursor ≠ 0 ∧ e.line.len = 80

instance (e : Editor) : Decidable e.opensLine := inferInstanceAs (Decidable (_ ∧ _))

def typed (e : Editor) (c : Byte) : Ctext :=
  if e.opensLine then
    let l := Line.empty (e.text.last.lineno + 1) e.text.last.para
    e.text.append (l.poke e.col c).measure
  else e.text.modify (e.text.index e.vimline) fun p => (p.poke e.col c).measure

/-- The case `default` of the key loop. -/
def default (e : Editor) (c : Byte) : Editor :=
  if e.mode = .insert ∧ inputfilter c then
    let cp := e.getcursor
    let vimline := if e.opensLine then e.vimline + 1 else e.vimline
    let text := e.typed c
    { ((e.setcursor cp).scrputc cp c.toNat).mark cp with vimline, text }
  else e

/-- `printf(STDOUT_FILENO, ..)` of some characters. -/
def printf (e : Editor) : List Int → Editor
  | [] => e
  | c :: cs =>
    match e.screen.cgaputc c with
    | .ok _ screen => { e with screen }.printf cs
    | _ => { e with status := .panicked }

def restorescr (e : Editor) : Editor :=
  { e with screen := { e.screen with
      crt := fun i => if 0 ≤ i ∧ i < MAX_CHAR then e.precrt i else e.screen.crt i } }

/-- The end of `main`, from `EXIT` on. -/
def leave (e : Editor) (status : Status) : Editor :=
  { e.clearcli.restorescr.setcursor e.precursor with status }

def openPrompt (e : Editor) : Editor :=
  let precur := e.getcursor
  { (e.clearcli.scrputc CMD_LINE 58) with mode := .cmd (some ⟨precur, none⟩) }

/-- A key that `readcmd` reads, other than the end of the line. -/
def promptKey (e : Editor) (p : Prompt) (c : Byte) (junk : Int) : Editor :=
  let pos := e.getcursor
  let len := (pos - MAX_CHAR).tmod MAX_COL
  if len > CMD_BUF_SZ then
    { e with mode := .cmd none }.printf [108, 101, 110, 61, len / 10 + 48, len % 10 + 48]
  else
    let e := { e with mode := .cmd (some { p with len := some len }) }
    if cmdfilter c then e.scrputc pos c.toNat
    else if c = 0xE4 then e.cursormove .left junk
    else if c = 0xE5 then e.cursormove .right junk
    else if c = KEY_ESC then
      { e.clearcli.setcursor p.precur with mode := .readonly }
    else e

/-- The end of `readcmd`: the characters of the command, as they stand on the screen. -/
def readback (e : Editor) (p : Prompt) (junk : Int) : Editor :=
  let len := (p.len.getD junk).toNat
  { e with
    cmd := fun i => if i < len then (e.screen.crt (MAX_CHAR + i + 1)).setWidth 8 else e.cmd i
    mode := .cmd none
    passed := (List.range len).map (fun i : Nat => MAX_CHAR + i + 1) ++ e.passed }

def obey (e : Editor) : Editor :=
  if e.cmd 0 = ascii 'q' then e.leave .quit
  else if e.cmd 0 = ascii 'w' ∧ e.cmd 1 = ascii 'q' then e.leave .saved
  else e.setcursor CMD_LINE

/-- The keys of which the key loop makes a motion, and the modes in which it does; in the
other modes they fall through to the case `default`. -/
def motion (m : Mode) (c : Byte) : Option Move :=
  if c = 0xE2 ∨ (c = ascii 'k' ∧ m = .insert) then some .up
  else if c = 0xE3 ∨ (c = ascii 'j' ∧ m = .readonly) then some .down
  else if c = 0xE4 ∨ (c = ascii 'h' ∧ m = .readonly) then some .left
  else if c = 0xE5 ∨ (c = ascii 'l' ∧ m = .readonly) then some .right
  else none

def otherKey (e : Editor) (c : Byte) (junk : Int) : Editor :=
  if c = ascii 'G' then if e.mode = .readonly then e.setcursor (e.text.lines * MAX_COL) else e
  else if c = ascii 'g' then if e.mode = .readonly then e.setcursor 0 else e
  else if c = KEY_ESC then
    match e.mode with
    | .insert => { e with mode := .readonly }.cursormove .left junk
    | .cmd _ => { e with mode := .readonly }
    | .readonly => e
  else if c = ascii ':' then
    match e.mode with
    | .readonly => e.openPrompt
    | .insert => e.default c
    | .cmd _ => e
  else if c = ascii 'i' then
    match e.mode with
    | .readonly => { e with mode := .insert }
    | .insert => e.default c
    | .cmd _ => e
  else if c = ascii 'x' then
    match e.mode with
    | .readonly => e.rmch
    | .insert => e.default c
    | .cmd _ => e
  else if c = NL then e.enter
  else e.default c

def mainKey (e : Editor) (c : Byte) (junk : Int) : Editor :=
  let e := e.showline
  match motion e.mode c with
  | some move => e.cursormove move junk
  | none => e.otherKey c junk

def backspace (s : Screen) : Screen :=
  let pos := s.getcursor
  if pos > CMD_LINE then
    ({ s with crt := fun i => if pos ≤ i ∧ i < pos + CMD_BUF_SZ - 1
        then (s.crt (i + 1) &&& 0xff) ||| WHITE_ON_GREY else s.crt i }.setcursor (pos - 1)).2
  else if pos = CMD_LINE then ((s.write pos (SPACE ||| WHITE_ON_GREY)).setcursor CMD_LINE).2
  else s

inductive Event where
  | key (c : Byte) (junk : Int)
  | backspace
  | eof (junk : Int)

def step (e : Editor) (ev : Event) : Editor :=
  if e.status ≠ .running then e
  else
    match ev, e.mode with
    | .key c junk, .cmd (some p) => if c = NL then (e.readback p junk).obey
      else e.promptKey p c junk
    | .key c junk, _ => e.mainKey c junk
    | .backspace, _ => { e with screen := Editor.backspace e.screen }
    | .eof junk, .cmd (some p) => (e.readback p junk).obey
    | .eof _, _ => e.leave .saved

def clrscr (s : Screen) : Screen :=
  let crt := fun i => if 0 ≤ i ∧ i < MAX_CHAR then L_GREY
    else if MAX_CHAR ≤ i ∧ i < MAX_CHAR + 80 then WHITE_ON_GREY else s.crt i
  { s with crt := Function.update crt 0 (crt 0 ||| WHITE), cursor := 0 }

/-- `main` up to its loop, for a text that `readfile` has loaded. -/
def start (t : Ctext) (s : Screen) (cmd : Nat → Byte) : Editor :=
  let e : Editor :=
    { text := t, vimline := 1, mode := .readonly, screen := clrscr s, precrt := s.crt
      precursor := s.getcursor, cmd, status := .running, passed := [], drawn := [] }
  (e.setcursor 0).printtext 1

def run (e : Editor) (evs : List Event) : Editor := evs.foldl step e

end Editor

end Xv6.Vim
