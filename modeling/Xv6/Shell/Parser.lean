import Xv6.Lib.Prog
import Xv6.Shell.Lexer

/-!
# The parser of the shell

`parsecmd` and the functions it calls, in sh.c.  They move the pointer into the command line
only through `peek` and `gettoken`, so these are the operations of a program.  Recursion and
loops take a bound on their rounds; `spin` is what happens when it is exceeded.  Memory for the
nodes of the tree is always there.
-/

namespace Xv6.Shell

open Lib Fs

abbrev MAXARGS : Nat := 10

abbrev O_RDONLY : Nat := 0
abbrev O_WRONLY : Nat := 1
abbrev O_CREATE : Nat := 512

inductive ParseOp where
  | peek (toks : List Symbol)
  | gettoken
  | panic (msg : String)
  | spin

abbrev ParseSig : Sig where
  Op := ParseOp
  Ret
    | .peek _ => Bool
    | .gettoken => Option (Tok Span)
    | .panic _ => Empty
    | .spin => Empty

abbrev ParseM (α : Type) := Prog ParseSig α

def peek (toks : List Symbol) : ParseM Bool := Prog.ask (S := ParseSig) (.peek toks)

def gettoken : ParseM (Option (Tok Span)) := Prog.ask (S := ParseSig) .gettoken

def panic {α : Type} (msg : String) : ParseM α := Prog.op (.panic msg) fun r => nomatch r

def spin {α : Type} : ParseM α := Prog.op .spin fun r => nomatch r

/-- What `redircmd` is called with, except for the command. -/
structure Redir (W : Type) where
  file : W
  mode : Nat
  fd : Std

def redircmd {W : Type} (cmd : Cmd W) (redirs : List (Redir W)) : Cmd W :=
  redirs.foldl (fun cmd r => .redir cmd r.file r.mode r.fd) cmd

/-- The `switch` of `parseredirs`. -/
def redirOf {W : Type} (file : W) : Option (Tok W) → List (Redir W)
  | some (.sym .lt) => [⟨file, O_RDONLY, .input⟩]
  | some (.sym .gt) => [⟨file, O_WRONLY ||| O_CREATE, .output⟩]
  | some .append => [⟨file, O_WRONLY ||| O_CREATE, .output⟩]
  | _ => []

/-- `parseredirs`.  The words of an `execcmd` are filled in while redirections are already
around it; so these are collected first and wrapped around the finished command. -/
def parseredirs (redirs : List (Redir Span)) : Nat → ParseM (List (Redir Span))
  | 0 => spin
  | fuel + 1 => do
    if ← peek [.lt, .gt] then
      let tok ← gettoken
      match ← gettoken with
      | some (.word file) => parseredirs (redirs ++ redirOf file tok) fuel
      | _ => panic "missing file for redirection"
    else
      return redirs

/-- The loop of `parseexec`. -/
def parseargs (argv : List Span) (redirs : List (Redir Span)) : Nat → ParseM (Cmd Span)
  | 0 => spin
  | fuel + 1 => do
    if ← peek [.bar, .rpar, .amp, .semi] then
      return redircmd (.exec argv) redirs
    else
      match ← gettoken with
      | none => return redircmd (.exec argv) redirs
      | some (.word w) =>
        let argv := argv ++ [w]
        if argv.length ≥ MAXARGS then
          panic "too many args"
        else
          let redirs ← parseredirs redirs fuel
          parseargs argv redirs fuel
      | some _ => panic "syntax"

/-- The loop of `parseline`. -/
def parsebacks (cmd : Cmd Span) : Nat → ParseM (Cmd Span)
  | 0 => spin
  | fuel + 1 => do
    if ← peek [.amp] then
      let _ ← gettoken
      parsebacks (.back cmd) fuel
    else
      return cmd

mutual

def parseline : Nat → ParseM (Cmd Span)
  | 0 => spin
  | fuel + 1 => do
    let cmd ← parsepipe fuel
    let cmd ← parsebacks cmd fuel
    if ← peek [.semi] then
      let _ ← gettoken
      let right ← parseline fuel
      return .list cmd right
    else
      return cmd

def parsepipe : Nat → ParseM (Cmd Span)
  | 0 => spin
  | fuel + 1 => do
    let cmd ← parseexec fuel
    if ← peek [.bar] then
      let _ ← gettoken
      let right ← parsepipe fuel
      return .pipe cmd right
    else
      return cmd

def parseblock : Nat → ParseM (Cmd Span)
  | 0 => spin
  | fuel + 1 => do
    if ← peek [.lpar] then
      let _ ← gettoken
      let cmd ← parseline fuel
      if ← peek [.rpar] then
        let _ ← gettoken
        let redirs ← parseredirs [] fuel
        return redircmd cmd redirs
      else
        panic "syntax - missing )"
    else
      panic "parseblock"

def parseexec : Nat → ParseM (Cmd Span)
  | 0 => spin
  | fuel + 1 => do
    if ← peek [.lpar] then
      parseblock fuel
    else
      let redirs ← parseredirs [] fuel
      parseargs [] redirs fuel

end

/-- The bytes of the buffer and, latest first, where something was written. -/
structure Store where
  bytes : List Byte
  writes : List Nat

/-- `*p = 0`. -/
def Store.terminate (m : Store) (p : Nat) : Store := ⟨m.bytes.set p 0, p :: m.writes⟩

def nulterminate : Cmd Span → Store → Store
  | .exec argv, m => argv.foldl (fun m w => m.terminate w.eq) m
  | .redir cmd file _ _, m => (nulterminate cmd m).terminate file.eq
  | .pipe left right, m => nulterminate right (nulterminate left m)
  | .list left right, m => nulterminate right (nulterminate left m)
  | .back cmd, m => nulterminate cmd m

/-- The operations, on the pointer `*ps`. -/
def Buffer.handler (b : Buffer) : Handler ParseSig Nat
  | .peek toks, ps => .ok (b.peek toks ps).1 (b.peek toks ps).2
  | .gettoken, ps => .ok (b.gettoken ps).1 (b.gettoken ps).2
  | .panic msg, _ => .panic msg
  | .spin, _ => .blocked

def parsecmd (b : Buffer) (fuel : Nat) : Outcome Store (Cmd Span) :=
  match run b.handler (parseline fuel) 0 with
  | .ok cmd ps =>
    if (b.peek [] ps).2 ≠ b.es then .panic "syntax"
    else .ok cmd (nulterminate cmd ⟨b.bytes, []⟩)
  | .blocked => .blocked
  | .panic msg => .panic msg

end Xv6.Shell
