/-!
# Command trees of the shell

The structures `execcmd`, `redircmd`, `pipecmd`, `listcmd` and `backcmd` of sh.c, over any
type of words.
-/

namespace Xv6.Shell

inductive Std where
  | input
  | output
  deriving DecidableEq, Repr

def Std.fd : Std → Nat
  | .input => 0
  | .output => 1

inductive Cmd (W : Type) where
  | exec (argv : List W)
  | redir (cmd : Cmd W) (file : W) (mode : Nat) (fd : Std)
  | pipe (left right : Cmd W)
  | list (left right : Cmd W)
  | back (cmd : Cmd W)
  deriving DecidableEq, Repr

end Xv6.Shell
