import Mathlib.Logic.Function.Basic
import Xv6.Lib.Prog

/-!
# The user memory allocator

`malloc`, `free` and `morecore` of umalloc.c.  Addresses are byte addresses, and `mem` gives
the header that can be read at an address.  The loops take a bound on their rounds and stop
without a result when it is exceeded; `sbrk` is a list of replies.
-/

namespace Xv6.Malloc

open Lib Function

/-- `union header`. -/
structure Header where
  ptr : Nat
  size : Nat

/-- `sizeof(Header)`. -/
abbrev HEADER : Nat := 8

abbrev Memory := Nat → Header

def wrap (n : Nat) : Nat := n % 4294967296

/-- The allocator's state.  The last two fields are what its callers and `sbrk` know: the
blocks handed out, by the address of their header and the bytes asked for, and the memory
obtained so far, by start and length. -/
structure Heap where
  mem : Memory
  freep : Nat
  live : List (Nat × Nat)
  regions : List (Nat × Nat)

namespace Heap

def setSize (mem : Memory) (p n : Nat) : Memory := update mem p { mem p with size := n }

def setPtr (mem : Memory) (p q : Nat) : Memory := update mem p { mem p with ptr := q }

/-- The loop of `free`: the node of the list behind which `bp` belongs. -/
def search (mem : Memory) (bp : Nat) : Nat → Nat → Option Nat
  | 0, _ => none
  | fuel + 1, p =>
    if bp > p ∧ bp < (mem p).ptr then some p
    else if p ≥ (mem p).ptr ∧ (bp > p ∨ bp < (mem p).ptr) then some p
    else search mem bp fuel (mem p).ptr

def joinNext (mem : Memory) (bp p : Nat) : Memory :=
  let next := (mem p).ptr
  if bp + HEADER * (mem bp).size = next then
    setPtr (setSize mem bp ((mem bp).size + (mem next).size)) bp (mem next).ptr
  else setPtr mem bp next

def joinPrev (mem : Memory) (bp p : Nat) : Memory :=
  if p + HEADER * (mem p).size = bp then
    setPtr (setSize mem p ((mem p).size + (mem bp).size)) p (mem bp).ptr
  else setPtr mem p bp

def free (h : Heap) (fuel bp : Nat) : Option Heap :=
  match search h.mem bp fuel h.freep with
  | some p => some { h with mem := joinPrev (joinNext h.mem bp p) bp p, freep := p }
  | none => none

/-- The region `sbrk` may return lies above `base` and above all earlier ones. -/
def Fresh (base : Nat) (h : Heap) (a : Nat) : Prop :=
  base + HEADER ≤ a ∧ ∀ r ∈ h.regions, r.1 + r.2 ≤ a

instance (base : Nat) (h : Heap) (a : Nat) : Decidable (Fresh base h a) :=
  inferInstanceAs (Decidable (_ ∧ _))

/-- `morecore`: 0 if `sbrk` fails. -/
def morecore (base : Nat) (h : Heap) (fuel nunits : Nat) :
    List (Option Nat) → Outcome Heap Nat
  | [] => .blocked
  | none :: _ => .ok 0 h
  | some a :: _ =>
    let nu := if nunits < 4096 then 4096 else nunits
    if Fresh base h a then
      match free { h with
          mem := setSize h.mem a nu
          regions := (a, wrap (nu * HEADER)) :: h.regions } fuel a with
      | some h' => .ok h'.freep h'
      | none => .blocked
    else .blocked

/-- Take a block of `nunits` units off the node `p`, whose predecessor is `prevp`. -/
def take (h : Heap) (nunits prevp p : Nat) : Heap × Nat :=
  if (h.mem p).size = nunits then
    ({ h with mem := setPtr h.mem prevp (h.mem p).ptr, freep := prevp }, p)
  else
    let rest := (h.mem p).size - nunits
    let q := p + HEADER * rest
    ({ h with mem := setSize (setSize h.mem p rest) q nunits, freep := prevp }, q)

/-- The loop of `malloc`; the result is the pointer returned. -/
def loop (base nunits : Nat) : Nat → Heap → Nat → Nat → List (Option Nat) → Outcome Heap Nat
  | 0, _, _, _, _ => .blocked
  | fuel + 1, h, prevp, p, replies =>
    if (h.mem p).size ≥ nunits then
      let taken := h.take nunits prevp p
      .ok (taken.2 + HEADER) taken.1
    else if p = h.freep then
      match morecore base h fuel nunits replies with
      | .ok p' h' =>
        if p' = 0 then .ok 0 h'
        else loop base nunits fuel h' p' (h'.mem p').ptr (replies.drop 1)
      | .blocked => .blocked
      | .panic msg => .panic msg
    else loop base nunits fuel h p (h.mem p).ptr replies

/-- `(nbytes + sizeof(Header) - 1)/sizeof(Header) + 1`. -/
def units (nbytes : Nat) : Nat := wrap (nbytes + HEADER - 1) / HEADER + 1

/-- The first call makes the list of `base` alone. -/
def init (base : Nat) (h : Heap) : Heap :=
  if h.freep = 0 then { h with mem := update h.mem base ⟨base, 0⟩, freep := base } else h

def malloc (base : Nat) (h : Heap) (nbytes fuel : Nat) (replies : List (Option Nat)) :
    Outcome Heap Nat :=
  let h := init base h
  loop base (units nbytes) fuel h h.freep (h.mem h.freep).ptr replies

end Heap

inductive Act where
  | malloc (nbytes fuel : Nat) (replies : List (Option Nat))
  | free (ap fuel : Nat)
  | store (x : Nat) (v : Header)

/-- The end of a block with the header at `a`. -/
def Heap.stop (h : Heap) (a : Nat) : Nat := a + HEADER * (h.mem a).size

/-- Programs ask for less than 2^30 bytes, free live blocks, and write behind the headers of
live blocks. -/
def step (base : Nat) (h : Heap) : Act → Outcome Heap Unit
  | .malloc nbytes fuel replies =>
    if nbytes < 1073741824 then
      match h.malloc base nbytes fuel replies with
      | .ok r h' =>
        .ok () (if r = 0 then h' else { h' with live := (r - HEADER, nbytes) :: h'.live })
      | .blocked => .blocked
      | .panic msg => .panic msg
    else .blocked
  | .free ap fuel =>
    match h.live.find? fun b => b.1 + HEADER == ap with
    | some b =>
      match h.free fuel b.1 with
      | some h' => .ok () { h' with live := h'.live.erase b }
      | none => .blocked
    | none => .blocked
  | .store x v =>
    if h.live.any fun b => b.1 + HEADER ≤ x && x + HEADER ≤ h.stop b.1 then
      .ok () { h with mem := update h.mem x v }
    else .blocked

def boot (mem : Memory) : Heap := ⟨mem, 0, [], []⟩

end Xv6.Malloc
