import Mathlib.Tactic.Push
import Mathlib.Tactic.SplitIfs
import Xv6.Vm.Memory

/-!
# The arguments of system calls

`fetchint`, `fetchstr`, `argint`, `argptr` and `argstr` of `syscall.c`, in the 32-bit arithmetic
of the source: `uint` and `int` are the same words and differ only in how they are compared.
-/

namespace Xv6.Syscall

open Vm

/-- What the checks look at: `sz` and `tf->esp` of the current process, and its memory. -/
structure Proc where
  sz : BitVec 32
  esp : BitVec 32
  mem : BitVec 32 → BitVec 8

/-- `*(int*)(addr)`. -/
def Proc.word (p : Proc) (addr : BitVec 32) : BitVec 32 :=
  p.mem (addr + 3) ++ p.mem (addr + 2) ++ p.mem (addr + 1) ++ p.mem addr

/-- Fetch the int at `addr` from the current process; `none` is the result -1. -/
def fetchint (p : Proc) (addr : BitVec 32) : Option (BitVec 32) :=
  if addr ≥ p.sz ∨ addr + 4 > p.sz then none else some (p.word addr)

/-- The loop of `fetchstr` from `s` on, with the rounds it can make. -/
def fetchLoop (p : Proc) (addr : BitVec 32) : Nat → BitVec 32 → Int
  | 0, _ => -1
  | rounds + 1, s =>
    if s < p.sz then
      if p.mem s = 0 then (s - addr).toInt else fetchLoop p addr rounds (s + 1)
    else
      -1

/-- Fetch the nul-terminated string at `addr`: the value returned, and `*pp` if it is set. -/
def fetchstr (p : Proc) (addr : BitVec 32) : Int × Option (BitVec 32) :=
  if addr ≥ p.sz then (-1, none) else (fetchLoop p addr p.sz.toNat addr, some addr)

def argAddr (p : Proc) (n : BitVec 32) : BitVec 32 := p.esp + 4 + 4 * n

/-- Fetch the `n`-th 32-bit system call argument. -/
def argint (p : Proc) (n : BitVec 32) : Option (BitVec 32) := fetchint p (argAddr p n)

/-- Fetch the `n`-th argument as a pointer to a block of memory of `size` bytes. -/
def argptr (p : Proc) (n size : BitVec 32) : Option (BitVec 32) :=
  match argint p n with
  | none => none
  | some i =>
    if size.slt 0 ∨ i ≥ p.sz ∨ i + size > p.sz then none else some i

/-- Fetch the `n`-th argument as a string pointer. -/
def argstr (p : Proc) (n : BitVec 32) : Int × Option (BitVec 32) :=
  match argint p n with
  | none => (-1, none)
  | some addr => fetchstr p addr

def Proc.byteAt (p : Proc) (a : Nat) : BitVec 8 := p.mem (BitVec.ofNat 32 a)

/-- A string of length `k` at `a`, with its terminator, inside the process. -/
structure StringAt (p : Proc) (a k : Nat) : Prop where
  inside : a + k < p.sz.toNat
  stop : p.byteAt (a + k) = 0
  before : ∀ i < k, p.byteAt (a + i) ≠ 0

section Checks

variable {p : Proc} (hsz : p.sz.toNat ≤ KERNBASE)

include hsz

theorem toNat_add_below {addr k : BitVec 32} (haddr : addr < p.sz) (hk : k.toNat < 2147483648) :
    (addr + k).toNat = addr.toNat + k.toNat := by
  have hbound : p.sz.toNat ≤ 2147483648 := hsz
  rw [BitVec.lt_def] at haddr
  rw [BitVec.toNat_add, Nat.mod_eq_of_lt (by omega)]

theorem fetchint_eq_some {addr x : BitVec 32} (h : fetchint p addr = some x) :
    x = p.word addr ∧ addr.toNat + 4 ≤ p.sz.toNat := by
  unfold fetchint at h
  split_ifs at h with hbad
  cases h
  push Not at hbad
  obtain ⟨haddr, hend⟩ := hbad
  have hlt : addr < p.sz := BitVec.not_le.mp haddr
  have hadd : (addr + 4).toNat = addr.toNat + 4 := toNat_add_below hsz hlt (by decide)
  rw [gt_iff_lt, BitVec.lt_def, hadd] at hend
  exact ⟨rfl, Nat.le_of_not_lt hend⟩

theorem argptr_eq_some {n size i : BitVec 32} (h : argptr p n size = some i) :
    argint p n = some i ∧ 0 ≤ size.toInt ∧ (i.toNat : Int) + size.toInt ≤ p.sz.toNat := by
  unfold argptr at h
  split at h
  · cases h
  · case _ i' hint =>
    split_ifs at h with hbad
    cases h
    push Not at hbad
    obtain ⟨hneg, hi, hend⟩ := hbad
    -- a size that is not negative as an `int` is the same number as a `uint`
    have hsize : size.toNat < 2147483648 := by
      by_contra hbig
      apply hneg
      change BitVec.slt size 0#32 = true
      rw [BitVec.slt_zero_iff_msb_cond, BitVec.msb_eq_decide]
      simpa using hbig
    have hlt : i < p.sz := BitVec.not_le.mp hi
    rw [gt_iff_lt, BitVec.lt_def, toNat_add_below hsz hlt hsize] at hend
    have hint' : size.toInt = size.toNat := BitVec.toInt_eq_toNat_of_lt (by omega)
    exact ⟨hint, by omega, by omega⟩

theorem fetchLoop_nonneg {addr : BitVec 32} {rounds a : Nat} (ha : addr.toNat ≤ a)
    (hmem : a ≤ p.sz.toNat) (hr : 0 ≤ fetchLoop p addr rounds (BitVec.ofNat 32 a)) :
    ∃ k, StringAt p a k ∧
      fetchLoop p addr rounds (BitVec.ofNat 32 a) = ((a + k - addr.toNat : Nat) : Int) := by
  have hbound : p.sz.toNat ≤ 2147483648 := hsz
  induction rounds generalizing a with
  | zero => cases hr
  | succ rounds ih =>
    have hval : (BitVec.ofNat 32 a).toNat = a := by
      rw [BitVec.toNat_ofNat, Nat.mod_eq_of_lt (by omega)]
    rw [fetchLoop] at hr ⊢
    split_ifs at hr ⊢ with hlt hzero
    · rw [BitVec.lt_def, hval] at hlt
      refine ⟨0, ⟨hlt, hzero, fun i hi => absurd hi (Nat.not_lt_zero i)⟩, ?_⟩
      have hsub : (BitVec.ofNat 32 a - addr).toNat = a - addr.toNat := by
        rw [BitVec.toNat_sub_of_le (by rw [BitVec.le_def, hval]; exact ha), hval]
      rw [BitVec.toInt_eq_toNat_of_lt (by omega), hsub, Nat.add_zero]
    · rw [BitVec.lt_def, hval] at hlt
      have hnext : BitVec.ofNat 32 a + 1 = BitVec.ofNat 32 (a + 1) := (BitVec.ofNat_add a 1).symm
      rw [hnext] at hr ⊢
      obtain ⟨k, hk, heq⟩ := ih (by omega) (by omega) hr
      refine ⟨k + 1, ⟨?_, ?_, fun i hi => ?_⟩, ?_⟩
      · have := hk.inside
        omega
      · rw [← Nat.add_assoc, Nat.add_right_comm]
        exact hk.stop
      · cases i with
        | zero => exact hzero
        | succ i =>
          rw [← Nat.add_assoc, Nat.add_right_comm]
          exact hk.before i (by omega)
      · rw [heq, ← Nat.add_assoc, Nat.add_right_comm]
    · cases hr

theorem fetchstr_nonneg {addr : BitVec 32} (h : 0 ≤ (fetchstr p addr).1) :
    (fetchstr p addr).2 = some addr ∧ StringAt p addr.toNat (fetchstr p addr).1.toNat := by
  unfold fetchstr at h ⊢
  split_ifs at h ⊢ with haddr
  · cases h
  · have hlt : addr < p.sz := BitVec.not_le.mp haddr
    rw [BitVec.lt_def] at hlt
    have hself : BitVec.ofNat 32 addr.toNat = addr := by simp
    have hr : 0 ≤ fetchLoop p addr p.sz.toNat (BitVec.ofNat 32 addr.toNat) := by
      rw [hself]
      exact h
    obtain ⟨k, hk, heq⟩ := fetchLoop_nonneg hsz (Nat.le_refl _) (Nat.le_of_lt hlt) hr
    rw [hself] at heq
    refine ⟨rfl, ?_⟩
    simp only [heq, Nat.add_sub_cancel_left, Int.toNat_natCast]
    exact hk

theorem argstr_nonneg {n : BitVec 32} (h : 0 ≤ (argstr p n).1) :
    ∃ addr, argint p n = some addr ∧ (argstr p n).2 = some addr ∧
      StringAt p addr.toNat (argstr p n).1.toNat := by
  unfold argstr at h ⊢
  split at h
  · cases h
  · case _ addr hint =>
    rw [hint]
    exact ⟨addr, rfl, fetchstr_nonneg hsz h⟩

end Checks

/-- What the checks let through lies inside the process, as exact integers. -/
theorem argument_checks_sound (p : Proc) (hsz : p.sz.toNat ≤ KERNBASE) (n size : BitVec 32) :
    (∀ x, argint p n = some x → x = p.word (argAddr p n) ∧
      (argAddr p n).toNat + 4 ≤ p.sz.toNat ∧
      ∀ k < (4 : BitVec 32), (argAddr p n + k).toNat = (argAddr p n).toNat + k.toNat) ∧
    (∀ i, argptr p n size = some i → argint p n = some i ∧ 0 ≤ size.toInt ∧
      (i.toNat : Int) + size.toInt ≤ p.sz.toNat) ∧
    (∀ addr, 0 ≤ (fetchstr p addr).1 → (fetchstr p addr).2 = some addr ∧
      StringAt p addr.toNat (fetchstr p addr).1.toNat) ∧
    (0 ≤ (argstr p n).1 → ∃ addr, argint p n = some addr ∧ (argstr p n).2 = some addr ∧
      StringAt p addr.toNat (argstr p n).1.toNat) := by
  refine ⟨fun x hx => ?_, fun i hi => argptr_eq_some hsz hi, fun addr h => fetchstr_nonneg hsz h,
    argstr_nonneg hsz⟩
  obtain ⟨hword, hend⟩ := fetchint_eq_some hsz hx
  refine ⟨hword, hend, fun k hk => toNat_add_below hsz ?_ ?_⟩
  · rw [BitVec.lt_def]
    omega
  · have hfour : k.toNat < 4 := hk
    omega

def twoPages : Proc where
  sz := 8192
  esp := 4096
  mem a := if a = 4100 then 16 else if a = 16 then 97 else 0

theorem twoPages_string : StringAt twoPages 16 1 := by
  have hstr := (argument_checks_sound twoPages (by decide) 0 1).2.2.2 (by decide +kernel)
  have hlen : (argstr twoPages 0).1 = 1 := by decide +kernel
  have hint : argint twoPages 0 = some 16 := by decide +kernel
  obtain ⟨addr, haddr, -, hat⟩ := hstr
  rw [hint] at haddr
  cases haddr
  rw [hlen] at hat
  exact hat

end Xv6.Syscall
