import Mathlib.Data.List.Range

/-!
# The MP configuration table

`mpsearch`, `mpconfig` and `mpinit` of mp.c, on physical memory.  The entry loop has no
increment of its own: each case of the switch moves `p`, and `default` does not.  The loop takes
a bound on its rounds and gives no result while it has not ended.
-/

namespace Xv6.Mp

open Function

abbrev Byte := BitVec 8

abbrev NCPU : Nat := 8

/-- The fields of `struct mp` that are read. -/
structure Floating where
  physaddr : Nat
  imcrp : Byte
  deriving DecidableEq

abbrev Table := Nat → Byte

/-- The fields `length`, `version` and `lapicaddr` of `struct mpconf`, and its size. -/
def Table.length (conf : Table) : Nat := (conf 4).toNat + 256 * (conf 5).toNat
def Table.version (conf : Table) : Byte := conf 6
def Table.lapicaddr (conf : Table) : BitVec 32 := conf 39 ++ conf 38 ++ conf 37 ++ conf 36
abbrev MPCONF : Nat := 44

structure Machine where
  lapic : BitVec 32
  ncpu : Nat
  apicid : Nat → Byte
  ioapicid : Byte
  ismp : Bool
  imcr : Bool

def Machine.boot : Machine := ⟨0, 0, fun _ => 0, 0, true, false⟩

def sum (addr : Table) (len : Nat) : Byte := (List.range len).foldl (fun s i => s + addr i) 0

/-- The 16 bytes at `p` as a `struct mp`. -/
def floatingAt (mem : Nat → Byte) (p : Nat) : Floating where
  physaddr := (mem (p + 7) ++ mem (p + 6) ++ mem (p + 5) ++ mem (p + 4)).toNat
  imcrp := mem (p + 12)

/-- `mpsearch1(a, 16 * n)` -/
def mpsearch1 (mem : Nat → Byte) (a n : Nat) : Option Floating :=
  match (List.range' a n 16).find? fun p =>
    -- "_MP_"
    (List.range' p 4).map mem = [95, 77, 80, 95] ∧ sum (fun i => mem (p + i)) 16 = 0 with
  | none => none
  | some p => some (floatingAt mem p)

def mpsearch (mem : Nat → Byte) : Option Floating :=
  let ebda := (mem 0x40F ++ mem 0x40E).toNat * 16
  let base := (mem 0x414 ++ mem 0x413).toNat * 1024
  -- `p-1024` wraps around if there is no base memory
  let a := if ebda ≠ 0 then ebda else (base + 0xFFFFFC00) % 0x100000000
  mpsearch1 mem a 64 <|> mpsearch1 mem 0xF0000 0x1000

def mpconfig (mem : Nat → Byte) : Option (Floating × Table) :=
  match mpsearch mem with
  | none => none
  | some mp =>
    let conf : Table := fun i => mem (mp.physaddr + i)
    if mp.physaddr = 0 then none
    -- "PCMP"
    else if (List.range 4).map conf ≠ [80, 67, 77, 80] then none
    else if conf.version ≠ 1 ∧ conf.version ≠ 4 then none
    else if sum conf conf.length ≠ 0 then none
    else some (mp, conf)

/-- The switch: the state and `p` after one round. -/
def entry (conf : Table) (s : Machine) (p : Nat) : Machine × Nat :=
  match (conf p).toNat with
  | 0 => -- MPPROC
    if s.ncpu < NCPU then
      ({ s with apicid := update s.apicid s.ncpu (conf (p + 1)), ncpu := s.ncpu + 1 }, p + 20)
    else (s, p + 20)
  | 2 => ({ s with ioapicid := conf (p + 1) }, p + 8) -- MPIOAPIC
  | 1 | 3 | 4 => (s, p + 8) -- MPBUS, MPIOINTR, MPLINTR
  | _ => ({ s with ismp := false }, p)

def entries (conf : Table) : Nat → Machine → Nat → Option Machine
  | 0, _, _ => none
  | rounds + 1, s, p =>
    if p < conf.length then entries conf rounds (entry conf s p).1 (entry conf s p).2 else some s

def mpinit (mem : Nat → Byte) (rounds : Nat) : Option (Except String Machine) :=
  match mpconfig mem with
  | none => some (.error "Expect to run on an SMP")
  | some (mp, conf) =>
    match entries conf rounds { Machine.boot with lapic := conf.lapicaddr } MPCONF with
    | none => none
    | some s =>
      if s.ismp = false then some (.error "Didn't find a suitable machine")
      else some (.ok { s with imcr := mp.imcrp ≠ 0 })

def entrySize (type : Byte) : Nat := if type = 0#8 then 20 else 8

inductive HasEntry (conf : Table) : Nat → Prop
  | first : HasEntry conf MPCONF
  | next {p : Nat} (entry : HasEntry conf p) (inside : p < conf.length)
      (known : (conf p).toNat ≤ 4) : HasEntry conf (p + entrySize (conf p))

def Known (conf : Table) : Prop :=
  ∀ p, HasEntry conf p → p < conf.length → (conf p).toNat ≤ 4

/-- The entry loop ends, moves on in every round and counts at most `NCPU` processors, and an
unknown entry makes `mpinit` panic. -/
structure Parsed (mem : Nat → Byte) (conf : Table) : Prop where
  ends : ∃ rounds r, mpinit mem rounds = some r
  advances : ∀ s p, HasEntry conf p → p < conf.length → p < (entry conf s p).2
  bounded : ∀ rounds s, mpinit mem rounds = some (.ok s) → s.ncpu ≤ NCPU
  unknown : ∀ p, HasEntry conf p → p < conf.length → 4 < (conf p).toNat →
    ∃ rounds, mpinit mem rounds = some (.error "Didn't find a suitable machine")

variable {conf : Table} {p : Nat}

theorem entry_known (s : Machine) (h : (conf p).toNat ≤ 4) :
    (entry conf s p).2 = p + entrySize (conf p) := by
  have hzero : conf p = 0#8 ↔ (conf p).toNat = 0 := BitVec.toNat_inj.symm
  have hcases : (conf p).toNat = 0 ∨ (conf p).toNat = 1 ∨ (conf p).toNat = 2 ∨
      (conf p).toNat = 3 ∨ (conf p).toNat = 4 := by omega
  rcases hcases with h | h | h | h | h
  · rw [entrySize, if_pos (hzero.mpr h)]
    simp only [entry, h]
    split_ifs <;> rfl
  all_goals simp [entry, entrySize, hzero, h]

theorem entry_unknown (s : Machine) (h : 4 < (conf p).toNat) : (entry conf s p).2 = p := by
  rw [entry]
  split <;> first | rfl | omega

theorem entry_ncpu {s : Machine} (p : Nat) (h : s.ncpu ≤ NCPU) :
    (entry conf s p).1.ncpu ≤ NCPU := by
  rw [entry]
  split
  · split_ifs with hlt
    · exact hlt
    · exact h
  all_goals exact h

theorem entrySize_pos (type : Byte) : 0 < entrySize type := by
  rw [entrySize]
  split_ifs <;> decide

theorem entries_ncpu (rounds : Nat) {s s' : Machine}
    (h : s.ncpu ≤ NCPU) (hrun : entries conf rounds s p = some s') : s'.ncpu ≤ NCPU := by
  induction rounds generalizing s p with
  | zero => simp [entries] at hrun
  | succ rounds ih =>
    rw [entries] at hrun
    split_ifs at hrun
    · exact ih (entry_ncpu p h) hrun
    · obtain rfl := Option.some.inj hrun
      exact h

theorem entries_stuck (hp : p < conf.length)
    (h : 4 < (conf p).toNat) (rounds : Nat) (s : Machine) : entries conf rounds s p = none := by
  induction rounds generalizing s with
  | zero => rfl
  | succ rounds ih => rw [entries, if_pos hp, entry_unknown s h, ih]

theorem HasEntry.entries_none (hp : HasEntry conf p)
    (h : ∀ rounds s, entries conf rounds s p = none) (rounds : Nat) (s : Machine) :
    entries conf rounds s MPCONF = none := by
  induction hp with
  | first => exact h rounds s
  | next _ inside known ih =>
    apply ih
    intro rounds s
    cases rounds with
    | zero => rfl
    | succ rounds => rw [entries, if_pos inside, entry_known s known, h]

theorem entries_ends (hknown : Known conf) (n : Nat) (hp : HasEntry conf p)
    (hn : conf.length - p < n) (s : Machine) : ∃ s', entries conf n s p = some s' := by
  -- Every round moves `p` closer to the end.
  induction n generalizing p s with
  | zero => omega
  | succ n ih =>
    rw [entries]
    split_ifs with hlt
    · have hpos := entrySize_pos (conf p)
      rw [entry_known s (hknown p hp hlt)]
      exact ih (.next hp hlt (hknown p hp hlt)) (by omega) _
    · exact ⟨s, rfl⟩

/-- The table of an accepted configuration is parsed as it should be exactly if the types of
all its entries are known.  Otherwise `mpinit` neither returns nor panics. -/
theorem mpinit_parsed_iff (mem : Nat → Byte) {mp : Floating} {conf : Table}
    (hconf : mpconfig mem = some (mp, conf)) :
    (Parsed mem conf ↔ Known conf) ∧
      (¬Known conf → ∀ rounds, mpinit mem rounds = none) := by
  refine ⟨⟨fun h p hp hlt => ?_, fun hknown => ⟨?_, ?_, ?_, ?_⟩⟩, fun hknown rounds => ?_⟩
  · by_contra htype
    have hadv := h.advances .boot p hp hlt
    rw [entry_unknown _ (by omega)] at hadv
    omega
  · obtain ⟨s, hs⟩ := entries_ends hknown (conf.length + 1) .first (by omega)
      { Machine.boot with lapic := conf.lapicaddr }
    refine ⟨conf.length + 1, ?_⟩
    simp only [mpinit, hconf, hs]
    split_ifs <;> exact ⟨_, rfl⟩
  · intro s p hp hlt
    have hpos := entrySize_pos (conf p)
    rw [entry_known s (hknown p hp hlt)]
    omega
  · intro rounds s hs
    simp only [mpinit, hconf] at hs
    split at hs
    · simp at hs
    · case _ s' hrun =>
      split_ifs at hs
      · simp at hs
      · obtain rfl := Except.ok.inj (Option.some.inj hs)
        have hncpu : s'.ncpu ≤ NCPU := entries_ncpu rounds (Nat.zero_le _) hrun
        exact hncpu
  · intro p hp hlt htype
    exact absurd (hknown p hp hlt) (by omega)
  · simp only [Known, not_forall] at hknown
    obtain ⟨p, hp, hlt, htype⟩ := hknown
    simp only [mpinit, hconf, hp.entries_none (entries_stuck hlt (by omega))]

/-- The floating structure is at the start of the EBDA, here 0x9FC00, and the table behind it. -/
def biosWith (length checksum : Byte) (entries : List Byte) (a : Nat) : Byte :=
  if a = 0x40E then 0xC0
  else if a = 0x40F then 0x9F
  else if a < 0x9FC00 then 0
  else ([95, 77, 80, 95, 0x10, 0xFC, 9, 0, 1, 4, 139, 0, 0, 0, 0, 0] ++
    [80, 67, 77, 80, length, 0, 1, checksum] ++ List.replicate 36 0 ++ entries).getD (a - 0x9FC00) 0

theorem mpconfig_biosWith {length checksum : Byte} {entries : List Byte}
    (hsearch : mpsearch (biosWith length checksum entries) = some ⟨0x9FC10, 0⟩)
    (h : sum (fun i => biosWith length checksum entries (0x9FC10 + i)) length.toNat = 0) :
    mpconfig (biosWith length checksum entries) =
      some (⟨0x9FC10, 0⟩, fun i => biosWith length checksum entries (0x9FC10 + i)) := by
  have hlength : Table.length (fun i => biosWith length checksum entries (0x9FC10 + i)) =
      length.toNat := rfl
  simp only [mpconfig, hsearch, hlength, h]
  rfl

/-- Two processors and an I/O APIC. -/
def threeEntries : List Byte :=
  [0, 7] ++ List.replicate 18 0 ++ [0, 8] ++ List.replicate 18 0 ++ [2, 9, 0, 0, 0, 0, 0, 0]

theorem mpinit_parses_entries :
    Parsed (biosWith 92 89 threeEntries) (fun i => biosWith 92 89 threeEntries (0x9FC10 + i)) ∧
    (mpinit (biosWith 92 89 threeEntries) 4).map (fun r => r.toOption.map Machine.ncpu) =
      some (some 2) := by
  have hconf : mpconfig (biosWith 92 89 threeEntries) = some _ :=
    mpconfig_biosWith (by decide +kernel) (by decide +kernel)
  refine ⟨(mpinit_parsed_iff _ hconf).1.mpr ?_, by decide +kernel⟩
  intro p hp hlt
  have hnext : ∀ q ∈ [44, 64, 84, 92], q < 92 →
      q + entrySize (biosWith 92 89 threeEntries (0x9FC10 + q)) ∈ [44, 64, 84, 92] := by
        decide +kernel
  have hmem : p ∈ [44, 64, 84, 92] := by
    induction hp with
    | first => decide
    | next _ inside _ ih => exact hnext _ (ih inside) inside
  have hknown : ∀ q ∈ [44, 64, 84, 92], q < 92 →
      (biosWith 92 89 threeEntries (0x9FC10 + q)).toNat ≤ 4 := by decide +kernel
  exact hknown p hmem hlt

/-- One entry of type 5 behind the header. -/
theorem mpinit_hangs : mpconfig (biosWith 45 157 [5]) ≠ none ∧
    ∀ rounds, mpinit (biosWith 45 157 [5]) rounds = none := by
  have hconf : mpconfig (biosWith 45 157 [5]) = some _ :=
    mpconfig_biosWith (by decide +kernel) (by decide +kernel)
  constructor
  · rw [hconf]
    simp
  · intro rounds
    have hstuck : ∀ s, entries (fun i => biosWith 45 157 [5] (0x9FC10 + i)) rounds s
        MPCONF = none :=
      entries_stuck (by decide) (by decide) rounds
    simp only [mpinit, hconf, hstuck]

end Xv6.Mp
