import Xv6.Shell.Accept

/-!
# Printing and parsing again

Every tree the shell can run has a command line.  The parser gives back the tree, and when it
has cut the line up with terminators, each word of the tree can be read from the buffer as a C
string.
-/

namespace Xv6.Shell

open Lib Fs List

variable {W : Type} {bytes : List Byte} {m : Store}

def Std.mode : Std → Nat
  | .input => O_RDONLY
  | .output => O_WRONLY ||| O_CREATE

def Std.symbol : Std → Symbol
  | .input => .lt
  | .output => .gt

/-- How loosely the parts of a command are joined: 0 for what an `exec` derives, 1 for a
`pipe`, 2 for a `pipe` with `&` behind it, 3 for a `line`. -/
def Cmd.level : Cmd W → Nat
  | .exec _ => 0
  | .redir _ _ _ _ => 0
  | .pipe _ _ => 1
  | .back _ => 2
  | .list _ _ => 3

def Cmd.enclose (c : Cmd W) (level : Nat) (ts : List (Tok W)) : List (Tok W) :=
  if c.level ≤ level then ts else .sym .lpar :: (ts ++ [.sym .rpar])

def Cmd.print : Cmd W → List (Tok W)
  | .exec argv => argv.map .word
  | .redir cmd file _ fd => cmd.enclose 0 cmd.print ++ [.sym fd.symbol, .word file]
  | .pipe left right => left.enclose 0 left.print ++ .sym .bar :: right.enclose 1 right.print
  | .list left right => left.enclose 2 left.print ++ .sym .semi :: right.print
  | .back cmd => cmd.enclose 2 cmd.print ++ [.sym .amp]

def Plain (w : List Byte) : Prop := IsWord w ∧ 0 ∉ w

/-- The trees that can be printed: plain words, not too many of them, and redirections as
`parseredirs` makes them. -/
def Cmd.Printable : Cmd (List Byte) → Prop
  | .exec argv => argv.length ≤ MAXARGS - 1 ∧ ∀ w ∈ argv, Plain w
  | .redir cmd file mode fd => cmd.Printable ∧ Plain file ∧ mode = fd.mode
  | .pipe left right => left.Printable ∧ right.Printable
  | .list left right => left.Printable ∧ right.Printable
  | .back cmd => cmd.Printable

variable {rs : List (Redir W)}

theorem Redirs.append_redirs {ts us : List (Tok W)} {qs : List (Redir W)} (h : Redirs ts rs)
    (hus : Redirs us qs) : Redirs (ts ++ us) (rs ++ qs) := by
  induction h with
  | nil => exact hus
  | input _ ih => exact .input ih
  | output _ ih => exact .output ih
  | append _ ih => exact .append ih

theorem Args.append_redirs {ts us : List (Tok W)} {ws : List W} {qs : List (Redir W)}
    (h : Args ts ws rs) (hne : ws ≠ []) (hus : Redirs us qs) : Args (ts ++ us) ws (rs ++ qs) := by
  induction h with
  | nil => exact absurd rfl hne
  | @cons w ts ts' ws rs rs' hredirs hargs ih =>
    rw [cons_append, append_assoc, append_assoc]
    cases hargs with
    | nil =>
      have hlast := Args.cons (w := w) (hredirs.append_redirs hus) .nil
      simpa using hlast
    | cons hredirs' hargs' => exact .cons hredirs (ih nofun)

theorem Args.words (ws : List W) : Args (ws.map .word) ws [] := by
  induction ws with
  | nil => exact .nil
  | cons w ws ih => exact .cons .nil ih

theorem Redirs.single (file : W) (fd : Std) :
    Redirs [.sym fd.symbol, .word file] [⟨file, fd.mode, fd⟩] := by
  cases fd with
  | input => exact .input .nil
  | output => exact .output .nil

theorem Derives.redir {ts : List (Tok W)} {c : Cmd W} (h : Derives .exec ts c) (file : W)
    (fd : Std) :
    Derives .exec (ts ++ [.sym fd.symbol, .word file]) (.redir c file fd.mode fd) := by
  have hsingle := Redirs.single file fd
  cases h with
  | @block ts us c rs hline hredirs =>
    have hblock := Derives.block hline (hredirs.append_redirs hsingle)
    rw [redircmd_snoc] at hblock
    simpa using hblock
  | @simple ts us ws rs qs hredirs hargs hlen =>
    by_cases hnone : ws = []
    · subst hnone
      cases hargs
      have hsimple := Derives.simple (hredirs.append_redirs hsingle) .nil hlen
      rw [append_nil _, append_nil _, redircmd_snoc] at hsimple
      simpa using hsimple
    · have hsimple := Derives.simple hredirs (hargs.append_redirs hnone hsingle) hlen
      rw [← append_assoc, ← append_assoc, redircmd_snoc] at hsimple
      exact hsimple

/-- What is derived at a level of `Cmd.level`. -/
def DerivesAt : Nat → List (Tok W) → Cmd W → Prop
  | 0, ts, c => Derives .exec ts c
  | 1, ts, c => Derives .pipe ts c
  | 2, ts, c => ∃ k us d, ts = us ++ List.replicate k (.sym .amp) ∧ c = backcmds k d ∧
    Derives .pipe us d
  | _, ts, c => Derives .line ts c

variable {ts : List (Tok W)} {c : Cmd W}

variable {k : Nat}

theorem DerivesAt.succ (h : DerivesAt k ts c) : DerivesAt (k + 1) ts c := by
  match k with
  | 0 => exact .exec h
  | 1 => exact ⟨0, ts, c, (append_nil ts).symm, rfl, h⟩
  | 2 =>
    obtain ⟨k, us, d, rfl, rfl, hpipe⟩ := h
    exact .backs k hpipe
  | _ + 3 => exact h

theorem DerivesAt.mono {j : Nat} (h : DerivesAt j ts c) (hle : j ≤ k) : DerivesAt k ts c := by
  induction hle with
  | refl => exact h
  | step _ ih => exact ih.succ

theorem level_le (c : Cmd W) : c.level ≤ 3 := by
  cases c <;> simp [Cmd.level]

theorem DerivesAt.enclose (h : DerivesAt c.level ts c) (k : Nat) :
    DerivesAt k (c.enclose k ts) c := by
  rw [Cmd.enclose]
  split
  · case isTrue hle => exact h.mono hle
  · have hline : Derives .line ts c := h.mono (level_le c)
    have hblock : DerivesAt 0 (.sym .lpar :: (ts ++ [.sym .rpar])) c := Derives.block hline .nil
    exact hblock.mono (Nat.zero_le k)

theorem backcmds_succ (k : Nat) (c : Cmd W) : backcmds (k + 1) c = .back (backcmds k c) := by
  induction k generalizing c with
  | zero => rfl
  | succ k ih => exact ih (.back c)

theorem print_derives (c : Cmd (List Byte)) (hc : c.Printable) : DerivesAt c.level c.print c := by
  induction c with
  | exec argv =>
    exact Derives.simple Redirs.nil (Args.words argv) hc.1
  | redir cmd file mode fd ih =>
    obtain ⟨hcmd, -, rfl⟩ := hc
    exact Derives.redir ((ih hcmd).enclose 0) file fd
  | pipe left right ihleft ihright =>
    exact Derives.pipe ((ihleft hc.1).enclose 0) ((ihright hc.2).enclose 1)
  | list left right ihleft ihright =>
    obtain ⟨k, us, d, hus, hd, hpipe⟩ := (ihleft hc.1).enclose 2
    have hright : Derives .line right.print right := (ihright hc.2).mono (level_le right)
    rw [Cmd.print, hus, append_assoc]
    have hlist := Derives.list k hpipe hright
    rwa [← hd] at hlist
  | back cmd ih =>
    obtain ⟨k, us, d, hus, hd, hpipe⟩ := (ih hc).enclose 2
    refine ⟨k + 1, us, d, ?_, ?_, hpipe⟩
    · rw [Cmd.print, hus, append_assoc, replicate_succ']
    · rw [hd, backcmds_succ]

def Cmd.words : Cmd W → List W
  | .exec argv => argv
  | .redir cmd file _ _ => file :: cmd.words
  | .pipe left right => left.words ++ right.words
  | .list left right => left.words ++ right.words
  | .back cmd => cmd.words

theorem words_redircmd (c : Cmd W) (rs : List (Redir W)) (w : W) :
    w ∈ (redircmd c rs).words ↔ w ∈ c.words ∨ ∃ r ∈ rs, w = r.file := by
  induction rs generalizing c with
  | nil => simp [redircmd]
  | cons r rs ih =>
    have hcons : redircmd c (r :: rs) = redircmd (.redir c r.file r.mode r.fd) rs := rfl
    rw [hcons, ih]
    simp only [Cmd.words, mem_cons, exists_eq_or_imp, or_assoc, or_left_comm]

theorem words_backcmds (k : Nat) (c : Cmd W) : (backcmds k c).words = c.words := by
  induction k generalizing c with
  | zero => rfl
  | succ k ih => exact ih (.back c)

theorem Redirs.words (h : Redirs ts rs) {r : Redir W} (hr : r ∈ rs) : .word r.file ∈ ts := by
  induction h with
  | nil => cases hr
  | input _ ih | output _ ih | append _ ih =>
    cases hr with
    | head => simp
    | tail _ hr => simp [ih hr]

theorem Args.mem {ws : List W} (h : Args ts ws rs) :
    (∀ w ∈ ws, .word w ∈ ts) ∧ ∀ r ∈ rs, .word r.file ∈ ts := by
  induction h with
  | nil => exact ⟨nofun, nofun⟩
  | cons hredirs _ ih =>
    constructor
    · intro w hw
      cases hw with
      | head => exact mem_cons_self
      | tail _ hw => exact mem_cons_of_mem _ (mem_append_right _ (ih.1 w hw))
    · intro r hr
      rcases mem_append.mp hr with hr | hr
      · exact mem_cons_of_mem _ (mem_append_left _ (hredirs.words hr))
      · exact mem_cons_of_mem _ (mem_append_right _ (ih.2 r hr))

theorem Derives.words {x : Nonterminal} (h : Derives x ts c) {w : W} (hw : w ∈ c.words) :
    .word w ∈ ts := by
  induction h with
  | backs k _ ih =>
    rw [words_backcmds] at hw
    exact mem_append_left _ (ih hw)
  | list k _ _ ihpipe ihline =>
    rw [Cmd.words, words_backcmds, mem_append] at hw
    rcases hw with hw | hw
    · exact mem_append_left _ (ihpipe hw)
    · exact mem_append_right _ (mem_append_right _ (mem_cons_of_mem _ (ihline hw)))
  | exec _ ih => exact ih hw
  | pipe _ _ ihexec ihpipe =>
    rcases mem_append.mp hw with hw | hw
    · exact mem_append_left _ (ihexec hw)
    · exact mem_append_right _ (mem_cons_of_mem _ (ihpipe hw))
  | block _ hredirs ih =>
    rcases (words_redircmd _ _ w).mp hw with hw | ⟨r, hr, rfl⟩
    · exact mem_cons_of_mem _ (mem_append_left _ (ih hw))
    · exact mem_cons_of_mem _
        (mem_append_right _ (mem_cons_of_mem _ (hredirs.words hr)))
  | simple hredirs hargs _ =>
    rcases (words_redircmd _ _ w).mp hw with hw | ⟨r, hr, rfl⟩
    · exact mem_append_right _ (hargs.mem.1 w hw)
    · rcases mem_append.mp hr with hr | hr
      · exact mem_append_left _ (hredirs.words hr)
      · exact mem_append_right _ (hargs.mem.2 r hr)

theorem map_congr_words {V : Type} {f g : W → V} (c : Cmd W) (h : ∀ w ∈ c.words, f w = g w) :
    c.map f = c.map g := by
  induction c with
  | exec argv => exact congrArg Cmd.exec (map_congr_left h)
  | redir cmd file mode fd ih =>
    rw [Cmd.map, Cmd.map, ih fun w hw => h w (mem_cons_of_mem _ hw), h file mem_cons_self]
  | pipe left right ihleft ihright | list left right ihleft ihright =>
    rw [Cmd.map, Cmd.map, ihleft fun w hw => h w (mem_append_left _ hw),
      ihright fun w hw => h w (mem_append_right _ hw)]
  | back cmd ih => rw [Cmd.map, Cmd.map, ih h]

/-- What the writes of `nulterminate` have made of the bytes. -/
def Store.Cut (bytes : List Byte) (m : Store) : Prop :=
  ∀ i, m.bytes.getD i 0 = if i ∈ m.writes then 0 else bytes.getD i 0

theorem getD_set (l : List Byte) (p i : Nat) :
    (l.set p 0).getD i 0 = if i = p then 0 else l.getD i 0 := by
  rw [getD_eq_getElem?_getD, getD_eq_getElem?_getD, List.getElem?_set]
  by_cases hip : p = i
  · subst hip
    simp only [if_true]
    split <;> rfl
  · rw [if_neg hip, if_neg (Ne.symm hip)]

theorem Store.Cut.terminate (h : m.Cut bytes) (p : Nat) : (m.terminate p).Cut bytes := by
  intro i
  simp only [Store.terminate, getD_set, h i, mem_cons]
  by_cases hip : i = p
  · simp [hip]
  · simp [hip]

theorem terminate_all (h : m.Cut bytes) (argv : List Span) :
    (argv.foldl (fun m w => m.terminate w.eq) m).Cut bytes ∧
      ∀ p, p ∈ (argv.foldl (fun m w => m.terminate w.eq) m).writes ↔
        p ∈ m.writes ∨ ∃ w ∈ argv, p = w.eq := by
  induction argv generalizing m with
  | nil => exact ⟨h, fun p => by simp⟩
  | cons w argv ih =>
    obtain ⟨hcut, hwrites⟩ := ih (h.terminate w.eq)
    refine ⟨hcut, fun p => ?_⟩
    rw [foldl_cons, hwrites]
    simp only [Store.terminate, mem_cons, exists_eq_or_imp, or_assoc, or_left_comm]

/-- `nulterminate` writes a terminator behind every word, and nothing else. -/
theorem nulterminate_cut (h : m.Cut bytes) (cmd : Cmd Span) : (nulterminate cmd m).Cut bytes ∧
      ∀ p, p ∈ (nulterminate cmd m).writes ↔ p ∈ m.writes ∨ ∃ w ∈ cmd.words, p = w.eq := by
  induction cmd generalizing m with
  | exec argv => exact terminate_all h argv
  | redir cmd file mode fd ih =>
    obtain ⟨hcut, hwrites⟩ := ih h
    refine ⟨hcut.terminate file.eq, fun p => ?_⟩
    simp only [nulterminate, Store.terminate, Cmd.words, mem_cons, hwrites, exists_eq_or_imp,
      or_left_comm]
  | pipe left right ihleft ihright | list left right ihleft ihright =>
    obtain ⟨hcut, hwrites⟩ := ihleft h
    obtain ⟨hcut', hwrites'⟩ := ihright hcut
    refine ⟨hcut', fun p => ?_⟩
    simp only [nulterminate, Cmd.words, hwrites', hwrites, mem_append, or_and_right, exists_or,
      or_assoc]
  | back cmd ih => exact ih h

def cstring (bytes : List Byte) (w : Span) : List Byte := before 0 (bytes.drop w.q)

variable {b : Buffer}

variable {w : Span}

theorem Buffer.IsSpan.apart {v : Span} (hv : b.IsSpan v) (hw : b.IsSpan w) :
    v.eq < w.q ∨ w.eq ≤ v.eq := by
  by_contra hinside
  have hin := hw.2.all v.eq (by omega) (by omega)
  have hle := hw.2.le_es
  rw [hv.2.stop (by omega)] at hin
  cases hin

theorem Buffer.text_getD (hw : b.IsSpan w) {i : Nat} (hi : i < w.eq - w.q) :
    (b.text w).getD i 0 = b.deref (w.q + i) := by
  have hle := hw.2.le_es
  have hlt : w.q + i < b.es := by omega
  have hcons := rest_cons hlt
  have hdrop : b.rest (w.q + i) = (b.rest w.q).drop i := by rw [rest, rest, drop_drop]
  have hhead : (b.rest w.q)[i]? = some (b.deref (w.q + i)) := by
    rw [← List.head?_drop, ← hdrop, hcons, List.head?_cons]
  rw [text, getD_eq_getElem?_getD, List.getElem?_take_of_lt hi, hhead, Option.getD_some]

theorem Store.Cut.cstring_eq (h : m.Cut b.bytes) (hw : b.IsSpan w)
    (hend : w.eq ∈ m.writes) (hinside : ∀ p ∈ m.writes, p < w.q ∨ w.eq ≤ p) :
    cstring m.bytes w = b.text w := by
  have hlen := hw.length_text
  have hlt := hw.1
  have hget : ∀ i, (m.bytes.drop w.q).getD i 0 = m.bytes.getD (w.q + i) 0 := fun i => by
    rw [getD_eq_getElem?_getD, List.getElem?_drop, getD_eq_getElem?_getD]
  refine before_eq_of_getD ?_ (fun i hi => ?_) ?_
  · intro hzero
    exact notMem_before (mem_of_mem_drop (mem_of_mem_take hzero))
  · rw [hlen] at hi
    have houtside : w.q + i ∉ m.writes := fun hmem => by
      rcases hinside _ hmem with hp | hp <;> omega
    rw [hget, h, if_neg houtside, Buffer.text_getD hw hi]
    rfl
  · rw [hlen, hget, Nat.add_sub_cancel' (Nat.le_of_lt hlt), h, if_pos hend]

def Tok.chars : Tok (List Byte) → List Byte
  | .sym x => [x.char]
  | .append => [Symbol.gt.char, Symbol.gt.char]
  | .word w => w

def render (ts : List (Tok (List Byte))) : List Byte := ts.flatMap fun t => t.chars ++ [32]

theorem render_spells {ts : List (Tok (List Byte))} (h : ∀ w, .word w ∈ ts → IsWord w) :
    Spells (render ts) ts := by
  induction ts with
  | nil => exact .nil
  | cons t ts ih =>
    have hblank : Spells (32 :: render ts) ts :=
      .space (by decide) (ih fun w hw => h w (mem_cons_of_mem _ hw))
    rw [render, flatMap_cons, append_assoc]
    cases t with
    | sym x =>
      refine .sym (fun _ hhead => ?_) hblank
      exact absurd (Option.some.inj hhead) (by decide)
    | append => exact .append hblank
    | word w =>
      refine .word (h w mem_cons_self) (fun c hc => ?_) hblank
      cases hc
      decide

theorem render_zero {ts : List (Tok (List Byte))} (h : ∀ w, .word w ∈ ts → 0 ∉ w) :
    0 ∉ render ts := by
  intro hzero
  obtain ⟨t, ht, hmem⟩ := mem_flatMap.mp hzero
  rcases mem_append.mp hmem with hmem | hmem
  · cases t with
    | sym x => cases x <;> revert hmem <;> decide
    | append => revert hmem; decide
    | word w => exact h w ht hmem
  · revert hmem
    decide

theorem mem_enclose {c : Cmd (List Byte)} {ts : List (Tok (List Byte))} {w : List Byte} :
    .word w ∈ c.enclose k ts ↔ .word w ∈ ts := by
  rw [Cmd.enclose]
  split <;> simp

theorem print_plain (c : Cmd (List Byte)) (hc : c.Printable) {w : List Byte}
    (hw : .word w ∈ c.print) : Plain w := by
  induction c with
  | exec argv =>
    simp only [Cmd.print, mem_map, Tok.word.injEq, exists_eq_right] at hw
    exact hc.2 w hw
  | redir cmd file mode fd ih =>
    simp only [Cmd.print, mem_append, mem_enclose, mem_cons, reduceCtorEq,
      Tok.word.injEq, not_mem_nil, or_false, false_or] at hw
    rcases hw with hw | rfl
    · exact ih hc.1 hw
    · exact hc.2.1
  | pipe left right ihleft ihright | list left right ihleft ihright =>
    simp only [Cmd.print, mem_append, mem_enclose, mem_cons, reduceCtorEq, false_or] at hw
    rcases hw with hw | hw
    · exact ihleft hc.1 hw
    · exact ihright hc.2 hw
  | back cmd ih =>
    simp only [Cmd.print, mem_append, mem_enclose, mem_cons, reduceCtorEq,
      not_mem_nil, or_false] at hw
    exact ih hc hw

theorem exists_spells (c : Cmd (List Byte)) (hc : c.Printable) :
    ∃ b : Buffer, Spells b.str c.print := by
  have hzero : 0 ∉ render c.print := render_zero fun w hw => (print_plain c hc hw).2
  refine ⟨⟨render c.print ++ [0], by simp⟩, ?_⟩
  rw [Buffer.str, before_stop hzero]
  exact render_spells fun w hw => (print_plain c hc hw).1

/-- A printable tree has command lines, and from each of them, whatever white space it has, the
parser returns the tree; every word, read from the buffer as a C string, is the word of the tree.
All terminators are written inside the buffer and outside of the words. -/
theorem print_parse (c : Cmd (List Byte)) (hc : c.Printable) :
    (∃ b : Buffer, Spells b.str c.print) ∧
    ∀ (b : Buffer) (fuel : Nat), Spells b.str c.print → 4 * b.es + 4 ≤ fuel →
      ∃ cmd m, parsecmd b fuel = .ok cmd m ∧ cmd.map (cstring m.bytes) = c ∧
        ∀ p ∈ m.writes, p < b.bytes.length ∧ ∀ w ∈ cmd.words, p < w.q ∨ w.eq ≤ p := by
  refine ⟨exists_spells c hc, fun b fuel hspells hfuel => ?_⟩
  obtain ⟨ts, hts⟩ := b.exists_scans 0 (Nat.zero_le _)
  have hline : Derives .line c.print c := (print_derives c hc).mono (level_le c)
  rw [hspells.unique hts.spells] at hline
  obtain ⟨cmd, hcmd, hmap⟩ := hline.of_map
  have hspan : ∀ w ∈ cmd.words, b.IsSpan w := fun w hw => hts.isSpan (hcmd.words hw)
  have hstart : (⟨b.bytes, []⟩ : Store).Cut b.bytes := fun i => by
    rw [if_neg not_mem_nil]
  obtain ⟨hcut, hwrites⟩ := nulterminate_cut hstart cmd
  have hends : ∀ p ∈ (nulterminate cmd ⟨b.bytes, []⟩).writes, ∃ w ∈ cmd.words, p = w.eq :=
    fun p hp => ((hwrites p).mp hp).resolve_left not_mem_nil
  refine ⟨cmd, _, parsecmd_of_derives hfuel hts hcmd, ?_, fun p hp => ?_⟩
  · rw [← hmap]
    refine map_congr_words cmd fun w hw => hcut.cstring_eq (hspan w hw) ?_ fun p hp => ?_
    · exact (hwrites w.eq).mpr (.inr ⟨w, hw, rfl⟩)
    · obtain ⟨v, hv, rfl⟩ := hends p hp
      exact (hspan v hv).apart (hspan w hw)
  · obtain ⟨v, hv, rfl⟩ := hends p hp
    exact ⟨Nat.lt_of_le_of_lt (hspan v hv).2.le_es b.es_lt,
      fun w hw => (hspan v hv).apart (hspan w hw)⟩

/-- `a > b & ; ( c | ) < d`. -/
def sample : Cmd (List Byte) :=
  .list (.back (.redir (.exec [[97]]) [98] 513 .output))
    (.redir (.pipe (.exec [[99]]) (.exec [])) [100] 0 .input)

theorem sample_read_back : ∃ b cmd m, Spells b.str sample.print ∧
    parsecmd b (4 * b.es + 4) = .ok cmd m ∧ cmd.map (cstring m.bytes) = sample := by
  have hplain : ∀ c : Byte, inWord c = true → c ≠ 0 → Plain [c] := fun c hc hne =>
    ⟨⟨nofun, by simpa using hc⟩, by simpa using Ne.symm hne⟩
  have hprintable : sample.Printable := by
    refine ⟨⟨⟨by decide, ?_⟩, hplain 98 (by decide) (by decide), rfl⟩, ⟨⟨by decide, ?_⟩,
      by decide, nofun⟩, hplain 100 (by decide) (by decide), rfl⟩
    · intro w hw
      rw [mem_singleton.mp hw]
      exact hplain 97 (by decide) (by decide)
    · intro w hw
      rw [mem_singleton.mp hw]
      exact hplain 99 (by decide) (by decide)
  obtain ⟨b, hb⟩ := (print_parse sample hprintable).1
  obtain ⟨cmd, m, hrun, hmap, -⟩ := (print_parse sample hprintable).2 b _ hb (Nat.le_refl _)
  exact ⟨b, cmd, m, hb, hrun, hmap⟩

end Xv6.Shell
