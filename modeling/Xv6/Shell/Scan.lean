import Xv6.Lib.Follow
import Xv6.Shell.Grammar

/-!
# Lexing

`gettoken` reads the tokens that spell the string, in order, and `peek` looks at the next one.
-/

namespace Xv6.Shell

open Lib Fs List Bool

theorem symbolOf_char (x : Symbol) : symbolOf x.char = some x := by
  cases x <;> decide

theorem char_of_symbolOf {c : Byte} {x : Symbol} (h : symbolOf c = some x) : c = x.char := by
  have hfound := find?_some h
  exact (eq_of_beq hfound).symm

theorem char_inj {x y : Symbol} (h : x.char = y.char) : x = y := by
  have hx := symbolOf_char x
  rw [h, symbolOf_char, Option.some.injEq] at hx
  exact hx.symm

theorem not_inWord_char (x : Symbol) : inWord x.char = false := by
  rw [inWord, symbolOf_char, Option.isNone_some, Bool.and_false]

theorem not_isSpace_char (x : Symbol) : isSpace x.char = false := by
  cases x <;> decide

theorem not_inWord_of_isSpace {c : Byte} (h : isSpace c = true) : inWord c = false := by
  rw [inWord, h, Bool.not_true, Bool.false_and]

/-- Whether the next token is one of the symbols; `>` stands for `>>` as well. -/
def heads {W : Type} (toks : List Symbol) : List (Tok W) → Bool
  | .sym x :: _ => toks.contains x
  | .append :: _ => toks.contains .gt
  | _ => false

theorem heads_word {W : Type} (toks : List Symbol) (w : W) (ts : List (Tok W)) :
    heads toks (.word w :: ts) = false := rfl

namespace Buffer

variable {b : Buffer} {cond : Byte → Bool} {p q e : Nat} {ts : List (Tok Span)} {t : Tok Span}

def rest (b : Buffer) (p : Nat) : List Byte := b.str.drop p

def text (b : Buffer) (w : Span) : List Byte := (b.rest w.q).take (w.eq - w.q)

theorem bytes_eq (b : Buffer) : ∃ r, b.bytes = b.str ++ 0 :: r := exists_eq_before b.terminated

theorem es_lt (b : Buffer) : b.es < b.bytes.length := length_before_lt_iff.mpr b.terminated

theorem deref_es (b : Buffer) : b.deref b.es = 0 := by
  obtain ⟨r, hr⟩ := b.bytes_eq
  simp [deref, hr, es, getD_eq_getElem?_getD]

theorem rest_cons (hp : p < b.es) : b.rest p = b.deref p :: b.rest (p + 1) := by
  obtain ⟨r, hr⟩ := b.bytes_eq
  have hlen : p < b.str.length := hp
  have hget : b.deref p = b.str[p] := by
    rw [deref, hr, getD_eq_getElem?_getD, getElem?_append_left hlen,
      getElem?_eq_getElem hlen, Option.getD_some]
  rw [rest, rest, drop_eq_getElem_cons hlen, hget]

@[simp] theorem rest_es (b : Buffer) : b.rest b.es = [] := drop_length

theorem rest_head {c : Byte} (hp : p ≤ b.es) (hc : (b.rest p).head? = some c) :
    p < b.es ∧ c = b.deref p := by
  by_cases hlt : p < b.es
  · rw [rest_cons hlt, head?_cons, Option.some.injEq] at hc
    exact ⟨hlt, hc.symm⟩
  · rw [show p = b.es by omega, rest_es] at hc
    cases hc

theorem deref_ne_zero (hp : p < b.es) : b.deref p ≠ 0 := by
  have hmem : b.deref p ∈ b.rest p := by
    rw [rest_cons hp]
    exact mem_cons_self
  intro hzero
  rw [hzero] at hmem
  exact notMem_before (mem_of_mem_drop hmem)

theorem lt_of_deref (hp : p ≤ b.es) (hc : b.deref p ≠ 0) : p < b.es := by
  refine Nat.lt_of_le_of_ne hp fun heq => hc ?_
  rw [heq, deref_es]

theorem rest_eq_text (hq : q ≤ e) : b.rest q = b.text ⟨q, e⟩ ++ b.rest e := by
  have hdrop : b.rest e = (b.rest q).drop (e - q) := by
    rw [rest, rest, drop_drop, Nat.add_sub_cancel' hq]
  rw [hdrop, text, take_append_drop]

/-- The characters from `p` to `e`, and no longer, pass the test. -/
structure Stretch (b : Buffer) (cond : Byte → Bool) (p e : Nat) : Prop where
  le : p ≤ e
  le_es : e ≤ b.es
  all : ∀ i, p ≤ i → i < e → cond (b.deref i) = true
  stop : e < b.es → cond (b.deref e) = false

theorem advanceFor_stretch (b : Buffer) (cond : Byte → Bool) :
    ∀ rounds p, p ≤ b.es → b.es - p ≤ rounds → Stretch b cond p (b.advanceFor cond rounds p) := by
  intro rounds
  induction rounds with
  | zero =>
    intro p hp hrounds
    have heq : p = b.es := by omega
    exact ⟨Nat.le_refl p, hp, fun i hi hlt => absurd hlt (by simp only [advanceFor]; omega),
      fun hlt => absurd hlt (by simp only [advanceFor]; omega)⟩
  | succ rounds ih =>
    intro p hp hrounds
    rw [advanceFor]
    split
    · case isTrue hc =>
      rw [and_eq_true, decide_eq_true_iff] at hc
      have hrest := ih (p + 1) hc.1 (by omega)
      refine ⟨by have := hrest.le; omega, hrest.le_es, fun i hi hlt => ?_, hrest.stop⟩
      by_cases heq : i = p
      · rw [heq]
        exact hc.2
      · exact hrest.all i (by omega) hlt
    · case isFalse hc =>
      refine ⟨Nat.le_refl p, hp, fun i hi hlt => absurd hlt (by omega), fun hlt => ?_⟩
      simpa [hlt] using hc

theorem advance_stretch (cond : Byte → Bool) (hp : p ≤ b.es) :
    Stretch b cond p (b.advance cond p) :=
  advanceFor_stretch b cond _ p hp (Nat.le_refl _)

theorem advance_of_stop (hstop : p < b.es → cond (b.deref p) = false) : b.advance cond p = p := by
  rw [advance]
  cases hk : b.es - p with
  | zero => rfl
  | succ k => simp [advanceFor, hstop (by omega)]

theorem advance_advance (hp : p ≤ b.es) : b.advance cond (b.advance cond p) = b.advance cond p :=
  advance_of_stop (advance_stretch cond hp).stop

/-- Between `q` and `e` stands a token; none at the end of the string. -/
inductive Reads (b : Buffer) : Option (Tok Span) → Nat → Nat → Prop where
  | stop : Reads b none b.es b.es
  | sym {x : Symbol} {q : Nat} (hq : q < b.es) (hx : b.deref q = x.char)
      (hgt : x = .gt → b.deref (q + 1) ≠ Symbol.gt.char) : Reads b (some (.sym x)) q (q + 1)
  | append {q : Nat} (hq : q + 1 < b.es) (hfirst : b.deref q = Symbol.gt.char)
      (hsecond : b.deref (q + 1) = Symbol.gt.char) : Reads b (some .append) q (q + 2)
  | word {q e : Nat} (hlt : q < e) (hword : Stretch b inWord q e) :
      Reads b (some (.word ⟨q, e⟩)) q e

theorem Reads.le_es {t : Option (Tok Span)} (h : Reads b t q e) : e ≤ b.es := by
  cases h with
  | stop => exact Nat.le_refl _
  | sym hq _ _ => exact hq
  | append hq _ _ => exact hq
  | word _ hword => exact hword.le_es

theorem Reads.lt (h : Reads b (some t) q e) : q < e := by
  cases h with
  | sym _ _ _ => exact Nat.lt_succ_self q
  | append _ _ _ => omega
  | word hlt _ => exact hlt

theorem token_reads (hq : q ≤ b.es) (hspace : q < b.es → isSpace (b.deref q) = false) :
    Reads b (b.token q).1 q (b.token q).2 := by
  have hlt : ∀ x : Symbol, symbolOf (b.deref q) = some x → q < b.es := fun x hx =>
    lt_of_deref hq (by rw [char_of_symbolOf hx]; cases x <;> decide)
  rw [token]
  split
  · case _ hx =>
    split
    · case isTrue hsecond =>
      have hq' : q + 1 < b.es := lt_of_deref (hlt _ hx) (by rw [hsecond]; decide)
      exact .append hq' (char_of_symbolOf hx) hsecond
    · case isFalse hsecond =>
      exact .sym (hlt _ hx) (char_of_symbolOf hx) fun _ => hsecond
  · case _ x hne hx =>
    exact .sym (hlt _ hx) (char_of_symbolOf hx) fun heq => (hne heq).elim
  · case _ hnone =>
    split
    · case isTrue hzero =>
      have heq : q = b.es := by
        by_contra hne
        exact deref_ne_zero (by omega) hzero
      rw [heq]
      exact .stop
    · case isFalse hzero =>
      have hlt : q < b.es := lt_of_deref hq hzero
      have hword := advance_stretch inWord hq
      refine .word (Nat.lt_of_le_of_ne hword.le fun heq => ?_) hword
      have hstop := hword.stop (heq ▸ hlt)
      rw [← heq, inWord, hnone, hspace hlt] at hstop
      cases hstop

theorem gettoken_eq (b : Buffer) (p : Nat) : b.gettoken p = ((b.token (b.advance isSpace p)).1,
      b.advance isSpace (b.token (b.advance isSpace p)).2) := rfl

theorem gettoken_advance (hp : p ≤ b.es) : b.gettoken (b.advance isSpace p) = b.gettoken p := by
  rw [gettoken_eq, gettoken_eq, advance_advance hp]

theorem gettoken_reads (hp : p ≤ b.es) :
    ∃ e, Reads b (b.gettoken p).1 (b.advance isSpace p) e ∧ e ≤ b.es ∧
      (b.gettoken p).2 = b.advance isSpace e := by
  have hspace := advance_stretch isSpace hp
  have hreads := token_reads hspace.le_es hspace.stop
  exact ⟨_, hreads, hreads.le_es, rfl⟩

/-- What `gettoken` returns from `p` on. -/
inductive Scans (b : Buffer) : Nat → List (Tok Span) → Prop where
  | nil {p : Nat} (hp : p ≤ b.es) (hnone : (b.gettoken p).1 = none) : Scans b p []
  | cons {p : Nat} {t : Tok Span} {ts : List (Tok Span)} (hp : p ≤ b.es)
      (htok : (b.gettoken p).1 = some t) (hrest : Scans b (b.gettoken p).2 ts) :
      Scans b p (t :: ts)

theorem Scans.le_es (h : Scans b p ts) : p ≤ b.es := by
  cases h with
  | nil hp _ => exact hp
  | cons hp _ _ => exact hp

theorem gettoken_lt (hp : p ≤ b.es) (ht : (b.gettoken p).1 = some t) :
    p < (b.gettoken p).2 ∧ (b.gettoken p).2 ≤ b.es := by
  obtain ⟨e, hreads, he, hnext⟩ := gettoken_reads hp
  rw [ht] at hreads
  have hskip := (advance_stretch isSpace hp).le
  have hstretch := advance_stretch isSpace he
  have hlt := hreads.lt
  rw [hnext]
  exact ⟨by have := hstretch.le; omega, hstretch.le_es⟩

theorem exists_scans (b : Buffer) (p : Nat) (hp : p ≤ b.es) : ∃ ts, Scans b p ts := by
  cases ht : (b.gettoken p).1 with
  | none => exact ⟨[], .nil hp ht⟩
  | some t =>
    obtain ⟨hlt, hle⟩ := gettoken_lt hp ht
    obtain ⟨ts, hts⟩ := exists_scans b (b.gettoken p).2 hle
    exact ⟨t :: ts, .cons hp ht hts⟩
termination_by b.es - p

theorem Scans.length_le (h : Scans b p ts) : ts.length ≤ b.es - p := by
  induction h with
  | nil _ _ => exact Nat.zero_le _
  | cons hp htok _ ih =>
    have hlt := gettoken_lt hp htok
    rw [length_cons]
    omega

theorem Scans.nil_iff (h : Scans b p ts) : b.advance isSpace p = b.es ↔ ts = [] := by
  obtain ⟨e, hreads, -, -⟩ := gettoken_reads h.le_es
  cases h with
  | nil hp hnone =>
    rw [hnone] at hreads
    generalize hq : b.advance isSpace p = q at hreads
    cases hreads
    exact iff_of_true rfl rfl
  | cons hp htok hrest =>
    rw [htok] at hreads
    have hlt := hreads.lt
    have hle := hreads.le_es
    exact iff_of_false (by omega) nofun

theorem Scans.advance (h : Scans b p ts) : Scans b (b.advance isSpace p) ts := by
  have hskip := advance_stretch isSpace h.le_es
  have hsame := gettoken_advance h.le_es
  cases h with
  | nil hp hnone => exact .nil hskip.le_es (by rwa [hsame])
  | cons hp htok hrest => exact .cons hskip.le_es (by rwa [hsame]) (by rwa [hsame])

theorem Scans.gettoken (h : Scans b p ts) :
    (b.gettoken p).1 = ts.head? ∧ Scans b (b.gettoken p).2 ts.tail := by
  cases h with
  | cons hp htok hrest => exact ⟨htok, hrest⟩
  | nil hp hnone =>
    refine ⟨hnone, ?_⟩
    obtain ⟨e, hreads, he, hnext⟩ := gettoken_reads hp
    rw [hnone] at hreads
    have hend : b.advance isSpace p = e := by
      generalize b.advance isSpace p = q at hreads
      cases hreads
      rfl
    rw [hnext, ← hend, advance_advance hp]
    exact (Scans.nil hp hnone).advance

theorem any_char (toks : List Symbol) (x : Symbol) :
    (toks.any fun y => y.char == x.char) = toks.contains x := by
  rw [Bool.eq_iff_iff, any_eq_true, contains_iff_mem]
  constructor
  · intro ⟨y, hy, hchar⟩
    rwa [← char_inj (eq_of_beq hchar)]
  · intro hx
    exact ⟨x, hx, beq_self_eq_true _⟩

theorem Scans.peek (h : Scans b p ts) (toks : List Symbol) : (b.peek toks p).1 = heads toks ts := by
  obtain ⟨e, hreads, -, -⟩ := gettoken_reads h.le_es
  have hhead := h.gettoken.1
  rw [hhead] at hreads
  simp only [Buffer.peek]
  generalize b.advance isSpace p = q at hreads
  cases ts with
  | nil =>
    cases hreads
    simp [deref_es, heads]
  | cons t ts =>
    cases hreads with
    | sym hq hx _ =>
      rw [hx, any_char, heads, bne_iff_ne.mpr (hx ▸ deref_ne_zero hq), Bool.true_and]
    | append hq hfirst _ =>
      rw [hfirst, any_char, heads,
        bne_iff_ne.mpr (hfirst ▸ deref_ne_zero (Nat.lt_of_succ_lt hq)), Bool.true_and]
    | word hlt hword =>
      have hin := hword.all q (Nat.le_refl q) hlt
      rw [heads_word, and_eq_false_iff]
      refine .inr (any_eq_false.mpr fun y _ hy => ?_)
      rw [← eq_of_beq hy, not_inWord_char] at hin
      cases hin

theorem Stretch.spells {p q : Nat} {ts : List (Tok (List Byte))} (h : Stretch b isSpace p q)
    (hspells : Spells (b.rest q) ts) : Spells (b.rest p) ts := by
  by_cases heq : p = q
  · rwa [heq]
  · have hlt : p < q := Nat.lt_of_le_of_ne h.le heq
    have hrest : Stretch b isSpace (p + 1) q :=
      ⟨hlt, h.le_es, fun i hi => h.all i (by omega), h.stop⟩
    rw [rest_cons (Nat.lt_of_lt_of_le hlt h.le_es)]
    exact .space (h.all p (Nat.le_refl p) hlt) (hrest.spells hspells)
termination_by q - p

variable {w : Span}

theorem mem_text {c : Byte} (hle : w.eq ≤ b.es) (hc : c ∈ b.text w) :
    ∃ i, w.q ≤ i ∧ i < w.eq ∧ c = b.deref i := by
  obtain ⟨k, hk, hget⟩ := mem_take_iff_getElem.mp hc
  have hlen : (b.rest w.q).length = b.es - w.q := length_drop
  have hlt : w.q + k < b.es := by omega
  refine ⟨w.q + k, by omega, by omega, ?_⟩
  have hcons := rest_cons hlt
  have hdrop : b.rest (w.q + k) = (b.rest w.q).drop k := by rw [rest, rest, drop_drop]
  rw [hdrop, drop_eq_getElem_cons (by omega), cons.injEq, hget] at hcons
  exact hcons.1

def IsSpan (b : Buffer) (w : Span) : Prop := w.q < w.eq ∧ Stretch b inWord w.q w.eq

theorem IsSpan.length_text (h : b.IsSpan w) : (b.text w).length = w.eq - w.q := by
  have hle := h.2.le_es
  rw [text, length_take, rest, length_drop]
  exact Nat.min_eq_left (by rw [es] at hle; omega)

theorem IsSpan.isWord (h : b.IsSpan w) : IsWord (b.text w) := by
  have hlen := h.length_text
  obtain ⟨hlt, hword⟩ := h
  constructor
  · intro hnil
    rw [hnil, length_nil] at hlen
    omega
  · intro c hc
    obtain ⟨i, hi, hlt, rfl⟩ := mem_text hword.le_es hc
    exact hword.all i hi hlt

theorem Reads.spells {ts : List (Tok (List Byte))} (h : Reads b (some t) q e)
    (hrest : Spells (b.rest e) ts) : Spells (b.rest q) (t.map b.text :: ts) := by
  cases h with
  | sym hq hx hgt =>
    rw [rest_cons hq, hx]
    refine .sym (fun heq hhead => hgt heq ?_) hrest
    exact (rest_head hq hhead).2.symm
  | append hq hfirst hsecond =>
    rw [rest_cons (Nat.lt_of_succ_lt hq), rest_cons hq, hfirst, hsecond]
    exact .append hrest
  | word hlt hword =>
    rw [rest_eq_text hword.le]
    refine .word (IsSpan.isWord ⟨hlt, hword⟩) (fun c hc => ?_) hrest
    obtain ⟨he, rfl⟩ := rest_head hword.le_es hc
    exact hword.stop he

theorem Scans.spells (h : Scans b p ts) : Spells (b.rest p) (ts.map (Tok.map b.text)) := by
  induction h with
  | nil hp hnone =>
    have hempty := (Scans.nil hp hnone).nil_iff.mpr rfl
    refine (advance_stretch isSpace hp).spells ?_
    rw [hempty, rest_es]
    exact .nil
  | cons hp htok _ ih =>
    obtain ⟨e, hreads, he, hnext⟩ := gettoken_reads hp
    rw [htok] at hreads
    rw [hnext] at ih
    exact (advance_stretch isSpace hp).spells
      (hreads.spells ((advance_stretch isSpace he).spells ih))

theorem Scans.isSpan (h : Scans b p ts) (hw : .word w ∈ ts) : b.IsSpan w := by
  induction h with
  | nil _ _ => cases hw
  | cons hp htok _ ih =>
    cases hw with
    | tail _ hw => exact ih hw
    | head =>
      obtain ⟨e, hreads, -, -⟩ := gettoken_reads hp
      rw [htok] at hreads
      cases hreads with
      | word hlt hword => exact ⟨hlt, hword⟩

end Buffer

theorem IsWord.span {w s : List Byte} (hw : IsWord w)
    (hstop : ∀ c, s.head? = some c → inWord c = false) :
    (w ++ s).takeWhile inWord = w ∧ (w ++ s).dropWhile inWord = s := by
  have hs : s.takeWhile inWord = [] ∧ s.dropWhile inWord = s := by
    cases s with
    | nil => exact ⟨rfl, rfl⟩
    | cons c s =>
      have hc := hstop c rfl
      simp [hc]
  rw [takeWhile_append_of_pos hw.2, dropWhile_append_of_pos hw.2, hs.1, hs.2, append_nil]
  exact ⟨rfl, rfl⟩

theorem IsWord.head {w s : List Byte} (hw : IsWord w) :
    ∃ c r, w ++ s = c :: r ∧ inWord c = true := by
  obtain ⟨hne, hin⟩ := hw
  cases w with
  | nil => exact absurd rfl hne
  | cons c w => exact ⟨c, w ++ s, rfl, hin c mem_cons_self⟩

section

variable {c : Byte} {x : Symbol} {s w : List Byte} {ts us : List (Tok (List Byte))}

theorem Spells.space_inv (hc : isSpace c = true) (h : Spells (c :: s) us) : Spells s us := by
  generalize hs : c :: s = r at h
  cases h with
  | nil => cases hs
  | space _ hrest =>
    cases hs
    exact hrest
  | sym _ _ | append _ =>
    cases hs
    rw [not_isSpace_char] at hc
    cases hc
  | word hw _ _ =>
    obtain ⟨d, r, heq, hd⟩ := hw.head
    rw [heq, cons.injEq] at hs
    rw [← hs.1, not_inWord_of_isSpace hc] at hd
    cases hd

theorem Spells.sym_inv (hgt : x = .gt → s.head? ≠ some Symbol.gt.char)
    (h : Spells (x.char :: s) us) : ∃ us', us = .sym x :: us' ∧ Spells s us' := by
  generalize hs : x.char :: s = r at h
  cases h with
  | nil => cases hs
  | space hc _ =>
    rw [cons.injEq] at hs
    rw [← hs.1, not_isSpace_char] at hc
    cases hc
  | sym _ hrest =>
    rw [cons.injEq] at hs
    obtain ⟨hx, rfl⟩ := hs
    exact ⟨_, by rw [char_inj hx], hrest⟩
  | append _ =>
    rw [cons.injEq] at hs
    obtain ⟨hx, rfl⟩ := hs
    exact absurd rfl (hgt (char_inj hx))
  | word hw _ _ =>
    obtain ⟨d, r, heq, hd⟩ := hw.head
    rw [heq, cons.injEq] at hs
    rw [← hs.1, not_inWord_char] at hd
    cases hd

theorem Spells.append_inv (h : Spells (Symbol.gt.char :: Symbol.gt.char :: s) us) :
    ∃ us', us = .append :: us' ∧ Spells s us' := by
  generalize hs : Symbol.gt.char :: Symbol.gt.char :: s = r at h
  cases h with
  | nil => cases hs
  | space hc _ =>
    rw [cons.injEq] at hs
    rw [← hs.1, not_isSpace_char] at hc
    cases hc
  | sym hgt _ =>
    rw [cons.injEq] at hs
    obtain ⟨hx, rfl⟩ := hs
    exact absurd rfl (hgt (char_inj hx).symm)
  | append hrest =>
    cases hs
    exact ⟨_, rfl, hrest⟩
  | word hw _ _ =>
    obtain ⟨d, r, heq, hd⟩ := hw.head
    rw [heq, cons.injEq] at hs
    rw [← hs.1, not_inWord_char] at hd
    cases hd

theorem Spells.word_inv (hw : IsWord w) (hstop : ∀ c, s.head? = some c → inWord c = false)
    (h : Spells (w ++ s) us) : ∃ us', us = .word w :: us' ∧ Spells s us' := by
  generalize hs : w ++ s = r at h
  obtain ⟨c, r', hcons, hc⟩ := hw.head (s := s)
  cases h with
  | nil => rw [hcons] at hs; cases hs
  | space hspace _ =>
    rw [hcons, cons.injEq] at hs
    rw [hs.1, not_inWord_of_isSpace hspace] at hc
    cases hc
  | sym _ _ | append _ =>
    rw [hcons, cons.injEq] at hs
    rw [hs.1, not_inWord_char] at hc
    cases hc
  | word hw' hstop' hrest =>
    have hspan := hw.span hstop
    rw [hs, (hw'.span hstop').1, (hw'.span hstop').2] at hspan
    obtain ⟨rfl, rfl⟩ := hspan
    exact ⟨_, rfl, hrest⟩

theorem Spells.unique (hts : Spells s ts) (hus : Spells s us) : ts = us := by
  induction hts generalizing us with
  | nil =>
    generalize hs : ([] : List Byte) = s at hus
    cases hus with
    | nil => rfl
    | word hw _ _ =>
      obtain ⟨c, r, heq, -⟩ := hw.head
      rw [heq] at hs
      cases hs
    | _ => cases hs
  | space hc _ ih => exact ih (hus.space_inv hc)
  | sym hgt _ ih =>
    obtain ⟨us', rfl, hrest⟩ := hus.sym_inv hgt
    rw [ih hrest]
  | append _ ih =>
    obtain ⟨us', rfl, hrest⟩ := hus.append_inv
    rw [ih hrest]
  | word hw hstop _ ih =>
    obtain ⟨us', rfl, hrest⟩ := hus.word_inv hw hstop
    rw [ih hrest]

end

/-- How the operations take tokens off a list.  `E` says whether the program may panic; it may
not spin. -/
def reading (E : Prop) : Protocol ParseSig (List (Tok Span)) where
  pre
    | .panic _, _ => E
    | .spin, _ => False
    | _, _ => True
  post
    | .peek toks, ts, r, us => r = heads toks ts ∧ us = ts
    | .gettoken, ts, r, us => r = ts.head? ∧ us = ts.tail
    | .panic _, _, _, _ => False
    | .spin, _, _, _ => False

theorem reading_follows (b : Buffer) (E : Prop) :
    (reading E).Follows b.handler b.Scans fun _ => E := by
  intro o p ts hscans hpre
  cases o with
  | peek toks =>
    exact Act.wp_of_ok rfl ⟨ts, ⟨hscans.peek toks, rfl⟩, hscans.advance⟩
  | gettoken =>
    exact Act.wp_of_ok rfl ⟨ts.tail, ⟨hscans.gettoken.1, rfl⟩, hscans.gettoken.2⟩
  | panic msg => exact Act.wp_panic.mpr hpre
  | spin => exact hpre.elim

end Xv6.Shell
