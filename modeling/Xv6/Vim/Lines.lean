import Xv6.Vim.Modes

/-!
# The list of lines

The invariant that the editor's functions rely on: the lines are counted and numbered in
order, and each knows the length of its text.  It holds in a run as long as the file and the
keys avoid the places where the source breaks it.
-/

namespace Xv6.Vim

open Lib Console List

variable {l : Line} {t : Ctext} {s : List Byte} {buf : List Byte}

/-- `len` is the length of the text, and the cells behind the text are empty. -/
structure Line.Tidy (l : Line) : Prop where
  len : l.len = l.text.length
  le : l.len ≤ 80
  empty : ∀ k, l.text.length ≤ k → k < 80 → l.c[k]? = some EMPTY_CHAR

structure Ctext.Wf (t : Ctext) : Prop where
  lines : t.lines = t.nodes.length
  lineno : t.nodes.map Line.lineno = List.range' 1 t.nodes.length
  para : (t.nodes.map Line.para).Pairwise (· ≤ ·)
  tidy : ∀ l ∈ t.nodes, l.Tidy

/-- No line of the file has 80 characters, and the `j`-th newline lies in the `j`-th
stretch of 80 bytes. -/
structure Aligned (buf : List Byte) : Prop where
  nul : EMPTY_CHAR ∉ buf
  short : ∀ p ∈ pieces NL [] buf, p.length < 80
  newlines : ∀ i, buf[i]? = some NL → i / 80 + 1 = (buf.take (i + 1)).count NL

namespace Line

theorem Tidy.stores (h : l.Tidy) : l.Stores l.text := by
  refine ⟨notMem_before, ?_⟩
  have hle : l.text.length ≤ 80 := by
    rw [← h.len]
    exact h.le
  rw [take_of_length_le hle]
  apply ext_getElem?
  intro k
  by_cases hk : k < l.text.length
  · have htake : l.c.take l.text.length = l.text := by
      rw [text, take_before _ (Nat.le_refl _), take_length]
    have hget : (l.c.take l.text.length)[k]? = l.c[k]? := getElem?_take_of_lt hk
    rw [getElem?_append_left hk, ← hget, htake]
  · rw [getElem?_append_right (by omega)]
    by_cases h80 : k < 80
    · rw [h.empty k (by omega) h80, getElem?_replicate, if_pos (by omega)]
    · rw [getElem?_eq_none (by rw [l.size]; omega),
        getElem?_eq_none (by rw [length_replicate]; omega)]

theorem Stores.tidy (h : l.Stores s) (hs : s.length ≤ 80) (hlen : l.len = s.length) : l.Tidy := by
  have htext : l.text = s := by rw [h.text_eq, take_of_length_le hs]
  refine ⟨by rw [htext, hlen], by omega, ?_⟩
  intro k hk hk80
  rw [htext] at hk
  rw [h.2, take_of_length_le hs, getElem?_append_right hk, getElem?_replicate,
    if_pos (by omega)]

theorem Stores.tidy_measure (h : l.Stores s) (hs : s.length < 80) : l.measure.Tidy := by
  have hstores : l.measure.Stores s := h
  refine hstores.tidy (by omega) ?_
  change l.strlen = s.length
  rw [strlen, h.string_eq hs]

theorem Stores.poke_mid (h : l.Stores s) (hs : s.length < 80) {k : Nat} (hk : k < s.length)
    {v : Byte} (hv : v ≠ EMPTY_CHAR) : (l.poke k v).Stores (s.set k v) := by
  refine ⟨?_, ?_⟩
  · intro hm
    rcases mem_or_eq_of_mem_set hm with hm | hm
    · exact h.1 hm
    · exact hv hm.symm
  · rw [poke, if_pos (by omega)]
    change l.c.set k v = _
    rw [h.2, take_of_length_le (by omega), take_of_length_le (by simp; omega),
      set_append_left _ _ hk, length_set]

theorem Tidy.type (h : l.Tidy) {k : Nat} (hk : k ≤ l.text.length) (hk79 : k < 79)
    (hshort : l.text.length < 80) {v : Byte} (hv : v ≠ EMPTY_CHAR) : (l.poke k v).measure.Tidy := by
  rcases Nat.lt_or_eq_of_le hk with hlt | rfl
  · exact (h.stores.poke_mid hshort hlt hv).tidy_measure (by rw [length_set]; exact hshort)
  · exact (h.stores.poke_end hshort hv).tidy_measure (by
      rw [length_append, length_singleton]
      omega)

theorem Tidy.remove_empty (h : l.Tidy) (hempty : l.text = []) (k : Nat) (hk : k < 80) :
    l.remove k hk = l := by
  have hc : l.c = replicate 80 EMPTY_CHAR := by
    have := h.stores.2
    rwa [hempty] at this
  have hlen : l.len = 0 := by rw [h.len, hempty]; rfl
  have hremove : (l.remove k hk).c = l.c := by
    change l.c.take k ++ (l.c ++ [BitVec.ofNat 8 l.len]).drop (k + 1) = l.c
    rw [hc, hlen, take_replicate, show ([BitVec.ofNat 8 0] : List Byte) =
      replicate 1 EMPTY_CHAR from rfl, replicate_append_replicate, drop_replicate,
      replicate_append_replicate]
    congr 1
    omega
  cases l
  simp only [remove, mk.injEq, and_self, and_true]
  exact hremove

end Line

theorem Line.lineno_poke {k : Nat} (hk : k < 84) (v : Byte) :
    (l.poke k v).lineno = l.lineno ∧ (l.poke k v).para = l.para := by
  rw [poke]
  split_ifs <;> exact ⟨rfl, rfl⟩

theorem Line.Reads.lineno_push (h : l.Reads s) (v : Byte) :
    (l.push v).measure.lineno = l.lineno ∧ (l.push v).measure.para = l.para := by
  have hlen : l.len < 84 := by
    rw [h.len, lenAfter]
    split_ifs <;> omega
  exact lineno_poke (l := { l with len := l.len + 1 }) hlen v

def Ctext.Numbered (t : Ctext) : Prop :=
  t.nodes.map Line.lineno = List.range' 1 t.nodes.length ∧
    t.nodes.map Line.para = List.range' 1 t.nodes.length

theorem Ctext.Numbered.last (h : t.Numbered) :
    t.last.lineno = t.init.length + 1 ∧ t.last.para = t.init.length + 1 := by
  have hlen : t.nodes.length = t.init.length + 1 := by simp [nodes]
  have hget : ∀ f : Line → Nat, t.nodes.map f = range' 1 t.nodes.length →
      f t.last = t.init.length + 1 := by
    intro f hf
    have hlast := congrArg (·[t.init.length]?) hf
    simpa [nodes, Nat.add_comm] using hlast
  exact ⟨hget _ h.1, hget _ h.2⟩

theorem Ctext.numbered_of_init {init : List Line} {last : Line} {lines : Nat}
    (hl : init.map Line.lineno = range' 1 init.length)
    (hp : init.map Line.para = range' 1 init.length)
    (hlast : last.lineno = init.length + 1 ∧ last.para = init.length + 1) :
    ({ init, last, lines } : Ctext).Numbered := by
  constructor
  · simp [nodes, hl, hlast.1, range'_concat, Nat.add_comm]
  · simp [nodes, hp, hlast.2, range'_concat, Nat.add_comm]

theorem Ctext.Numbered.init (h : t.Numbered) :
    t.init.map Line.lineno = range' 1 t.init.length ∧
      t.init.map Line.para = range' 1 t.init.length := by
  have hinit : ∀ f : Line → Nat, t.nodes.map f = range' 1 t.nodes.length →
      t.init.map f = range' 1 t.init.length := by
    intro f hf
    have htake := congrArg (take t.init.length) hf
    simpa [nodes, range'_concat] using htake
  exact ⟨hinit _ h.1, hinit _ h.2⟩

/-- The induction of `readfile`, on the rest of the file; `pre` has been read. -/
theorem Ctext.Numbered.readLoop (h : t.Numbered) {pre acc buf : List Byte} (hacc : t.last.Reads acc)
    (hcount : t.init.length = pre.count NL) (hbuf : EMPTY_CHAR ∉ buf)
    (halign : ∀ i, (pre ++ buf)[i]? = some NL → i / 80 + 1 = ((pre ++ buf).take (i + 1)).count NL) :
    (t.readLoop pre.length buf).Numbered := by
  induction buf generalizing t pre acc with
  | nil => exact h
  | cons ch buf ih =>
    obtain ⟨h0, hrest⟩ := not_or.mp (mt mem_cons.mpr hbuf)
    have hpre : pre ++ ch :: buf = (pre ++ [ch]) ++ buf := by simp
    have hlen : pre.length + 1 = (pre ++ [ch]).length := by simp
    rw [readLoop, hlen]
    rw [hpre] at halign
    by_cases hch : ch = NL
    · subst hch
      have hnumber : pre.length / 80 + 1 = t.init.length + 1 := by
        rw [halign pre.length (by simp), hlen, take_left, count_append, hcount,
          count_singleton_self]
      obtain ⟨hl, hp⟩ := h.init
      obtain ⟨-, hpara⟩ := h.last
      refine ih ?_ (reads_newline _ _) ?_ hrest halign
      · rw [readByte_newline]
        refine numbered_of_init ?_ ?_ ?_
        · simp [hl, hnumber, range'_concat, Nat.add_comm]
        · simp [hp, Line.measure, hpara, range'_concat, Nat.add_comm]
        · simp only [length_append, length_singleton, hnumber, hpara]
          exact Line.lineno_poke (show 0 < 84 by omega) NL
      · rw [readByte_newline, count_append, count_singleton_self, ← hcount]
        exact length_append
    · have hpush := hacc.lineno_push ch
      refine ih ?_ (by rw [readByte_char t _ hch]; exact hacc.push (Ne.symm h0)) ?_ hrest halign
      · rw [readByte_char t _ hch]
        exact numbered_of_init h.init.1 h.init.2
          ⟨hpush.1.trans h.last.1, hpush.2.trans h.last.2⟩
      · have hnone : [ch].count NL = 0 :=
          count_eq_zero.mpr fun hm => hch (mem_singleton.mp hm).symm
        rw [readByte_char t _ hch, count_append, hnone]
        exact hcount

theorem Aligned.wf (h : Aligned buf) : (loaded buf).Wf := by
  obtain ⟨hclosed, hlast, hlines⟩ := loaded_lines buf h.nul
  have hnumbered : (loaded buf).Numbered :=
    @Ctext.Numbered.readLoop _ ⟨rfl, rfl⟩ [] [] buf (Line.reads_empty 1 1) rfl h.nul h.newlines
  refine ⟨hlines, hnumbered.1, ?_, ?_⟩
  · rw [hnumbered.2]
    exact pairwise_le_range'
  · intro l hl
    rcases mem_append.mp hl with hl | hl
    · obtain ⟨p, hmem, hp⟩ := exists_closed hclosed hl
      have hshort := h.short p (mem_append_left _ hmem)
      exact hp.stores.tidy (by omega) (by rw [hp.len, if_pos hshort])
    · rw [mem_singleton.mp hl]
      have hp := h.short _ (mem_append_right _ (mem_singleton.mpr rfl))
      exact hlast.stores.tidy (by omega) (by rw [hlast.len, Line.lenAfter, if_pos hp])

namespace Editor

variable {e e' : Editor}

/-- The keys that the list survives: no Enter, `x` only on a line that is empty or full,
and a typed character only where it opens a new line or leaves the line shorter than 80,
without a gap. -/
def Spares (e : Editor) (ev : Event) : Prop :=
  match ev with
  | .key c _ => e.Listening → c ≠ NL ∧
      (e.mode = .readonly → c = ascii 'x' → e.line.text = [] ∨ e.line.text.length = 80) ∧
      (e.mode = .insert → inputfilter c →
        e.opensLine ∨ (e.col ≤ e.line.text.length ∧ e.col < 79 ∧ e.line.text.length < 80))
  | _ => True

end Editor

namespace Ctext

theorem length_modify (i : Nat) (f : Line → Line) (h : i ≤ t.init.length) :
    (t.modify i f).nodes.length = t.nodes.length := by
  rw [nodes_modify h, List.length_modify]

theorem Wf.modify (h : t.Wf) {i : Nat} (hi : i ≤ t.init.length) {f : Line → Line}
    (hlineno : ∀ l, (f l).lineno = l.lineno) (hpara : ∀ l, (f l).para = l.para)
    (htidy : (f (t.get i)).Tidy) : (t.modify i f).Wf := by
  have hmap : ∀ g : Line → Nat, (∀ l, g (f l) = g l) →
      (t.nodes.modify i f).map g = t.nodes.map g := by
    intro g hg
    apply ext_getElem?
    intro j
    simp only [getElem?_map, getElem?_modify]
    cases t.nodes[j]? with
    | none => rfl
    | some l =>
      by_cases hij : i = j <;> simp [hij, hg]
  constructor
  · rw [lines_modify, length_modify i f hi, h.lines]
  · rw [length_modify i f hi, nodes_modify hi, hmap _ hlineno, h.lineno]
  · rw [nodes_modify hi, hmap _ hpara]
    exact h.para
  · intro l hl
    rw [nodes_modify hi] at hl
    obtain ⟨j, hj⟩ := mem_iff_getElem?.mp hl
    by_cases hij : i = j
    · subst hij
      rw [getElem?_modify_eq, getElem?_nodes hi] at hj
      have hl' : f (t.get i) = l := Option.some.inj hj
      rwa [← hl']
    · rw [getElem?_modify_ne _ _ hij] at hj
      exact h.tidy l (mem_of_getElem? hj)

theorem Wf.append (h : t.Wf) {l : Line} (hlineno : l.lineno = t.last.lineno + 1)
    (hpara : l.para = t.last.para) (htidy : l.Tidy) : (t.append l).Wf := by
  have hlen : (t.append l).nodes.length = t.nodes.length + 1 := by simp
  have hlast : t.last.lineno = t.nodes.length := by
    have hget := congrArg (·[t.init.length]?) h.lineno
    simpa [nodes, Nat.add_comm] using hget
  constructor
  · rw [hlen, lines_append, h.lines]
  · rw [hlen, nodes_append, map_append, h.lineno, range'_concat]
    simp [hlineno, hlast, Nat.add_comm]
  · rw [nodes_append, map_append, pairwise_append]
    refine ⟨h.para, by simp, ?_⟩
    intro a ha b hb
    obtain ⟨p, hp, rfl⟩ := mem_map.mp ha
    rw [map_singleton, mem_singleton] at hb
    rw [hb, hpara]
    have hinit := h.para
    rw [nodes, map_append, pairwise_append] at hinit
    rcases mem_append.mp hp with hp | hp
    · exact hinit.2.2 _ (mem_map_of_mem hp) _ (by simp)
    · exact Nat.le_of_eq (congrArg Line.para (mem_singleton.mp hp))
  · intro p hp
    rcases mem_append.mp hp with hp | hp
    · exact h.tidy p hp
    · rwa [mem_singleton.mp hp]

end Ctext

namespace Editor

variable {e e' : Editor} {c : Byte} {junk : Int}

theorem line_mem (e : Editor) : e.line ∈ e.text.nodes := Ctext.get_mem (e.text.index_le _)

theorem Wf.typed (h : e.text.Wf) (hc : c ≠ EMPTY_CHAR)
    (hspares : e.opensLine ∨ (e.col ≤ e.line.text.length ∧ e.col < 79 ∧ e.line.text.length < 80)) :
    (e.typed c).Wf := by
  have hcol := e.col_lt
  have hfields : ∀ l : Line, (l.poke e.col c).measure.lineno = l.lineno ∧
      (l.poke e.col c).measure.para = l.para := fun l => Line.lineno_poke (by omega) c
  rw [Editor.typed]
  split
  case isTrue hopen =>
    refine h.append (hfields _).1 (hfields _).2 ?_
    have hempty := Line.stores_empty (e.text.last.lineno + 1) e.text.last.para
    rw [hopen.1]
    exact (hempty.poke_end (by simp) hc).tidy_measure (by simp)
  case isFalse hopen =>
    obtain ⟨hle, h79, hshort⟩ := hspares.resolve_left hopen
    exact h.modify (e.text.index_le _) (fun l => (hfields l).1) (fun l => (hfields l).2)
      ((h.tidy _ e.line_mem).type hle h79 hshort hc)

theorem Wf.rmch (h : e.text.Wf) (hspares : e.line.text = [] ∨ e.line.text.length = 80) :
    e.rmch.text.Wf := by
  rw [(Draws.rmch e).text]
  change e.removed.Wf
  rw [removed]
  split
  case isFalse => exact h
  case isTrue hlt =>
    have hempty : e.line.text = [] := by
      refine hspares.resolve_right fun h80 => ?_
      rw [Line.strlen, Line.string_eq_text (Line.strlen_lt_iff.mp hlt)] at hlt
      omega
    have htidy := h.tidy _ e.line_mem
    refine h.modify (e.text.index_le _) (fun _ => rfl) (fun _ => rfl) ?_
    change (e.line.remove e.col e.col_lt).Tidy
    rwa [htidy.remove_empty hempty]

theorem Wf.mainKey (h : e.text.Wf) (hlisten : e.Listening)
    (hspares : e.Spares (.key c junk)) : (e.mainKey c junk).text.Wf := by
  obtain ⟨hnl, hx, htype⟩ := hspares hlisten
  have hshow := Draws.showline e
  have hcursor := getcursor_showline e
  have hacts := mainKey_acts e c junk
  generalize e.mainKey c junk = e' at hacts ⊢
  have hsame : ∀ {e' : Editor}, e'.text = e.showline.text → e'.text.Wf := by
    intro e' he'
    rw [he', hshow.text]
    exact h
  cases hacts with
  | move | stop => exact hsame (Moves.cursormove _ _ _).text
  | type hm hc hnl' hk hg hG =>
    rw [text_default (hshow.mode.trans hm) hc, hshow.typed hcursor]
    exact Wf.typed h (inputfilter_ne_empty hc) (htype hm hc)
  | bottom | top => exact hsame (Draws.setcursor _ _).text
  | colon => exact hsame ((Draws.clearcli _).trans (Draws.scrputc _ CMD_LINE 58)).text
  | remove hm hc =>
    refine Wf.rmch (by rw [hshow.text]; exact h) ?_
    rw [hshow.line]
    exact hx hm hc
  | enter hc => exact absurd hc hnl
  | release | insert | ignored => exact hsame rfl

theorem Wf.step (ev : Event) (h : e.text.Wf) (hspares : e.Spares ev) : (e.step ev).text.Wf := by
  have hsame : ∀ {e' : Editor}, e'.text = e.text → e'.text.Wf := by
    intro e' he'
    rw [he']
    exact h
  by_cases hrun : e.status = .running
  · by_cases hprompt : ∃ p, e.mode = .cmd (some p)
    · obtain ⟨p, hm⟩ := hprompt
      cases ev with
      | key c junk =>
        rw [step_prompt hrun hm]
        split
        · exact hsame (text_obey _)
        · exact hsame (text_promptKey _ _ _ _)
      | backspace =>
        rw [step_backspace hrun]
        exact h
      | eof junk =>
        rw [step_prompt_eof hrun hm]
        exact hsame (text_obey _)
    · have hlisten : e.Listening := ⟨hrun, fun p hp => hprompt ⟨p, hp⟩⟩
      cases ev with
      | key c junk =>
        rw [step_key hlisten]
        exact Wf.mainKey h hlisten hspares
      | backspace =>
        rw [step_backspace hrun]
        exact h
      | eof junk =>
        rw [step_eof hlisten]
        exact hsame (text_leave _ _)
  · rw [step_stopped hrun]
    exact h

theorem eq_loaded {t : Ctext} (h : readfile buf = some t) : loaded buf = t := by
  rw [readfile] at h
  split at h
  · cases h
  · exact Option.some.inj h

theorem wf_of_run {screen : Screen} {cmd : Nat → Byte} (hbuf : Aligned buf)
    {t : Ctext} (hread : readfile buf = some t) {tr : List (Editor × Event)} {e : Editor}
    (htr : Trace stepEditor (start t screen cmd) tr e)
    (hspares : ∀ x ∈ tr, Spares x.1 x.2) : e.text.Wf := by
  refine run_invariant (I := fun e => e.text.Wf) ?_ (fun e ev h hP => Wf.step ev h hP) htr hspares
  rw [(draws_start t screen cmd).text, ← eq_loaded hread]
  exact hbuf.wf

/-- The character `b` is typed over the `a`. -/
def editRun : List (Editor × Event) :=
  [(sample.step (.key (ascii 'i') 0), .key (ascii 'b') 0), (sample, .key (ascii 'i') 0)]

theorem trace_editRun : Trace stepEditor sample editRun (sample.run [.key (ascii 'i') 0,
    .key (ascii 'b') 0]) :=
  .cons (.cons .nil rfl) rfl

theorem forall_editRun {P : Editor → Event → Prop} (hi : P sample (.key (ascii 'i') 0))
    (hb : P (sample.step (.key (ascii 'i') 0)) (.key (ascii 'b') 0)) :
    ∀ x ∈ editRun, P x.1 x.2 := by
  simp only [editRun, List.forall_mem_cons]
  exact ⟨hb, hi, by simp⟩

/-- In every run on an aligned file whose keys spare the list, the list is well formed in
every state. -/
theorem line_list_invariant {buf : List Byte} {screen : Screen} {cmd : Nat → Byte}
    (hbuf : Aligned buf) {t : Ctext} (hread : readfile buf = some t)
    {tr : List (Editor × Event)} {e : Editor} (htr : Trace stepEditor (start t screen cmd) tr e)
    (hspares : ∀ x ∈ tr, Spares x.1 x.2) : e.text.Wf :=
  wf_of_run hbuf hread htr hspares

theorem line_list_invariant_edited : ∃ e, Trace stepEditor sample editRun e ∧
    e.text.last.text = [98] ∧ e.text.Wf := by
  have halign : Aligned [97] := ⟨by decide, by decide, by
    intro i hi
    cases i <;> simp at hi⟩
  have hmode : sample.mode ≠ .insert := by
    rw [sample, mode_start]
    nofun
  refine ⟨_, trace_editRun, by decide +kernel,
    line_list_invariant halign rfl trace_editRun (forall_editRun ?_ ?_)⟩
  · exact fun _ => ⟨by decide, fun _ h => absurd h (by decide), fun hm _ => absurd hm hmode⟩
  · exact fun _ => ⟨by decide, fun _ h => absurd h (by decide), fun _ _ => .inr (by decide +kernel)⟩

/-- Removing the only character of a line leaves its `len` at 1. -/
theorem removed_not_measured :
    ∃ e, readfile [97] = some (loaded [97]) ∧
      Trace stepEditor sample [(sample, .key (ascii 'x') 0)] e ∧ ¬e.text.Wf := by
  refine ⟨_, rfl, .cons .nil rfl, fun h => ?_⟩
  have hlen := (h.tidy _ (List.mem_append_right _ (List.mem_singleton.mpr rfl))).len
  have hone : (sample.step (.key (ascii 'x') 0)).text.last.len ≠
      (sample.step (.key (ascii 'x') 0)).text.last.text.length := by decide +kernel
  exact hone hlen

end Editor

end Xv6.Vim
