import Xv6.Fs.File
import Xv6.Vim.Lines

/-!
# Saving

`writefile` on the file system: it opens the file without truncating it and writes the
string of every line.  The file then holds the text if no string runs on behind its line and
the text is not shorter than the file was.
-/

namespace Xv6.Vim

open Lib Fs List

variable {sb : Superblock} {devsw : Devsw} {disk disk' : Disk} {inum : Nat} {d d' : Dinode}
  {off : BitVec 32} {l : Line} {ls : List Line} {ss : List (List Byte)}

/-- The loop of `writefile`; the results of the calls of `write` are not looked at. -/
def writeLines (sb : Superblock) (devsw : Devsw) (inum : Nat) :
    List (List Byte) → Disk → Dinode → BitVec 32 → Except String (Disk × Dinode)
  | [], disk, d, _ => .ok (disk, d)
  | s :: ss, disk, d, off => do
    let (_, disk, d, off) ← filewrite sb devsw disk inum d off s
    writeLines sb devsw inum ss disk d off

/-- `writefile` on the file with inode `inum`, which is open from offset 0 on. -/
def writefile (sb : Superblock) (devsw : Devsw) (disk : Disk) (inum : Nat) (d : Dinode)
    (t : Ctext) : Except String (Disk × Dinode) :=
  writeLines sb devsw inum (t.nodes.map Line.string) disk d 0

theorem blocksFor_mono {m n : Nat} (h : m ≤ n) : blocksFor m ≤ blocksFor n :=
  Nat.div_le_div_right (by omega)

theorem growCost_two (size off m n : Nat) :
    growCost (blocksFor size) (blocksFor (max size (off + (m + n)))) =
      growCost (blocksFor size) (blocksFor (max size (off + m))) +
        growCost (blocksFor (max size (off + m)))
          (blocksFor (max (max size (off + m)) (off + m + n))) := by
  have hmax : max (max size (off + m)) (off + m + n) = max size (off + (m + n)) := by omega
  rw [hmax]
  exact growCost_add (blocksFor_mono (by omega)) (blocksFor_mono (by omega))

structure Saved (sb : Superblock) (disk disk' : Disk) (inum : Nat) (d d' : Dinode) (off : Nat)
    (w : List Byte) : Prop where
  sound : Sound sb disk'
  dinode : dinodeAt sb disk' inum = d'
  type : d'.type = T_FILE
  size : d'.size.toNat = max d.size.toNat (off + w.length)
  content : content disk' d' = overwrite (Fs.content disk d) off w
  free : (freeBlocks sb disk').card + growCost (blocksFor d.size.toNat)
    (blocksFor (max d.size.toNat (off + w.length))) = (freeBlocks sb disk).card

section Sound

variable (hfile : d.type = T_FILE) (hsound : Sound sb disk) (hinum : inum < sb.ninodes)
  (hd : dinodeAt sb disk inum = d) (hss : ∀ s ∈ ss, s.length ≤ maxWrite)
  (hoff : off.toNat ≤ d.size.toNat) (hmax : off.toNat + ss.flatten.length ≤ MAXFILE * BSIZE)

include hfile hsound hinum hd hss hoff hmax

theorem writeLines_saves (h : writeLines sb devsw inum ss disk d off = .ok (disk', d')) :
    Saved sb disk disk' inum d d' off.toNat ss.flatten := by
  induction ss generalizing disk d off with
  | nil =>
    cases h
    have hnil := stored_nil hsound hd hoff
    refine ⟨hsound, hd, hfile, hnil.size, hnil.content, ?_⟩
    rw [flatten_nil, length_nil, Nat.add_zero, Nat.max_eq_left hoff]
    simp [growCost]
  | cons s ss ih =>
    rw [flatten_cons, length_append] at hmax
    obtain ⟨⟨r, disk1, d1, off1⟩, hwrite, h⟩ := bind_eq_ok.mp h
    obtain ⟨hstored, hoff1, hfree⟩ := filewrite_stores hfile hsound hinum hd
      (hss s mem_cons_self) hoff (by omega) hwrite
    have hfile1 : d1.type = T_FILE := by
      obtain ⟨addrs, size, rfl⟩ := hstored.fields
      exact hfile
    have hsize := hstored.size
    have hrest := ih hfile1 hstored.sound hstored.dinode
      (fun s' hs' => hss s' (mem_cons_of_mem _ hs')) (by omega) (by omega) h
    refine ⟨hrest.sound, hrest.dinode, hrest.type, ?_, ?_, ?_⟩
    · rw [hrest.size, hsize, flatten_cons, length_append]
      omega
    · rw [hrest.content, hstored.content, hoff1, flatten_cons]
      exact overwrite_overwrite _ _ _ _ (by rw [length_content]; exact hoff)
    · have hfree' := hrest.free
      rw [hsize, hoff1] at hfree'
      rw [flatten_cons, length_append, growCost_two]
      omega

theorem writeLines_isOk (hcard : growCost (blocksFor d.size.toNat)
      (blocksFor (max d.size.toNat (off.toNat + ss.flatten.length))) ≤ (freeBlocks sb disk).card) :
    ∃ disk' d', writeLines sb devsw inum ss disk d off = .ok (disk', d') := by
  induction ss generalizing disk d off with
  | nil => exact ⟨disk, d, rfl⟩
  | cons s ss ih =>
    rw [flatten_cons, length_append] at hmax hcard
    rw [growCost_two] at hcard
    have hok : ∃ r disk1 d1 off1, filewrite sb devsw disk inum d off s = .ok (r, disk1, d1, off1) :=
      filewrite_isOk hfile hsound hinum hd (hss s mem_cons_self) hoff (by omega) (by omega)
    obtain ⟨r, disk1, d1, off1, hwrite⟩ := hok
    obtain ⟨hstored, hoff1, hfree⟩ := filewrite_stores hfile hsound hinum hd
      (hss s mem_cons_self) hoff (by omega) hwrite
    have hfile1 : d1.type = T_FILE := by
      obtain ⟨addrs, size, rfl⟩ := hstored.fields
      exact hfile
    have hsize := hstored.size
    have hok' : ∃ disk' d', writeLines sb devsw inum ss disk1 d1 off1 = .ok (disk', d') :=
      ih hfile1 hstored.sound hstored.dinode (fun s' hs' => hss s' (mem_cons_of_mem _ hs'))
        (by omega) (by omega) (by rw [hsize, hoff1]; omega)
    obtain ⟨disk', d', hrest⟩ := hok'
    refine ⟨disk', d', ?_⟩
    rw [writeLines, hwrite]
    exact hrest

end Sound

def Line.Terminated (l : Line) : Prop := EMPTY_CHAR ∈ l.c ∨ l.len % 256 = 0

instance (l : Line) : Decidable l.Terminated := inferInstanceAs (Decidable (_ ∨ _))

theorem Line.length_string_le (l : Line) : l.string.length ≤ 92 := by
  refine Nat.le_trans length_before_le ?_
  rw [length_append, l.size]
  rfl

theorem Line.string_eq (l : Line) : ∃ r, l.string = l.text ++ r ∧ (r = [] ↔ l.Terminated) := by
  by_cases h : EMPTY_CHAR ∈ l.c
  · exact ⟨[], by rw [string_eq_text h, append_nil], iff_of_true rfl (.inl h)⟩
  · refine ⟨before EMPTY_CHAR l.behind, ?_, ?_⟩
    · rw [string_of_full h, text, before_of_notMem h]
    · rw [Terminated, or_iff_right h, behind, intBytes, cons_append, cons_append]
      have hbyte : (BitVec.ofNat 8 l.len = EMPTY_CHAR) ↔ l.len % 256 = 0 := by
        rw [← BitVec.toNat_inj]
        simp
      by_cases hz : BitVec.ofNat 8 l.len = EMPTY_CHAR
      · rw [hz, before_cons_self]
        exact iff_of_true rfl (hbyte.mp hz)
      · rw [before_cons_of_ne hz]
        exact iff_of_false (by simp) (mt hbyte.mpr hz)

theorem length_texts_le (ls : List Line) :
    (ls.map Line.text).flatten.length ≤ (ls.map Line.string).flatten.length := by
  induction ls with
  | nil => exact Nat.le_refl _
  | cons l ls ih =>
    obtain ⟨r, hr, -⟩ := l.string_eq
    simp only [map_cons, flatten_cons, length_append, hr]
    omega

theorem strings_eq_iff (ls : List Line) :
    (ls.map Line.string).flatten.length ≤ (ls.map Line.text).flatten.length ↔
      ∀ l ∈ ls, l.Terminated := by
  induction ls with
  | nil => simp
  | cons l ls ih =>
    have hle := length_texts_le ls
    obtain ⟨r, hr, hterm⟩ := l.string_eq
    simp only [map_cons, flatten_cons, length_append, hr, forall_mem_cons, ← ih,
      ← hterm, ← length_eq_zero_iff]
    omega

theorem strings_eq_texts (h : ∀ l ∈ ls, l.Terminated) : ls.map Line.string = ls.map Line.text := by
  apply map_congr_left
  intro l hl
  obtain ⟨r, hr, hterm⟩ := l.string_eq
  rw [hr, hterm.mpr (h l hl), append_nil]

/-- The file holds the text after `writefile`. -/
def SavesText (sb : Superblock) (devsw : Devsw) (disk : Disk) (inum : Nat) (d : Dinode)
    (t : Ctext) : Prop :=
  ∃ disk' d', writefile sb devsw disk inum d t = .ok (disk', d') ∧
    dinodeAt sb disk' inum = d' ∧ content disk' d' = t.text

/-- No string runs on behind its line, the text is no shorter than the file and no longer
than a file can be, and the disk has the blocks it needs. -/
structure Savable (sb : Superblock) (disk : Disk) (d : Dinode) (t : Ctext) : Prop where
  terminated : ∀ l ∈ t.nodes, l.Terminated
  grew : d.size.toNat ≤ t.text.length
  fits : t.text.length ≤ MAXFILE * BSIZE
  free : growCost (blocksFor d.size.toNat) (blocksFor t.text.length) ≤ (freeBlocks sb disk).card

section Sound

variable (hfile : d.type = T_FILE) (hsound : Sound sb disk) (hinum : inum < sb.ninodes)
  (hd : dinodeAt sb disk inum = d)

include hfile hsound hinum hd

theorem writefile_saved {t : Ctext} (hmax : t.written.length ≤ MAXFILE * BSIZE)
    (h : writefile sb devsw disk inum d t = .ok (disk', d')) :
    Saved sb disk disk' inum d d' 0 t.written := by
  refine writeLines_saves hfile hsound hinum hd ?_ (Nat.zero_le _) ?_ h
  · intro s hs
    obtain ⟨l, -, rfl⟩ := mem_map.mp hs
    have := l.length_string_le
    simp only [maxWrite]
    omega
  · change 0 + t.written.length ≤ _
    omega

theorem saves_of_savable {t : Ctext} (h : Savable sb disk d t) :
    SavesText sb devsw disk inum d t := by
  have hwritten : t.written = t.text := by
    rw [Ctext.written, Ctext.text, strings_eq_texts h.terminated]
  have hmax : t.written.length ≤ MAXFILE * BSIZE := by rw [hwritten]; exact h.fits
  have hok : ∃ disk' d', writefile sb devsw disk inum d t = .ok (disk', d') := by
    refine writeLines_isOk hfile hsound hinum hd ?_ (Nat.zero_le _) ?_ ?_
    · intro s hs
      obtain ⟨l, -, rfl⟩ := mem_map.mp hs
      have := l.length_string_le
      simp only [maxWrite]
      omega
    · change 0 + t.written.length ≤ _
      omega
    · change growCost _ (blocksFor (max d.size.toNat (0 + t.written.length))) ≤ _
      rw [hwritten, Nat.zero_add, Nat.max_eq_right h.grew]
      exact h.free
  obtain ⟨disk', d', hok⟩ := hok
  have hsaved := writefile_saved hfile hsound hinum hd hmax hok
  refine ⟨disk', d', hok, hsaved.dinode, ?_⟩
  rw [hsaved.content, hwritten, overwrite, take_zero, nil_append,
    drop_eq_nil_of_le (by rw [length_content, Nat.zero_add]; exact h.grew), append_nil]

theorem savable_of_saves {t : Ctext} (hmax : t.written.length ≤ MAXFILE * BSIZE)
    (h : SavesText sb devsw disk inum d t) : Savable sb disk d t := by
  obtain ⟨disk', d', hok, -, hcontent⟩ := h
  have hsaved := writefile_saved hfile hsound hinum hd hmax hok
  have hle : t.text.length ≤ t.written.length := length_texts_le t.nodes
  have hlen : max d.size.toNat t.written.length = t.text.length := by
    rw [← hcontent, length_content, hsaved.size, Nat.zero_add]
  have hfree := hsaved.free
  rw [Nat.zero_add, hlen] at hfree
  refine ⟨(strings_eq_iff t.nodes).mp ?_, by omega, by omega, by omega⟩
  change t.written.length ≤ t.text.length
  omega

end Sound

/-- Where the condition holds, `writefile` leaves exactly the text in the file; and where
it does not, the file does not hold the text, if what is written fits in a file at all. -/
theorem writefile_saves_text (sb : Superblock) (devsw : Devsw) (disk : Disk)
    (hsound : Sound sb disk)
    (inum : Nat) (hinum : inum < sb.ninodes) (d : Dinode) (hd : dinodeAt sb disk inum = d)
    (hfile : d.type = T_FILE) (t : Ctext) :
    (Savable sb disk d t → SavesText sb devsw disk inum d t) ∧
      (t.written.length ≤ MAXFILE * BSIZE →
        SavesText sb devsw disk inum d t → Savable sb disk d t) :=
  ⟨saves_of_savable hfile hsound hinum hd, savable_of_saves hfile hsound hinum hd⟩

theorem writefile_saves_text_tiny :
    SavesText tinySuperblock noDevs tinyDisk 1 emptyFile (loaded [97]) := by
  have h := writefile_saves_text tinySuperblock noDevs tinyDisk
    sound_tinyDisk
    1 (by decide) emptyFile (dinodeAt_iupdate_same _ _ _ _) rfl (loaded [97])
  exact h.1 ⟨by decide, by decide, by decide, Nat.le_trans (by decide) free_tinyDisk⟩

theorem exists_ab : ∃ disk d, Sound tinySuperblock disk ∧ dinodeAt tinySuperblock disk 1 = d ∧
    d.type = T_FILE ∧ content disk d = [97, 98] := by
  have hd : dinodeAt tinySuperblock tinyDisk 1 = emptyFile := dinodeAt_iupdate_same _ _ _ _
  have hacc : ¬Refused emptyFile 0 ([97, 98] : List Byte).length := by
    unfold Refused
    decide
  have hok : ∃ r disk' d',
    writei tinySuperblock noDevs tinyDisk 1 emptyFile 0
      [97, 98] = .ok (r, disk', d') :=
    writei_isOk (by decide) (by decide) sound_tinyDisk (by decide) hd (by decide) hacc
      (Nat.le_trans (by decide) free_tinyDisk)
  obtain ⟨r, disk', d', hok⟩ := hok
  obtain ⟨-, hstored⟩ := writei_stores (by decide) (by decide) sound_tinyDisk (by decide) hd
    (by decide)
    hacc hok
  refine ⟨disk', d', hstored.sound, hstored.dinode, ?_, ?_⟩
  · obtain ⟨addrs, size, rfl⟩ := hstored.fields
    rfl
  · rw [hstored.content]
    rfl

open Editor in
/-- In a session that removes the first of two characters and saves, the file keeps its
second byte: it is not truncated. -/
theorem shrunk_not_saved :
    ∃ tr e, Trace stepEditor (start (loaded [97, 98]) (Console.boot (fun _ => 0) 0) fun _ => 0)
      tr e ∧
      tr.map Prod.snd = [.key NL 0, .key (ascii 'q') 0, .key (ascii 'w') 0, .key (ascii ':') 0,
        .key (ascii 'x') 0] ∧ e.status = .saved ∧ e.text.text = [98] ∧
      ∃ disk d, Sound tinySuperblock disk ∧ dinodeAt tinySuperblock disk 1 = d ∧ d.type = T_FILE ∧
        content disk d = [97, 98] ∧
        ¬SavesText tinySuperblock noDevs disk 1 d e.text := by
  obtain ⟨tr, e, htr, hacts, hgood⟩ := Trace.of_actions stepEditor
    (start (loaded [97, 98]) (Console.boot (fun _ => 0) 0) fun _ => 0)
    [.key (ascii 'x') 0, .key (ascii ':') 0, .key (ascii 'w') 0, .key (ascii 'q') 0, .key NL 0]
    (fun e => decide (e.status = .saved ∧ e.text.text = [98] ∧ e.text.written = [98]))
    (by decide +kernel)
  obtain ⟨hstatus, htext, hwritten⟩ := of_decide_eq_true hgood
  obtain ⟨disk, d, hsound, hd, hfile, hcontent⟩ := exists_ab
  refine ⟨tr, e, htr, hacts, hstatus, htext, disk, d, hsound, hd, hfile, hcontent, fun h => ?_⟩
  have hsavable := savable_of_saves hfile hsound (by decide) hd (by rw [hwritten]; decide) h
  have hsize : d.size.toNat = 2 := by
    rw [← length_content disk d, hcontent]
    rfl
  have hgrew := hsavable.grew
  rw [hsize, htext] at hgrew
  exact absurd hgrew (by decide)

end Xv6.Vim
