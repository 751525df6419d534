import Xv6.Mkfs.Simulate

/-!
# The image while it grows

After each call of `mkfs` the image holds a root directory with the entries made so far
and the files appended so far, and `freeblock` counts the blocks they need.
-/

namespace Xv6.Mkfs

open Fs Names Lib Function List

section Inode

variable {sb : Superblock} {disk : Disk} {inum i : Nat} {d : Dinode}

section

variable (hpool : Pooled sb disk (dinodeAt sb disk) ∅)

include hpool

theorem own_ge (hi : i < sb.ninodes) (htype : (dinodeAt sb disk i).type ≠ 0) {s : Nat}
    (hne : slotAt disk (dinodeAt sb disk i) s ≠ 0) :
    sb.bmapstart ≤ slotAt disk (dinodeAt sb disk i) s := by
  rw [← own_of_allocated hi htype] at hne ⊢
  obtain ⟨hlo, hhi⟩ := hpool.range _ hne
  exact bmapstart_le hlo hhi

variable (hinum : inum < sb.ninodes)
  (hi : i < sb.ninodes) (htype : (dinodeAt sb disk i).type ≠ 0)

include hinum hi htype

theorem slotAt_iupdate (s : Nat) :
    slotAt (iupdate sb disk inum d) (dinodeAt sb disk i) s = slotAt disk
      (dinodeAt sb disk i) s := by
  apply slotAt_congr
  intro hne
  have hge := own_ge hpool hi htype (s := NDIRECT)
  rw [slotAt_direct _ _ (Nat.lt_succ_self _)] at hge
  exact iupdate_of_ge hinum (hge (toNat_ne_zero.mpr hne))

theorem content_iupdate
    (hholes : NoHoles disk (dinodeAt sb disk i) (blocksFor (dinodeAt sb disk i).size.toNat)) :
    content (iupdate sb disk inum d) (dinodeAt sb disk i) = content disk (dinodeAt sb disk i) := by
  apply content_congr
  intro bn hbn
  refine ⟨slotAt_iupdate hpool hinum hi htype _, ?_⟩
  have hle := hholes.le
  have hne := (hholes.blocks bn (by omega)).mpr hbn
  exact iupdate_of_ge hinum (own_ge hpool hi htype hne)

theorem noHoles_iupdate {k : Nat} (hholes : NoHoles disk (dinodeAt sb disk i) k) :
    NoHoles (iupdate sb disk inum d) (dinodeAt sb disk i) k := by
  refine ⟨hholes.le, fun bn hbn => ?_, hholes.indirect⟩
  have hslot := slotAt_iupdate (d := d) hpool hinum hi htype (slotOf bn)
  unfold blockOf
  rw [hslot]
  exact hholes.blocks bn hbn

end

theorem sound_fresh (hsound : Sound sb disk) (hinum : inum < sb.ninodes)
    (hfree : (dinodeAt sb disk inum).type = 0) (haddrs : d.addrs = fun _ => 0)
    (hsize : d.size = 0) :
    Sound sb (iupdate sb disk inum d) := by
  have hslot : ∀ disk s, slotAt disk d s = 0 := by
    intro disk s
    unfold slotAt
    simp only [haddrs]
    split_ifs <;> rfl
  have hown : own sb disk (update (dinodeAt sb disk) inum d) = own sb disk (dinodeAt sb disk) := by
    funext ⟨i, s⟩
    by_cases hi : i = inum
    · subst hi
      unfold own
      simp only [update_self, hslot, hfree]
      simp
    · exact own_other hi d s
  have hpool : Pooled sb disk (update (dinodeAt sb disk) inum d) ∅ := by
    unfold Pooled
    rw [hown]
    exact hsound.pooled
  refine ⟨(hpool.iupdate hinum).2, fun i hi htype => ?_⟩
  rw [dinodeAt_iupdate] at htype ⊢
  by_cases hne : i = inum
  · subst hne
    have hzero : blocksFor (0 : BitVec 32).toNat = 0 := by decide
    rw [update_self, hsize, hzero]
    refine ⟨by decide, fun bn _ => ?_, ?_⟩
    · simp [blockOf, hslot]
    · simp [haddrs]
  · rw [update_of_ne hne] at htype ⊢
    exact noHoles_iupdate hsound.pooled hinum hi htype (hsound.noHoles i hi htype)

end Inode

def entryBytes (entries : List (Nat × Name)) : List Byte :=
  (entries.map fun e => dirent e.1 e.2).flatten

theorem dirent_length (inum : Nat) (name : Name) : (dirent inum name).length = 16 := by
  have hle : (name.take DIRSIZ).length ≤ DIRSIZ := length_take_le _ _
  unfold dirent
  simp only [length_append, length_replicate, length_cons, length_nil]
  have hdirsiz : DIRSIZ = 14 := rfl
  omega

theorem dirent_ne_nil (inum : Nat) (name : Name) : dirent inum name ≠ [] := by
  intro hnil
  have hlen := dirent_length inum name
  rw [hnil] at hlen
  cases hlen

theorem entryBytes_length (entries : List (Nat × Name)) :
    (entryBytes entries).length = 16 * entries.length := by
  induction entries with
  | nil => rfl
  | cons e entries ih =>
    have hcons : entryBytes (e :: entries) = dirent e.1 e.2 ++ entryBytes entries := rfl
    rw [hcons, length_append, dirent_length, ih, length_cons]
    omega

/-- The blocks that a file of `len` bytes takes, its indirect block included. -/
def fileCost (len : Nat) : Nat := growCost 0 (blocksFor len)

def cost (entries : List (Nat × Name)) (files : List (List Byte)) : Nat :=
  fileCost (16 * entries.length) + (files.map fun f => fileCost f.length).sum

structure Holds (n : Nat) (hn : n ≤ IPB * ninodeblocks) (m : Builder)
    (entries : List (Nat × Name)) (files : List (List Byte)) : Prop where
  built : Built n hn m
  freeinode : m.freeinode = files.length + 2
  dir : (m.inode ROOTINO).type = T_DIR
  root : content m.seen (m.inode ROOTINO) = entryBytes entries
  file : ∀ i (hi : i < files.length), (m.inode (i + 2)).type = T_FILE ∧
    (m.inode (i + 2)).nlink = 1 ∧ content m.seen (m.inode (i + 2)) = files.get ⟨i, hi⟩
  free : ∀ i, files.length + 2 ≤ i → i < n → m.inode i = Dinode.zero
  room : files.length + 2 ≤ n
  used : m.freeblock = nmeta + cost entries files

theorem blocksFor_mono {a b : Nat} (h : a ≤ b) : blocksFor a ≤ blocksFor b := by
  rw [blocksFor_le]
  exact h.trans (blocksFor_le.mp (Nat.le_refl _))

theorem fileCost_add (a b : Nat) :
    fileCost (a + b) = fileCost a + growCost (blocksFor a) (blocksFor (a + b)) :=
  growCost_add (Nat.zero_le _) (blocksFor_mono (Nat.le_add_right a b))

theorem fileCost_mono {a b : Nat} (h : a ≤ b) : fileCost a ≤ fileCost b := by
  obtain ⟨c, rfl⟩ := Nat.exists_eq_add_of_le h
  rw [fileCost_add]
  exact Nat.le_add_right _ _

theorem overwrite_end {C D : List Byte} : overwrite C C.length D = C ++ D := by
  simp [overwrite]

section Calls

variable {n : Nat} {hn : n ≤ IPB * ninodeblocks} {m m' : Builder} {entries : List (Nat × Name)}
  {files : List (List Byte)} {inum : Nat} {src : List Byte}

section

variable (h : Appended n hn m m' inum src)

include h

theorem Appended.content_eq :
    content m'.seen (m'.inode inum) = content m.seen (m.inode inum) ++ src := by
  have hstored := h.stored.content
  rw [← length_content m.seen (m.inode inum), overwrite_end] at hstored
  exact hstored

theorem Appended.fields :
    (m'.inode inum).type = (m.inode inum).type ∧ (m'.inode inum).nlink = (m.inode inum).nlink := by
  obtain ⟨addrs, size, hd⟩ := h.stored.fields
  rw [hd]
  exact ⟨rfl, rfl⟩

theorem Appended.other {i : Nat} (hi : i < n) (hne : i ≠ inum) :
    m'.inode i = m.inode i ∧ ((m.inode i).type ≠ 0 →
      content m'.seen (m'.inode i) = content m.seen (m.inode i)) := by
  obtain ⟨hsame, hcontent⟩ := h.stored.others i hi hne
  have hsame' : m'.inode i = m.inode i := hsame
  refine ⟨hsame', fun htype => ?_⟩
  rw [hsame']
  exact hcontent htype

theorem fileCost_content : fileCost (content m'.seen (m'.inode inum)).length + m.freeblock =
      fileCost (content m.seen (m.inode inum)).length + m'.freeblock := by
  have hcost := h.cost
  rw [h.content_eq, length_append, fileCost_add, hcost, length_content]
  omega

end

theorem dir_ne {d : Dinode} (h : d.type = T_DIR) : d.type ≠ 0 ∧ d.type ≠ T_DEV := by
  rw [h]
  decide

theorem file_ne {d : Dinode} (h : d.type = T_FILE) : d.type ≠ 0 ∧ d.type ≠ T_DEV := by
  rw [h]
  decide

theorem Holds.root_lt (h : Holds n hn m entries files) : ROOTINO < n :=
  lt_of_lt_of_le (by change 1 < _; omega) h.room

theorem Holds.appendRoot_of (h : Holds n hn m entries files) {e : Nat × Name}
    (happend : Appended n hn m m' ROOTINO (dirent e.1 e.2)) :
    Holds n hn m' (entries ++ [e]) files := by
  have hother : ∀ i, 2 ≤ i → i < n → m'.inode i = m.inode i ∧ ((m.inode i).type ≠ 0 →
      content m'.seen (m'.inode i) = content m.seen (m.inode i)) := by
    intro i hlo hi
    exact happend.other hi (by change i ≠ 1; omega)
  have hroom := h.room
  constructor
  case built => exact happend.built
  case freeinode => rw [happend.freeinode, h.freeinode]
  case dir => rw [happend.fields.1, h.dir]
  case root =>
    rw [happend.content_eq, h.root]
    simp [entryBytes]
  case file =>
    intro i hi
    obtain ⟨htype, hnlink, hcontent⟩ := h.file i hi
    obtain ⟨hsame, hbytes⟩ := hother (i + 2) (by omega) (by omega)
    refine ⟨by rw [hsame, htype], by rw [hsame, hnlink], ?_⟩
    rw [hbytes (file_ne htype).1, hcontent]
  case free =>
    intro i hlo hi
    rw [(hother i (by omega) hi).1, h.free i hlo hi]
  case room => exact hroom
  case used =>
    have hcost := fileCost_content happend
    have hused := h.used
    rw [happend.content_eq, h.root, length_append, dirent_length, entryBytes_length] at hcost
    unfold cost at hused ⊢
    rw [length_append, length_singleton, Nat.mul_add_one]
    omega

theorem Holds.appendRoot (h : Holds n hn m entries files) {e : Nat × Name}
    (hok : m.iappend ROOTINO (dirent e.1 e.2) = .ok m') : Holds n hn m' (entries ++ [e]) files := by
  obtain ⟨htype, hfile⟩ := dir_ne h.dir
  exact h.appendRoot_of (iappend_appended h.built h.root_lt htype hfile (dirent_ne_nil _ _) hok)

variable {file : List Byte}

theorem Holds.appendFile_of (h : Holds n hn m entries (files ++ [file]))
    (happend : Appended n hn m m' (files.length + 2) src) :
    Holds n hn m' entries (files ++ [file ++ src]) := by
  have hroom := h.room
  rw [length_append, length_singleton] at hroom
  have hlast := h.file files.length (by simp)
  have hfile : (files ++ [file]).get ⟨files.length, by simp⟩ = file := by simp
  rw [hfile] at hlast
  obtain ⟨htype, hnlink, hcontent⟩ := hlast
  have hroot := happend.other h.root_lt (by change 1 ≠ _; omega)
  constructor
  case built => exact happend.built
  case freeinode =>
    rw [happend.freeinode, h.freeinode]
    simp
  case dir => rw [hroot.1, h.dir]
  case root => rw [hroot.2 (dir_ne h.dir).1, h.root]
  case file =>
    intro i hi
    rw [length_append, length_singleton] at hi
    by_cases hilast : i = files.length
    · subst hilast
      refine ⟨by rw [happend.fields.1, htype], by rw [happend.fields.2, hnlink], ?_⟩
      rw [happend.content_eq, hcontent]
      simp
    · obtain ⟨hitype, hinlink, hicontent⟩ := h.file i (by simp; omega)
      obtain ⟨hsame, hbytes⟩ := happend.other (i := i + 2) (by omega) (by omega)
      refine ⟨by rw [hsame, hitype], by rw [hsame, hinlink], ?_⟩
      rw [hbytes (file_ne hitype).1, hicontent]
      have hlt : i < files.length := by omega
      simp [getElem_append_left hlt]
  case free =>
    intro i hlo hi
    rw [length_append, length_singleton] at hlo
    rw [(happend.other hi (by omega)).1]
    exact h.free i (by rw [length_append, length_singleton]; omega) hi
  case room =>
    rw [length_append, length_singleton]
    exact hroom
  case used =>
    have hcost := fileCost_content happend
    have hused := h.used
    rw [happend.content_eq, hcontent] at hcost
    unfold cost at hused ⊢
    rw [map_append, sum_append] at hused ⊢
    simp only [map_cons, map_nil, sum_cons, sum_nil] at hused ⊢
    omega

theorem Holds.appendFile (h : Holds n hn m entries (files ++ [file]))
    (hsrc : src ≠ []) (hok : m.iappend (files.length + 2) src = .ok m') :
    Holds n hn m' entries (files ++ [file ++ src]) := by
  have hroom := h.room
  rw [length_append, length_singleton] at hroom
  have hlast := h.file files.length (by simp)
  obtain ⟨htype, hdev⟩ := file_ne hlast.1
  exact h.appendFile_of (iappend_appended h.built (by omega) htype hdev hsrc hok)

theorem ialloc_spec (hbuilt : Built n hn m) (hlt : m.freeinode < n)
    (hfree : m.inode m.freeinode = Dinode.zero) (type : BitVec 16) :
    ∃ m', m.ialloc type = .ok (m.freeinode, m') ∧ Built n hn m' ∧
      m'.freeinode = m.freeinode + 1 ∧ m'.freeblock = m.freeblock ∧
      (∀ i, m'.inode i = if i = m.freeinode then { Dinode.zero with type := type, nlink := 1 }
        else m.inode i) ∧
      ∀ i, i < n → i ≠ m.freeinode → (m.inode i).type ≠ 0 →
        content m'.seen (m'.inode i) = content m.seen (m.inode i) := by
  have hinode : dinodeAt (layout n hn) m.seen m.freeinode = Dinode.zero := hfree
  obtain ⟨m1, hwinode, hseen, hclear, hino, hfb⟩ := winode_ok hn
    (m := { m with freeinode := m.freeinode + 1 }) ⟨hbuilt.clear.lo, hbuilt.clear.hi,
      hbuilt.clear.zero⟩ hlt { Dinode.zero with type := type, nlink := 1 }
  replace hseen : m1.seen = iupdate (layout n hn) m.seen m.freeinode
      { Dinode.zero with type := type, nlink := 1 } := hseen
  have hsound : Sound (layout n hn) m1.seen := by
    rw [hseen]
    exact sound_fresh hbuilt.sound hlt (by rw [hinode]; rfl) rfl rfl
  have hinodes : ∀ i, m1.inode i = if i = m.freeinode then
      { Dinode.zero with type := type, nlink := 1 } else m.inode i := by
    intro i
    have hat : m1.inode i = update (dinodeAt (layout n hn) m.seen) m.freeinode
        { Dinode.zero with type := type, nlink := 1 } i := by
      rw [← dinodeAt_seen hn, hseen]
      exact congrFun (dinodeAt_iupdate _ _ _ _) i
    rw [hat]
    by_cases hi : i = m.freeinode
    · subst hi
      rw [update_self, if_pos rfl]
    · rw [update_of_ne hi, if_neg hi]
      rfl
  have hsuper : m1.seen 1 = superblock := by
    rw [hseen, iupdate_one]
    exact hbuilt.superblock
  refine ⟨m1, ?_, ⟨hclear, hsound, hsuper⟩, hino, hfb, hinodes, ?_⟩
  · unfold Builder.ialloc
    simp only [hwinode, bind, Except.bind, pure, Except.pure]
  · intro i hi hne htype
    rw [hinodes i, if_neg hne, hseen]
    exact content_iupdate hbuilt.sound.pooled hlt hi htype (hbuilt.sound.noHoles i hi htype)

theorem fileCost_zero : fileCost 0 = 0 := by decide

theorem Holds.ialloc (h : Holds n hn m entries files) (hroom : files.length + 2 < n) :
    ∃ m', m.ialloc T_FILE = .ok (files.length + 2, m') ∧ Holds n hn m' entries (files ++ [[]]) := by
  have hino := h.freeinode
  obtain ⟨m1, hok, hbuilt, hnext, hfb, hinodes, hcontent⟩ := ialloc_spec h.built
    (by rw [hino]; exact hroom) (by rw [hino]; exact h.free _ (Nat.le_refl _) hroom) T_FILE
  rw [hino] at hok hnext hinodes hcontent
  have hroot : ROOTINO ≠ files.length + 2 := by
    change 1 ≠ _
    omega
  refine ⟨m1, hok, ?_⟩
  constructor
  case built => exact hbuilt
  case freeinode =>
    rw [hnext]
    simp
  case dir => rw [hinodes, if_neg hroot, h.dir]
  case root => rw [hcontent _ h.root_lt hroot (dir_ne h.dir).1, h.root]
  case file =>
    intro i hi
    rw [length_append, length_singleton] at hi
    by_cases hilast : i = files.length
    · subst hilast
      rw [hinodes, if_pos rfl]
      refine ⟨rfl, rfl, ?_⟩
      simp [content, Dinode.zero]
    · have hlt : i < files.length := by omega
      obtain ⟨hitype, hinlink, hicontent⟩ := h.file i hlt
      have hne : i + 2 ≠ files.length + 2 := by omega
      refine ⟨by rw [hinodes, if_neg hne, hitype], by rw [hinodes, if_neg hne, hinlink], ?_⟩
      rw [hcontent _ (by omega) hne (file_ne hitype).1, hicontent]
      simp [getElem_append_left hlt]
  case free =>
    intro i hlo hi
    rw [length_append, length_singleton] at hlo
    rw [hinodes, if_neg (by omega)]
    exact h.free i (by omega) hi
  case room =>
    rw [length_append, length_singleton]
    omega
  case used =>
    have hused := h.used
    rw [hfb]
    unfold cost at hused ⊢
    rw [map_append, sum_append]
    simp only [map_cons, map_nil, sum_cons, sum_nil, length_nil, fileCost_zero]
    omega

theorem Holds.appendChunks {chunks : List (List Byte)}
    (h : Holds n hn m entries (files ++ [file])) (hpos : ∀ c ∈ chunks, c ≠ [])
    (hok : chunks.foldlM (fun m chunk => m.iappend (files.length + 2) chunk) m = .ok m') :
    Holds n hn m' entries (files ++ [file ++ chunks.flatten]) := by
  induction chunks generalizing m file with
  | nil =>
    cases hok
    simpa using h
  | cons c chunks ih =>
    rw [foldlM_cons] at hok
    obtain ⟨m1, hfirst, hrest⟩ := bind_eq_ok.mp hok
    have hstep := h.appendFile (hpos c mem_cons_self) hfirst
    have hall := ih hstep (fun c hc => hpos c (mem_cons_of_mem _ hc)) hrest
    rwa [append_assoc, ← flatten_cons] at hall

theorem Holds.addFile {f : HostFile} (h : Holds n hn m entries files)
    (hroom : files.length + 2 < n) (hok : m.addFile f = .ok m') :
    Holds n hn m' (entries ++ [(files.length + 2, stripped f.name)]) (files ++ [f.bytes]) := by
  unfold Builder.addFile at hok
  split_ifs at hok
  obtain ⟨m1, halloc, hm1⟩ := h.ialloc hroom
  obtain ⟨x, hx, hok⟩ := bind_eq_ok.mp hok
  rw [halloc] at hx
  cases hx
  obtain ⟨m2, hentry, hchunks⟩ := bind_eq_ok.mp hok
  have hm2 := hm1.appendRoot (e := (files.length + 2, stripped f.name)) hentry
  exact hm2.appendChunks f.chunk_pos hchunks

/-- The entries for files that get the inodes from `inum` on. -/
def entriesFrom : Nat → List HostFile → List (Nat × Name)
  | _, [] => []
  | inum, f :: rest => (inum, stripped f.name) :: entriesFrom (inum + 1) rest

theorem Holds.addFiles {rest : List HostFile} (h : Holds n hn m entries files)
    (hroom : files.length + rest.length + 2 ≤ n) (hok : rest.foldlM Builder.addFile m = .ok m') :
    Holds n hn m' (entries ++ entriesFrom (files.length + 2) rest)
      (files ++ rest.map HostFile.bytes) := by
  induction rest generalizing m entries files with
  | nil =>
    cases hok
    simpa [entriesFrom] using h
  | cons f rest ih =>
    rw [foldlM_cons] at hok
    rw [length_cons] at hroom
    obtain ⟨m1, hfirst, hrest⟩ := bind_eq_ok.mp hok
    have hstep := h.addFile (by omega) hfirst
    have hall := ih hstep (by rw [length_append, length_singleton]; omega) hrest
    rw [length_append, length_singleton, append_assoc, append_assoc] at hall
    exact hall

theorem Holds.appendRoot_isOk (h : Holds n hn m entries files) (e : Nat × Name)
    (hmax : 16 * (entries.length + 1) ≤ MAXFILE * BSIZE)
    (hcost : nmeta + cost (entries ++ [e]) files ≤ FSSIZE) :
    ∃ m', m.iappend ROOTINO (dirent e.1 e.2) = .ok m' := by
  have hsize : (m.inode ROOTINO).size.toNat = 16 * entries.length := by
    rw [← length_content m.seen, h.root, entryBytes_length]
  have hused := h.used
  have hlen := dirent_length e.1 e.2
  apply iappend_isOk h.built h.root_lt (dir_ne h.dir).1 (dirent_ne_nil _ _)
  · rw [hsize, hlen]
    omega
  · rw [hsize, hlen]
    have hadd := fileCost_add (16 * entries.length) 16
    unfold cost at hused hcost
    rw [length_append, length_singleton, Nat.mul_add_one] at hcost
    omega

theorem Holds.appendFile_isOk (h : Holds n hn m entries (files ++ [file]))
    (hsrc : src ≠ []) (hmax : (file ++ src).length ≤ MAXFILE * BSIZE)
    (hcost : nmeta + cost entries (files ++ [file ++ src]) ≤ FSSIZE) :
    ∃ m', m.iappend (files.length + 2) src = .ok m' := by
  have hroom := h.room
  rw [length_append, length_singleton] at hroom
  have hlast := h.file files.length (by simp)
  have hfile : (files ++ [file]).get ⟨files.length, by simp⟩ = file := by simp
  rw [hfile] at hlast
  obtain ⟨htype, -, hcontent⟩ := hlast
  have hsize : (m.inode (files.length + 2)).size.toNat = file.length := by
    rw [← length_content m.seen, hcontent]
  rw [length_append] at hmax
  have hused := h.used
  apply iappend_isOk h.built (by omega) (file_ne htype).1 hsrc
  · rw [hsize]
    exact hmax
  · rw [hsize]
    have hadd := fileCost_add file.length src.length
    unfold cost at hused hcost
    rw [map_append, sum_append] at hused hcost
    simp only [map_cons, map_nil, sum_cons, sum_nil, length_append]
      at hused hcost
    omega

theorem cost_mono {entries' : List (Nat × Name)} {file' : List Byte}
    (hentries : entries.length ≤ entries'.length) (hfile : file.length ≤ file'.length)
    (rest : List (List Byte)) :
    cost entries (files ++ [file]) ≤ cost entries' (files ++ file' :: rest) := by
  have hroot := fileCost_mono (Nat.mul_le_mul_left 16 hentries)
  have hlast := fileCost_mono hfile
  unfold cost
  simp only [map_append, map_cons, map_nil, sum_append, sum_cons, sum_nil]
  omega

theorem Holds.appendChunks_isOk {chunks : List (List Byte)}
    (h : Holds n hn m entries (files ++ [file])) (hpos : ∀ c ∈ chunks, c ≠ [])
    (hmax : (file ++ chunks.flatten).length ≤ MAXFILE * BSIZE)
    (hcost : nmeta + cost entries (files ++ [file ++ chunks.flatten]) ≤ FSSIZE) :
    ∃ m', chunks.foldlM (fun m chunk => m.iappend (files.length + 2) chunk) m = .ok m' := by
  induction chunks generalizing m file with
  | nil => exact ⟨m, rfl⟩
  | cons c chunks ih =>
    rw [flatten_cons, ← append_assoc] at hmax hcost
    have hc := hpos c mem_cons_self
    have hle : cost entries (files ++ [file ++ c]) ≤
        cost entries (files ++ [file ++ c ++ chunks.flatten]) :=
      cost_mono (Nat.le_refl _) (by simp) []
    obtain ⟨m1, hfirst⟩ := h.appendFile_isOk hc
      (by rw [length_append] at hmax; omega) (by omega)
    obtain ⟨m', hrest⟩ := ih (h.appendFile hc hfirst)
      (fun c hc => hpos c (mem_cons_of_mem _ hc)) hmax hcost
    refine ⟨m', ?_⟩
    rw [foldlM_cons, hfirst]
    exact hrest

theorem Holds.addFile_isOk {f : HostFile} (h : Holds n hn m entries files)
    (hroom : files.length + 2 < n) (hname : slash ∉ f.name)
    (hmax : f.bytes.length ≤ MAXFILE * BSIZE) (hroot : 16 * (entries.length + 1) ≤ MAXFILE * BSIZE)
    (hcost : nmeta + cost (entries ++ [(files.length + 2, stripped f.name)])
      (files ++ [f.bytes]) ≤ FSSIZE) : ∃ m', m.addFile f = .ok m' := by
  obtain ⟨m1, halloc, hm1⟩ := h.ialloc hroom
  have hle : cost (entries ++ [(files.length + 2, stripped f.name)]) (files ++ [[]]) ≤
      cost (entries ++ [(files.length + 2, stripped f.name)]) (files ++ [f.bytes]) :=
    cost_mono (Nat.le_refl _) (Nat.zero_le _) []
  obtain ⟨m2, hentry⟩ := hm1.appendRoot_isOk (files.length + 2, stripped f.name) hroot (by omega)
  have hm2 := hm1.appendRoot hentry
  obtain ⟨m', hchunks⟩ := hm2.appendChunks_isOk f.chunk_pos hmax hcost
  refine ⟨m', ?_⟩
  simp only [Builder.addFile, if_neg hname, halloc, bind, Except.bind, hentry]
  exact hchunks

theorem entriesFrom_length (inum : Nat) (fs : List HostFile) :
    (entriesFrom inum fs).length = fs.length := by
  induction fs generalizing inum with
  | nil => rfl
  | cons f fs ih => rw [entriesFrom, length_cons, ih, length_cons]

theorem Holds.addFiles_isOk {rest : List HostFile} (h : Holds n hn m entries files)
    (hroom : files.length + rest.length + 2 ≤ n)
    (hfiles : ∀ f ∈ rest, slash ∉ f.name ∧ f.bytes.length ≤ MAXFILE * BSIZE)
    (hroot : 16 * (entries.length + rest.length) ≤ MAXFILE * BSIZE)
    (hcost : nmeta + cost (entries ++ entriesFrom (files.length + 2) rest)
      (files ++ rest.map HostFile.bytes) ≤ FSSIZE) :
    ∃ m', rest.foldlM Builder.addFile m = .ok m' := by
  induction rest generalizing m entries files with
  | nil => exact ⟨m, rfl⟩
  | cons f rest ih =>
    rw [length_cons] at hroom hroot
    rw [entriesFrom, map_cons] at hcost
    have hle : cost (entries ++ [(files.length + 2, stripped f.name)]) (files ++ [f.bytes]) ≤
        cost (entries ++ (files.length + 2, stripped f.name) ::
          entriesFrom (files.length + 2 + 1) rest) (files ++ f.bytes :: rest.map HostFile.bytes) :=
      cost_mono (by simp) (Nat.le_refl _) (rest.map HostFile.bytes)
    obtain ⟨hname, hmax⟩ := hfiles f mem_cons_self
    obtain ⟨m1, hfirst⟩ := h.addFile_isOk (by omega) hname hmax (by omega) (by omega)
    have hstep := h.addFile (by omega) hfirst
    have hlen : (files ++ [f.bytes]).length = files.length + 1 := by simp
    obtain ⟨m', hrest⟩ := ih hstep (by omega)
      (fun g hg => hfiles g (mem_cons_of_mem _ hg))
      (by rw [length_append, length_singleton]; omega)
      (by rw [hlen, append_assoc, append_assoc]; exact hcost)
    refine ⟨m', ?_⟩
    rw [foldlM_cons, hfirst]
    exact hrest

end Calls

end Xv6.Mkfs
