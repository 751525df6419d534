import Xv6.Files.Balance

/-!
# The operations keep the balance

One lemma per group of operations: those that change no table, those on the file table, on
pipes, on the inode cache, on the process's own descriptors, and on the process table.
-/

namespace Xv6.Files

open Lib Function

variable {n : Nat} {s s' : State n} {views : Fin n → View n} {p : Fin n} {v : View n}
  {f : FileId} {ip : InodeId} {d : Token → Int} {file : File} {q : Fin n}

theorem count_congr (hfiles : s'.files = s.files) (hpipes : s'.pipes = s.pipes)
    (hnpipes : s'.npipes = s.npipes) (hicache : s'.icache = s.icache) : s'.count = s.count := by
  funext t
  cases t <;> simp only [State.count, hfiles, hpipes, hnpipes, hicache]

theorem Inv.stay (h : Inv s views) (hrun : s.procs p = .running)
    (hrest : s' = { s with begins := s'.begins, ends := s'.ends, tick := s'.tick })
    (hbegins : ∀ q, q ≠ p → s'.begins q = s.begins q) (hends : ∀ q, q ≠ p → s'.ends q = s.ends q)
    (hheld : v.held = (views p).held) (hfresh : v.fresh = (views p).fresh)
    (hchild : v.child = (views p).child) (hidle : v.active = false → v = .idle)
    (hslots : ∀ fd x, v.known fd = some x → s.ofile p fd = x)
    (hkcwd : ∀ x, v.cwd = some x → s.cwd p = x)
    (hops : s'.begins p = s'.ends p + v.inOp.toNat) : Inv s' (update views p v) := by
  generalize s'.begins = begins, s'.ends = ends, s'.tick = tick at *
  subst hrest
  refine h.own hrun rfl (fun _ _ => rfl) (fun _ _ => rfl) (fun _ _ htype => htype) hbegins hends
    hchild ?_ (fun t => ?_) hidle hslots hkcwd (fun f hx => ?_) hops
    (fun f hx => .inl (hfresh ▸ hx)) h.closed h.unique h.pipes
  · rw [hheld, show State.count { s with begins, ends, tick } = s.count from
      count_congr rfl rfl rfl rfl]
    rfl
  · rw [hheld]
    exact h.nonneg p t
  · rw [hheld]
    exact (h.knows p).fresh f (hfresh ▸ hx)

theorem setFile_self (file : File) : (s.setFile f file).files f = file := update_self ..

theorem setFile_ne {g : FileId} (hg : g ≠ f) :
    (s.setFile f file).files g = s.files g := update_of_ne hg ..

variable {t : Token} {x : Nat} {c : Child n}

theorem nonneg_sub {g : Token → Int} (hg : ∀ u, 0 ≤ g u) (ht : 1 ≤ g t) (u : Token) :
    0 ≤ g u - tok t u := by
  have hu := hg u
  rw [tok]
  split
  · case isTrue heq =>
    rw [heq]
    omega
  · omega

theorem Inv.fresh_type (h : Inv s views) {g : FileId} (hg : (views p).fresh g = true)
    (hfile : g = f → file.type = .none) : ((s.setFile f file).files g).type = .none := by
  by_cases hgf : g = f
  · rw [hgf, setFile_self]
    exact hfile hgf
  · rw [setFile_ne hgf]
    exact ((h.knows p).fresh g hg).1

theorem File.weight_pos (h : 0 < file.ref) :
    file.weight = file.type.weight file.writable := if_pos h

theorem Inv.ref_pos (h : Inv s views) (hone : 1 ≤ s.share p (.inode ip) +
    (views p).held (.inode ip)) : 0 < (s.icache ip).ref := by
  have hcount := h.one_le_count hone
  simp only [State.count] at hcount
  omega

theorem count_setPipe {k m : Nat} {pipe : Pipe} (hx : x < k)
    (hk : ∀ y, y ≠ x → (y < k ↔ y < s.npipes))
    (hd : d = ((if pipe.isOpen false then (1 : Int) else 0) - s.count (.pend x false)) •
        tok (.pend x false) + ((if pipe.isOpen true then (1 : Int) else 0) -
        s.count (.pend x true)) • tok (.pend x true) + ((if pipe.shut then (1 : Int) else 0) -
        pipe.frees - s.count (.page x)) • tok (.page x)) :
    ({ s.setPipe x pipe with npipes := k, tick := m } : State n).count = s.count + d := by
  subst hd
  funext t
  cases t with
  | inode ip | file f => simp [State.count, State.setPipe, tok]
  | pend y w =>
    by_cases hy : y = x
    · subst hy
      cases w <;> simp [State.count, State.setPipe, tok, -zsmul_eq_mul]
    · simp [State.count, State.setPipe, tok, hy]
  | page y =>
    by_cases hy : y = x
    · subst hy
      simp [State.count, State.setPipe, tok, hx, -zsmul_eq_mul]
    · simp [State.count, State.setPipe, tok, hy, hk y hy]

theorem share_nonneg (s : State n) (p : Fin n) (t : Token) : 0 ≤ s.share p t := by
  rw [State.share, Pi.add_apply, Finset.sum_apply]
  refine Int.add_nonneg ?_ (Finset.sum_nonneg fun fd _ => ?_)
  · cases s.cwd p with
    | none => exact Int.le_refl 0
    | some ip => exact tok_nonneg _ t
  · cases s.ofile p fd with
    | none => exact Int.le_refl 0
    | some f => exact tok_nonneg _ t

theorem Inv.one_le_held (h : Inv s views) (ht : 1 ≤ (views p).held t) :
    1 ≤ s.share p t + (views p).held t ∧ 1 ≤ s.count t := by
  have hshare := share_nonneg s p t
  have hone : 1 ≤ s.share p t + (views p).held t := by omega
  exact ⟨hone, h.one_le_count hone⟩

theorem Inv.child_other (h : Inv s views) (hc : (views p).child = some c)
    (r : Fin n) (d : Child n) (hr : r ≠ p) (hd : (views r).child = some d) : d.np ≠ c.np :=
  fun heq => hr (h.child r p d c hd hc heq)

theorem Inv.child_still (h : Inv s views) (hc : (views p).child = some c) :
    s.procs c.np ≠ .running := by
  rw [((h.knows p).child c hc).1]
  exact nofun

section Active

variable (h : Inv s views) (ha : (views p).active = true)

include h ha

theorem Inv.files {fresh : FileId → Bool}
    (hd : ((file.ref : Int) - (s.files f).ref) • tok (.file f) +
    (s.files f).weight - file.weight = d)
    (hnonneg : ∀ t, 0 ≤ s.share p t + ((views p).held + d) t)
    (htype : (views p).fresh f = false → (s.files f).type = .none → file.type = .none)
    (hfresh : ∀ g, fresh g = true → ((s.setFile f file).files g).type = .none ∧
      1 ≤ s.share p (.file g) + ((views p).held + d) (.file g))
    (hnew : ∀ g, fresh g = true → (views p).fresh g = true ∨ (s.files g).ref = 0)
    (hclosed : file.ref = 0 → file.type = .none) :
    Inv (s.setFile f file)
      (update views p { (views p).add d with fresh := fresh }) := by
  have hknows := h.knows p
  refine h.own (hknows.active ha) rfl (fun _ _ => rfl) (fun _ _ => rfl) (fun g hg hnone => ?_)
    (fun _ _ => rfl) (fun _ _ => rfl) rfl ?_ hnonneg (fun hidle => ?_) hknows.slots hknows.cwd
    hfresh hknows.ops hnew (fun g hg => ?_) h.unique h.pipes
  · by_cases hgf : g = f
    · subst hgf
      rw [setFile_self]
      exact htype hg hnone
    · rwa [setFile_ne hgf]
  · have hshare : (s.setFile f file).share = s.share := rfl
    rw [count_setFile, outside_setFile, hshare]
    simp only [View.add, ← hd]
    abel
  · rw [show ({ (views p).add d with fresh := fresh } : View n).active = true from ha] at hidle
    cases hidle
  · by_cases hgf : g = f
    · subst hgf
      rw [setFile_self] at hg ⊢
      exact hclosed hg
    · rw [setFile_ne hgf] at hg ⊢
      exact h.closed g hg

theorem Inv.filealloc (hfree : (s.files f).ref = 0) :
    (views p).fresh f = false ∧ Inv (s.setFile f { s.files f with ref := 1 }) (update views p
        { (views p).add (tok (.file f)) with fresh := update (views p).fresh f true }) := by
  have hnonneg : ∀ t, 0 ≤ s.share p t + ((views p).held + tok (.file f)) t := fun t => by
    have hold := h.nonneg p t
    have htok := tok_nonneg (.file f) t
    simp only [Pi.add_apply]
    omega
  have hnot : (views p).fresh f = false := by
    by_contra hfresh
    have hone := h.one_le_count ((h.knows p).fresh f (by simpa using hfresh)).2
    simp only [State.count, hfree] at hone
    omega
  refine ⟨hnot, h.files ha ?_ hnonneg (fun _ hnone => hnone) (fun g hg => ?_) (fun g hg => ?_)
    (by simp)⟩
  · have hnone := h.closed f hfree
    simp [File.weight, hfree, hnone, FileType.weight]
  · by_cases hgf : g = f
    · subst hgf
      have hold := h.nonneg p (.file g)
      refine ⟨?_, ?_⟩
      · rw [setFile_self]
        exact h.closed g hfree
      · simp only [Pi.add_apply, tok_self]
        omega
    · rw [update_of_ne hgf] at hg
      obtain ⟨htype, hone⟩ := (h.knows p).fresh g hg
      have htok := tok_nonneg (.file f) (.file g)
      refine ⟨h.fresh_type hg fun heq => absurd heq hgf, ?_⟩
      simp only [Pi.add_apply]
      omega
  · by_cases hgf : g = f
    · exact .inr (hgf ▸ hfree)
    · rw [update_of_ne hgf] at hg
      exact .inl hg

theorem Inv.filedup (href : 0 < (s.files f).ref) :
    Inv (s.setFile f { s.files f with ref := (s.files f).ref + 1 })
      (update views p ((views p).add (tok (.file f)))) := by
  have htok : ∀ t, 0 ≤ tok (.file f) t := tok_nonneg _
  have hview : (views p).add (tok (.file f))
      = { (views p).add (tok (.file f)) with fresh := (views p).fresh } := rfl
  rw [hview]
  refine h.files ha ?_ (fun t => ?_) (fun _ hnone => hnone)
    (fun g hg => ⟨h.fresh_type hg fun heq => ?_, ?_⟩) (fun g hg => .inl hg) nofun
  · have hpos : 0 < (s.files f).ref + 1 := Nat.succ_pos _
    rw [File.weight_pos href, File.weight_pos hpos]
    simp
  · have hold := h.nonneg p t
    have ht := htok t
    simp only [Pi.add_apply]
    omega
  · exact ((h.knows p).fresh f (heq ▸ hg)).1
  · have hone := ((h.knows p).fresh g hg).2
    have ht := htok (.file g)
    simp only [Pi.add_apply]
    omega

theorem Inv.setFile {type : FileType} {readable writable : Bool} (hfresh : (views p).fresh f = true)
    (hown : ∀ t, 0 ≤ s.share p t + (views p).held t - type.weight writable t) :
    Inv (s.setFile f { s.files f with type := type, readable := readable, writable := writable })
      (update views p { (views p).add (-type.weight writable) with
        fresh := update (views p).fresh f false }) := by
  obtain ⟨hnone, hone⟩ := (h.knows p).fresh f hfresh
  have href : 0 < (s.files f).ref := by
    have hcount := h.one_le_count hone
    simp only [State.count] at hcount
    omega
  have hfile : ∀ g, type.weight writable (.file g) = 0 := fun g => by
    cases type <;> simp [FileType.weight, tok]
  refine h.files ha ?_ (fun t => ?_) (fun hnot => by rw [hfresh] at hnot; cases hnot)
    (fun g hg => ?_) (fun g hg => ?_) (fun hzero => absurd hzero (by simp only; omega))
  · simp only [File.weight, href, if_true, hnone, FileType.weight]
    simp
  · have ht := hown t
    simp only [Pi.add_apply, Pi.neg_apply]
    omega
  · by_cases hgf : g = f
    · rw [hgf, update_self] at hg
      cases hg
    · rw [update_of_ne hgf] at hg
      have hold := ((h.knows p).fresh g hg).2
      refine ⟨h.fresh_type hg fun heq => absurd heq hgf, ?_⟩
      simp only [Pi.add_apply, Pi.neg_apply, hfile]
      omega
  · by_cases hgf : g = f
    · rw [hgf, update_self] at hg
      cases hg
    · rw [update_of_ne hgf] at hg
      exact .inl hg

theorem Inv.fileclose (hown : 1 ≤ (views p).ownFile f) {r : Option File}
    (hop : s.fileclose f = .ok r s') :
    ((views p).fresh f = true → ∀ ff, r = some ff → ff.type = .none) ∧
      Inv s' (update views p (((views p).closed f).add (leftOver r))) := by
  have hheld : 1 ≤ s.share p (.file f) + (views p).held (.file f) :=
    le_trans hown ((h.knows p).ownFile_le f)
  have hclosed : ∀ d : Token → Int, ((views p).closed f).add d
      = { (views p).add (-tok (.file f) + d) with
          fresh := update (views p).fresh f false } := fun d => by
    simp only [View.closed, View.add, sub_eq_add_neg, add_assoc]
  -- the files that stay fresh are others
  have hfresh : ∀ {file : File} {d : Token → Int}, (∀ t, 0 ≤ d t) → ∀ g,
      update (views p).fresh f false g = true →
      ((s.setFile f file).files g).type = .none ∧
        1 ≤ s.share p (.file g) + ((views p).held + (-tok (.file f) + d)) (.file g) := by
    intro file d hd g hg
    by_cases hgf : g = f
    · rw [hgf, update_self] at hg
      cases hg
    · rw [update_of_ne hgf] at hg
      have hold := ((h.knows p).fresh g hg).2
      have hzero : tok (.file f) (.file g) = 0 := by simp [tok, hgf]
      have hnonneg := hd (.file g)
      refine ⟨h.fresh_type hg fun heq => absurd heq hgf, ?_⟩
      simp only [Pi.add_apply, Pi.neg_apply, hzero]
      omega
  have hnew : ∀ g, update (views p).fresh f false g = true →
      (views p).fresh g = true ∨ (s.files g).ref = 0 := fun g hg => by
    by_cases hgf : g = f
    · rw [hgf, update_self] at hg
      cases hg
    · rw [update_of_ne hgf] at hg
      exact .inl hg
  have hnonneg : ∀ {d : Token → Int}, (∀ t, 0 ≤ d t) → ∀ t,
      0 ≤ s.share p t + ((views p).held + (-tok (.file f) + d)) t := fun {d} hd t => by
    have hsub := nonneg_sub (h.nonneg p) hheld t
    have ht := hd t
    simp only [Pi.add_apply, Pi.neg_apply]
    omega
  rw [State.fileclose] at hop
  split_ifs at hop with hpanic hmore
  · -- other references remain
    cases hop
    refine ⟨fun _ _ => (by simp), ?_⟩
    rw [hclosed]
    refine h.files ha ?_ (hnonneg fun _ => Int.le_refl 0) (fun _ hnone => hnone)
      (hfresh fun _ => Int.le_refl 0) hnew (fun hzero => absurd hzero (by simp only; omega))
    have href : 0 < (s.files f).ref := by omega
    have hint : (((s.files f).ref - 1 : Nat) : Int) - (s.files f).ref = -1 := by omega
    rw [File.weight_pos href, File.weight_pos hmore, hint]
    simp [leftOver]
  · -- the last reference
    cases hop
    refine ⟨fun hf ff hff => ?_, ?_⟩
    · cases hff
      exact ((h.knows p).fresh f hf).1
    · have href : (s.files f).ref = 1 := by omega
      have hw : ∀ t, 0 ≤ (s.files f).type.weight (s.files f).writable t := weight_nonneg _ _
      rw [hclosed]
      refine h.files ha ?_ (hnonneg hw) (fun _ _ => rfl) (hfresh hw) hnew fun _ => rfl
      have hpos : 0 < (s.files f).ref := by omega
      rw [File.weight_pos hpos]
      simp [File.weight, href, leftOver]

theorem Inv.counted (hrest : s' = { s with
      pipes := s'.pipes, npipes := s'.npipes, icache := s'.icache, tick := s'.tick })
    (hcount : s'.count = s.count + d) (hnonneg : ∀ t, 0 ≤ s.share p t + ((views p).held + d) t)
    (hfile : ∀ f, 0 ≤ d (.file f))
    (hunique : ∀ i j, 0 < (s'.icache i).ref → 0 < (s'.icache j).ref →
      (s'.icache i).dev = (s'.icache j).dev → (s'.icache i).inum = (s'.icache j).inum → i = j)
    (hpipes : ∀ x, s'.npipes ≤ x → s'.pipes x = ⟨false, false, 0⟩) :
    Inv s' (update views p ((views p).add d)) := by
  have hknows := h.knows p
  generalize s'.pipes = pipes, s'.npipes = npipes, s'.icache = icache, s'.tick = tick at *
  subst hrest
  refine h.own (hknows.active ha) rfl (fun _ _ => rfl) (fun _ _ => rfl) (fun _ _ htype => htype)
    (fun _ _ => rfl) (fun _ _ => rfl) rfl ?_ hnonneg (fun hidle => ?_) hknows.slots hknows.cwd
    (fun f hx => ?_) hknows.ops (fun f hx => .inl hx) h.closed hunique hpipes
  · rw [hcount, show State.outside { s with pipes, npipes, icache, tick } = s.outside from rfl,
      show State.share { s with pipes, npipes, icache, tick } = s.share from rfl]
    simp only [View.add]
    abel
  · rw [show ((views p).add d).active = true from ha] at hidle
    cases hidle
  · obtain ⟨htype, hone⟩ := hknows.fresh f hx
    have hd := hfile f
    have hshare : State.share { s with pipes, npipes, icache, tick } = s.share := rfl
    rw [hshare]
    refine ⟨htype, ?_⟩
    simp only [View.add, Pi.add_apply]
    omega

theorem Inv.iref {e : Entry} (href : e.ref = (s.icache ip).ref + 1)
    (hunique : ∀ j, j ≠ ip → 0 < (s.icache j).ref → e.dev = (s.icache j).dev →
      e.inum ≠ (s.icache j).inum) :
    Inv (s.setEntry ip e) (update views p ((views p).add (tok (.inode ip)))) := by
  have hself : (s.setEntry ip e).icache ip = e := update_self ..
  have hother : ∀ j, j ≠ ip → (s.setEntry ip e).icache j = s.icache j := fun j hj =>
    update_of_ne hj ..
  refine h.counted ha rfl ?_ (fun t => ?_) (fun f => tok_nonneg _ _)
    (fun i j hi hj hdev hinum => ?_) h.pipes
  · have hint : (e.ref : Int) - (s.icache ip).ref = 1 := by omega
    rw [count_setEntry, hint, one_smul]
  · have hold := h.nonneg p t
    have ht := tok_nonneg (.inode ip) t
    simp only [Pi.add_apply]
    omega
  · by_cases hii : i = ip
    · by_cases hjj : j = ip
      · rw [hii, hjj]
      · rw [hii, hself, hother j hjj] at hdev hinum
        rw [hother j hjj] at hj
        exact absurd hinum (hunique j hjj hj hdev)
    · by_cases hjj : j = ip
      · rw [hjj, hself, hother i hii] at hdev hinum
        rw [hother i hii] at hi
        exact absurd hinum.symm (hunique i hii hi hdev.symm)
      · rw [hother i hii, hother j hjj] at *
        exact h.unique i j hi hj hdev hinum

theorem Inv.iget {dev inum : Nat} (hop : s.iget dev inum = .ok ip s') :
    Inv s' (update views p ((views p).add (tok (.inode ip)))) := by
  rw [State.iget] at hop
  simp only at hop
  split at hop
  · case _ jp hhit =>
    cases hop
    have hfound := List.find?_some hhit
    simp only [Bool.and_eq_true, decide_eq_true_eq, beq_iff_eq] at hfound
    exact h.iref ha rfl fun j hj hpos hdev hinum =>
      hj (h.unique j ip hpos hfound.1.1 hdev.symm hinum.symm)
  · case _ hmiss =>
    split at hop
    · case _ jp hempty =>
      cases hop
      have hzero : (s.icache ip).ref = 0 := by simpa using List.find?_some hempty
      refine h.iref ha (by rw [hzero]) fun j _ hpos hdev hinum => ?_
      have hnot := List.find?_eq_none.mp hmiss j (List.mem_finRange j)
      simp only [Bool.and_eq_true, decide_eq_true_eq, beq_iff_eq, not_and] at hnot
      exact hnot ⟨hpos, hdev.symm⟩ hinum.symm
    · cases hop

theorem Inv.idupCwd (hcwd : s.cwd p = some ip) (hheld : 0 ≤ (views p).held (.inode ip)) :
    Inv (s.setEntry ip { s.icache ip with ref := (s.icache ip).ref + 1 })
      (update views p ((views p).add (tok (.inode ip)))) := by
  have hpos : 0 < (s.icache ip).ref := by
    refine h.ref_pos (p := p) ?_
    rw [share_inode, if_pos hcwd]
    omega
  exact h.iref ha rfl fun j hj hj0 hdev hinum => hj (h.unique j ip hj0 hpos hdev.symm hinum.symm)

theorem Inv.unref (hown : 1 ≤ (views p).ownInode ip) :
    Inv (s.setEntry ip { s.icache ip with ref := (s.icache ip).ref - 1 })
      (update views p ((views p).add (-tok (.inode ip)))) := by
  have hone := le_trans hown ((h.knows p).ownInode_le ip)
  have hpos := h.ref_pos hone
  refine h.counted ha rfl ?_ (fun t => ?_) (fun f => by simp [tok])
    (fun i j hi hj hdev hinum => ?_) h.pipes
  · have hint : (((s.icache ip).ref - 1 : Nat) : Int) - (s.icache ip).ref = -1 := by omega
    rw [count_setEntry, hint]
    simp
  · have hsub := nonneg_sub (h.nonneg p) hone t
    simp only [Pi.add_apply, Pi.neg_apply]
    omega
  · -- the entries keep their names
    have hsame : ∀ k, ((s.setEntry ip { s.icache ip with ref := (s.icache ip).ref - 1 }).icache
      k).dev
        = (s.icache k).dev ∧ ((s.setEntry ip
          { s.icache ip with ref := (s.icache ip).ref - 1 }).icache k).inum = (s.icache k).inum ∧
        ((s.setEntry ip { s.icache ip with ref := (s.icache ip).ref - 1 }).icache k).ref
          ≤ (s.icache k).ref := fun k => by
      by_cases hk : k = ip
      · subst hk
        simp [State.setEntry]
      · simp [State.setEntry, hk]
    obtain ⟨hdi, hni, hri⟩ := hsame i
    obtain ⟨hdj, hnj, hrj⟩ := hsame j
    rw [hdi, hdj] at hdev
    rw [hni, hnj] at hinum
    exact h.unique i j (by omega) (by omega) hdev hinum

theorem Inv.kalloc :
    Inv { s.setPipe s.npipes ⟨true, true, 0⟩ with npipes := s.npipes + 1, tick := s.tick + 1 }
      (update views p
        ((views p).add (tok (.pend s.npipes false) + tok (.pend s.npipes true)))) := by
  have hold := h.pipes s.npipes (Nat.le_refl _)
  refine h.counted ha rfl (count_setPipe (Nat.lt_succ_self _) (fun y hy => ?_) ?_) (fun t => ?_)
    (fun f => ?_) h.unique fun x hx => ?_
  · omega
  · simp [State.count, hold, Pipe.isOpen, Pipe.shut]
  · have hnonneg := h.nonneg p t
    have hr := tok_nonneg (.pend s.npipes false) t
    have hw := tok_nonneg (.pend s.npipes true) t
    simp only [Pi.add_apply]
    omega
  · simp [tok]
  · have hne : x ≠ s.npipes := by simp only at hx; omega
    simp only [State.setPipe, update_of_ne hne]
    exact h.pipes x (by simp only at hx; omega)

theorem Inv.pipeclose {w : Bool} (hheld : 1 ≤ (views p).held (.pend x w)) :
    Inv (s.pipeclose x w).2 (update views p ((views p).add
      (-tok (.pend x w) + if (s.pipeclose x w).1 then tok (.page x) else 0))) := by
  obtain ⟨hone, hcount⟩ := h.one_le_held hheld
  have hopen : (s.pipes x).isOpen w = true := by
    by_contra hshut
    simp only [State.count, hshut, if_false] at hcount
    omega
  have hx : x < s.npipes := by
    by_contra hge
    rw [h.pipes x (by omega)] at hopen
    cases w <;> cases hopen
  refine h.counted ha rfl (count_setPipe hx (fun _ _ => Iff.rfl) ?_) (fun t => ?_) (fun f => ?_)
    h.unique fun y hy => ?_
  · cases w with
    | true =>
      have hw : (s.pipes x).writeopen = true := hopen
      simp only [State.pipeclose, State.count, Pipe.isOpen, Pipe.shut, hw, hx, true_and]
      cases hr : (s.pipes x).readopen <;> simp
    | false =>
      have hr : (s.pipes x).readopen = true := hopen
      simp only [State.pipeclose, State.count, Pipe.isOpen, Pipe.shut, hr, hx, true_and]
      cases hw : (s.pipes x).writeopen <;> simp
  · have hsub := nonneg_sub (h.nonneg p) hone t
    have hpage : 0 ≤ (if (s.pipeclose x w).1 then tok (.page x) else 0 : Token → Int) t := by
      split
      · exact tok_nonneg _ t
      · exact Int.le_refl 0
    simp only [Pi.add_apply, Pi.neg_apply]
    omega
  · split <;> simp [tok]
  · have hne : y ≠ x := by
      have hle : s.npipes ≤ y := hy
      omega
    simp only [State.pipeclose, State.setPipe, update_of_ne hne]
    exact h.pipes y hy

theorem Inv.kfree (hheld : 1 ≤ (views p).held (.page x)) :
    Inv (s.setPipe x { s.pipes x with frees := (s.pipes x).frees + 1 })
      (update views p ((views p).add (-tok (.page x)))) := by
  obtain ⟨hone, hcount⟩ := h.one_le_held hheld
  have hshut : x < s.npipes ∧ (s.pipes x).shut = true := by
    by_contra hnot
    simp only [State.count, hnot, if_false] at hcount
    omega
  refine h.counted ha rfl (count_setPipe hshut.1 (fun _ _ => Iff.rfl) ?_) (fun t => ?_)
    (fun f => ?_) h.unique fun y hy => ?_
  · have hr : ∀ w, Pipe.isOpen { s.pipes x with frees := (s.pipes x).frees + 1 } w
        = (s.pipes x).isOpen w := fun _ => rfl
    have hs : Pipe.shut { s.pipes x with frees := (s.pipes x).frees + 1 } = true := hshut.2
    simp only [State.count, hr, hs, hshut, sub_self, zero_zsmul, zero_add, if_true, and_self]
    have hint : (1 : Int) - ((s.pipes x).frees + 1 : Nat) - (1 - (s.pipes x).frees) = -1 := by omega
    rw [hint]
    simp
  · have hsub := nonneg_sub (h.nonneg p) hone t
    simp only [Pi.add_apply, Pi.neg_apply]
    omega
  · simp [tok]
  · have hne : y ≠ x := by
      have hle : s.npipes ≤ y := hy
      omega
    simp only [State.setPipe, update_of_ne hne]
    exact h.pipes y hy

/-- A process changes its own descriptors or directory and keeps the balance `w`. -/
theorem Inv.trade {w : Token → Int}
    {known : Fin NOFILE → Option (Option FileId)} {cwd : Option (Option InodeId)}
    (hrest : s' = { s with ofile := s'.ofile, cwd := s'.cwd })
    (hofile : ∀ q, q ≠ p → s'.ofile q = s.ofile q) (hcwd : ∀ q, q ≠ p → s'.cwd q = s.cwd q)
    (hshare : s'.share p = s.share p + -w) (hother : ∀ q, q ≠ p → s'.share q = s.share q)
    (hslots : ∀ fd x, known fd = some x → s'.ofile p fd = x)
    (hkcwd : ∀ x, cwd = some x → s'.cwd p = x) :
    Inv s' (update views p { (views p).add w with known := known, cwd := cwd }) := by
  have hknows := h.knows p
  have htotal := sum_share hshare hother
  have hpoint : ∀ t, s'.share p t + ((views p).held + w) t = s.share p t + (views p).held t := by
    intro t
    rw [hshare]
    simp only [Pi.add_apply, Pi.neg_apply]
    omega
  have hcount : s'.count = s.count := by rw [hrest]; exact count_congr rfl rfl rfl rfl
  have houtside : s'.outside = s.outside := by rw [hrest]; rfl
  generalize s'.ofile = ofile, s'.cwd = dirs at *
  subst hrest
  refine h.own (hknows.active ha) rfl hofile hcwd (fun _ _ htype => htype) (fun _ _ => rfl)
    (fun _ _ => rfl) rfl ?_ (fun t => ?_) (fun hidle => ?_) hslots hkcwd
    (fun f hf => ⟨(hknows.fresh f hf).1, ?_⟩) hknows.ops (fun f hf => .inl hf) h.closed h.unique
    h.pipes
  · rw [htotal, hcount, houtside]
    simp only [View.add]
    abel
  · exact le_of_le_of_eq (h.nonneg p t) (hpoint t).symm
  · rw [show (views p).active = false from hidle] at ha
    cases ha
  · exact le_of_le_of_eq (hknows.fresh f hf).2 (hpoint (.file f)).symm

theorem Inv.setSlot (fd : Fin NOFILE) (x : Option FileId) : Inv (s.setSlot p fd x) (update views p
      { (views p).add (slotWeight (s.ofile p fd) - slotWeight x) with
        known := update (views p).known fd (some x) }) := by
  refine h.trade ha rfl (fun q hq => update_of_ne hq ..) (fun _ _ => rfl) ?_
    (fun q hq => share_setSlot_ne hq fd x) (fun i y hy => ?_) (h.knows p).cwd
  · rw [share_setSlot]
    abel
  · by_cases hi : i = fd
    · subst hi
      simpa [State.setSlot] using hy
    · simp only [update_of_ne hi] at hy
      simpa [State.setSlot, hi] using (h.knows p).slots i y hy

theorem Inv.setCwd (x : Option InodeId) : Inv (s.setCwd p x) (update views p
      { (views p).add (cwdWeight (s.cwd p) - cwdWeight x) with cwd := some x }) := by
  refine h.trade ha rfl (fun _ _ => rfl) (fun q hq => update_of_ne hq ..) ?_
    (fun q hq => share_setCwd_ne hq x) (h.knows p).slots (fun y hy => ?_)
  · rw [share_setCwd]
    abel
  · cases hy
    exact update_self ..

theorem Inv.setProc {st : ProcState} {child : Option (Child n)} (hstill : s.procs q ≠ .running)
    (hother : ∀ r c, r ≠ p → (views r).child = some c → c.np ≠ q)
    (hempty : st = .unused ∨ st = .zombie → (∀ fd, s.ofile q fd = none) ∧ s.cwd q = none)
    (hembryo : st = .embryo → ∃ c, child = some c ∧ c.np = q)
    (hchild : ∀ c, child = some c → ((s.setProc q st).procs c.np = .embryo ∧
      (∀ fd, c.slots fd = true → s.ofile c.np fd = none) ∧ (c.cwd = true → s.cwd c.np = none)) ∧
      (s.procs c.np = .unused ∨ ∃ d, (views p).child = some d ∧ d.np = c.np))
    (hdropped : ∀ d, (views p).child = some d → d.np = q ∨ child = some d) :
    Inv (s.setProc q st) (update views p { views p with child := child }) := by
  have hknows := h.knows p
  have hrun := hknows.active ha
  have hqp : q ≠ p := fun heq => hstill (heq ▸ hrun)
  have hframe : Frame s (s.setProc q st) p (some q) (views p) := by
    refine ⟨fun _ _ _ => rfl, fun _ _ _ => rfl, fun r _ hr => ?_, fun _ _ htype => htype,
      fun _ _ => rfl, fun _ _ => rfl⟩
    have hrq : r ≠ q := fun heq => hr (heq ▸ rfl)
    exact update_of_ne hrq ..
  have hself : (s.setProc q st).procs q = st := update_self ..
  have hp : (s.setProc q st).procs p = .running := by
    rw [State.setProc]
    simp only [update_of_ne hqp.symm]
    exact hrun
  refine h.move hframe (fun r hr => ?_) hrun rfl (h.nonneg p) ?_ (fun f hf => .inl hf)
    (fun c hc => (hchild c hc).2) (fun d hd => ?_) ?_ ?_ h.closed h.unique h.pipes
  · cases hr
    exact ⟨hqp, hstill, fun _ => Int.le_refl _, hother⟩
  · refine ⟨fun _ => hp, fun hidle => ?_, hknows.slots, hknows.cwd, hknows.fresh,
      fun c hc => (hchild c hc).1, hknows.ops⟩
    rw [show (views p).active = false from hidle] at ha
    cases ha
  · exact (hdropped d hd).imp_left fun heq => congrArg some heq.symm
  · rintro r (rfl | hr) hst
    · rw [hp] at hst
      rcases hst with hst | hst <;> cases hst
    · cases hr
      rw [hself] at hst
      exact hempty hst
  · rintro r (rfl | hr) hst
    · rw [hp] at hst
      cases hst
    · cases hr
      rw [hself] at hst
      exact hembryo hst

theorem Inv.allocproc (hnone : (views p).child = none) (hq : s.procs q = .unused) :
    Inv (s.setProc q .embryo) (update views p
      { views p with child := some ⟨q, fun _ => true, true⟩ }) := by
  refine h.setProc ha (by rw [hq]; exact nofun) (fun r c _ hc heq => ?_) nofun
    (fun _ => ⟨_, rfl, rfl⟩) (fun c hc => ?_) fun d hd => ?_
  · have hembryo := ((h.knows r).child c hc).1
    rw [heq, hq] at hembryo
    cases hembryo
  · cases hc
    obtain ⟨hslots, hcwd⟩ := h.empty q (.inl hq)
    exact ⟨⟨update_self .., fun fd _ => hslots fd, fun _ => hcwd⟩, .inl hq⟩
  · rw [hnone] at hd
    cases hd

theorem Inv.abandon (hc : (views p).child = some ⟨q, fun _ => true, true⟩) :
    Inv (s.setProc q .unused) (update views p { views p with child := none }) := by
  obtain ⟨-, hslots, hcwd⟩ := (h.knows p).child _ hc
  refine h.setProc ha (h.child_still hc) (h.child_other hc)
    (fun _ => ⟨fun fd => hslots fd rfl, hcwd rfl⟩) nofun nofun fun d hd => ?_
  rw [hc] at hd
  cases hd
  exact .inl rfl

theorem Inv.runnable (hc : (views p).child = some c) :
    Inv (s.setProc c.np .running) (update views p { views p with child := none }) := by
  refine h.setProc ha (h.child_still hc) (h.child_other hc) (fun hst => ?_) nofun nofun
    fun d hd => ?_
  · rcases hst with hst | hst <;> cases hst
  · rw [hc] at hd
    cases hd
    exact .inl rfl

theorem Inv.reap (hq : s.procs q = .zombie) :
    Inv (s.setProc q .unused) (update views p (views p)) := by
  have hembryo : ∀ r c, (views r).child = some c → c.np ≠ q := fun r c hc heq => by
    have hst := ((h.knows r).child c hc).1
    rw [heq, hq] at hst
    cases hst
  refine h.setProc ha (by rw [hq]; exact nofun) (fun r c _ hc => hembryo r c hc)
    (fun _ => h.empty q (.inr hq)) nofun (fun c hc => ⟨?_, .inr ⟨c, hc, rfl⟩⟩)
    fun d hd => .inr hd
  obtain ⟨hst, hslots, hcwd⟩ := (h.knows p).child c hc
  refine ⟨?_, hslots, hcwd⟩
  simp only [State.setProc, update_of_ne (hembryo p c hc)]
  exact hst

theorem Inv.toChild {d : Child n}
    (hc : (views p).child = some c) (hd : d.np = c.np) (hcount : s'.count = s.count)
    (hfiles : s'.files = s.files) (hicache : s'.icache = s.icache) (hpipes : s'.pipes = s.pipes)
    (hnpipes : s'.npipes = s.npipes) (hprocs : s'.procs = s.procs)
    (hofile : ∀ q, q ≠ c.np → s'.ofile q = s.ofile q) (hcwd : ∀ q, q ≠ c.np → s'.cwd q = s.cwd q)
    (hbegins : s'.begins = s.begins) (hends : s'.ends = s.ends)
    (hshare : s'.share c.np = s.share c.np + tok t) (hown : 1 ≤ s.share p t + (views p).held t)
    (hfresh : ∀ f, t = .file f → (views p).fresh f = false)
    (hslots : ∀ fd, d.slots fd = true → s'.ofile c.np fd = none)
    (hdcwd : d.cwd = true → s'.cwd c.np = none) :
    Inv s' (update views p { (views p).add (-tok t) with child := some d }) := by
  have hknows := h.knows p
  have hrun := hknows.active ha
  have hnp := h.child_still hc
  have hne : c.np ≠ p := fun heq => hnp (heq ▸ hrun)
  have hsame : ∀ q, q ≠ c.np → s'.share q = s.share q := fun q hq => by
    rw [State.share, State.share, hofile q hq, hcwd q hq]
  have hframe : Frame s s' p (some c.np) (views p) := by
    refine ⟨fun q _ hq => hofile q fun heq => hq (heq ▸ rfl),
      fun q _ hq => hcwd q fun heq => hq (heq ▸ rfl), fun q _ _ => by rw [hprocs],
      fun f _ htype => by rwa [hfiles], fun q _ => by rw [hbegins], fun q _ => by rw [hends]⟩
  have hembryo := (hknows.child c hc).1
  refine h.move hframe (fun q hq => ?_) hrun ?_ (fun u => ?_) ?_ (fun f hf => .inl hf)
    (fun e he => ?_) (fun e he => ?_) ?_ ?_ (by rw [hfiles]; exact h.closed)
    (by rw [hicache]; exact h.unique) (by rw [hpipes, hnpipes]; exact h.pipes)
  · cases hq
    refine ⟨hne, hnp, fun u => ?_, h.child_other hc⟩
    have hu := tok_nonneg t u
    rw [hshare, Pi.add_apply]
    omega
  · have houtside : s'.outside = s.outside := by rw [State.outside, State.outside, hfiles]
    rw [hcount, houtside, sum_share hshare fun q hq => hsame q hq]
    simp only [View.add]
    abel
  · have hsub := nonneg_sub (h.nonneg p) hown u
    rw [hsame p hne.symm]
    simp only [View.add, Pi.add_apply, Pi.neg_apply]
    omega
  · refine ⟨fun _ => by rw [hprocs, hrun], fun hidle => ?_, fun fd y hy => ?_, fun y hy => ?_,
      fun f hf => ?_, fun e he => ?_, ?_⟩
    · rw [show (views p).active = false from hidle] at ha
      cases ha
    · rw [hofile p hne.symm]
      exact hknows.slots fd y hy
    · rw [hcwd p hne.symm]
      exact hknows.cwd y hy
    · obtain ⟨htype, hone⟩ := hknows.fresh f hf
      have hft : tok t (.file f) = 0 := by
        rw [tok, if_neg]
        intro heq
        have hf' : (views p).fresh f = true := hf
        rw [hfresh f heq.symm] at hf'
        cases hf'
      rw [hfiles, hsame p hne.symm]
      refine ⟨htype, ?_⟩
      simp only [View.add, Pi.add_apply, Pi.neg_apply, hft]
      omega
    · cases he
      rw [hd, hprocs]
      exact ⟨hembryo, hslots, hdcwd⟩
    · rw [hbegins, hends]
      exact hknows.ops
  · cases he
    exact .inr ⟨c, hc, hd.symm⟩
  · rw [hc] at he
    cases he
    exact .inl rfl
  · rintro q (rfl | hq) hst
    · rw [hprocs, hrun] at hst
      rcases hst with hst | hst <;> cases hst
    · cases hq
      rw [hprocs, hembryo] at hst
      rcases hst with hst | hst <;> cases hst
  · rintro q (rfl | hq) hst
    · rw [hprocs, hrun] at hst
      cases hst
    · cases hq
      exact ⟨d, rfl, hd⟩

end Active

theorem Inv.zombie (h : Inv s views) (hat : (views p).At false)
    (hknown : ∀ fd, (views p).known fd = some none) (hcwd : (views p).cwd = some none) :
    Inv (s.setProc p .zombie) (update views p .idle) := by
  have hknows := h.knows p
  have hrun := hknows.active hat.active
  have hframe : Frame s (s.setProc p .zombie) p none (views p) :=
    ⟨fun _ _ _ => rfl, fun _ _ _ => rfl, fun q hq _ => update_of_ne hq ..,
      fun _ _ htype => htype, fun _ _ => rfl, fun _ _ => rfl⟩
  have hheld : (View.idle : View n).held = (views p).held := hat.held.symm
  have hself : (s.setProc p .zombie).procs p = .zombie := update_self ..
  refine h.move hframe nofun hrun ?_ (fun t => ?_) ⟨nofun, fun _ => rfl, nofun, nofun, nofun,
    nofun, ?_⟩ nofun nofun (fun d hd => ?_) ?_ ?_ h.closed h.unique h.pipes
  · rw [hheld]
    rfl
  · rw [hheld]
    exact h.nonneg p t
  · have hops := hknows.ops
    rw [hat.inOp] at hops
    exact hops
  · rw [hat.child] at hd
    cases hd
  · rintro q (rfl | hq) -
    · exact ⟨fun fd => hknows.slots fd none (hknown fd), hknows.cwd none hcwd⟩
    · cases hq
  · rintro q (rfl | hq) hst
    · rw [hself] at hst
      cases hst
    · cases hq

end Xv6.Files
