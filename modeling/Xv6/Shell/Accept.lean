import Xv6.Shell.Scan

/-!
# The parser accepts the grammar

Whatever the parser returns is derived from the tokens it has read; and it reads back every
derivation that is followed by a token at which it must stop.  With as many rounds as four
times the number of tokens it never spins.
-/

namespace Xv6.Shell

open Lib Fs List Protocol

variable {E : Prop} {α : Type} {ts : List (Tok Span)} {Q : α → List (Tok Span) → Prop}
  {ds : List (Tok Span)} {qs : List (Redir Span)} {toks : List Symbol} {fuel : Nat}

theorem wp_peek {k : Bool → ParseM α}
    (h : (reading E).wp (k (heads toks ts)) Q ts) : (reading E).wp (peek toks >>= k) Q ts := by
  refine wp_ask trivial ?_
  intro r us ⟨hr, hus⟩
  rwa [hr, hus]

theorem wp_gettoken {k : Option (Tok Span) → ParseM α}
    (h : (reading E).wp (k ts.head?) Q ts.tail) : (reading E).wp (gettoken >>= k) Q ts := by
  refine wp_ask trivial ?_
  intro r us ⟨hr, hus⟩
  rwa [hr, hus]

theorem wp_panic {msg : String} (hE : E) : (reading E).wp (panic msg : ParseM α) Q ts :=
  ⟨hE, fun r => nomatch r⟩

theorem exists_of_heads (h : heads toks ts = true) :
    ∃ t us, ts = t :: us ∧ ((∃ x ∈ toks, t = .sym x) ∨ t = .append ∧ .gt ∈ toks) := by
  match ts with
  | [] => cases h
  | .word _ :: _ => cases h
  | .sym x :: us => exact ⟨_, us, rfl, .inl ⟨x, by simpa [heads] using h, rfl⟩⟩
  | .append :: us => exact ⟨_, us, rfl, .inr ⟨rfl, by simpa [heads] using h⟩⟩

theorem exists_of_heads_single {x : Symbol} (hx : x ≠ .gt) (h : heads [x] ts = true) :
    ∃ us, ts = .sym x :: us := by
  obtain ⟨t, us, rfl, ⟨y, hy, rfl⟩ | ⟨-, hgt⟩⟩ := exists_of_heads h
  · rw [mem_singleton.mp hy]
    exact ⟨us, rfl⟩
  · exact absurd (mem_singleton.mp hgt).symm hx

theorem parseredirs_sound (hE : E) (rs : List (Redir Span)) (fuel : Nat)
    (hfuel : ts.length < fuel) :
    (reading E).wp (parseredirs rs fuel)
      (fun rs' us => ∃ ds qs, ts = ds ++ us ∧ Redirs ds qs ∧ rs' = rs ++ qs) ts := by
  induction fuel generalizing ts rs with
  | zero => omega
  | succ fuel ih =>
    refine wp_peek ?_
    cases hhead : heads [.lt, .gt] ts with
    | false => exact ⟨[], [], rfl, .nil, (append_nil rs).symm⟩
    | true =>
      obtain ⟨t, us, rfl, ht⟩ := exists_of_heads hhead
      refine wp_gettoken (wp_gettoken ?_)
      match us with
      | [] | .sym _ :: _ | .append :: _ => exact wp_panic hE
      | .word w :: us =>
        simp only [length_cons] at hfuel
        refine wp_mono (ih _ (by simp only [tail_cons]; omega)) ?_
        intro rs' vs ⟨ds, qs, hds, hqs, hrs'⟩
        simp only [tail_cons] at hds
        have hredir : ∃ r, redirOf w (some t) = [r] ∧ Redirs (t :: .word w :: ds) (r :: qs) := by
          rcases ht with ⟨x, hx, rfl⟩ | ⟨rfl, -⟩
          · simp only [mem_cons, not_mem_nil, or_false] at hx
            rcases hx with rfl | rfl
            · exact ⟨_, rfl, .input hqs⟩
            · exact ⟨_, rfl, .output hqs⟩
          · exact ⟨_, rfl, .append hqs⟩
        obtain ⟨r, hr, hderived⟩ := hredir
        refine ⟨_, _, by rw [hds]; rfl, hderived, ?_⟩
        rw [hrs', head?_cons, hr, append_assoc, singleton_append]

theorem parseargs_sound (hE : E) (argv : List Span) (rs : List (Redir Span)) (fuel : Nat)
    (hargv : argv.length ≤ MAXARGS - 1) (hfuel : ts.length < fuel) :
    (reading E).wp (parseargs argv rs fuel)
      (fun c us => ∃ ds ws qs, ts = ds ++ us ∧ Args ds ws qs ∧
        (argv ++ ws).length ≤ MAXARGS - 1 ∧ c = redircmd (.exec (argv ++ ws)) (rs ++ qs)) ts := by
  induction fuel generalizing ts argv rs with
  | zero => omega
  | succ fuel ih =>
    have hdone : ∃ ds ws qs, ts = ds ++ ts ∧ Args ds ws qs ∧ (argv ++ ws).length ≤ MAXARGS - 1 ∧
        redircmd (.exec argv) rs = redircmd (.exec (argv ++ ws)) (rs ++ qs) :=
      ⟨[], [], [], rfl, .nil, by rwa [append_nil], by rw [append_nil, append_nil]⟩
    refine wp_peek ?_
    cases heads [.bar, .rpar, .amp, .semi] ts with
    | true => exact hdone
    | false =>
      refine wp_gettoken ?_
      match ts with
      | [] => exact hdone
      | .sym _ :: _ | .append :: _ => exact wp_panic hE
      | .word w :: us =>
        simp only [length_cons] at hfuel
        simp only [head?_cons, tail_cons]
        split
        · exact wp_panic hE
        · case isFalse hlen =>
          refine wp_bind (wp_mono (parseredirs_sound hE rs fuel (by omega)) ?_)
          intro rs' us' ⟨ds, qs, hds, hqs, hrs'⟩
          have hlen' : us'.length < fuel := by
            rw [hds, length_append] at hfuel
            omega
          refine wp_mono (ih (argv ++ [w]) rs' (by omega) hlen') ?_
          intro c vs ⟨es, ws, ps, hes, hargs, hle, hc⟩
          refine ⟨_, _, _, ?_, .cons (w := w) hqs hargs, ?_, ?_⟩
          · rw [hds, hes, cons_append, append_assoc]
          · rwa [append_assoc, singleton_append] at hle
          · rw [hc, hrs', append_assoc, append_assoc, singleton_append]

theorem parsebacks_sound (c : Cmd Span) (fuel : Nat) (hfuel : ts.length < fuel) :
    (reading E).wp (parsebacks c fuel)
      (fun c' us => ∃ k, ts = replicate k (.sym .amp) ++ us ∧ c' = backcmds k c) ts := by
  induction fuel generalizing ts c with
  | zero => omega
  | succ fuel ih =>
    refine wp_peek ?_
    cases hhead : heads [.amp] ts with
    | false => exact ⟨0, rfl, rfl⟩
    | true =>
      obtain ⟨us, rfl⟩ := exists_of_heads_single (by decide) hhead
      rw [length_cons] at hfuel
      refine wp_gettoken (wp_mono (ih (.back c) (by simp only [tail_cons]; omega)) ?_)
      intro c' vs ⟨k, hk, hc'⟩
      simp only [tail_cons] at hk
      exact ⟨k + 1, by rw [hk, replicate_succ, cons_append], hc'⟩

def Nonterminal.rounds (k : Nat) : Nonterminal → Nat
  | .line => 4 * k + 4
  | .pipe => 4 * k + 3
  | .exec => 4 * k + 2

def Nonterminal.parse (fuel : Nat) : Nonterminal → ParseM (Cmd Span)
  | .line => parseline fuel
  | .pipe => parsepipe fuel
  | .exec => parseexec fuel

def Sound (E : Prop) (fuel : Nat) (x : Nonterminal) : Prop :=
  ∀ ts : List (Tok Span), x.rounds ts.length ≤ fuel →
    (reading E).wp (x.parse fuel) (fun c us => ∃ ds, ts = ds ++ us ∧ Derives x ds c) ts

theorem Sound.length_le {ds us : List (Tok Span)} (h : ts = ds ++ us) : us.length ≤ ts.length := by
  rw [h, length_append]
  omega

theorem parseline_sound (hpipe : Sound E fuel .pipe) (hline : Sound E fuel .line) :
    Sound E (fuel + 1) .line := by
  intro ts hfuel
  simp only [Nonterminal.rounds] at hfuel
  refine wp_bind (wp_mono (hpipe ts (by simp only [Nonterminal.rounds]; omega)) ?_)
  intro c us ⟨ds, hds, hderives⟩
  have hus := Sound.length_le hds
  refine wp_bind (wp_mono (parsebacks_sound c fuel (by omega)) ?_)
  intro c' vs ⟨k, hk, hc'⟩
  subst hc'
  have hvs := Sound.length_le hk
  refine wp_peek ?_
  cases hhead : heads [.semi] vs with
  | false =>
    refine ⟨_, ?_, .backs k hderives⟩
    rw [hds, hk, append_assoc]
  | true =>
    obtain ⟨ws, rfl⟩ := exists_of_heads_single (by decide) hhead
    rw [length_cons] at hvs
    refine wp_gettoken (wp_bind (wp_mono (hline ws ?_) ?_))
    · simp only [Nonterminal.rounds]
      omega
    · intro d xs ⟨es, hes, hd⟩
      refine ⟨_, ?_, .list k hderives hd⟩
      rw [hds, hk, hes]
      simp only [append_assoc, cons_append]

theorem parsepipe_sound (hexec : Sound E fuel .exec) (hpipe : Sound E fuel .pipe) :
    Sound E (fuel + 1) .pipe := by
  intro ts hfuel
  simp only [Nonterminal.rounds] at hfuel
  refine wp_bind (wp_mono (hexec ts (by simp only [Nonterminal.rounds]; omega)) ?_)
  intro c us ⟨ds, hds, hderives⟩
  have hus := Sound.length_le hds
  refine wp_peek ?_
  cases hhead : heads [.bar] us with
  | false => exact ⟨ds, hds, .exec hderives⟩
  | true =>
    obtain ⟨vs, rfl⟩ := exists_of_heads_single (by decide) hhead
    rw [length_cons] at hus
    refine wp_gettoken (wp_bind (wp_mono (hpipe vs ?_) ?_))
    · simp only [Nonterminal.rounds]
      omega
    · intro d ws ⟨es, hes, hd⟩
      refine ⟨_, ?_, .pipe hderives hd⟩
      rw [hds, hes, append_assoc, cons_append]

theorem parseblock_sound (hE : E) (hline : Sound E fuel .line)
    (hfuel : 4 * ts.length ≤ fuel) (hhead : heads [.lpar] ts = true) :
    (reading E).wp (parseblock (fuel + 1)) (fun c us => ∃ ds, ts = ds ++ us ∧ Derives .exec ds c)
      ts := by
  obtain ⟨us, rfl⟩ := exists_of_heads_single (by decide) hhead
  rw [length_cons] at hfuel
  rw [parseblock]
  refine wp_peek ?_
  rw [hhead]
  refine wp_gettoken (wp_bind (wp_mono (hline us ?_) ?_))
  · simp only [Nonterminal.rounds]
    omega
  · intro c vs ⟨ds, hds, hderives⟩
    have hvs := Sound.length_le hds
    refine wp_peek ?_
    cases hclose : heads [.rpar] vs with
    | false => exact wp_panic hE
    | true =>
      obtain ⟨ws, rfl⟩ := exists_of_heads_single (by decide) hclose
      rw [length_cons] at hvs
      refine wp_gettoken (wp_bind (wp_mono
        (parseredirs_sound hE [] fuel (by simp only [tail_cons]; omega)) ?_))
      intro rs xs ⟨es, qs, hes, hqs, hrs⟩
      rw [nil_append] at hrs
      subst hrs
      simp only [tail_cons] at hes
      refine ⟨_, ?_, .block hderives hqs⟩
      rw [hds, hes]
      simp only [append_assoc, cons_append]

theorem parseexec_sound (hE : E) (hline : Sound E fuel .line) : Sound E (fuel + 2) .exec := by
  intro ts hfuel
  simp only [Nonterminal.rounds] at hfuel
  simp only [Nonterminal.parse, parseexec]
  refine wp_peek ?_
  cases hhead : heads [.lpar] ts with
  | true => exact parseblock_sound hE hline (by omega) hhead
  | false =>
    refine wp_bind (wp_mono (parseredirs_sound hE [] (fuel + 1) (by omega)) ?_)
    intro rs us ⟨ds, qs, hds, hqs, hrs⟩
    have hus := Sound.length_le hds
    refine wp_mono (parseargs_sound hE [] rs (fuel + 1) (Nat.zero_le _) (by omega)) ?_
    intro c vs ⟨es, ws, ps, hes, hargs, hlen, hc⟩
    rw [nil_append] at hrs hlen hc
    subst hrs hc
    refine ⟨_, ?_, .simple hqs hargs hlen⟩
    rw [hds, hes, append_assoc]

theorem parse_sound (hE : E) (fuel : Nat) (x : Nonterminal) : Sound E fuel x := by
  induction fuel using Nat.strongRecOn generalizing x with
  | ind fuel ih =>
    match fuel, x with
    | 0, x | 1, x =>
      exact fun ts hfuel => by cases x <;> simp only [Nonterminal.rounds] at hfuel <;> omega
    | fuel + 2, .line =>
      exact parseline_sound (ih (fuel + 1) (by omega) .pipe) (ih (fuel + 1) (by omega) .line)
    | fuel + 2, .pipe =>
      exact parsepipe_sound (ih (fuel + 1) (by omega) .exec) (ih (fuel + 1) (by omega) .pipe)
    | fuel + 2, .exec => exact parseexec_sound hE (ih fuel (by omega) .line)

def Nonterminal.follow : Nonterminal → List Symbol
  | .line => [.rpar]
  | .pipe => [.rpar, .amp, .semi]
  | .exec => [.rpar, .amp, .semi, .bar]

def Ends (x : Nonterminal) (us : List (Tok Span)) : Prop :=
  us = [] ∨ ∃ y ∈ x.follow, ∃ vs, us = .sym y :: vs

theorem Ends.heads {x : Nonterminal} (h : Ends x ts)
    (hdisjoint : ∀ y ∈ x.follow, y ∉ toks) : heads toks ts = false := by
  rcases h with rfl | ⟨y, hy, vs, rfl⟩
  · rfl
  · simpa [Shell.heads] using hdisjoint y hy

theorem Ends.mono {x y : Nonterminal} (h : Ends x ts) (hle : x.follow ⊆ y.follow) : Ends y ts := by
  rcases h with rfl | ⟨z, hz, vs, rfl⟩
  · exact .inl rfl
  · exact .inr ⟨z, hle hz, vs, rfl⟩

variable {us : List (Tok Span)} {fuel : Nat}

theorem parseredirs_step {t : Tok Span} {w : Span} {rs : List (Redir Span)} {r : Redir Span}
    {Q : List (Redir Span) → List (Tok Span) → Prop} (hr : redirOf w (some t) = [r])
    (hhead : heads [.lt, .gt] (t :: .word w :: ts) = true)
    (h : (reading E).wp (parseredirs (rs ++ [r]) fuel) Q ts) :
    (reading E).wp (parseredirs rs (fuel + 1)) Q (t :: .word w :: ts) := by
  refine wp_peek ?_
  rw [hhead]
  refine wp_gettoken (wp_gettoken ?_)
  simp only [tail_cons, head?_cons, hr]
  exact h

theorem parseredirs_complete (h : Redirs ds qs)
    (rs : List (Redir Span)) (hus : heads [.lt, .gt] us = false) (hfuel : ds.length < fuel) :
    (reading E).wp (parseredirs rs fuel) (fun rs' vs => rs' = rs ++ qs ∧ vs = us) (ds ++ us) := by
  induction h generalizing rs fuel with
  | nil =>
    obtain ⟨fuel, rfl⟩ : ∃ k, fuel = k + 1 := ⟨fuel - 1, by omega⟩
    refine wp_peek ?_
    rw [nil_append, hus]
    exact ⟨(append_nil rs).symm, rfl⟩
  | input _ ih | output _ ih | append _ ih =>
    obtain ⟨fuel, rfl⟩ : ∃ k, fuel = k + 1 := ⟨fuel - 1, by omega⟩
    simp only [length_cons] at hfuel
    rw [append_cons]
    exact parseredirs_step rfl rfl (ih _ (by omega))

theorem Args.heads {ws : List Span} (h : Args ds ws qs) (hus : Shell.heads toks us = false) :
    Shell.heads toks (ds ++ us) = false := by
  cases h with
  | nil => exact hus
  | cons _ _ => rfl

theorem Redirs.heads (h : Redirs ds qs) {x : Symbol} (hlt : x ≠ .lt) (hgt : x ≠ .gt)
    (hus : Shell.heads [x] us = false) : Shell.heads [x] (ds ++ us) = false := by
  cases h with
  | nil => exact hus
  | input _ => simp [Shell.heads, Ne.symm hlt]
  | output _ | append _ => simp [Shell.heads, Ne.symm hgt]

theorem parseargs_complete {ws : List Span}
    (h : Args ds ws qs) (argv : List Span) (rs : List (Redir Span)) (hus : Ends .exec us)
    (hlen : (argv ++ ws).length ≤ MAXARGS - 1) (hfuel : ds.length < fuel) :
    (reading E).wp (parseargs argv rs fuel)
      (fun c vs => c = redircmd (.exec (argv ++ ws)) (rs ++ qs) ∧ vs = us) (ds ++ us) := by
  induction h generalizing argv rs fuel with
  | nil =>
    obtain ⟨fuel, rfl⟩ : ∃ k, fuel = k + 1 := ⟨fuel - 1, by omega⟩
    have hdone : redircmd (.exec argv) rs = redircmd (.exec (argv ++ [])) (rs ++ []) ∧ us = us := by
      simp only [append_nil, and_self]
    refine wp_peek ?_
    rw [nil_append]
    rcases hus with rfl | ⟨y, hy, vs, rfl⟩
    · exact wp_gettoken hdone
    · have hstop : heads [.bar, .rpar, .amp, .semi] (.sym y :: vs : List (Tok Span)) = true := by
        simp only [Nonterminal.follow, mem_cons, not_mem_nil, or_false] at hy
        rcases hy with rfl | rfl | rfl | rfl <;> rfl
      rw [hstop]
      exact hdone
  | @cons w es us' ws ps ps' hredirs hargs ih =>
    obtain ⟨fuel, rfl⟩ : ∃ k, fuel = k + 1 := ⟨fuel - 1, by omega⟩
    simp only [length_cons, length_append] at hfuel hlen
    refine wp_peek (wp_gettoken ?_)
    simp only [cons_append, head?_cons, tail_cons, append_assoc]
    rw [if_neg (by simp only [length_append, length_singleton]; omega)]
    have hstop : heads [.lt, .gt] (us' ++ us) = false := hargs.heads (hus.heads (by decide))
    refine wp_bind (wp_mono (parseredirs_complete hredirs rs hstop (by omega)) ?_)
    intro rs' vs ⟨hrs', hvs⟩
    subst hrs' hvs
    refine wp_mono (ih (argv ++ [w]) (rs ++ ps) ?_ (by omega)) ?_
    · simp only [length_append, length_singleton]
      omega
    · intro c vs ⟨hc, hvs⟩
      rw [append_assoc, append_assoc, singleton_append] at hc
      exact ⟨hc, hvs⟩

theorem parsebacks_complete (k : Nat) (c : Cmd Span) (hus : heads [.amp] us = false)
    (hfuel : k < fuel) :
    (reading E).wp (parsebacks c fuel) (fun c' vs => c' = backcmds k c ∧ vs = us)
      (replicate k (.sym .amp) ++ us) := by
  induction k generalizing c fuel with
  | zero =>
    obtain ⟨fuel, rfl⟩ : ∃ k, fuel = k + 1 := ⟨fuel - 1, by omega⟩
    refine wp_peek ?_
    rw [replicate_zero, nil_append, hus]
    exact ⟨rfl, rfl⟩
  | succ k ih =>
    obtain ⟨fuel, rfl⟩ : ∃ k, fuel = k + 1 := ⟨fuel - 1, by omega⟩
    refine wp_peek ?_
    rw [replicate_succ, cons_append]
    exact wp_gettoken (ih (.back c) (by omega))

theorem Ends.amps (k : Nat) (h : Ends .pipe us) :
    Ends .pipe (replicate k (.sym .amp) ++ us) := by
  cases k with
  | zero => exact h
  | succ k => exact .inr ⟨.amp, by decide, _, rfl⟩

theorem parse_complete {x : Nonterminal} {c : Cmd Span} (h : Derives x ds c)
    (hus : Ends x us) (hfuel : x.rounds ds.length ≤ fuel) :
    (reading E).wp (x.parse fuel) (fun c' vs => c' = c ∧ vs = us) (ds ++ us) := by
  induction h generalizing us fuel with
  | @backs ts c k _ ih =>
    simp only [Nonterminal.rounds, length_append, length_replicate] at hfuel ih
    obtain ⟨fuel, rfl⟩ : ∃ k, fuel = k + 1 := ⟨fuel - 1, by omega⟩
    have hends : Ends .pipe (replicate k (.sym .amp) ++ us) := (hus.mono (by decide)).amps k
    rw [append_assoc]
    refine wp_bind (wp_mono (ih hends (by omega)) ?_)
    intro c' vs ⟨hc', hvs⟩
    subst hc' hvs
    refine wp_bind (wp_mono (parsebacks_complete k _ (hus.heads (by decide)) (by omega)) ?_)
    intro c' vs ⟨hc', hvs⟩
    subst hc' hvs
    refine wp_peek ?_
    rw [hus.heads (by decide)]
    exact ⟨rfl, rfl⟩
  | @list ts us' c d k _ _ ihpipe ihline =>
    simp only [Nonterminal.rounds, length_append, length_replicate, length_cons]
      at hfuel ihpipe ihline
    obtain ⟨fuel, rfl⟩ : ∃ k, fuel = k + 1 := ⟨fuel - 1, by omega⟩
    have hsemi : Ends .pipe (.sym .semi :: (us' ++ us)) := .inr ⟨.semi, by decide, _, rfl⟩
    simp only [append_assoc, cons_append]
    refine wp_bind (wp_mono (ihpipe (hsemi.amps k) (by omega)) ?_)
    intro c' vs ⟨hc', hvs⟩
    subst hc' hvs
    refine wp_bind (wp_mono (parsebacks_complete k _ rfl (by omega)) ?_)
    intro c' vs ⟨hc', hvs⟩
    subst hc' hvs
    refine wp_peek (wp_gettoken (wp_bind (wp_mono (ihline hus (by omega)) ?_)))
    intro d' vs ⟨hd', hvs⟩
    subst hd' hvs
    exact ⟨rfl, rfl⟩
  | exec _ ih =>
    simp only [Nonterminal.rounds] at hfuel ih
    obtain ⟨fuel, rfl⟩ : ∃ k, fuel = k + 1 := ⟨fuel - 1, by omega⟩
    refine wp_bind (wp_mono (ih (hus.mono (by decide)) (by omega)) ?_)
    intro c' vs ⟨hc', hvs⟩
    subst hc' hvs
    refine wp_peek ?_
    rw [hus.heads (by decide)]
    exact ⟨rfl, rfl⟩
  | @pipe ts us' c d _ _ ihexec ihpipe =>
    simp only [Nonterminal.rounds, length_append, length_cons] at hfuel ihexec ihpipe
    obtain ⟨fuel, rfl⟩ : ∃ k, fuel = k + 1 := ⟨fuel - 1, by omega⟩
    have hbar : Ends .exec (.sym .bar :: (us' ++ us)) := .inr ⟨.bar, by decide, _, rfl⟩
    simp only [append_assoc, cons_append]
    refine wp_bind (wp_mono (ihexec hbar (by omega)) ?_)
    intro c' vs ⟨hc', hvs⟩
    subst hc' hvs
    refine wp_peek (wp_gettoken (wp_bind (wp_mono (ihpipe hus (by omega)) ?_)))
    intro d' vs ⟨hd', hvs⟩
    subst hd' hvs
    exact ⟨rfl, rfl⟩
  | @block ts us' c rs _ hredirs ih =>
    simp only [Nonterminal.rounds, length_append, length_cons] at hfuel ih
    obtain ⟨fuel, rfl⟩ : ∃ k, fuel = k + 2 := ⟨fuel - 2, by omega⟩
    have hrpar : Ends .line (.sym .rpar :: (us' ++ us)) := .inr ⟨.rpar, by decide, _, rfl⟩
    simp only [append_assoc, cons_append, Nonterminal.parse, parseexec]
    refine wp_peek ?_
    simp only [parseblock]
    refine wp_peek (wp_gettoken (wp_bind (wp_mono (ih hrpar (by omega)) ?_)))
    intro c' vs ⟨hc', hvs⟩
    subst hc' hvs
    refine wp_peek (wp_gettoken (wp_bind (wp_mono
      (parseredirs_complete hredirs [] (hus.heads (by decide)) (by omega)) ?_)))
    intro rs' vs ⟨hrs', hvs⟩
    subst hrs' hvs
    exact ⟨rfl, rfl⟩
  | @simple ts us' ws rs qs hredirs hargs hlen =>
    simp only [Nonterminal.rounds, length_append] at hfuel
    obtain ⟨fuel, rfl⟩ : ∃ k, fuel = k + 1 := ⟨fuel - 1, by omega⟩
    have hsimple : heads [.lpar] (ts ++ (us' ++ us)) = false :=
      hredirs.heads (by decide) (by decide) (hargs.heads (hus.heads (by decide)))
    simp only [append_assoc, Nonterminal.parse, parseexec]
    refine wp_peek ?_
    rw [hsimple]
    refine wp_bind (wp_mono
      (parseredirs_complete hredirs [] (hargs.heads (hus.heads (by decide))) (by omega)) ?_)
    intro rs' vs ⟨hrs', hvs⟩
    subst hrs' hvs
    exact parseargs_complete hargs [] _ hus hlen (by omega)

variable {b : Buffer}

/-- With enough rounds the parser returns the tree of a derivation, or panics. -/
theorem parsecmd_cases (hfuel : 4 * b.es + 4 ≤ fuel) :
    (∃ cmd ts, parsecmd b fuel = .ok cmd (nulterminate cmd ⟨b.bytes, []⟩) ∧
      b.Scans 0 ts ∧ Derives .line ts cmd) ∨ ∃ msg, parsecmd b fuel = .panic msg := by
  obtain ⟨ts, hts⟩ := b.exists_scans 0 (Nat.zero_le _)
  have hlen := hts.length_le
  have hsound := parse_sound (E := True) trivial fuel .line ts
    (by simp only [Nonterminal.rounds]; omega)
  rcases Act.wp_cases ((reading_follows b True).run hsound hts) with
    ⟨cmd, p, hrun, us, hus, ds, hds, hderives⟩ | ⟨msg, hrun, -⟩
  · simp only [Nonterminal.parse] at hrun
    rw [parsecmd, hrun]
    by_cases hend : (b.peek [] p).2 = b.es
    · obtain rfl := hus.nil_iff.mp hend
      rw [append_nil] at hds
      subst hds
      exact .inl ⟨cmd, ts, by simp only [hend, ne_eq, not_true, if_false], hts, hderives⟩
    · exact .inr ⟨"syntax", by simp only [hend, ne_eq, not_false_eq_true, if_true]⟩
  · simp only [Nonterminal.parse] at hrun
    exact .inr ⟨msg, by rw [parsecmd, hrun]⟩

theorem parsecmd_of_derives {cmd : Cmd Span} (hfuel : 4 * b.es + 4 ≤ fuel) (hts : b.Scans 0 ts)
    (h : Derives .line ts cmd) : parsecmd b fuel = .ok cmd (nulterminate cmd ⟨b.bytes, []⟩) := by
  have hlen := hts.length_le
  have hrounds : Nonterminal.line.rounds ts.length ≤ fuel := by
    simp only [Nonterminal.rounds]
    omega
  have hcomplete : (reading False).wp (parseline fuel) (fun c vs => c = cmd ∧ vs = []) (ts ++ []) :=
    parse_complete h (.inl rfl) hrounds
  rw [append_nil] at hcomplete
  obtain ⟨cmd', p, hrun, us, hus, rfl, rfl⟩ :=
    Act.wp_returns ((reading_follows b False).run hcomplete hts)
  have hend : (b.peek [] p).2 = b.es := hus.nil_iff.mpr rfl
  rw [parsecmd, hrun]
  simp only [hend, ne_eq, not_true, if_false]

/-- For every buffer and enough rounds: the parser returns a tree exactly if the string denotes
it, and panics if the string denotes no tree. -/
theorem parsecmd_accepts (b : Buffer) (fuel : Nat) (hfuel : 4 * b.es + 4 ≤ fuel) :
    (∀ c, (∃ cmd m, parsecmd b fuel = .ok cmd m ∧ cmd.map b.text = c) ↔ Denotes b.str c) ∧
    ((¬ ∃ c, Denotes b.str c) → ∃ msg, parsecmd b fuel = .panic msg) := by
  have hreturned : ∀ {cmd : Cmd Span} {ts : List (Tok Span)}, b.Scans 0 ts →
      Derives .line ts cmd → Denotes b.str (cmd.map b.text) :=
    fun hts h => ⟨_, hts.spells, h.map⟩
  refine ⟨fun c => ⟨?_, ?_⟩, fun hnone => ?_⟩
  · intro ⟨cmd, m, hrun, hc⟩
    rcases parsecmd_cases hfuel with ⟨cmd', ts, hok, hts, hderives⟩ | ⟨msg, hpanic⟩
    · rw [hok] at hrun
      cases hrun
      exact hc ▸ hreturned hts hderives
    · rw [hpanic] at hrun
      cases hrun
  · intro ⟨ts', hspells, hderives⟩
    obtain ⟨ts, hts⟩ := b.exists_scans 0 (Nat.zero_le _)
    rw [hspells.unique hts.spells] at hderives
    obtain ⟨cmd, hcmd, hc⟩ := hderives.of_map
    exact ⟨cmd, _, parsecmd_of_derives hfuel hts hcmd, hc⟩
  · rcases parsecmd_cases hfuel with ⟨cmd', ts, hok, hts, hderives⟩ | hpanic
    · exact absurd ⟨_, hreturned hts hderives⟩ hnone
    · exact hpanic

/-- The line `a>b|c`. -/
def redirected : Buffer := ⟨[97, 62, 98, 124, 99, 0], by decide⟩

theorem redirected_accepted : parsecmd redirected 24 = .ok
      (.pipe (.redir (.exec [⟨0, 1⟩]) ⟨2, 3⟩ 513 .output) (.exec [⟨4, 5⟩]))
      ⟨[97, 0, 98, 0, 99, 0], [5, 3, 1]⟩ ∧
    Denotes redirected.str
      (.pipe (.redir (.exec [[97]]) [98] 513 .output) (.exec [[99]])) := by
  have hrun : parsecmd redirected 24 = .ok
      (.pipe (.redir (.exec [⟨0, 1⟩]) ⟨2, 3⟩ 513 .output) (.exec [⟨4, 5⟩]))
      ⟨[97, 0, 98, 0, 99, 0], [5, 3, 1]⟩ := rfl
  exact ⟨hrun, ((parsecmd_accepts redirected 24 (by decide)).1 _).mp ⟨_, _, hrun, rfl⟩⟩

end Xv6.Shell
