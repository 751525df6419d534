import Xv6.Lib.Prog

/-!
# Protocols of a single thread

When several threads share a state, each of them keeps a private view of it: the
locks it holds, the references it owns.  A protocol says what an operation
requires of the view of the thread that executes it and how it changes that
view, for every reply.  `Protocol.wp` is the weakest precondition of a program
under a protocol; it speaks about one thread and is untouched by what the other
threads do, so it is the part of a global invariant that belongs to the thread.
-/

namespace Xv6.Lib

structure Protocol (S : Sig) (V : Type) where
  pre : S.Op → V → Prop
  post : (o : S.Op) → V → S.Ret o → V → Prop

namespace Protocol

variable {S : Sig} {V α β : Type} (π : Protocol S V) {v : V} {Q : α → V → Prop}

/-- Every operation of the program meets its requirement, and the program ends
in a result and a view that satisfy `Q`. -/
def wp : Prog S α → (α → V → Prop) → V → Prop
  | .ret a, Q, v => Q a v
  | .op o k, Q, v => π.pre o v ∧ ∀ r v', π.post o v r v' → wp (k r) Q v'

variable {π}

theorem wp_ask {o : S.Op} {k : S.Ret o → Prog S α} (hpre : π.pre o v)
    (hk : ∀ r v', π.post o v r v' → π.wp (k r) Q v') : π.wp (Prog.ask o >>= k) Q v :=
  ⟨hpre, hk⟩

variable {p : Prog S α}

theorem wp_mono {Q R : α → V → Prop} (h : π.wp p Q v) (hQR : ∀ a v, Q a v → R a v) :
    π.wp p R v := by
  induction p generalizing v with
  | ret a => exact hQR a v h
  | op o k ih => exact ⟨h.1, fun r v' hpost => ih r (h.2 r v' hpost)⟩

theorem wp_bind {f : α → Prog S β} {Q : β → V → Prop}
    (h : π.wp p (fun a v' => π.wp (f a) Q v') v) : π.wp (p >>= f) Q v := by
  induction p generalizing v with
  | ret a => exact h
  | op o k ih => exact ⟨h.1, fun r v' hpost => ih r (h.2 r v' hpost)⟩

theorem wp_forM_rest {ι : Type} {xs : List ι} {body : ι → Prog S Unit} {I : List ι → V → Prop}
    (hv : I xs v) (hbody : ∀ x xs v, I (x :: xs) v → π.wp (body x) (fun _ v' => I xs v') v) :
    π.wp (xs.forM body) (fun _ v' => I [] v') v := by
  induction xs generalizing v with
  | nil => exact hv
  | cons x xs ih =>
    change π.wp (body x >>= fun _ => xs.forM body) _ v
    apply wp_bind
    apply wp_mono (hbody x xs v hv)
    intro _ v' hv'
    exact ih hv'

theorem wp_forM {ι : Type} {xs : List ι} {body : ι → Prog S Unit} {I : V → Prop}
    (hv : I v) (hbody : ∀ x ∈ xs, ∀ v, I v → π.wp (body x) (fun _ v' => I v') v) :
    π.wp (xs.forM body) (fun _ v' => I v') v := by
  induction xs generalizing v with
  | nil => exact hv
  | cons x xs ih =>
    change π.wp (body x >>= fun _ => xs.forM body) _ v
    apply wp_bind
    apply wp_mono (hbody x List.mem_cons_self v hv)
    intro _ v' hv'
    exact ih hv' fun y hy => hbody y (List.mem_cons_of_mem _ hy)

def prod {W : Type} (π : Protocol S V) (ρ : Protocol S W) : Protocol S (V × W) where
  pre o v := π.pre o v.1 ∧ ρ.pre o v.2
  post o v r v' := π.post o v.1 r v'.1 ∧ ρ.post o v.2 r v'.2

theorem wp_prod_ask {W : Type} {ρ : Protocol S W} {o : S.Op} {k : S.Ret o → Prog S α}
    {Q : α → V × W → Prop} {w : W} (hπ : π.pre o v) (hρ : ρ.pre o w)
    (hk : ∀ r v' w', π.post o v r v' → ρ.post o w r w' → (π.prod ρ).wp (k r) Q (v', w')) :
    (π.prod ρ).wp (Prog.ask o >>= k) Q (v, w) :=
  ⟨⟨hπ, hρ⟩, fun r x hpost => hk r x.1 x.2 hpost.1 hpost.2⟩

theorem wp_prod {W : Type} {ρ : Protocol S W}
    {R : α → W → Prop} {w : W} (hπ : π.wp p Q v) (hρ : ρ.wp p R w) :
    (π.prod ρ).wp p (fun a x => Q a x.1 ∧ R a x.2) (v, w) := by
  induction p generalizing v w with
  | ret a => exact ⟨hπ, hρ⟩
  | op o k ih =>
    refine ⟨⟨hπ.1, hρ.1⟩, ?_⟩
    intro r x hpost
    exact ih r (hπ.2 r x.1 hpost.1) (hρ.2 r x.2 hpost.2)

end Protocol

end Xv6.Lib
