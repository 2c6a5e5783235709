import Mathlib.Tactic.SplitIfs
import Mathlib.Data.Option.Basic

set_option autoImplicit false

/-!
# Twin machines

Two machines that run one program, where the second is watched: as long as all
that it has done is good, the first does the same.
-/
namespace Twins
variable {σ τ α β : Type}

/-- How the states of the machines stand to each other, and which states of the second are good. -/
structure Pairing (σ τ : Type) where
  rel : σ → τ → Prop
  good : τ → Prop
  /-- Behind a state that is not good nothing is asked of the first machine. -/
  lost : ∀ d e e', rel d e → ¬ good e' → ∃ d', rel d' e'

/-- Where the second computation ends well from `e`, it was well there, and the first ends from `d` with the same
result. -/
def FollowsFrom (T : Pairing σ τ) (d : σ) (e : τ) (x : StateT σ Option α) (y : StateT τ Option α) : Prop :=
  ∀ a e', y e = some (a, e') → T.good e' → T.good e ∧ ∃ d', x d = some (a, d') ∧ T.rel d' e'

/-- The first computation does what the second does, from all states that stand to each other. -/
def Follows (T : Pairing σ τ) (x : StateT σ Option α) (y : StateT τ Option α) : Prop :=
  ∀ d e, T.rel d e → FollowsFrom T d e x y

namespace Follows
variable {T : Pairing σ τ} {x x' : StateT σ Option α} {y y' : StateT τ Option α} {f : α → StateT σ Option β}
  {g : α → StateT τ Option β}

theorem pure (a : α) : Follows T (pure a) (pure a) := by
  rintro d e h b e' hy hgood
  obtain ⟨rfl, rfl⟩ := Prod.mk.inj (Option.some.inj hy)
  exact ⟨hgood, d, rfl, h⟩

theorem none (x : StateT σ Option α) (hy : ∀ e, y e = none) : Follows T x y := by
  rintro d e - a e' h
  rw [hy e] at h
  cases h

theorem bind (hx : Follows T x y) (hf : ∀ a, Follows T (f a) (g a)) : Follows T (x >>= f) (y >>= g) := by
  rintro d e h b e'' hrun hgood
  obtain ⟨⟨a, e'⟩, hy, hg⟩ := Option.bind_eq_some_iff.mp hrun
  by_cases hgood' : T.good e'
  · obtain ⟨hgood₀, d', hd', h'⟩ := hx d e h a e' hy hgood'
    obtain ⟨-, d'', hd'', h''⟩ := hf a d' e' h' b e'' hg hgood
    refine ⟨hgood₀, d'', ?_, h''⟩
    change (x d).bind _ = _
    rw [hd']
    exact hd''
  · obtain ⟨d', h'⟩ := T.lost d e e' h hgood'
    exact absurd (hf a d' e' h' b e'' hg hgood).1 hgood'

theorem get {f : σ → StateT σ Option β} {g : τ → StateT τ Option β}
    (h : ∀ d e, T.rel d e → FollowsFrom T d e (f d) (g e)) : Follows T (get >>= f) (get >>= g) :=
  fun d e hrel b e' hrun => h d e hrel b e' hrun

theorem modify {u : σ → σ} {v : τ → τ} (h : ∀ d e, T.rel d e → T.rel (u d) (v e))
    (hgood : ∀ e, T.good (v e) → T.good e) : Follows T (modify u) (modify v) := by
  rintro d e hrel b e' hy hgood'
  obtain ⟨rfl, rfl⟩ := Prod.mk.inj (Option.some.inj hy)
  exact ⟨hgood e hgood', u d, rfl, h d e hrel⟩

theorem ite {c : Prop} [Decidable c] (h : c → Follows T x y) (h' : ¬ c → Follows T x' y') :
    Follows T (if c then x else x') (if c then y else y') := by
  split_ifs with hc
  · exact h hc
  · exact h' hc

theorem ite_bind {c : Prop} [Decidable c] (h : c → Follows T x y) (h' : ¬ c → Follows T x' y')
    (hf : ∀ a, Follows T (f a) (g a)) :
    Follows T (if c then x >>= f else x' >>= f) (if c then y >>= g else y' >>= g) :=
  ite (fun hc => bind (h hc) hf) fun hc => bind (h' hc) hf

theorem ite_bind_pure {γ δ : Type} {c : Prop} [Decidable c] {u : StateT σ Option γ} {v : StateT τ Option γ}
    {u' : StateT σ Option δ} {v' : StateT τ Option δ} {h : γ → α} {h' : δ → α} (hu : c → Follows T u v)
    (hu' : ¬ c → Follows T u' v') (hf : ∀ a, Follows T (f a) (g a)) :
    Follows T (if c then u >>= fun a => Pure.pure (h a) >>= f else u' >>= fun a => Pure.pure (h' a) >>= f)
      (if c then v >>= fun a => Pure.pure (h a) >>= g else v' >>= fun a => Pure.pure (h' a) >>= g) :=
  ite (fun hc => bind (hu hc) fun _ => bind (pure _) hf) fun hc => bind (hu' hc) fun _ => bind (pure _) hf

end Follows

namespace FollowsFrom
variable {T : Pairing σ τ} {d d' : σ} {e e' : τ} {x x' : StateT σ Option α} {y y' : StateT τ Option α}
  {f : PUnit → StateT σ Option α} {g : PUnit → StateT τ Option α}

theorem ite {c : Prop} [Decidable c] (h : c → FollowsFrom T d e x y) (h' : ¬ c → FollowsFrom T d e x' y') :
    FollowsFrom T d e (if c then x else x') (if c then y else y') := by
  split_ifs with hc
  · exact h hc
  · exact h' hc

theorem set (hrel : T.rel d' e') (hgood : T.good e' → T.good e) (h : Follows T (f ()) (g ())) :
    FollowsFrom T d e (set d' >>= f) (set e' >>= g) := by
  intro a e'' hrun hgood''
  obtain ⟨hgood', hd⟩ := h d' e' hrel a e'' hrun hgood''
  exact ⟨hgood hgood', hd⟩

end FollowsFrom

end Twins
