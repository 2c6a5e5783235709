import Mathlib

set_option autoImplicit false

namespace Runs

section Machine
variable {σ α : Type*} (step : σ → α → σ)

def after (s : σ) (as : List α) : σ := as.foldl step s

@[simp] theorem after_nil (s : σ) : after step s [] = s := rfl

@[simp] theorem after_cons (s : σ) (a : α) (as : List α) :
    after step s (a :: as) = after step (step s a) as := rfl

theorem after_append (s : σ) (as bs : List α) : after step s (as ++ bs) = after step (after step s as) bs :=
  List.foldl_append

def trace {β : Type*} (out : σ → α → β) (s : σ) : List α → List β
  | [] => []
  | a :: as => out s a :: trace out (step s a) as

/-- `P` holds of every state in which the run takes an action, with the action. -/
def Throughout (P : σ → α → Prop) (s : σ) (as : List α) : Prop :=
  ∀ pre a, pre ++ [a] <+: as → P (after step s pre) a

def Always (P : σ → Prop) (s : σ) (as : List α) : Prop := ∀ pre, pre <+: as → P (after step s pre)

variable {step} {P Q L C : σ → α → Prop} {I : σ → Prop} {s : σ} {a : α} {as : List α}

theorem throughout_nil : Throughout step P s [] := by
  intro pre a h
  cases pre <;> cases List.prefix_nil.mp h

theorem throughout_cons : Throughout step P s (a :: as) ↔ P s a ∧ Throughout step P (step s a) as := by
  constructor
  · intro h
    refine ⟨h [] a ⟨as, rfl⟩, fun pre b hb => ?_⟩
    exact h (a :: pre) b ((List.prefix_cons_inj a).mpr hb)
  · rintro ⟨h, ht⟩ pre b hb
    cases pre with
    | nil =>
      obtain ⟨rfl, -⟩ := List.cons_prefix_cons.mp hb
      exact h
    | cons c pre =>
      obtain ⟨rfl, hrest⟩ := List.cons_prefix_cons.mp hb
      exact ht pre b hrest

theorem throughout_append {bs : List α} :
    Throughout step P s (as ++ bs) ↔ Throughout step P s as ∧ Throughout step P (after step s as) bs := by
  induction as generalizing s with
  | nil => exact ⟨fun h => ⟨throughout_nil, h⟩, fun h => h.2⟩
  | cons a as ih => rw [List.cons_append, throughout_cons, throughout_cons, ih, after_cons, and_assoc]

theorem Throughout.imp (h : Throughout step P s as) (hpq : ∀ s a, P s a → Q s a) : Throughout step Q s as :=
  fun pre a ha => hpq _ a (h pre a ha)

theorem always_nil : Always step I s [] ↔ I s := by
  constructor
  · exact fun h => h [] List.nil_prefix
  · intro h pre hpre
    rw [List.prefix_nil.mp hpre]
    exact h

theorem always_cons : Always step I s (a :: as) ↔ I s ∧ Always step I (step s a) as := by
  constructor
  · intro h
    exact ⟨h [] List.nil_prefix, fun pre hpre => h (a :: pre) ((List.prefix_cons_inj a).mpr hpre)⟩
  · rintro ⟨h, ht⟩ pre hpre
    cases pre with
    | nil => exact h
    | cons c pre =>
      obtain ⟨rfl, hrest⟩ := List.cons_prefix_cons.mp hpre
      exact ht pre hrest

theorem Always.after (h : Always step I s as) : I (after step s as) := h as List.prefix_rfl

theorem always_of_throughout (hs : I s) (keep : ∀ s a, I s → L s a → C s a → I (step s a))
    (hL : Throughout step L s as) (hC : Throughout step C s as) : Always step I s as := by
  induction as generalizing s with
  | nil => exact always_nil.mpr hs
  | cons a as ih =>
    obtain ⟨hl, hL⟩ := throughout_cons.mp hL
    obtain ⟨hc, hC⟩ := throughout_cons.mp hC
    exact always_cons.mpr ⟨hs, ih (keep s a hs hl hc) hL hC⟩

theorem Always.throughout (h : Always step I s as) (hL : Throughout step L s as)
    (good : ∀ s a, I s → L s a → P s a) : Throughout step P s as :=
  fun pre a ha => good _ a (h pre ((List.prefix_append pre [a]).trans ha)) (hL pre a ha)

/-- When every legal step is related to what it leads to by what its action is, and
such relations add up, so is every legal run. -/
theorem traced_of_throughout {β : Type*} {out : σ → α → β} {R : σ → List β → σ → Prop} (hs : I s)
    (nil : ∀ s, R s [] s) (cons : ∀ s t u b bs, R s [b] t → R t bs u → R s (b :: bs) u)
    (good : ∀ s a, I s → L s a → I (step s a) ∧ R s [out s a] (step s a)) (hL : Throughout step L s as) :
    I (after step s as) ∧ R s (trace step out s as) (after step s as) := by
  induction as generalizing s with
  | nil => exact ⟨hs, nil s⟩
  | cons a as ih =>
    obtain ⟨hl, hL⟩ := throughout_cons.mp hL
    obtain ⟨hi, hr⟩ := good s a hs hl
    obtain ⟨hend, hrest⟩ := ih hi hL
    exact ⟨hend, cons s _ _ _ _ hr hrest⟩

theorem Always.imp {J : σ → Prop} (h : Always step I s as) (hij : ∀ s, I s → J s) : Always step J s as :=
  fun pre hpre => hij _ (h pre hpre)

/-- When `C` says exactly which legal steps are good in a state of the invariant,
and keeps the invariant, it says exactly which runs are. -/
theorem throughout_iff (hs : I s) (keep : ∀ s a, I s → L s a → C s a → I (step s a))
    (good : ∀ s a, I s → L s a → (P s a ↔ C s a)) (hL : Throughout step L s as) :
    Throughout step P s as ↔ Throughout step C s as := by
  induction as generalizing s with
  | nil => exact iff_of_true throughout_nil throughout_nil
  | cons a as ih =>
    obtain ⟨hl, hL⟩ := throughout_cons.mp hL
    rw [throughout_cons, throughout_cons, good s a hs hl]
    exact and_congr_right fun hc => ih (keep s a hs hl hc) hL

theorem always_iff (hs : I s) (good : ∀ s a, I s → L s a → (I (step s a) ↔ C s a))
    (hL : Throughout step L s as) : Always step I s as ↔ Throughout step C s as := by
  induction as generalizing s with
  | nil => exact iff_of_true (always_nil.mpr hs) throughout_nil
  | cons a as ih =>
    obtain ⟨hl, hL⟩ := throughout_cons.mp hL
    rw [always_cons, throughout_cons, and_iff_right hs]
    constructor
    · intro h
      have hI : I (step s a) := h [] List.nil_prefix
      exact ⟨(good s a hs hl).mp hI, (ih hI hL).mp h⟩
    · rintro ⟨hc, hC⟩
      exact (ih ((good s a hs hl).mpr hc) hL).mpr hC

theorem throughout_and :
    Throughout step (fun s a => P s a ∧ Q s a) s as ↔ Throughout step P s as ∧ Throughout step Q s as := by
  constructor
  · intro h
    exact ⟨h.imp fun _ _ hpq => hpq.1, h.imp fun _ _ hpq => hpq.2⟩
  · rintro ⟨hp, hq⟩ pre a ha
    exact ⟨hp pre a ha, hq pre a ha⟩

theorem always_iff_throughout : Always step I s as ↔ I s ∧ Throughout step (fun s a => I (step s a)) s as := by
  induction as generalizing s with
  | nil => rw [always_nil, and_iff_left throughout_nil]
  | cons a as ih => rw [always_cons, throughout_cons, ih]

theorem throughout_true : Throughout step (fun _ _ => True) s as := fun _ _ _ => trivial

theorem always_of_keeps (hs : I s) (keep : ∀ s a, I s → I (step s a)) : Always step I s as :=
  always_of_throughout (L := fun _ _ => True) (C := fun _ _ => True) hs (fun s a h _ _ => keep s a h)
    throughout_true throughout_true

/-- Two machines that take the same actions stay related as long as the first takes
legal ones that meet `C`. -/
theorem related_of_throughout {τ : Type*} {step' : τ → α → τ} {R : σ → τ → Prop} {t : τ} (hst : R s t)
    (keep : ∀ s t a, R s t → L s a → C s a → R (step s a) (step' t a)) (hL : Throughout step L s as)
    (hC : Throughout step C s as) : ∀ pre, pre <+: as → R (after step s pre) (after step' t pre) := by
  induction as generalizing s t with
  | nil =>
    intro pre hpre
    rw [List.prefix_nil.mp hpre]
    exact hst
  | cons a as ih =>
    obtain ⟨hl, hL⟩ := throughout_cons.mp hL
    obtain ⟨hc, hC⟩ := throughout_cons.mp hC
    intro pre hpre
    cases pre with
    | nil => exact hst
    | cons b pre =>
      obtain ⟨rfl, hrest⟩ := List.cons_prefix_cons.mp hpre
      exact ih (keep s t b hst hl hc) hL hC pre hrest

/-- Two machines that take the same actions stay related just when `C` holds at
every step of the first. -/
theorem related_iff {τ : Type*} {step' : τ → α → τ} {R : σ → τ → Prop} {t : τ} (hst : R s t)
    (good : ∀ s t a, R s t → (R (step s a) (step' t a) ↔ C s a)) :
    (∀ pre, pre <+: as → R (after step s pre) (after step' t pre)) ↔ Throughout step C s as := by
  induction as generalizing s t with
  | nil =>
    refine iff_of_true (fun pre hpre => ?_) throughout_nil
    rw [List.prefix_nil.mp hpre]
    exact hst
  | cons a as ih =>
    rw [throughout_cons]
    constructor
    · intro h
      have hR : R (step s a) (step' t a) := h [a] ⟨as, rfl⟩
      refine ⟨(good s t a hst).mp hR, (ih hR).mp fun pre hpre => ?_⟩
      exact h (a :: pre) ((List.prefix_cons_inj a).mpr hpre)
    · rintro ⟨hc, hC⟩ pre hpre
      cases pre with
      | nil => exact hst
      | cons b pre =>
        obtain ⟨rfl, hrest⟩ := List.cons_prefix_cons.mp hpre
        exact (ih ((good s t b hst).mpr hc)).mpr hC pre hrest

end Machine

end Runs
