import Thorn.Mutex

set_option autoImplicit false

/-!
# Lock guards

`Lock<Mutex>` and `Locked::get`: guards over shared mutexes. Neither asks which
thread is calling, so neither do the operations here.
-/
namespace Thorn
open Runs

abbrev Guard := Option ℕ

/-- The mutexes and the guards there are. `acquired` is the mutex that a guard
acquired, or was given with its acquisition, and has not given up. -/
structure Guards where
  mutex : ℕ → Mutex
  guard : ℕ → Option Guard
  acquired : ℕ → Option ℕ

namespace Guards

inductive Op
  /-- `Lock()`. -/
  | create (g : ℕ)
  /-- `Lock(mutex)`. -/
  | construct (g m : ℕ)
  /-- `Locked::get(lock)`: a guard made for the mutex is moved into `lock`. -/
  | get (g m : ℕ)
  | moveConstruct (g other : ℕ)
  | moveAssign (g other : ℕ)
  | lock (g : ℕ)
  | unlock (g : ℕ)
  | release (g : ℕ)
  | destroy (g : ℕ)

def Op.target : Op → ℕ
  | .create g | .construct g _ | .get g _ | .moveConstruct g _ | .moveAssign g _ => g
  | .lock g | .unlock g | .release g | .destroy g => g

def fresh : Guards := { mutex := fun _ => ⟨false⟩, guard := fun _ => none, acquired := fun _ => none }

def point (s : Guards) (g : ℕ) (p : Option Guard) : Guards := { s with guard := Function.update s.guard g p }

def answers (s : Guards) (g : ℕ) (m : Option ℕ) : Guards :=
  { s with acquired := Function.update s.acquired g m }

/-- `mutex->lock()`; a guard that waits, or that is empty and halts, leaves
everything as it is. -/
def enter (s : Guards) (g m : ℕ) (p : Option Guard) : Guards :=
  match (s.mutex m).lock with
  | some mutex => ({ s with mutex := Function.update s.mutex m mutex }.point g p).answers g (some m)
  | none => s

def leave (s : Guards) (g m : ℕ) (p : Option Guard) : Guards :=
  ({ s with mutex := Function.update s.mutex m (s.mutex m).tryUnlock.2 }.point g p).answers g none

def move (s : Guards) (g other : ℕ) (p : Guard) : Guards :=
  let s := (s.point g (some p)).point other (some none)
  let a := s.acquired other
  (s.answers g a).answers other none

def step (s : Guards) : Op → Guards
  | .create g => s.point g (some none)
  | .construct g m => s.enter g m (some (some m))
  | .get g m => s.enter g m (some (some m))
  | .moveConstruct g other => match s.guard other with
    | some p => s.move g other p
    | none => s
  | .moveAssign g other => match s.guard other with
    | some p => s.move g other p
    | none => s
  | .lock g => match s.guard g with
    | some (some m) => s.enter g m (some (some m))
    | _ => s
  | .unlock g => match s.guard g with
    | some (some m) => s.leave g m (some (some m))
    | _ => s
  | .release g => (s.point g (some none)).answers g none
  | .destroy g => match s.guard g with
    | some (some m) => s.leave g m none
    | _ => s.point g none

def Legal (s : Guards) : Op → Prop
  | .create g | .construct g _ => s.guard g = none
  | .moveConstruct g other => s.guard g = none ∧ (s.guard other).isSome
  | .moveAssign g other => (s.guard g).isSome ∧ (s.guard other).isSome
  | .get g _ | .lock g | .unlock g | .release g | .destroy g => (s.guard g).isSome

/-- The operation move-assigns to its guard; `get` does once it has the mutex. -/
def Assigns (s : Guards) : Op → Prop
  | .moveAssign _ _ => True
  | .get _ m => (s.mutex m).locked = false
  | _ => False

/-- A mutex is only unlocked through the guard that holds it, stays locked while a
guard does, and is let go by an assignment to the guard. -/
structure KeepsAcquired (s : Guards) (op : Op) : Prop where
  unlocks : ∀ m, (s.mutex m).locked → ((s.step op).mutex m).locked = false → s.acquired op.target = some m
  stays : ∀ g m, (s.step op).acquired g = some m → ((s.step op).mutex m).locked
  assigns : s.Assigns op → ∀ m, s.acquired op.target = some m → ((s.step op).mutex m).locked = false

/-- The mutex of a guard that is unlocked or destroyed is the guard's, or free; and
a guard that is assigned to holds nothing. -/
def Sound (s : Guards) : Op → Prop
  | .unlock g | .destroy g => ∀ m, s.guard g = some (some m) → (s.mutex m).locked → s.acquired g = some m
  | .moveAssign g _ => s.acquired g = none
  | .get g m => (s.mutex m).locked = false → s.acquired g = none
  | _ => True

structure Apart (s : Guards) : Prop where
  points : ∀ g m, s.acquired g = some m → s.guard g = some (some m)
  locked : ∀ g m, s.acquired g = some m → (s.mutex m).locked
  unique : ∀ g h m, s.acquired g = some m → s.acquired h = some m → g = h

theorem fresh_apart : Apart fresh where
  points := by
    intro g m h
    cases h
  locked := by
    intro g m h
    cases h
  unique := by
    intro g g' m h
    cases h

variable {s : Guards}

theorem Apart.point (h : Apart s) {g : ℕ} (hg : s.acquired g = none) (p : Option Guard) :
    Apart (s.point g p) where
  points := by
    intro g' m hm
    have hne : g' ≠ g := by
      rintro rfl
      rw [show s.acquired g' = some m from hm] at hg
      cases hg
    exact (Function.update_of_ne hne ..).trans (h.points g' m hm)
  locked := h.locked
  unique := h.unique

theorem Apart.enter (h : Apart s) (g m : ℕ) : Apart (s.enter g m (some (some m))) := by
  unfold Guards.enter Mutex.lock
  split_ifs with hl
  · exact h
  have hnone : ∀ g', s.acquired g' ≠ some m := fun g' hg' => hl (h.locked g' m hg')
  have hcases : ∀ g' m', Function.update s.acquired g (some m) g' = some m' →
      g' = g ∧ m' = m ∨ g' ≠ g ∧ m' ≠ m ∧ s.acquired g' = some m' := by
    intro g' m' hm
    by_cases hg : g' = g
    · rw [hg, Function.update_self] at hm
      exact .inl ⟨hg, (Option.some.inj hm).symm⟩
    · rw [Function.update_of_ne hg] at hm
      exact .inr ⟨hg, fun he => hnone g' (he ▸ hm), hm⟩
  constructor
  · intro g' m' hm
    rcases hcases g' m' hm with ⟨rfl, rfl⟩ | ⟨hg, -, hm⟩
    · exact Function.update_self ..
    · exact (Function.update_of_ne hg ..).trans (h.points g' m' hm)
  · intro g' m' hm
    change (Function.update s.mutex m ⟨true⟩ m').locked = true
    rcases hcases g' m' hm with ⟨-, rfl⟩ | ⟨-, hne, hm⟩
    · rw [Function.update_self]
    · rw [Function.update_of_ne hne]
      exact h.locked g' m' hm
  · intro g₁ g₂ m' h₁ h₂
    rcases hcases g₁ m' h₁ with ⟨rfl, rfl⟩ | ⟨-, hne₁, h₁⟩ <;> rcases hcases g₂ m' h₂ with ⟨rfl, he⟩ |
      ⟨-, hne₂, h₂⟩
    · rfl
    · exact absurd rfl hne₂
    · exact absurd he hne₁
    · exact h.unique g₁ g₂ m' h₁ h₂

theorem Apart.leave (h : Apart s) {g m : ℕ} (hown : (s.mutex m).locked → s.acquired g = some m)
    (p : Option Guard) : Apart (s.leave g m p) := by
  have hcases : ∀ g' m', Function.update s.acquired g none g' = some m' →
      g' ≠ g ∧ m' ≠ m ∧ s.acquired g' = some m' := by
    intro g' m' hm
    have hne : g' ≠ g := by
      rintro rfl
      rw [Function.update_self] at hm
      cases hm
    rw [Function.update_of_ne hne] at hm
    refine ⟨hne, ?_, hm⟩
    rintro rfl
    exact hne (h.unique g' g m' hm (hown (h.locked g' m' hm)))
  constructor
  · intro g' m' hm
    obtain ⟨hne, -, hm⟩ := hcases g' m' hm
    exact (Function.update_of_ne hne ..).trans (h.points g' m' hm)
  · intro g' m' hm
    obtain ⟨-, hne, hm⟩ := hcases g' m' hm
    change (Function.update s.mutex m _ m').locked = true
    rw [Function.update_of_ne hne]
    exact h.locked g' m' hm
  · intro g₁ g₂ m' h₁ h₂
    exact h.unique g₁ g₂ m' (hcases g₁ m' h₁).2.2 (hcases g₂ m' h₂).2.2

theorem Apart.release (h : Apart s) (g : ℕ) : Apart ((s.point g (some none)).answers g none) := by
  have hcases : ∀ g' m', Function.update s.acquired g none g' = some m' → g' ≠ g ∧ s.acquired g' = some m' := by
    intro g' m' hm
    by_cases hg : g' = g
    · rw [hg, Function.update_self] at hm
      cases hm
    · rw [Function.update_of_ne hg] at hm
      exact ⟨hg, hm⟩
  constructor
  · intro g' m' hm
    obtain ⟨hne, hm⟩ := hcases g' m' hm
    exact (Function.update_of_ne hne ..).trans (h.points g' m' hm)
  · intro g' m' hm
    exact h.locked g' m' (hcases g' m' hm).2
  · intro g₁ g₂ m' h₁ h₂
    exact h.unique g₁ g₂ m' (hcases g₁ m' h₁).2 (hcases g₂ m' h₂).2

theorem Apart.move (h : Apart s) {g other : ℕ} {p : Guard} (hp : s.guard other = some p) :
    Apart (s.move g other p) := by
  have hcases : ∀ g' m', (s.move g other p).acquired g' = some m' →
      g' ≠ other ∧ (g' = g ∧ s.acquired other = some m' ∨ g' ≠ g ∧ s.acquired g' = some m') := by
    intro g' m' hm
    change Function.update (Function.update s.acquired g (s.acquired other)) other none g' = some m' at hm
    have hne : g' ≠ other := by
      rintro rfl
      rw [Function.update_self] at hm
      cases hm
    rw [Function.update_of_ne hne] at hm
    by_cases hgg : g' = g
    · rw [hgg, Function.update_self] at hm
      exact ⟨hne, .inl ⟨hgg, hm⟩⟩
    · rw [Function.update_of_ne hgg] at hm
      exact ⟨hne, .inr ⟨hgg, hm⟩⟩
  constructor
  · intro g' m' hm
    change Function.update (Function.update s.guard g (some p)) other (some none) g' = _
    obtain ⟨hne, ⟨hgg, ha⟩ | ⟨hgg, ha⟩⟩ := hcases g' m' hm
    · rw [Function.update_of_ne hne, hgg, Function.update_self, ← hp]
      exact h.points other m' ha
    · rw [Function.update_of_ne hne, Function.update_of_ne hgg]
      exact h.points g' m' ha
  · intro g' m' hm
    obtain ⟨-, ⟨-, hm⟩ | ⟨-, hm⟩⟩ := hcases g' m' hm
    · exact h.locked other m' hm
    · exact h.locked g' m' hm
  · intro g₁ g₂ m' h₁ h₂
    obtain ⟨hn₁, ⟨e₁, h₁⟩ | ⟨-, h₁⟩⟩ := hcases g₁ m' h₁ <;> obtain ⟨hn₂, ⟨e₂, h₂⟩ | ⟨-, h₂⟩⟩ := hcases g₂ m' h₂
    · exact e₁.trans e₂.symm
    · exact absurd (h.unique g₂ other m' h₂ h₁) hn₂
    · exact absurd (h.unique g₁ other m' h₁ h₂) hn₁
    · exact h.unique g₁ g₂ m' h₁ h₂

theorem Apart.acquired_none (h : Apart s) {g : ℕ} (hg : s.guard g = none) : s.acquired g = none := by
  cases ha : s.acquired g with
  | none => rfl
  | some m =>
    rw [h.points g m ha] at hg
    cases hg

theorem Apart.destroy_empty (h : Apart s) {g : ℕ} (hg : ∀ m, s.guard g ≠ some (some m)) :
    s.acquired g = none := by
  cases ha : s.acquired g with
  | none => rfl
  | some m => exact absurd (h.points g m ha) (hg m)

theorem Apart.step (h : Apart s) (op : Op) (hlegal : Legal s op) (hsound : Sound s op) : Apart (s.step op) := by
  cases op with
  | create g => exact h.point (h.acquired_none hlegal) _
  | construct g m => exact h.enter g m
  | get g m => exact h.enter g m
  | moveConstruct g other =>
    obtain ⟨p, hp⟩ := Option.isSome_iff_exists.mp hlegal.2
    dsimp only [Guards.step]
    rw [hp]
    exact h.move hp
  | moveAssign g other =>
    obtain ⟨p, hp⟩ := Option.isSome_iff_exists.mp hlegal.2
    dsimp only [Guards.step]
    rw [hp]
    exact h.move hp
  | lock g =>
    dsimp only [Guards.step]
    split
    · exact h.enter g _
    · exact h
  | unlock g =>
    dsimp only [Guards.step]
    split
    · rename_i m hm
      exact h.leave (hsound m hm) _
    · exact h
  | release g => exact h.release g
  | destroy g =>
    dsimp only [Guards.step]
    split
    · rename_i m hm
      exact h.leave (hsound m hm) _
    · rename_i hno
      exact h.point (h.destroy_empty hno) _

theorem enter_locked {g m m' : ℕ} {p : Option Guard} (hm : (s.mutex m').locked) :
    ((s.enter g m p).mutex m').locked := by
  unfold enter Mutex.lock
  split_ifs
  · exact hm
  · change (Function.update s.mutex m ⟨true⟩ m').locked = true
    by_cases he : m' = m
    · rw [he, Function.update_self]
    · rwa [Function.update_of_ne he]

theorem leave_locked_iff {g m m' : ℕ} {p : Option Guard} (hm : (s.mutex m').locked) :
    ((s.leave g m p).mutex m').locked = false ↔ m' = m := by
  change (Function.update s.mutex m ⟨false⟩ m').locked = false ↔ m' = m
  by_cases he : m' = m
  · rw [he, Function.update_self]
    exact iff_of_true rfl rfl
  · rw [Function.update_of_ne he, hm]
    exact iff_of_false (fun hc => Bool.noConfusion hc) he

/-- What unlocks a locked mutex: `unlock` and the destructor of any guard that points to it. -/
theorem step_unlocks_iff (op : Op) {m : ℕ} (hm : (s.mutex m).locked) :
    ((s.step op).mutex m).locked = false ↔
      (op = .unlock op.target ∨ op = .destroy op.target) ∧ s.guard op.target = some (some m) := by
  have hkeeps : ∀ {s' : Guards}, (s'.mutex m).locked → ¬ (s'.mutex m).locked = false := fun h h' => by
    rw [h] at h'
    cases h'
  cases op with
  | create g => exact iff_of_false (hkeeps hm) (by rintro ⟨hop | hop, -⟩ <;> cases hop)
  | construct g m' => exact iff_of_false (hkeeps (enter_locked hm)) (by rintro ⟨hop | hop, -⟩ <;> cases hop)
  | get g m' => exact iff_of_false (hkeeps (enter_locked hm)) (by rintro ⟨hop | hop, -⟩ <;> cases hop)
  | moveConstruct g other =>
    refine iff_of_false ?_ (by rintro ⟨hop | hop, -⟩ <;> cases hop)
    dsimp only [step]
    split <;> exact hkeeps hm
  | moveAssign g other =>
    refine iff_of_false ?_ (by rintro ⟨hop | hop, -⟩ <;> cases hop)
    dsimp only [step]
    split <;> exact hkeeps hm
  | lock g =>
    refine iff_of_false ?_ (by rintro ⟨hop | hop, -⟩ <;> cases hop)
    dsimp only [step]
    split
    · exact hkeeps (enter_locked hm)
    · exact hkeeps hm
  | unlock g =>
    rw [and_iff_right (.inl rfl)]
    dsimp only [step, Op.target]
    split
    · rename_i m' hp
      rw [leave_locked_iff hm, hp, Option.some_inj, Option.some_inj, eq_comm]
    · rename_i hno
      exact iff_of_false (hkeeps hm) (hno m)
  | release g => exact iff_of_false (hkeeps hm) (by rintro ⟨hop | hop, -⟩ <;> cases hop)
  | destroy g =>
    rw [and_iff_right (.inr rfl)]
    dsimp only [step, Op.target]
    split
    · rename_i m' hp
      rw [leave_locked_iff hm, hp, Option.some_inj, Option.some_inj, eq_comm]
    · rename_i hno
      exact iff_of_false (hkeeps hm) (hno m)

theorem Apart.sound_iff (h : Apart s) (op : Op) (hlegal : Legal s op) : KeepsAcquired s op ↔ Sound s op := by
  constructor
  · rintro ⟨hunlocks, -, hassigns⟩
    have hheld : s.Assigns op → s.acquired op.target = none := by
      intro ha
      by_contra hne
      obtain ⟨m, hm⟩ := Option.ne_none_iff_exists'.mp hne
      obtain ⟨hop, -⟩ := (step_unlocks_iff op (h.locked _ m hm)).mp (hassigns ha m hm)
      rcases hop with hop | hop
      all_goals
        rw [hop] at ha
        exact ha
    cases op with
    | get g m => exact hheld
    | moveAssign g other => exact hheld trivial
    | unlock g => exact fun m hp hl => hunlocks m hl ((step_unlocks_iff _ hl).mpr ⟨.inl rfl, hp⟩)
    | destroy g => exact fun m hp hl => hunlocks m hl ((step_unlocks_iff _ hl).mpr ⟨.inr rfl, hp⟩)
    | _ => trivial
  · intro hsound
    refine ⟨fun m hl hu => ?_, (h.step op hlegal hsound).locked, fun ha m hm => ?_⟩
    · obtain ⟨hop | hop, hp⟩ := (step_unlocks_iff op hl).mp hu
      all_goals
        rw [hop] at hsound
        exact hsound m hp hl
    · have hnone : s.acquired op.target = none := by
        cases op with
        | get g m' => exact hsound ha
        | moveAssign g other => exact hsound
        | _ => cases ha
      rw [hnone] at hm
      cases hm

/-- A run keeps what its guards acquire just when all its operations are sound. -/
theorem keepsAcquired_iff (ops : List Op) (legal : Throughout step Legal fresh ops) :
    Throughout step KeepsAcquired fresh ops ↔ Throughout step Sound fresh ops :=
  throughout_iff fresh_apart (fun _ op h hl hs => h.step op hl hs) (fun _ op h hl => h.sound_iff op hl) legal

/-- A port that is there: its constructor gets the pager, unlocks it, and locks it again. -/
theorem keepsAcquired_port :
    Throughout step KeepsAcquired fresh [.create 0, .get 0 0, .unlock 0, .lock 0, .destroy 0] ↔
      Throughout step Sound fresh [.create 0, .get 0 0, .unlock 0, .lock 0, .destroy 0] := by
  refine keepsAcquired_iff _ ?_
  simp only [throughout_cons, throughout_nil, and_true]
  exact ⟨rfl, rfl, rfl, rfl, rfl⟩

/-- A port that is not there: its constructor returns after the unlock, and the
destructor of its guard unlocks the pager that another guard has got. And the
mutex of a guard that is assigned to stays locked. -/
theorem port_unlocks_pager :
    ¬ Throughout step KeepsAcquired fresh [.create 0, .get 0 0, .unlock 0, .create 1, .get 1 0, .destroy 0] ∧
    ¬ Throughout step KeepsAcquired fresh [.construct 0 0, .construct 1 1, .moveAssign 0 1] := by
  constructor
  · intro h
    have hlast :=
      (h [.create 0, .get 0 0, .unlock 0, .create 1, .get 1 0] (.destroy 0) List.prefix_rfl).unlocks 0 rfl rfl
    cases hlast
  · intro h
    have hlast := (h [.construct 0 0, .construct 1 1] (.moveAssign 0 1) List.prefix_rfl).assigns trivial 0 rfl
    cases hlast

end Guards
end Thorn
