import Mathlib.Tactic.Common

/-!
# Runs of a deterministic machine that can fail

A machine is a step function `step : σ → α → Except ε σ`. An action of type `α`
names everything the environment decides (arguments, allocator answers, outcomes
of library calls), so a run is a list of actions.

* `exec`: the state after a run, or the first failure.
* `Along`: a condition on the state before a step and on its action holds at
  every step the run takes.
* `exec_invariant`, `exec_progress`, `exec_ok_iff`, `exec_error`: what one step keeps, a run
  keeps, when it ends without a failure, and where its failures come from.
* `Along.imp`, `along_congr`, `along_and`: what a condition implies under an invariant,
  along runs, and two conditions at once.
* `exec_flatMap`, `exec_map`: a run of steps that are runs themselves, and of steps of another
  machine.
* `StopsAt`: a run ends at a step for a reason that is named in the state before it.
* `exec_simulation`, `exec_refinement`: two machines in lockstep.
* `exec_kept`: a run against the run of some of its actions.
-/

namespace Runs

variable {σ α ε : Type}

/-- The state after the actions, or the first failure. -/
def exec (step : σ → α → Except ε σ) : σ → List α → Except ε σ
  | s, [] => .ok s
  | s, a :: as =>
    match step s a with
    | .ok s' => exec step s' as
    | .error e => .error e

/-- `P` holds at every step that the run takes, up to its first failure. -/
def Along (step : σ → α → Except ε σ) (P : σ → α → Prop) : σ → List α → Prop
  | _, [] => True
  | s, a :: as => P s a ∧ ∀ s', step s a = .ok s' → Along step P s' as

/-- A condition that can be decided at a step can be decided along a run. -/
instance decidableAlong {step : σ → α → Except ε σ} {P : σ → α → Prop}
    [∀ s a, Decidable (P s a)] : ∀ s as, Decidable (Along step P s as)
  | _, [] => inferInstanceAs (Decidable True)
  | s, a :: as =>
    match h : step s a with
    | .ok s' =>
      have := @decidableAlong step P _ s' as
      decidable_of_iff (P s a ∧ Along step P s' as) (and_congr_right fun _ =>
        ⟨fun hs _ ht => Except.ok.inj (h.symm.trans ht) ▸ hs, fun hs => hs s' h⟩)
    | .error _ => decidable_of_iff (P s a)
        ⟨fun hs => ⟨hs, fun _ ht => nomatch h.symm.trans ht⟩, And.left⟩

section
variable {step : σ → α → Except ε σ} {P Q : σ → α → Prop} {s s' : σ} {a : α} {as bs : List α}

@[simp] theorem exec_nil : exec step s [] = .ok s := rfl

theorem exec_cons_ok (h : step s a = .ok s') : exec step s (a :: as) = exec step s' as := by
  simp only [exec, h]

theorem exec_cons_eq_ok {t : σ} :
    exec step s (a :: as) = .ok t ↔ ∃ s', step s a = .ok s' ∧ exec step s' as = .ok t := by
  cases h : step s a with
  | ok s' => simp [exec, h]
  | error e => simp [exec, h]

theorem exec_append {t : σ} :
    exec step s (as ++ bs) = .ok t ↔
      ∃ s', exec step s as = .ok s' ∧ exec step s' bs = .ok t := by
  induction as generalizing s with
  | nil => simp
  | cons a as ih =>
    simp only [List.cons_append, exec_cons_eq_ok, ih]
    constructor
    · rintro ⟨s₁, h₁, s₂, h₂, h₃⟩
      exact ⟨s₂, ⟨s₁, h₁, h₂⟩, h₃⟩
    · rintro ⟨s₂, ⟨s₁, h₁, h₂⟩, h₃⟩
      exact ⟨s₁, h₁, s₂, h₂, h₃⟩

theorem exec_append_eq : exec step s (as ++ bs) =
    match exec step s as with
    | .ok s' => exec step s' bs
    | .error e => .error e := by
  induction as generalizing s with
  | nil => rfl
  | cons a as ih =>
    rw [List.cons_append, exec, exec]
    cases step s a with
    | ok s' => exact ih
    | error e => rfl

/-- A machine whose every step is a run of another one. -/
theorem exec_flatMap {β : Type} {step' : σ → β → Except ε σ} {f : α → List β}
    (h : ∀ s a, step s a = exec step' s (f a)) :
    exec step s as = exec step' s (as.flatMap f) := by
  induction as generalizing s with
  | nil => rfl
  | cons a as ih =>
    rw [List.flatMap_cons, exec_append_eq, exec, h]
    cases exec step' s (f a) with
    | ok s' => exact ih
    | error e => rfl

/-- A machine that uses a part of its actions. -/
theorem exec_map {β : Type} {f : β → α} {bs : List β} :
    exec (fun s b => step s (f b)) s bs = exec step s (bs.map f) := by
  induction bs generalizing s with
  | nil => rfl
  | cons b bs ih =>
    rw [List.map_cons, exec, exec]
    cases step s (f b) with
    | ok s' => exact ih
    | error e => rfl

theorem along_append :
    Along step P s (as ++ bs) ↔
      Along step P s as ∧ ∀ s', exec step s as = .ok s' → Along step P s' bs := by
  induction as generalizing s with
  | nil => simp [Along]
  | cons a as ih =>
    simp only [List.cons_append, Along, ih, exec_cons_eq_ok]
    constructor
    · rintro ⟨hp, hrest⟩
      refine ⟨⟨hp, fun s' hs' => (hrest s' hs').1⟩, ?_⟩
      rintro t ⟨s', hs', ht⟩
      exact (hrest s' hs').2 t ht
    · rintro ⟨⟨hp, hrest⟩, hbs⟩
      exact ⟨hp, fun s' hs' => ⟨hrest s' hs', fun t ht => hbs t ⟨s', hs', ht⟩⟩⟩

/-- What a condition implies in the states of an invariant, it implies along runs. -/
theorem Along.imp {J : σ → Prop} (hPQ : ∀ s a, J s → P s a → Q s a)
    (hstep : ∀ s a s', J s → P s a → step s a = .ok s' → J s')
    (hJ : J s) (h : Along step P s as) : Along step Q s as := by
  induction as generalizing s with
  | nil => trivial
  | cons a as ih =>
    exact ⟨hPQ s a hJ h.1, fun s' hs' => ih (hstep s a s' hJ h.1 hs') (h.2 s' hs')⟩

/-- What one step keeps, a run keeps. -/
theorem exec_invariant {J : σ → Prop}
    (hstep : ∀ s a s', J s → P s a → step s a = .ok s' → J s')
    (hJ : J s) (hP : Along step P s as) (h : exec step s as = .ok s') : J s' := by
  induction as generalizing s with
  | nil =>
    cases h
    exact hJ
  | cons a as ih =>
    obtain ⟨s₁, h₁, h₂⟩ := exec_cons_eq_ok.mp h
    exact ih (hstep s a s₁ hJ hP.1 h₁) (hP.2 s₁ h₁) h₂

/-- How a run fails, when the steps keep an invariant and it bounds their failures. -/
theorem exec_error {J : σ → Prop} {Q : ε → Prop}
    (hstep : ∀ s a s', J s → P s a → step s a = .ok s' → J s')
    (herr : ∀ s a e, J s → P s a → step s a = .error e → Q e)
    (hJ : J s) (hP : Along step P s as) {e : ε} (h : exec step s as = .error e) : Q e := by
  induction as generalizing s with
  | nil => cases h
  | cons a as ih =>
    cases hs : step s a with
    | ok s₁ =>
      rw [exec_cons_ok hs] at h
      exact ih (hstep s a s₁ hJ hP.1 hs) (hP.2 s₁ hs) h
    | error e' =>
      simp only [exec, hs] at h
      cases h
      exact herr s a e hJ hP.1 hs

theorem along_and :
    Along step (fun s a => P s a ∧ Q s a) s as ↔ Along step P s as ∧ Along step Q s as := by
  induction as generalizing s with
  | nil => exact ⟨fun _ => ⟨trivial, trivial⟩, fun _ => trivial⟩
  | cons a as ih =>
    constructor
    · rintro ⟨⟨hp, hq⟩, hrest⟩
      exact ⟨⟨hp, fun s' hs' => (ih.mp (hrest s' hs')).1⟩,
        ⟨hq, fun s' hs' => (ih.mp (hrest s' hs')).2⟩⟩
    · rintro ⟨⟨hp, hrest⟩, ⟨hq, hrest'⟩⟩
      exact ⟨⟨hp, hq⟩, fun s' hs' => ih.mpr ⟨hrest s' hs', hrest' s' hs'⟩⟩

theorem along_true : Along step (fun _ _ => True) s as := by
  induction as generalizing s with
  | nil => trivial
  | cons a as ih => exact ⟨trivial, fun s' _ => ih⟩

/-- The same for what every step keeps, whatever it does. -/
theorem exec_keeps (J : σ → Prop) (hstep : ∀ s a s', J s → step s a = .ok s' → J s')
    (hJ : J s) (h : exec step s as = .ok s') : J s' :=
  exec_invariant (fun s a s' hJ _ hs => hstep s a s' hJ hs) hJ along_true h

/-- When no step can fail under the invariant, the run reaches its end. -/
theorem exec_progress {J : σ → Prop}
    (hstep : ∀ s a, J s → P s a → ∃ s', step s a = .ok s' ∧ J s')
    (hJ : J s) (hP : Along step P s as) : ∃ s', exec step s as = .ok s' ∧ J s' := by
  induction as generalizing s with
  | nil => exact ⟨s, rfl, hJ⟩
  | cons a as ih =>
    obtain ⟨s₁, h₁, hJ₁⟩ := hstep s a hJ hP.1
    obtain ⟨s', hs', hJ'⟩ := ih hJ₁ (hP.2 s₁ h₁)
    exact ⟨s', by rw [exec_cons_ok h₁, hs'], hJ'⟩

/-- A run reaches its end exactly when the condition for this holds at every step. -/
theorem exec_ok_iff (J : σ → Prop)
    (hstep : ∀ s a, J s → P s a → ((∃ s', step s a = .ok s') ↔ Q s a))
    (hkeep : ∀ s a s', J s → P s a → step s a = .ok s' → J s')
    (hJ : J s) (hP : Along step P s as) :
    (∃ s', exec step s as = .ok s' ∧ J s') ↔ Along step Q s as := by
  induction as generalizing s with
  | nil => exact iff_of_true ⟨s, rfl, hJ⟩ trivial
  | cons a as ih =>
    constructor
    · rintro ⟨s', hrun, hJ'⟩
      obtain ⟨s₁, h₁, hrest⟩ := exec_cons_eq_ok.mp hrun
      refine ⟨(hstep s a hJ hP.1).mp ⟨s₁, h₁⟩, fun s₂ h₂ => ?_⟩
      obtain rfl := Except.ok.inj (h₁.symm.trans h₂)
      exact (ih (hkeep s a s₁ hJ hP.1 h₁) (hP.2 s₁ h₁)).mp ⟨s', hrest, hJ'⟩
    · rintro ⟨hq, hrest⟩
      obtain ⟨s₁, h₁⟩ := (hstep s a hJ hP.1).mpr hq
      rw [exec_cons_ok h₁]
      exact (ih (hkeep s a s₁ hJ hP.1 h₁) (hP.2 s₁ h₁)).mpr (hrest s₁ h₁)

/-- Conditions that agree in the states of an invariant agree along runs. -/
theorem along_congr (J : σ → Prop) (hPQ : ∀ s a, J s → (P s a ↔ Q s a))
    (hstep : ∀ s a s', J s → P s a → step s a = .ok s' → J s') (hJ : J s) :
    Along step P s as ↔ Along step Q s as := by
  induction as generalizing s with
  | nil => exact Iff.rfl
  | cons a as ih =>
    constructor
    · rintro ⟨hp, hrest⟩
      refine ⟨(hPQ s a hJ).mp hp, fun s' hs' => ?_⟩
      exact (ih (hstep s a s' hJ hp hs')).mp (hrest s' hs')
    · rintro ⟨hq, hrest⟩
      have hp := (hPQ s a hJ).mpr hq
      exact ⟨hp, fun s' hs' => (ih (hstep s a s' hJ hp hs')).mpr (hrest s' hs')⟩

end

/-! ## Two machines -/

/-- The run ends with `e` at one of its steps, for a reason that `Stops` names in the state
before that step. -/
def StopsAt (step : σ → α → Except ε σ) (Stops : σ → α → ε → Prop) (s : σ) (as : List α)
    (e : ε) : Prop :=
  ∃ pre a post s', as = pre ++ a :: post ∧ exec step s pre = .ok s' ∧ step s' a = .error e ∧
    Stops s' a e

section
variable {τ δ : Type} {step : σ → α → Except ε σ} {step' : τ → α → Except δ τ}
  {Stops : σ → α → ε → Prop} {s s' : σ} {a : α} {as : List α} {e : ε}

theorem StopsAt.head (he : step s a = .error e) (hs : Stops s a e) :
    StopsAt step Stops s (a :: as) e :=
  ⟨[], a, as, s, rfl, rfl, he, hs⟩

theorem StopsAt.tail (hs : step s a = .ok s') (h : StopsAt step Stops s' as e) :
    StopsAt step Stops s (a :: as) e := by
  obtain ⟨pre, b, post, t, rfl, hpre, he, hstops⟩ := h
  exact ⟨a :: pre, b, post, t, rfl, by rw [exec_cons_ok hs, hpre], he, hstops⟩

theorem StopsAt.exec_eq (h : StopsAt step Stops s as e) : exec step s as = .error e := by
  obtain ⟨pre, a, post, s', rfl, hpre, he, -⟩ := h
  rw [exec_append_eq, hpre]
  simp only [exec, he]

/-- A machine simulates another one in lockstep, up to a step that it stops at for a reason that
`Stops` names. -/
theorem exec_simulation {P : τ → α → Prop} (R : σ → τ → Prop) (Stops : σ → α → ε → Prop)
    (hstep : ∀ s t a, R s t → P t a → (∃ e, step s a = .error e ∧ Stops s a e) ∨
      ∃ s' t', step s a = .ok s' ∧ step' t a = .ok t' ∧ R s' t')
    {s : σ} {t : τ} {as : List α} (hR : R s t) (hP : Along step' P t as) :
    (∃ e, StopsAt step Stops s as e) ∨
      ∃ s' t', exec step s as = .ok s' ∧ exec step' t as = .ok t' ∧ R s' t' := by
  induction as generalizing s t with
  | nil => exact Or.inr ⟨s, t, rfl, rfl, hR⟩
  | cons a as ih =>
    rcases hstep s t a hR hP.1 with ⟨e, he, hs⟩ | ⟨s₁, t₁, hs₁, ht₁, hR₁⟩
    · exact Or.inl ⟨e, .head he hs⟩
    · rw [exec_cons_ok hs₁, exec_cons_ok ht₁]
      exact (ih hR₁ (hP.2 t₁ ht₁)).imp_left fun ⟨e, he⟩ => ⟨e, he.tail hs₁⟩

/-- A machine refines another one, up to a step that it stops at for a reason that `Stops` names. -/
theorem exec_refinement {P : σ → α → Prop} (R : σ → τ → Prop) (Stops : σ → α → ε → Prop)
    (hstep : ∀ s t t' a, R s t → P s a → step' t a = .ok t' →
      (∃ e, step s a = .error e ∧ Stops s a e) ∨ ∃ s', step s a = .ok s' ∧ R s' t')
    {s : σ} {t t' : τ} {as : List α} (hR : R s t) (hP : Along step P s as)
    (hrun : exec step' t as = .ok t') :
    (∃ s', exec step s as = .ok s' ∧ R s' t') ∨ ∃ e, StopsAt step Stops s as e := by
  induction as generalizing s t with
  | nil =>
    cases hrun
    exact Or.inl ⟨s, rfl, hR⟩
  | cons a as ih =>
    obtain ⟨t₁, ht₁, hrest⟩ := exec_cons_eq_ok.mp hrun
    rcases hstep s t t₁ a hR hP.1 ht₁ with ⟨e, he, hs⟩ | ⟨s₁, hs₁, hR₁⟩
    · exact Or.inr ⟨e, .head he hs⟩
    · rw [exec_cons_ok hs₁]
      exact (ih hR₁ (hP.2 s₁ hs₁) hrest).imp_right fun ⟨e, he⟩ => ⟨e, he.tail hs₁⟩

end

/-! ## Actions that can be left out -/

/-- The same failure, or two states in the relation. -/
inductive Related (R : σ → σ → Prop) : Except ε σ → Except ε σ → Prop
  | ok {s t : σ} (h : R s t) : Related R (.ok s) (.ok t)
  | error (e : ε) : Related R (.error e) (.error e)

/-- The actions of a run that `keep` selects in the state before them. After a failure all
are kept. -/
def kept (step : σ → α → Except ε σ) (keep : σ → α → Bool) : σ → List α → List α
  | _, [] => []
  | s, a :: as =>
    let rest :=
      match step s a with
      | .ok s' => kept step keep s' as
      | .error _ => as
    if keep s a then a :: rest else rest

/-- A run is related to the run of its kept actions when the steps of those are related, and
the other steps do not leave the relation. -/
theorem exec_kept {step : σ → α → Except ε σ} {P : σ → α → Prop} {keep : σ → α → Bool}
    {R : σ → σ → Prop}
    (hkeep : ∀ s t a, R s t → P s a → keep s a = true → Related R (step s a) (step t a))
    (hskip : ∀ s t a, R s t → P s a → keep s a = false → ∃ s', step s a = .ok s' ∧ R s' t)
    {s t : σ} {as : List α} (h : R s t) (hP : Along step P s as) :
    Related R (exec step s as) (exec step t (kept step keep s as)) := by
  induction as generalizing s t with
  | nil => exact .ok h
  | cons a as ih =>
    obtain ⟨hp, hrest⟩ := hP
    rw [kept]
    cases hk : keep s a with
    | true =>
      have hstep := hkeep s t a h hp hk
      rw [if_pos rfl, exec, exec]
      generalize hs : step s a = r at hstep ⊢
      generalize step t a = r' at hstep ⊢
      cases hstep with
      | ok h' => exact ih h' (hrest _ hs)
      | error e => exact .error e
    | false =>
      obtain ⟨s', hs, h'⟩ := hskip s t a h hp hk
      rw [if_neg Bool.false_ne_true, exec_cons_ok hs, hs]
      exact ih h' (hrest s' hs)

end Runs
