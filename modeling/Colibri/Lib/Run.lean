import Mathlib.Tactic.Basic

/-!
# Runs of a state machine

A machine is a partial step function: `step s a = none` says that the action `a` stops the machine
in `s`. `Run step ok s₀ s` says that `s` is reached from `s₀` by actions that each meet `ok` in the
state they are taken in. `ok` holds what the environment promises and, where a result needs one, a
condition on the steps.
-/

namespace Colibri.Lib

variable {σ α : Type*} {step : σ → α → Option σ} {ok ok' : σ → α → Prop} {s₀ s : σ}

/-- The states reached from `s₀`. -/
inductive Run (step : σ → α → Option σ) (ok : σ → α → Prop) (s₀ : σ) : σ → Prop
  | init : Run step ok s₀ s₀
  | step {s s' : σ} (a : α) (hs : Run step ok s₀ s) (ha : ok s a) (h : step s a = some s') :
      Run step ok s₀ s'

namespace Run

/-- **The rule of invariants.** -/
theorem invariant (Inv : σ → Prop) (h₀ : Inv s₀)
    (hstep : ∀ s a s', Inv s → ok s a → step s a = some s' → Inv s') (h : Run step ok s₀ s) :
    Inv s := by
  induction h with
  | init => exact h₀
  | step a _ ha h ih => exact hstep _ a _ ih ha h

/-- A run that meets a condition meets every weaker one. -/
theorem mono (hok : ∀ s a, ok s a → ok' s a) (h : Run step ok s₀ s) : Run step ok' s₀ s := by
  induction h with
  | init => exact .init
  | step a _ ha h ih => exact .step a ih (hok _ a ha) h

end Run

/-- The state after the actions, each of which has to meet `ok`. -/
def runActions (step : σ → α → Option σ) (ok : σ → α → Prop) [∀ s a, Decidable (ok s a)] (s : σ) :
    List α → Option σ
  | [] => some s
  | a :: as => if ok s a then (step s a).bind fun s' => runActions step ok s' as else none

theorem Run.trans {s' : σ} (h : Run step ok s₀ s) (h' : Run step ok s s') : Run step ok s₀ s' := by
  induction h' with
  | init => exact h
  | step a _ ha he ih => exact .step a ih ha he

theorem Run.of_runActions [∀ s a, Decidable (ok s a)] {as : List α}
    (h : runActions step ok s₀ as = some s) : Run step ok s₀ s := by
  induction as generalizing s₀ with
  | nil =>
    obtain rfl : s₀ = s := Option.some.inj h
    exact .init
  | cons a as ih =>
    rw [runActions] at h
    split at h
    case isTrue ha =>
      obtain ⟨s', hs', he⟩ := Option.bind_eq_some_iff.mp h
      exact (Run.step a .init ha hs').trans (ih he)
    case isFalse => exact nomatch h

/-! ## Results of the steps -/

section Results

variable {τ β : Type*} {step : σ → α → Option (σ × β)} {step' : τ → α → Option (τ × β)}

/-- The state after the actions, and what each returned. -/
def runResults (step : σ → α → Option (σ × β)) (s : σ) : List α → Option (σ × List β)
  | [] => some (s, [])
  | a :: as => (step s a).bind fun r => (runResults step r.1 as).map fun t => (t.1, r.2 :: t.2)

/-- **The rule of simulation**: where each step of the abstract machine is one of the machine, with
the same result, so is each run. -/
theorem runResults_sim (R : σ → τ → Prop) {ok : α → Prop}
    (hstep : ∀ s t a t' b, R s t → ok a → step' t a = some (t', b) →
      ∃ s', step s a = some (s', b) ∧ R s' t') {s : σ} {t t' : τ} {as : List α} {bs : List β}
    (hR : R s t) (hok : ∀ a ∈ as, ok a) (h : runResults step' t as = some (t', bs)) :
    ∃ s', runResults step s as = some (s', bs) ∧ R s' t' := by
  induction as generalizing s t bs with
  | nil =>
    obtain ⟨rfl, rfl⟩ := Prod.mk.inj (Option.some.inj h)
    exact ⟨s, rfl, hR⟩
  | cons a as ih =>
    obtain ⟨ha, hrest⟩ := List.forall_mem_cons.mp hok
    obtain ⟨⟨t₁, b⟩, ht₁, hmap⟩ := Option.bind_eq_some_iff.mp h
    obtain ⟨⟨t₂, bs'⟩, ht₂, he⟩ := Option.map_eq_some_iff.mp hmap
    obtain ⟨rfl, rfl⟩ := Prod.mk.inj he
    obtain ⟨s₁, hs₁, hR₁⟩ := hstep s t a t₁ b hR ha ht₁
    obtain ⟨s₂, hs₂, hR₂⟩ := ih hR₁ hrest ht₂
    refine ⟨s₂, ?_, hR₂⟩
    rw [runResults, hs₁, Option.bind_some, hs₂, Option.map_some]

/-- Each action meets `ok` in the state that it is taken in. -/
def OkRun (step : σ → α → Option (σ × β)) (ok : σ → α → Prop) : σ → List α → Prop
  | _, [] => True
  | s, a :: as => ok s a ∧ ∀ s' b, step s a = some (s', b) → OkRun step ok s' as

instance OkRun.decidable {step : σ → α → Option (σ × β)} {ok : σ → α → Prop}
    [∀ s a, Decidable (ok s a)] : ∀ s as, Decidable (OkRun step ok s as)
  | _, [] => isTrue trivial
  | s, a :: as =>
    match h : step s a with
    | none => decidable_of_iff (ok s a)
      ⟨fun hok => ⟨hok, fun _ _ he => absurd (h.symm.trans he) (by simp)⟩, And.left⟩
    | some r =>
      have : Decidable (OkRun step ok r.1 as) := OkRun.decidable r.1 as
      decidable_of_iff (ok s a ∧ OkRun step ok r.1 as)
        ⟨fun hok => ⟨hok.1, fun _ _ he => by
          obtain rfl := Option.some.inj (h.symm.trans he)
          exact hok.2⟩,
        fun hok => ⟨hok.1, hok.2 r.1 r.2 h⟩⟩

/-- **The rule of refinement**: where each action goes through, has a result in `P` and is that of
`next` on what the state stands for, so does each run. -/
theorem runResults_refine {ok : σ → α → Prop} (next : τ → α → τ) (R : σ → τ → Prop) (P : β → Prop)
    (hstep : ∀ s t a, R s t → ok s a → ∃ s' b, step s a = some (s', b) ∧ P b ∧ R s' (next t a))
    {s : σ} {t : τ} {as : List α} (hR : R s t) (hok : OkRun step ok s as) :
    ∃ s' bs, runResults step s as = some (s', bs) ∧ (∀ b ∈ bs, P b) ∧ R s' (as.foldl next t) := by
  induction as generalizing s t with
  | nil => exact ⟨s, [], rfl, by simp, hR⟩
  | cons a as ih =>
    obtain ⟨s₁, b, hs₁, hb, hR₁⟩ := hstep s t a hR hok.1
    obtain ⟨s₂, bs, hs₂, hbs, hR₂⟩ := ih hR₁ (hok.2 s₁ b hs₁)
    refine ⟨s₂, b :: bs, ?_, List.forall_mem_cons.mpr ⟨hb, hbs⟩, hR₂⟩
    rw [runResults, hs₁, Option.bind_some, hs₂, Option.map_some]

end Results

end Colibri.Lib
