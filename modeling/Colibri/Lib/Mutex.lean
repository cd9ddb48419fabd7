import Mathlib.Logic.Function.Basic
import Colibri.Lib.Run

/-!
# Data behind a lock

Processes share data that they access only while they hold a lock. The lock is a state machine of
which only the phases of the processes matter (`Lock`); a critical section is a function from a
process's own state and the data to their next values, `none` at its end (`Guarded.step`). Between any
two steps of one process the others take steps of theirs, and the environment changes the data as
`env` allows.

`Guarded.invariant` is the rule of the lock invariant, which may relate the data to the states of all
processes. `Guarded.Resource` is the common case: what holds of the data while nobody has the lock is
what a process finds when it gets it, and what it has to restore. The exclusion by the lock is used
once, here, and a proof about a critical section does not see the lock any more.
-/

namespace Colibri.Lib

/-- Where a process is: outside, on its way to the lock, or in its critical section. -/
inductive Phase where
  | out
  | waits
  | holds
  deriving DecidableEq

/-- A lock of the processes `ι`. `next` is a process's next step in the code of the lock. A process
that is idle calls it; one that is outside but not idle is still on its way back. -/
structure Lock (σ ι : Type) where
  next : σ → ι → σ
  phase : σ → ι → Phase
  Idle : σ → ι → Prop
  Inv : σ → Prop
  keep {s : σ} (i : ι) : Inv s → Inv (next s i)
  unique {s : σ} {i j : ι} : Inv s → phase s i = .holds → phase s j = .holds → i = j
  other {s : σ} {i j : ι} : j ≠ i → phase (next s i) j = phase s j
  call {s : σ} {i : ι} : Idle s i → phase s i = .out ∧ phase (next s i) i = .waits
  back {s : σ} {i : ι} : ¬ Idle s i → phase s i = .out → phase (next s i) i = .out
  wait {s : σ} {i : ι} : phase s i = .waits → phase (next s i) i ≠ .out
  leave {s : σ} {i : ι} : phase s i = .holds → phase (next s i) i = .out

/-- The lock, the processes' own states, and the data. -/
structure Guarded (σ ι L D : Type) where
  lock : σ
  loc : ι → L
  data : D

/-- `call` starts a critical section with the state `l`, and may change the data at once. -/
inductive Access (ι L D : Type) where
  | call (i : ι) (l : L) (d : D)
  | step (i : ι)
  | write (d : D)

namespace Guarded

variable {σ ι L D : Type} [DecidableEq ι]

section

variable (lk : Lock σ ι) (body : L → D → Option (L × D))

/-- A step of a process, in its critical section or in the code of the lock. -/
def stepOf (g : Guarded σ ι L D) (i : ι) : Guarded σ ι L D :=
  if lk.phase g.lock i = .holds then
    match body (g.loc i) g.data with
    | some (l, d) => { g with loc := Function.update g.loc i l, data := d }
    | none => { g with lock := lk.next g.lock i }
  else { g with lock := lk.next g.lock i }

def step (g : Guarded σ ι L D) : Access ι L D → Option (Guarded σ ι L D)
  | .call i l d => some ⟨lk.next g.lock i, Function.update g.loc i l, d⟩
  | .step i => some (g.stepOf lk body i)
  | .write d => some { g with data := d }

variable (enter : D → ι → L → D → Prop) (env : D → D → Prop)

/-- What calls and the environment may do. -/
def ok (g : Guarded σ ι L D) : Access ι L D → Prop
  | .call i l d => lk.Idle g.lock i ∧ enter g.data i l d
  | .step i => ¬ lk.Idle g.lock i
  | .write d => env g.data d

instance [∀ s i, Decidable (lk.Idle s i)] [∀ d i l d', Decidable (enter d i l d')]
    [∀ d d', Decidable (env d d')] (g : Guarded σ ι L D) (a : Access ι L D) :
    Decidable (ok lk enter env g a) :=
  match a with
  | .call i l d => inferInstanceAs (Decidable (lk.Idle g.lock i ∧ enter g.data i l d))
  | .step i => inferInstanceAs (Decidable (¬ lk.Idle g.lock i))
  | .write d => inferInstanceAs (Decidable (env g.data d))

end

variable {lk : Lock σ ι} {body : L → D → Option (L × D)} {enter : D → ι → L → D → Prop}
  {env : D → D → Prop} {g₀ g : Guarded σ ι L D}

/-- **The obligations of a lock invariant** `J`, which sees the phases of the processes. -/
structure Rule (body : L → D → Option (L × D)) (enter : D → ι → L → D → Prop) (env : D → D → Prop)
    (J : (ι → Phase) → (ι → L) → D → Prop) : Prop where
  call {ph : ι → Phase} {loc : ι → L} {d d' : D} {i : ι} {l : L} : J ph loc d → ph i = .out →
    enter d i l d' → J (Function.update ph i .waits) (Function.update loc i l) d'
  acquire {ph : ι → Phase} {loc : ι → L} {d : D} {i : ι} : J ph loc d → ph i = .waits →
    (∀ j, ph j ≠ .holds) → J (Function.update ph i .holds) loc d
  access {ph : ι → Phase} {loc : ι → L} {d d' : D} {i : ι} {l : L} : J ph loc d → ph i = .holds →
    (∀ j, j ≠ i → ph j ≠ .holds) → body (loc i) d = some (l, d') →
    J ph (Function.update loc i l) d'
  release {ph : ι → Phase} {loc : ι → L} {d : D} {i : ι} : J ph loc d → ph i = .holds →
    (∀ j, j ≠ i → ph j ≠ .holds) → body (loc i) d = none → J (Function.update ph i .out) loc d
  write {ph : ι → Phase} {loc : ι → L} {d d' : D} : J ph loc d → env d d' → J ph loc d'

section Invariant

variable {J : (ι → Phase) → (ι → L) → D → Prop}

theorem phase_next (lk : Lock σ ι) (s : σ) (i : ι) :
    lk.phase (lk.next s i) = Function.update (lk.phase s) i (lk.phase (lk.next s i) i) := by
  funext j
  by_cases hj : j = i
  · rw [hj, Function.update_self]
  · rw [Function.update_of_ne hj, lk.other hj]

/-- A step in the code of the lock. -/
theorem Rule.next {i : ι} (h : Rule body enter env J) (hlock : lk.Inv g.lock)
    (hidle : ¬ lk.Idle g.lock i) (hJ : J (lk.phase g.lock) g.loc g.data)
    (hbody : lk.phase g.lock i = .holds → body (g.loc i) g.data = none) :
    J (lk.phase (lk.next g.lock i)) g.loc g.data := by
  have hnext := phase_next lk g.lock i
  cases hph : lk.phase g.lock i with
  | out =>
    rw [hnext, lk.back hidle hph, ← hph, Function.update_eq_self]
    exact hJ
  | waits =>
    cases hph' : lk.phase (lk.next g.lock i) i with
    | out => exact absurd hph' (lk.wait hph)
    | waits =>
      rw [hnext, hph', ← hph, Function.update_eq_self]
      exact hJ
    | holds =>
      rw [hnext, hph']
      refine h.acquire hJ hph fun j hj => ?_
      -- a second holder would also be one after the step
      have hne : j ≠ i := fun he => Phase.noConfusion (hph.symm.trans (he ▸ hj))
      exact hne (lk.unique (lk.keep i hlock) ((lk.other hne).trans hj) hph')
  | holds =>
    rw [hnext, lk.leave hph]
    exact h.release hJ hph (fun j hne hj => hne (lk.unique hlock hj hph)) (hbody hph)

theorem Rule.step {i : ι} (h : Rule body enter env J) (hlock : lk.Inv g.lock)
    (hidle : ¬ lk.Idle g.lock i) (hJ : J (lk.phase g.lock) g.loc g.data) :
    lk.Inv (g.stepOf lk body i).lock ∧
      J (lk.phase (g.stepOf lk body i).lock) (g.stepOf lk body i).loc (g.stepOf lk body i).data := by
  unfold stepOf
  by_cases hph : lk.phase g.lock i = .holds
  · rw [if_pos hph]
    cases hbody : body (g.loc i) g.data with
    | none => exact ⟨lk.keep i hlock, h.next hlock hidle hJ fun _ => hbody⟩
    | some r =>
      have hother : ∀ j, j ≠ i → lk.phase g.lock j ≠ .holds := fun j hne hj =>
        hne (lk.unique hlock hj hph)
      exact ⟨hlock, h.access hJ hph hother hbody⟩
  · rw [if_neg hph]
    exact ⟨lk.keep i hlock, h.next hlock hidle hJ fun hholds => absurd hholds hph⟩

/-- **The rule of the lock invariant.** -/
theorem invariant (h : Rule body enter env J) (hlock : lk.Inv g₀.lock)
    (h₀ : J (lk.phase g₀.lock) g₀.loc g₀.data)
    (hrun : Run (step lk body) (ok lk enter env) g₀ g) :
    lk.Inv g.lock ∧ J (lk.phase g.lock) g.loc g.data := by
  refine hrun.invariant (fun g => lk.Inv g.lock ∧ J (lk.phase g.lock) g.loc g.data) ⟨hlock, h₀⟩ ?_
  intro g a g' hg hok hstep
  cases a with
  | call i l d =>
    obtain rfl := Option.some.inj hstep
    obtain ⟨hout, hwaits⟩ := lk.call hok.1
    refine ⟨lk.keep i hg.1, ?_⟩
    show J (lk.phase (lk.next g.lock i)) _ _
    rw [phase_next, hwaits]
    exact h.call hg.2 hout hok.2
  | step i =>
    obtain rfl := Option.some.inj hstep
    exact h.step hg.1 hok hg.2
  | write d =>
    obtain rfl := Option.some.inj hstep
    exact ⟨hg.1, h.write hg.2 hok⟩

end Invariant

/-! ## Invariants of the data -/

/-- The obligations of an invariant `Free` of the data. A process that waits has a state in `Start`,
one that holds the lock is related to the data by `Busy`, and one that is outside by `Done`. -/
structure Resource (body : L → D → Option (L × D)) (enter : D → ι → L → D → Prop)
    (Start : L → Prop) (Free : D → Prop) (Busy Done : L → D → Prop) : Prop where
  call {d d' : D} {i : ι} {l : L} : enter d i l d' → Start l ∧ d' = d
  acquire {d : D} {l : L} : Free d → Start l → Busy l d
  access {d d' : D} {l l' : L} : Busy l d → body l d = some (l', d') → Busy l' d'
  keep {d d' : D} {l l' l₀ : L} : Busy l d → body l d = some (l', d') → Done l₀ d → Done l₀ d'
  release {d : D} {l : L} : Busy l d → body l d = none → Free d ∧ Done l d

/-- What holds along the runs. -/
structure Resource.Holds (Start : L → Prop) (Free : D → Prop) (Busy Done : L → D → Prop)
    (ph : ι → Phase) (loc : ι → L) (d : D) : Prop where
  out : ∀ i, ph i = .out → Done (loc i) d
  waits : ∀ i, ph i = .waits → Start (loc i)
  free : (∀ i, ph i ≠ .holds) → Free d
  busy : ∀ i, ph i = .holds → Busy (loc i) d

variable {Start : L → Prop} {Free : D → Prop} {Busy Done : L → D → Prop}

/-- Phases that are updated at `i`. -/
theorem update_phase {ph : ι → Phase} {i j : ι} {p q : Phase} (h : Function.update ph i p j = q) :
    j = i ∧ p = q ∨ j ≠ i ∧ ph j = q := by
  by_cases hji : j = i
  · rw [hji, Function.update_self] at h
    exact .inl ⟨hji, h⟩
  · rw [Function.update_of_ne hji] at h
    exact .inr ⟨hji, h⟩

theorem Resource.rule (h : Resource body enter Start Free Busy Done) :
    Rule body enter (fun _ _ => False) (Resource.Holds Start Free Busy Done) where
  call := by
    intro ph loc d d' i l hJ hout hcall
    obtain ⟨hstart, rfl⟩ := h.call hcall
    refine ⟨fun j hj => ?_, fun j hj => ?_, fun hfree => hJ.free fun j hj => ?_, fun j hj => ?_⟩
    · obtain ⟨-, hp⟩ | ⟨hji, hj⟩ := update_phase hj
      · exact Phase.noConfusion hp
      · rw [Function.update_of_ne hji]
        exact hJ.out j hj
    · obtain ⟨rfl, -⟩ | ⟨hji, hj⟩ := update_phase hj
      · rwa [Function.update_self]
      · rw [Function.update_of_ne hji]
        exact hJ.waits j hj
    · have hji : j ≠ i := fun he => Phase.noConfusion (hout.symm.trans (he ▸ hj))
      exact hfree j (by rw [Function.update_of_ne hji, hj])
    · obtain ⟨-, hp⟩ | ⟨hji, hj⟩ := update_phase hj
      · exact Phase.noConfusion hp
      · rw [Function.update_of_ne hji]
        exact hJ.busy j hj
  acquire := by
    intro ph loc d i hJ hi hfree
    refine ⟨fun j hj => ?_, fun j hj => ?_, fun hall => ?_, fun j hj => ?_⟩
    · obtain ⟨-, hp⟩ | ⟨-, hj⟩ := update_phase hj
      · exact Phase.noConfusion hp
      · exact hJ.out j hj
    · obtain ⟨-, hp⟩ | ⟨-, hj⟩ := update_phase hj
      · exact Phase.noConfusion hp
      · exact hJ.waits j hj
    · exact absurd (Function.update_self _ _ _) (hall i)
    · obtain ⟨rfl, -⟩ | ⟨-, hj⟩ := update_phase hj
      · exact h.acquire (hJ.free hfree) (hJ.waits j hi)
      · exact absurd hj (hfree j)
  access := by
    intro ph loc d d' i l hJ hi hother hbody
    have hne {j : ι} {p : Phase} (hj : ph j = p) (hp : p ≠ .holds) : j ≠ i := fun he =>
      hp (hj.symm.trans (he ▸ hi))
    refine ⟨fun j hj => ?_, fun j hj => ?_, fun hall => absurd hi (hall i), fun j hj => ?_⟩
    · rw [Function.update_of_ne (hne hj Phase.noConfusion)]
      exact h.keep (hJ.busy i hi) hbody (hJ.out j hj)
    · rw [Function.update_of_ne (hne hj Phase.noConfusion)]
      exact hJ.waits j hj
    · obtain rfl : j = i := by
        by_contra hji
        exact hother j hji hj
      rw [Function.update_self]
      exact h.access (hJ.busy j hi) hbody
  release := by
    intro ph loc d i hJ hi hother hbody
    obtain ⟨hfree, hdone⟩ := h.release (hJ.busy i hi) hbody
    refine ⟨fun j hj => ?_, fun j hj => ?_, fun _ => hfree, fun j hj => ?_⟩
    · obtain ⟨rfl, -⟩ | ⟨-, hj⟩ := update_phase hj
      · exact hdone
      · exact hJ.out j hj
    · obtain ⟨-, hp⟩ | ⟨-, hj⟩ := update_phase hj
      · exact Phase.noConfusion hp
      · exact hJ.waits j hj
    · obtain ⟨-, hp⟩ | ⟨hji, hj⟩ := update_phase hj
      · exact Phase.noConfusion hp
      · exact absurd hj (hother j hji)
  write _ h := h.elim

end Guarded

end Colibri.Lib
