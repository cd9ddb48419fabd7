import Colibri.Sync.PushOff

/-!
# Spinlocks on several processors

Model of `holding`, `acquire` and `release` of `kernel/synchronization/spinlock.c` on one lock that
any number of processors use. A step of a processor is one read or one write of `lock->held` or of
`lock->cpu_id`, or one test-and-set; the steps of different processors interleave freely.

Each processor calls the two functions in turn. What it does between the calls, the warnings of a
long wait, and `push_off` and `pop_off`, which only touch the state of the processor itself, are left
out.

Mutual exclusion rests on the test-and-set alone (`Exclusive`). The check of `holding` reads two
words that other processors write one after the other, and `0`, which stands in `cpu_id` whenever no
owner does, is the number of a processor: see `Stale`.
-/

namespace Colibri.Sync

open Colibri.Lib

/-- Where a processor is in the code of the lock. -/
inductive Pc where
  /-- Outside, without the lock. -/
  | idle
  /-- In `holding`, before it reads `held`. -/
  | readHeld
  /-- In `holding`, before it reads `cpu_id`: it has read that `held` is set. -/
  | readCpuId
  /-- In the loop of `acquire`. -/
  | testAndSet
  /-- In `acquire`, after its test-and-set, before it stores its number. -/
  | storeCpuId
  /-- Outside, with the lock. -/
  | holds
  /-- In `release`, before it resets `cpu_id`. -/
  | resetCpuId
  /-- In `release`, before it clears `held`. -/
  | clearHeld
  /-- In `panic("acquire")`. -/
  | panicked
  deriving DecidableEq, Repr

/-- The processor is between its test-and-set and its clear of `held`. -/
def Pc.inside : Pc → Bool
  | .storeCpuId | .holds | .resetCpuId | .clearHeld => true
  | _ => false

/-- The number of the processor stands in `cpu_id`. -/
def Pc.stored : Pc → Bool
  | .holds | .resetCpuId => true
  | _ => false

/-- The lock, and the processors that use it. -/
structure Shared where
  lock : Spinlock
  pc : Nat → Pc

namespace Shared

/-- The processor `i` goes on at `p`. -/
def goto (s : Shared) (i : Nat) (p : Pc) : Shared := { s with pc := Function.update s.pc i p }

/-- The next step of the processor `i`. -/
def next (s : Shared) (i : Nat) : Shared :=
  match s.pc i with
  | .idle => s.goto i .readHeld
  | .readHeld => s.goto i (if s.lock.held then .readCpuId else .testAndSet)
  | .readCpuId => s.goto i (if s.lock.cpuId = i then .panicked else .testAndSet)
  | .testAndSet =>
    if s.lock.held then s
    else { s with lock := { s.lock with held := true } }.goto i .storeCpuId
  | .storeCpuId => { s with lock := { s.lock with cpuId := i } }.goto i .holds
  | .holds => s.goto i .resetCpuId
  | .resetCpuId => { s with lock := { s.lock with cpuId := 0 } }.goto i .clearHeld
  | .clearHeld => { s with lock := { s.lock with held := false } }.goto i .idle
  | .panicked => s

/-- A lock nobody has used. -/
def init : Shared := ⟨⟨false, 0⟩, fun _ => .idle⟩

end Shared

/-- The runs of `n` processors whose every step meets `P`. -/
abbrev LockRun (P : Shared → Nat → Prop) (n : Nat) : Shared → Prop :=
  Run (fun s i => some (s.next i)) (fun s i => i < n ∧ P s i) Shared.init

/-! ## The owner -/

/-- **The invariant.** Nobody owns the lock and its words are zero, or exactly one processor is
inside, and its number is in `cpu_id` between its store and its reset of it. -/
inductive Exclusive (s : Shared) : Prop
  | free (held : s.lock.held = false) (cpuId : s.lock.cpuId = 0)
      (out : ∀ i, (s.pc i).inside = false)
  | owned (o : Nat) (held : s.lock.held = true) (inside : (s.pc o).inside = true)
      (cpuId : s.lock.cpuId = if (s.pc o).stored then o else 0)
      (out : ∀ i, i ≠ o → (s.pc i).inside = false)

theorem exclusive_init : Exclusive Shared.init := .free rfl rfl fun _ => rfl

/-- What holds when the processor `i` is inside. -/
theorem Exclusive.of_inside {s : Shared} (hs : Exclusive s) {i : Nat}
    (hi : (s.pc i).inside = true) : s.lock.held = true ∧
      (s.lock.cpuId = if (s.pc i).stored then i else 0) ∧
      ∀ k, k ≠ i → (s.pc k).inside = false := by
  cases hs with
  | free _ _ out => exact absurd hi (by simp [out i])
  | owned o held _ cpuId out =>
    obtain rfl : i = o := by
      by_contra hne
      exact absurd hi (by simp [out i hne])
    exact ⟨held, cpuId, out⟩

/-- What holds when nobody is. -/
theorem Exclusive.of_not_held {s : Shared} (hs : Exclusive s) (h : s.lock.held = false) :
    s.lock.cpuId = 0 ∧ ∀ k, (s.pc k).inside = false := by
  cases hs with
  | free _ cpuId out => exact ⟨cpuId, out⟩
  | owned o held => exact absurd held (by simp [h])

theorem Exclusive.unique {s : Shared} (hs : Exclusive s) {i j : Nat}
    (hi : (s.pc i).inside = true) (hj : (s.pc j).inside = true) : i = j := by
  by_contra hne
  exact absurd hi (by simp [(hs.of_inside hj).2.2 i hne])

/-- A step of a processor that stays outside and leaves the lock as it is. -/
theorem Exclusive.goto_out {s : Shared} (hs : Exclusive s) {i : Nat} {p : Pc}
    (hi : (s.pc i).inside = false) (hp : p.inside = false) : Exclusive (s.goto i p) := by
  have hout : ∀ k, (s.pc k).inside = false → ((s.goto i p).pc k).inside = false := by
    intro k hk
    by_cases hki : k = i
    · subst hki
      simpa [Shared.goto] using hp
    · simpa [Shared.goto, Function.update_of_ne hki] using hk
  cases hs with
  | free held cpuId out => exact .free held cpuId fun k => hout k (out k)
  | owned o held inside cpuId out =>
    have hoi : o ≠ i := by
      rintro rfl
      exact absurd inside (by simp [hi])
    have hpc : (s.goto i p).pc o = s.pc o := Function.update_of_ne hoi _ _
    exact .owned o held (by rw [hpc]; exact inside) (by rw [hpc]; exact cpuId)
      fun k hk => hout k (out k hk)

/-- A step of the owner that keeps it inside. -/
theorem Exclusive.goto_in {s : Shared} (hs : Exclusive s) {i : Nat} {p : Pc} {c : Nat}
    (hi : (s.pc i).inside = true) (hp : p.inside = true) (hc : c = if p.stored then i else 0) :
    Exclusive ({ s with lock := { s.lock with cpuId := c } }.goto i p) := by
  obtain ⟨held, -, out⟩ := hs.of_inside hi
  refine .owned i held ?_ ?_ ?_
  · simpa [Shared.goto] using hp
  · simpa [Shared.goto] using hc
  · intro k hk
    simpa [Shared.goto, Function.update_of_ne hk] using out k hk

/-- A test-and-set that succeeds. -/
theorem Exclusive.enter {s : Shared} (hs : Exclusive s) {i : Nat} (h : s.lock.held = false) :
    Exclusive ({ s with lock := { s.lock with held := true } }.goto i .storeCpuId) := by
  obtain ⟨cpuId, out⟩ := hs.of_not_held h
  refine .owned i rfl ?_ ?_ ?_
  · simp [Shared.goto, Pc.inside]
  · simpa [Shared.goto, Pc.stored] using cpuId
  · intro k hk
    simpa [Shared.goto, Function.update_of_ne hk] using out k

/-- The end of `release`. -/
theorem Exclusive.leave {s : Shared} (hs : Exclusive s) {i : Nat} (hi : s.pc i = .clearHeld) :
    Exclusive ({ s with lock := { s.lock with held := false } }.goto i .idle) := by
  obtain ⟨-, cpuId, out⟩ := hs.of_inside (i := i) (by rw [hi]; rfl)
  rw [hi] at cpuId
  refine .free rfl cpuId ?_
  intro k
  by_cases hk : k = i
  · subst hk
    simp [Shared.goto, Pc.inside]
  · simpa [Shared.goto, Function.update_of_ne hk] using out k hk

theorem Exclusive.next {s : Shared} (hs : Exclusive s) (i : Nat) : Exclusive (s.next i) := by
  unfold Shared.next
  cases hpc : s.pc i with
  | idle => exact hs.goto_out (by rw [hpc]; rfl) rfl
  | readHeld =>
    refine hs.goto_out (by rw [hpc]; rfl) ?_
    split <;> rfl
  | readCpuId =>
    refine hs.goto_out (by rw [hpc]; rfl) ?_
    split <;> rfl
  | testAndSet =>
    dsimp only
    split
    · exact hs
    · rename_i h
      exact hs.enter (by simpa using h)
  | storeCpuId => exact hs.goto_in (by rw [hpc]; rfl) rfl rfl
  | holds =>
    have hin : (s.pc i).inside = true := by rw [hpc]; rfl
    have hcpu := (hs.of_inside hin).2.1
    rw [hpc] at hcpu
    exact hs.goto_in (c := s.lock.cpuId) hin rfl hcpu
  | resetCpuId => exact hs.goto_in (by rw [hpc]; rfl) rfl rfl
  | clearHeld => exact hs.leave hpc
  | panicked => exact hs

theorem LockRun.exclusive {P : Shared → Nat → Prop} {n : Nat} {s : Shared} (h : LockRun P n s) :
    Exclusive s := by
  refine Run.invariant Exclusive exclusive_init ?_ h
  intro s i s' hs _ hstep
  obtain rfl := Option.some.inj hstep
  exact hs.next i

/-! ## The check of `holding` -/

/-- The processor `i` is about to read a `cpu_id` that is not the number of an owner: it is
processor 0 in `holding`, it has read that `held` is set, and no processor is between its store and
its reset of `cpu_id`. -/
def Stale (s : Shared) (i : Nat) : Prop :=
  i = 0 ∧ s.pc 0 = .readCpuId ∧ ∀ j, (s.pc j).stored = false

theorem Pc.inside_of_stored {p : Pc} (h : p.stored = true) : p.inside = true := by
  cases p <;> first | rfl | exact absurd h (by decide)

/-- **What `cpu_id` is.** -/
theorem Exclusive.cpuId_eq {s : Shared} (hs : Exclusive s) :
    (s.lock.cpuId = 0 ∧ ∀ j, (s.pc j).stored = false) ∨
      ∃ o, (s.pc o).stored = true ∧ s.lock.cpuId = o := by
  by_cases h : ∃ o, (s.pc o).stored = true
  · obtain ⟨o, ho⟩ := h
    refine .inr ⟨o, ho, ?_⟩
    rw [(hs.of_inside (Pc.inside_of_stored ho)).2.1, if_pos ho]
  · have hnone : ∀ j, (s.pc j).stored = false := fun j => by
      simpa using not_exists.mp h j
    refine .inl ⟨?_, hnone⟩
    cases hs with
    | free _ cpuId _ => exact cpuId
    | owned o _ _ cpuId _ => rw [cpuId, hnone o]; rfl

theorem next_pc_self {s : Shared} {i : Nat} (hi : s.pc i ≠ .panicked) :
    (s.next i).pc i = .panicked ↔ s.pc i = .readCpuId ∧ s.lock.cpuId = i := by
  unfold Shared.next
  cases hpc : s.pc i with
  | readHeld => by_cases h : s.lock.held <;> simp [Shared.goto, h]
  | readCpuId => by_cases h : s.lock.cpuId = i <;> simp [Shared.goto, h]
  | testAndSet => by_cases h : s.lock.held <;> simp [Shared.goto, h, hpc]
  | panicked => exact absurd hpc hi
  | _ => simp [Shared.goto]

theorem next_pc_of_ne {s : Shared} {i j : Nat} (h : j ≠ i) : (s.next i).pc j = s.pc j := by
  unfold Shared.next
  cases s.pc i with
  | testAndSet => by_cases hh : s.lock.held <;> simp [Shared.goto, hh, Function.update_of_ne h]
  | _ => simp [Shared.goto, Function.update_of_ne h]

/-- **The only panic.** A step ends in `panic("acquire")` exactly if it reads a stale `cpu_id`. -/
theorem Exclusive.panics_iff {s : Shared} (hs : Exclusive s) {i : Nat} (hi : s.pc i ≠ .panicked) :
    (s.next i).pc i = .panicked ↔ Stale s i := by
  rw [next_pc_self hi]
  constructor
  · rintro ⟨hpc, hcpu⟩
    rcases hs.cpuId_eq with ⟨h0, hnone⟩ | ⟨o, ho, hco⟩
    · obtain rfl : i = 0 := hcpu.symm.trans h0
      exact ⟨rfl, hpc, hnone⟩
    · obtain rfl : i = o := hcpu.symm.trans hco
      rw [hpc] at ho
      exact absurd ho (by decide)
  · rintro ⟨rfl, hpc, hnone⟩
    rcases hs.cpuId_eq with ⟨h0, -⟩ | ⟨o, ho, -⟩
    · exact ⟨hpc, h0⟩
    · exact absurd ho (by simp [hnone o])

/-- **Spinlocks.** On every number of processors and in every interleaving, at most one processor is
between its test-and-set and its clear of `held`, and a step panics if and only if it reads a stale
`cpu_id`. So no processor ever panics in a run without such steps. -/
theorem spinlock_sound (n : Nat) :
    (∀ s, LockRun (fun _ _ => True) n s →
      (∀ i j, (s.pc i).inside = true → (s.pc j).inside = true → i = j) ∧
      ∀ i, s.pc i ≠ .panicked → ((s.next i).pc i = .panicked ↔ Stale s i)) ∧
    ∀ s, LockRun (fun s i => ¬ Stale s i) n s → ∀ i, s.pc i ≠ .panicked := by
  refine ⟨fun s hs => ⟨fun i j => hs.exclusive.unique, fun i => hs.exclusive.panics_iff⟩, ?_⟩
  intro s hs
  refine (Run.invariant (fun s => Exclusive s ∧ ∀ i, s.pc i ≠ .panicked)
    ⟨exclusive_init, fun _ => by simp [Shared.init]⟩ ?_ hs).2
  intro s i s' ⟨hs, hno⟩ ⟨_, hstale⟩ hstep
  obtain rfl := Option.some.inj hstep
  refine ⟨hs.next i, fun k => ?_⟩
  by_cases hk : k = i
  · subst hk
    exact fun hp => hstale ((hs.panics_iff (hno k)).mp hp)
  · rw [next_pc_of_ne hk]
    exact hno k

/-- Processor 1 holds the lock, and processor 0 finds that it does not. -/
theorem spinlock_sound_two :
    (((((((Shared.init.next 1).next 1).next 1).next 1).next 0).next 0).next 0).pc 0 ≠ .panicked := by
  have hrun : LockRun (fun s i => ¬ Stale s i) 2
      (((((((Shared.init.next 1).next 1).next 1).next 1).next 0).next 0).next 0) := by
    refine .step 0 (.step 0 (.step 0 (.step 1 (.step 1 (.step 1 (.step 1 .init ?_ rfl) ?_ rfl)
      ?_ rfl) ?_ rfl) ?_ rfl) ?_ rfl) ⟨by decide, fun h => absurd (h.2.2 1) (by decide)⟩ rfl
    · exact ⟨by decide, fun h => absurd h.1 (by decide)⟩
    · exact ⟨by decide, fun h => absurd h.1 (by decide)⟩
    · exact ⟨by decide, fun h => absurd h.1 (by decide)⟩
    · exact ⟨by decide, fun h => absurd h.1 (by decide)⟩
    · exact ⟨by decide, fun h => absurd h.2.1 (by decide)⟩
    · exact ⟨by decide, fun h => absurd h.2.1 (by decide)⟩
  exact (spinlock_sound 2).2 _ hrun 0

/-- Processor 1 takes the lock but has not stored its number yet; processor 0 reads that the lock is
held, and by the number 0. -/
theorem holding_reads_stale :
    ¬ ∀ s, LockRun (fun _ _ => True) 2 s → ∀ i, s.pc i ≠ .panicked := by
  intro h
  have hrun : LockRun (fun _ _ => True) 2
      ((((((Shared.init.next 1).next 1).next 1).next 0).next 0).next 0) := by
    refine .step 0 (.step 0 (.step 0 (.step 1 (.step 1 (.step 1 .init ?_ rfl) ?_ rfl) ?_ rfl) ?_ rfl)
      ?_ rfl) ?_ rfl
    all_goals exact ⟨by decide, trivial⟩
  exact absurd rfl (h _ hrun 0)

end Colibri.Sync
