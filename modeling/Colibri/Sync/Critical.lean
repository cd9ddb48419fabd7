import Colibri.Lib.Mutex
import Colibri.Sync.Spinlock

/-!
# Critical sections

The spinlock of `Colibri.Sync.Spinlock` is a `Lock`, so its critical sections have lock invariants.
Two of them are here, on any number of processors.

* `increment`: `proc->id = next_free_pid++` of `create_process`, `t->tid = next_free_tid++` of
  `add_thread` (`kernel/process.c`) and `kernel_status.core_running++` of `ap_startup`, which drops the
  old value. The load, the store and the use of the old value are steps of their own.
* `qemuPrint`: the loop of `qemu_print` (`kernel/debug/qemu.c`), a step for each character. The wait
  for the port is left out.

`Counter.given` and `Serial.started` are not in the source: they record what was handed out, and which
strings were begun. Results: `increment_handed`, `qemuPrint_whole`.
-/

namespace Colibri.Sync

open Colibri.Lib

/-! ## The spinlock as a lock -/

/-- A processor that panicked in `acquire` waits for ever. -/
def Pc.phase : Pc → Phase
  | .idle | .resetCpuId | .clearHeld => .out
  | .readHeld | .readCpuId | .testAndSet | .storeCpuId | .panicked => .waits
  | .holds => .holds

theorem Pc.phase_eq_holds {p : Pc} : p.phase = .holds ↔ p = .holds := by
  cases p <;> simp [phase]

theorem phase_next_self (s : Shared) (i : Nat) : ((s.next i).pc i).phase =
    match s.pc i with
    | .idle | .readHeld | .readCpuId | .testAndSet | .panicked => .waits
    | .storeCpuId => .holds
    | .holds | .resetCpuId | .clearHeld => .out := by
  unfold Shared.next
  cases hpc : s.pc i with
  | readHeld => by_cases h : s.lock.held <;> simp [Shared.goto, h, Pc.phase]
  | readCpuId => by_cases h : s.lock.cpuId = i <;> simp [Shared.goto, h, Pc.phase]
  | testAndSet => by_cases h : s.lock.held <;> simp [Shared.goto, h, hpc, Pc.phase]
  | panicked => simp [hpc, Pc.phase]
  | _ => simp [Shared.goto, Pc.phase]

/-- **The spinlock**, with `Exclusive` for its invariant. -/
def spinlock : Lock Shared Nat where
  next := Shared.next
  phase s i := (s.pc i).phase
  Idle s i := s.pc i = .idle
  Inv := Exclusive
  keep i h := h.next i
  unique h hi hj := h.unique (by rw [Pc.phase_eq_holds.mp hi]; rfl)
    (by rw [Pc.phase_eq_holds.mp hj]; rfl)
  other h := congrArg Pc.phase (next_pc_of_ne h)
  call {s i} h := by
    rw [phase_next_self, h]
    exact ⟨rfl, rfl⟩
  back {s i} h hout := by
    rw [phase_next_self]
    cases hpc : s.pc i <;> simp_all [Pc.phase]
  wait {s i} h := by
    rw [phase_next_self]
    cases hpc : s.pc i <;> simp_all [Pc.phase]
  leave {s i} h := by
    rw [phase_next_self, Pc.phase_eq_holds.mp h]

instance (s : Shared) (i : Nat) : Decidable (spinlock.Idle s i) :=
  inferInstanceAs (Decidable (s.pc i = .idle))

/-- The runs of critical sections behind a spinlock, from the state of nobody having called. -/
abbrev SectionRun {L D : Type} (body : L → D → Option (L × D)) (enter : D → Nat → L → D → Prop)
    (env : D → D → Prop) (loc : Nat → L) (d : D) : Guarded Shared Nat L D → Prop :=
  Run (Guarded.step spinlock body) (Guarded.ok spinlock enter env) ⟨Shared.init, loc, d⟩

/-- A step of a processor that has called. -/
theorem SectionRun.next {L D : Type} {body : L → D → Option (L × D)}
    {enter : D → Nat → L → D → Prop} {env : D → D → Prop} {loc : Nat → L} {d : D}
    {g : Guarded Shared Nat L D} (hrun : SectionRun body enter env loc d g) (i : Nat) {p : Pc}
    (h : g.lock.pc i = p) (hp : p ≠ .idle) :
    SectionRun body enter env loc d (g.stepOf spinlock body i) :=
  .step (.step i) hrun (fun hidle => hp (h.symm.trans hidle)) rfl

/-- Steps of processors that have called, one after the other. -/
theorem SectionRun.steps {L D : Type} {body : L → D → Option (L × D)}
    {enter : D → Nat → L → D → Prop} {env : D → D → Prop} {loc : Nat → L} {d : D}
    {g g' : Guarded Shared Nat L D} (hrun : SectionRun body enter env loc d g) {is : List Nat}
    (h : runActions (fun g i => some (g.stepOf spinlock body i)) (fun g i => g.lock.pc i ≠ .idle)
      g is = some g') : SectionRun body enter env loc d g' :=
  (Run.of_runActions h).invariant _ hrun fun _ i _ hg hi hs => by
    rw [← Option.some.inj hs]
    exact hg.next i rfl hi

/-- A lock invariant holds along the runs. -/
theorem SectionRun.invariant {L D : Type} {body : L → D → Option (L × D)}
    {enter : D → Nat → L → D → Prop} {env : D → D → Prop} {loc : Nat → L} {d : D}
    {g : Guarded Shared Nat L D} {J : (Nat → Phase) → (Nat → L) → D → Prop}
    (hrun : SectionRun body enter env loc d g) (h : Guarded.Rule body enter env J)
    (h₀ : J (fun _ => .out) loc d) : J (fun i => (g.lock.pc i).phase) g.loc g.data := by
  have hlock : spinlock.Inv (⟨Shared.init, loc, d⟩ : Guarded Shared Nat L D).lock := exclusive_init
  exact (Guarded.invariant h hlock h₀ hrun).2

/-! ## Counters -/

/-- A counter, and the values that were handed out, the last one first. -/
structure Counter where
  value : Nat
  given : List Nat
  deriving DecidableEq

/-- Where a processor is in `x = counter++`. -/
inductive Increment where
  | load
  | store (r : Nat)
  | use (r : Nat)
  | done (r : Nat)
  deriving DecidableEq

/-- `x = counter++`, for a counter of `w` bits. -/
def increment (w : Nat) : Increment → Counter → Option (Increment × Counter)
  | .load, c => some (.store c.value, c)
  | .store r, c => some (.use r, { c with value := (r + 1) % 2 ^ w })
  | .use r, c => some (.done r, { c with given := r :: c.given })
  | .done _, _ => none

/-- A call of the function around it. -/
def callsIncrement (c : Counter) (_ : Nat) (l : Increment) (c' : Counter) : Prop :=
  l = .load ∧ c' = c

instance (c : Counter) (i : Nat) (l : Increment) (c' : Counter) :
    Decidable (callsIncrement c i l c') := inferInstanceAs (Decidable (l = .load ∧ c' = c))

/-- The values that `k` increments hand out. -/
def handed (w : Nat) : Nat → List Nat
  | 0 => []
  | k + 1 => k % 2 ^ w :: handed w k

/-- The counter after `k` increments. -/
def Counter.after (w k : Nat) : Counter := ⟨k % 2 ^ w, handed w k⟩

/-- What a processor that has the lock finds. -/
def Increment.Finds (w : Nat) (c : Counter) : Increment → Prop
  | .load => ∃ k, c = .after w k
  | .store r => ∃ k, c = .after w k ∧ r = k % 2 ^ w
  | .use r => ∃ k, c = ⟨(k + 1) % 2 ^ w, handed w k⟩ ∧ r = k % 2 ^ w
  | .done r => ∃ k, c = .after w k ∧ r ∈ c.given

/-- What a processor that is outside has got. -/
def Increment.Got (c : Counter) : Increment → Prop
  | .done r => r ∈ c.given
  | _ => True

theorem increment_resource (w : Nat) : Guarded.Resource (increment w) callsIncrement (· = .load)
    (fun c => ∃ k, c = .after w k) (fun l c => l.Finds w c) fun l c => l.Got c where
  call h := h
  acquire := by
    rintro c l hfree rfl
    exact hfree
  access := by
    intro c c' l l' h hbody
    cases l with
    | load =>
      obtain ⟨k, rfl⟩ := h
      obtain ⟨rfl, rfl⟩ := Prod.mk.inj (Option.some.inj hbody)
      exact ⟨k, rfl, rfl⟩
    | store r =>
      obtain ⟨k, rfl, rfl⟩ := h
      obtain ⟨rfl, rfl⟩ := Prod.mk.inj (Option.some.inj hbody)
      exact ⟨k, by rw [Nat.mod_add_mod, Counter.after], rfl⟩
    | use r =>
      obtain ⟨k, rfl, rfl⟩ := h
      obtain ⟨rfl, rfl⟩ := Prod.mk.inj (Option.some.inj hbody)
      exact ⟨k + 1, rfl, List.mem_cons_self⟩
    | done r => exact absurd hbody (by simp [increment])
  keep := by
    intro c c' l l' l₀ _ hbody hgot
    have hsub : c.given ⊆ c'.given := by
      cases l with
      | done r => exact absurd hbody (by simp [increment])
      | _ =>
        obtain ⟨-, rfl⟩ := Prod.mk.inj (Option.some.inj hbody)
        simp
    cases l₀ with
    | done r => exact hsub hgot
    | _ => trivial
  release := by
    intro c l h hbody
    cases l with
    | done r =>
      obtain ⟨k, hc, hr⟩ := h
      exact ⟨⟨k, hc⟩, hr⟩
    | _ => exact absurd hbody (by simp [increment])

theorem Increment.Finds.given {w : Nat} {c : Counter} {l : Increment} (h : l.Finds w c) :
    ∃ k, c.given = handed w k := by
  cases l with
  | load =>
    obtain ⟨k, rfl⟩ := h
    exact ⟨k, rfl⟩
  | store r | use r =>
    obtain ⟨k, rfl, -⟩ := h
    exact ⟨k, rfl⟩
  | done r =>
    obtain ⟨k, rfl, -⟩ := h
    exact ⟨k, rfl⟩

theorem mem_handed {w k r : Nat} (hk : k ≤ 2 ^ w) : r ∈ handed w k ↔ r < k := by
  induction k with
  | zero => simp [handed]
  | succ k ih =>
    rw [handed, List.mem_cons, ih (Nat.le_of_succ_le hk), Nat.mod_eq_of_lt hk]
    omega

theorem nodup_handed {w k : Nat} (hk : k ≤ 2 ^ w) : (handed w k).Nodup := by
  induction k with
  | zero => exact List.nodup_nil
  | succ k ih =>
    refine List.nodup_cons.mpr ⟨fun hmem => ?_, ih (Nat.le_of_succ_le hk)⟩
    have hlt := (mem_handed (Nat.le_of_succ_le hk)).mp hmem
    rw [Nat.mod_eq_of_lt hk] at hlt
    exact Nat.lt_irrefl k hlt

theorem length_handed (w k : Nat) : (handed w k).length = k := by
  induction k with
  | zero => rfl
  | succ k ih => rw [handed, List.length_cons, ih]

/-- **Counters behind a lock.** On any number of processors and in every interleaving, what is handed
out are the numbers from 0 on, one after the other, so no two are the same until the counter wraps.
Each call gets one of them, and while no processor is inside the counter is the number of
increments. -/
theorem increment_handed {w : Nat} {g : Guarded Shared Nat Increment Counter}
    (hrun : SectionRun (increment w) callsIncrement (fun _ _ => False) (fun _ => .load) ⟨0, []⟩ g) :
    g.data.given = handed w g.data.given.length ∧
      (g.data.given.length ≤ 2 ^ w → g.data.given.Nodup) ∧
      (∀ i r, (g.lock.pc i).phase = .out → g.loc i = .done r → r ∈ g.data.given) ∧
      ((∀ i, g.lock.pc i ≠ .holds) → g.data.value = g.data.given.length % 2 ^ w) := by
  have hJ := hrun.invariant (increment_resource w).rule ⟨fun _ _ => trivial,
    fun _ h => Phase.noConfusion h, fun _ => ⟨0, by simp [Counter.after, handed]⟩,
    fun _ h => Phase.noConfusion h⟩
  obtain ⟨k, hk⟩ : ∃ k, g.data.given = handed w k := by
    by_cases hfree : ∀ i, (g.lock.pc i).phase ≠ .holds
    · obtain ⟨k, hk⟩ := hJ.free hfree
      exact ⟨k, by rw [hk, Counter.after]⟩
    · obtain ⟨i, hi⟩ := not_forall.mp hfree
      exact (hJ.busy i (not_not.mp hi)).given
  refine ⟨?_, fun hle => ?_, fun i r hi hr => ?_, fun hfree => ?_⟩
  · rw [hk, length_handed]
  · rw [hk, length_handed] at hle
    rw [hk]
    exact nodup_handed hle
  · have hgot := hJ.out i hi
    rwa [hr] at hgot
  · obtain ⟨k', hk'⟩ := hJ.free fun i hi => hfree i (Pc.phase_eq_holds.mp hi)
    rw [hk', Counter.after, length_handed]

/-- Two processors create a process at the same time. -/
theorem increment_handed_two : ∃ g, SectionRun (increment 64) callsIncrement (fun _ _ => False)
    (fun _ => .load) ⟨0, []⟩ g ∧ g.data.given.length = 2 ∧ g.data.given.Nodup := by
  obtain ⟨g, hg, hlen⟩ : ∃ g, runActions (Guarded.step spinlock (increment 64))
      (Guarded.ok spinlock callsIncrement fun _ _ => False) ⟨Shared.init, fun _ => .load, ⟨0, []⟩⟩
      (.call 0 .load ⟨0, []⟩ :: .call 1 .load ⟨0, []⟩ :: List.replicate 6 (.step 0) ++
        List.replicate 4 (.step 1) ++ List.replicate 3 (.step 0) ++ List.replicate 6 (.step 1)) =
        some g ∧ g.data.given.length = 2 := ⟨_, rfl, rfl⟩
  have hrun := Run.of_runActions hg
  exact ⟨g, hrun, hlen, (increment_handed hrun).2.1 (by rw [hlen]; decide)⟩

/-! ## The serial port -/

/-- What was sent, and the strings that were begun, in their order. -/
structure Serial where
  line : List (BitVec 8)
  started : List (List (BitVec 8))
  deriving DecidableEq

/-- Where a processor is in `qemu_print(string)`: `rest` is what is left at `string`, up to its null
byte. -/
inductive Print where
  | begin (string : List (BitVec 8))
  | loop (string rest : List (BitVec 8))
  deriving DecidableEq

/-- The loop of `qemu_print`. -/
def qemuPrint : Print → Serial → Option (Print × Serial)
  | .begin string, d => some (.loop string string, { d with started := d.started ++ [string] })
  | .loop string (ch :: rest), d => some (.loop string rest, { d with line := d.line ++ [ch] })
  | .loop _ [], _ => none

/-- A call of `qemu_print`. -/
def callsPrint (d : Serial) (_ : Nat) (l : Print) (d' : Serial) : Prop :=
  (∃ string, l = .begin string) ∧ d' = d

instance (d : Serial) (i : Nat) (l : Print) (d' : Serial) : Decidable (callsPrint d i l d') :=
  match l with
  | .begin string => decidable_of_iff (d' = d) ⟨fun h => ⟨⟨string, rfl⟩, h⟩, fun h => h.2⟩
  | .loop _ _ => .isFalse fun h => h.1.elim fun _ he => Print.noConfusion he

/-- What a processor that has the lock has sent. -/
def Print.Sends (d : Serial) : Print → Prop
  | .begin _ => d.line = d.started.flatten
  | .loop string rest => ∃ before sent, d.started = before ++ [string] ∧ string = sent ++ rest ∧
      d.line = before.flatten ++ sent

/-- What a processor that is outside has sent. -/
def Print.Sent (d : Serial) : Print → Prop
  | .begin _ => True
  | .loop string _ => string ∈ d.started

theorem qemuPrint_resource : Guarded.Resource qemuPrint callsPrint (fun l => ∃ s, l = .begin s)
    (fun d => d.line = d.started.flatten) (fun l d => l.Sends d) fun l d => l.Sent d where
  call h := h
  acquire := by
    rintro d l hfree ⟨string, rfl⟩
    exact hfree
  access := by
    intro d d' l l' h hbody
    match l with
    | .begin string =>
      obtain ⟨rfl, rfl⟩ := Prod.mk.inj (Option.some.inj hbody)
      refine ⟨d.started, [], rfl, rfl, ?_⟩
      rw [← h, List.append_nil]
    | .loop string (ch :: rest) =>
      obtain ⟨before, sent, hstarted, hstring, hline⟩ := h
      obtain ⟨rfl, rfl⟩ := Prod.mk.inj (Option.some.inj hbody)
      refine ⟨before, sent ++ [ch], hstarted, ?_, ?_⟩
      · rw [hstring, List.append_assoc, List.singleton_append]
      · rw [hline, List.append_assoc]
    | .loop string [] => exact absurd hbody (by simp [qemuPrint])
  keep := by
    intro d d' l l' l₀ _ hbody hsent
    have hsub : d.started ⊆ d'.started := by
      match l with
      | .begin string =>
        obtain ⟨-, rfl⟩ := Prod.mk.inj (Option.some.inj hbody)
        exact List.subset_append_left _ _
      | .loop string (ch :: rest) =>
        obtain ⟨-, rfl⟩ := Prod.mk.inj (Option.some.inj hbody)
        exact List.Subset.refl _
      | .loop string [] => exact absurd hbody (by simp [qemuPrint])
    cases l₀ with
    | begin string => trivial
    | loop string rest => exact hsub hsent
  release := by
    intro d l h hbody
    match l with
    | .begin string => exact absurd hbody (by simp [qemuPrint])
    | .loop string (ch :: rest) => exact absurd hbody (by simp [qemuPrint])
    | .loop string [] =>
      obtain ⟨before, sent, hstarted, hstring, hline⟩ := h
      have hmem : string ∈ d.started := by
        rw [hstarted]
        exact List.mem_append_right _ List.mem_cons_self
      refine ⟨?_, hmem⟩
      rw [hline, hstarted, List.flatten_append, List.flatten_singleton, hstring, List.append_nil]

/-- **Strings are not mixed.** On any number of processors and in every interleaving, what was sent
are the strings in the order in which they were begun, each of them whole. While a processor is in the
loop its string is the last that was begun, and exactly the rest that it has not come to is missing. A
call that returns has sent its string. -/
theorem qemuPrint_whole {g : Guarded Shared Nat Print Serial}
    (hrun : SectionRun qemuPrint callsPrint (fun _ _ => False) (fun _ => .begin []) ⟨[], []⟩ g) :
    ((∀ i, g.lock.pc i ≠ .holds) → g.data.line = g.data.started.flatten) ∧
      (∀ i string rest, g.lock.pc i = .holds → g.loc i = .loop string rest →
        ∃ before sent, g.data.started = before ++ [string] ∧ string = sent ++ rest ∧
          g.data.line = before.flatten ++ sent) ∧
      ∀ i string rest, (g.lock.pc i).phase = .out → g.loc i = .loop string rest →
        string ∈ g.data.started := by
  have hJ := hrun.invariant qemuPrint_resource.rule ⟨fun _ _ => trivial,
    fun _ h => Phase.noConfusion h, fun _ => rfl, fun _ h => Phase.noConfusion h⟩
  refine ⟨fun hfree => hJ.free fun i hi => hfree i (Pc.phase_eq_holds.mp hi),
    fun i string rest hi hloc => ?_, fun i string rest hi hloc => ?_⟩
  · have hsends := hJ.busy i (Pc.phase_eq_holds.mpr hi)
    rwa [hloc] at hsends
  · have hsent := hJ.out i hi
    rwa [hloc] at hsent

/-- Two processors print at the same time. -/
theorem qemuPrint_whole_two : ∃ g, SectionRun qemuPrint callsPrint (fun _ _ => False)
    (fun _ => .begin []) ⟨[], []⟩ g ∧ g.lock.pc 0 = .idle ∧ [0x68, 0x69] ∈ g.data.started ∧
      g.data.line = [0x68, 0x69, 0x78] := by
  obtain ⟨g, hg, hpc, hloc, hline⟩ : ∃ g, runActions (Guarded.step spinlock qemuPrint)
      (Guarded.ok spinlock callsPrint fun _ _ => False) ⟨Shared.init, fun _ => .begin [], ⟨[], []⟩⟩
      (.call 0 (.begin [0x68, 0x69]) ⟨[], []⟩ :: .call 1 (.begin [0x78]) ⟨[], []⟩ ::
        List.replicate 5 (.step 0) ++ List.replicate 4 (.step 1) ++ List.replicate 4 (.step 0) ++
        List.replicate 4 (.step 1)) = some g ∧ g.lock.pc 0 = .idle ∧
        g.loc 0 = .loop [0x68, 0x69] [] ∧ g.data.line = [0x68, 0x69, 0x78] :=
    ⟨_, rfl, rfl, rfl, rfl⟩
  have hrun := Run.of_runActions hg
  exact ⟨g, hrun, hpc, (qemuPrint_whole hrun).2.2 0 _ [] (by rw [hpc]; rfl) hloc, hline⟩

end Colibri.Sync
