import Colibri.Lib.Turns
import Colibri.Scheduler.Vruntime

/-!
# A queued thread gets its turn

`update` charges a thread that is put back for the whole time since the machine was started, so each
turn of another thread costs it at least what `uptime` was when a thread began to wait. In a run of
timer interrupts and of deaths of the running thread, with no new threads, the others can pass it
over a bounded number of times, whatever the priorities are (`no_starvation`). `turns` of
`Colibri.Lib.Turns` counts how often each of them can.

With new threads there is no such bound: they start with a small `vruntime`.
-/

namespace Colibri.Scheduler

open Colibri.Lib

/-! ## What a turn costs -/

/-- The `vruntime` of the live threads. -/
def vruntimes (m : Addr → Option Thread) (t : Addr) : Option Nat := (m t).map (·.vruntime)

/-- No thread has an `exec_start_time`. -/
def Started (m : Addr → Option Thread) : Prop := ∀ t th, m t = some th → th.execStartTime = 0

/-- The charge of the current thread at `now` does not wrap. -/
def NoWrap (s : System) (now : Nat) : Prop :=
  ∀ t th, s.cpu.thread = some (.thread t) → s.threads t = some th →
    th.vruntime + now * (1 + th.prio) < u64Size

section Turn

variable {s s' : System} {m : Addr → Option Thread} {T : NTree Addr} {now : Nat} {run : Addr}
  {context : IntFrame} {t n : Addr} {th : Thread}

theorem vruntimes_update (x : Option Thread) :
    vruntimes (Function.update m t x) =
      Function.update (vruntimes m) t (x.map (·.vruntime)) := by
  funext u
  unfold vruntimes
  by_cases hu : u = t
  · rw [hu, Function.update_self, Function.update_self]
  · rw [Function.update_of_ne hu, Function.update_of_ne hu]

/-- What is written to a thread that leaves its `vruntime` alone. -/
theorem vruntimes_update_same {th' : Thread} (ht : m t = some th)
    (hv : th'.vruntime = th.vruntime) : vruntimes (Function.update m t (some th')) = vruntimes m := by
  rw [vruntimes_update, Function.update_eq_self_iff, Option.map_some, hv, vruntimes, ht,
    Option.map_some]

theorem entityKey_eq (ht : s.threads t = some th) : s.entityKey t = th.vruntime := by
  rw [System.entityKey, ht]
  rfl

/-- **The charge** of a thread that is put back. -/
theorem preempted_vruntime (h : th.execStartTime = 0)
    (hno : th.vruntime + now * (1 + th.prio) < u64Size) :
    (th.preempted now context).vruntime = th.vruntime + now * (1 + th.prio) := by
  have hv : th.vruntime = (th.vruntime + 0 * (1 + th.prio)) % u64Size := by
    rw [Nat.zero_mul, Nat.add_zero, Nat.mod_eq_of_lt (by omega)]
  have hup : (System.updateEntity now { th with state := .waiting }).vruntime =
      (th.vruntime + (0 + now) * (1 + th.prio)) % u64Size := updateEntity_vruntime h hv
  rw [Nat.zero_add, Nat.mod_eq_of_lt hno] at hup
  exact hup

/-! ### `exec_start_time` -/

theorem Started.update (h : Started m) {x : Option Thread}
    (hx : ∀ th, x = some th → th.execStartTime = 0) : Started (Function.update m t x) := by
  intro u uh hu
  by_cases hut : u = t
  · rw [hut, Function.update_self] at hu
    exact hx uh hu
  · rw [Function.update_of_ne hut] at hu
    exact h u uh hu

theorem Started.left (h : Started s.threads) (hm : OldLeft s now context m) : Started m := by
  cases hm with
  | none _ => exact h
  | @queued old th _ hth _ =>
    refine h.update fun x hx => ?_
    obtain rfl := Option.some.inj hx
    show th.execStartTime = 0
    exact h old th hth
  | destroyed _ _ _ => exact h.update fun x hx => absurd hx.symm (Option.some_ne_none x)

theorem Started.outcome {frame : IntFrame} (h : Started s.threads)
    (ho : Outcome s now context s' frame) : Started s'.threads := by
  cases ho with
  | stay _ _ _ _ _ ht => exact ht ▸ h
  | again hc hth hlive _ _ ht => exact ht ▸ h.left (.queued hc hth hlive)
  | @switch m n th hm _ hth _ _ ht =>
    rw [ht]
    refine (h.left hm).update fun x hx => ?_
    obtain rfl := Option.some.inj hx
    show th.execStartTime = 0
    exact h.left hm n th hth
  | idle hm _ _ _ ht => exact ht ▸ h.left hm

theorem Started.step {a : Action} (h : Started s.threads) (hv : Valid s a)
    (hs : Scheduler.step s a = some s') : Started s'.threads := by
  cases a with
  | timer now run context =>
    simp only [Scheduler.step, System.timer, Option.bind_eq_bind, Option.bind_eq_some_iff] at hs
    obtain ⟨⟨s₁, frame⟩, hs₁, hs⟩ := hs
    obtain rfl := Option.some.inj hs
    exact h.outcome ((schedule_outcome hs₁).congr rfl rfl)
  | die =>
    obtain ⟨t, th, -, hth, -, -, ht⟩ := die_threads hs
    rw [ht]
    refine h.update fun x hx => ?_
    obtain rfl := Option.some.inj hx
    show th.execStartTime = 0
    exact h t th hth
  | spawn p v root ts rs =>
    obtain ⟨-, -, hout, hin⟩ := spawn_threads hv hs
    intro t th ht
    by_cases hmem : t ∈ ts.map (·.addr)
    · obtain ⟨nt, hnt, rfl⟩ := List.mem_map.mp hmem
      obtain ⟨now, -, hth⟩ := hin nt hnt
      obtain rfl := Option.some.inj (hth.symm.trans ht)
      rfl
    · exact h t th (hout t hmem ▸ ht)

theorem Reach.started {P : System → Action → Prop} {kernelRoot idleRip rsp0 : Nat}
    {regs : Registers} (h : Reach P (.boot kernelRoot idleRip rsp0 regs) s) :
    Started s.threads := by
  induction h with
  | init => exact fun t th ht => absurd ht.symm (Option.some_ne_none th)
  | step a _ hv _ hs ih => exact ih.step hv hs

/-! ### A switch -/

/-- A thread that is not the old one is left as it was. -/
theorem OldLeft.of_ne (hm : OldLeft s now context m) (hn : s.cpu.thread ≠ some (.thread n)) :
    m n = s.threads n := by
  cases hm with
  | none _ => rfl
  | queued hc _ _ => exact Function.update_of_ne (fun e => hn (by rw [hc, e])) _ _
  | destroyed hc _ _ => exact Function.update_of_ne (fun e => hn (by rw [hc, e])) _ _

/-- **With a thread in the queue** a timer interrupt switches to the first. -/
theorem Inv.timer_switch (h : Inv s T (current s)) (hne : entities T ≠ [])
    (hs : s.timer now run context = some s') : ∃ n q m th, entities T = n :: q ∧
      OldLeft s now context m ∧ s.cpu.thread ≠ some (.thread n) ∧ s.threads n = some th ∧
      m n = some th ∧ s'.cpu.thread = some (.thread n) ∧
      s'.threads = Function.update m n (some { th with state := .active }) ∧ s'.clock = now := by
  obtain ⟨n, q, hT⟩ := List.exists_cons_of_ne_nil hne
  have hpick : s.cfsPickNext = some (some n) := by
    rw [cfsPickNext_eq h.queue.toShaped, hT]
    rfl
  simp only [System.timer, Option.bind_eq_bind, Option.bind_eq_some_iff] at hs
  obtain ⟨⟨s₁, frame⟩, hs₁, hs⟩ := hs
  obtain rfl := Option.some.inj hs
  cases schedule_outcome hs₁ with
  | stay _ _ _ hp => exact absurd (hpick.symm.trans hp) (by simp)
  | idle _ _ hp => exact absurd (hpick.symm.trans hp) (by simp)
  | @again old _ hc _ _ hp =>
    -- the current thread is not in the queue
    obtain rfl : n = old := by simpa using hpick.symm.trans hp
    exact absurd (hT ▸ List.mem_cons_self) (h.disjoint n (mem_current.mpr hc))
  | @switch m n' th hm hn hth hp hcpu ht _ =>
    obtain rfl : n = n' := by simpa using hpick.symm.trans hp
    exact ⟨n, q, m, th, hT, hm, hn, hm.of_ne hn ▸ hth, hth, hcpu, ht, rfl⟩

end Turn

/-! ## No starvation -/

/-- While `t` waits: no process is run, `schedule` picks another thread, and its charge does not
wrap. -/
def PassedOver (t : Addr) (s : System) : Action → Prop
  | .spawn _ _ _ _ _ => False
  | .timer now _ _ => s.cfsPickNext ≠ some (some t) ∧ NoWrap s now
  | .die => True

/-- One action, with the number of timer interrupts so far. -/
def counted (x : System × Nat) (a : Action) : Option (System × Nat) :=
  (step x.1 a).map fun s' => (s', match a with | .timer _ _ _ => x.2 + 1 | _ => x.2)

/-- The runs in which `t` waits. -/
abbrev Waiting (t : Addr) (s : System) : System × Nat → Prop :=
  Run counted (fun x a => Valid x.1 a ∧ DequeueMeets x.1 a ∧ PassedOver t x.1 a) (s, 0)

/-- What holds while `t` waits with the `vruntime` of `th`, since `uptime` was `c`. Of the `N` turns
that were left for the threads of `S`, each timer interrupt after the first has taken one. -/
structure Waits (t : Addr) (th : Thread) (c : Nat) (S : Finset Addr) (N : Nat)
    (x : System × Nat) : Prop where
  inv : ∃ T, Inv x.1 T (current x.1)
  started : Started x.1.threads
  clock : c ≤ x.1.clock
  same : x.1.threads t = some th
  out : x.1.cpu.thread ≠ some (.thread t)
  live : ∀ u, (x.1.threads u).isSome → u ≠ t → u ∈ S
  left : (x.2 = 0 ∧ total th.vruntime c S (vruntimes x.1.threads) ≤ N) ∨
    (x.2 + total th.vruntime c S (vruntimes x.1.threads) ≤ N + 1 ∧
      ∃ u uh, x.1.cpu.thread = some (.thread u) ∧ x.1.threads u = some uh ∧
        uh.vruntime ≤ th.vruntime)

section Waits

variable {s s' : System} {t : Addr} {th : Thread} {c n N : Nat} {S : Finset Addr}

/-- The first thread of the queue has no larger `vruntime` than one that waits. -/
theorem Inv.first_le {T : NTree Addr} {m : Addr} {q : List Addr} {mh : Thread}
    (h : Inv s T (current s)) (hT : entities T = m :: q) (ht : t ∈ entities T)
    (hth : s.threads t = some th) (hm : s.threads m = some mh) : mh.vruntime ≤ th.vruntime := by
  have hsort := sorted_iff.mp h.queue.sorted
  rw [hT] at ht hsort
  rw [← entityKey_eq hth, ← entityKey_eq hm]
  rcases List.mem_cons.mp ht with rfl | ht
  · exact Nat.le_refl _
  · exact (List.pairwise_cons.mp hsort).1 t ht

/-- **The old thread's turn.** It takes one of the turns that are left, unless it began before `t`
waited. -/
theorem Waits.turn {now : Nat} {context : IntFrame} {m : Addr → Option Thread}
    (h : Waits t th c S N (s, n)) (hc : 0 < c) (hnow : s.clock ≤ now) (hno : NoWrap s now)
    (hm : OldLeft s now context m) :
    n + 1 + total th.vruntime c S (vruntimes m) ≤ N + 1 := by
  have hcnow : c ≤ now := h.clock.trans hnow
  have hmem {old : Addr} {oh : Thread} (hcur : s.cpu.thread = some (.thread old))
      (hoh : s.threads old = some oh) : old ∈ S ∧ vruntimes s.threads old = some oh.vruntime := by
    refine ⟨h.live old (by rw [hoh]; rfl) ?_, by rw [vruntimes, hoh, Option.map_some]⟩
    rintro rfl
    exact h.out hcur
  rcases h.left with ⟨hn, hleft⟩ | ⟨hleft, old, oh, hcur, hoh, hle⟩
  · -- the first interrupt: the old thread's turn may have begun before
    have hsum : total th.vruntime c S (vruntimes m) ≤ N := by
      refine le_trans ?_ hleft
      cases hm with
      | none _ => exact Nat.le_refl _
      | queued hcur hoh _ =>
        rw [vruntimes_update, Option.map_some]
        refine total_update_le ?_
        rw [(hmem hcur hoh).2, preempted_vruntime (h.started _ _ hoh) (hno _ _ hcur hoh)]
        exact turns_anti (Nat.le_add_right _ _)
      | destroyed hcur hoh _ =>
        rw [vruntimes_update, Option.map_none]
        exact total_update_le (Nat.zero_le _)
    change n = 0 at hn
    omega
  · have hlt : total th.vruntime c S (vruntimes m) <
        total th.vruntime c S (vruntimes s.threads) := by
      cases hm with
      | none hidle => rcases hidle with hidle | hidle <;> exact absurd (hidle.symm.trans hcur) (by simp)
      | queued hcur' hoh' _ =>
        obtain rfl := ThreadRef.thread.inj (Option.some.inj (hcur.symm.trans hcur'))
        obtain rfl := Option.some.inj (hoh.symm.trans hoh')
        obtain ⟨hS, hkey⟩ := hmem hcur hoh
        rw [vruntimes_update, Option.map_some]
        refine total_charge hS hc hkey hle ?_
        rw [preempted_vruntime (h.started _ _ hoh) (hno _ _ hcur hoh), Nat.mul_add, Nat.mul_one]
        omega
      | destroyed hcur' hoh' _ =>
        obtain rfl := ThreadRef.thread.inj (Option.some.inj (hcur.symm.trans hcur'))
        obtain ⟨hS, hkey⟩ := hmem hcur hoh
        rw [vruntimes_update, Option.map_none]
        exact total_leave hS hc hkey hle
    change n + total th.vruntime c S (vruntimes s.threads) ≤ N + 1 at hleft
    omega

/-- **A timer interrupt that passes `t` over.** -/
theorem Waits.timer {now : Nat} {run : Addr} {context : IntFrame}
    (h : Waits t th c S N (s, n)) (hc : 0 < c) (hv : Valid s (.timer now run context))
    (hmeets : DequeueMeets s (.timer now run context))
    (hpass : PassedOver t s (.timer now run context)) (hs : s.timer now run context = some s') :
    Waits t th c S N (s', n + 1) := by
  obtain ⟨T, hT⟩ := h.inv
  have ht : t ∈ entities T :=
    ((hT.live t).mp (by rw [h.same]; rfl)).resolve_right fun hm => h.out (mem_current.mp hm)
  obtain ⟨p, q, m, ph, hpq, hm, hne, hph, hmp, hcpu, hthreads, hclock⟩ :=
    hT.timer_switch (List.ne_nil_of_mem ht) hs
  have hpick : s.cfsPickNext = some (some p) := by
    rw [cfsPickNext_eq hT.queue.toShaped, hpq]
    rfl
  have hpt : t ≠ p := by
    rintro rfl
    exact hpass.1 hpick
  have hmt : m t = some th := (hm.of_ne h.out).trans h.same
  have hlive : ∀ u, (m u).isSome → (s.threads u).isSome := by
    intro u hu
    by_cases hcu : s.cpu.thread = some (.thread u)
    · cases hm with
      | none _ => exact hu
      | queued hc' hoh _ =>
        obtain rfl := ThreadRef.thread.inj (Option.some.inj (hcu.symm.trans hc'))
        rw [hoh]
        rfl
      | destroyed hc' hoh _ =>
        obtain rfl := ThreadRef.thread.inj (Option.some.inj (hcu.symm.trans hc'))
        rw [hoh]
        rfl
    · rwa [hm.of_ne hcu] at hu
  have hvr : vruntimes s'.threads = vruntimes m := by
    rw [hthreads]
    exact vruntimes_update_same hmp rfl
  have hinv : ∃ T', Inv s' T' (current s') :=
    ((hT.timer hv.2.1 hs).resolve_right fun hbad => hbad.1 hmeets).2
  have hself : s'.threads p = some { ph with state := .active } := by
    rw [hthreads, Function.update_self]
  refine ⟨hinv, ?_, ?_, ?_, ?_, fun u hu hut => ?_, .inr ⟨?_, p, _, hcpu, hself, ?_⟩⟩
  · exact h.started.step hv hs
  · exact (h.clock.trans hv.1).trans hclock.ge
  · rw [hthreads, Function.update_of_ne hpt, hmt]
  · rw [hcpu]
    exact fun e => hpt (ThreadRef.thread.inj (Option.some.inj e)).symm
  · by_cases hup : u = p
    · exact h.live u (by rw [hup, hph]; rfl) hut
    · change (s'.threads u).isSome at hu
      rw [hthreads, Function.update_of_ne hup] at hu
      exact h.live u (hlive u hu) hut
  · rw [hvr]
    exact h.turn hc hv.1 hpass.2 hm
  · show ph.vruntime ≤ th.vruntime
    exact hT.first_le hpq ht h.same hph

theorem Waits.die (h : Waits t th c S N (s, n)) (hv : Valid s .die) (hs : s.die = some s') :
    Waits t th c S N (s', n) := by
  obtain ⟨T, hT⟩ := h.inv
  obtain ⟨u, uh, hcur, huh, hcpu, hclock, hthreads⟩ := die_threads hs
  have hut : t ≠ u := by
    rintro rfl
    exact h.out hcur
  have hvr : vruntimes s'.threads = vruntimes s.threads := by
    rw [hthreads]
    exact vruntimes_update_same huh rfl
  have hlive : ∀ x, (s'.threads x).isSome → (s.threads x).isSome := by
    intro x hx
    by_cases hxu : x = u
    · rw [hxu, huh]
      rfl
    · rwa [hthreads, Function.update_of_ne hxu] at hx
  have hinv : ∃ T', Inv s' T' (current s') :=
    ((hT.step (a := .die) hv hs).resolve_right fun hbad => hbad.1 trivial).2
  refine ⟨hinv, h.started.step hv hs, h.clock.trans hclock.ge, ?_, ?_,
    fun x hx => h.live x (hlive x hx), ?_⟩
  · rw [hthreads, Function.update_of_ne hut]
    exact h.same
  · rw [hcpu]
    exact h.out
  · rw [hvr]
    refine h.left.imp_right fun ⟨hleft, v, vh, hcv, hvh, hle⟩ => ⟨hleft, ?_⟩
    obtain rfl := ThreadRef.thread.inj (Option.some.inj (hcv.symm.trans hcur))
    obtain rfl := Option.some.inj (hvh.symm.trans huh)
    have hself : s'.threads v = some { vh with state := .dead } := by
      rw [hthreads, Function.update_self]
    exact ⟨v, _, hcpu ▸ hcv, hself, hle⟩

end Waits

/-- **No starvation.** While a queued thread waits and no process is run, the number of timer
interrupts is bounded: the turns that are left for the other threads, and one. -/
theorem no_starvation {kernelRoot idleRip rsp0 : Nat} {regs : Registers} {s s' : System} {t : Addr}
    {th : Thread} {n : Nat} {S : Finset Addr}
    (h : Reach DequeueMeets (.boot kernelRoot idleRip rsp0 regs) s) (ht : s.threads t = some th)
    (hout : s.cpu.thread ≠ some (.thread t)) (hclock : 0 < s.clock)
    (hS : ∀ u, (s.threads u).isSome → u ≠ t → u ∈ S) (hrun : Waiting t s (s', n)) :
    n ≤ 1 + ∑ u ∈ S, turns th.vruntime s.clock (vruntimes s.threads u) := by
  have hw : Waits t th s.clock S (total th.vruntime s.clock S (vruntimes s.threads)) (s', n) := by
    refine Run.invariant (Waits t th s.clock S _) ?_ ?_ hrun
    · exact ⟨reach_inv h, h.started, Nat.le_refl _, ht, hout, hS, .inl ⟨rfl, Nat.le_refl _⟩⟩
    · rintro ⟨x, n⟩ a x' hx ⟨hv, hmeets, hpass⟩ hstep
      obtain ⟨x', hs, rfl⟩ := Option.map_eq_some_iff.mp hstep
      cases a with
      | spawn p v root ts rs => exact hpass.elim
      | timer now run context => exact hx.timer hclock hv hmeets hpass hs
      | die => exact hx.die hv hs
  rcases hw.left with ⟨hn, -⟩ | ⟨hleft, -⟩
  · change n = 0 at hn
    rw [hn]
    exact Nat.zero_le _
  · exact (Nat.le_add_right n _).trans (hleft.trans_eq (Nat.add_comm _ 1))

/-! ## Two threads at different times -/

/-- The creation and `run_proc` of a process with one thread, the `i`-th, at the time `now`. -/
def spawnAt (i now : Nat) : Action :=
  .spawn i (10 + i) (0x1000 * i) [⟨100 * i, 0, 0, 0, 0, 0, 0⟩] [(now, 10 * i)]

def early₁ : System := (step tied₀ (spawnAt 1 1)).get rfl
def early₂ : System := (step early₁ (spawnAt 2 2)).get rfl

theorem valid_spawnAt {s : System} {i now : Nat} (hp : s.procs i = none)
    (hv : s.vmms (10 + i) = none) (hk : 0x1000 * i ≠ s.kernelRoot)
    (hroot : ∀ w, s.vmms w ≠ some (0x1000 * i)) (ht : s.threads (100 * i) = none)
    (hn : FreshNode s (10 * i)) (hc : s.clock ≤ now) : Valid s (spawnAt i now) := by
  refine ⟨hp, hv, hk, hroot, by simp, by simpa using ht, rfl, by simp, by simpa using hn, ?_⟩
  simp [hc]

theorem valid_early₁ : Valid tied₀ (spawnAt 1 1) :=
  valid_spawnAt rfl rfl (by decide) (fun w => by simp [tied₀, System.boot]) rfl
    ⟨rfl, by decide, by decide⟩ (by decide)

theorem valid_early₂ : Valid early₁ (spawnAt 2 2) := by
  refine valid_spawnAt rfl rfl (by decide) (fun w => ?_) rfl ⟨rfl, by decide, by decide⟩
    (by decide)
  show Function.update (fun _ => none) 11 (some 0x1000) w ≠ _
  simp only [Function.update_apply]
  split_ifs <;> simp

theorem reach_early₂ : Reach DequeueMeets tied₀ early₂ :=
  .step (spawnAt 2 2) (.step (spawnAt 1 1) .init valid_early₁ trivial rfl) valid_early₂ trivial rfl

/-- The threads in this state. -/
theorem early₂_threads {t : Addr} {th : Thread} (h : early₂.threads t = some th) :
    (t = 100 ∧ th = ⟨1, 0, 0, .waiting, 1, ⟨⟨0, 0⟩, 0, userCs, 0x202, 0, userSs⟩, 0⟩) ∨
      (t = 200 ∧ th = ⟨2, 0, 0, .waiting, 2, ⟨⟨0, 0⟩, 0, userCs, 0x202, 0, userSs⟩, 0⟩) := by
  by_cases h₂ : t = 200
  · subst h₂
    exact .inr ⟨rfl, (Option.some.inj h).symm⟩
  · by_cases h₁ : t = 100
    · subst h₁
      exact .inl ⟨rfl, (Option.some.inj h).symm⟩
    · have hs₁ : step tied₀ (spawnAt 1 1) = some early₁ := rfl
      have hs₂ : step early₁ (spawnAt 2 2) = some early₂ := rfl
      obtain ⟨-, -, hout₁, -⟩ := spawn_threads valid_early₁ hs₁
      obtain ⟨-, -, hout₂, -⟩ := spawn_threads valid_early₂ hs₂
      rw [hout₂ t (by simpa using h₂), hout₁ t (by simpa using h₁)] at h
      exact absurd h (Option.some_ne_none th).symm

/-- The first thread is picked while the second waits. -/
theorem dequeueMeets_early₂ : DequeueMeets early₂ (.timer 3 40 kernelFrame) := by
  intro new s₁ n T hpick hleave _ hT
  obtain rfl := Option.some.inj hpick
  obtain ⟨rfl, hn⟩ := Prod.mk.inj (Option.some.inj hleave)
  obtain rfl := Option.some.inj hn
  have htwo : Holds early₂.cfs.tree (.node .nil .black (10, 100) (.node .nil .red (20, 200) .nil)) :=
    ⟨rfl, ⟨rfl, trivial, ⟨rfl, trivial, trivial⟩⟩, by decide⟩
  rw [holds_unique hT htwo]
  simp [TieAbove, entities, ColorTree.toList]

/-- The second thread waits for one interrupt, of two that the bound allows. -/
theorem no_starvation_early : ∃ s' n, Waiting 200 early₂ (s', n) ∧ n = 1 ∧
    n ≤ 1 + ∑ u ∈ ({100} : Finset Addr), turns 2 2 (vruntimes early₂.threads u) ∧
    1 + ∑ u ∈ ({100} : Finset Addr), turns 2 2 (vruntimes early₂.threads u) = 2 := by
  have hrun : Waiting 200 early₂ ((step early₂ (.timer 3 40 kernelFrame)).get rfl, 1) := by
    refine .step (.timer 3 40 kernelFrame) .init ⟨?_, dequeueMeets_early₂, ?_, ?_⟩ rfl
    · exact ⟨by decide, ⟨rfl, by decide, by decide⟩, rfl, rfl⟩
    · decide
    · intro t th hc
      exact absurd (show none = some (ThreadRef.thread t) from hc) (Option.some_ne_none _).symm
  have hth : early₂.threads 200 =
      some ⟨2, 0, 0, .waiting, 2, ⟨⟨0, 0⟩, 0, userCs, 0x202, 0, userSs⟩, 0⟩ := rfl
  refine ⟨_, _, hrun, rfl, ?_, by rw [Finset.sum_singleton]; rfl⟩
  refine no_starvation reach_early₂ hth (by decide) (by decide) (fun u hu hne => ?_) hrun
  obtain ⟨th, hth⟩ := Option.isSome_iff_exists.mp hu
  rcases early₂_threads hth with ⟨rfl, -⟩ | ⟨rfl, -⟩
  · exact Finset.mem_singleton_self _
  · exact absurd rfl hne

end Colibri.Scheduler
