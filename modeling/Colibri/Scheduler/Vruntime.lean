import Mathlib.Data.Nat.ModEq
import Colibri.Scheduler.Resume

/-!
# What a thread is charged

`update` of `kernel/scheduler/cfs.c` charges a thread for the time since its `exec_start_time` when it
is put back into the queue. `run_proc` sets that field to zero, and nothing sets it when a thread
becomes current: each slice is charged as if it had begun when the machine was started.

A run carries along an account for each thread, which is not in the source: its `vruntime` when it was
first queued, how long it has been current since then, and the readings of `uptime` at which
`schedule` picked it.
-/

namespace Colibri.Scheduler

open Colibri.Lib

/-- The account of a thread. -/
structure Account where
  first : Nat
  total : Nat
  starts : List Nat
  deriving DecidableEq, Repr

/-- The time that goes by for the thread `t` from the state `s` until `now`. -/
def elapsed (s : System) (now : Nat) (t : Addr) : Nat :=
  if s.cpu.thread = some (.thread t) then now - s.clock else 0

theorem elapsed_current {s : System} {now : Nat} {t : Addr} (h : s.cpu.thread = some (.thread t)) :
    elapsed s now t = now - s.clock := if_pos h

theorem elapsed_of_ne {s : System} {now : Nat} {t : Addr} (h : s.cpu.thread ≠ some (.thread t)) :
    elapsed s now t = 0 := if_neg h

/-- The accounts after an action that leads from `s` to `s'`. -/
def accounted (s s' : System) (acc : Addr → Account) (a : Action) (t : Addr) : Account :=
  let x := { acc t with total := (acc t).total + elapsed s s'.clock t }
  match a with
  | .spawn _ _ _ ts _ => if t ∈ ts.map (·.addr) then ⟨s'.entityKey t, 0, []⟩ else x
  | .timer now _ _ =>
    if s.cfsPickNext = some (some t) then { x with starts := now :: x.starts } else x
  | .die => x

/-- A run that carries the accounts along. -/
abbrev Accounted (s₀ : System × (Addr → Account)) : System × (Addr → Account) → Prop :=
  Run (fun x a => (step x.1 a).map fun s' => (s', accounted x.1 s' x.2 a))
    (fun x a => Valid x.1 a) s₀

/-! ## The charge -/

/-- Every reading of `uptime` at which the thread was put back is charged in full. The sum of these
readings exceeds the time it was current by the readings at which it was picked. -/
def Charged (s : System) (t : Addr) (th : Thread) (x : Account) : Prop :=
  th.execStartTime = 0 ∧ ∃ charged, th.vruntime = (x.first + charged * (1 + th.prio)) % u64Size ∧
    (charged + if s.cpu.thread = some (.thread t) then s.clock else 0) = x.total + x.starts.sum

/-- What holds of the accounts. -/
structure Books (s : System) (acc : Addr → Account) : Prop where
  tree : TreeOk s
  live : ∀ t, s.cpu.thread = some (.thread t) → (s.threads t).isSome
  charged : ∀ t th, s.threads t = some th → Charged s t th (acc t)

theorem u64Sub_zero (n : Nat) : u64Sub n 0 = n % u64Size := by
  rw [u64Sub, Nat.sub_zero, Nat.add_mod_right]

/-- **What `update` charges** when `exec_start_time` is zero. -/
theorem updateEntity_vruntime {th : Thread} {now v charged : Nat} (h0 : th.execStartTime = 0)
    (hv : th.vruntime = (v + charged * (1 + th.prio)) % u64Size) :
    (System.updateEntity now th).vruntime = (v + (charged + now) * (1 + th.prio)) % u64Size := by
  show u64Add th.vruntime (u64Mul (u64Sub now th.execStartTime) (1 + th.prio)) = _
  rw [h0, u64Sub_zero, hv, Nat.add_mul, ← Nat.add_assoc]
  exact (Nat.mod_modEq _ _).add
    ((Nat.mod_modEq _ _).trans ((Nat.mod_modEq _ _).mul_right (1 + th.prio)))

section Timer

variable {s : System} {acc : Addr → Account} {m : Addr → Option Thread} {now : Nat}
  {context : IntFrame} {t : Addr} {th : Thread}

/-- The charge of a thread that does not run, when `d` has gone by for it. -/
def Settled (th : Thread) (x : Account) (d : Nat) : Prop :=
  th.execStartTime = 0 ∧
    th.vruntime = (x.first + (x.total + d + x.starts.sum) * (1 + th.prio)) % u64Size

theorem Charged.settled {x : Account} (h : Charged s t th x)
    (hne : s.cpu.thread ≠ some (.thread t)) : Settled th x 0 := by
  obtain ⟨h0, charged, hv, hsum⟩ := h
  rw [if_neg hne, Nat.add_zero] at hsum
  exact ⟨h0, by rw [hv, hsum, Nat.add_zero]⟩

/-- **A thread that is put back** has been charged for its slice, and for the reading of `uptime` at
which the slice began. -/
theorem Charged.preempted {x : Account} (h : Charged s t th x)
    (hc : s.cpu.thread = some (.thread t)) (hnow : s.clock ≤ now) :
    Settled (th.preempted now context) x (now - s.clock) := by
  obtain ⟨h0, charged, hv, hsum⟩ := h
  rw [if_pos hc] at hsum
  have hchg : charged + now = x.total + (now - s.clock) + x.starts.sum := by omega
  refine ⟨h0, ?_⟩
  have hup : (System.updateEntity now { th with state := .waiting }).vruntime =
      (x.first + (charged + now) * (1 + th.prio)) % u64Size := updateEntity_vruntime h0 hv
  rw [hchg] at hup
  exact hup

theorem Books.left (h : Books s acc) (hm : OldLeft s now context m) (hnow : s.clock ≤ now)
    (ht : m t = some th) :
    Settled th (acc t) (elapsed s now t) := by
  cases hm with
  | none hc =>
    have hne : s.cpu.thread ≠ some (.thread t) := by
      rcases hc with hc | hc <;> rw [hc] <;> simp
    rw [elapsed_of_ne hne]
    exact (h.charged t th ht).settled hne
  | @queued old th₀ hc hth _ =>
    by_cases hto : t = old
    · subst hto
      rw [Function.update_self] at ht
      obtain rfl := Option.some.inj ht
      rw [elapsed_current hc]
      exact (h.charged t th₀ hth).preempted hc hnow
    · have hne : s.cpu.thread ≠ some (.thread t) := by
        rw [hc]
        simpa using Ne.symm hto
      rw [Function.update_of_ne hto] at ht
      rw [elapsed_of_ne hne]
      exact (h.charged t th ht).settled hne
  | @destroyed old th₀ hc hth _ =>
    by_cases hto : t = old
    · subst hto
      rw [Function.update_self] at ht
      exact absurd ht (by simp)
    · have hne : s.cpu.thread ≠ some (.thread t) := by
        rw [hc]
        simpa using Ne.symm hto
      rw [Function.update_of_ne hto] at ht
      rw [elapsed_of_ne hne]
      exact (h.charged t th ht).settled hne

end Timer

/-! ## Runs -/

section Step

variable {s s' : System} {acc : Addr → Account}

/-- A thread that becomes current is charged from now on. -/
theorem Settled.charged {t : Addr} {th : Thread} {x : Account} {d now : Nat} (h : Settled th x d)
    (hc : s'.cpu.thread = some (.thread t)) (hclock : s'.clock = now) :
    Charged s' t th { x with total := x.total + d, starts := now :: x.starts } := by
  refine ⟨h.1, _, h.2, ?_⟩
  rw [if_pos hc, hclock, List.sum_cons]
  show x.total + d + x.starts.sum + now = x.total + d + (now + x.starts.sum)
  omega

/-- One that does not is settled. -/
theorem Settled.out {t : Addr} {th : Thread} {x : Account} {d : Nat} (h : Settled th x d)
    (hc : s'.cpu.thread ≠ some (.thread t)) :
    Charged s' t th { x with total := x.total + d } := by
  refine ⟨h.1, _, h.2, ?_⟩
  rw [if_neg hc]
  rfl

theorem accounted_timer {now : Nat} {run : Addr} {context : IntFrame} {t : Addr}
    (hclock : s'.clock = now) (hp : s.cfsPickNext ≠ some (some t)) :
    accounted s s' acc (.timer now run context) t =
      { acc t with total := (acc t).total + elapsed s now t } := by
  simp only [accounted, if_neg hp, hclock]

theorem accounted_timer_picked {now : Nat} {run : Addr} {context : IntFrame} {t : Addr}
    (hclock : s'.clock = now) (hp : s.cfsPickNext = some (some t)) :
    accounted s s' acc (.timer now run context) t = { acc t with
      total := (acc t).total + elapsed s now t
      starts := now :: (acc t).starts } := by
  simp only [accounted, if_pos hp, hclock]

/-- A thread that runs on, or does not run, while the clock goes on. -/
theorem Charged.wait {now : Nat} {t : Addr} {th : Thread} {x : Account} (h : Charged s t th x)
    (hnow : s.clock ≤ now) (hclock : s'.clock = now) (hcpu : s'.cpu.thread = s.cpu.thread) :
    Charged s' t th { x with total := x.total + elapsed s now t } := by
  obtain ⟨h0, charged, hv, hsum⟩ := h
  refine ⟨h0, charged, hv, ?_⟩
  rw [hcpu, hclock]
  show charged + _ = x.total + elapsed s now t + x.starts.sum
  by_cases hcur : s.cpu.thread = some (.thread t)
  · rw [if_pos hcur] at hsum ⊢
    rw [elapsed_current hcur]
    omega
  · rw [if_neg hcur] at hsum ⊢
    rw [elapsed_of_ne hcur]
    omega

theorem Books.timer {now : Nat} {run : Addr} {context frame : IntFrame} (h : Books s acc)
    (hnow : s.clock ≤ now) (hclock : s'.clock = now) (htree : TreeOk s')
    (ho : Outcome s now context s' frame) :
    Books s' (accounted s s' acc (.timer now run context)) := by
  cases ho with
  | @stay old th hc hth hlive hp hcpu ht _ =>
    refine ⟨htree, fun t hcur => ?_, fun t x hx => ?_⟩
    · rw [hcpu, ← hc] at hcur
      rw [ht]
      exact h.live t hcur
    · rw [accounted_timer hclock (by rw [hp]; simp)]
      rw [ht] at hx
      exact (h.charged t x hx).wait hnow hclock (by rw [hcpu, hc])
  | @again old th hc hth hlive hp hcpu ht _ =>
    have hm : OldLeft s now context s'.threads := by
      rw [ht]
      exact .queued hc hth hlive
    refine ⟨htree, fun t hcur => ?_, fun t x hx => ?_⟩
    · rw [hcpu] at hcur
      obtain rfl := ThreadRef.thread.inj (Option.some.inj hcur)
      rw [ht, Function.update_self]
      rfl
    · have hs := h.left hm hnow hx
      by_cases hto : t = old
      · subst hto
        rw [accounted_timer_picked hclock hp]
        exact hs.charged hcpu hclock
      · rw [accounted_timer hclock (by rw [hp]; simpa using Ne.symm hto)]
        exact hs.out (by rw [hcpu]; simpa using Ne.symm hto)
  | @switch m n th hm hn hth hp hcpu ht _ =>
    refine ⟨htree, fun t hcur => ?_, fun t x hx => ?_⟩
    · rw [hcpu] at hcur
      obtain rfl := ThreadRef.thread.inj (Option.some.inj hcur)
      rw [ht, Function.update_self]
      rfl
    · by_cases htn : t = n
      · subst htn
        rw [ht, Function.update_self] at hx
        obtain rfl := Option.some.inj hx
        rw [accounted_timer_picked hclock hp]
        have hs : Settled th (acc t) _ := h.left hm hnow hth
        have hs' : Settled { th with state := .active } (acc t) _ := hs
        exact hs'.charged hcpu hclock
      · rw [ht, Function.update_of_ne htn] at hx
        rw [accounted_timer hclock (by rw [hp]; simpa using Ne.symm htn)]
        exact (h.left hm hnow hx).out (by rw [hcpu]; simpa using Ne.symm htn)
  | @idle m hm _ hp hcpu ht =>
    refine ⟨htree, fun t hcur => ?_, fun t x hx => ?_⟩
    · rw [hcpu] at hcur
      exact absurd hcur (by simp)
    · rw [ht] at hx
      rw [accounted_timer hclock (by rw [hp]; simp)]
      exact (h.left hm hnow hx).out (by rw [hcpu]; simp)

theorem Books.spawn {p v : Addr} {root : Nat} {ts : List NewThread} {rs : List (Nat × Addr)}
    (h : Books s acc) (hv : Valid s (.spawn p v root ts rs))
    (hs : step s (.spawn p v root ts rs) = some s') :
    Books s' (accounted s s' acc (.spawn p v root ts rs)) := by
  obtain ⟨hcpu, hclock, hout, hin⟩ := spawn_threads hv hs
  have hfree : ∀ nt ∈ ts, s.threads nt.addr = none := hv.2.2.2.2.2.1
  have hnew : ∀ t, s.cpu.thread = some (.thread t) → t ∉ ts.map (·.addr) := by
    intro t hcur hmem
    obtain ⟨nt, hnt, rfl⟩ := List.mem_map.mp hmem
    have hlive := h.live _ hcur
    rw [hfree nt hnt] at hlive
    exact absurd hlive (by simp)
  refine ⟨h.tree.step hv hs, fun t hcur => ?_, fun t th ht => ?_⟩
  · rw [hcpu] at hcur
    rw [hout t (hnew t hcur)]
    exact h.live t hcur
  by_cases hmem : t ∈ ts.map (·.addr)
  · have hne : s'.cpu.thread ≠ some (.thread t) := fun hcur => hnew t (hcpu ▸ hcur) hmem
    have hacc : accounted s s' acc (.spawn p v root ts rs) t = ⟨s'.entityKey t, 0, []⟩ := if_pos hmem
    have hkey : s'.entityKey t = th.vruntime := by rw [System.entityKey, ht]; rfl
    obtain ⟨nt, hnt, rfl⟩ := List.mem_map.mp hmem
    obtain ⟨now, -, hthread⟩ := hin nt hnt
    obtain rfl := Option.some.inj (hthread.symm.trans ht)
    have hlt : (System.updateEntity now { nt.init p with execStartTime := 0 }).vruntime < u64Size :=
      u64Add_lt _ _
    rw [hacc, hkey]
    refine ⟨rfl, 0, ?_, ?_⟩
    · rw [Nat.zero_mul, Nat.add_zero, Nat.mod_eq_of_lt hlt]
    · rw [if_neg hne]
      rfl
  · have hacc : accounted s s' acc (.spawn p v root ts rs) t =
        { acc t with total := (acc t).total + elapsed s s'.clock t } := if_neg hmem
    rw [hacc]
    rw [hout t hmem] at ht
    exact (h.charged t th ht).wait hclock rfl hcpu

theorem Books.die (h : Books s acc) (hv : Valid s .die) (hs : s.die = some s') :
    Books s' (accounted s s' acc .die) := by
  obtain ⟨u, x, hc, hx, hcpu, hclock, ht⟩ := die_threads hs
  have hsame : ∀ t th, s'.threads t = some th → ∃ th₀, s.threads t = some th₀ ∧
      th.vruntime = th₀.vruntime ∧ th.prio = th₀.prio ∧ th.execStartTime = th₀.execStartTime := by
    intro t th hth
    by_cases htu : t = u
    · subst htu
      rw [ht, Function.update_self] at hth
      obtain rfl := Option.some.inj hth
      exact ⟨x, hx, rfl, rfl, rfl⟩
    · rw [ht, Function.update_of_ne htu] at hth
      exact ⟨th, hth, rfl, rfl, rfl⟩
  refine ⟨h.tree.step hv hs, fun t hcur => ?_, fun t th hth => ?_⟩
  · rw [hcpu, hc] at hcur
    obtain rfl := ThreadRef.thread.inj (Option.some.inj hcur)
    rw [ht, Function.update_self]
    rfl
  · obtain ⟨th₀, hth₀, hvr, hprio, hstart⟩ := hsame t th hth
    have hw : Charged s' t th₀ { acc t with total := (acc t).total + elapsed s s'.clock t } :=
      (h.charged t th₀ hth₀).wait hclock.ge rfl (by rw [hcpu])
    obtain ⟨h0, charged, hch, hsum⟩ := hw
    exact ⟨hstart.trans h0, charged, by rw [hvr, hprio]; exact hch, hsum⟩

end Step

theorem Outcome.congr {s s₁ s₂ : System} {now : Nat} {context frame : IntFrame}
    (h : Outcome s now context s₁ frame) (ht : s₂.threads = s₁.threads)
    (hc : s₂.cpu.thread = s₁.cpu.thread) : Outcome s now context s₂ frame := by
  cases h with
  | stay hold hth hlive hp hcpu ht' hf =>
    exact .stay hold hth hlive hp (hc.trans hcpu) (ht.trans ht') hf
  | again hold hth hlive hp hcpu ht' hf =>
    exact .again hold hth hlive hp (hc.trans hcpu) (ht.trans ht') hf
  | switch hm hn hth hp hcpu ht' hf =>
    exact .switch hm hn hth hp (hc.trans hcpu) (ht.trans ht') hf
  | idle hm hd hp hcpu ht' => exact .idle hm hd hp (hc.trans hcpu) (ht.trans ht')

theorem Books.step {s s' : System} {acc : Addr → Account} {a : Action} (h : Books s acc)
    (hv : Valid s a) (hs : step s a = some s') : Books s' (accounted s s' acc a) := by
  have htree := h.tree.step hv hs
  cases a with
  | spawn p v root ts rs => exact h.spawn hv hs
  | timer now run context =>
    simp only [Scheduler.step, System.timer, Option.bind_eq_bind, Option.bind_eq_some_iff] at hs
    obtain ⟨⟨s₁, frame⟩, h₁, hs⟩ := hs
    obtain rfl := Option.some.inj hs
    exact h.timer hv.1 rfl htree ((schedule_outcome h₁).congr rfl rfl)
  | die => exact h.die hv hs

theorem Accounted.books {kernelRoot idleRip rsp0 : Nat} {regs : Registers} {acc : Addr → Account}
    {x : System × (Addr → Account)}
    (h : Accounted (.boot kernelRoot idleRip rsp0 regs, acc) x) : Books x.1 x.2 := by
  refine Run.invariant (fun x => Books x.1 x.2) ⟨?_, ?_, ?_⟩ ?_ h
  · exact ⟨.nil, (Queue.empty (K := Nat) fun _ => 0).toShaped⟩
  · intro t hcur
    exact absurd hcur (by simp [System.boot])
  · intro t th ht
    exact absurd ht (by simp [System.boot])
  · intro x a x' hs hv hstep
    obtain ⟨s', h', rfl⟩ := Option.map_eq_some_iff.mp hstep
    exact hs.step hv h'

/-- The thread that is put back. -/
theorem put_back {s s' : System} {now : Nat} {run t : Addr} {context frame : IntFrame}
    {th th' : Thread} (h : s.schedule now run context = some (s', frame))
    (hc : s.cpu.thread = some (.thread t)) (hth : s.threads t = some th) (hlive : th.state ≠ .dead)
    (hpick : s.cfsPickNext ≠ some none) (hth' : s'.threads t = some th') :
    th' = th.preempted now context := by
  cases schedule_outcome h with
  | stay _ _ _ hp => exact absurd hp hpick
  | idle _ _ hp => exact absurd hp hpick
  | @again old x hc' hx _ _ _ ht =>
    rw [hc] at hc'
    obtain rfl := ThreadRef.thread.inj (Option.some.inj hc')
    obtain rfl := Option.some.inj (hth.symm.trans hx)
    rw [ht, Function.update_self] at hth'
    exact (Option.some.inj hth').symm
  | @switch m n x hm hn hx _ _ ht =>
    have htn : t ≠ n := fun e => hn (by rw [hc, e])
    rw [ht, Function.update_of_ne htn] at hth'
    cases hm with
    | none hc' => rcases hc' with hc' | hc' <;> rw [hc] at hc' <;> exact absurd hc' (by simp)
    | @queued old y hc' hy _ =>
      rw [hc] at hc'
      obtain rfl := ThreadRef.thread.inj (Option.some.inj hc')
      obtain rfl := Option.some.inj (hth.symm.trans hy)
      rw [Function.update_self] at hth'
      exact (Option.some.inj hth').symm
    | @destroyed old y hc' hy hdead =>
      rw [hc] at hc'
      obtain rfl := ThreadRef.thread.inj (Option.some.inj hc')
      obtain rfl := Option.some.inj (hth.symm.trans hy)
      exact absurd hdead hlive

/-- **What a thread is charged when it is put back.** In every run in which the charges do not wrap,
the `vruntime` of a thread that is put back into the queue is the one it was first queued with plus
`1 + prio` times its time as the current thread if and only if `schedule` has only ever picked it
while `uptime` was zero. -/
theorem vruntime_charge_iff {kernelRoot idleRip rsp0 : Nat} {regs : Registers}
    {acc₀ acc : Addr → Account} {s s' : System} {now : Nat} {run t : Addr}
    {context frame : IntFrame} {th th' : Thread}
    (hrun : Accounted (.boot kernelRoot idleRip rsp0 regs, acc₀) (s, acc)) (hnow : s.clock ≤ now)
    (h : s.schedule now run context = some (s', frame)) (hc : s.cpu.thread = some (.thread t))
    (hth : s.threads t = some th) (hlive : th.state ≠ .dead) (hpick : s.cfsPickNext ≠ some none)
    (hth' : s'.threads t = some th')
    (hwrap : (acc t).first + (((acc t).total + (now - s.clock)) + (acc t).starts.sum) *
      (1 + th.prio) < u64Size) :
    th'.vruntime = (acc t).first + (1 + th.prio) * ((acc t).total + (now - s.clock)) ↔
      ∀ x ∈ (acc t).starts, x = 0 := by
  obtain rfl : th' = th.preempted now context := put_back h hc hth hlive hpick hth'
  have hset : Settled (th.preempted now context) (acc t) (now - s.clock) :=
    (hrun.books.charged t th hth).preempted hc hnow
  have hprio : (th.preempted now context).prio = th.prio := rfl
  rw [hset.2, hprio, Nat.mod_eq_of_lt hwrap, Nat.mul_comm (1 + th.prio), Nat.add_right_inj,
    Nat.mul_right_cancel_iff (by omega), Nat.add_eq_left, List.sum_eq_zero_iff_forall_eq_nat]

/-! ## Two threads that take turns -/

theorem Accounted.act {x₀ : System × (Addr → Account)} {s s' : System} {acc : Addr → Account}
    (h : Accounted x₀ (s, acc)) (a : Action) (hv : Valid s a) (hs : Scheduler.step s a = some s') :
    Accounted x₀ (s', accounted s s' acc a) :=
  .step a h hv (congrArg (Option.map fun s' => (s', accounted s s' acc a)) hs)

/-- The accounts of two processes with one thread each that are run while `uptime` is zero. -/
def acc₂ : Addr → Account :=
  accounted tied₁ tied₂ (accounted tied₀ tied₁ (fun _ => ⟨0, 0, []⟩) (spawnOne 1)) (spawnOne 2)

theorem accounted_tied₂ : Accounted (tied₀, fun _ => ⟨0, 0, []⟩) (tied₂, acc₂) := by
  have h₁ : Accounted (tied₀, fun _ => ⟨0, 0, []⟩)
      (tied₁, accounted tied₀ tied₁ (fun _ => ⟨0, 0, []⟩) (spawnOne 1)) :=
    Accounted.act .init (spawnOne 1) (valid_spawnOne rfl rfl (by decide) (fun w => nofun) rfl
      ⟨rfl, by decide, by decide⟩ rfl) rfl
  refine h₁.act (spawnOne 2) (valid_spawnOne rfl rfl (by decide) (fun w => ?_) rfl
    ⟨rfl, by decide, by decide⟩ rfl) rfl
  show Function.update (fun _ => none) 11 (some 0x1000) w ≠ _
  simp only [Function.update_apply]
  split_ifs <;> simp

/-- A thread that is picked at zero is charged for its slice. -/
theorem vruntime_charge_zero : ∃ s' frame th', pair₁.schedule 1 50 userFrame = some (s', frame) ∧
    s'.threads 100 = some th' ∧ th'.vruntime = 1 := by
  have hrun : Accounted (tied₀, fun _ => ⟨0, 0, []⟩)
      (pair₁, accounted tied₂ pair₁ acc₂ (.timer 0 40 kernelFrame)) := accounted_tied₂.act _
    ⟨le_refl 0, ⟨rfl, by decide, by decide⟩, rfl, rfl⟩ rfl
  have hs : ∃ x th', pair₁.schedule 1 50 userFrame = some x ∧ x.1.threads 100 = some th' :=
    ⟨_, _, rfl, rfl⟩
  obtain ⟨⟨s', frame⟩, th', hs, hth'⟩ := hs
  refine ⟨s', frame, th', hs, hth', ?_⟩
  have hiff := vruntime_charge_iff hrun (Nat.zero_le 1) hs rfl rfl (by decide) (by decide) hth'
    (by decide)
  exact hiff.mpr (by decide)

/-- The first interrupt, one tick later. -/
def latePick : System := (step tied₂ (.timer 1 40 kernelFrame)).get rfl

/-- **One tick too many.** The first thread is picked at 1 and put back at 2: it was current for one
tick, and is charged for two. -/
theorem vruntime_overcharged : ∃ acc s' frame th th',
    Accounted (tied₀, fun _ => ⟨0, 0, []⟩) (latePick, acc) ∧
    latePick.schedule 2 50 userFrame = some (s', frame) ∧
    latePick.cpu.thread = some (.thread 100) ∧ latePick.threads 100 = some th ∧ th.state ≠ .dead ∧
    latePick.cfsPickNext ≠ some none ∧ s'.threads 100 = some th' ∧
    (acc 100).first + (1 + th.prio) * ((acc 100).total + (2 - latePick.clock)) = 1 ∧
    th'.vruntime = 2 := by
  have hrun : Accounted (tied₀, fun _ => ⟨0, 0, []⟩)
      (latePick, accounted tied₂ latePick acc₂ (.timer 1 40 kernelFrame)) := accounted_tied₂.act _
    ⟨Nat.zero_le 1, ⟨rfl, by decide, by decide⟩, rfl, rfl⟩ rfl
  exact ⟨_, _, _, _, _, hrun, rfl, rfl, rfl, by decide, by decide, rfl, by decide, by decide⟩

end Colibri.Scheduler
