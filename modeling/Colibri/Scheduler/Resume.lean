import Colibri.Lib.Run
import Colibri.Scheduler.Switch

/-!
# The frame a thread goes on with

`schedule` saves the frame of a thread when it leaves it and loads the frame of the thread it
switches to. Between the two, any number of other threads are switched to, run, queued and destroyed.
The module follows the frames through whole runs, with no condition on the runs: a `cfs_dequeue`
that misses its thread leaves it in the queue, but does not touch its frame.

`schedule_outcome` says what a call of `schedule` does to the threads. The frame each thread was last
interrupted with is not in the source: a run carries it along (`interrupted`).
-/

namespace Colibri.Scheduler

open Colibri.Lib

/-! ## What `schedule` does to the threads -/

/-- The old thread, put back into the queue. -/
def Thread.preempted (th : Thread) (now : Nat) (context : IntFrame) : Thread :=
  { System.updateEntity now { th with state := .waiting } with context }

/-- What is left of the threads when `schedule` leaves the old one for another or for none: nothing
ran, or the old thread is queued, or it was dead and is destroyed. -/
inductive OldLeft (s : System) (now : Nat) (context : IntFrame) : (Addr → Option Thread) → Prop
  | none (h : s.cpu.thread = none ∨ s.cpu.thread = some .idle) : OldLeft s now context s.threads
  | queued {old : Addr} {th : Thread} (h : s.cpu.thread = some (.thread old))
      (hth : s.threads old = some th) (hlive : th.state ≠ .dead) :
      OldLeft s now context (Function.update s.threads old (some (th.preempted now context)))
  | destroyed {old : Addr} {th : Thread} (h : s.cpu.thread = some (.thread old))
      (hth : s.threads old = some th) (hdead : th.state = .dead) :
      OldLeft s now context (Function.update s.threads old none)

/-- **The outcomes of `schedule`**: the old thread goes on without having been queued or although it
was picked itself, another thread is switched to, or the processor goes idle. -/
inductive Outcome (s : System) (now : Nat) (context : IntFrame) (s' : System) (frame : IntFrame) :
    Prop
  | stay {old : Addr} {th : Thread} (h : s.cpu.thread = some (.thread old))
      (hth : s.threads old = some th) (hlive : th.state ≠ .dead)
      (hpick : s.cfsPickNext = some none) (hcpu : s'.cpu.thread = some (.thread old))
      (hthreads : s'.threads = s.threads) (hframe : frame = context)
  | again {old : Addr} {th : Thread} (h : s.cpu.thread = some (.thread old))
      (hth : s.threads old = some th) (hlive : th.state ≠ .dead)
      (hpick : s.cfsPickNext = some (some old)) (hcpu : s'.cpu.thread = some (.thread old))
      (hthreads : s'.threads = Function.update s.threads old (some (th.preempted now context)))
      (hframe : frame = context)
  | switch {m : Addr → Option Thread} {n : Addr} {th : Thread} (hm : OldLeft s now context m)
      (hn : s.cpu.thread ≠ some (.thread n)) (hth : m n = some th)
      (hpick : s.cfsPickNext = some (some n)) (hcpu : s'.cpu.thread = some (.thread n))
      (hthreads : s'.threads = Function.update m n (some { th with state := .active }))
      (hframe : frame = { th.context with registers.rsp := context.registers.rsp })
  | idle {m : Addr → Option Thread} (hm : OldLeft s now context m)
      (hdead : ∀ old th, s.cpu.thread = some (.thread old) → s.threads old = some th →
        th.state = .dead) (hpick : s.cfsPickNext = some none) (hcpu : s'.cpu.thread = some .idle)
      (hthreads : s'.threads = m)

theorem destroyThread_threads {s s' : System} {t : Addr} (h : s.destroyThread t = some s') :
    s'.threads = Function.update s.threads t none ∧ s'.cpu = s.cpu := by
  obtain ⟨th, proc, root, -, -, -, ⟨-, rfl⟩ | ⟨-, rfl⟩⟩ := destroyThread_eq h <;> exact ⟨rfl, rfl⟩

theorem cfsQueue_threads {s s' : System} {t : Addr} {now : Nat} {run : Addr}
    (h : s.cfsQueue t now run = some s') : ∃ th, s.threads t = some th ∧
      s'.threads = Function.update s.threads t (some (System.updateEntity now th)) ∧
      s'.cpu = s.cpu ∧ s'.clock = s.clock := by
  obtain ⟨s₁, tree, running, hs₁, -, -, rfl⟩ := cfsQueue_eq h
  obtain ⟨th, hth, rfl⟩ := modifyThread_eq hs₁
  exact ⟨th, hth, rfl, rfl, rfl⟩

/-- The old thread is queued and its frame saved. -/
theorem preempt_threads {s s₁ s₂ s₃ : System} {old : Addr} {th : Thread} {now : Nat} {run : Addr}
    {context : IntFrame} (hth : s.threads old = some th)
    (h₁ : (s.modifyThread old fun th => { th with state := .waiting }) = some s₁)
    (h₂ : s₁.cfsQueue old now run = some s₂)
    (h₃ : (s₂.modifyThread old fun th => { th with context := context }) = some s₃) :
    s₃.threads = Function.update s.threads old (some (th.preempted now context)) ∧
      s₃.cpu = s.cpu := by
  obtain ⟨th₁, hth₁, rfl⟩ := modifyThread_eq h₁
  obtain rfl := Option.some.inj (hth.symm.trans hth₁)
  obtain ⟨th₂, hth₂, ht₂, hc₂, -⟩ := cfsQueue_threads h₂
  obtain ⟨th₃, hth₃, rfl⟩ := modifyThread_eq h₃
  have e₂ : th₂ = { th with state := .waiting } := by simpa using hth₂.symm
  have e₃ : th₃ = System.updateEntity now th₂ := by simpa [ht₂] using hth₃.symm
  refine ⟨?_, hc₂⟩
  show Function.update s₂.threads old _ = _
  rw [ht₂, Function.update_idem, Function.update_idem, e₃, e₂]
  rfl

theorem switchTo_threads {s s' : System} {n : Addr} {frame : IntFrame}
    (h : s.switchTo n = some (s', frame)) : ∃ th, s.threads n = some th ∧ frame = th.context ∧
      s'.threads = Function.update s.threads n (some { th with state := .active }) ∧
      s'.cpu.thread = some (.thread n) := by
  obtain ⟨s₁, s₂, th, proc, root, h₁, h₂, hth, -, -, rfl, rfl⟩ := switchTo_eq h
  obtain ⟨tree, running, -, -, rfl⟩ := cfsDequeue_eq h₁
  obtain ⟨th₁, hth₁, rfl⟩ := modifyThread_eq h₂
  have e : th = { th₁ with state := .active } := by simpa using hth.symm
  exact ⟨th₁, hth₁, by rw [e], rfl, rfl⟩

/-- The switch of `schedule`, after the old thread was left. -/
theorem outcome_enter {s s₁ s' : System} {m : Addr → Option Thread} {now : Nat} {n : Addr}
    {context frame : IntFrame} (hm : OldLeft s now context m) (hm₁ : s₁.threads = m)
    (hpick : s.cfsPickNext = some (some n)) (hn : s.cpu.thread ≠ some (.thread n))
    (h : s₁.enter s.cpu.thread n context = some (s', frame)) :
    Outcome s now context s' { frame with registers.rsp := context.registers.rsp } := by
  unfold System.enter at h
  rw [if_neg hn] at h
  obtain ⟨th, hth, rfl, ht, hcpu⟩ := switchTo_threads h
  rw [hm₁] at hth ht
  exact .switch hm hn hth hpick hcpu ht rfl

/-- **What `schedule` does to the threads.** -/
theorem schedule_outcome {s s' : System} {now : Nat} {run : Addr} {context frame : IntFrame}
    (h : s.schedule now run context = some (s', frame)) : Outcome s now context s' frame := by
  obtain ⟨new, new', s₁, hpick, hleave, h⟩ := schedule_eq h
  rcases leaveOld_eq hleave with ⟨hc, rfl, rfl⟩ | ⟨old, th, hc, hth, hold⟩
  · have hm : OldLeft s now context s.threads := .none hc
    rcases h with ⟨rfl, hi⟩ | ⟨n, frame', rfl, he, -, rfl⟩
    · obtain ⟨rfl, -⟩ := Prod.mk.inj hi
      refine .idle hm (fun old th ho _ => ?_) hpick rfl rfl
      rcases hc with hc | hc <;> rw [hc] at ho <;> exact absurd ho (by simp)
    · refine outcome_enter hm ?_ hpick ?_ he
      · rfl
      intro hn
      rcases hc with hc | hc <;> rw [hc] at hn <;> exact absurd hn (by simp)
  rcases hold with ⟨hlive, rfl, rfl, rfl⟩ | ⟨hlive, n, s₂, s₃, rfl, rfl, h₂, h₃, h₄⟩ |
    ⟨hdead, rfl, hd⟩
  · -- nothing else is queued
    rcases h with ⟨habs, -⟩ | ⟨n, frame', hn, he, -, rfl⟩
    · exact absurd habs (by simp)
    obtain rfl := Option.some.inj hn
    unfold System.enter at he
    rw [if_pos hc] at he
    obtain ⟨rfl, rfl⟩ := Prod.mk.inj (Option.some.inj he)
    exact .stay hc hth hlive hpick hc rfl rfl
  · obtain ⟨ht, hcpu⟩ := preempt_threads hth h₂ h₃ h₄
    rcases h with ⟨habs, -⟩ | ⟨n', frame', hn, he, -, rfl⟩
    · exact absurd habs (by simp)
    obtain rfl := Option.some.inj hn
    by_cases hn : n = old
    · -- the old thread was in the queue itself
      subst hn
      unfold System.enter at he
      rw [if_pos hc] at he
      obtain ⟨rfl, rfl⟩ := Prod.mk.inj (Option.some.inj he)
      exact .again hc hth hlive hpick (by rw [hcpu, hc]) ht rfl
    · refine outcome_enter (.queued hc hth hlive) ht hpick ?_ he
      intro e
      rw [hc] at e
      exact hn (ThreadRef.thread.inj (Option.some.inj e)).symm
  · obtain ⟨ht, -⟩ := destroyThread_threads hd
    have hm : OldLeft s now context (Function.update s.threads old none) := .destroyed hc hth hdead
    rcases h with ⟨rfl, hi⟩ | ⟨n, frame', rfl, he, hlive, rfl⟩
    · obtain ⟨rfl, -⟩ := Prod.mk.inj hi
      refine .idle hm (fun u x hu hx => ?_) hpick rfl ht
      rw [hc] at hu
      obtain rfl := ThreadRef.thread.inj (Option.some.inj hu)
      obtain rfl := Option.some.inj (hth.symm.trans hx)
      exact hdead
    · refine outcome_enter hm ht hpick ?_ he
      intro hn
      -- the destroyed thread was picked: `get_timeslice` reads it
      unfold System.enter at he
      rw [if_pos hn] at he
      obtain ⟨rfl, -⟩ := Prod.mk.inj (Option.some.inj he)
      rw [hc] at hn
      obtain rfl := ThreadRef.thread.inj (Option.some.inj hn)
      rw [ht, Function.update_self] at hlive
      exact absurd hlive (by simp)

/-! ## What the other actions do to the threads -/

/-- **What the loop of `run_proc` does to the threads.** -/
theorem runThreads_threads : ∀ (ts : List Addr) (rs : List (Nat × Addr)) {s s' : System},
    s.runThreads ts rs = some s' → s'.cpu = s.cpu ∧ s'.clock = s.clock ∧
      (∀ t, t ∉ ts → s'.threads t = s.threads t) ∧
      (ts.Nodup → ∀ t ∈ ts, ∃ now th, now ∈ rs.map Prod.fst ∧ s.threads t = some th ∧
        s'.threads t = some (System.updateEntity now { th with execStartTime := 0 }))
  | [], rs, s, s', hs => by
    obtain rfl : s = s' := by simpa [System.runThreads] using hs
    exact ⟨rfl, rfl, fun _ _ => rfl, fun _ t ht => absurd ht List.not_mem_nil⟩
  | _ :: _, [], _, _, hs => by simp [System.runThreads] at hs
  | u :: ts, (now, run) :: rs, s, s', hs => by
    simp only [System.runThreads, Option.bind_eq_bind, Option.bind_eq_some_iff] at hs
    obtain ⟨s₁, hs₁, s₂, hs₂, hs⟩ := hs
    obtain ⟨th, hth, rfl⟩ := modifyThread_eq hs₁
    obtain ⟨th₂, hth₂, ht₂, hc₂, hk₂⟩ := cfsQueue_threads hs₂
    have e : th₂ = { th with execStartTime := 0 } := by simpa using hth₂.symm
    obtain ⟨hcpu, hclock, hout, hin⟩ := runThreads_threads ts rs hs
    have hother : ∀ t, t ≠ u → s₂.threads t = s.threads t := fun t htu => by
      rw [ht₂, Function.update_of_ne htu]
      exact Function.update_of_ne htu _ _
    refine ⟨hcpu.trans hc₂, hclock.trans hk₂, fun t ht => ?_, fun hnd t ht => ?_⟩
    · rw [List.mem_cons, not_or] at ht
      rw [hout t ht.2, hother t ht.1]
    rw [List.nodup_cons] at hnd
    rcases List.mem_cons.mp ht with rfl | ht
    · refine ⟨now, th, List.mem_cons_self, hth, ?_⟩
      rw [hout t hnd.1, ht₂, Function.update_self, e]
    · obtain ⟨now', th', hnow, hth', hs'⟩ := hin hnd.2 t ht
      have htu : t ≠ u := fun e => hnd.1 (e ▸ ht)
      exact ⟨now', th', List.mem_cons_of_mem _ hnow, by rw [← hother t htu]; exact hth', hs'⟩

section Spawn

variable {s s' : System} {p v : Addr} {root : Nat} {ts : List NewThread} {rs : List (Nat × Addr)}

/-- **What creating and running a process does to the threads.** -/
theorem spawn_threads (hv : Valid s (.spawn p v root ts rs))
    (h : step s (.spawn p v root ts rs) = some s') :
    s'.cpu.thread = s.cpu.thread ∧ s.clock ≤ s'.clock ∧
      (∀ t, t ∉ ts.map (·.addr) → s'.threads t = s.threads t) ∧
      ∀ nt ∈ ts, ∃ now ∈ rs.map Prod.fst, s'.threads nt.addr =
        some (System.updateEntity now { nt.init p with execStartTime := 0 }) := by
  simp only [step, Option.bind_eq_bind, Option.bind_eq_some_iff] at h
  obtain ⟨s₁, h₁, s₂, h₂, h⟩ := h
  obtain rfl := Option.some.inj h
  obtain ⟨vmm, cr3, rfl, -⟩ := createProcess_eq h₁
  simp only [System.runProc, Option.bind_eq_bind, Option.bind_eq_some_iff] at h₂
  obtain ⟨proc, hproc, h₂⟩ := h₂
  obtain rfl : proc = ⟨ts.map (·.addr), v⟩ := by simpa using hproc.symm
  obtain ⟨hcpu, hclock, hout, hin⟩ := runThreads_threads _ _ h₂
  obtain ⟨-, -, -, -, hnd, -, -, -, -, hle⟩ := hv
  refine ⟨by show s₂.cpu.thread = _; rw [hcpu], ?_, fun t ht => ?_, fun nt hnt => ?_⟩
  · show s.clock ≤ ((rs.map Prod.fst).getLast?).getD s₂.clock
    cases hl : (rs.map Prod.fst).getLast? with
    | none => exact hclock.ge
    | some now => exact (List.pairwise_cons.mp hle).1 now (List.mem_of_getLast? hl)
  · show s₂.threads t = _
    rw [hout t ht]
    exact addThreads_of_notMem ht
  · have hmem := List.mem_map_of_mem (f := fun nt : NewThread => nt.addr) hnt
    obtain ⟨now, th, hnow, hth, hs'⟩ := hin hnd nt.addr hmem
    obtain ⟨nt', hnt', ha, hadd⟩ := addThreads_of_mem (s := s) (p := p) hmem
    obtain rfl : nt' = nt := List.inj_on_of_nodup_map hnd hnt' hnt ha
    obtain rfl := Option.some.inj (hadd.symm.trans hth)
    exact ⟨now, hnow, hs'⟩

end Spawn

theorem die_threads {s s' : System} (h : s.die = some s') : ∃ t th,
    s.cpu.thread = some (.thread t) ∧ s.threads t = some th ∧ s'.cpu = s.cpu ∧
      s'.clock = s.clock ∧
      s'.threads = Function.update s.threads t (some { th with state := .dead }) := by
  unfold System.die at h
  split at h
  · rename_i t hc
    obtain ⟨th, hth, rfl⟩ := modifyThread_eq h
    exact ⟨t, th, hc, hth, rfl, rfl, rfl⟩
  · exact absurd h (by simp)

section Updates

variable {ι α β : Type*} [DecidableEq α] {key : ι → α} {val : ι → β} {l : List ι} {m : α → β}

/-- Updates at other keys. -/
theorem foldl_update_of_notMem {a : α} (h : a ∉ l.map key) :
    l.foldl (fun m i => Function.update m (key i) (val i)) m a = m a := by
  induction l generalizing m with
  | nil => rfl
  | cons i l ih =>
    rw [List.map_cons, List.mem_cons, not_or] at h
    rw [List.foldl_cons, ih h.2, Function.update_of_ne h.1]

theorem foldl_update_of_mem (hnd : (l.map key).Nodup) {i : ι} (h : i ∈ l) :
    l.foldl (fun m i => Function.update m (key i) (val i)) m (key i) = val i := by
  induction l generalizing m with
  | nil => exact absurd h List.not_mem_nil
  | cons j l ih =>
    rw [List.map_cons, List.nodup_cons] at hnd
    rw [List.foldl_cons]
    rcases List.mem_cons.mp h with rfl | h
    · rw [foldl_update_of_notMem hnd.1, Function.update_self]
    · exact ih hnd.2 h

end Updates

/-! ## The saved frames -/

/-- The frame each thread was last interrupted with, or was built with by `add_thread`, after an
action in the state `s`. -/
def interrupted (s : System) (last : Addr → IntFrame) : Action → Addr → IntFrame
  | .spawn p _ _ ts _ => ts.foldl (fun m nt => Function.update m nt.addr (nt.init p).context) last
  | .timer _ _ context =>
    match s.cpu.thread with
    | some (.thread t) => Function.update last t context
    | _ => last
  | .die => last

/-- A run that carries these frames along. -/
abbrev Traced (s₀ : System × (Addr → IntFrame)) : System × (Addr → IntFrame) → Prop :=
  Run (fun x a => (step x.1 a).map (·, interrupted x.1 x.2 a)) (fun x a => Valid x.1 a) s₀

/-- The saved frame of every thread that is not running is the one it was last interrupted with. -/
def Saved (s : System) (last : Addr → IntFrame) : Prop :=
  ∀ t th, s.threads t = some th → s.cpu.thread ≠ some (.thread t) → th.context = last t

theorem interrupted_timer {s : System} {last : Addr → IntFrame} {now : Nat} {run t : Addr}
    {context : IntFrame} (h : s.cpu.thread = some (.thread t)) :
    interrupted s last (.timer now run context) = Function.update last t context := by
  simp only [interrupted, h]

theorem interrupted_timer_idle {s : System} {last : Addr → IntFrame} {now : Nat} {run : Addr}
    {context : IntFrame} (h : s.cpu.thread = none ∨ s.cpu.thread = some .idle) :
    interrupted s last (.timer now run context) = last := by
  rcases h with h | h <;> simp only [interrupted, h]

/-- Leaving the old thread saves its frame. -/
theorem Saved.left {s : System} {last : Addr → IntFrame} {m : Addr → Option Thread} {now : Nat}
    {run : Addr} {context : IntFrame} (hs : Saved s last) (hm : OldLeft s now context m)
    {t : Addr} {th : Thread} (ht : m t = some th) :
    th.context = interrupted s last (.timer now run context) t := by
  cases hm with
  | none hc =>
    rw [interrupted_timer_idle hc]
    refine hs t th ht ?_
    rcases hc with hc | hc <;> rw [hc] <;> simp
  | @queued old th₀ hc hth _ =>
    rw [interrupted_timer hc]
    by_cases hto : t = old
    · subst hto
      rw [Function.update_self] at ht ⊢
      rw [← Option.some.inj ht]
      rfl
    · rw [Function.update_of_ne hto] at ht ⊢
      refine hs t th ht ?_
      rw [hc]
      simpa using Ne.symm hto
  | @destroyed old th₀ hc hth _ =>
    rw [interrupted_timer hc]
    by_cases hto : t = old
    · subst hto
      rw [Function.update_self] at ht
      exact absurd ht (by simp)
    · rw [Function.update_of_ne hto] at ht ⊢
      refine hs t th ht ?_
      rw [hc]
      simpa using Ne.symm hto

/-- **`schedule` loads the frame the thread was last interrupted with.** -/
theorem Saved.schedule {s s' : System} {last : Addr → IntFrame} {now : Nat} {run : Addr}
    {context frame : IntFrame} (hs : Saved s last)
    (h : s.schedule now run context = some (s', frame)) :
    Saved s' (interrupted s last (.timer now run context)) ∧
      ∀ t, s'.cpu.thread = some (.thread t) → frame =
        { interrupted s last (.timer now run context) t with
          registers.rsp := context.registers.rsp } := by
  cases schedule_outcome h with
  | @stay old th hc hth hlive _ hcpu ht hframe =>
    refine ⟨fun t x hx hne => ?_, fun t hcur => ?_⟩
    · rw [hcpu] at hne
      have hto : t ≠ old := fun e => hne (by rw [e])
      rw [interrupted_timer hc, Function.update_of_ne hto]
      refine hs t x (by rw [← ht]; exact hx) ?_
      rw [hc]
      exact hne
    · rw [hcpu] at hcur
      obtain rfl := ThreadRef.thread.inj (Option.some.inj hcur)
      rw [interrupted_timer hc, Function.update_self, hframe]
  | @again old th hc hth hlive _ hcpu ht hframe =>
    refine ⟨fun t x hx _ => hs.left (.queued hc hth hlive) (by rw [← ht]; exact hx),
      fun t hcur => ?_⟩
    rw [hcpu] at hcur
    obtain rfl := ThreadRef.thread.inj (Option.some.inj hcur)
    rw [interrupted_timer hc, Function.update_self, hframe]
  | @switch m n th hm hn hth _ hcpu ht hframe =>
    refine ⟨fun t x hx hne => ?_, fun t hcur => ?_⟩
    · rw [hcpu] at hne
      have htn : t ≠ n := fun e => hne (by rw [e])
      rw [ht, Function.update_of_ne htn] at hx
      exact hs.left hm hx
    · rw [hcpu] at hcur
      obtain rfl := ThreadRef.thread.inj (Option.some.inj hcur)
      have hsaved : th.context = interrupted s last (.timer now run context) n := hs.left hm hth
      rw [hframe, hsaved]
  | @idle m hm _ _ hcpu ht =>
    refine ⟨fun t x hx _ => hs.left hm (by rw [← ht]; exact hx), fun t hcur => ?_⟩
    rw [hcpu] at hcur
    exact absurd hcur (by simp)

theorem Saved.spawn {s s' : System} {last : Addr → IntFrame} {p v : Addr} {root : Nat}
    {ts : List NewThread} {rs : List (Nat × Addr)} (hs : Saved s last)
    (hv : Valid s (.spawn p v root ts rs)) (h : step s (.spawn p v root ts rs) = some s') :
    Saved s' (interrupted s last (.spawn p v root ts rs)) := by
  obtain ⟨hcpu, -, hout, hin⟩ := spawn_threads hv h
  intro t th ht hne
  by_cases hmem : t ∈ ts.map (·.addr)
  · obtain ⟨nt, hnt, rfl⟩ := List.mem_map.mp hmem
    obtain ⟨now, -, hthread⟩ := hin nt hnt
    rw [interrupted, foldl_update_of_mem hv.2.2.2.2.1 hnt]
    rw [hthread] at ht
    rw [← Option.some.inj ht, updateEntity_context]
  · rw [interrupted, foldl_update_of_notMem hmem]
    rw [hout t hmem] at ht
    exact hs t th ht (by rwa [← hcpu])

theorem Saved.die {s s' : System} {last : Addr → IntFrame} (hs : Saved s last)
    (h : s.die = some s') : Saved s' last := by
  obtain ⟨t, th, hc, -, hcpu, -, ht⟩ := die_threads h
  intro u x hx hne
  rw [hcpu, hc] at hne
  have hut : u ≠ t := fun e => hne (by rw [e])
  rw [ht, Function.update_of_ne hut] at hx
  exact hs u x hx (by rw [hc]; exact hne)

theorem Saved.step {s s' : System} {last : Addr → IntFrame} {a : Action} (hs : Saved s last)
    (hv : Valid s a) (h : step s a = some s') : Saved s' (interrupted s last a) := by
  cases a with
  | spawn p v root ts rs => exact hs.spawn hv h
  | timer now run context =>
    simp only [Scheduler.step, System.timer, Option.bind_eq_bind, Option.bind_eq_some_iff] at h
    obtain ⟨⟨s₁, frame⟩, h₁, h⟩ := h
    obtain rfl := Option.some.inj h
    exact (hs.schedule h₁).1
  | die => exact hs.die h

/-- **The saved frames, in every run.** -/
theorem Traced.saved {kernelRoot idleRip rsp0 : Nat} {regs : Registers} {last : Addr → IntFrame}
    {x : System × (Addr → IntFrame)}
    (h : Traced (.boot kernelRoot idleRip rsp0 regs, last) x) : Saved x.1 x.2 := by
  refine Run.invariant (fun x => Saved x.1 x.2) ?_ ?_ h
  · intro t th ht
    exact absurd ht (by simp [System.boot])
  · intro x a x' hs hv hstep
    obtain ⟨s', h', rfl⟩ := Option.map_eq_some_iff.mp hstep
    exact hs.step hv h'

/-! ## The shape of the queue -/

/-- The run queue is a tree. -/
def TreeOk (s : System) : Prop := ∃ T, Shaped s.cfs.tree T

theorem treeOk_cfsQueue {s s' : System} {t run : Addr} {now : Nat}
    (hs : s.cfsQueue t now run = some s') (h : TreeOk s) (hrun : s.cfs.tree.nodes run = none) :
    TreeOk s' ∧
      ∀ i, i ≠ run → s.cfs.tree.nodes i = none → s'.cfs.tree.nodes i = none := by
  obtain ⟨T, hT⟩ := h
  obtain ⟨s₁, tree, running, hs₁, -, htree, rfl⟩ := cfsQueue_eq hs
  obtain ⟨th, -, rfl⟩ := modifyThread_eq hs₁
  obtain ⟨tree', T', l, r, htree', hT', hl, hl', -⟩ := hT.insert (K := Nat) _ t hrun
  obtain rfl := Option.some.inj (htree'.symm.trans htree)
  refine ⟨⟨T', hT'⟩, fun i hi hn => ?_⟩
  rw [← Option.not_isSome_iff_eq_none, hT.owned, addrs, hl] at hn
  rw [← Option.not_isSome_iff_eq_none]
  show ¬ (tree'.nodes i).isSome
  rw [hT'.owned, addrs, hl']
  simp only [List.map_append, List.map_cons, List.mem_append, List.mem_cons] at hn ⊢
  tauto

theorem TreeOk.cfsDequeue {s s' : System} {t : Addr} (h : TreeOk s)
    (hs : s.cfsDequeue t = some s') : TreeOk s' := by
  obtain ⟨T, hT⟩ := h
  obtain ⟨tree, running, -, htree, rfl⟩ := cfsDequeue_eq hs
  rcases hT.remove s.entityKey t with ⟨-, h'⟩ | ⟨-, tree', T', A, B, h', hT', -⟩
  · obtain rfl := Option.some.inj (h'.symm.trans htree)
    exact ⟨T, hT⟩
  · obtain rfl := Option.some.inj (h'.symm.trans htree)
    exact ⟨T', hT'⟩

theorem treeOk_runThreads : ∀ (ts : List Addr) (rs : List (Nat × Addr)) {s s' : System},
    s.runThreads ts rs = some s' → TreeOk s → (rs.map Prod.snd).Nodup →
    (∀ r ∈ rs, s.cfs.tree.nodes r.2 = none) → TreeOk s'
  | [], rs, s, s', hs, h, _, _ => by
    obtain rfl : s = s' := by simpa [System.runThreads] using hs
    exact h
  | _ :: _, [], _, _, hs, _, _, _ => by simp [System.runThreads] at hs
  | t :: ts, (now, run) :: rs, s, s', hs, h, hrs, hfresh => by
    simp only [System.runThreads, Option.bind_eq_bind, Option.bind_eq_some_iff] at hs
    obtain ⟨s₁, hs₁, s₂, hs₂, hs⟩ := hs
    obtain ⟨th, -, rfl⟩ := modifyThread_eq hs₁
    rw [List.map_cons, List.nodup_cons] at hrs
    obtain ⟨h₂, hn₂⟩ := treeOk_cfsQueue hs₂ h (hfresh (now, run) List.mem_cons_self)
    refine treeOk_runThreads ts rs hs h₂ hrs.2 (fun x hx => ?_)
    exact hn₂ x.2 (fun e => hrs.1 (List.mem_map.mpr ⟨x, hx, e⟩))
      (hfresh x (List.mem_cons_of_mem _ hx))

theorem TreeOk.leaveOld {s s' : System} {now : Nat} {run : Addr} {context : IntFrame}
    {new new' : Ptr} (h : TreeOk s) (hrun : s.cfs.tree.nodes run = none)
    (hs : s.leaveOld now run context new = some (s', new')) : TreeOk s' := by
  rcases leaveOld_eq hs with ⟨-, -, rfl⟩ | ⟨old, th, -, -, ⟨-, -, -, rfl⟩ |
    ⟨-, n, s₁, s₂, -, -, h₁, h₂, h₃⟩ | ⟨-, -, hd⟩⟩
  · exact h
  · exact h
  · obtain ⟨x, -, rfl⟩ := modifyThread_eq h₁
    have hq := (treeOk_cfsQueue h₂ h hrun).1
    obtain ⟨y, -, rfl⟩ := modifyThread_eq h₃
    exact hq
  · obtain ⟨x, proc, root, -, -, -, ⟨-, rfl⟩ | ⟨-, rfl⟩⟩ := destroyThread_eq hd <;> exact h

theorem TreeOk.enter {s s' : System} {old : Option ThreadRef} {n : Addr} {context frame : IntFrame}
    (h : TreeOk s) (hs : s.enter old n context = some (s', frame)) : TreeOk s' := by
  unfold System.enter at hs
  split at hs
  · obtain ⟨rfl, -⟩ := Prod.mk.inj (Option.some.inj hs)
    exact h
  · obtain ⟨s₁, s₂, th, proc, root, h₁, h₂, -, -, -, -, rfl⟩ := switchTo_eq hs
    have hd := h.cfsDequeue h₁
    obtain ⟨x, -, rfl⟩ := modifyThread_eq h₂
    exact hd

theorem TreeOk.step {s s' : System} {a : Action} (h : TreeOk s) (hv : Valid s a)
    (hs : step s a = some s') : TreeOk s' := by
  cases a with
  | spawn p v root ts rs =>
    simp only [Scheduler.step, Option.bind_eq_bind, Option.bind_eq_some_iff] at hs
    obtain ⟨s₁, h₁, s₂, h₂, hs⟩ := hs
    obtain rfl := Option.some.inj hs
    obtain ⟨vmm, cr3, rfl, -⟩ := createProcess_eq h₁
    simp only [System.runProc, Option.bind_eq_bind, Option.bind_eq_some_iff] at h₂
    obtain ⟨proc, -, h₂⟩ := h₂
    obtain ⟨-, -, -, -, -, -, -, hnd, hfresh, -⟩ := hv
    have hrun := treeOk_runThreads _ _ h₂ h hnd fun r hr => (hfresh r hr).1
    exact hrun
  | timer now run context =>
    simp only [Scheduler.step, System.timer, Option.bind_eq_bind, Option.bind_eq_some_iff] at hs
    obtain ⟨⟨s₁, frame⟩, h₁, hs⟩ := hs
    obtain rfl := Option.some.inj hs
    obtain ⟨new, new', s₂, -, hleave, hrest⟩ := schedule_eq h₁
    have h₂ := h.leaveOld hv.2.1.1 hleave
    rcases hrest with ⟨-, hi⟩ | ⟨n, frame', -, he, -, -⟩
    · obtain ⟨rfl, -⟩ := Prod.mk.inj hi
      exact h₂
    · have henter := h₂.enter he
      exact henter
  | die =>
    change s.die = some s' at hs
    unfold System.die at hs
    split at hs
    · obtain ⟨th, -, rfl⟩ := modifyThread_eq hs
      exact h
    · exact absurd hs (by simp)

theorem Traced.treeOk {kernelRoot idleRip rsp0 : Nat} {regs : Registers} {last : Addr → IntFrame}
    {x : System × (Addr → IntFrame)}
    (h : Traced (.boot kernelRoot idleRip rsp0 regs, last) x) : TreeOk x.1 := by
  refine Run.invariant (fun x => TreeOk x.1) ?_ ?_ h
  · exact ⟨.nil, (Queue.empty (K := Nat) fun _ => 0).toShaped⟩
  · intro x a x' hs hv hstep
    obtain ⟨s', h', rfl⟩ := Option.map_eq_some_iff.mp hstep
    exact hs.step hv h'

/-- What `cfs_pick_next` returns when no thread but `t` is queued. -/
theorem TreeOk.pick {s : System} {t : Addr} (h : TreeOk s)
    (ht : ∀ u, Queued s.cfs.tree u → u = t) :
    s.cfsPickNext = some none ∨ s.cfsPickNext = some (some t) := by
  obtain ⟨T, hT⟩ := h
  rw [cfsPickNext_eq hT]
  cases hl : entities T with
  | nil => exact .inl rfl
  | cons u l =>
    refine .inr ?_
    rw [ht u ⟨T, hT.holds, by rw [hl]; exact List.mem_cons_self⟩]
    rfl

/-- **Threads resume where they were interrupted.** In every run, whenever `schedule` returns with a
thread current, the frame it leaves is the one this thread was last interrupted with, or the one
`add_thread` built, except for `registers.rsp`, which is that of the frame `schedule` was called on.
And when no other thread is queued, a running thread goes on with its frame unchanged. -/
theorem schedule_resumes {kernelRoot idleRip rsp0 : Nat} {regs : Registers}
    {last₀ last : Addr → IntFrame} {s s' : System} {now : Nat} {run : Addr}
    {context frame : IntFrame}
    (hrun : Traced (.boot kernelRoot idleRip rsp0 regs, last₀) (s, last))
    (h : s.schedule now run context = some (s', frame)) :
    (∀ t, s'.cpu.thread = some (.thread t) → frame =
      { interrupted s last (.timer now run context) t with
        registers.rsp := context.registers.rsp }) ∧
    ∀ t th, s.cpu.thread = some (.thread t) → s.threads t = some th → th.state ≠ .dead →
      (∀ u, Queued s.cfs.tree u → u = t) → s'.cpu.thread = some (.thread t) ∧ frame = context := by
  refine ⟨(hrun.saved.schedule h).2, ?_⟩
  intro t th ht hth hlive hq
  have hpick := hrun.treeOk.pick hq
  cases schedule_outcome h with
  | @stay old _ hc _ _ _ hcpu _ hframe =>
    rw [hcpu, ← hc]
    exact ⟨ht, hframe⟩
  | @again old _ hc _ _ _ hcpu _ hframe =>
    rw [hcpu, ← hc]
    exact ⟨ht, hframe⟩
  | @switch m n _ _ hn _ hp =>
    rcases hpick with hpick | hpick <;> rw [hp] at hpick
    · exact absurd hpick (by simp)
    · obtain rfl := Option.some.inj (Option.some.inj hpick)
      exact absurd ht hn
  | @idle m _ hdead => exact absurd (hdead t th ht hth) hlive

/-- The frame of a thread that was interrupted at `rip`, with the stack pointer `rsp` in the saved
registers. -/
def frameAt (rip rsp : Nat) : IntFrame := ⟨⟨rsp, 9⟩, rip, userCs, 0x202, 0, userSs⟩

def resumed : System := (step pair₁ (.timer 1 50 (frameAt 0x44 1))).get rfl

/-- Two threads take turns: the first one gets back the frame it was interrupted with. -/
theorem schedule_resumes_pair : ∃ s' frame,
    resumed.schedule 2 60 (frameAt 0x88 2) = some (s', frame) ∧
    s'.cpu.thread = some (.thread 100) ∧ frame = frameAt 0x44 2 := by
  have hrun : ∃ last, Traced (tied₀, fun _ => kernelFrame) (resumed, last) ∧
      last 100 = frameAt 0x44 1 := by
    refine ⟨_, .step (.timer 1 50 (frameAt 0x44 1)) (.step (.timer 0 40 kernelFrame)
      (.step (spawnOne 2) (.step (spawnOne 1) .init ?_ rfl) ?_ rfl) ?_ rfl) ?_ rfl, rfl⟩
    · exact valid_spawnOne rfl rfl (by decide) (fun w => nofun) rfl ⟨rfl, by decide, by decide⟩ rfl
    · refine valid_spawnOne rfl rfl (by decide) (fun w => ?_) rfl ⟨rfl, by decide, by decide⟩ rfl
      show Function.update (fun _ => none) 11 (some 0x1000) w ≠ _
      simp only [Function.update_apply]
      split_ifs <;> simp
    · exact ⟨le_refl 0, ⟨rfl, by decide, by decide⟩, rfl, rfl⟩
    · exact ⟨Nat.zero_le 1, ⟨rfl, by decide, by decide⟩, rfl, rfl⟩
  obtain ⟨last, hrun, hlast⟩ := hrun
  have hs : ∃ x, resumed.schedule 2 60 (frameAt 0x88 2) = some x ∧
      x.1.cpu.thread = some (.thread 100) := ⟨_, rfl, rfl⟩
  obtain ⟨⟨s', frame⟩, hs, hcpu⟩ := hs
  refine ⟨s', frame, hs, hcpu, ?_⟩
  have hcur : resumed.cpu.thread = some (.thread 200) := rfl
  rw [(schedule_resumes hrun hs).1 100 hcpu, interrupted_timer hcur, Function.update_of_ne (by decide),
    hlast]
  rfl

end Colibri.Scheduler
