import Colibri.Scheduler.RunQueue

/-!
# What `schedule` returns to

When `schedule` has returned from a timer interrupt, the processor runs on the page table in `CR3` and
on the interrupt frame that it left. `SwitchOk` says that the table is the kernel's or that of a live
vmm, and that the frame's selectors are those of what is now current. Whether `schedule` returns is not
decided here: `destroy_thread` frees more than this model has.

`Sound` is what the scheduler's memory keeps, whether or not `rb_remove` finds the threads it is
asked for: the queue holds live threads only, every live thread belongs to a live process, and every
saved frame has user selectors. **`switch_sound`** needs of a run only that no thread dies with an
empty queue or while it is still queued.
-/

namespace Colibri.Scheduler

open Colibri.Lib Colibri.Lib.ColorTree

/-- The selectors `add_thread` gives to a thread. -/
def IntFrame.User (f : IntFrame) : Prop := f.iretCs = userCs ∧ f.iretSs = userSs

/-- The selectors of the kernel's own code. -/
def IntFrame.Kernel (f : IntFrame) : Prop := f.iretCs = kernelCs ∧ f.iretSs = kernelSs

/-- **The loaded page table is the kernel's or that of a vmm that has not been destroyed, and the
frame that is returned to has the selectors of the current thread.** -/
structure SwitchOk (s : System) : Prop where
  cr3 : s.cpu.cr3 = s.kernelRoot ∨ ∃ v, s.vmms v = some s.cpu.cr3
  frame : match s.cpu.thread with
    | some (.thread _) => s.cpu.frame.User
    | _ => s.cpu.frame.Kernel

/-- What the scheduler's memory keeps. -/
structure Sound (s : System) (T : NTree Addr) : Prop where
  shaped : Shaped s.cfs.tree T
  queued : ∀ t ∈ entities T, (s.threads t).isSome
  owned : ∀ {t th}, s.threads t = some th → ∃ proc, s.procs th.proc = some proc ∧ t ∈ proc.threads
  vmm : ∀ {p proc}, s.procs p = some proc → (s.vmms proc.vmm).isSome
  apart : ∀ {p q a b}, s.procs p = some a → s.procs q = some b → a.vmm = b.vmm → p = q
  user : ∀ {t th}, s.threads t = some th → th.context.User

/-- `s'` differs from `s` in the fields of live threads and in the run queue only. -/
structure SameOwners (s s' : System) : Prop where
  cpu : s'.cpu = s.cpu
  procs : s'.procs = s.procs
  vmms : s'.vmms = s.vmms
  kernelRoot : s'.kernelRoot = s.kernelRoot
  live : ∀ u, (s'.threads u).isSome = (s.threads u).isSome

theorem SameOwners.trans {s s' s'' : System} (h : SameOwners s s') (h' : SameOwners s' s'') :
    SameOwners s s'' :=
  ⟨h'.cpu.trans h.cpu, h'.procs.trans h.procs, h'.vmms.trans h.vmms,
    h'.kernelRoot.trans h.kernelRoot, fun u => (h'.live u).trans (h.live u)⟩

/-! ## The parts of `schedule` and `run_proc` -/

/-- `Sound` does not depend on the processor. -/
theorem Sound.congr {s s' : System} {T : NTree Addr} (h : Sound s T) (ht : s'.threads = s.threads)
    (hp : s'.procs = s.procs) (hv : s'.vmms = s.vmms) (hc : s'.cfs = s.cfs) : Sound s' T := by
  obtain ⟨h₁, h₂, h₃, h₄, h₅, h₆⟩ := h
  exact ⟨hc ▸ h₁, ht ▸ h₂, by rw [ht, hp]; exact h₃, by rw [hp, hv]; exact h₄,
    by rw [hp]; exact h₅, by rw [ht]; exact h₆⟩

/-- Another tree of live threads. -/
theorem Sound.setCfs {s : System} {T T' : NTree Addr} (h : Sound s T) {c : Cfs}
    (hs : Shaped c.tree T') (hq : ∀ t ∈ entities T', (s.threads t).isSome) :
    Sound { s with cfs := c } T' :=
  ⟨hs, hq, h.owned, h.vmm, h.apart, h.user⟩

/-- A write to a live thread that keeps its process and a user frame. -/
theorem Sound.modify {s : System} {T : NTree Addr} {t : Addr} {f : Thread → Thread}
    (h : Sound s T) (ht : (s.threads t).isSome) (hp : ∀ th, (f th).proc = th.proc)
    (hf : ∀ th, th.context.User → (f th).context.User) :
    ∃ s', s.modifyThread t f = some s' ∧ Sound s' T ∧ SameOwners s s' ∧ s'.cfs = s.cfs := by
  obtain ⟨th, hth⟩ := Option.isSome_iff_exists.mp ht
  let m : Addr → Option Thread := Function.update s.threads t (some (f th))
  have hcases : ∀ {u x}, m u = some x → s.threads u = some x ∨ (u = t ∧ x = f th) := by
    intro u x hx
    by_cases hut : u = t
    · subst hut
      exact .inr ⟨rfl, by simpa [m] using hx.symm⟩
    · exact .inl (by rwa [← Function.update_of_ne hut (some (f th)) s.threads])
  have hsome : ∀ u, (m u).isSome = (s.threads u).isSome := by
    intro u
    by_cases hut : u = t
    · subst hut
      simp [m, hth]
    · simp only [m, Function.update_of_ne hut]
  refine ⟨{ s with threads := m }, by rw [System.modifyThread, hth]; rfl,
    ⟨h.shaped, fun u hu => ?_, fun hx => ?_, h.vmm, h.apart, fun hx => ?_⟩,
    ⟨rfl, rfl, rfl, rfl, hsome⟩, rfl⟩
  · exact (hsome u).trans (h.queued u hu)
  · rcases hcases hx with hx | ⟨rfl, rfl⟩
    · exact h.owned hx
    · rw [hp]
      exact h.owned hth
  · rcases hcases hx with hx | ⟨rfl, rfl⟩
    · exact h.user hx
    · exact hf th (h.user hth)

/-- **`cfs_queue`** of a live thread, whether it is queued already or not. -/
theorem Sound.cfsQueue {s : System} {T : NTree Addr} {t : Addr} (h : Sound s T)
    (ht : (s.threads t).isSome) (now : Nat) {run : Addr} (hrun : s.cfs.tree.nodes run = none) :
    ∃ s' T', s.cfsQueue t now run = some s' ∧ Sound s' T' ∧ SameOwners s s' ∧
      (∀ u ∈ entities T, u ∈ entities T') ∧ ∀ i ≠ run, s.cfs.tree.nodes i = none →
        s'.cfs.tree.nodes i = none := by
  obtain ⟨s₁, hs₁, h₁, ho₁, hc₁⟩ := h.modify ht (updateEntity_proc now) fun th hu => by
    rw [updateEntity_context]
    exact hu
  rw [← hc₁] at hrun
  obtain ⟨tree, T', l, r, htree, hT', hl, hl', -⟩ := h₁.shaped.insert s₁.entityKey t hrun
  have hents : ∀ u, u ∈ entities T' ↔ u ∈ entities T ∨ u = t := by
    intro u
    simp only [entities, hl, hl', List.map_append, List.map_cons, List.mem_append, List.mem_cons]
    tauto
  obtain ⟨running, hs⟩ := cfsQueue_some hs₁ htree
  refine ⟨_, T', hs, h₁.setCfs hT' fun u hu => ?_,
    ⟨ho₁.cpu, ho₁.procs, ho₁.vmms, ho₁.kernelRoot, ho₁.live⟩, fun u hu => (hents u).mpr (.inl hu),
    fun i hi hn => ?_⟩
  · rcases (hents u).mp hu with hu | rfl
    · exact h₁.queued u hu
    · rw [ho₁.live]
      exact ht
  · rw [← hc₁, ← Option.not_isSome_iff_eq_none, h₁.shaped.owned] at hn
    rw [← Option.not_isSome_iff_eq_none]
    show ¬ (tree.nodes i).isSome
    rw [hT'.owned]
    simp only [addrs, hl, hl', List.map_append, List.map_cons, List.mem_append,
      List.mem_cons] at hn ⊢
    tauto

/-- **`cfs_dequeue`**, whether it finds the thread or not. -/
theorem Sound.cfsDequeue {s : System} {T : NTree Addr} (h : Sound s T) (t : Addr) :
    ∃ s' T', s.cfsDequeue t = some s' ∧ Sound s' T' ∧ SameOwners s s' := by
  obtain ⟨tree, T', htree, hT', hsub⟩ : ∃ tree T', s.cfs.tree.rbRemove s.entityKey t = some tree ∧
      Shaped tree T' ∧ entities T' ⊆ entities T := by
    rcases h.shaped.remove s.entityKey t with ⟨-, htree⟩ |
      ⟨-, tree, T', A, B, htree, hT', hents, hents', -⟩
    · exact ⟨_, T, htree, h.shaped, fun _ hu => hu⟩
    · refine ⟨tree, T', htree, hT', ?_⟩
      rw [hents, hents']
      exact ((List.Sublist.refl A).append (List.sublist_cons_self t B)).subset
  obtain ⟨running, hs⟩ := cfsDequeue_some htree
  exact ⟨_, T', hs, h.setCfs hT' fun u hu => h.queued u (hsub hu),
    ⟨rfl, rfl, rfl, rfl, fun _ => rfl⟩⟩

/-- **`destroy_thread`** of a live thread that is not queued. A process goes with its last thread
only, so the threads that live on keep theirs. -/
theorem Sound.destroyThread {s : System} {T : NTree Addr} {t : Addr} (h : Sound s T)
    (ht : (s.threads t).isSome) (hq : t ∉ entities T) :
    ∃ s', s.destroyThread t = some s' ∧ Sound s' T ∧ s'.cpu = s.cpu ∧
      s'.kernelRoot = s.kernelRoot := by
  obtain ⟨th, hth⟩ := Option.isSome_iff_exists.mp ht
  obtain ⟨proc, hproc, htm⟩ := h.owned hth
  obtain ⟨root, hroot⟩ := Option.isSome_iff_exists.mp (h.vmm hproc)
  obtain ⟨s', hs⟩ : ∃ s', s.destroyThread t = some s' := by
    simp only [System.destroyThread, hth, hproc, hroot, Option.bind_eq_bind, Option.bind_some]
    split
    · simp [System.destroyProcess, hroot]
    · exact ⟨_, rfl⟩
  refine ⟨s', hs, ?_⟩
  obtain ⟨_, _, _, h₁, h₂, h₃, hcase⟩ := destroyThread_eq hs
  obtain rfl := Option.some.inj (hth.symm.trans h₁)
  obtain rfl := Option.some.inj (hproc.symm.trans h₂)
  -- a thread that lives on is not `t`, and if its process is that of `t` it is still in the array
  have hlive : ∀ {u x}, Function.update s.threads t none u = some x → u ≠ t ∧ s.threads u = some x := by
    intro u x hx
    by_cases hut : u = t
    · simp [hut] at hx
    · exact ⟨hut, by rwa [Function.update_of_ne hut] at hx⟩
  have hmem : ∀ {u x}, Function.update s.threads t none u = some x → x.proc = th.proc →
      u ∈ proc.threads.erase t := by
    intro u x hx hp
    obtain ⟨hut, hx⟩ := hlive hx
    obtain ⟨proc', hproc', hu⟩ := h.owned hx
    rw [hp, hproc] at hproc'
    obtain rfl := Option.some.inj hproc'
    exact (List.mem_erase_of_ne hut).mpr hu
  have hqueued : ∀ u ∈ entities T, (Function.update s.threads t none u).isSome := by
    intro u hu
    have hut : u ≠ t := fun e => hq (e ▸ hu)
    rw [Function.update_of_ne hut]
    exact h.queued u hu
  have huser : ∀ {u x}, Function.update s.threads t none u = some x → x.context.User :=
    fun hx => h.user (hlive hx).2
  rcases hcase with ⟨hne, rfl⟩ | ⟨hnil, rfl⟩
  · -- the process stays, with one thread less
    have hp' : ∀ {p a}, Function.update s.procs th.proc
        (some { proc with threads := proc.threads.erase t }) p = some a →
        ∃ b, s.procs p = some b ∧ a.vmm = b.vmm := by
      intro p a ha
      by_cases hp : p = th.proc
      · subst hp
        rw [Function.update_self] at ha
        exact ⟨proc, hproc, by rw [← Option.some.inj ha]⟩
      · rw [Function.update_of_ne hp] at ha
        exact ⟨a, ha, rfl⟩
    refine ⟨⟨h.shaped, hqueued, fun {u x} hx => ?_, fun {p a} ha => ?_, fun {p q a b} ha hb hab => ?_,
      huser⟩, rfl, rfl⟩
    · by_cases hp : x.proc = th.proc
      · exact ⟨_, by rw [hp]; exact Function.update_self _ _ _, hmem hx hp⟩
      · obtain ⟨proc', hproc', hu⟩ := h.owned (hlive hx).2
        exact ⟨proc', by rw [← hproc']; exact Function.update_of_ne hp _ _, hu⟩
    · obtain ⟨b, hb, hab⟩ := hp' ha
      rw [hab]
      exact h.vmm hb
    · obtain ⟨a', ha', haa⟩ := hp' ha
      obtain ⟨b', hb', hbb⟩ := hp' hb
      exact h.apart ha' hb' (by rw [← haa, ← hbb, hab])
  · -- the process goes; every thread that lives on belongs to another one, with another vmm
    have hp' : ∀ {p a}, Function.update s.procs th.proc none p = some a →
        p ≠ th.proc ∧ s.procs p = some a := by
      intro p a ha
      by_cases hp : p = th.proc
      · simp [hp] at ha
      · exact ⟨hp, by rwa [Function.update_of_ne hp] at ha⟩
    refine ⟨⟨h.shaped, hqueued, fun {u x} hx => ?_, fun {p a} ha => ?_, fun {p q a b} ha hb hab => ?_,
      huser⟩, rfl, rfl⟩
    · have hp : x.proc ≠ th.proc := fun hp => by
        have := hmem hx hp
        simp [hnil] at this
      obtain ⟨proc', hproc', hu⟩ := h.owned (hlive hx).2
      exact ⟨proc', by rw [← hproc']; exact Function.update_of_ne hp _ _, hu⟩
    · obtain ⟨hp, ha⟩ := hp' ha
      have hv : a.vmm ≠ proc.vmm := fun e => hp (h.apart ha hproc e)
      show (Function.update s.vmms proc.vmm none a.vmm).isSome
      rw [Function.update_of_ne hv]
      exact h.vmm ha
    · exact h.apart (hp' ha).2 (hp' hb).2 hab

/-- **A switch to a live thread** loads the table of a live vmm and a user frame. -/
theorem Sound.switchTo {s : System} {T : NTree Addr} {n : Addr} (h : Sound s T)
    (hn : (s.threads n).isSome) :
    ∃ s' T' frame, s.switchTo n = some (s', frame) ∧ Sound s' T' ∧ (s'.threads n).isSome ∧
      s'.kernelRoot = s.kernelRoot ∧ s'.cpu.thread = some (.thread n) ∧ frame.User ∧
      ∃ v, s'.vmms v = some s'.cpu.cr3 := by
  obtain ⟨s₁, T', hs₁, h₁, ho₁⟩ := h.cfsDequeue n
  obtain ⟨s₂, hs₂, h₂, ho₂, -⟩ := h₁.modify (f := fun th => { th with state := .active }) (t := n)
    (by rw [ho₁.live]; exact hn) (fun _ => rfl) fun _ hu => hu
  have hn₂ : (s₂.threads n).isSome := by rw [ho₂.live, ho₁.live]; exact hn
  obtain ⟨th, hth⟩ := Option.isSome_iff_exists.mp hn₂
  obtain ⟨proc, hproc, -⟩ := h₂.owned hth
  obtain ⟨root, hroot⟩ := Option.isSome_iff_exists.mp (h₂.vmm hproc)
  let s₃ : System := { s₂ with cpu := { s₂.cpu with
    thread := some (.thread n), vmm := some (.user proc.vmm), cr3 := root } }
  refine ⟨s₃, T', th.context, ?_, h₂.congr rfl rfl rfl rfl, hn₂, ?_, rfl, h₂.user hth, proc.vmm, hroot⟩
  · simp [System.switchTo, hs₁, hs₂, hth, hproc, System.changeCurrentVmm, hroot, s₃]
  · exact ho₂.kernelRoot.trans ho₁.kernelRoot

/-- `create_process` gives the new threads a process and a vmm of their own. -/
theorem Sound.create {s s' : System} {T : NTree Addr} {p v : Addr} {root : Nat}
    {ts : List NewThread} (h : Sound s T) (hp : s.procs p = none) (hv : s.vmms v = none)
    (hfresh : ∀ nt ∈ ts, s.threads nt.addr = none)
    (hs : s.createProcess p v root ts = some s') :
    Sound s' T ∧ s'.kernelRoot = s.kernelRoot ∧ s'.cpu.thread = s.cpu.thread ∧
      s'.cpu.frame = s.cpu.frame ∧ s'.cfs = s.cfs ∧ (∃ w, s'.vmms w = some s'.cpu.cr3) ∧
      (∀ u, (s.threads u).isSome → (s'.threads u).isSome) ∧
      s'.procs p = some ⟨ts.map (·.addr), v⟩ ∧
      ∀ u ∈ ts.map (·.addr), (s'.threads u).isSome := by
  obtain ⟨vmm, cr3, rfl, hcr3⟩ := createProcess_eq hs
  have hold : ∀ {u}, (s.threads u).isSome → u ∉ ts.map (·.addr) := by
    intro u hu hm
    obtain ⟨nt, hnt, rfl⟩ := List.mem_map.mp hm
    simp [hfresh nt hnt] at hu
  have hth : ∀ {u x}, (s.addThreads p ts).threads u = some x →
      s.threads u = some x ∨ (u ∈ ts.map (·.addr) ∧ ∃ nt, x = NewThread.init nt p) := by
    intro u x hx
    by_cases hm : u ∈ ts.map (·.addr)
    · obtain ⟨nt, -, -, he⟩ := addThreads_of_mem (s := s) (p := p) hm
      exact .inr ⟨hm, nt, Option.some.inj (hx.symm.trans he)⟩
    · exact .inl (by rwa [addThreads_of_notMem hm] at hx)
  have hne : ∀ {q a}, s.procs q = some a → q ≠ p ∧ a.vmm ≠ v := by
    intro q a ha
    refine ⟨fun e => by simp [e, hp] at ha, fun e => ?_⟩
    have := h.vmm ha
    simp [e, hv] at this
  have hpr : ∀ {q a}, Function.update s.procs p (some ⟨ts.map (·.addr), v⟩) q = some a →
      s.procs q = some a ∨ (q = p ∧ a.vmm = v) := by
    intro q a ha
    by_cases hq : q = p
    · subst hq
      rw [Function.update_self] at ha
      exact .inr ⟨rfl, by rw [← Option.some.inj ha]⟩
    · exact .inl (by rwa [Function.update_of_ne hq] at ha)
  refine ⟨⟨h.shaped, fun u hu => ?_, fun {u x} hx => ?_, fun {q a} ha => ?_,
    fun {q r a b} ha hb hab => ?_, fun {u x} hx => ?_⟩, rfl, rfl, rfl, rfl, ?_, fun u hu => ?_,
    Function.update_self _ _ _, fun u hu => ?_⟩
  · rw [addThreads_of_notMem (hold (h.queued u hu))]
    exact h.queued u hu
  · rcases hth hx with hx | ⟨hm, nt, rfl⟩
    · obtain ⟨proc, hproc, hu⟩ := h.owned hx
      exact ⟨proc, by rw [← hproc]; exact Function.update_of_ne (hne hproc).1 _ _, hu⟩
    · exact ⟨_, Function.update_self _ _ _, hm⟩
  · rcases hpr ha with ha | ⟨-, he⟩
    · show (Function.update s.vmms v (some root) a.vmm).isSome
      rw [Function.update_of_ne (hne ha).2]
      exact h.vmm ha
    · rw [he]
      simp
  · rcases hpr ha with ha' | ⟨hq, hav⟩
    · rcases hpr hb with hb' | ⟨-, hbv⟩
      · exact h.apart ha' hb' hab
      · exact absurd (hab.trans hbv) (hne ha').2
    · rcases hpr hb with hb' | ⟨hr, -⟩
      · exact absurd (hab.symm.trans hav) (hne hb').2
      · rw [hq, hr]
  · rcases hth hx with hx | ⟨-, nt, rfl⟩
    · exact h.user hx
    · exact ⟨rfl, rfl⟩
  · rcases hcr3 with rfl | ⟨a, -, ha⟩
    · exact ⟨v, Function.update_self _ _ _⟩
    · exact ⟨a, ha⟩
  · rw [addThreads_of_notMem (hold hu)]
    exact hu
  · obtain ⟨nt, -, -, he⟩ := addThreads_of_mem (s := s) (p := p) hu
    rw [he]
    rfl

/-- **The loop of `run_proc`** on live threads. -/
theorem Sound.runThreads : ∀ (ts : List Addr) (rs : List (Nat × Addr)) {s s' : System}
    {T : NTree Addr}, Sound s T → (∀ t ∈ ts, (s.threads t).isSome) →
    (rs.map Prod.snd).Nodup → (∀ r ∈ rs, s.cfs.tree.nodes r.2 = none) →
    s.runThreads ts rs = some s' → ∃ T', Sound s' T' ∧ SameOwners s s'
  | [], rs, s, s', T, h, _, _, _, hs => by
    obtain rfl : s = s' := by simpa [System.runThreads] using hs
    exact ⟨T, h, rfl, rfl, rfl, rfl, fun _ => rfl⟩
  | _ :: _, [], _, _, _, _, _, _, _, hs => by simp [System.runThreads] at hs
  | t :: ts, (now, run) :: rs, s, s', T, h, hts, hrs, hfresh, hs => by
    simp only [System.runThreads, Option.bind_eq_bind, Option.bind_eq_some_iff] at hs
    obtain ⟨s₁, hs₁, s₂, hs₂, hs⟩ := hs
    rw [List.map_cons, List.nodup_cons] at hrs
    obtain ⟨s₁', hs₁', h₁, ho₁, hc₁⟩ := h.modify (t := t)
      (f := fun th => { th with execStartTime := 0 }) (hts t List.mem_cons_self) (fun _ => rfl)
      fun _ hu => hu
    obtain rfl := Option.some.inj (hs₁.symm.trans hs₁')
    obtain ⟨s₂', T₂, hs₂', h₂, ho₂, -, hn₂⟩ := h₁.cfsQueue (t := t)
      (by rw [ho₁.live]; exact hts t List.mem_cons_self) now
      (by rw [hc₁]; exact hfresh (now, run) List.mem_cons_self)
    obtain rfl := Option.some.inj (hs₂.symm.trans hs₂')
    obtain ⟨T', h', ho'⟩ := Sound.runThreads ts rs h₂
      (fun u hu => by rw [ho₂.live, ho₁.live]; exact hts u (List.mem_cons_of_mem _ hu)) hrs.2
      (fun x hx => hn₂ x.2 (fun e => hrs.1 (List.mem_map.mpr ⟨x, hx, e⟩))
        (by rw [hc₁]; exact hfresh x (List.mem_cons_of_mem _ hx))) hs
    exact ⟨T', h', (ho₁.trans ho₂).trans ho'⟩

/-! ## Runs -/

/-- A thread that `schedule` finds `DEAD` leaves a queue that is not empty and does not hold it. -/
def DeathMeets (s : System) : Action → Prop
  | .timer .. => ∀ t th, s.cpu.thread = some (.thread t) → s.threads t = some th →
      th.state = .dead → s.cfs.tree.root ≠ none ∧ ¬ Queued s.cfs.tree t
  | _ => True

/-- What every state of such a run keeps. -/
structure SwitchInv (s : System) (T : NTree Addr) : Prop where
  sound : Sound s T
  ok : SwitchOk s
  current : ∀ {t}, s.cpu.thread = some (.thread t) → (s.threads t).isSome

/-- The state the processor goes on in when `schedule` leaves the frame `frame`. -/
def System.iret (s : System) (frame : IntFrame) : System := { s with cpu := { s.cpu with frame } }

/-- `schedule` on a timer interrupt leaves a state that keeps the invariant. -/
def Returns (s : System) (now : Nat) (run : Addr) (context : IntFrame) : Prop :=
  ∃ s' frame T', s.schedule now run context = some (s', frame) ∧ SwitchInv (s'.iret frame) T'

/-- The end of `schedule` when it switches to a live thread other than the old one. -/
theorem returns_switch {s s₁ : System} {T T₁ : NTree Addr} {now : Nat} {run n : Addr}
    {context : IntFrame} (h : Sound s T)
    (hleave : s.leaveOld now run context (entities T).head? = some (s₁, some n))
    (h₁ : Sound s₁ T₁) (hn : (s₁.threads n).isSome) (hne : s.cpu.thread ≠ some (.thread n)) :
    Returns s now run context := by
  have hpick := cfsPickNext_eq h.shaped
  obtain ⟨s', T', frame, hs', h', hn', -, hcur, huser, hcr3⟩ := h₁.switchTo hn
  obtain ⟨th, hth⟩ := Option.isSome_iff_exists.mp hn'
  refine ⟨s', { frame with registers.rsp := context.registers.rsp }, T', ?_,
    h'.congr rfl rfl rfl rfl, ⟨.inr hcr3, ?_⟩, fun {t} ht => ?_⟩
  · simp [System.schedule, hpick, hleave, System.enter, if_neg hne, hs', hth]
  · simp only [System.iret, hcur]
    exact huser
  · obtain rfl := ThreadRef.thread.inj (Option.some.inj (hcur.symm.trans ht))
    exact hn'

/-- The end of `schedule` when the old thread goes on: the frame is the interrupted one. -/
theorem returns_continue {s s₁ : System} {T T₁ : NTree Addr} {now : Nat} {run n : Addr}
    {context : IntFrame} (h : SwitchInv s T) (hu : context.User)
    (hleave : s.leaveOld now run context (entities T).head? = some (s₁, some n))
    (h₁ : Sound s₁ T₁) (ho : SameOwners s s₁) (hcur : s.cpu.thread = some (.thread n)) :
    Returns s now run context := by
  have hpick := cfsPickNext_eq h.sound.shaped
  have hn : (s₁.threads n).isSome := by
    rw [ho.live]
    exact h.current hcur
  obtain ⟨th, hth⟩ := Option.isSome_iff_exists.mp hn
  have hcur₁ : s₁.cpu.thread = some (.thread n) := by rw [ho.cpu, hcur]
  refine ⟨s₁, { context with registers.rsp := context.registers.rsp }, T₁, ?_,
    h₁.congr rfl rfl rfl rfl, ⟨?_, ?_⟩, fun {t} ht => ?_⟩
  · simp [System.schedule, hpick, hleave, System.enter, if_pos hcur, hth]
  · have hcr3 := h.ok.cr3
    rw [← ho.cpu, ← ho.kernelRoot, ← ho.vmms] at hcr3
    exact hcr3
  · simp only [System.iret, hcur₁]
    exact hu
  · obtain rfl := ThreadRef.thread.inj (Option.some.inj (hcur₁.symm.trans ht))
    exact hn

/-- `schedule` when no thread of the run queue was current. -/
theorem returns_idle {s : System} {T : NTree Addr} {now : Nat} {run : Addr} {context : IntFrame}
    (h : SwitchInv s T) (hk : context.Kernel)
    (hcpu : s.cpu.thread = none ∨ s.cpu.thread = some .idle) : Returns s now run context := by
  have hpick := cfsPickNext_eq h.sound.shaped
  have hne : ∀ n, s.cpu.thread ≠ some (.thread n) := by
    rcases hcpu with hcpu | hcpu <;> simp [hcpu]
  obtain ⟨s₁, hs₁⟩ : ∃ s₁ : System,
    s₁ = { s with cpu := { s.cpu with rsp0 := context.iretRsp } } := ⟨_, rfl⟩
  have hleave : ∀ new, s.leaveOld now run context new = some (s₁, new) := by
    intro new
    rcases hcpu with hcpu | hcpu <;> simp [System.leaveOld, hcpu, hs₁]
  have h₁ : Sound s₁ T := by
    rw [hs₁]
    exact h.sound.congr rfl rfl rfl rfl
  cases hh : (entities T).head? with
  | none =>
    refine ⟨(s₁.goIdle context).1, (s₁.goIdle context).2, T, ?_, h₁.congr rfl rfl rfl rfl,
      ⟨?_, hk⟩, nofun⟩
    · simp [System.schedule, hpick, hleave, hh]
    · rw [hs₁]
      exact h.ok.cr3
  | some n =>
    exact returns_switch h.sound (by rw [hleave, hh]) h₁ (h₁.queued n (List.mem_of_head? hh)) (hne n)

/-- **`schedule`** leaves a live table and the selectors of what is current now. -/
theorem SwitchInv.schedule {s : System} {T : NTree Addr} {now : Nat} {run : Addr}
    {context : IntFrame} (h : SwitchInv s T) (hv : Valid s (.timer now run context))
    (hd : DeathMeets s (.timer now run context)) : Returns s now run context := by
  obtain ⟨-, ⟨hrun, -⟩, hcs, hss⟩ := hv
  have hhead : ∀ {n}, (entities T).head? = some n → n ∈ entities T := List.mem_of_head?
  have hframe := h.ok.frame
  cases hcpu : s.cpu.thread with
  | none =>
    rw [hcpu] at hframe
    exact returns_idle h ⟨hcs.trans hframe.1, hss.trans hframe.2⟩ (.inl hcpu)
  | some r =>
    cases r with
    | idle =>
      rw [hcpu] at hframe
      exact returns_idle h ⟨hcs.trans hframe.1, hss.trans hframe.2⟩ (.inr hcpu)
    | thread old =>
      have hold := h.current hcpu
      rw [hcpu] at hframe
      have hu : context.User := ⟨hcs.trans hframe.1, hss.trans hframe.2⟩
      obtain ⟨th, hth⟩ := Option.isSome_iff_exists.mp hold
      by_cases hdead : th.state = .dead
      · -- the queue is not empty and the picked thread is another one
        obtain ⟨hroot, hnq⟩ := hd old th hcpu hth hdead
        have hq : old ∉ entities T := fun hm => hnq ⟨T, h.sound.shaped.holds, hm⟩
        obtain ⟨s₁, hs₁, h₁, -, -⟩ := h.sound.destroyThread hold hq
        cases hh : (entities T).head? with
        | none =>
          rw [List.head?_eq_none_iff, entities, List.map_eq_nil_iff] at hh
          rw [h.sound.shaped.holds.root] at hroot
          cases T with
          | nil => exact absurd rfl hroot
          | node l c x r => simp [toList] at hh
        | some n =>
          have hleave : s.leaveOld now run context (entities T).head? = some (s₁, some n) := by
            simp [System.leaveOld, hcpu, hth, hdead, hs₁, hh]
          refine returns_switch h.sound hleave h₁ (h₁.queued n (hhead hh)) ?_
          rw [hcpu]
          rintro ⟨rfl⟩
          exact hq (hhead hh)
      · cases hh : (entities T).head? with
        | none =>
          have hleave : s.leaveOld now run context (entities T).head? = some (s, some old) := by
            simp [System.leaveOld, hcpu, hth, hdead, hh]
          exact returns_continue h hu hleave h.sound ⟨rfl, rfl, rfl, rfl, fun _ => rfl⟩ hcpu
        | some n =>
          obtain ⟨s₁, hs₁, h₁, ho₁, hc₁⟩ := h.sound.modify
            (f := fun th => { th with state := .waiting }) hold (fun _ => rfl) fun _ hu => hu
          obtain ⟨s₂, T₂, hs₂, h₂, ho₂, hsub, -⟩ := h₁.cfsQueue (t := old)
            (by rw [ho₁.live]; exact hold) now (by rw [hc₁]; exact hrun)
          obtain ⟨s₃, hs₃, h₃, ho₃, -⟩ := h₂.modify (t := old)
            (f := fun th => { th with context := context })
            (by rw [ho₂.live, ho₁.live]; exact hold) (fun _ => rfl) fun _ _ => hu
          have hleave : s.leaveOld now run context (entities T).head? = some (s₃, some n) := by
            simp [System.leaveOld, hcpu, hth, hdead, hh, hs₁, hs₂, hs₃]
          by_cases hne : s.cpu.thread = some (.thread n)
          · exact returns_continue h hu hleave h₃ ((ho₁.trans ho₂).trans ho₃) hne
          · exact returns_switch h.sound hleave h₃ (h₃.queued n (hsub n (hhead hh))) hne

/-- **One action.** -/
theorem SwitchInv.step {s s' : System} {T : NTree Addr} {a : Action} (h : SwitchInv s T)
    (hv : Valid s a) (hd : DeathMeets s a) (hs : step s a = some s') : ∃ T', SwitchInv s' T' := by
  cases a with
  | timer now run context =>
    obtain ⟨s₁, frame, T', hs₁, h₁⟩ := h.schedule hv hd
    simp only [Scheduler.step, System.timer, hs₁, Option.bind_eq_bind, Option.bind_some] at hs
    obtain rfl := Option.some.inj hs
    exact ⟨T', h₁.sound.congr rfl rfl rfl rfl, ⟨h₁.ok.cr3, h₁.ok.frame⟩, h₁.current⟩
  | die =>
    obtain ⟨t, ht⟩ := hv
    simp only [Scheduler.step, System.die, ht] at hs
    obtain ⟨s₁, hs₁, h₁, ho₁, -⟩ := h.sound.modify (t := t)
      (f := fun th => { th with state := .dead }) (h.current ht) (fun _ => rfl) fun _ hu => hu
    obtain rfl := Option.some.inj (hs.symm.trans hs₁)
    refine ⟨T, h₁, ⟨?_, ?_⟩, fun {u} hu => ?_⟩
    · rw [ho₁.cpu, ho₁.kernelRoot, ho₁.vmms]
      exact h.ok.cr3
    · rw [ho₁.cpu]
      exact h.ok.frame
    · rw [ho₁.cpu] at hu
      rw [ho₁.live]
      exact h.current hu
  | spawn p v root ts rs =>
    obtain ⟨hp, hvm, -, -, -, hfresh, -, hrs, hnodes, -⟩ := hv
    simp only [Scheduler.step, Option.bind_eq_bind, Option.bind_eq_some_iff] at hs
    obtain ⟨s₁, hs₁, s₂, hs₂, hs⟩ := hs
    obtain rfl := Option.some.inj hs
    obtain ⟨h₁, hk₁, ht₁, hf₁, hc₁, hcr3, hl₁, hproc, hnew⟩ := h.sound.create hp hvm hfresh hs₁
    rw [System.runProc, hproc] at hs₂
    obtain ⟨T', h₂, ho₂⟩ := Sound.runThreads _ rs h₁ hnew hrs
      (fun r hr => by rw [hc₁]; exact (hnodes r hr).1) hs₂
    refine ⟨T', h₂.congr rfl rfl rfl rfl, ⟨.inr ?_, ?_⟩, fun {u} hu => ?_⟩
    · rw [ho₂.vmms, ho₂.cpu]
      exact hcr3
    · have hframe := h.ok.frame
      rw [← ht₁, ← hf₁, ← ho₂.cpu] at hframe
      exact hframe
    · have hu' : s.cpu.thread = some (.thread u) := by
        rw [← ht₁, ← ho₂.cpu]
        exact hu
      show (s₂.threads u).isSome
      rw [ho₂.live]
      exact hl₁ u (h.current hu')

theorem switchInv_boot (kernelRoot idleRip rsp0 : Nat) (regs : Registers) :
    SwitchInv (.boot kernelRoot idleRip rsp0 regs) .nil :=
  ⟨⟨(Queue.empty fun _ : Addr => 0).toShaped, by simp [entities, toList], nofun, nofun, nofun, nofun⟩,
    ⟨.inl rfl, rfl, rfl⟩, nofun⟩

theorem reach_switchInv {kernelRoot idleRip rsp0 : Nat} {regs : Registers} {s : System}
    (h : Reach DeathMeets (.boot kernelRoot idleRip rsp0 regs) s) : ∃ T, SwitchInv s T := by
  induction h with
  | init => exact ⟨_, switchInv_boot kernelRoot idleRip rsp0 regs⟩
  | step a _ hv hp hs ih =>
    obtain ⟨T, hT⟩ := ih
    exact hT.step hv hp hs

/-- **What `schedule` returns to** is a live page table and a frame with the right selectors, in every run
in which no thread dies with an empty queue or while it is still queued. -/
theorem switch_sound {kernelRoot idleRip rsp0 : Nat} {regs : Registers} {s s' : System} {now : Nat}
    {run : Addr} {context : IntFrame} (h : Reach DeathMeets (.boot kernelRoot idleRip rsp0 regs) s)
    (hv : Valid s (.timer now run context)) (hd : DeathMeets s (.timer now run context))
    (hs : step s (.timer now run context) = some s') : SwitchOk s' := by
  obtain ⟨T, hT⟩ := reach_switchInv h
  obtain ⟨T', h'⟩ := hT.step hv hd hs
  exact h'.ok

/-! ## Deaths

A thread is picked by a first timer interrupt and dies before the second. Alone, it leaves nothing
to switch to. -/

/-- The frame of an interrupt of a thread. -/
def userFrame : IntFrame := ⟨⟨0, 0⟩, 0, userCs, 0x202, 0, userSs⟩

def lone₁ : System := (step tied₁ (.timer 0 40 kernelFrame)).get rfl
def lone₂ : System := (step lone₁ .die).get rfl
def lone₃ : System := (step lone₂ (.timer 1 50 userFrame)).get rfl

def pair₁ : System := (step tied₂ (.timer 0 40 kernelFrame)).get rfl
def pair₂ : System := (step pair₁ .die).get rfl
def pair₃ : System := (step pair₂ (.timer 1 50 userFrame)).get rfl

theorem reach_pair₂ : Reach DeathMeets tied₀ pair₂ :=
  .step .die (.step (.timer 0 40 kernelFrame) (reach_tied₂ fun _ _ => trivial)
    ⟨le_refl 0, ⟨rfl, by decide, by decide⟩, rfl, rfl⟩ nofun rfl) ⟨100, rfl⟩ trivial rfl

/-- With another thread in the queue the death is met. -/
theorem switch_sound_pair : pair₃.cpu.thread = some (.thread 200) ∧ pair₃.vmms 11 = none ∧
    SwitchOk pair₃ := by
  have hv : Valid pair₂ (.timer 1 50 userFrame) :=
    ⟨Nat.zero_le 1, ⟨rfl, by decide, by decide⟩, rfl, rfl⟩
  have hd : DeathMeets pair₂ (.timer 1 50 userFrame) := by
    intro t th ht _ _
    have h100 : pair₂.cpu.thread = some (.thread 100) := rfl
    obtain rfl := ThreadRef.thread.inj (Option.some.inj (h100.symm.trans ht))
    refine ⟨by decide, ?_⟩
    rintro ⟨T, hT, hm⟩
    have hpair : Holds pair₂.cfs.tree (.node .nil .black (10, 200) .nil) :=
      ⟨rfl, ⟨rfl, trivial, trivial⟩, by decide⟩
    rw [holds_unique hT hpair] at hm
    simp [entities, toList] at hm
  exact ⟨rfl, rfl, switch_sound reach_pair₂ hv hd rfl⟩

/-- **The death of the only thread**: `CR3` keeps the destroyed vmm's table, and the frame that goes
to `idle` keeps the user's selectors. -/
theorem switch_last_thread : ∃ s s', Reach (fun _ _ => True) tied₀ s ∧
    Valid s (.timer 1 50 userFrame) ∧ step s (.timer 1 50 userFrame) = some s' ∧
    s'.cpu.thread = some .idle ∧ ¬ s'.cpu.frame.Kernel ∧
    ¬ (s'.cpu.cr3 = s'.kernelRoot ∨ ∃ v, s'.vmms v = some s'.cpu.cr3) ∧ ¬ SwitchOk s' := by
  have hframe : ¬ lone₃.cpu.frame.Kernel := by
    rintro ⟨hcs, -⟩
    exact absurd hcs (by decide)
  refine ⟨lone₂, lone₃, ?_, ⟨Nat.zero_le 1, ⟨rfl, by decide, by decide⟩, rfl, rfl⟩, rfl, rfl, hframe,
    ?_, fun h => hframe h.frame⟩
  · exact .step .die (.step (.timer 0 40 kernelFrame) (reach_tied₁ fun _ _ => trivial)
      ⟨le_refl 0, ⟨rfl, by decide, by decide⟩, rfl, rfl⟩ trivial rfl) ⟨100, rfl⟩ trivial rfl
  · rintro (hcr3 | ⟨v, hv⟩)
    · exact absurd hcr3 (by decide)
    · have hvmms : Function.update (Function.update (fun _ => none) 11 (some 0x1000)) 11 none v =
          some 0x1000 := hv
      simp only [Function.update_apply] at hvmms
      split_ifs at hvmms

end Colibri.Scheduler
