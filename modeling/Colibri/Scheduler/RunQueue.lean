import Colibri.Scheduler.Schedule
import Mathlib.Order.Interval.Finset.Nat

/-!
# Where the threads are

`Inv s T out`: the run queue holds `T`, and every live thread is either in `T`, once, or one of
`out`, the threads that are outside the queue at this point of the code. Between two actions `out`
is the processor's current thread.

A picked thread leaves the queue when `rb_remove`'s descent finds it. **`run_queue_exact`**: as long
as no `cfs_dequeue` meets a tie above its thread, every live thread is current or queued once and
`cfs.running` counts the nodes; and the first that does breaks this.
-/

namespace Colibri.Scheduler

open Colibri.Lib Colibri.Lib.ColorTree

/-- The run queue of `s` holds `T`, and the live threads are those of `T` and of `out`. -/
structure Inv (s : System) (T : NTree Addr) (out : List Addr) : Prop where
  queue : Queue s.entityKey s.cfs.tree T
  addr : ∀ a ∈ addrs T, 0 < a ∧ a < u64Size
  running : s.cfs.running = T.size
  live : ∀ t, (s.threads t).isSome ↔ t ∈ entities T ∨ t ∈ out
  disjoint : ∀ t ∈ out, t ∉ entities T

/-- The nodes have different addresses, so the counter has room for them. -/
theorem size_lt_u64Size {t : SchedTree Addr} {T : NTree Addr} (h : Holds t T)
    (haddr : ∀ a ∈ addrs T, 0 < a ∧ a < u64Size) : T.size < u64Size := by
  have hsub : (addrs T).toFinset ⊆ Finset.Ioo 0 u64Size := fun a ha =>
    Finset.mem_Ioo.mpr (haddr a (List.mem_toFinset.mp ha))
  have hcard := Finset.card_le_card hsub
  rw [List.toFinset_card_of_nodup h.nodup, Nat.card_Ioo, addrs, List.length_map,
    toList_length] at hcard
  have := u64Size_pos
  omega

/-! ## The parts of `schedule` and `run_proc` -/

theorem Inv.congr {s s' : System} {T : NTree Addr} {out : List Addr} (h : Inv s T out)
    (ht : s'.threads = s.threads) (hc : s'.cfs = s.cfs) : Inv s' T out := by
  have hk : s'.entityKey = s.entityKey := by
    funext t
    rw [System.entityKey, System.entityKey, ht]
  exact ⟨by rw [hk, hc]; exact h.queue, h.addr, by rw [hc]; exact h.running,
    by rw [ht]; exact h.live, h.disjoint⟩

/-- A write to a thread that is not queued, or that leaves the `vruntime` alone. -/
theorem Inv.modify {s s' : System} {T : NTree Addr} {out : List Addr} {t : Addr}
    {f : Thread → Thread} (h : Inv s T out) (hs : s.modifyThread t f = some s')
    (ht : t ∈ out ∨ ∀ th, (f th).vruntime = th.vruntime) : Inv s' T out := by
  obtain ⟨th, hth, rfl⟩ := modifyThread_eq hs
  refine ⟨h.queue.rekey fun u hu => ?_, h.addr, h.running, fun u => ?_, h.disjoint⟩
  · by_cases hut : u = t
    · subst hut
      rcases ht with hout | hv
      · exact absurd hu (h.disjoint u hout)
      · simp [System.entityKey, hth, hv]
    · exact entityKey_update _ hut
  · rw [← h.live u]
    by_cases hut : u = t
    · subst hut
      simp [hth]
    · simp [Function.update_of_ne hut]

/-- **`cfs_queue`** of a thread that is outside the queue. -/
theorem Inv.queueIn {s s' : System} {T : NTree Addr} {t : Addr} {out : List Addr} {now : Nat}
    {run : Addr} (h : Inv s T (t :: out)) (ht : t ∉ out) (hrun : FreshNode s run)
    (hs : s.cfsQueue t now run = some s') :
    ∃ T' l r, Inv s' T' out ∧ T.toList = l ++ r ∧ T'.toList = l ++ (run, t) :: r ∧
      s'.cpu = s.cpu ∧ s'.procs = s.procs ∧ s'.vmms = s.vmms := by
  obtain ⟨s₁, tree, running, hs₁, hr, htree, rfl⟩ := cfsQueue_eq hs
  have h₁ := h.modify hs₁ (.inl List.mem_cons_self)
  obtain ⟨th, hth, rfl⟩ := modifyThread_eq hs₁
  obtain ⟨tree', T', l, r, htree', hq, hl, hl'⟩ :=
    h₁.queue.insert (h₁.disjoint t List.mem_cons_self) hrun.1
  obtain rfl : tree' = tree := by simpa [htree'] using htree
  have hents : ∀ u, u ∈ entities T' ↔ u ∈ entities T ∨ u = t := by
    intro u
    simp only [entities, hl, hl', List.map_append, List.map_cons, List.mem_append, List.mem_cons]
    tauto
  have haddr : ∀ a ∈ addrs T', 0 < a ∧ a < u64Size := by
    intro a ha
    simp only [addrs, hl', List.map_append, List.map_cons, List.mem_append, List.mem_cons] at ha
    have hold := h₁.addr a
    simp only [addrs, hl, List.map_append, List.mem_append] at hold
    rcases ha with ha | rfl | ha
    · exact hold (.inl ha)
    · exact hrun.2
    · exact hold (.inr ha)
  have hsize : T'.size = T.size + 1 := by
    rw [← toList_length, ← toList_length, hl, hl']
    simp
    omega
  refine ⟨T', l, r, ⟨hq, haddr, ?_, fun u => ?_, fun u hu hm => ?_⟩,
    hl, hl', rfl, rfl, rfl⟩
  · have hlt := size_lt_u64Size hq.holds haddr
    rw [hsize] at hlt ⊢
    rw [hr, h₁.running, u64Incr_eq hlt]
  · rw [hents u]
    refine (h₁.live u).trans ?_
    rw [List.mem_cons]
    tauto
  · rcases (hents u).mp hm with hm | rfl
    · exact h.disjoint u (List.mem_cons_of_mem _ hu) hm
    · exact ht hu

/-- **`cfs_dequeue`** takes a queued thread out of the queue, unless there is a tie above it: then
the tree stays as it is and only the counter changes. -/
theorem Inv.dequeue {s s' : System} {T : NTree Addr} {n : Addr} {out : List Addr}
    (h : Inv s T out) (hn : n ∈ entities T) (hs : s.cfsDequeue n = some s') :
    s'.threads = s.threads ∧ s'.cpu = s.cpu ∧ s'.procs = s.procs ∧ s'.vmms = s.vmms ∧
    ((¬ TieAbove s.entityKey n T ∧ ∃ T', Inv s' T' (n :: out) ∧ entities T' ⊆ entities T) ∨
      (TieAbove s.entityKey n T ∧ s'.cfs.tree = s.cfs.tree ∧ s'.cfs.running + 1 = T.size)) := by
  obtain ⟨tree, running, hr, htree, rfl⟩ := cfsDequeue_eq hs
  have hrun : running + 1 = T.size := by
    have hpos : 0 < T.size := by
      rw [← length_entities]
      exact List.length_pos_of_mem hn
    obtain ⟨m, hm⟩ := Nat.exists_eq_add_one_of_ne_zero hpos.ne'
    have hlt := size_lt_u64Size h.queue.holds h.addr
    rw [hr, h.running, hm, u64Decr_succ (by omega)]
  refine ⟨rfl, rfl, rfl, rfl, ?_⟩
  have hiff := reaches_iff h.queue.sorted h.queue.nodup hn
  rcases h.queue.remove n with ⟨hno, htree'⟩ | ⟨hre, tree', T', A, B, htree', hq, hT, hT', haddr⟩
  · obtain rfl : s.cfs.tree = tree := by simpa [htree'] using htree
    exact .inr ⟨by simpa [hno] using hiff, rfl, hrun⟩
  · obtain rfl : tree' = tree := by simpa [htree'] using htree
    have hnd := h.queue.nodup
    have hlen : T.size = T'.size + 1 := by
      rw [← length_entities, ← length_entities, hT, hT']
      simp
      omega
    rw [hT, List.nodup_middle, List.nodup_cons, List.mem_append] at hnd
    refine .inl ⟨hiff.mp hre, T', ⟨hq,
      fun a ha => h.addr a (haddr ha), ?_, fun u => ?_, fun u hu => ?_⟩, ?_⟩
    · exact Nat.add_right_cancel (hrun.trans hlen)
    · refine (h.live u).trans ?_
      rw [hT, hT']
      grind
    · rw [hT', List.mem_append]
      rcases List.mem_cons.mp hu with rfl | hu
      · exact hnd.1
      · have := h.disjoint u hu
        grind
    · rw [hT, hT']
      exact ((List.Sublist.refl A).append (List.sublist_cons_self n B)).subset

/-- `destroy_thread` of a thread outside the queue. -/
theorem Inv.destroy {s s' : System} {T : NTree Addr} {t : Addr} {out : List Addr}
    (h : Inv s T (t :: out)) (ht : t ∉ out) (hs : s.destroyThread t = some s') :
    Inv s' T out ∧ s'.cpu = s.cpu := by
  have hgone : Inv { s with threads := Function.update s.threads t none } T out := by
    refine ⟨h.queue.rekey fun u hu => ?_, h.addr, h.running, fun u => ?_, fun u hu =>
      h.disjoint u (List.mem_cons_of_mem _ hu)⟩
    · exact entityKey_update _ fun e => h.disjoint t List.mem_cons_self (e ▸ hu)
    · have hl := h.live u
      rw [List.mem_cons] at hl
      by_cases hut : u = t
      · subst hut
        simp [ht, h.disjoint u List.mem_cons_self]
      · simp [hl, hut]
  obtain ⟨th, proc, root, -, -, -, ⟨-, rfl⟩ | ⟨-, rfl⟩⟩ := destroyThread_eq hs
  · exact ⟨hgone.congr rfl rfl, rfl⟩
  · exact ⟨hgone.congr rfl rfl, rfl⟩

/-- `create_process` puts the new threads outside the queue. -/
theorem Inv.create {s s' : System} {T : NTree Addr} {out : List Addr} {p v : Addr} {root : Nat}
    {ts : List NewThread} (h : Inv s T out) (hfresh : ∀ nt ∈ ts, s.threads nt.addr = none)
    (hs : s.createProcess p v root ts = some s') :
    Inv s' T (ts.map (·.addr) ++ out) ∧ s'.cpu.thread = s.cpu.thread ∧ s'.cfs = s.cfs ∧
      s'.procs p = some ⟨ts.map (·.addr), v⟩ := by
  obtain ⟨vmm, cr3, rfl, -⟩ := createProcess_eq hs
  have hnew : ∀ t ∈ ts.map (·.addr), s.threads t = none := by
    intro t ht
    obtain ⟨nt, hnt, rfl⟩ := List.mem_map.mp ht
    exact hfresh nt hnt
  have hold : ∀ t ∈ entities T, t ∉ ts.map (·.addr) := by
    intro t ht hm
    have := (h.live t).mpr (.inl ht)
    simp [hnew t hm] at this
  refine ⟨⟨h.queue.rekey fun u hu => ?_, h.addr, h.running, fun u => ?_, fun u hu => ?_⟩, rfl, rfl,
    Function.update_self _ _ _⟩
  · simp [System.entityKey, addThreads_of_notMem (hold u hu)]
  · have hl := h.live u
    rw [List.mem_append]
    by_cases hm : u ∈ ts.map (·.addr)
    · obtain ⟨nt, -, -, he⟩ := addThreads_of_mem (s := s) (p := p) hm
      simp only [he, Option.isSome_some, true_iff]
      exact .inr (.inl hm)
    · simp only [addThreads_of_notMem hm, hl, hm, false_or]
  · rcases List.mem_append.mp hu with hu | hu
    · exact fun hm => hold u hm hu
    · exact h.disjoint u hu

/-- **The loop of `run_proc`** puts the threads of the process into the queue. -/
theorem Inv.runThreads : ∀ (ts : List Addr) (rs : List (Nat × Addr)) {s s' : System}
    {T : NTree Addr} {out : List Addr}, Inv s T (ts ++ out) → (ts ++ out).Nodup →
    (rs.map Prod.snd).Nodup → (∀ r ∈ rs, FreshNode s r.2) → s.runThreads ts rs = some s' →
    ∃ T', Inv s' T' out ∧ s'.cpu = s.cpu
  | [], rs, s, s', T, out, h, _, _, _, hs => by
    obtain rfl : s = s' := by simpa [System.runThreads] using hs
    exact ⟨T, h, rfl⟩
  | _ :: _, [], _, _, _, _, _, _, _, _, hs => by simp [System.runThreads] at hs
  | t :: ts, (now, run) :: rs, s, s', T, out, h, hnd, hrs, hfresh, hs => by
    simp only [System.runThreads, Option.bind_eq_bind, Option.bind_eq_some_iff] at hs
    obtain ⟨s₁, h₁, s₂, h₂, hs⟩ := hs
    rw [List.cons_append] at h hnd
    obtain ⟨ht, hnd⟩ := List.nodup_cons.mp hnd
    rw [List.map_cons, List.nodup_cons] at hrs
    have hi₁ := h.modify h₁ (.inl List.mem_cons_self)
    have hcfs : s₁.cfs = s.cfs ∧ s₁.cpu = s.cpu := by
      obtain ⟨th, -, rfl⟩ := modifyThread_eq h₁
      exact ⟨rfl, rfl⟩
    have hrun : FreshNode s₁ run := by
      rw [FreshNode, hcfs.1]
      exact hfresh (now, run) List.mem_cons_self
    obtain ⟨T', l, r, hi₂, hl, hl', hcpu, -⟩ := hi₁.queueIn ht hrun h₂
    have hfresh₂ : ∀ x ∈ rs, FreshNode s₂ x.2 := by
      intro x hx
      obtain ⟨hno, hpos⟩ := hfresh x (List.mem_cons_of_mem _ hx)
      refine ⟨?_, hpos⟩
      have hxr : x.2 ≠ run := fun e => hrs.1 (List.mem_map.mpr ⟨x, hx, e⟩)
      have hxT : x.2 ∉ addrs T := by
        rw [← h.queue.owned, hno]
        simp
      rw [← Option.not_isSome_iff_eq_none, hi₂.queue.owned]
      simp only [addrs, hl, hl', List.map_append, List.map_cons, List.mem_append,
        List.mem_cons] at hxT ⊢
      tauto
    obtain ⟨T'', hi, hcpu'⟩ := Inv.runThreads ts rs hi₂ hnd hrs.2 hfresh₂ hs
    exact ⟨T'', hi, by rw [hcpu', hcpu, hcfs.2]⟩

/-! ## Runs -/

/-- The processor's current thread, if it is one of the run queue's. -/
def current (s : System) : List Addr :=
  match s.cpu.thread with
  | some (.thread t) => [t]
  | _ => []

theorem mem_current {s : System} {t : Addr} : t ∈ current s ↔ s.cpu.thread = some (.thread t) := by
  unfold current
  split
  · rename_i u hu
    simp [hu, eq_comm]
  · rename_i hne
    simpa using fun h => hne t h

/-- **The first part of `schedule`.** With nothing to run, no thread is left outside the queue; the
old thread may go on; or the picked thread is in the queue, and so is the old one if it lives. -/
theorem Inv.leaveOld {s s₁ : System} {T : NTree Addr} {now : Nat} {run : Addr}
    {context : IntFrame} {new' : Ptr} (h : Inv s T (current s)) (hrun : FreshNode s run)
    (hs : s.leaveOld now run context (entities T).head? = some (s₁, new')) :
    (new' = none ∧ Inv s₁ T []) ∨
    (∃ n, new' = some n ∧ s.cpu.thread = some (.thread n) ∧ s₁ = s) ∨
    ∃ n T₁, new' = some n ∧ s.cpu.thread ≠ some (.thread n) ∧ n ∈ entities T₁ ∧ Inv s₁ T₁ [] := by
  have hpick : ∀ {n}, (entities T).head? = some n → n ∈ entities T := List.mem_of_head?
  rcases leaveOld_eq hs with ⟨hcpu, rfl, rfl⟩ | ⟨old, th, hcpu, hth, hcase⟩
  · have hcur : current s = [] := by
      unfold current
      rcases hcpu with hcpu | hcpu <;> rw [hcpu]
    rw [hcur] at h
    have hinv : Inv { s with cpu := { s.cpu with rsp0 := context.iretRsp } } T [] := h.congr rfl rfl
    cases hn : (entities T).head? with
    | none => exact .inl ⟨rfl, hinv⟩
    | some n =>
      refine .inr (.inr ⟨n, T, rfl, ?_, hpick hn, hinv⟩)
      rcases hcpu with hcpu | hcpu <;> simp [hcpu]
  · have hcur : current s = [old] := by rw [current, hcpu]
    rw [hcur] at h
    rcases hcase with ⟨-, -, rfl, rfl⟩ | ⟨-, n, s₂, s₃, hn, rfl, h₂, h₃, h₄⟩ | ⟨-, rfl, hd⟩
    · exact .inr (.inl ⟨old, rfl, hcpu, rfl⟩)
    · have hi₂ := h.modify h₂ (.inl List.mem_cons_self)
      have hrun₂ : FreshNode s₂ run := by
        obtain ⟨_, _, rfl⟩ := modifyThread_eq h₂
        exact hrun
      obtain ⟨T₁, l, r, hi₃, hl, hl', -⟩ := hi₂.queueIn List.not_mem_nil hrun₂ h₃
      have hi₄ := hi₃.modify h₄ (.inr fun _ => rfl)
      refine .inr (.inr ⟨n, T₁, rfl, ?_, ?_, hi₄⟩)
      · rw [hcpu]
        rintro ⟨rfl⟩
        exact h.disjoint old List.mem_cons_self (hpick hn)
      · have := hpick hn
        simp only [entities, hl, hl', List.map_append, List.map_cons, List.mem_append,
          List.mem_cons] at this ⊢
        tauto
    · have hi := (h.destroy List.not_mem_nil hd).1
      cases hn : (entities T).head? with
      | none => exact .inl ⟨rfl, hi⟩
      | some n =>
        refine .inr (.inr ⟨n, T, rfl, ?_, hpick hn, hi⟩)
        rw [hcpu]
        rintro ⟨rfl⟩
        exact h.disjoint old List.mem_cons_self (hpick hn)

/-- At the `cfs_dequeue` that the action makes, if any, no ancestor of the picked thread's node that
has it in its left subtree has the thread's `vruntime`. -/
def DequeueMeets (s : System) : Action → Prop
  | .timer now run context => ∀ new s₁ n T, s.cfsPickNext = some new →
      s.leaveOld now run context new = some (s₁, some n) → s.cpu.thread ≠ some (.thread n) →
      Holds s₁.cfs.tree T → ¬ TieAbove s₁.entityKey n T
  | _ => True

/-- **Every live thread is current and not queued, or queued once and not current, and
`cfs.running` is the number of nodes.** -/
def QueueOk (s : System) : Prop :=
  ∃ T, Holds s.cfs.tree T ∧ s.cfs.running = T.size ∧
    ∀ t, (s.threads t).isSome →
      (s.cpu.thread = some (.thread t) ∧ t ∉ entities T) ∨
      (s.cpu.thread ≠ some (.thread t) ∧ (entities T).count t = 1)

theorem Inv.queueOk {s : System} {T : NTree Addr} (h : Inv s T (current s)) : QueueOk s := by
  refine ⟨T, h.queue.holds, h.running, fun t ht => ?_⟩
  rcases (h.live t).mp ht with hm | hm
  · refine .inr ⟨fun hc => h.disjoint t (mem_current.mpr hc) hm, ?_⟩
    exact List.count_eq_one_of_mem h.queue.nodup hm
  · exact .inl ⟨mem_current.mp hm, h.disjoint t hm⟩

/-- **A switch** makes the thread current, unless there is a tie above it: then it stays in the
tree, and the counter no longer counts the nodes. -/
theorem Inv.switchTo {s s' : System} {T : NTree Addr} {n : Addr} {frame : IntFrame}
    (h : Inv s T []) (hn : n ∈ entities T) (hs : s.switchTo n = some (s', frame)) :
    (¬ TieAbove s.entityKey n T ∧ ∃ T', Inv s' T' (current s')) ∨
      (TieAbove s.entityKey n T ∧ ¬ QueueOk s') := by
  obtain ⟨s₁, s₂, th, proc, root, h₁, h₂, hth, hproc, hroot, -, rfl⟩ := switchTo_eq hs
  obtain ⟨ht, hcpu, -, -, hcase⟩ := h.dequeue hn h₁
  rcases hcase with ⟨hno, T', hi, -⟩ | ⟨htie, htree, hrun⟩
  · have hi₂ := hi.modify h₂ (.inr fun _ => rfl)
    exact .inl ⟨hno, T', hi₂.congr rfl rfl⟩
  · refine .inr ⟨htie, ?_⟩
    rintro ⟨T', hT', hrun', -⟩
    obtain ⟨_, _, rfl⟩ := modifyThread_eq h₂
    have heq : T' = T := holds_unique (t := s.cfs.tree) (by rw [← htree]; exact hT') h.queue.holds
    rw [heq] at hrun'
    have hsize : s₁.cfs.running = T.size := hrun'
    omega

/-- **A timer interrupt** keeps every thread in its place exactly when its `cfs_dequeue` meets the
thread it is for. -/
theorem Inv.timer {s s' : System} {T : NTree Addr} {now : Nat} {run : Addr} {context : IntFrame}
    (h : Inv s T (current s)) (hrun : FreshNode s run) (hs : s.timer now run context = some s') :
    (DequeueMeets s (.timer now run context) ∧ ∃ T', Inv s' T' (current s')) ∨
      (¬ DequeueMeets s (.timer now run context) ∧ ¬ QueueOk s') := by
  simp only [System.timer, Option.bind_eq_bind, Option.bind_eq_some_iff] at hs
  obtain ⟨⟨s₃, frame⟩, h₃, hs'⟩ := hs
  obtain rfl := Option.some.inj hs'
  obtain ⟨new, new', s₁, hnew, h₁, hcase⟩ := schedule_eq h₃
  have hpick := cfsPickNext_eq h.queue.toShaped
  obtain rfl : (entities T).head? = new := by simpa [hpick] using hnew
  -- the condition is about the one state in which `cfs_dequeue` is called
  have hmeets : ∀ {n T₁}, new' = some n → s.cpu.thread ≠ some (.thread n) → Inv s₁ T₁ [] →
      (DequeueMeets s (.timer now run context) ↔ ¬ TieAbove s₁.entityKey n T₁) := by
    rintro n T₁ rfl hne hi
    constructor
    · exact fun hm => hm _ s₁ n T₁ hpick h₁ hne hi.queue.holds
    · intro htie new₂ s₂ n₂ T₂ hnew₂ h₂ _ hT₂
      obtain rfl : (entities T).head? = new₂ := by simpa [hpick] using hnew₂
      obtain ⟨rfl, hn⟩ := Prod.mk.inj (Option.some.inj (h₁.symm.trans h₂))
      obtain rfl := Option.some.inj hn
      rw [holds_unique hT₂ hi.queue.holds]
      exact htie
  have hvac : (∀ n, new' = some n → s.cpu.thread = some (.thread n)) →
      DequeueMeets s (.timer now run context) := by
    intro hall new₂ s₂ n₂ T₂ hnew₂ h₂ hne _
    obtain rfl : (entities T).head? = new₂ := by simpa [hpick] using hnew₂
    obtain ⟨rfl, rfl⟩ := Prod.mk.inj (Option.some.inj (h₁.symm.trans h₂))
    exact absurd (hall n₂ rfl) hne
  rcases h.leaveOld hrun h₁ with ⟨rfl, hi⟩ | ⟨n, rfl, hcpu, rfl⟩ | ⟨n, T₁, rfl, hne, hn, hi⟩
  · rcases hcase with ⟨-, hidle⟩ | ⟨n, _, hn, -⟩
    · obtain ⟨rfl, -⟩ := Prod.mk.inj hidle
      exact .inl ⟨hvac fun n hn => absurd hn (by simp), T, hi.congr rfl rfl⟩
    · exact absurd hn (by simp)
  · rcases hcase with ⟨hn, -⟩ | ⟨n', frame', hn, henter, -⟩
    · exact absurd hn (by simp)
    · obtain rfl := Option.some.inj hn
      rw [System.enter, if_pos hcpu] at henter
      obtain ⟨rfl, -⟩ := Prod.mk.inj (Option.some.inj henter)
      exact .inl ⟨hvac fun m hm => by rw [← Option.some.inj hm]; exact hcpu, T, h.congr rfl rfl⟩
  · rcases hcase with ⟨hn', -⟩ | ⟨n', frame', hn', henter, -⟩
    · exact absurd hn' (by simp)
    · obtain rfl := Option.some.inj hn'
      rw [System.enter, if_neg hne] at henter
      rcases hi.switchTo hn henter with ⟨hno, T', hi'⟩ | ⟨htie, hbad⟩
      · exact .inl ⟨(hmeets rfl hne hi).mpr hno, T', hi'.congr rfl rfl⟩
      · refine .inr ⟨fun hm => (hmeets rfl hne hi).mp hm htie, ?_⟩
        rintro ⟨T', hT', hok⟩
        exact hbad ⟨T', hT', hok⟩

/-- **One action** keeps every thread in its place exactly when it meets `DequeueMeets`. -/
theorem Inv.step {s s' : System} {T : NTree Addr} {a : Action} (h : Inv s T (current s))
    (hv : Valid s a) (hs : step s a = some s') :
    (DequeueMeets s a ∧ ∃ T', Inv s' T' (current s')) ∨ (¬ DequeueMeets s a ∧ ¬ QueueOk s') := by
  cases a with
  | timer now run context => exact h.timer hv.2.1 hs
  | die =>
    refine .inl ⟨trivial, T, ?_⟩
    obtain ⟨t, ht⟩ := hv
    simp only [Scheduler.step, System.die, ht] at hs
    have hi := h.modify hs (.inr fun _ => rfl)
    obtain ⟨_, _, rfl⟩ := modifyThread_eq hs
    exact hi
  | spawn p v root ts rs =>
    refine .inl ⟨trivial, ?_⟩
    obtain ⟨hp, hvm, -, -, hnd, hfresh, hlen, hrs, hnodes, -⟩ := hv
    simp only [Scheduler.step, Option.bind_eq_bind, Option.bind_eq_some_iff] at hs
    obtain ⟨s₁, h₁, s₂, h₂, hs⟩ := hs
    obtain rfl := Option.some.inj hs
    obtain ⟨hi, hth, hcfs, hproc⟩ := h.create hfresh h₁
    rw [System.runProc, hproc] at h₂
    have hnew : ∀ t ∈ ts.map (·.addr), t ∉ current s := by
      intro t ht hc
      obtain ⟨nt, hnt, rfl⟩ := List.mem_map.mp ht
      have := (h.live nt.addr).mpr (.inr hc)
      simp [hfresh nt hnt] at this
    have hcur : ∀ {u : System}, u.cpu.thread = s.cpu.thread → current u = current s := by
      intro u hu
      rw [current, current, hu]
    have hcnd : (current s).Nodup := by
      unfold current
      split <;> simp
    obtain ⟨T', hi', hcpu⟩ := Inv.runThreads _ rs hi
      (List.nodup_append.mpr ⟨hnd, hcnd, fun a ha b hb e => hnew a ha (e ▸ hb)⟩) hrs
      (fun r hr => by rw [FreshNode, hcfs]; exact hnodes r hr) h₂
    refine ⟨T', ?_⟩
    have hthread : s₂.cpu.thread = s.cpu.thread := by rw [hcpu, hth]
    rw [← hcur hthread] at hi'
    exact hi'.congr rfl rfl

theorem inv_boot (kernelRoot idleRip rsp0 : Nat) (regs : Registers) :
    Inv (.boot kernelRoot idleRip rsp0 regs) .nil (current (.boot kernelRoot idleRip rsp0 regs)) :=
  ⟨Queue.empty _, by simp [addrs, toList], rfl, by simp [System.boot, current, entities, toList],
    by simp [System.boot, current]⟩

theorem reach_inv {kernelRoot idleRip rsp0 : Nat} {regs : Registers} {s : System}
    (h : Reach DequeueMeets (.boot kernelRoot idleRip rsp0 regs) s) : ∃ T, Inv s T (current s) := by
  induction h with
  | init => exact ⟨_, inv_boot kernelRoot idleRip rsp0 regs⟩
  | step a _ hv hp hs ih =>
    obtain ⟨T, hT⟩ := ih
    rcases hT.step hv hs with ⟨-, hi⟩ | ⟨hno, -⟩
    · exact hi
    · exact absurd hp hno

/-- **Every thread is in one place.** In a run in which every `cfs_dequeue` meets the thread it is
for, every live thread is current or queued once and `cfs.running` counts the nodes, in every state
reached; and an action that goes on from there keeps this exactly when its own `cfs_dequeue` does. -/
theorem run_queue_exact {kernelRoot idleRip rsp0 : Nat} {regs : Registers} {s : System}
    (h : Reach DequeueMeets (.boot kernelRoot idleRip rsp0 regs) s) :
    QueueOk s ∧ ∀ a s', Valid s a → step s a = some s' → (QueueOk s' ↔ DequeueMeets s a) := by
  obtain ⟨T, hT⟩ := reach_inv h
  refine ⟨hT.queueOk, fun a s' hv hs => ?_⟩
  rcases hT.step hv hs with ⟨hm, T', hi⟩ | ⟨hm, hbad⟩
  · exact ⟨fun _ => hm, fun _ => hi.queueOk⟩
  · exact ⟨fun hok => absurd hok hbad, fun h => absurd h hm⟩

/-! ## The tie that is missed

Three processes with one thread each are run at the same time and get the same `vruntime`. The third
`rb_insert` rotates, and the thread that is picked first ends up in the left subtree of one with its
own key. -/

/-- The creation and `run_proc` of a process with one thread, the `i`-th of some that are alike. -/
def spawnOne (i : Nat) : Action :=
  .spawn i (10 + i) (0x1000 * i) [⟨100 * i, 0, 0, 0, 0, 0, 0⟩] [(0, 10 * i)]

/-- The frame of an interrupt of the kernel's own code. -/
def kernelFrame : IntFrame := ⟨⟨0, 0⟩, 0, kernelCs, 0x202, 0, kernelSs⟩

def tied₀ : System := .boot 0x9000 0 0 ⟨0, 0⟩
def tied₁ : System := (step tied₀ (spawnOne 1)).get rfl
def tied₂ : System := (step tied₁ (spawnOne 2)).get rfl
def tied₃ : System := (step tied₂ (spawnOne 3)).get rfl

/-- The state after the timer interrupt that picks the first thread. -/
def missed : System := (step tied₃ (.timer 0 40 kernelFrame)).get rfl

theorem valid_spawnOne {s : System} {i : Nat} (hp : s.procs i = none) (hv : s.vmms (10 + i) = none)
    (hk : 0x1000 * i ≠ s.kernelRoot) (hroot : ∀ w, s.vmms w ≠ some (0x1000 * i))
    (ht : s.threads (100 * i) = none) (hn : FreshNode s (10 * i)) (hc : s.clock = 0) :
    Valid s (spawnOne i) := by
  refine ⟨hp, hv, hk, hroot, by simp, by simpa using ht, rfl, by simp, by simpa using hn, ?_⟩
  simp [hc]

theorem reach_tied₁ {P : System → Action → Prop} (hP : ∀ s i, P s (spawnOne i)) :
    Reach P tied₀ tied₁ :=
  .step (spawnOne 1) .init
    (valid_spawnOne rfl rfl (by decide) (fun w => nofun) rfl ⟨rfl, by decide, by decide⟩ rfl)
    (hP _ _) rfl

theorem valid_tied₁ : Valid tied₁ (spawnOne 2) := by
  refine valid_spawnOne rfl rfl (by decide) (fun w => ?_) rfl ⟨rfl, by decide, by decide⟩ rfl
  show Function.update (fun _ => none) 11 (some 0x1000) w ≠ _
  simp only [Function.update_apply]
  split_ifs <;> simp

theorem reach_tied₂ {P : System → Action → Prop} (hP : ∀ s i, P s (spawnOne i)) :
    Reach P tied₀ tied₂ :=
  .step (spawnOne 2) (reach_tied₁ hP) valid_tied₁ (hP _ _) rfl

theorem reach_tied {P : System → Action → Prop} (hP : ∀ s i, P s (spawnOne i)) :
    Reach P tied₀ tied₃ := by
  refine .step (spawnOne 3) (reach_tied₂ hP)
    (valid_spawnOne rfl rfl (by decide) (fun w => ?_) rfl ⟨rfl, by decide, by decide⟩ rfl)
    (hP _ _) rfl
  show Function.update (Function.update (fun _ => none) 11 (some 0x1000)) 12 (some 0x2000) w ≠ _
  simp only [Function.update_apply]
  split_ifs <;> simp

theorem valid_missed : Valid tied₃ (.timer 0 40 kernelFrame) :=
  ⟨le_refl 0, ⟨rfl, by decide, by decide⟩, rfl, rfl⟩

/-- Of the three threads, the picked one is still in the tree while it runs, and the counter is one
short. -/
theorem missed_not_queueOk : ¬ QueueOk missed := by
  rintro ⟨T, hT, hrun, -⟩
  have hthree : Holds missed.cfs.tree (.node (.node .nil .red (10, 100) .nil) .black (20, 200)
      (.node .nil .red (30, 300) .nil)) :=
    ⟨rfl, ⟨rfl, ⟨rfl, trivial, trivial⟩, ⟨rfl, trivial, trivial⟩⟩, by decide⟩
  rw [holds_unique hT hthree] at hrun
  exact absurd hrun (by decide)

theorem run_queue_exact_tied : QueueOk tied₃ ∧ ¬ DequeueMeets tied₃ (.timer 0 40 kernelFrame) := by
  obtain ⟨hok, hiff⟩ := run_queue_exact (reach_tied (P := DequeueMeets) fun _ _ => trivial)
  exact ⟨hok, fun hm => missed_not_queueOk ((hiff _ missed valid_missed rfl).mpr hm)⟩

theorem run_queue_missed :
    ∃ s, Reach (fun _ a => a ≠ .die) tied₀ s ∧ ¬ QueueOk s :=
  ⟨missed, .step _ (reach_tied fun _ _ => by simp [spawnOne]) valid_missed (by simp) rfl,
    missed_not_queueOk⟩

end Colibri.Scheduler
