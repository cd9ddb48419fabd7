import Mathlib.Data.List.Sort
import Colibri.Scheduler.PickNext
import Colibri.Scheduler.Starvation

/-!
# Threads of one priority take turns

`RoundRobin` is a list of waiting threads and the one that runs; it is not in the source. At a timer
interrupt the running thread goes to the end and the first one runs.

With one priority, and `vruntime`s that are different and not further apart than one charge, the
run queue is such a list (`round_robin`), if no thread has been left behind in it before. The thread
that is put back has the largest `vruntime` of all, by a charge that grows with `uptime`; so this
stays so, and `cfs_dequeue`, which only misses a thread below one with the same `vruntime`, finds
every thread it is called for from then on.
-/

namespace Colibri.Scheduler

open Colibri.Lib

/-! ## The abstract scheduler -/

/-- A round-robin scheduler. `dead` is the mark of the thread that runs. -/
structure RoundRobin where
  running : Option Addr
  dead : Bool
  queue : List Addr
  deriving DecidableEq, Repr

namespace RoundRobin

/-- The threads at a timer interrupt, in the order in which they run next. -/
def order (r : RoundRobin) : List Addr :=
  r.queue ++ if r.dead then [] else r.running.toList

/-- A timer interrupt. -/
def timer (r : RoundRobin) : RoundRobin :=
  match r.order with
  | [] => ⟨none, false, []⟩
  | n :: q => ⟨some n, false, q⟩

/-- What the actions do. -/
def act (r : RoundRobin) : Action → RoundRobin
  | .timer _ _ _ => r.timer
  | .die => { r with dead := true }
  | .spawn _ _ _ _ _ => r

end RoundRobin

/-! ## Threads that are near each other -/

/-- Threads of the weight `w`, no two with one `vruntime`, and none more than the charge at the
time `c` ahead of another. -/
structure Even (w c : Nat) (m : Addr → Option Thread) : Prop where
  started : Started m
  weight : ∀ t th, m t = some th → 1 + th.prio = w
  spread : ∀ t th u uh, m t = some th → m u = some uh → th.vruntime ≤ uh.vruntime + c * w
  distinct : ∀ t th u uh, m t = some th → m u = some uh → th.vruntime = uh.vruntime → t = u

/-- The current thread has the least `vruntime`. -/
def Front (s : System) : Prop :=
  ∀ t th u uh, s.cpu.thread = some (.thread t) → s.threads t = some th → s.threads u = some uh →
    th.vruntime ≤ uh.vruntime

section Even

variable {s : System} {m : Addr → Option Thread} {w c now : Nat} {context : IntFrame}
  {t old : Addr} {th oh : Thread}

/-- Fewer threads, or later. -/
theorem Even.mono {m' : Addr → Option Thread} {c' : Nat} (h : Even w c m) (hc : c ≤ c')
    (hm : ∀ t th, m' t = some th → m t = some th) : Even w c' m' where
  started t th ht := h.started t th (hm t th ht)
  weight t th ht := h.weight t th (hm t th ht)
  spread t th u uh ht hu :=
    (h.spread t th u uh (hm t th ht) (hm u uh hu)).trans
      (Nat.add_le_add_left (Nat.mul_le_mul_right w hc) _)
  distinct t th u uh ht hu := h.distinct t th u uh (hm t th ht) (hm u uh hu)

/-- What is looked at of a thread does not change. -/
theorem Even.update_same {th' : Thread} (h : Even w c m) (ht : m t = some th)
    (hv : th'.vruntime = th.vruntime) (hp : th'.prio = th.prio)
    (he : th'.execStartTime = th.execStartTime) : Even w c (Function.update m t (some th')) := by
  have hback {u : Addr} {uh : Thread} (hu : Function.update m t (some th') u = some uh) :
      ∃ x, m u = some x ∧ x.vruntime = uh.vruntime ∧ x.prio = uh.prio ∧
        x.execStartTime = uh.execStartTime := by
    by_cases hut : u = t
    · rw [hut, Function.update_self] at hu
      obtain rfl := Option.some.inj hu
      exact ⟨th, hut ▸ ht, hv.symm, hp.symm, he.symm⟩
    · rw [Function.update_of_ne hut] at hu
      exact ⟨uh, hu, rfl, rfl, rfl⟩
  refine ⟨fun u uh hu => ?_, fun u uh hu => ?_, fun u uh v vh hu hv' => ?_,
    fun u uh v vh hu hv' => ?_⟩
  · obtain ⟨x, hx, -, -, hxe⟩ := hback hu
    exact hxe ▸ h.started u x hx
  · obtain ⟨x, hx, -, hxp, -⟩ := hback hu
    exact hxp ▸ h.weight u x hx
  · obtain ⟨x, hx, hxv, -, -⟩ := hback hu
    obtain ⟨y, hy, hyv, -, -⟩ := hback hv'
    exact hxv ▸ hyv ▸ h.spread u x v y hx hy
  · obtain ⟨x, hx, hxv, -, -⟩ := hback hu
    obtain ⟨y, hy, hyv, -, -⟩ := hback hv'
    exact hxv ▸ hyv ▸ h.distinct u x v y hx hy

/-- The thread that is put back is behind all others. -/
theorem Even.preempted (context : IntFrame) (h : Even w s.clock s.threads) (hnow : s.clock < now)
    (hno : NoWrap s now) (hc : s.cpu.thread = some (.thread old)) (hoh : s.threads old = some oh) :
    (oh.preempted now context).vruntime = oh.vruntime + now * w ∧
      ∀ u uh, s.threads u = some uh → uh.vruntime < oh.vruntime + now * w := by
  have hw := h.weight old oh hoh
  refine ⟨?_, fun u uh hu => ?_⟩
  · rw [← hw]
    exact preempted_vruntime (h.started old oh hoh) (hno old oh hc hoh)
  · have hspread := h.spread u uh old oh hu hoh
    have hlt : s.clock * w < now * w := Nat.mul_lt_mul_of_pos_right hnow (by omega)
    omega

/-- **When the old thread is left**, the threads stay near each other. -/
theorem Even.left (h : Even w s.clock s.threads) (hfront : Front s) (hnow : s.clock < now)
    (hno : NoWrap s now) (hm : OldLeft s now context m) : Even w now m := by
  cases hm with
  | none _ => exact h.mono hnow.le fun _ _ ht => ht
  | @destroyed old oh _ _ _ =>
    refine h.mono hnow.le fun t th ht => ?_
    by_cases hto : t = old
    · rw [hto, Function.update_self] at ht
      exact absurd ht.symm (Option.some_ne_none th)
    · rwa [Function.update_of_ne hto] at ht
  | @queued old oh hc hoh _ =>
    obtain ⟨hvr, hlast⟩ := h.preempted context hnow hno hc hoh
    have hback {u : Addr} {uh : Thread}
        (hu : Function.update s.threads old (some (oh.preempted now context)) u = some uh) :
        (u = old ∧ uh = oh.preempted now context) ∨ (u ≠ old ∧ s.threads u = some uh) := by
      by_cases huo : u = old
      · rw [huo, Function.update_self] at hu
        exact .inl ⟨huo, (Option.some.inj hu).symm⟩
      · rw [Function.update_of_ne huo] at hu
        exact .inr ⟨huo, hu⟩
    have hmul : s.clock * w ≤ now * w := Nat.mul_le_mul_right w hnow.le
    refine ⟨h.started.left (.queued hc hoh ‹_›), fun u uh hu => ?_, fun u uh v vh hu hv => ?_,
      fun u uh v vh hu hv he => ?_⟩
    · rcases hback hu with ⟨-, rfl⟩ | ⟨-, hu'⟩
      · exact h.weight old oh hoh
      · exact h.weight u uh hu'
    · rcases hback hu with ⟨-, rfl⟩ | ⟨-, hu'⟩ <;> rcases hback hv with ⟨-, rfl⟩ | ⟨-, hv'⟩
      · exact Nat.le_add_right _ _
      · rw [hvr]
        exact Nat.add_le_add_right (hfront old oh v vh hc hoh hv') _
      · have := hlast u uh hu'
        omega
      · have := h.spread u uh v vh hu' hv'
        omega
    · rcases hback hu with ⟨rfl, rfl⟩ | ⟨-, hu'⟩ <;> rcases hback hv with ⟨rfl, rfl⟩ | ⟨-, hv'⟩
      · rfl
      · exact absurd (he.symm.trans hvr) (hlast v vh hv').ne
      · exact absurd (he.trans hvr) (hlast u uh hu').ne
      · exact h.distinct u uh v vh hu' hv' he

end Even

/-! ## The threads in a line -/

/-- `l` lists the threads that have a key, by their keys. -/
structure Lined (k : Addr → Option Nat) (l : List Addr) : Prop where
  mem : ∀ x, x ∈ l ↔ (k x).isSome
  sorted : l.Pairwise fun x y => (k x).getD 0 < (k y).getD 0

section Lined

variable {s : System} {T : NTree Addr} {m : Addr → Option Thread} {k : Addr → Option Nat}
  {l q : List Addr} {w c : Nat} {t : Addr} {th : Thread}

theorem isSome_vruntimes (m : Addr → Option Thread) (t : Addr) :
    (vruntimes m t).isSome = (m t).isSome := Option.isSome_map

theorem getD_vruntimes (ht : m t = some th) : (vruntimes m t).getD 0 = th.vruntime := by
  rw [vruntimes, ht, Option.map_some, Option.getD_some]

theorem Lined.nodup (h : Lined k l) : l.Nodup :=
  h.sorted.imp fun hlt he => absurd (he ▸ hlt) (Nat.lt_irrefl _)

/-- There is one list of given members in the order of their keys. -/
theorem eq_of_sorted {key : Addr → Nat} (hl : l.Pairwise fun x y => key x < key y)
    (hq : q.Pairwise fun x y => key x < key y) (hmem : ∀ x, x ∈ l ↔ x ∈ q) : l = q := by
  have hasymm : Std.Asymm fun x y => key x < key y := ⟨fun _ _ => Nat.lt_asymm⟩
  have hirrefl : Std.Irrefl fun x y => key x < key y := ⟨fun _ => Nat.lt_irrefl _⟩
  exact hl.eq_of_mem_iff hq hmem

/-- Without ties the queue is strictly sorted. -/
theorem Inv.sorted_lt {out : List Addr} (h : Inv s T out) (heven : Even w c s.threads) :
    (entities T).Pairwise fun x y =>
      (vruntimes s.threads x).getD 0 < (vruntimes s.threads y).getD 0 := by
  refine ((sorted_iff.mp h.queue.sorted).and h.queue.nodup).imp_of_mem
    fun {x y} hx hy ⟨hle, hne⟩ => lt_of_le_of_ne hle fun he => hne ?_
  obtain ⟨xh, hxh⟩ := Option.isSome_iff_exists.mp ((h.live x).mpr (.inl hx))
  obtain ⟨yh, hyh⟩ := Option.isSome_iff_exists.mp ((h.live y).mpr (.inl hy))
  rw [getD_vruntimes hxh, getD_vruntimes hyh] at he
  exact heven.distinct x xh y yh hxh hyh he

/-- **The queue in the tree** is the line behind the current thread. -/
theorem Inv.entities_eq (h : Inv s T (current s)) (heven : Even w c s.threads)
    (hl : Lined (vruntimes s.threads) (current s ++ q)) : entities T = q := by
  have hmem : ∀ x, x ∈ entities T ↔ x ∈ q := by
    intro x
    have hx := hl.mem x
    rw [isSome_vruntimes, List.mem_append] at hx
    have hlive := h.live x
    have hdisj := h.disjoint x
    have hnd := List.disjoint_of_nodup_append hl.nodup (a := x)
    tauto
  exact eq_of_sorted (h.sorted_lt heven) (List.pairwise_append.mp hl.sorted).2.1 hmem

/-- The current thread and the queue are in a line. -/
theorem Inv.lined (h : Inv s T (current s)) (heven : Even w c s.threads) (hfront : Front s) :
    Lined (vruntimes s.threads) (current s ++ entities T) := by
  refine ⟨fun x => ?_, List.pairwise_append.mpr ⟨?_, h.sorted_lt heven, fun x hx y hy => ?_⟩⟩
  · rw [isSome_vruntimes, h.live x, List.mem_append, or_comm]
  · unfold current
    split
    · exact List.pairwise_singleton _ _
    · exact List.Pairwise.nil
  · obtain ⟨xh, hxh⟩ := Option.isSome_iff_exists.mp ((h.live x).mpr (.inr hx))
    obtain ⟨yh, hyh⟩ := Option.isSome_iff_exists.mp ((h.live y).mpr (.inl hy))
    rw [getD_vruntimes hxh, getD_vruntimes hyh]
    refine lt_of_le_of_ne (hfront x xh y yh (mem_current.mp hx) hxh hyh) fun he => ?_
    exact h.disjoint x hx (heven.distinct x xh y yh hxh hyh he ▸ hy)

end Lined

/-! ## The refinement -/

/-- **The run queue serves as the abstract scheduler says.** -/
structure Serves (w : Nat) (s : System) (r : RoundRobin) : Prop where
  inv : ∃ T, Inv s T (current s)
  running : current s = r.running.toList
  lined : Lined (vruntimes s.threads) (r.running.toList ++ r.queue)
  dead : ∀ t th, s.cpu.thread = some (.thread t) → s.threads t = some th →
    (r.dead = true ↔ th.state = .dead)
  even : Even w s.clock s.threads

section Serves

variable {s s' : System} {r : RoundRobin} {w now : Nat} {run : Addr} {context : IntFrame}
  {m : Addr → Option Thread} {T : NTree Addr} {t n : Addr} {th : Thread}

theorem Serves.running_eq (h : Serves w s r) (hc : s.cpu.thread = some (.thread t)) :
    r.running = some t := by
  have hrun := h.running
  rw [current, hc] at hrun
  cases hr : r.running with
  | none => rw [hr] at hrun; exact absurd hrun (List.cons_ne_nil t [])
  | some u => rw [hr] at hrun; rw [(List.cons.inj hrun).1]

theorem Serves.running_none (h : Serves w s r)
    (hc : s.cpu.thread = none ∨ s.cpu.thread = some .idle) : r.running = none := by
  have hrun := h.running
  have hcur : current s = [] := by
    unfold current
    rcases hc with hc | hc <;> rw [hc]
  rw [hcur] at hrun
  exact Option.toList_eq_nil_iff.mp hrun.symm

theorem Serves.front (h : Serves w s r) : Front s := by
  intro t th u uh hc hth hu
  have hsort := h.lined.sorted
  have hmem := (h.lined.mem u).mpr (by rw [isSome_vruntimes, hu]; rfl)
  rw [h.running_eq hc, Option.toList_some, List.singleton_append] at hsort hmem
  rcases List.mem_cons.mp hmem with rfl | hmem
  · obtain rfl := Option.some.inj (hth.symm.trans hu)
    exact Nat.le_refl _
  · have hlt := (List.pairwise_cons.mp hsort).1 u hmem
    rw [getD_vruntimes hth, getD_vruntimes hu] at hlt
    exact hlt.le

theorem Serves.entities_eq (h : Serves w s r) (hT : Inv s T (current s)) :
    entities T = r.queue := by
  refine hT.entities_eq h.even ?_
  rw [h.running]
  exact h.lined

/-- The old thread, after `schedule` has left it for another. -/
theorem leaveOld_left {s₁ : System} {new : Ptr}
    (h : s.leaveOld now run context new = some (s₁, some n))
    (hn : s.cpu.thread ≠ some (.thread n)) : OldLeft s now context s₁.threads := by
  rcases leaveOld_eq h with ⟨hc, -, rfl⟩ | ⟨old, th, hc, hth, hold⟩
  · exact .none hc
  rcases hold with ⟨-, -, he, -⟩ | ⟨hlive, x, s₂, s₃, -, -, h₂, h₃, h₄⟩ | ⟨hdead, -, hd⟩
  · obtain rfl := Option.some.inj he
    exact absurd hc hn
  · rw [(preempt_threads hth h₂ h₃ h₄).1]
    exact .queued hc hth hlive
  · rw [(destroyThread_threads hd).1]
    exact .destroyed hc hth hdead

/-- **`cfs_dequeue` finds the thread** it is called for, since no other has its `vruntime`. -/
theorem Even.dequeueMeets (h : Even w s.clock s.threads) (hfront : Front s)
    (hT : Inv s T (current s)) (hrun : FreshNode s run) (hnow : s.clock < now)
    (hno : NoWrap s now) : DequeueMeets s (.timer now run context) := by
  intro new s₁ n T₁ hpick hleave hne hT₁
  have heven : Even w now s₁.threads := h.left hfront hnow hno (leaveOld_left hleave hne)
  rw [cfsPickNext_eq hT.queue.toShaped] at hpick
  obtain rfl := Option.some.inj hpick
  rcases hT.leaveOld hrun hleave with ⟨he, -⟩ | ⟨x, he, hc, -⟩ | ⟨x, T₂, he, -, hx, hi⟩
  · exact absurd he.symm (Option.some_ne_none n).symm
  · exact absurd (Option.some.inj he ▸ hc) hne
  · obtain rfl := Option.some.inj he
    rw [holds_unique hT₁ hi.queue.holds]
    refine (reaches_iff hi.queue.sorted hi.queue.nodup hx).mp
      (reaches_of_unshared hi.queue.sorted hx fun y hy hyn he => hyn ?_)
    obtain ⟨nh, hnh⟩ := Option.isSome_iff_exists.mp ((hi.live n).mpr (.inl hx))
    obtain ⟨yh, hyh⟩ := Option.isSome_iff_exists.mp ((hi.live y).mpr (.inl hy))
    rw [entityKey_eq hyh, entityKey_eq hnh] at he
    exact heven.distinct y yh n nh hyh hnh he

/-- **When the old thread is left**, the line is in the order in which the abstract scheduler goes
on. -/
theorem Serves.order (h : Serves w s r) (hnow : s.clock < now) (hno : NoWrap s now)
    (hm : OldLeft s now context m) : Lined (vruntimes m) r.order := by
  unfold RoundRobin.order
  have hl := h.lined
  cases hm with
  | none hc =>
    rw [h.running_none hc, Option.toList_none, List.nil_append] at hl
    rw [h.running_none hc, Option.toList_none, ite_self, List.append_nil]
    exact hl
  | @queued old oh hc hoh hlive =>
    have hdead : r.dead = false := by
      rw [← Bool.not_eq_true, h.dead old oh hc hoh]
      exact hlive
    have hpre := h.even.preempted context hnow hno hc hoh
    rw [h.running_eq hc, Option.toList_some, List.singleton_append] at hl
    rw [h.running_eq hc, hdead, if_neg Bool.false_ne_true, Option.toList_some, vruntimes_update,
      Option.map_some, hpre.1]
    have hnot := (List.nodup_cons.mp hl.nodup).1
    have hsort := (List.pairwise_cons.mp hl.sorted).2
    have hof {x : Addr} (hx : x ∈ r.queue) : x ≠ old := fun e => hnot (e ▸ hx)
    refine ⟨fun x => ?_, List.pairwise_append.mpr ⟨?_, List.pairwise_singleton _ _, ?_⟩⟩
    · by_cases hxo : x = old
      · simp [hxo]
      · rw [Function.update_of_ne hxo, ← hl.mem x]
        simp [hxo]
    · refine hsort.imp_of_mem fun {x y} hx hy hlt => ?_
      rwa [Function.update_of_ne (hof hx), Function.update_of_ne (hof hy)]
    · intro x hx y hy
      obtain rfl := List.mem_singleton.mp hy
      obtain ⟨v, hv⟩ := Option.isSome_iff_exists.mp ((hl.mem x).mp (List.mem_cons_of_mem _ hx))
      obtain ⟨xh, hxh, rfl⟩ := Option.map_eq_some_iff.mp hv
      rw [Function.update_of_ne (hof hx), Function.update_self, getD_vruntimes hxh]
      exact hpre.2 x xh hxh
  | @destroyed old oh hc hoh hd =>
    have hdead : r.dead = true := (h.dead old oh hc hoh).mpr hd
    rw [h.running_eq hc, Option.toList_some, List.singleton_append] at hl
    rw [hdead, if_pos rfl, List.append_nil, vruntimes_update, Option.map_none]
    have hnot := (List.nodup_cons.mp hl.nodup).1
    have hof {x : Addr} (hx : x ∈ r.queue) : x ≠ old := fun e => hnot (e ▸ hx)
    refine ⟨fun x => ?_, (List.pairwise_cons.mp hl.sorted).2.imp_of_mem fun {x y} hx hy hlt => ?_⟩
    · by_cases hxo : x = old
      · simp [hxo, hnot]
      · rw [Function.update_of_ne hxo, ← hl.mem x]
        simp [hxo]
    · rwa [Function.update_of_ne (hof hx), Function.update_of_ne (hof hy)]

/-- A timer interrupt with an empty queue. -/
theorem Serves.timer_empty (h : Serves w s r) (hq : r.queue = []) (hnow : s.clock < now)
    (hno : NoWrap s now) (hinv : ∃ T, Inv s' T (current s')) (hclock : s'.clock = now)
    (hempty : s.cfsPickNext = some none) {frame : IntFrame}
    (ho : Outcome s now context s' frame) : Serves w s' r.timer := by
  cases ho with
  | @stay old oh hc hoh hlive _ hcpu ht _ =>
    have hdead : r.dead = false := by
      rw [← Bool.not_eq_true, h.dead old oh hc hoh]
      exact hlive
    have htimer : r.timer = ⟨some old, false, []⟩ := by
      rw [RoundRobin.timer, RoundRobin.order, hq, hdead, h.running_eq hc]
      rfl
    have hl := h.lined
    rw [h.running_eq hc, hq] at hl
    rw [htimer]
    refine ⟨hinv, by rw [current, hcpu]; rfl, ?_, fun t th htc hth => ?_, ?_⟩
    · rw [ht]
      exact hl
    · obtain rfl := ThreadRef.thread.inj (Option.some.inj (hcpu.symm.trans htc))
      obtain rfl := Option.some.inj (hoh.symm.trans (ht ▸ hth))
      exact iff_of_false Bool.false_ne_true hlive
    · rw [ht, hclock]
      exact h.even.mono hnow.le fun _ _ hx => hx
  | @idle m hm hdead hpick hcpu ht =>
    have hord := h.order hnow hno hm
    have hnil : r.order = [] := by
      cases hm with
      | none hc => rw [RoundRobin.order, hq, h.running_none hc, Option.toList_none, ite_self]; rfl
      | queued hc hoh hlive => exact absurd (hdead _ _ hc hoh) hlive
      | destroyed hc hoh hd =>
        rw [RoundRobin.order, hq, if_pos ((h.dead _ _ hc hoh).mpr hd)]
        rfl
    have htimer : r.timer = ⟨none, false, []⟩ := by rw [RoundRobin.timer, hnil]
    rw [hnil] at hord
    rw [htimer]
    refine ⟨hinv, by rw [current, hcpu]; rfl, ?_, fun t th htc => ?_, ?_⟩
    · rw [ht]
      exact hord
    · exact absurd (hcpu.symm.trans htc) (by simp)
    · rw [ht, hclock]
      exact h.even.left h.front hnow hno hm
  | again _ _ _ hp => exact absurd (hempty.symm.trans hp) (by simp)
  | switch _ _ _ hp => exact absurd (hempty.symm.trans hp) (by simp)

/-- **A timer interrupt.** -/
theorem Serves.timer (h : Serves w s r) (hv : Valid s (.timer now run context))
    (hnow : s.clock < now) (hno : NoWrap s now) (hs : s.timer now run context = some s') :
    Serves w s' r.timer := by
  obtain ⟨T, hT⟩ := h.inv
  have hmeets : DequeueMeets s (.timer now run context) :=
    h.even.dequeueMeets h.front hT hv.2.1 hnow hno
  have hinv : ∃ T', Inv s' T' (current s') :=
    ((hT.timer hv.2.1 hs).resolve_right fun hbad => hbad.1 hmeets).2
  have hqueue := h.entities_eq hT
  by_cases hq : r.queue = []
  · have hempty : s.cfsPickNext = some none := by
      rw [cfsPickNext_eq hT.queue.toShaped, hqueue, hq]
      rfl
    simp only [System.timer, Option.bind_eq_bind, Option.bind_eq_some_iff] at hs
    obtain ⟨⟨s₁, frame⟩, hs₁, hs⟩ := hs
    obtain rfl := Option.some.inj hs
    exact h.timer_empty hq hnow hno hinv rfl hempty ((schedule_outcome hs₁).congr rfl rfl)
  · obtain ⟨n, q, m, nh, hnq, hm, hne, -, hmn, hcpu, ht, hclock⟩ :=
      hT.timer_switch (hqueue ▸ hq) hs
    have hord := h.order hnow hno hm
    have htimer : r.timer = ⟨some n, false, r.order.tail⟩ ∧ r.order = n :: r.order.tail := by
      rw [RoundRobin.timer, RoundRobin.order, ← hqueue, hnq]
      exact ⟨rfl, rfl⟩
    have heven : Even w now m := h.even.left h.front hnow hno hm
    have hvr : vruntimes s'.threads = vruntimes m := by
      rw [ht]
      exact vruntimes_update_same hmn rfl
    rw [htimer.1]
    refine ⟨hinv, by rw [current, hcpu]; rfl, ?_, fun t th htc hth => ?_, ?_⟩
    · rw [hvr]
      show Lined (vruntimes m) (n :: r.order.tail)
      rw [← htimer.2]
      exact hord
    · obtain rfl := ThreadRef.thread.inj (Option.some.inj (hcpu.symm.trans htc))
      rw [ht, Function.update_self] at hth
      obtain rfl := Option.some.inj hth
      exact iff_of_false Bool.false_ne_true (by simp)
    · rw [ht, hclock]
      exact heven.update_same hmn rfl rfl rfl

/-- The running thread dies. -/
theorem Serves.die (h : Serves w s r) (hv : Valid s .die) (hs : s.die = some s') :
    Serves w s' { r with dead := true } := by
  obtain ⟨T, hT⟩ := h.inv
  have hinv : ∃ T', Inv s' T' (current s') :=
    ((hT.step (a := .die) hv hs).resolve_right fun hbad => hbad.1 trivial).2
  obtain ⟨u, uh, hc, huh, hcpu, hclock, ht⟩ := die_threads hs
  have hcur : current s' = current s := by rw [current, current, hcpu]
  have hvr : vruntimes s'.threads = vruntimes s.threads := by
    rw [ht]
    exact vruntimes_update_same huh rfl
  refine ⟨hinv, hcur.trans h.running, ?_, fun t th htc hth => ?_, ?_⟩
  · rw [hvr]
    exact h.lined
  · rw [hcpu] at htc
    obtain rfl := ThreadRef.thread.inj (Option.some.inj (hc.symm.trans htc))
    rw [ht, Function.update_self] at hth
    obtain rfl := Option.some.inj hth
    exact iff_of_true rfl rfl
  · rw [ht, hclock]
    exact h.even.update_same huh rfl rfl rfl

end Serves

/-! ## Runs -/

/-- No process is run; `uptime` is later at each timer interrupt, and no charge wraps. -/
def Steady (s : System) : Action → Prop
  | .spawn _ _ _ _ _ => False
  | .timer now _ _ => s.clock < now ∧ NoWrap s now
  | .die => True

/-- The runs of the processor, beside the abstract scheduler. -/
abbrev TurnsRun (x : System × RoundRobin) : System × RoundRobin → Prop :=
  Run (fun x a => (step x.1 a).map fun s' => (s', x.2.act a))
    (fun x a => Valid x.1 a ∧ Steady x.1 a) x

/-- **Threads of one priority take turns.** From a state that is reached with every `cfs_dequeue`
meeting its thread, and in which the threads have one weight and `vruntime`s that are different and
near each other, the least one's thread running, the run queue and the current thread are those of a
round-robin scheduler in every run. -/
theorem round_robin {kernelRoot idleRip rsp0 w : Nat} {regs : Registers} {s s' : System}
    {r r' : RoundRobin} {T : NTree Addr}
    (h : Reach DequeueMeets (.boot kernelRoot idleRip rsp0 regs) s)
    (heven : Even w s.clock s.threads) (hfront : Front s) (hT : Holds s.cfs.tree T)
    (hqueue : r.queue = entities T) (hrunning : r.running.toList = current s)
    (hdead : ∀ t th, s.cpu.thread = some (.thread t) → s.threads t = some th →
      (r.dead = true ↔ th.state = .dead)) (hrun : TurnsRun (s, r) (s', r')) :
    ∃ T', Holds s'.cfs.tree T' ∧ entities T' = r'.queue ∧ current s' = r'.running.toList := by
  obtain ⟨T₀, hinv⟩ := reach_inv h
  obtain rfl := holds_unique hT hinv.queue.holds
  have hstart : Serves w s r := by
    refine ⟨⟨T, hinv⟩, hrunning.symm, ?_, hdead, heven⟩
    rw [hrunning, hqueue]
    exact hinv.lined heven hfront
  have hserves : Serves w s' r' := by
    refine Run.invariant (fun x => Serves w x.1 x.2) hstart ?_ hrun
    rintro ⟨x, y⟩ a x' hx ⟨hv, hok⟩ hstep
    obtain ⟨x', hs, rfl⟩ := Option.map_eq_some_iff.mp hstep
    cases a with
    | spawn p v root ts rs => exact hok.elim
    | timer now run context => exact hx.timer hv hok.1 hok.2 hs
    | die => exact hx.die hv hs
  obtain ⟨T', hT'⟩ := hserves.inv
  exact ⟨T', hT'.queue.holds, hserves.entities_eq hT', hserves.running⟩

/-- Three interrupts with two threads. -/
def turn₁ : System := (step early₂ (.timer 3 40 kernelFrame)).get rfl
def turn₂ : System := (step turn₁ (.timer 4 50 userFrame)).get rfl
def turn₃ : System := (step turn₂ (.timer 5 60 userFrame)).get rfl

theorem turnsRun_early : TurnsRun (early₂, ⟨none, false, [100, 200]⟩)
    (turn₃, ⟨some 100, false, [200]⟩) := by
  have h₁ : TurnsRun (early₂, ⟨none, false, [100, 200]⟩) (turn₁, ⟨some 100, false, [200]⟩) := by
    refine .step (.timer 3 40 kernelFrame) .init
      ⟨⟨by decide, ⟨rfl, by decide, by decide⟩, rfl, rfl⟩, by decide, fun t th hc => ?_⟩ rfl
    exact absurd (show none = some (ThreadRef.thread t) from hc) (Option.some_ne_none _).symm
  have h₂ : TurnsRun (early₂, ⟨none, false, [100, 200]⟩) (turn₂, ⟨some 200, false, [100]⟩) := by
    refine .step (.timer 4 50 userFrame) h₁
      ⟨⟨by decide, ⟨rfl, by decide, by decide⟩, rfl, rfl⟩, by decide, fun t th hc ht => ?_⟩ rfl
    obtain rfl := ThreadRef.thread.inj (Option.some.inj hc)
    obtain rfl := Option.some.inj ht
    decide
  refine .step (.timer 5 60 userFrame) h₂
    ⟨⟨by decide, ⟨rfl, by decide, by decide⟩, rfl, rfl⟩, by decide, fun t th hc ht => ?_⟩ rfl
  obtain rfl := ThreadRef.thread.inj (Option.some.inj hc)
  obtain rfl := Option.some.inj ht
  decide

theorem even_early₂ : Even 1 early₂.clock early₂.threads where
  started t th ht := by
    rcases early₂_threads ht with ⟨-, rfl⟩ | ⟨-, rfl⟩ <;> rfl
  weight t th ht := by
    rcases early₂_threads ht with ⟨-, rfl⟩ | ⟨-, rfl⟩ <;> rfl
  spread t th u uh ht hu := by
    rcases early₂_threads ht with ⟨-, rfl⟩ | ⟨-, rfl⟩ <;>
      rcases early₂_threads hu with ⟨-, rfl⟩ | ⟨-, rfl⟩ <;> decide
  distinct t th u uh ht hu he := by
    rcases early₂_threads ht with ⟨rfl, rfl⟩ | ⟨rfl, rfl⟩ <;>
      rcases early₂_threads hu with ⟨rfl, rfl⟩ | ⟨rfl, rfl⟩
    · rfl
    · exact absurd he (by decide)
    · exact absurd he (by decide)
    · rfl

/-- The first thread runs again. -/
theorem round_robin_early : ∃ T', Holds turn₃.cfs.tree T' ∧ entities T' = [200] ∧
    current turn₃ = [100] := by
  have htwo : Holds early₂.cfs.tree (.node .nil .black (10, 100) (.node .nil .red (20, 200) .nil)) :=
    ⟨rfl, ⟨rfl, trivial, ⟨rfl, trivial, trivial⟩⟩, by decide⟩
  refine round_robin reach_early₂ even_early₂ (fun t th u uh hc => ?_) htwo rfl rfl
    (fun t th hc => ?_) turnsRun_early
  · exact absurd (show none = some (ThreadRef.thread t) from hc) (Option.some_ne_none _).symm
  · exact absurd (show none = some (ThreadRef.thread t) from hc) (Option.some_ne_none _).symm

end Colibri.Scheduler
