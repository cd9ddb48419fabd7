import Colibri.Scheduler.Cfs

/-!
# The order of the run queue

What `rb_insert` and `rb_remove` do to the sequence of the queued entities, on every well-formed tree
whatever its cached `leftmost` is (`rb_insert_remove_sequence`), and what `cfs_pick_next` returns along
a run (`pick_next_earliest`).

Equal keys go to the right, so entities of one `vruntime` stand in the order of their insertion.
`Ordered` says that of the whole sequence: it is sorted by `vruntime` and then by the time of the
insertion. No rotation changes the sequence, and a removal leaves a part of it.
-/

namespace Colibri.Scheduler

open Colibri.Lib Colibri.Lib.ColorTree

variable {E K : Type} [LinearOrder K]

/-! ## One operation -/

/-- A tree in memory that is sorted, has the red-black shape and consistent parent links. The ghost
count covers its nodes. -/
structure SortedTree (key : E → K) (t : SchedTree E) (T : NTree E) : Prop where
  holds : Holds t T
  balanced : Balanced T
  sorted : Sorted key T
  size : T.size ≤ t.size

/-- `es'` is `es` with `se` right after the last entity whose key is at most its own. -/
def InsertedAfter (key : E → K) (se : E) (es es' : List E) : Prop :=
  ∃ A B, es = A ++ B ∧ es' = A ++ se :: B ∧ (∀ x ∈ A, key x ≤ key se) ∧ ∀ x ∈ B, key se < key x

/-- `es'` is `es` without one occurrence of `se`. -/
def Erased (se : E) (es es' : List E) : Prop := ∃ A B, es = A ++ se :: B ∧ es' = A ++ B

/-- **The descent of `rb_remove` finds an entity** whose key no other one shares. -/
theorem reaches_of_unshared {key : E → K} {se : E} {T : NTree E} (hs : Sorted key T)
    (hse : se ∈ entities T) (huniq : ∀ x ∈ entities T, x ≠ se → key x ≠ key se) :
    Reaches key se T := by
  induction T with
  | nil => exact absurd hse List.not_mem_nil
  | node l c x r ihl ihr =>
    rw [sorted_iff, entities_node, List.pairwise_append, List.pairwise_cons] at hs
    rw [entities_node] at huniq hse
    obtain ⟨hsl, ⟨hxr, hsr⟩, hlr⟩ := hs
    by_cases hx : x.2 = se
    · exact .inl hx
    · have hne : key x.2 ≠ key se := huniq x.2 (by simp) hx
      have hul := fun y (hy : y ∈ entities l) => huniq y (List.mem_append_left _ hy)
      have hur := fun y (hy : y ∈ entities r) => huniq y (by simp [hy])
      rcases List.mem_append.mp hse with hl | hr
      · have hlt : key se < key x.2 := lt_of_le_of_ne (hlr se hl x.2 (by simp)) hne.symm
        refine .inr ?_
        rw [if_pos hlt]
        exact ihl (sorted_iff.mpr hsl) hl hul
      · have hr : se ∈ entities r := (List.mem_cons.mp hr).resolve_left (Ne.symm hx)
        refine .inr ?_
        rw [if_neg (hxr se hr).not_gt]
        exact ihr (sorted_iff.mpr hsr) hr hur

/-- **What the operations do to the sequence** of a well-formed tree. `rb_insert` puts the entity
behind those whose key is not larger; `rb_remove` erases an entity whose key no other one shares, does
nothing for one that is not there, and one of the two in any case. -/
theorem rb_insert_remove_sequence [DecidableEq E] {key : E → K} {t : SchedTree E} {T : NTree E}
    (h : SortedTree key t T) :
    (∀ se run, se ∉ entities T → t.nodes run = none → ∃ t' T', t.rbInsert key se run = some t' ∧
      Holds t' T' ∧ InsertedAfter key se (entities T) (entities T')) ∧
    ∀ se, ∃ t' T', t.rbRemove key se = some t' ∧ Holds t' T' ∧
      (entities T' = entities T ∨ Erased se (entities T) (entities T')) ∧
      (se ∈ entities T → (∀ x ∈ entities T, x ≠ se → key x ≠ key se) →
        Erased se (entities T) (entities T')) ∧
      (se ∉ entities T → entities T' = entities T) := by
  refine ⟨fun se run _ hrun => ?_, fun se => ?_⟩
  · obtain ⟨t', T', l, r, ht', hT', -, -, hl, hl', hsp, -⟩ :=
      rbInsert_spec key se h.holds h.balanced h.size hrun
    obtain ⟨hle, hlt⟩ := hsp h.sorted
    refine ⟨t', T', ht', hT', l.map Prod.snd, r.map Prod.snd, ?_, ?_, ?_, ?_⟩
    · rw [entities, hl, List.map_append]
    · rw [entities, hl', List.map_append, List.map_cons]
    · intro y hy
      obtain ⟨x, hx, rfl⟩ := List.mem_map.mp hy
      exact hle x hx
    · intro y hy
      obtain ⟨x, hx, rfl⟩ := List.mem_map.mp hy
      exact hlt x hx
  · rcases rbRemove_spec key se h.holds h.balanced h.size with
      ⟨hre, ht'⟩ | ⟨hre, t', A, B, ht', hT, -, T', x, hT', -, hents, -⟩
    · exact ⟨t, T, ht', h.holds, .inl rfl,
        fun hse huniq => absurd (reaches_of_unshared h.sorted hse huniq) hre, fun _ => rfl⟩
    · have he : Erased se (entities T) (entities T') := ⟨A, B, hT, hents⟩
      exact ⟨t', T', ht', hT', .inr he, fun _ _ => he, fun hse => absurd (reaches_mem hre) hse⟩

/-- A tree of two entities of one key, with a wrong `leftmost`. -/
def twoEntities : SchedTree Nat where
  root := some 10
  leftmost := none
  nodes := fun a => if a = 10 then some ⟨none, some 20, none, .black, 0⟩
    else if a = 20 then some ⟨none, none, some 10, .red, 1⟩ else none
  size := 2

/-- A third of the same key goes last, and an entity that is not there changes nothing. -/
theorem rb_insert_remove_sequence_ties : ∃ t' T', twoEntities.rbInsert (fun _ => 5) 2 30 = some t' ∧
    Holds t' T' ∧ InsertedAfter (fun _ => 5) 2 [0, 1] (entities T') := by
  have h : SortedTree (fun _ : Nat => 5) twoEntities
      (.node .nil .black (10, 0) (.node .nil .red (20, 1) .nil)) := by
    refine ⟨⟨rfl, ⟨rfl, trivial, rfl, trivial, trivial⟩, by decide⟩, ⟨?_, 1, ?_⟩, ?_, by decide⟩
    · simp [NoRedRed, ColorTree.color]
    · simp [BlackHeight]
    · simp [Sorted, toList]
  exact (rb_insert_remove_sequence h).1 2 30 (by decide) (by decide)

/-! ## Runs -/

/-- A run queue with the history of its insertions: how many there were, and when each entity was
inserted last. -/
structure TimedQueue (E K : Type) where
  queue : QueueState E K
  clock : Nat
  since : E → Nat

/-- The steps of `QueueStep`, with the history. -/
inductive TimedStep [DecidableEq E] : TimedQueue E K → TimedQueue E K → Prop
  | insert (s : TimedQueue E K) (se : E) (run : Addr) (t : SchedTree E)
      (hse : ¬ Queued s.queue.tree se) (hrun : s.queue.tree.nodes run = none)
      (h : s.queue.tree.rbInsert s.queue.vruntime se run = some t) :
      TimedStep s ⟨⟨t, s.queue.vruntime⟩, s.clock + 1, Function.update s.since se s.clock⟩
  | remove (s : TimedQueue E K) (se : E) (t : SchedTree E)
      (h : s.queue.tree.rbRemove s.queue.vruntime se = some t) :
      TimedStep s ⟨⟨t, s.queue.vruntime⟩, s.clock, s.since⟩
  | account (s : TimedQueue E K) (v : E → K)
      (h : ∀ se, Queued s.queue.tree se → v se = s.queue.vruntime se) :
      TimedStep s ⟨⟨s.queue.tree, v⟩, s.clock, s.since⟩

/-- The states of the runs from the empty tree. -/
def TimedReach [DecidableEq E] (v₀ : E → K) (since₀ : E → Nat) : TimedQueue E K → Prop :=
  Relation.ReflTransGen TimedStep ⟨⟨.empty, v₀⟩, 0, since₀⟩

/-- The sequence is sorted by `vruntime`, and then by the time of the insertion. -/
def Earlier (key : E → K) (since : E → Nat) (x y : E) : Prop :=
  key x < key y ∨ (key x = key y ∧ since x < since y)

/-- What every step keeps: the tree holds the queue `T`, whose entities are in order and were inserted
before now. -/
structure Ordered (s : TimedQueue E K) (T : NTree E) : Prop where
  queue : Queue s.queue.vruntime s.queue.tree T
  earlier : (entities T).Pairwise (Earlier s.queue.vruntime s.since)
  past : ∀ x ∈ entities T, s.since x < s.clock

section

variable {s s' : TimedQueue E K} {T : NTree E}

/-- **An insertion** puts the entity behind all of its `vruntime`, which are older. -/
theorem Ordered.insert (h : Ordered s T) {se : E} {run : Addr} {t : SchedTree E} [DecidableEq E]
    (hse : se ∉ entities T) (hrun : s.queue.tree.nodes run = none)
    (ht : s.queue.tree.rbInsert s.queue.vruntime se run = some t) :
    ∃ T', Ordered ⟨⟨t, s.queue.vruntime⟩, s.clock + 1, Function.update s.since se s.clock⟩ T' := by
  obtain ⟨t₁, T', -, -, ht₁, hq, -, -⟩ := h.queue.insert hse hrun
  obtain ⟨t₂, T₂, l, r, ht₂, hs₂, hl, hl', hsp⟩ := h.queue.toShaped.insert s.queue.vruntime se hrun
  obtain rfl : t₁ = t := Option.some.inj (ht₁.symm.trans ht)
  obtain rfl : t₁ = t₂ := Option.some.inj (ht.symm.trans ht₂)
  obtain rfl : T' = T₂ := holds_unique hq.holds hs₂.holds
  obtain ⟨hle, hlt⟩ := hsp h.queue.sorted
  have hT : entities T = l.map Prod.snd ++ r.map Prod.snd := by rw [entities, hl, List.map_append]
  have hT' : entities T' = l.map Prod.snd ++ se :: r.map Prod.snd := by
    rw [entities, hl', List.map_append, List.map_cons]
  have hsince : ∀ x ∈ entities T, Function.update s.since se s.clock x = s.since x := by
    intro x hx
    exact Function.update_of_ne (fun e : x = se => hse (e ▸ hx)) _ _
  have hold : (entities T).Pairwise
      (Earlier s.queue.vruntime (Function.update s.since se s.clock)) := by
    refine h.earlier.imp_of_mem fun {x y} hx hy hxy => ?_
    rw [Earlier, hsince x hx, hsince y hy]
    exact hxy
  refine ⟨T', hq, ?_, fun x hx => ?_⟩
  · rw [hT, List.pairwise_append] at hold
    rw [hT', List.pairwise_append, List.pairwise_cons]
    refine ⟨hold.1, ⟨fun y hy => ?_, hold.2.1⟩, fun x hx y hy => ?_⟩
    · obtain ⟨z, hz, rfl⟩ := List.mem_map.mp hy
      exact .inl (hlt z hz)
    · rcases List.mem_cons.mp hy with rfl | hy
      · have hxT : x ∈ entities T := by rw [hT]; exact List.mem_append_left _ hx
        obtain ⟨z, hz, rfl⟩ := List.mem_map.mp hx
        refine (hle z hz).lt_or_eq.imp id fun heq => ⟨heq, ?_⟩
        change Function.update s.since y s.clock z.2 < Function.update s.since y s.clock y
        rw [hsince _ hxT, Function.update_self]
        exact h.past _ hxT
      · exact hold.2.2 x hx y hy
  · change Function.update s.since se s.clock x < s.clock + 1
    by_cases hxe : x = se
    · rw [hxe, Function.update_self]
      exact Nat.lt_succ_self _
    · have hxT : x ∈ entities T := by
        rw [hT', List.mem_append, List.mem_cons] at hx
        rw [hT, List.mem_append]
        exact hx.imp id fun hx => hx.resolve_left hxe
      rw [hsince x hxT]
      exact Nat.lt_succ_of_lt (h.past x hxT)

/-- **Every step keeps the order.** -/
theorem Ordered.step [DecidableEq E] (h : Ordered s T) (hstep : TimedStep s s') :
    ∃ T', Ordered s' T' := by
  cases hstep with
  | insert se run t hse hrun ht =>
    exact h.insert (fun hm => hse ⟨T, h.queue.holds, hm⟩) hrun ht
  | remove se t ht =>
    rcases h.queue.remove se with ⟨-, ht'⟩ | ⟨-, t', T', A, B, ht', hq, hT, hT', -⟩
    · obtain rfl : s.queue.tree = t := Option.some.inj (ht'.symm.trans ht)
      exact ⟨T, h.queue, h.earlier, h.past⟩
    · obtain rfl : t' = t := Option.some.inj (ht'.symm.trans ht)
      have hsub : (entities T').Sublist (entities T) := by
        rw [hT, hT']
        exact (List.Sublist.refl A).append (List.sublist_cons_self se B)
      exact ⟨T', hq, h.earlier.sublist hsub, fun x hx => h.past x (hsub.subset hx)⟩
  | account v hv =>
    have hkey : ∀ se ∈ entities T, v se = s.queue.vruntime se := fun se hse =>
      hv se ⟨T, h.queue.holds, hse⟩
    refine ⟨T, h.queue.rekey hkey, h.earlier.imp_of_mem fun {x y} hx hy hxy => ?_, h.past⟩
    change Earlier v s.since x y
    rw [Earlier, hkey x hx, hkey y hy]
    exact hxy

theorem timedReach_ordered [DecidableEq E] {v₀ : E → K} {since₀ : E → Nat}
    (h : TimedReach v₀ since₀ s) : ∃ T, Ordered s T := by
  induction h with
  | refl => exact ⟨.nil, Queue.empty v₀, List.Pairwise.nil, by simp [entities, toList]⟩
  | tail _ hstep ih =>
    obtain ⟨T, hT⟩ := ih
    exact hT.step hstep

end

/-- **`cfs_pick_next` along every run.** The cached `leftmost` is the first node of the tree. So
`cfs_pick_next` returns `NULL` exactly if nothing is queued, and otherwise a queued entity whose
`vruntime` is minimal, the first inserted of those. -/
theorem pick_next_earliest {v₀ : Addr → K} {since₀ : Addr → Nat} {q : TimedQueue Addr K}
    (h : TimedReach v₀ since₀ q) (s : System) (hs : s.cfs.tree = q.queue.tree) :
    (∃ T, Holds q.queue.tree T ∧ q.queue.tree.leftmost = firstAddr T ∧
      (q.queue.tree.leftmost = none ↔ q.queue.tree.root = none)) ∧
    ∃ p, s.cfsPickNext = some p ∧ (p = none ↔ ∀ x, ¬ Queued q.queue.tree x) ∧
      ∀ se, p = some se → Queued q.queue.tree se ∧ ∀ x, Queued q.queue.tree x →
        q.queue.vruntime se ≤ q.queue.vruntime x ∧
        (q.queue.vruntime x = q.queue.vruntime se → x ≠ se → q.since se < q.since x) := by
  obtain ⟨T, hT⟩ := timedReach_ordered h
  have hq : ∀ x, Queued q.queue.tree x ↔ x ∈ entities T := fun x => queued_iff hT.queue.holds
  refine ⟨⟨T, hT.queue.holds, hT.queue.leftmost, ?_⟩, (entities T).head?, ?_, ?_, fun se hse => ?_⟩
  · rw [hT.queue.leftmost, hT.queue.holds.root, ptr_eq_none, firstAddr]
    cases T with
    | nil => simp [toList]
    | node l c x r => simp [toList]
  · exact cfsPickNext_eq (hs ▸ hT.queue.toShaped)
  · rw [List.head?_eq_none_iff, List.eq_nil_iff_forall_not_mem]
    simp only [hq]
  · obtain ⟨es, hes⟩ : ∃ es, entities T = se :: es := by
      cases hT' : entities T with
      | nil => simp [hT'] at hse
      | cons x es =>
        rw [hT'] at hse
        exact ⟨es, by rw [Option.some.inj hse]⟩
    have hearlier := hT.earlier
    rw [hes, List.pairwise_cons] at hearlier
    refine ⟨(hq se).mpr (by rw [hes]; exact List.mem_cons_self), fun x hx => ?_⟩
    rw [hq x, hes] at hx
    rcases List.mem_cons.mp hx with rfl | hx
    · exact ⟨le_refl _, fun _ hne => absurd rfl hne⟩
    · rcases hearlier.1 x hx with hlt | ⟨heq, hlt⟩
      · exact ⟨hlt.le, fun he _ => absurd he hlt.ne'⟩
      · exact ⟨heq.le, fun _ _ => hlt⟩

/-- A machine with the run queue `t` and nothing else. -/
def queueOnly (t : SchedTree Addr) : System where
  threads := fun _ => none
  procs := fun _ => none
  vmms := fun _ => none
  kernelRoot := 0
  idleRip := 0
  cfs := ⟨t, 0⟩
  cpu := ⟨none, none, 0, 0, ⟨⟨0, 0⟩, 0, 0, 0, 0, 0⟩⟩
  clock := 0

/-- Two threads of one `vruntime` are inserted; the first is picked. -/
theorem pick_next_earliest_ties : ∃ q : TimedQueue Addr Nat,
    TimedReach (fun _ => 5) (fun _ => 0) q ∧ q.clock = 2 ∧
    (queueOnly q.queue.tree).cfsPickNext = some (some 1) ∧ q.since 1 < q.since 2 := by
  have hreach : TimedReach (fun _ : Addr => 5) (fun _ => 0) _ :=
    .tail (.tail .refl (.insert _ 1 10 _ ?_ rfl rfl)) (.insert _ 2 20 _ ?_ rfl rfl)
  · obtain ⟨-, p, hp, -, hse⟩ := pick_next_earliest hreach (queueOnly _) rfl
    have hpick : some (some 1) = some p := hp
    obtain rfl : some 1 = p := Option.some.inj hpick
    refine ⟨_, hreach, rfl, hp, ((hse 1 rfl).2 2 ?_).2 rfl (by decide)⟩
    refine ⟨.node .nil .black (10, 1) (.node .nil .red (20, 2) .nil), ⟨rfl, ?_, by decide⟩, by decide⟩
    exact ⟨rfl, trivial, rfl, trivial, trivial⟩
  · rintro ⟨T, hT, hm⟩
    rw [holds_unique hT (Queue.empty fun _ : Addr => 5).holds] at hm
    simp [entities, toList] at hm
  · rintro ⟨T, hT, hm⟩
    rw [@holds_unique _ _ _ (.node .nil .black (10, 1) .nil) hT
      ⟨rfl, ⟨rfl, trivial, trivial⟩, by decide⟩] at hm
    simp [entities, toList] at hm

end Colibri.Scheduler
