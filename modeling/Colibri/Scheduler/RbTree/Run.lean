import Colibri.Scheduler.RbTree.Remove

/-!
# Runs of the run queue's tree

`Shaped t T` collects what every operation keeps, whatever the keys are: the memory of `t` holds the
red-black tree `T`, whose first node is the cached `leftmost`. `Queue key t T` adds that `T` is
sorted by `key` and repeats no entity.
`Queue.insert`, `Queue.remove` and `Queue.rekey` are the three things that happen to a tree; the
runs of `QueueStep` are their sequences from the empty tree.
-/

namespace Colibri.Scheduler

open Colibri.Lib Colibri.Lib.ColorTree Colibri.Lib.Ctx

variable {E K : Type} [LinearOrder K]

/-- The entities of a tree, in in-order. -/
def entities (T : NTree E) : List E := T.toList.map Prod.snd

/-- What every operation keeps of a tree `t` that holds `T`, whatever happens to the keys. The live
nodes are those of `T`, so none is leaked. -/
structure Shaped (t : SchedTree E) (T : NTree E) : Prop where
  holds : Holds t T
  balanced : Balanced T
  size : t.size = T.size
  leftmost : t.leftmost = firstAddr T
  owned : ∀ i, (t.nodes i).isSome ↔ i ∈ addrs T

/-- What every operation keeps when the keys of queued entities do not change and no entity is
inserted twice. -/
structure Queue (key : E → K) (t : SchedTree E) (T : NTree E) : Prop extends Shaped t T where
  sorted : Sorted key T
  nodup : (entities T).Nodup

theorem sorted_iff {key : E → K} {T : NTree E} :
    Sorted key T ↔ (entities T).Pairwise fun x y => key x ≤ key y := by
  rw [Sorted, entities, List.pairwise_map]

theorem length_entities (T : NTree E) : (entities T).length = T.size := by
  rw [entities, List.length_map, toList_length]

/-- The zero-initialised tree. -/
theorem Queue.empty (key : E → K) : Queue key (.empty : SchedTree E) .nil :=
  ⟨⟨⟨rfl, trivial, List.nodup_nil⟩, ⟨trivial, 0, rfl⟩, rfl, rfl, by simp [SchedTree.empty]⟩,
    List.Pairwise.nil, List.nodup_nil⟩

/-- **`rb_insert`**: the entity stands behind those whose key is not larger, if the tree is
sorted. -/
theorem Shaped.insert (key : E → K) {t : SchedTree E} {T : NTree E} (h : Shaped t T) (se : E)
    {run : Addr} (hrun : t.nodes run = none) :
    ∃ t' T' l r, t.rbInsert key se run = some t' ∧ Shaped t' T' ∧ T.toList = l ++ r ∧
      T'.toList = l ++ (run, se) :: r ∧
      (Sorted key T → (∀ x ∈ l, key x.2 ≤ key se) ∧ ∀ x ∈ r, key se < key x.2) := by
  obtain ⟨t', T', l, r, ht', hT', hb, hs, hl, hl', hsp, hlm, hlive⟩ :=
    rbInsert_spec key se h.holds h.balanced h.size.ge hrun
  have hsize : T'.size = T.size + 1 := by
    rw [← toList_length, ← toList_length, hl, hl']
    simp
    omega
  refine ⟨t', T', l, r, ht', ⟨hT', hb, by rw [hs, h.size, hsize], ?_, fun i => ?_⟩, hl, hl', hsp⟩
  · rw [hlm, h.leftmost, firstAddr, firstAddr, hl, hl']
    cases l <;> simp
  · rw [hlive, h.owned, addrs, addrs, hl, hl']
    simp only [List.map_append, List.map_cons, List.mem_append, List.mem_cons]
    tauto

/-- **`rb_insert` on a queue.** -/
theorem Queue.insert {key : E → K} {t : SchedTree E} {T : NTree E} (h : Queue key t T) {se : E}
    {run : Addr} (hse : se ∉ entities T) (hrun : t.nodes run = none) :
    ∃ t' T' l r, t.rbInsert key se run = some t' ∧ Queue key t' T' ∧ T.toList = l ++ r ∧
      T'.toList = l ++ (run, se) :: r := by
  obtain ⟨t', T', l, r, ht', hT', hl, hl', hsp⟩ := h.toShaped.insert key se hrun
  obtain ⟨hle, hlt⟩ := hsp h.sorted
  refine ⟨t', T', l, r, ht', ⟨hT', ?_, ?_⟩, hl, hl'⟩
  · have hsort := h.sorted
    rw [Sorted, hl] at hsort
    rw [Sorted, hl']
    simp only [List.pairwise_append, List.pairwise_cons, List.mem_cons] at hsort ⊢
    refine ⟨hsort.1, ⟨fun x hx => (hlt x hx).le, hsort.2.1⟩, ?_⟩
    rintro x hx y (rfl | hy)
    · exact hle x hx
    · exact hsort.2.2 x hx y hy
  · have hnd := h.nodup
    rw [entities, hl, List.map_append] at hnd hse
    rw [entities, hl', List.map_append, List.map_cons]
    exact List.perm_middle.nodup_iff.mpr (List.nodup_cons.mpr ⟨hse, hnd⟩)

/-- **`rb_remove`**: one occurrence of the entity goes if the descent reaches it, and nothing
changes otherwise. -/
theorem Shaped.remove [DecidableEq E] (key : E → K) {t : SchedTree E} {T : NTree E}
    (h : Shaped t T) (se : E) :
    (¬ Reaches key se T ∧ t.rbRemove key se = some t) ∨
    (Reaches key se T ∧ ∃ t' T' A B, t.rbRemove key se = some t' ∧ Shaped t' T' ∧
      entities T = A ++ se :: B ∧ entities T' = A ++ B ∧ addrs T' ⊆ addrs T) := by
  rcases rbRemove_spec key se h.holds h.balanced h.size.ge with
    hno | ⟨hre, t', A, B, ht', hT, hs, T', x, hT', hb, hents, haddr, hlm, hlive⟩
  · exact .inl hno
  · have hsize : T.size = T'.size + 1 := by
      rw [← length_entities, ← length_entities, entities, entities, hT, hents]
      simp
      omega
    have hx : x ∉ addrs T' := (List.nodup_cons.mp (haddr.nodup_iff.mp h.holds.nodup)).1
    refine .inr ⟨hre, t', T', A, B, ht', ⟨hT', hb, by rw [hs, h.size, hsize]; rfl, hlm h.leftmost,
      fun i => ?_⟩,
      hT, hents, fun i hi => haddr.mem_iff.mpr (List.mem_cons_of_mem _ hi)⟩
    rw [hlive, h.owned, haddr.mem_iff, List.mem_cons]
    constructor
    · rintro ⟨hne, rfl | hi⟩
      · exact absurd rfl hne
      · exact hi
    · exact fun hi => ⟨fun e => hx (e ▸ hi), .inr hi⟩

/-- **`rb_remove` on a queue.** -/
theorem Queue.remove [DecidableEq E] {key : E → K} {t : SchedTree E} {T : NTree E}
    (h : Queue key t T) (se : E) :
    (¬ Reaches key se T ∧ t.rbRemove key se = some t) ∨
    (Reaches key se T ∧ ∃ t' T' A B, t.rbRemove key se = some t' ∧ Queue key t' T' ∧
      entities T = A ++ se :: B ∧ entities T' = A ++ B ∧ addrs T' ⊆ addrs T) := by
  rcases h.toShaped.remove key se with hno | ⟨hre, t', T', A, B, ht', hT', hents, hents', haddr⟩
  · exact .inl hno
  · have hsub : (entities T').Sublist (entities T) := by
      rw [hents, hents']
      exact (List.Sublist.refl A).append (List.sublist_cons_self se B)
    exact .inr ⟨hre, t', T', A, B, ht', ⟨hT', sorted_iff.mpr ((sorted_iff.mp h.sorted).sublist hsub),
      h.nodup.sublist hsub⟩, hents, hents', haddr⟩

/-- The keys of entities that are not queued may change. -/
theorem Queue.rekey {key key' : E → K} {t : SchedTree E} {T : NTree E} (h : Queue key t T)
    (hkey : ∀ se ∈ entities T, key' se = key se) : Queue key' t T := by
  refine ⟨h.toShaped, sorted_iff.mpr ?_, h.nodup⟩
  refine (sorted_iff.mp h.sorted).imp_of_mem fun hx hy hle => ?_
  rw [hkey _ hx, hkey _ hy]
  exact hle

/-! ## Ties

Equal keys are inserted to the right, but a rotation can bring an entity into the left subtree of
one with the same key. The descent of `rb_remove` then passes it by. -/

/-- Some ancestor of `se` has `se` in its left subtree and the same key as `se`. -/
def TieAbove (key : E → K) (se : E) : NTree E → Prop
  | .nil => False
  | .node l _ x r => (se ∈ entities l ∧ (key x.2 = key se ∨ TieAbove key se l)) ∨
      (se ∈ entities r ∧ TieAbove key se r)

theorem entities_node (l : NTree E) (c : Color) (x : Addr × E) (r : NTree E) :
    entities (.node l c x r) = entities l ++ x.2 :: entities r := by
  simp [entities, toList]

theorem reaches_mem {key : E → K} {se : E} {T : NTree E} (h : Reaches key se T) :
    se ∈ entities T := by
  induction T with
  | nil => exact h.elim
  | node l c x r ihl ihr =>
    rw [entities_node, List.mem_append, List.mem_cons]
    rcases h with rfl | h
    · exact .inr (.inl rfl)
    · split at h
      · exact .inl (ihl h)
      · exact .inr (.inr (ihr h))

/-- **What `rb_remove` finds**: a queued entity is missed exactly when there is a tie above it. -/
theorem reaches_iff {key : E → K} {se : E} {T : NTree E} (hs : Sorted key T)
    (hnd : (entities T).Nodup) (hse : se ∈ entities T) :
    Reaches key se T ↔ ¬ TieAbove key se T := by
  induction T with
  | nil => exact absurd hse List.not_mem_nil
  | node l c x r ihl ihr =>
    rw [sorted_iff, entities_node, List.pairwise_append, List.pairwise_cons] at hs
    rw [entities_node, List.nodup_append, List.nodup_cons] at hnd
    rw [entities_node, List.mem_append, List.mem_cons] at hse
    obtain ⟨hsl, ⟨hxr, hsr⟩, hlr⟩ := hs
    obtain ⟨hndl, ⟨hx, hndr⟩, hne⟩ := hnd
    simp only [Reaches, TieAbove]
    rcases hse with hl | rfl | hr
    · have hxe : x.2 ≠ se := fun e => hne se hl x.2 List.mem_cons_self e.symm
      have hr : se ∉ entities r := fun hr => hne se hl se (List.mem_cons_of_mem _ hr) rfl
      have ih := ihl (sorted_iff.mpr hsl) hndl hl
      rcases (hlr se hl x.2 List.mem_cons_self).lt_or_eq with hlt | heq
      · simp [hxe, hlt, hl, hr, ih, hlt.ne']
      · simp only [hxe, heq, lt_irrefl, if_false, false_or, hl, true_or, and_self, not_true, iff_false]
        exact fun h => hr (reaches_mem h)
    · have hl : x.2 ∉ entities l := fun hl => hne _ hl _ List.mem_cons_self rfl
      simp [hl, hx]
    · have hxe : x.2 ≠ se := fun e => hx (e ▸ hr)
      have hl : se ∉ entities l := fun hl => hne se hl se (List.mem_cons_of_mem _ hr) rfl
      simp [hxe, (hxr se hr).not_gt, hl, hr, ihr (sorted_iff.mpr hsr) hndr hr]

/-! ## Runs -/

/-- The entity `se` is in the tree. -/
def Queued (t : SchedTree E) (se : E) : Prop := ∃ T, Holds t T ∧ se ∈ entities T

theorem queued_iff {t : SchedTree E} {T : NTree E} (h : Holds t T) {se : E} :
    Queued t se ↔ se ∈ entities T := by
  constructor
  · rintro ⟨T', hT', hm⟩
    rwa [holds_unique h hT']
  · exact fun hm => ⟨T, h, hm⟩

/-- A tree with the `vruntime` of every entity. -/
structure QueueState (E K : Type) where
  tree : SchedTree E
  vruntime : E → K

/-- What happens to a run queue: an entity that is not queued is inserted, in a node that `alloc`
found; any entity is removed; the `vruntime` of entities that are not queued changes. -/
inductive QueueStep [DecidableEq E] : QueueState E K → QueueState E K → Prop
  | insert (s : QueueState E K) (se : E) (run : Addr) (t : SchedTree E)
      (hse : ¬ Queued s.tree se) (hrun : s.tree.nodes run = none)
      (h : s.tree.rbInsert s.vruntime se run = some t) : QueueStep s ⟨t, s.vruntime⟩
  | remove (s : QueueState E K) (se : E) (t : SchedTree E)
      (h : s.tree.rbRemove s.vruntime se = some t) : QueueStep s ⟨t, s.vruntime⟩
  | account (s : QueueState E K) (v : E → K) (h : ∀ se, Queued s.tree se → v se = s.vruntime se) :
      QueueStep s ⟨s.tree, v⟩

/-- The states of the runs from the empty tree. -/
def QueueReach [DecidableEq E] (v₀ : E → K) : QueueState E K → Prop :=
  Relation.ReflTransGen QueueStep ⟨.empty, v₀⟩

theorem queueStep_queue [DecidableEq E] {s s' : QueueState E K} (hstep : QueueStep s s')
    {T : NTree E} (h : Queue s.vruntime s.tree T) : ∃ T', Queue s'.vruntime s'.tree T' := by
  cases hstep with
  | insert se run t hse hrun ht =>
    obtain ⟨t', T', -, -, ht', hq, -⟩ := h.insert (fun hm => hse ⟨T, h.holds, hm⟩) hrun
    obtain rfl : t' = t := by simpa [ht'] using ht
    exact ⟨T', hq⟩
  | remove se t ht =>
    rcases h.remove se with ⟨-, ht'⟩ | ⟨-, t', T', -, -, ht', hq, -⟩
    · obtain rfl : s.tree = t := by simpa [ht'] using ht
      exact ⟨T, h⟩
    · obtain rfl : t' = t := by simpa [ht'] using ht
      exact ⟨T', hq⟩
  | account v hv => exact ⟨T, h.rekey fun se hse => hv se ⟨T, h.holds, hse⟩⟩

/-- **The invariant of the run queue.** -/
theorem queueReach_queue [DecidableEq E] {v₀ : E → K} {s : QueueState E K} (h : QueueReach v₀ s) :
    ∃ T, Queue s.vruntime s.tree T := by
  induction h with
  | refl => exact ⟨.nil, Queue.empty v₀⟩
  | tail _ hstep ih =>
    obtain ⟨T, hT⟩ := ih
    exact queueStep_queue hstep hT

/-- The tree in memory is a red-black tree sorted by `key`, with every parent pointer in place and
the logarithmic height such a tree has. Its root may be red. -/
structure WellFormed (key : E → K) (t : SchedTree E) (T : NTree E) : Prop where
  holds : Holds t T
  sorted : Sorted key T
  noRedRed : T.NoRedRed
  blackHeight : ∃ n, T.BlackHeight n
  nodup : (entities T).Nodup
  height : T.height ≤ 2 * Nat.log 2 (T.size + 1) + 1

/-- **Every reachable run queue is well formed, and no operation on it faults**: `rb_insert` and
`rb_remove` follow no `NULL` and no dangling pointer, and their loops end.

`alloc` and `free` of a node are ideal here: `alloc` returns a block that is not in the tree, and
`free` returns. -/
theorem run_queue_well_formed [DecidableEq E] {v₀ : E → K} {s : QueueState E K}
    (h : QueueReach v₀ s) :
    (∃ T, WellFormed s.vruntime s.tree T) ∧
    (∀ se, (s.tree.rbRemove s.vruntime se).isSome) ∧
    (∀ se run, ¬ Queued s.tree se → s.tree.nodes run = none →
      (s.tree.rbInsert s.vruntime se run).isSome) := by
  obtain ⟨T, hT⟩ := queueReach_queue h
  obtain ⟨n, hn⟩ := hT.balanced.blackHeight
  refine ⟨⟨T, hT.holds, hT.sorted, hT.balanced.noRedRed, ⟨n, hn⟩, hT.nodup,
    height_le hn hT.balanced.noRedRed⟩, ?_, ?_⟩
  · intro se
    rcases hT.remove se with ⟨-, ht⟩ | ⟨-, t', T', -, -, ht, -⟩ <;> simp [ht]
  · intro se run hse hrun
    obtain ⟨t', T', -, -, ht, -⟩ := hT.insert (fun hm => hse ⟨T, hT.holds, hm⟩) hrun
    simp [ht]

/-- Two entities of one `vruntime` are inserted, and the first is removed again. -/
theorem run_queue_well_formed_ties :
    ∃ s : QueueState Nat Nat, QueueReach (fun _ => 5) s ∧ s.tree.root = some 10 ∧
      (∃ T, WellFormed s.vruntime s.tree T) ∧ (s.tree.rbRemove s.vruntime 1).isSome := by
  have hreach : QueueReach (fun _ : Nat => 5) _ :=
    .tail (.tail (.tail .refl (.insert _ 0 10 _ ?_ rfl rfl)) (.insert _ 1 20 _ ?_ rfl rfl))
      (.remove _ 0 _ rfl)
  · obtain ⟨hwf, hrem, -⟩ := run_queue_well_formed hreach
    exact ⟨_, hreach, rfl, hwf, hrem 1⟩
  · rintro ⟨T, hT, hm⟩
    rw [holds_unique hT (Queue.empty fun _ : Nat => 5).holds] at hm
    simp [entities, toList] at hm
  · rintro ⟨T, hT, hm⟩
    rw [@holds_unique _ _ _ (.node .nil .black (10, 0) .nil) hT
      ⟨rfl, ⟨rfl, trivial, trivial⟩, by decide⟩] at hm
    simp [entities, toList] at hm

end Colibri.Scheduler
