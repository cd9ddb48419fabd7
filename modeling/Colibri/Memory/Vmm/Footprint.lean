import Colibri.Memory.Vmm.Isolation

/-!
# What a page table's low half touches

The tables under two roots share the upper half of the address space. Below it, a root has tables of
its own and the pages that these map; with the free pages they are its `Footprint`. `Confined` says
that a change stays in the footprint, and the operations on a page table are confined: a table that is
hung in was a free page, and what is written is an entry of a low table.

`LowSpace` is what such a change keeps of the root itself, and `SameTables` what it keeps of every other
root whose tables are outside the footprint.
-/

namespace Colibri.Memory

open Colibri.Lib

/-- The paths to tables of the low half. The empty one is that of the root. -/
def LowPath (p : List Nat) : Prop := TablePath p ∧ ∀ i, p.head? = some i → i < 256

/-- The table `t` is the root or in use for its low half. -/
def LowTable (k : Kmem) (root t : Nat) : Prop :=
  ∃ p, LowPath p ∧ descend Entry.child k.tables root p = some t

/-- The pages that are free or mapped. -/
def PageOf (k : Kmem) (root p : Nat) : Prop := p ∈ k.free ∨ FrameOf k root p

/-- The tables of the low half, and the pages that may become ones. -/
def Footprint (k : Kmem) (root t : Nat) : Prop :=
  LowTable k root t ∨ ∃ p, PageOf k root p ∧ t = physToVirt p

/-- **The low half of a page table**: every page is under one address, and none is a table. -/
structure LowSpace (k : Kmem) (root : Nat) : Prop extends Backed k root where
  frame_pos : ∀ f, FrameOf k root f → 0 < f
  frame_lt : ∀ f, FrameOf k root f → f < 2 ^ 51
  noTable : ∀ f, FrameOf k root f → ¬ TableOf k root (physToVirt f)

/-- From `k` to `k'`, only what is under `root` has changed, and with the pages that were there. -/
structure Within (root : Nat) (k k' : Kmem) : Prop where
  tables : ∀ t, ¬ Footprint k root t → k'.tables t = k.tables t
  paths : ∀ p t, TablePath p → descend Entry.child k'.tables root p = some t →
    descend Entry.child k.tables root p = some t ∨ ∃ f, PageOf k root f ∧ t = physToVirt f
  pages : ∀ p, PageOf k' root p → PageOf k root p

/-- **A confined change.** -/
structure Confined (root : Nat) (k k' : Kmem) : Prop extends Within root k k' where
  space : LowSpace k' root

section

variable {k k' k'' : Kmem} {root t u : Nat}

theorem LowTable.tableOf (h : LowTable k root t) : TableOf k root t := by
  obtain ⟨p, hp, hd⟩ := h
  exact ⟨p, hp.1, hd⟩

theorem LowPath.nil : LowPath [] :=
  ⟨⟨Nat.zero_le 3, fun _ hi => absurd hi List.not_mem_nil, by simp⟩, fun _ hi => absurd hi (by simp)⟩

theorem LowTable.self : LowTable k root root := ⟨[], LowPath.nil, rfl⟩

theorem TableOf.self : TableOf k root root := LowTable.self.tableOf

/-- The beginnings of a low address's path are low. -/
theorem lowPath_of_va {va : Nat} (hva : va < lowhalfEnd) {r : List Nat} {j : Nat} {s : List Nat}
    (he : vaPath va = r ++ j :: s) : LowPath r := by
  refine ⟨(vaPath_pagePath (lowhalf_not_recursive hva)).tablePath he, fun i hi => ?_⟩
  cases r with
  | nil => exact absurd hi (by simp)
  | cons i' r =>
    obtain rfl : i' = i := Option.some.inj hi
    obtain ⟨hhead, -⟩ : va2Index va 3 = i' ∧ _ := List.cons.inj he
    rw [← hhead]
    unfold va2Index
    unfold lowhalfEnd at hva
    omega

/-! ## Tables that stay -/

theorem SameTables.tableOf (h : SameTables k k' root) : TableOf k' root t ↔ TableOf k root t := by
  constructor
  · rintro ⟨p, hp, hd⟩
    exact ⟨p, hp, h.descend_eq hp ▸ hd⟩
  · rintro ⟨p, hp, hd⟩
    exact ⟨p, hp, (h.descend_eq hp).trans hd⟩

theorem SameTables.lowTable (h : SameTables k k' root) : LowTable k' root t ↔ LowTable k root t := by
  constructor
  · rintro ⟨p, hp, hd⟩
    exact ⟨p, hp, h.descend_eq hp.1 ▸ hd⟩
  · rintro ⟨p, hp, hd⟩
    exact ⟨p, hp, (h.descend_eq hp.1).trans hd⟩

theorem SameTables.frameOf {f : Nat} (h : SameTables k k' root) :
    FrameOf k' root f ↔ FrameOf k root f := by
  constructor
  · rintro ⟨va, hva, e, hl, hf⟩
    exact ⟨va, hva, e, h.leafAt_va hva ▸ hl, hf⟩
  · rintro ⟨va, hva, e, hl, hf⟩
    exact ⟨va, hva, e, (h.leafAt_va hva).trans hl, hf⟩

/-- The free pages are usable as under another root `s`. -/
theorem ReadyOff.sameTables {s : Nat} (h : Ready k root) (hs : SameTables k k' root)
    (hr : Ready k'' s) (hsuf : k'.free <:+ k''.free)
    (hfree : ∀ p ∈ k'.free, ¬ TableOf k root (physToVirt p)) : Ready k' root :=
  h.of_sameTables hs (hr.nodup.sublist hsuf.sublist)
    (fun p hp => ⟨hr.aligned p (hsuf.subset hp), hr.pos p (hsuf.subset hp), hr.lt p (hsuf.subset hp)⟩)
    hfree

/-- **A space outside a change** stays one, if no page that is free now is one of its own. -/
theorem LowSpace.sameTables (h : LowSpace k root) (hs : SameTables k k' root) (hr : Ready k' root)
    (hfree : ∀ p ∈ k'.free, ¬ FrameOf k root p) : LowSpace k' root where
  toBacked := h.toBacked.sameTables hs hr hfree
  frame_pos := fun f hf => h.frame_pos f (hs.frameOf.mp hf)
  frame_lt := fun f hf => h.frame_lt f (hs.frameOf.mp hf)
  noTable := fun f hf ht => h.noTable f (hs.frameOf.mp hf) (hs.tableOf.mp ht)

/-! ## Changes in the footprint -/

theorem LowSpace.pageOf_lt (h : LowSpace k root) {p : Nat} (hp : PageOf k root p) : p < 2 ^ 51 := by
  rcases hp with hp | hp
  · exact h.ready.lt p hp
  · exact h.frame_lt p hp

theorem Within.lowTable (h : Within root k k') (ht : LowTable k' root t) :
    Footprint k root t := by
  obtain ⟨p, hp, hd⟩ := ht
  exact (h.paths p t hp.1 hd).imp (fun hd => ⟨p, hp, hd⟩) id

theorem Within.tableOf (h : Within root k k') (ht : TableOf k' root t) :
    TableOf k root t ∨ ∃ p, PageOf k root p ∧ t = physToVirt p := by
  obtain ⟨p, hp, hd⟩ := ht
  exact (h.paths p t hp hd).imp (fun hd => ⟨p, hp, hd⟩) id

theorem Within.footprint (h : Within root k k') (ht : Footprint k' root t) :
    Footprint k root t := by
  rcases ht with ht | ⟨p, hp, he⟩
  · exact h.lowTable ht
  · exact .inr ⟨p, h.pages p hp, he⟩

theorem Confined.refl (h : LowSpace k root) : Confined root k k :=
  ⟨⟨fun _ _ => rfl, fun _ _ _ hd => .inl hd, fun _ hp => hp⟩, h⟩

theorem Within.trans (h : Within root k k') (h' : Within root k' k'') : Within root k k'' := by
  refine ⟨fun t ht => ?_, fun p t hp hd => ?_, fun p hp => h.pages p (h'.pages p hp)⟩
  · rw [h'.tables t fun hf => ht (h.footprint hf), h.tables t ht]
  · rcases h'.paths p t hp hd with hd | ⟨f, hf, he⟩
    · exact h.paths p t hp hd
    · exact .inr ⟨f, h.pages f hf, he⟩

theorem Confined.trans (h : Confined root k k') (h' : Confined root k' k'') :
    Confined root k k'' :=
  ⟨h.toWithin.trans h'.toWithin, h'.space⟩

/-- **Fewer free pages**: a page that was taken, say. -/
theorem Confined.take (h : LowSpace k root) (ht : k'.tables = k.tables) (hf : k'.free <:+ k.free) :
    Confined root k k' := by
  have hframe : ∀ {f}, FrameOf k' root f ↔ FrameOf k root f := by
    intro f
    unfold FrameOf
    rw [ht]
  have htable : ∀ {t}, TableOf k' root t ↔ TableOf k root t := by
    intro t
    unfold TableOf
    rw [ht]
  refine ⟨⟨fun t _ => by rw [ht], fun p t _ hd => .inl (ht ▸ hd), fun p hp => ?_⟩,
    ⟨h.toBacked.suffix ht hf, ?_, ?_, ?_⟩⟩
  · exact hp.imp (fun hm => hf.subset hm) hframe.mp
  · exact fun f hfr => h.frame_pos f (hframe.mp hfr)
  · exact fun f hfr => h.frame_lt f (hframe.mp hfr)
  · exact fun f hfr htb => h.noTable f (hframe.mp hfr) (htable.mp htb)

/-- More tables, out of free pages, and the same leaves. -/
theorem LowSpace.grown (h : LowSpace k root) (hg : Grown root k k')
    (hpaths : ∀ p t, TablePath p → descend Entry.child k'.tables root p = some t →
      descend Entry.child k.tables root p = some t ∨ ∃ f ∈ k.free, t = physToVirt f) :
    LowSpace k' root := by
  have hleaf : ∀ va < lowhalfEnd, leafAt k'.tables root (vaPath va) = leafAt k.tables root (vaPath va) :=
    fun va hva => hg.leaves _ (vaPath_pagePath (lowhalf_not_recursive hva))
  have hframe : ∀ f, FrameOf k' root f → FrameOf k root f := by
    rintro f ⟨va, hva, e, hl, hf⟩
    exact ⟨va, hva, e, hleaf va hva ▸ hl, hf⟩
  have hnotFree : ∀ f, FrameOf k root f → f ∉ k.free := by
    rintro f ⟨va, hva, e, hl, rfl⟩
    exact h.notFree va hva e hl
  refine ⟨⟨hg.ready, fun va hva level e he => ?_, fun va hva e he hm => ?_,
    fun va hva va' hva' e e' he he' heq => ?_⟩, fun f hf => h.frame_pos f (hframe f hf),
    fun f hf => h.frame_lt f (hframe f hf), fun f hf ht => ?_⟩
  · rw [hleaf va hva] at he
    exact h.small va hva level e he
  · rw [hleaf va hva] at he
    exact h.notFree va hva e he (hg.free.subset hm)
  · rw [hleaf va hva] at he
    rw [hleaf va' hva'] at he'
    exact h.apart va hva va' hva' e e' he he' heq
  · obtain ⟨p, hp, hd⟩ := ht
    rcases hpaths p _ hp hd with hd | ⟨f', hf', he⟩
    · exact h.noTable f (hframe f hf) ⟨p, hp, hd⟩
    · have hff := physToVirt_inj (h.frame_lt f (hframe f hf)) (h.ready.lt f' hf') he
      exact hnotFree f (hframe f hf) (hff ▸ hf')

/-- **Hanging in a table** below a low entry. -/
theorem Confined.link (h : LowSpace k root) {r : List Nat} {i : Nat}
    (ht : descend Entry.child k.tables root r = some t) (hr : LowPath (r ++ [i]))
    (hnp : (k.tables t i).present = false) {p : Nat} {ps : List Nat} (hfree : k.free = p :: ps) :
    Confined root k ((({ k with free := ps } : Kmem).setEntry t i (Entry.ofTable p)).clearTable
      (physToVirt p)) := by
  have hp : p ∈ k.free := by rw [hfree]; exact List.mem_cons_self
  obtain ⟨hg, -⟩ := h.ready.link ht hr.1 hnp hfree
  have hc := Entry.child_ofTable (h.ready.aligned p hp) (h.ready.lt p hp)
  have hlow : LowTable k root t := by
    refine ⟨r, ⟨TablePathOff.of_prefix ⟨[i], rfl⟩ hr.1, fun j hj => hr.2 j ?_⟩, ht⟩
    rw [List.head?_append, hj, Option.some_or]
  have hpaths : ∀ q u, TablePath q → descend Entry.child
      ((({ k with free := ps } : Kmem).setEntry t i (Entry.ofTable p)).clearTable
        (physToVirt p)).tables root q = some u →
      descend Entry.child k.tables root q = some u ∨ ∃ f ∈ k.free, u = physToVirt f := by
    intro q u hq hd
    rcases h.ready.tree.descend_link_cases TablePathOff.of_prefix ht hr.1 (h.ready.fresh p hp) hc
      Entry.child_zero hq hd with ⟨-, he⟩ | ⟨-, hd⟩
    · exact .inr ⟨p, hp, he⟩
    · exact .inl hd
  have hspace := h.grown hg hpaths
  refine ⟨⟨fun u hu => ?_, fun q u hq hd => ?_, fun f hf => ?_⟩, hspace⟩
  · have hut : u ≠ t := fun e => hu (.inl (e ▸ hlow))
    have hup : u ≠ physToVirt p := fun e => hu (.inr ⟨p, .inl hp, e⟩)
    have hold : Lib.link k.tables t i (Entry.ofTable p) (physToVirt p) ⟨0⟩ u = k.tables u := by
      rw [Lib.link, Function.update_of_ne hup, setEntry, Function.update_of_ne hut]
    exact hold
  · rcases hpaths q u hq hd with hd | ⟨f, hf, he⟩
    · exact .inl hd
    · exact .inr ⟨f, .inl hf, he⟩
  · rcases hf with hm | ⟨va, hva, e, hl, he⟩
    · exact .inl (hg.free.subset hm)
    · rw [hg.leaves _ (vaPath_pagePath (lowhalf_not_recursive hva))] at hl
      exact .inr ⟨va, hva, e, hl, he⟩

/-- **Writing the descriptor of a low page**, with a page of the footprint if it is present. -/
theorem Within.setLeaf (h : Within root k k') (hready : Ready k' root) {va i : Nat}
    (hva : va < lowhalfEnd) (hs : LeafSlot k' root va t i) {e : Entry}
    (he : e.present = true → PageOf k root (e.frame 0)) :
    Within root k (k'.setEntry t i e) := by
  have hpath := vaPath_pagePath (lowhalf_not_recursive hva)
  have hset := hs.set hready hpath e
  obtain ⟨r, hr, hd⟩ := hs
  refine ⟨fun u hu => ?_, fun q u hq hdu => ?_, fun f hf => ?_⟩
  · have hut : u ≠ t := fun e' => hu (h.lowTable ⟨r, lowPath_of_va hva hr, e' ▸ hd⟩)
    rw [← h.tables u hu]
    exact Function.update_of_ne hut _ _
  · rw [hready.descend_setLeaf hd (hr ▸ hpath) e hq] at hdu
    exact h.paths q u hq hdu
  · rcases hf with hm | ⟨x, hx, e', hl, hf⟩
    · exact h.pages f (.inl hm)
    · by_cases hp : vaPath x = vaPath va
      · rw [hp, hset.2.1] at hl
        obtain ⟨hl, hpr⟩ := Option.filter_eq_some_iff.mp hl
        obtain ⟨-, rfl⟩ := Prod.mk.inj (Option.some.inj hl)
        exact hf ▸ he hpr
      · rw [hset.2.2 _ (vaPath_pagePath (lowhalf_not_recursive hx)) hp] at hl
        exact h.pages f (.inr ⟨x, hx, e', hl, hf⟩)

/-- The space after a write to the descriptor of a low page. -/
theorem LowSpace.setLeaf (h : LowSpace k root) {va i : Nat} (hva : va < lowhalfEnd)
    (hs : LeafSlot k root va t i) {e : Entry} (hb : Backed (k.setEntry t i e) root)
    (he : e.present = true → (0 < e.frame 0 ∧ e.frame 0 < 2 ^ 51) ∧
      ¬ TableOf k root (physToVirt (e.frame 0))) : LowSpace (k.setEntry t i e) root := by
  have hpath := vaPath_pagePath (lowhalf_not_recursive hva)
  have hset := hs.set h.ready hpath e
  obtain ⟨r, hr, hd⟩ := hs
  have hframe : ∀ f, FrameOf (k.setEntry t i e) root f →
      (e.present = true ∧ f = e.frame 0) ∨ FrameOf k root f := by
    rintro f ⟨x, hx, e', hl, hf⟩
    by_cases hp : vaPath x = vaPath va
    · rw [hp, hset.2.1] at hl
      obtain ⟨hl, hpr⟩ := Option.filter_eq_some_iff.mp hl
      obtain ⟨-, rfl⟩ := Prod.mk.inj (Option.some.inj hl)
      exact .inl ⟨hpr, hf.symm⟩
    · rw [hset.2.2 _ (vaPath_pagePath (lowhalf_not_recursive hx)) hp] at hl
      exact .inr ⟨x, hx, e', hl, hf⟩
  have htable : ∀ {u}, TableOf (k.setEntry t i e) root u → TableOf k root u := by
    rintro u ⟨q, hq, hdu⟩
    exact ⟨q, hq, h.ready.descend_setLeaf hd (hr ▸ hpath) e hq ▸ hdu⟩
  refine ⟨hb, fun f hf => ?_, fun f hf => ?_, fun f hf ht => ?_⟩
  · rcases hframe f hf with ⟨hp, he'⟩ | hf
    · exact he' ▸ (he hp).1.1
    · exact h.frame_pos f hf
  · rcases hframe f hf with ⟨hp, he'⟩ | hf
    · exact he' ▸ (he hp).1.2
    · exact h.frame_lt f hf
  · rcases hframe f hf with ⟨hp, he'⟩ | hf
    · exact (he hp).2 (he' ▸ htable ht)
    · exact h.noTable f hf (htable ht)

/-! ## `walk` -/

/-- **`walk` for a low address** is confined. The induction is on the level, as in
`walkFrom_alloc`. -/
theorem walkFrom_confined {va : Nat} (hva : va < lowhalfEnd) :
    ∀ (level : Nat) {k : Kmem} {t : Nat} {r : List Nat}, LowSpace k root →
      descend Entry.child k.tables root r = some t → r ++ pathFrom va level = vaPath va →
      Confined root k (k.walkFrom va true level t).1
  | 0, k, t, r, h, hd, hr => .refl h
  | level + 1, k, t, r, h, hd, hr => by
    obtain ⟨s, hr', hnext⟩ := pathFrom_next hr
    cases hp : (k.tables t (va2Index va (level + 1))).present with
    | true =>
      cases hl : (k.tables t (va2Index va (level + 1))).pageSize with
      | true =>
        rw [walkFrom_large hp hl]
        exact .refl h
      | false =>
        rw [walkFrom_table hp hl]
        exact walkFrom_confined hva level h ((descend_concat hd).trans (Entry.child_eq_some hp hl))
          hnext
    | false =>
      cases hf : k.free with
      | nil =>
        rw [walkFrom_full hp hf]
        exact .refl h
      | cons p ps =>
        have hpm : p ∈ k.free := by rw [hf]; exact List.mem_cons_self
        have hp0 : p ≠ 0 := Nat.pos_iff_ne_zero.mp (h.ready.pos p hpm)
        have hlow : LowPath (r ++ [va2Index va (level + 1)]) :=
          lowPath_of_va hva (j := va2Index va level) (s := s) (by rw [← hr']; simp)
        have hlink := Confined.link h hd hlow hp hf
        obtain ⟨-, hd'⟩ := h.ready.link hd hlow.1 hp hf
        rw [walkFrom_new hp hf hp0]
        exact hlink.trans (walkFrom_confined hva level hlink.space hd' hnext)

end

end Colibri.Memory
