import Colibri.Memory.Vm

/-!
# Mapping and unmapping

`Ready k root`: the tables under `root` form a tree, and the free pages are none of them. `walk`
keeps this and changes no translation (`walk_spec`), since the tables it hangs in are empty; a write to
the descriptor it returns changes the translation of that page alone (`ReadyOff.setLeaf`). The loops of
`mappages` and `unmappages` are then inductions over the pages of the range.

A slot of the root may lead back to the root. It is the `hole` that the paths leave out; the kernel's
is 510, and what has no `Off` in its name is for that one. With 512, which is no index, nothing is left
out.
-/

namespace Colibri.Memory

open Colibri.Lib

/-! ## Paths -/

variable {hole : Nat}

/-- The paths that lead to tables. -/
def TablePathOff (hole : Nat) (p : List Nat) : Prop :=
  p.length ≤ 3 ∧ (∀ i ∈ p, i < 512) ∧ p.head? ≠ some hole

/-- The paths that lead to page descriptors. -/
def PagePathOff (hole : Nat) (p : List Nat) : Prop :=
  p.length = 4 ∧ (∀ i ∈ p, i < 512) ∧ p.head? ≠ some hole

/-- The slot 510 is the recursive one. -/
abbrev TablePath : List Nat → Prop := TablePathOff 510

@[inherit_doc TablePath]
abbrev PagePath : List Nat → Prop := PagePathOff 510

theorem TablePathOff.of_prefix {p q : List Nat} (h : p <+: q) (hq : TablePathOff hole q) :
    TablePathOff hole p := by
  obtain ⟨s, rfl⟩ := h
  obtain ⟨h₁, h₂, h₃⟩ := hq
  rw [List.length_append] at h₁
  refine ⟨by omega, fun i hi => h₂ i (List.mem_append_left _ hi), fun hh => h₃ ?_⟩
  cases p with
  | nil => simp at hh
  | cons i p => exact hh

theorem PagePathOff.tablePath {q : List Nat} (hq : PagePathOff hole q) {r : List Nat} {j : Nat}
    {s : List Nat} (he : q = r ++ j :: s) : TablePathOff hole r := by
  subst he
  obtain ⟨h₁, h₂, h₃⟩ := hq
  rw [List.length_append, List.length_cons] at h₁
  refine ⟨by omega, fun i hi => h₂ i (List.mem_append_left _ hi), fun hh => h₃ ?_⟩
  cases r with
  | nil => simp at hh
  | cons i r => exact hh

theorem PagePathOff.concat {q : List Nat} (hq : PagePathOff hole q) {r : List Nat} {j k : Nat}
    {s : List Nat} (he : q = r ++ j :: k :: s) : TablePathOff hole (r ++ [j]) :=
  hq.tablePath (r := r ++ [j]) (j := k) (s := s) (by rw [he]; simp)

/-- The indexes of an address from this level on. -/
def pathFrom (va : Nat) : Nat → List Nat
  | 0 => [va2Index va 0]
  | level + 1 => va2Index va (level + 1) :: pathFrom va level

theorem pathFrom_eq_cons (va level : Nat) : ∃ s, pathFrom va level = va2Index va level :: s := by
  cases level with
  | zero => exact ⟨[], rfl⟩
  | succ level => exact ⟨pathFrom va level, rfl⟩

/-- The path one level further down. -/
theorem pathFrom_next {va level : Nat} {r : List Nat} (hr : r ++ pathFrom va (level + 1) = vaPath va) :
    ∃ s, r ++ va2Index va (level + 1) :: va2Index va level :: s = vaPath va ∧
      r ++ [va2Index va (level + 1)] ++ pathFrom va level = vaPath va := by
  obtain ⟨s, hs⟩ := pathFrom_eq_cons va level
  refine ⟨s, ?_, ?_⟩
  · rw [← hr, pathFrom, hs]
  · rw [← hr, pathFrom]
    simp

theorem vaPath_pagePath {va : Nat} (h : va2Index va 3 ≠ hole) : PagePathOff hole (vaPath va) := by
  refine ⟨rfl, fun i hi => ?_, fun hh => h (Option.some.inj hh)⟩
  simp only [vaPath, List.mem_cons, List.not_mem_nil, or_false] at hi
  unfold va2Index at hi
  omega

/-- **The indexes of a canonical address determine its page.** -/
theorem vaPath_inj {a b : Nat} (ha : Canonical a) (hb : Canonical b) (h : vaPath a = vaPath b) :
    pageStart a = pageStart b := by
  simp only [vaPath, va2Index, List.cons.injEq, and_true] at h
  unfold Canonical at ha hb
  rw [u64Size_eq] at ha hb
  unfold pageStart
  rw [pageSize_eq]
  omega

theorem vaPath_of_pageStart {a b : Nat} (h : pageStart a = pageStart b) : vaPath a = vaPath b := by
  unfold pageStart at h
  rw [pageSize_eq] at h
  simp only [vaPath, va2Index, List.cons.injEq, and_true]
  omega

/-! ## Tables that form a tree -/

/-- The tables under `root` form a tree, and the free pages are usable for new ones. -/
structure ReadyOff (hole : Nat) (k : Kmem) (root : Nat) : Prop where
  tree : IsTree Entry.child (TablePathOff hole) k.tables root
  nodup : k.free.Nodup
  aligned : ∀ p ∈ k.free, p % 4096 = 0
  pos : ∀ p ∈ k.free, 0 < p
  lt : ∀ p ∈ k.free, p < 2 ^ 51
  fresh : ∀ p ∈ k.free, ∀ q, TablePathOff hole q →
    descend Entry.child k.tables root q ≠ some (physToVirt p)

@[inherit_doc TablePath]
abbrev Ready : Kmem → Nat → Prop := ReadyOff 510

/-- Fewer free pages are usable too. -/
theorem ReadyOff.suffix {k k' : Kmem} {root : Nat} (h : ReadyOff hole k root)
    (ht : k'.tables = k.tables) (hf : k'.free <:+ k.free) : ReadyOff hole k' root := by
  refine ⟨?_, h.nodup.sublist hf.sublist, fun p hp => h.aligned p (hf.subset hp),
    fun p hp => h.pos p (hf.subset hp), fun p hp => h.lt p (hf.subset hp), fun p hp => ?_⟩
  · rw [ht]
    exact h.tree
  · rw [ht]
    exact h.fresh p (hf.subset hp)

theorem physToVirt_inj {a b : Nat} (ha : a < 2 ^ 51) (hb : b < 2 ^ 51)
    (h : physToVirt a = physToVirt b) : a = b := by
  unfold physToVirt u64Add at h
  rw [u64Size_eq, show physicalOffset = 18446742424442109952 from rfl] at h
  omega

/-- `k'` has more tables than `k` and translates the same. -/
structure GrownOff (hole root : Nat) (k k' : Kmem) : Prop where
  ready : ReadyOff hole k' root
  leaves : ∀ q, PagePathOff hole q → leafAt k'.tables root q = leafAt k.tables root q
  free : k'.free <:+ k.free
  nx : k'.nxFlagEnabled = k.nxFlagEnabled
  areas : k'.areas = k.areas
  containers : k'.containerNext = k.containerNext

@[inherit_doc TablePath]
abbrev Grown : Nat → Kmem → Kmem → Prop := GrownOff 510

theorem GrownOff.refl {root : Nat} {k : Kmem} (h : ReadyOff hole k root) : GrownOff hole root k k :=
  ⟨h, fun _ _ => rfl, List.suffix_rfl, rfl, rfl, rfl⟩

theorem GrownOff.trans {root : Nat} {k k' k'' : Kmem} (h : GrownOff hole root k k')
    (h' : GrownOff hole root k' k'') : GrownOff hole root k k'' :=
  ⟨h'.ready, fun q hq => (h'.leaves q hq).trans (h.leaves q hq), h'.free.trans h.free,
    h'.nx.trans h.nx, h'.areas.trans h.areas, h'.containers.trans h.containers⟩

section

variable {k : Kmem} {root t i : Nat} {r : List Nat}

/-- **Hanging in an empty table** changes no translation. -/
theorem ReadyOff.link (h : ReadyOff hole k root) (ht : descend Entry.child k.tables root r = some t)
    (hr : TablePathOff hole (r ++ [i])) (hnp : (k.tables t i).present = false) {p : Nat}
    {ps : List Nat} (hfree : k.free = p :: ps) :
    GrownOff hole root k ((({ k with free := ps } : Kmem).setEntry t i (Entry.ofTable p)).clearTable
      (physToVirt p)) ∧
    descend Entry.child ((({ k with free := ps } : Kmem).setEntry t i (Entry.ofTable p)).clearTable
      (physToVirt p)).tables root (r ++ [i]) = some (physToVirt p) := by
  have hp : p ∈ k.free := by rw [hfree]; exact List.mem_cons_self
  have hps : ∀ {x}, x ∈ ps → x ∈ k.free := fun hx => by rw [hfree]; exact List.mem_cons_of_mem _ hx
  have hnodup : p ∉ ps ∧ ps.Nodup := by
    have := h.nodup
    rwa [hfree, List.nodup_cons] at this
  have hnew := h.fresh p hp
  have hc := Entry.child_ofTable (h.aligned p hp) (h.lt p hp)
  have hz := Entry.child_zero
  obtain ⟨T, hT⟩ : ∃ T, T = Lib.link k.tables t i (Entry.ofTable p) (physToVirt p) (⟨0⟩ : Entry) :=
    ⟨_, rfl⟩
  have htab : ((({ k with free := ps } : Kmem).setEntry t i (Entry.ofTable p)).clearTable
      (physToVirt p)).tables = T := hT.symm
  rw [htab]
  refine ⟨⟨⟨?_, hnodup.2, fun x hx => h.aligned x (hps hx), fun x hx => h.pos x (hps hx),
    fun x hx => h.lt x (hps hx), ?_⟩, fun q hq => ?_, ?_, rfl, rfl, rfl⟩, ?_⟩
  · rw [htab, hT]
    exact h.tree.link TablePathOff.of_prefix ht hr hnew hc hz
  · intro x hx q hq hd
    rw [htab, hT] at hd
    rcases h.tree.descend_link_cases TablePathOff.of_prefix ht hr hnew hc hz hq hd with
      ⟨-, he⟩ | ⟨-, hd⟩
    · have hxp := physToVirt_inj (h.lt x (hps hx)) (h.lt p hp) he
      exact hnodup.1 (hxp ▸ hx)
    · exact h.fresh x (hps hx) q hq hd
  · rw [htab, hT]
    unfold leafAt
    by_cases hn : r ++ [i] <+: q
    · -- the entry was empty before and the new table is empty now
      obtain ⟨s, rfl⟩ := hn
      cases s with
      | nil =>
        have h₁ := hr.1
        have h₂ := hq.1
        rw [List.append_nil] at h₂
        omega
      | cons j s =>
        have hold : seek Entry.child k.tables root (r ++ [i] ++ j :: s) =
            some (s.length + 1, k.tables t i) := by
          rw [List.append_assoc, List.singleton_append, seek_append r root ht,
            seek_cons_none (Entry.child_of_not_present hnp), List.length_cons]
        rw [h.tree.seek_link_behind TablePathOff.of_prefix ht hr hnew hc hz, hold]
        simp only [Option.filter, hnp, Entry.present_zero, Bool.false_eq_true, if_false]
    · rw [h.tree.seek_link TablePathOff.of_prefix ht hr hnew (fun _ _ _ he => hq.tablePath he) hn]
  · rw [show (_ : Kmem).free = ps from rfl, hfree]
    exact List.suffix_cons p ps
  · rw [hT]
    exact h.tree.descend_link_self TablePathOff.of_prefix ht hr hnew hc

/-- No table is behind a page descriptor. -/
theorem ReadyOff.descend_setLeaf (h : ReadyOff hole k root)
    (ht : descend Entry.child k.tables root r = some t) (hr : PagePathOff hole (r ++ [i])) (e : Entry)
    {q : List Nat} (hq : TablePathOff hole q) :
    descend Entry.child (k.setEntry t i e).tables root q = descend Entry.child k.tables root q := by
  refine h.tree.descend_setEntry TablePathOff.of_prefix ht (hr.tablePath rfl) hq fun hp => ?_
  have h₁ := hp.length_le
  have h₂ := hr.1
  have h₃ := hq.1
  omega

/-- **Writing a page descriptor** changes the leaf of its page alone. -/
theorem ReadyOff.setLeaf (h : ReadyOff hole k root) (ht : descend Entry.child k.tables root r = some t)
    (hr : PagePathOff hole (r ++ [i])) (e : Entry) :
    ReadyOff hole (k.setEntry t i e) root ∧
      ∀ q, PagePathOff hole q → leafAt (k.setEntry t i e).tables root q =
      if q = r ++ [i] then (some (0, e)).filter (fun l => l.2.present)
      else leafAt k.tables root q := by
  have hrt : TablePathOff hole r := hr.tablePath rfl
  have hd := fun q (hq : TablePathOff hole q) => h.descend_setLeaf ht hr e hq
  refine ⟨⟨?_, h.nodup, h.aligned, h.pos, h.lt, ?_⟩, fun q hq => ?_⟩
  · intro p q u hp hq hpu hqu
    rw [hd p hp] at hpu
    rw [hd q hq] at hqu
    exact h.tree hp hq hpu hqu
  · intro p hp q hq
    rw [hd q hq]
    exact h.fresh p hp q hq
  · unfold leafAt
    by_cases he : q = r ++ [i]
    · rw [if_pos he, he]
      exact congrArg _ (h.tree.seek_setEntry_self TablePathOff.of_prefix ht hrt)
    · have hn : ¬ r ++ [i] <+: q := by
        intro hp
        have hl : (r ++ [i]).length = q.length := by rw [hr.1, hq.1]
        exact he (hp.eq_of_length hl).symm
      rw [if_neg he]
      exact congrArg _ (h.tree.seek_setEntry ht hrt (fun _ _ _ he => hq.tablePath he) hn)

end

/-! ## `walk` -/

/-- The descriptor of the page of `va`. -/
def LeafSlot (k : Kmem) (root va t i : Nat) : Prop :=
  ∃ r, vaPath va = r ++ [i] ∧ descend Entry.child k.tables root r = some t

/-- The entry of a large page that `va` is in. -/
def LargeSlot (k : Kmem) (root va t i : Nat) : Prop :=
  ∃ level, leafAt k.tables root (vaPath va) = some (level + 1, k.tables t i)

theorem leafAt_eq_some {tables : Nat → Nat → Entry} {root level : Nat} {q : List Nat} {e : Entry}
    (hs : seek Entry.child tables root q = some (level, e)) (he : e.present = true) :
    leafAt tables root q = some (level, e) := by
  rw [leafAt, hs, Option.filter_some, if_pos he]

theorem leafAt_eq_none {tables : Nat → Nat → Entry} {root level : Nat} {q : List Nat} {e : Entry}
    (hs : seek Entry.child tables root q = some (level, e)) (he : e.present = false) :
    leafAt tables root q = none := by
  rw [leafAt, hs, Option.filter_some, he]
  rfl

/-- The leaf of a page whose descriptor exists is that descriptor, if present. -/
theorem LeafSlot.leaf_eq {k : Kmem} {root va t i : Nat} (h : LeafSlot k root va t i) :
    leafAt k.tables root (vaPath va) =
      (some (0, k.tables t i)).filter fun l => l.2.present := by
  obtain ⟨r, he, hd⟩ := h
  rw [leafAt, he, seek_leaf hd]

/-! ### One level of `walk` -/

section

variable {k : Kmem} {va t level : Nat} {alloc : Bool}

/-- `walk` stops at a large page. -/
theorem walkFrom_large (hp : (k.tables t (va2Index va (level + 1))).present = true)
    (hl : (k.tables t (va2Index va (level + 1))).pageSize = true) :
    k.walkFrom va alloc (level + 1) t = (k, some (t, va2Index va (level + 1))) := by
  simp only [Kmem.walkFrom, hp, hl, if_true]

/-- `walk` goes down a table. -/
theorem walkFrom_table (hp : (k.tables t (va2Index va (level + 1))).present = true)
    (hl : (k.tables t (va2Index va (level + 1))).pageSize = false) :
    k.walkFrom va alloc (level + 1) t =
      k.walkFrom va alloc level (k.tables t (va2Index va (level + 1))).table := by
  simp only [Kmem.walkFrom, hp, hl, if_true, Bool.false_eq_true, if_false]

theorem walkFrom_absent (hp : (k.tables t (va2Index va (level + 1))).present = false) :
    k.walkFrom va false (level + 1) t = (k, none) := by
  simp only [Kmem.walkFrom, hp, Bool.false_eq_true, if_false, Bool.not_false, if_true]

/-- No page is left for the table. -/
theorem walkFrom_full (hp : (k.tables t (va2Index va (level + 1))).present = false)
    (hf : k.free = []) : k.walkFrom va true (level + 1) t = (k, none) := by
  simp only [Kmem.walkFrom, hp, Bool.false_eq_true, if_false, Bool.not_true, Kmem.kalloc_nil hf,
    if_true]

/-- `walk` hangs in a table. -/
theorem walkFrom_new {p : Nat} {ps : List Nat}
    (hp : (k.tables t (va2Index va (level + 1))).present = false) (hf : k.free = p :: ps)
    (hp0 : p ≠ 0) :
    k.walkFrom va true (level + 1) t =
      ((({ k with free := ps } : Kmem).setEntry t (va2Index va (level + 1))
        (Entry.ofTable p)).clearTable (physToVirt p)).walkFrom va true level (physToVirt p) := by
  simp only [Kmem.walkFrom, hp, Bool.false_eq_true, if_false, Bool.not_true, Kmem.kalloc_cons hf, hp0]

/-- A walk without pages is a lookup. -/
theorem walkFrom_of_free_nil (hf : k.free = []) (va level : Nat) {t : Nat} :
    k.walkFrom va true level t = k.walkFrom va false level t := by
  induction level generalizing t with
  | zero => rfl
  | succ level ih =>
    cases hp : (k.tables t (va2Index va (level + 1))).present with
    | false => rw [walkFrom_full hp hf, walkFrom_absent hp]
    | true =>
      cases hl : (k.tables t (va2Index va (level + 1))).pageSize with
      | true => rw [walkFrom_large hp hl, walkFrom_large hp hl]
      | false => rw [walkFrom_table hp hl, walkFrom_table hp hl, ih]

end

section

variable {root va : Nat}

/-- **`walk` for a mapping**: it may hang in tables, and returns the page's descriptor, or that of a
large page, or nothing when the pages ran out. The induction is on the level; `r` are the indexes
already followed. -/
theorem walkFrom_alloc (hva : PagePathOff hole (vaPath va)) :
    ∀ (level : Nat) {k : Kmem} {t : Nat} {r : List Nat}, ReadyOff hole k root →
      descend Entry.child k.tables root r = some t → r ++ pathFrom va level = vaPath va →
      GrownOff hole root k (k.walkFrom va true level t).1 ∧
      ∀ t' i', (k.walkFrom va true level t).2 = some (t', i') →
        LeafSlot (k.walkFrom va true level t).1 root va t' i' ∨
          LargeSlot (k.walkFrom va true level t).1 root va t' i'
  | 0, k, t, r, h, hd, hr => by
    refine ⟨.refl h, fun t' i' he => .inl ⟨r, ?_, ?_⟩⟩
    · obtain ⟨rfl, rfl⟩ : t = t' ∧ va2Index va 0 = i' := by simpa [Kmem.walkFrom] using he
      exact hr.symm
    · obtain ⟨rfl, rfl⟩ : t = t' ∧ va2Index va 0 = i' := by simpa [Kmem.walkFrom] using he
      exact hd
  | level + 1, k, t, r, h, hd, hr => by
    obtain ⟨s, hr', hnext⟩ := pathFrom_next hr
    cases hp : (k.tables t (va2Index va (level + 1))).present with
    | true =>
      cases hl : (k.tables t (va2Index va (level + 1))).pageSize with
      | true =>
        have hc : (k.tables t (va2Index va (level + 1))).child = none := by
          rw [Entry.child, hp, hl]
          rfl
        have hseek : seek Entry.child k.tables root (vaPath va) =
            some (s.length + 1, k.tables t (va2Index va (level + 1))) := by
          rw [← hr', seek_append r root hd, seek_cons_none hc, List.length_cons]
        rw [walkFrom_large hp hl]
        refine ⟨.refl h, fun t' i' he => .inr ⟨s.length, ?_⟩⟩
        obtain ⟨rfl, rfl⟩ : t = t' ∧ va2Index va (level + 1) = i' := by simpa using he
        exact leafAt_eq_some hseek hp
      | false =>
        have hc := Entry.child_eq_some hp hl
        rw [walkFrom_table hp hl]
        exact walkFrom_alloc hva level h ((descend_concat hd).trans hc) hnext
    | false =>
      cases hf : k.free with
      | nil =>
        rw [walkFrom_full hp hf]
        exact ⟨.refl h, fun t' i' he => absurd he (by simp)⟩
      | cons p ps =>
        have hp0 : p ≠ 0 := by
          have := h.pos p (by rw [hf]; exact List.mem_cons_self)
          omega
        obtain ⟨hg, hd'⟩ := h.link hd (hva.concat hr'.symm) hp hf
        rw [walkFrom_new hp hf hp0]
        obtain ⟨hg', hslot⟩ := walkFrom_alloc hva level hg.ready hd' hnext
        exact ⟨hg.trans hg', hslot⟩

theorem walk_alloc {k : Kmem} (hva : PagePathOff hole (vaPath va)) (h : ReadyOff hole k root) :
    GrownOff hole root k (k.walk root va true).1 ∧
      ∀ t i, (k.walk root va true).2 = some (t, i) →
        LeafSlot (k.walk root va true).1 root va t i ∨
          LargeSlot (k.walk root va true).1 root va t i :=
  walkFrom_alloc hva 3 (r := []) h rfl rfl

/-- **`walk` for a lookup** changes nothing, and finds no descriptor only where nothing is mapped. -/
theorem walkFrom_lookup : ∀ (level : Nat) {k : Kmem} {t : Nat} {r : List Nat},
      descend Entry.child k.tables root r = some t → r ++ pathFrom va level = vaPath va →
      (k.walkFrom va false level t).1 = k ∧
      ((k.walkFrom va false level t).2 = none → leafAt k.tables root (vaPath va) = none) ∧
      ∀ t' i', (k.walkFrom va false level t).2 = some (t', i') →
        LeafSlot k root va t' i' ∨ LargeSlot k root va t' i'
  | 0, k, t, r, hd, hr => by
    refine ⟨rfl, fun he => absurd he (by simp [Kmem.walkFrom]), fun t' i' he => .inl ⟨r, ?_, ?_⟩⟩
    · obtain ⟨rfl, rfl⟩ : t = t' ∧ va2Index va 0 = i' := by simpa [Kmem.walkFrom] using he
      exact hr.symm
    · obtain ⟨rfl, rfl⟩ : t = t' ∧ va2Index va 0 = i' := by simpa [Kmem.walkFrom] using he
      exact hd
  | level + 1, k, t, r, hd, hr => by
    obtain ⟨s, hr', hnext⟩ := pathFrom_next hr
    have hstop : (k.tables t (va2Index va (level + 1))).child = none →
        seek Entry.child k.tables root (vaPath va) =
          some (s.length + 1, k.tables t (va2Index va (level + 1))) := by
      intro hc
      rw [← hr', seek_append r root hd, seek_cons_none hc, List.length_cons]
    cases hp : (k.tables t (va2Index va (level + 1))).present with
    | true =>
      cases hl : (k.tables t (va2Index va (level + 1))).pageSize with
      | true =>
        have hc : (k.tables t (va2Index va (level + 1))).child = none := by
          rw [Entry.child, hp, hl]
          rfl
        rw [walkFrom_large hp hl]
        refine ⟨rfl, fun he => absurd he (by simp), fun t' i' he => .inr ⟨s.length, ?_⟩⟩
        obtain ⟨rfl, rfl⟩ : t = t' ∧ va2Index va (level + 1) = i' := by simpa using he
        exact leafAt_eq_some (hstop hc) hp
      | false =>
        rw [walkFrom_table hp hl]
        exact walkFrom_lookup level ((descend_concat hd).trans (Entry.child_eq_some hp hl)) hnext
    | false =>
      rw [walkFrom_absent hp]
      exact ⟨rfl, fun _ => leafAt_eq_none (hstop (Entry.child_of_not_present hp)) hp,
        fun t' i' he => absurd he (by simp)⟩

theorem walk_lookup (k : Kmem) (root va : Nat) :
    (k.walk root va false).1 = k ∧
      ((k.walk root va false).2 = none → leafAt k.tables root (vaPath va) = none) ∧
      ∀ t i, (k.walk root va false).2 = some (t, i) →
        LeafSlot k root va t i ∨ LargeSlot k root va t i :=
  walkFrom_lookup 3 (r := []) rfl rfl

end

/-! ## Ranges of pages -/

/-- The pages from `current` to the one that ends with `stop`: what the loops need to know of them. -/
structure PageRangeOff (hole current stop : Nat) : Prop where
  aligned : current % 4096 = 0
  stop_mod : stop % 4096 = 4095
  lt : stop + 4096 < u64Size
  canonical : ∀ x, current ≤ x → x ≤ stop → Canonical x
  not_recursive : ∀ x, current ≤ x → x ≤ stop → va2Index x 3 ≠ hole

@[inherit_doc TablePath]
abbrev PageRange : Nat → Nat → Prop := PageRangeOff 510

/-- No page of the range is in a large page. -/
def NoLarge (k : Kmem) (root current stop : Nat) : Prop :=
  ∀ x, current ≤ x → x ≤ stop → ∀ level e,
    leafAt k.tables root (vaPath x) ≠ some (level + 1, e)

/-- The path of a page outside the range. -/
def OutsideOff (hole current stop : Nat) (q : List Nat) : Prop :=
  PagePathOff hole q ∧ ∀ x, current ≤ x → x ≤ stop → q ≠ vaPath x

@[inherit_doc TablePath]
abbrev Outside : Nat → Nat → List Nat → Prop := OutsideOff 510

theorem PageRangeOff.next {current stop : Nat} (h : PageRangeOff hole current stop)
    (hlt : current < stop) :
    u64Add current pageSize = current + 4096 ∧ PageRangeOff hole (current + 4096) stop := by
  have h₁ := h.aligned
  have h₂ := h.stop_mod
  have h₃ := h.lt
  refine ⟨by rw [pageSize_eq, u64Add_eq (by omega)], by omega, h₂, h₃, fun x hx => h.canonical x (by omega),
    fun x hx => h.not_recursive x (by omega)⟩

/-- Two addresses of a range with one path are in one page. -/
theorem PageRangeOff.page_eq {current stop : Nat} (h : PageRangeOff hole current stop) {x : Nat}
    (hx : current ≤ x) (hx' : x ≤ stop) (he : vaPath x = vaPath current) : x < current + 4096 := by
  have h₁ := h.aligned
  have h₂ := vaPath_inj (h.canonical x hx hx') (h.canonical current (Nat.le_refl _) (by omega)) he
  rw [pageStart_of_aligned h₁, pageStart_eq_iff h₁] at h₂
  exact h₂.2

theorem OutsideOff.next {current stop : Nat} {q : List Nat} (h : OutsideOff hole current stop q) :
    OutsideOff hole (current + 4096) stop q :=
  ⟨h.1, fun x hx => h.2 x (by omega)⟩

/-- A later page is outside the first one. -/
theorem PageRangeOff.outside {current stop : Nat} (h : PageRangeOff hole current stop) {x : Nat}
    (hx : current + 4096 ≤ x) (hx' : x ≤ stop) : vaPath x ≠ vaPath current := by
  intro he
  have := h.page_eq (by omega) hx' he
  omega

section

variable {k : Kmem} {root : Nat} {r : List Nat}

/-- The rest of the range after a write to the first page. -/
theorem NoLarge.next {k₁ : Kmem} {current stop : Nat} (hlarge : NoLarge k root current stop)
    (hrange : PageRangeOff hole current stop)
    (hother : ∀ q, PagePathOff hole q → q ≠ vaPath current →
      leafAt k₁.tables root q = leafAt k.tables root q) :
    NoLarge k₁ root (current + 4096) stop := by
  intro x hx hx' level e
  rw [hother _ (vaPath_pagePath (hrange.not_recursive x (by omega) hx')) (hrange.outside hx hx')]
  exact hlarge x (by omega) hx' level e

/-- The leaves after writing the first page's descriptor. -/
theorem LeafSlot.set {va t i : Nat} (h : ReadyOff hole k root) (hva : PagePathOff hole (vaPath va))
    (hs : LeafSlot k root va t i) (e : Entry) :
    ReadyOff hole (k.setEntry t i e) root ∧
      leafAt (k.setEntry t i e).tables root (vaPath va) =
        (some (0, e)).filter (fun l => l.2.present) ∧
      ∀ q, PagePathOff hole q → q ≠ vaPath va →
        leafAt (k.setEntry t i e).tables root q = leafAt k.tables root q := by
  obtain ⟨r, he, hd⟩ := hs
  obtain ⟨hr, hl⟩ := h.setLeaf hd (he ▸ hva) e
  refine ⟨hr, ?_, fun q hq hne => ?_⟩
  · rw [hl _ hva, if_pos he]
  · rw [hl q hq, if_neg (he ▸ hne)]

/-- **A round of `unmappages`** that frees nothing makes its page absent. -/
theorem unmapPage_spec {current : Nat} (h : ReadyOff hole k root)
    (hva : PagePathOff hole (vaPath current))
    (hlarge : ∀ level e, leafAt k.tables root (vaPath current) ≠ some (level + 1, e)) :
    ReadyOff hole (k.unmapPage root false current) root ∧
      leafAt (k.unmapPage root false current).tables root (vaPath current) = none ∧
      ∀ q, PagePathOff hole q → q ≠ vaPath current →
        leafAt (k.unmapPage root false current).tables root q = leafAt k.tables root q := by
  obtain ⟨hk, hnone, hsome⟩ := walk_lookup k root current
  unfold Kmem.unmapPage
  obtain ⟨k', d, hw⟩ : ∃ k' d, k.walk root current false = (k', d) := ⟨_, _, rfl⟩
  rw [hw] at hk hnone hsome ⊢
  obtain rfl : k' = k := hk
  cases d with
  | none => exact ⟨h, hnone rfl, fun _ _ _ => rfl⟩
  | some d =>
    obtain ⟨t, i⟩ := d
    rcases hsome t i rfl with hs | ⟨level, hl⟩
    · obtain ⟨hr, hleaf, hrest⟩ := hs.set h hva ((k'.tables t i).setBit 0 false)
      refine ⟨hr, ?_, hrest⟩
      rw [Option.filter_some, Entry.present_clear] at hleaf
      exact hleaf
    · exact absurd hl (hlarge level _)

/-- The leaves after a first page was changed and the rest of the range after it. -/
theorem leaf_next {k₁ k₂ : Kmem} {current stop : Nat} (hrange : PageRangeOff hole current stop)
    (hlt : current < stop) {Q : Nat → Option (Nat × Entry)}
    (hpage : leafAt k₁.tables root (vaPath current) = Q current)
    (hQ : ∀ x, current ≤ x → x < current + 4096 → Q x = Q current)
    (hin : ∀ x, current + 4096 ≤ x → x ≤ stop → leafAt k₂.tables root (vaPath x) = Q x)
    (hout : ∀ q, OutsideOff hole (current + 4096) stop q →
      leafAt k₂.tables root q = leafAt k₁.tables root q)
    {x : Nat} (hx : current ≤ x) (hx' : x ≤ stop) : leafAt k₂.tables root (vaPath x) = Q x := by
  rcases Nat.lt_or_ge x (current + 4096) with hnear | hfar
  · have hp : vaPath x = vaPath current := by
      refine vaPath_of_pageStart ?_
      rw [pageStart_of_aligned hrange.aligned, pageStart_eq_iff hrange.aligned]
      omega
    have ho : OutsideOff hole (current + 4096) stop (vaPath current) :=
      ⟨vaPath_pagePath (hrange.not_recursive current (Nat.le_refl _) (by omega)),
        fun y hy hy' he => hrange.outside hy hy' he.symm⟩
    rw [hp, hout _ ho, hpage, hQ x hx hnear]
  · exact hin x hfar hx'

/-- **The rule of `unmappages`**: its loop ends when the range ends below the last page, and what the
pages of the range preserve holds then. -/
theorem unmapLoop_rule {P : Kmem → Prop} {stop : Nat} {free : Bool} (hlt : stop + 4096 < u64Size) :
    ∀ (fuel : Nat) {k : Kmem} {current : Nat}, stop < current + 4096 * fuel →
    (∀ k x, current ≤ x → x < stop → P k → P (k.unmapPage root free x)) → P k →
    ∃ k', Kmem.unmapLoop root stop free (fuel + 1) k current = some k' ∧ P k'
  | fuel, k, current, hf, hpage, hk => by
    rw [Kmem.unmapLoop]
    by_cases hcur : current < stop
    · cases fuel with
      | zero => omega
      | succ fuel =>
        have hadd : u64Add current pageSize = current + 4096 := by
          rw [pageSize_eq, u64Add_eq (by omega)]
        rw [if_pos hcur, hadd]
        exact unmapLoop_rule hlt fuel (by omega) (fun k x hx => hpage k x (by omega))
          (hpage k current (Nat.le_refl _) hcur hk)
    · rw [if_neg hcur]
      exact ⟨k, rfl, hk⟩

/-- What every page preserves holds whenever the loop of `unmappages` ends. -/
theorem unmapLoop_preserves {P : Kmem → Prop} {stop : Nat} {free : Bool}
    (hpage : ∀ k current, P k → P (k.unmapPage root free current)) (fuel : Nat) {k k' : Kmem}
    {current : Nat} (h : Kmem.unmapLoop root stop free fuel k current = some k') (hk : P k) :
    P k' := by
  induction fuel generalizing k current with
  | zero => exact nomatch h
  | succ fuel ih =>
    rw [Kmem.unmapLoop] at h
    split at h
    case isTrue => exact ih h (hpage k current hk)
    case isFalse =>
      obtain rfl := Option.some.inj h
      exact hk

/-- **The loop of `unmappages`** makes the pages of its range absent and leaves the others. -/
theorem unmapLoop_spec : ∀ (fuel : Nat) {k : Kmem} {current stop : Nat},
    stop < current + 4096 * fuel → PageRangeOff hole current stop → ReadyOff hole k root →
    NoLarge k root current stop →
    ∃ k', Kmem.unmapLoop root stop false (fuel + 1) k current = some k' ∧ ReadyOff hole k' root ∧
      (∀ x, current ≤ x → x ≤ stop → leafAt k'.tables root (vaPath x) = none) ∧
      ∀ q, OutsideOff hole current stop q → leafAt k'.tables root q = leafAt k.tables root q
  | fuel, k, current, stop, hf, hrange, h, hlarge => by
    have h₁ := hrange.aligned
    have h₂ := hrange.stop_mod
    rw [Kmem.unmapLoop]
    by_cases hlt : current < stop
    · cases fuel with
      | zero => omega
      | succ fuel =>
        obtain ⟨hadd, hnext⟩ := hrange.next hlt
        have hva := vaPath_pagePath (hrange.not_recursive current (Nat.le_refl _) (by omega))
        obtain ⟨hr₁, hpage, hrest⟩ := unmapPage_spec h hva
          (hlarge current (Nat.le_refl _) (by omega))
        obtain ⟨k', hk', hr', hin, hout⟩ := unmapLoop_spec fuel (by omega) hnext hr₁
          (hlarge.next hrange hrest)
        rw [if_pos hlt, hadd]
        refine ⟨k', hk', hr', fun x hx hx' => ?_, fun q hq => ?_⟩
        · exact leaf_next hrange hlt (Q := fun _ => none) hpage (fun _ _ _ => rfl) hin hout hx hx'
        · rw [hout q hq.next, hrest q hq.1 (hq.2 current (Nat.le_refl _) (by omega))]
    · rw [if_neg hlt]
      exact ⟨k, rfl, h, fun x hx hx' => absurd hx' (by omega), fun _ _ => rfl⟩

/-- Without `free` no page is freed. -/
theorem unmapLoop_free {stop : Nat} (fuel : Nat) {k k' : Kmem} {current : Nat}
    (h : Kmem.unmapLoop root stop false fuel k current = some k') : k'.free = k.free := by
  refine unmapLoop_preserves (P := fun k' => k'.free = k.free) (fun k' x hk' => ?_) fuel h rfl
  obtain ⟨hk, -, -⟩ := walk_lookup k' root x
  unfold Kmem.unmapPage
  obtain ⟨k₁, d, hw⟩ : ∃ k₁ d, k'.walk root x false = (k₁, d) := ⟨_, _, rfl⟩
  rw [hw] at hk ⊢
  obtain rfl : k₁ = k' := hk
  cases d <;> exact hk'

/-- **The loop of `mappages`**, when it succeeds: the pages of the range were absent and have the
leaves of successive physical pages, and the others are as before. -/
theorem mapLoop_spec {va : Nat} {flags : BitVec 64} :
    ∀ (fuel : Nat) {k k' : Kmem} {current stop pa : Nat}, PageRangeOff hole current stop →
    pa + (stop + 1 - current) + 4096 < u64Size → ReadyOff hole k root →
    Kmem.mapLoop root va stop flags fuel k current pa = some (k', true) →
    ReadyOff hole k' root ∧ k'.nxFlagEnabled = k.nxFlagEnabled ∧
      (∀ x, current ≤ x → x ≤ stop → leafAt k.tables root (vaPath x) = none) ∧
      (∀ x, current ≤ x → x ≤ stop → leafAt k'.tables root (vaPath x) =
        some (0, Entry.ofPage (pa + (pageStart x - current)) flags)) ∧
      ∀ q, OutsideOff hole current stop q → leafAt k'.tables root q = leafAt k.tables root q
  | 0, _, _, _, _, _, _, _, _, hmap => absurd hmap (by simp [Kmem.mapLoop])
  | fuel + 1, k, k', current, stop, pa, hrange, hpa, h, hmap => by
    have h₁ := hrange.aligned
    have h₂ := hrange.stop_mod
    rw [Kmem.mapLoop] at hmap
    by_cases hlt : current < stop
    · obtain ⟨hadd, hnext⟩ := hrange.next hlt
      have hva := vaPath_pagePath (hrange.not_recursive current (Nat.le_refl _) (by omega))
      obtain ⟨hg, hslot⟩ := walk_alloc hva h
      obtain ⟨k₁, d, hw⟩ : ∃ k₁ d, k.walk root current true = (k₁, d) := ⟨_, _, rfl⟩
      rw [hw] at hg hslot
      rw [if_pos hlt, hw] at hmap
      cases d with
      | none =>
        obtain ⟨x, -, he⟩ := Option.map_eq_some_iff.mp hmap
        exact absurd (Prod.mk.inj he).2 (by simp)
      | some d =>
        obtain ⟨t, i⟩ := d
        cases hp : (k₁.tables t i).present with
        | true =>
          simp only [hp, if_true] at hmap
          obtain ⟨x, -, he⟩ := Option.map_eq_some_iff.mp hmap
          exact absurd (Prod.mk.inj he).2 (by simp)
        | false =>
          have hl : LeafSlot k₁ root current t i := by
            rcases hslot t i rfl with hs | ⟨level, hl⟩
            · exact hs
            · -- a large page is present
              have hpr := (Option.filter_eq_some_iff.mp hl).2
              exact absurd (hp.symm.trans hpr) (by simp)
          have hadd' : u64Add pa pageSize = pa + 4096 := by rw [pageSize_eq, u64Add_eq (by omega)]
          simp only [hp, Bool.false_eq_true, if_false, hadd, hadd'] at hmap
          obtain ⟨hr₂, hpage, hrest⟩ := hl.set hg.ready hva (Entry.ofPage pa flags)
          rw [Option.filter_some, Entry.present_ofPage, if_pos rfl] at hpage
          obtain ⟨k₂, hk₂⟩ : ∃ k₂, k₂ = k₁.setEntry t i (Entry.ofPage pa flags) := ⟨_, rfl⟩
          have hold : ∀ q, PagePathOff hole q → q ≠ vaPath current →
              leafAt k₂.tables root q = leafAt k.tables root q := by
            intro q hq hne
            rw [hk₂, hrest q hq hne, hg.leaves q hq]
          rw [← hk₂] at hmap hr₂ hpage
          have hlater : ∀ x, current + 4096 ≤ x → x ≤ stop →
              leafAt k₂.tables root (vaPath x) = leafAt k.tables root (vaPath x) := fun x hx hx' =>
            hold _ (vaPath_pagePath (hrange.not_recursive x (by omega) hx')) (hrange.outside hx hx')
          have hpa' : pa + 4096 + (stop + 1 - (current + 4096)) + 4096 < u64Size := by omega
          obtain ⟨hr', hnx, hbefore, hin, hout⟩ := mapLoop_spec fuel hnext hpa' hr₂ hmap
          refine ⟨hr', by rw [hnx, hk₂]; exact hg.nx, fun x hx hx' => ?_, fun x hx hx' => ?_,
            fun q hq => ?_⟩
          · rcases Nat.lt_or_ge x (current + 4096) with hnear | hfar
            · have hpx : vaPath x = vaPath current := by
                refine vaPath_of_pageStart ?_
                rw [pageStart_of_aligned h₁, pageStart_eq_iff h₁]
                omega
              rw [hpx, ← hg.leaves _ hva, hl.leaf_eq, Option.filter_some, hp]
              rfl
            · rw [← hlater x hfar hx']
              exact hbefore x hfar hx'
          · refine leaf_next hrange hlt
              (Q := fun x => some (0, Entry.ofPage (pa + (pageStart x - current)) flags)) ?_ ?_ ?_ hout
              hx hx'
            · rw [hpage, pageStart_of_aligned h₁, Nat.sub_self, Nat.add_zero]
            · intro y hy hy'
              have hpy : pageStart y = current := (pageStart_eq_iff h₁).mpr ⟨hy, hy'⟩
              simp only [hpy, pageStart_of_aligned h₁]
            · intro y hy hy'
              have hle : current + 4096 ≤ pageStart y := by
                rw [pageStart, pageSize_eq]
                omega
              have he : pa + (pageStart y - current) = pa + 4096 + (pageStart y - (current + 4096)) := by
                omega
              rw [he]
              exact hin y hy hy'
          · rw [hout q hq.next, hold q hq.1 (hq.2 current (Nat.le_refl _) (by omega))]
    · rw [if_neg hlt] at hmap
      obtain ⟨rfl, -⟩ : k = k' ∧ True := by simpa using hmap
      exact ⟨h, rfl, fun x hx hx' => absurd hx' (by omega), fun x hx hx' => absurd hx' (by omega),
        fun _ _ => rfl⟩

end

/-! ## `mappages` and `unmappages` -/

/-- The ranges that are mapped: they do not wrap or reach the last page of the address space, are
canonical, and stay off the slot. -/
structure RequestOff (hole va sz : Nat) : Prop where
  pos : 1 ≤ sz
  lt : va + sz ≤ u64Size - 4096
  canonical : ∀ x, va ≤ x → x < va + sz → Canonical x
  not_recursive : ∀ x, va ≤ x → x < va + sz → va2Index x 3 ≠ hole

section

variable {va sz : Nat}

/-- The last byte of the range's last page. -/
theorem RequestOff.stop (h : RequestOff hole va sz) :
    pageEnd (u64Sub (u64Add va sz) 1) = pageStart (va + sz - 1) + 4095 := by
  have h₁ := h.pos
  have h₂ := h.lt
  have h₃ := u64Size_eq
  rw [u64Add_eq (by omega), u64Sub_eq (by omega) (by omega), pageEnd_eq (by omega)]

/-- An address of the range's pages has the page of an address of the range. -/
theorem RequestOff.inside (h : RequestOff hole va sz) {x : Nat} (hx : pageStart va ≤ x)
    (hx' : x ≤ pageStart (va + sz - 1) + 4095) :
    ∃ y, va ≤ y ∧ y < va + sz ∧ pageStart x = pageStart y := by
  have h₁ := h.pos
  have h₂ := pageStart_le va
  have h₃ := pageStart_mod x
  rcases Nat.lt_or_ge x va with hlt | hge
  · refine ⟨va, Nat.le_refl _, by omega, ?_⟩
    rw [pageStart, pageSize_eq] at hx ⊢
    rw [pageStart, pageSize_eq]
    omega
  · rcases Nat.lt_or_ge x (va + sz) with hlt | hge'
    · exact ⟨x, hge, hlt, rfl⟩
    · refine ⟨va + sz - 1, by omega, by omega, ?_⟩
      rw [pageStart, pageSize_eq] at hx' ⊢
      rw [pageStart, pageSize_eq]
      omega

theorem canonical_of_pageStart {x y : Nat} (h : pageStart x = pageStart y) (hy : Canonical y) :
    Canonical x := by
  unfold Canonical at hy ⊢
  rw [u64Size_eq] at hy ⊢
  unfold pageStart at h
  rw [pageSize_eq] at h
  omega

theorem va2Index_of_pageStart {x y : Nat} (h : pageStart x = pageStart y) :
    va2Index x 3 = va2Index y 3 := by
  have := vaPath_of_pageStart h
  simp only [vaPath, List.cons.injEq] at this
  exact this.1

theorem RequestOff.pageRange (h : RequestOff hole va sz) :
    PageRangeOff hole (pageStart va) (pageStart (va + sz - 1) + 4095) := by
  have h₁ := h.pos
  have h₂ := h.lt
  have h₃ := u64Size_eq
  have h₄ := pageStart_mod (va + sz - 1)
  have h₅ := pageStart_le (va + sz - 1)
  refine ⟨pageStart_mod va, by omega, by omega, fun x hx hx' => ?_, fun x hx hx' => ?_⟩
  · obtain ⟨y, hy, hy', he⟩ := h.inside hx hx'
    exact canonical_of_pageStart he (h.canonical y hy hy')
  · obtain ⟨y, hy, hy', he⟩ := h.inside hx hx'
    rw [va2Index_of_pageStart he]
    exact h.not_recursive y hy hy'

/-- An address outside the range's pages, as a path. -/
theorem RequestOff.outside (h : RequestOff hole va sz) {x : Nat} (hc : Canonical x)
    (hr : va2Index x 3 ≠ hole) (hx : x < pageStart va ∨ pageStart (va + sz - 1) + 4095 < x) :
    OutsideOff hole (pageStart va) (pageStart (va + sz - 1) + 4095) (vaPath x) := by
  refine ⟨vaPath_pagePath hr, fun y hy hy' he => ?_⟩
  have hpage := vaPath_inj hc (h.pageRange.canonical y hy hy') he
  have h₁ := pageStart_mod va
  have h₂ := pageStart_mod (va + sz - 1)
  rw [pageStart, pageSize_eq] at hpage
  have h₃ : pageStart y = y - y % 4096 := rfl
  omega

/-- A canonical range is in one half of the address space. -/
theorem RequestOff.span (h : RequestOff hole va sz) :
    pageStart (va + sz - 1) + 4096 - pageStart va ≤ 2 ^ 47 := by
  have h₁ := h.pos
  have h₂ := h.lt
  have hva := h.canonical va (Nat.le_refl _) (by omega)
  have hlast := h.canonical (va + sz - 1) (by omega) (by omega)
  have hhalf := h.canonical (2 ^ 47)
  unfold Canonical at hva hlast hhalf
  rw [u64Size_eq] at hva hlast hhalf h₂
  unfold pageStart
  rw [pageSize_eq]
  omega

end

/-- What the translation of a range asks of it: it does not wrap or reach the last page of the
address space, it is canonical, and it is outside the recursive slot and every large page. -/
structure Mappable (k : Kmem) (root va sz : Nat) : Prop where
  pos : 1 ≤ sz
  lt : va + sz ≤ u64Size - 4096
  canonical : ∀ x, va ≤ x → x < va + sz → Canonical x
  not_recursive : ∀ x, va ≤ x → x < va + sz → va2Index x 3 ≠ 510
  not_large : ∀ x, va ≤ x → x < va + sz → ∀ level e,
    leafAt k.tables root (vaPath x) ≠ some (level + 1, e)

section

variable {k k' : Kmem} {root va sz : Nat}

theorem Mappable.request (h : Mappable k root va sz) : RequestOff 510 va sz :=
  ⟨h.pos, h.lt, h.canonical, h.not_recursive⟩

theorem translate_congr {k k' : Kmem} {x : Nat}
    (h : leafAt k'.tables root (vaPath x) = leafAt k.tables root (vaPath x)) :
    translate k'.tables root x = translate k.tables root x := by
  rw [translate, translate, h]

theorem translate_none {k : Kmem} {x : Nat} (h : leafAt k.tables root (vaPath x) = none) :
    translate k.tables root x = none := by
  rw [translate, h]
  rfl

/-- What a leaf of `mappages` says of an address of its page. -/
theorem translation_ofPage {nx : Bool} {flags : BitVec 8} {p x : Nat} (hp : p % 4096 = 0)
    (hlt : p < 2 ^ 52) :
    Entry.translation x (0, Entry.ofPage p (vmflagToX86flag nx (flags.setWidth 64))) =
      ⟨p + x % 4096, flags.getLsbD 0, flags.getLsbD 1, nx && !flags.getLsbD 2⟩ := by
  have hbig : p.testBit 63 = false :=
    Nat.testBit_lt_two_pow (Nat.lt_of_lt_of_le hlt (Nat.pow_le_pow_right (by omega) (by omega)))
  have hframe : (Entry.ofPage p (vmflagToX86flag nx (flags.setWidth 64))).frame 0 = p :=
    Entry.frame_ofPage hp hlt fun j hj hj' => by
      rw [getLsbD_vmflag nx flags (by omega), if_neg (by omega), if_neg (by omega),
        if_neg (by omega)]
  simp only [Entry.translation, Entry.writable, Entry.userPage, Entry.xd]
  rw [hframe, Entry.getLsbD_ofPage p _ (by omega), Entry.getLsbD_ofPage p _ (by omega),
    Entry.getLsbD_ofPage p _ (by omega), getLsbD_vmflag nx flags (by omega),
    getLsbD_vmflag nx flags (by omega), getLsbD_vmflag nx flags (by omega),
    Entry.testBit_of_aligned hp (by omega), Entry.testBit_of_aligned hp (by omega), hbig]
  simp

/-- **`mappages` maps its range and nothing else, and `unmappages` undoes it.** -/
theorem mappages_translate {pa : Nat} {flags : BitVec 8} (h : Ready k root)
    (hm : Mappable k root va sz) (hpa : pa < 2 ^ 51)
    (hmap : k.mappages root va sz pa flags = some (k', true)) :
    (∀ x, pageStart va ≤ x → x ≤ pageEnd (va + sz - 1) → translate k'.tables root x =
      some ⟨pageStart pa + (x - pageStart va), flags.getLsbD 0, flags.getLsbD 1,
        k.nxFlagEnabled && !flags.getLsbD 2⟩) ∧
    (∀ x, Canonical x → va2Index x 3 ≠ 510 → (x < pageStart va ∨ pageEnd (va + sz - 1) < x) →
      translate k'.tables root x = translate k.tables root x) ∧
    ∃ k'', k'.unmappages root va sz false = some k'' ∧
      (∀ x, pageStart va ≤ x → x ≤ pageEnd (va + sz - 1) → translate k''.tables root x = none) ∧
      (∀ x, Canonical x → va2Index x 3 ≠ 510 → (x < pageStart va ∨ pageEnd (va + sz - 1) < x) →
        translate k''.tables root x = translate k'.tables root x) ∧
      ∀ x, Canonical x → va2Index x 3 ≠ 510 →
        translate k''.tables root x = translate k.tables root x := by
  have h₁ := hm.pos
  have h₂ := hm.lt
  have h₃ := u64Size_eq
  have hend : pageEnd (va + sz - 1) = pageStart (va + sz - 1) + 4095 := pageEnd_eq (by omega)
  have hpos := hm.request.stop
  have hrange := hm.request.pageRange
  have hlow := pageStart_mod va
  have hlast := pageStart_mod (va + sz - 1)
  have hlastle := pageStart_le (va + sz - 1)
  have hpale := pageStart_le pa
  have hpamod := pageStart_mod pa
  -- a canonical range is in one half of the address space
  have hspan := hm.request.span
  rw [hend]
  unfold Kmem.mappages at hmap
  rw [hpos] at hmap
  obtain ⟨hr', hnx, hbefore, hin, hout⟩ :=
    mapLoop_spec u64Size hrange (by omega) h hmap
  have hlarge' : NoLarge k' root (pageStart va) (pageStart (va + sz - 1) + 4095) := by
    intro x hx hx' level e he
    rw [hin x hx hx', Option.some.injEq, Prod.mk.injEq] at he
    omega
  obtain ⟨fuel, hfuel⟩ : ∃ fuel, u64Size = fuel + 1 := ⟨u64Size - 1, by omega⟩
  obtain ⟨k'', hk'', -, hin', hout'⟩ := unmapLoop_spec (k := k') fuel
    (show pageStart (va + sz - 1) + 4095 < pageStart va + 4096 * fuel by omega) hrange hr' hlarge'
  have hun : k'.unmappages root va sz false = some k'' := by
    unfold Kmem.unmappages
    rw [hpos, hfuel]
    exact hk''
  refine ⟨fun x hx hx' => ?_, fun x hc hr hx => ?_, k'', hun, fun x hx hx' => ?_,
    fun x hc hr hx => ?_, fun x hc hr => ?_⟩
  · have hxs : pageStart va ≤ pageStart x := by
      rw [pageStart, pageSize_eq] at hx ⊢
      rw [pageStart, pageSize_eq]
      omega
    have hxmod := pageStart_mod x
    have hxle := pageStart_le x
    have hxeq : x % 4096 = x - pageStart x := by
      rw [pageStart, pageSize_eq]
      omega
    have hsum : pageStart pa + (pageStart x - pageStart va) + x % 4096 =
        pageStart pa + (x - pageStart va) := by omega
    rw [translate, hin x hx hx', Option.map_some, translation_ofPage (by omega) (by omega), hsum]
  · exact translate_congr (hout _ (hm.request.outside hc hr hx))
  · exact translate_none (hin' x hx hx')
  · exact translate_congr (hout' _ (hm.request.outside hc hr hx))
  · by_cases hx : pageStart va ≤ x ∧ x ≤ pageStart (va + sz - 1) + 4095
    · rw [translate_none (hin' x hx.1 hx.2), translate_none (hbefore x hx.1 hx.2)]
    · have ho := hm.request.outside hc hr (by omega)
      rw [translate_congr (hout' _ ho), translate_congr (hout _ ho)]

end

/-- Three free pages and nothing mapped. -/
def emptyKmem : Kmem where
  free := [0x2000, 0x3000, 0x4000]
  nxFlagEnabled := true
  tables := fun _ _ => ⟨0⟩
  areas := fun _ => ⟨0, 0, 0, 0, 0, 0⟩
  containerNext := fun _ => 0

theorem emptyKmem_descend {root t : Nat} {p : List Nat}
    (h : descend Entry.child emptyKmem.tables root p = some t) : p = [] ∧ t = root := by
  cases p with
  | nil => exact ⟨rfl, (Option.some.inj h).symm⟩
  | cons i p =>
    have hc : (emptyKmem.tables root i).child = none := Entry.child_zero
    rw [descend_cons_none hc] at h
    exact absurd h (by simp)

theorem emptyKmem_ready : Ready emptyKmem 0x9000 where
  tree := fun p q t _ _ hp hq => by rw [(emptyKmem_descend hp).1, (emptyKmem_descend hq).1]
  nodup := by decide
  aligned := by decide
  pos := by decide
  lt := by decide
  fresh := fun p hp q _ h => by
    have ht := (emptyKmem_descend h).2
    revert hp
    simp only [emptyKmem, List.mem_cons, List.not_mem_nil, or_false]
    rintro (rfl | rfl | rfl) <;> exact absurd ht (by decide)

/-- Two pages from the middle of one on, mapped into the empty tables. -/
theorem mappages_translate_two : ∃ k', emptyKmem.mappages 0x9000 0x400123 0x1000 0x5678 3 =
    some (k', true) ∧ translate k'.tables 0x9000 0x401001 = some ⟨0x6001, true, true, true⟩ := by
  have hrun : (emptyKmem.mappages 0x9000 0x400123 0x1000 0x5678 3).map Prod.snd = some true := by
    decide +kernel
  obtain ⟨⟨k', b⟩, hk, hb⟩ := Option.map_eq_some_iff.mp hrun
  obtain rfl : b = true := hb
  have hm : Mappable emptyKmem 0x9000 0x400123 0x1000 := by
    refine ⟨by decide, by decide, fun x hx hx' => .inl (by omega), fun x hx hx' => ?_, ?_⟩
    · unfold va2Index
      omega
    · intro x _ _ level e he
      have hs : leafAt emptyKmem.tables 0x9000 (vaPath x) = none := by
        have hc : (emptyKmem.tables 0x9000 (va2Index x 3)).child = none := Entry.child_zero
        exact leafAt_eq_none (seek_cons_none hc) Entry.present_zero
      rw [hs] at he
      exact absurd he (by simp)
  have h := (mappages_translate emptyKmem_ready hm (by decide) hk).1 0x401001 (by decide) (by decide)
  exact ⟨k', hk, h⟩

end Colibri.Memory
