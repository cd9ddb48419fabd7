import Colibri.Memory.Heap.Nodes

/-!
# Freeing a block

`free` marks the node free and merges it with its neighbours: first to the right (`merge_right`),
then to the left. Both merges make the node behind the merged one point back at it. `merge_right`
asks whether there is one, the left merge does not: freeing the last node of the list, or the last
but one before a free node, follows a `NULL` link when the node on the left is free and adjacent.

## Results

* `mergeRight_spec`, `mergeLeft_joins`: one merge, on the list and in memory.
* `freeNode_spec`, `freeNode_trapped`: `free` on every layout.
* `Heap.free_iff_not_trapped`: where `free` does its work on a well-formed heap.
-/

namespace Colibri.Memory

open Colibri.Lib HeapField HeapNode

section Merge

variable {R : Nat → Nat → Prop} {lo hi p q : Nat} {m : Mem} {n k : HeapNode} {r : List HeapNode}

/-- The merged node's size and its link are written. -/
theorem Seg.absorb (hR : ∀ a b, R a b → a ≤ b) (hhi : hi ≤ u64Size)
    (hlay : Layout R lo (n :: k :: r) hi) (hadj : n.stop = k.addr) (hn : Header m n p q)
    (hr : Seg m n.addr r 0) :
    Seg (size.set (next.set m n.addr (firstAddr r 0)) n.addr (n.absorb k).size) p
      (n.absorb k :: r) 0 := by
  have hlay' := hlay.absorb hadj
  have hsize : (n.absorb k).size < u64Size := by
    have hb := hlay'.bounds hR hhi List.mem_cons_self
    rw [heapNodeSize] at hb
    omega
  refine ⟨⟨?_, ?_, ?_, ?_⟩, ?_⟩
  · exact get_set_self hsize
  · rw [absorb_addr, get_set_ne (by decide), get_set_ne (by decide), hn.status, absorb_used]
  · rw [absorb_addr, get_set_ne (by decide), get_set_ne (by decide), hn.prev]
  · rw [absorb_addr, get_set_ne (by decide)]
    exact get_set_self (hlay'.2.firstAddr_lt hR hhi)
  · refine hr.congr fun j hj f => ?_
    have hnj := hlay.apart hR (List.mem_cons_of_mem _ hj)
    rw [get_set_apart hnj, get_set_apart hnj]

/-- The test of `merge_right` is whether the nodes join. -/
theorem u64Add_size_eq_iff (hR : ∀ a b, R a b → a ≤ b) (hhi : hi ≤ u64Size)
    (hlay : Layout R lo (n :: k :: r) hi) :
    u64Add n.size (u64Add n.addr heapNodeSize) = k.addr ↔ n.stop = k.addr := by
  have hk := hlay.bounds hR hhi (List.mem_cons_of_mem _ List.mem_cons_self)
  have hnk := Layout.stop_le' (l := []) hR hlay List.mem_cons_self
  rw [heapNodeSize] at hk
  rw [stop, heapNodeSize] at hnk ⊢
  rw [u64Add_eq (a := n.addr) (by omega), u64Add_eq (by omega)]
  omega

/-- **`merge_right`** on a free node: the list is linked again, with the node behind it merged into
it if that one is free and adjacent. Only headers are written. -/
theorem mergeRight_spec (hR : ∀ a b, R a b → a ≤ b) (hlo : 0 < lo) (hhi : hi ≤ u64Size)
    (hlay : Layout R lo (n :: r) hi) (hfree : n.used = false) (hs : Seg m p (n :: r) 0) :
    Seg (mergeRight m n.addr) p (coalesce n r) 0 ∧
      ∀ i, OffHeaders (n :: r) i → mergeRight m n.addr i = m i := by
  cases r with
  | nil =>
    have he : mergeRight m n.addr = m := by
      unfold mergeRight
      exact if_neg fun h => h.1 hs.1.next
    rw [he]
    exact ⟨hs, fun _ _ => rfl⟩
  | cons k r =>
    obtain ⟨hn, hk, hr⟩ := hs
    have hnext : next.get m n.addr = k.addr := hn.next
    have hk0 : k.addr ≠ 0 := by
      have := (hlay.le hR).2 k (List.mem_cons_of_mem _ List.mem_cons_self)
      omega
    have htest : (next.get m n.addr ≠ 0 ∧ status.get m (next.get m n.addr) = heapFree ∧
        u64Add (size.get m n.addr) (u64Add n.addr heapNodeSize) = next.get m n.addr) ↔
        n.Joins k := by
      rw [hnext, hk.status, hn.size, u64Add_size_eq_iff hR hhi hlay]
      simp [Joins, hfree, hk0, heapFree]
    by_cases hj : n.Joins k
    case neg =>
      have he : mergeRight m n.addr = m := by
        unfold mergeRight
        exact if_neg fun h => hj (htest.mp h)
      rw [he, coalesce, if_neg hj]
      exact ⟨⟨hn, hk, hr⟩, fun _ _ => rfl⟩
    case pos =>
      have hadj := hj.2.2
      have hkpos : 0 < k.stop := by
        have := k.addr_add_le_stop
        omega
      have hsum : u64Add n.size (u64Add k.size heapNodeSize) = (n.absorb k).size := by
        have hb := (hlay.absorb hadj).bounds hR hhi List.mem_cons_self
        simp only [absorb, heapNodeSize] at hb ⊢
        rw [u64Add_eq (a := k.size) (by omega), u64Add_eq (by omega)]
      -- the node behind the merged one points back
      obtain ⟨hr', hframe⟩ := hr.relink (v := n.addr) hR hlay.2.2 hkpos
        (hlay.addr_lt hR hhi List.mem_cons_self)
      set m₁ := if firstAddr r 0 ≠ 0 then prev.set m (firstAddr r 0) n.addr else m with hm₁
      have hoff : ∀ j ∈ [n, k], ∀ f : HeapField, f.get m₁ j.addr = f.get m j.addr := by
        intro j hj f
        refine get_congr fun i hi hi' => hframe i fun j' hj' => ?_
        have hnk := n.addr_add_le_stop
        have hkj := Layout.stop_le' (l := [n]) hR hlay hj'
        have hk := k.addr_add_le_stop
        rcases List.mem_pair.mp hj with rfl | rfl <;> exact .inl (by omega)
      have hkm := hoff k (by simp)
      have he : mergeRight m n.addr =
          size.set (next.set m₁ n.addr (firstAddr r 0)) n.addr (n.absorb k).size := by
        unfold mergeRight
        rw [if_pos (htest.mpr hj), hnext]
        simp only [hk.next]
        rw [← hm₁]
        simp only [get_set_ne, get_set_apart, hlay.apart hR List.mem_cons_self, hkm,
          hoff n (by simp), hk.next, hk.size, hn.size, hsum, ne_eq, reduceCtorEq,
          not_false_eq_true]
      rw [he, coalesce, if_pos hj]
      refine ⟨Seg.absorb hR hhi hlay hadj (hn.congr (hoff n (by simp))) hr', fun i hi => ?_⟩
      have hin := hi n List.mem_cons_self
      rw [set_of_notMem hin, set_of_notMem hin]
      exact hframe i fun j hj => hi j (by simp [hj])

/-- Behind the first node there is nothing to merge with on the left. -/
theorem mergeLeft_first (hs : Seg m 0 (n :: r) 0) : mergeLeft m n.addr = some m := by
  unfold mergeLeft
  exact if_neg fun h => h.1 hs.1.prev

/-- The test of the left merge is whether the nodes join. -/
theorem mergeLeft_test (hR : ∀ a b, R a b → a ≤ b) (hlo : 0 < lo) (hhi : hi ≤ u64Size)
    (hlay : Layout R lo (k :: n :: r) hi) (hfree : n.used = false) (hs : Seg m p (k :: n :: r) 0) :
    (prev.get m n.addr ≠ 0 ∧ status.get m (prev.get m n.addr) = heapFree ∧
      u64Add (u64Add (prev.get m n.addr) (size.get m (prev.get m n.addr))) heapNodeSize =
        n.addr) ↔ k.Joins n := by
  have hk0 : k.addr ≠ 0 := by
    have := (hlay.le hR).2 k List.mem_cons_self
    omega
  have hadj : u64Add (u64Add k.addr k.size) heapNodeSize = n.addr ↔ k.stop = n.addr := by
    have hn := hlay.addr_lt hR hhi (List.mem_cons_of_mem _ List.mem_cons_self)
    have hkn := Layout.stop_le' (l := []) hR hlay List.mem_cons_self
    rw [stop] at hkn ⊢
    rw [u64Add_eq (a := k.addr) (by omega), u64Add_eq (by omega)]
    omega
  rw [hs.2.1.prev, hs.1.status, hs.1.size, hadj]
  simp [Joins, hfree, hk0, heapFree]

/-- The left merge with a node that is used or not adjacent. -/
theorem mergeLeft_of_not_joins (hR : ∀ a b, R a b → a ≤ b) (hlo : 0 < lo) (hhi : hi ≤ u64Size)
    (hlay : Layout R lo (k :: n :: r) hi) (hfree : n.used = false)
    (hs : Seg m p (k :: n :: r) 0) (hj : ¬k.Joins n) : mergeLeft m n.addr = some m := by
  unfold mergeLeft
  exact if_neg fun h => hj ((mergeLeft_test hR hlo hhi hlay hfree hs).mp h)

/-- The left merge of the last node follows its link, which is `NULL`. -/
theorem mergeLeft_last (hR : ∀ a b, R a b → a ≤ b) (hlo : 0 < lo) (hhi : hi ≤ u64Size)
    (hlay : Layout R lo [k, n] hi) (hfree : n.used = false) (hs : Seg m p [k, n] 0)
    (hj : k.Joins n) : mergeLeft m n.addr = none := by
  have hnext : next.get (next.set m (prev.get m n.addr) (next.get m n.addr)) n.addr = 0 := by
    rw [hs.2.1.prev, get_set_apart (hlay.apart hR List.mem_cons_self), hs.2.1.next]
    rfl
  unfold mergeLeft
  rw [if_pos ((mergeLeft_test hR hlo hhi hlay hfree hs).mpr hj)]
  exact if_pos hnext

/-- The left merge of a node that has one behind it. -/
theorem mergeLeft_joins {j : HeapNode} (hR : ∀ a b, R a b → a ≤ b) (hlo : 0 < lo)
    (hhi : hi ≤ u64Size) (hlay : Layout R lo (k :: n :: j :: r) hi) (hfree : n.used = false)
    (hs : Seg m p (k :: n :: j :: r) 0) (hjoin : k.Joins n) :
    ∃ m', mergeLeft m n.addr = some m' ∧ Seg m' p (k.absorb n :: j :: r) 0 ∧
      ∀ i, OffHeaders (k :: n :: j :: r) i → m' i = m i := by
  obtain ⟨hk, hn, hr⟩ := hs
  have hadj := hjoin.2.2
  have hkn := hlay.apart hR (k := n) List.mem_cons_self
  have hkj := hlay.apart hR (k := j) (by simp)
  have hnj := hlay.2.apart hR (k := j) (by simp)
  have hj0 : j.addr ≠ 0 := by
    have := (hlay.le hR).2 j (by simp)
    omega
  have hnpos : 0 < n.stop := by
    have := (hlay.le hR).2 n (by simp)
    have := n.addr_add_le_stop
    omega
  have hsum : u64Add k.size (u64Add n.size heapNodeSize) = (k.absorb n).size := by
    have hb := (hlay.absorb hadj).bounds hR hhi List.mem_cons_self
    simp only [HeapNode.absorb, heapNodeSize] at hb ⊢
    rw [u64Add_eq (a := n.size) (by omega), u64Add_eq (by omega)]
  obtain ⟨hr', hframe⟩ := hr.relink (v := k.addr) hR hlay.2.2 hnpos
    (hlay.addr_lt hR hhi List.mem_cons_self)
  rw [firstAddr, if_pos hj0] at hr' hframe
  refine ⟨size.set (next.set (prev.set m j.addr k.addr) k.addr (firstAddr (j :: r) 0)) k.addr
    (k.absorb n).size, ?_, ?_, ?_⟩
  · unfold mergeLeft
    rw [if_pos ((mergeLeft_test hR hlo hhi hlay hfree ⟨hk, hn, hr⟩).mpr hjoin)]
    simp only [hn.prev, hn.next, get_set_apart hkn, firstAddr, if_neg hj0]
    rw [set_comm hkj]
    simp only [get_set_ne, get_set_apart, hkn, hkj.symm, hnj.symm, hk.size, hn.size, hsum, ne_eq,
      reduceCtorEq, not_false_eq_true]
  · refine Seg.absorb hR hhi hlay hadj (hk.congr fun f => get_set_apart hkj.symm) hr'
  · intro i hi
    have hik := hi k List.mem_cons_self
    rw [set_of_notMem hik, set_of_notMem hik, set_of_notMem (hi j (by simp))]

end Merge

/-! ## `free` -/

/-- The list in which `free` of `n` fails: the node on the left is merged with, and nothing is left
behind `n` once it has been merged to the right. -/
def Trapped (l : List HeapNode) (n : HeapNode) (r : List HeapNode) : Prop :=
  (∃ p, l.getLast? = some p ∧ p.Joins n.release) ∧
    (r = [] ∨ ∃ k, r = [k] ∧ n.release.Joins k)

instance (l : List HeapNode) (n : HeapNode) (r : List HeapNode) : Decidable (Trapped l n r) :=
  have : Decidable (∃ p, l.getLast? = some p ∧ p.Joins n.release) :=
    inferInstanceAs (Decidable (∃ p ∈ l.getLast?, p.Joins n.release))
  have : Decidable (∃ k, r = [k] ∧ n.release.Joins k) :=
    match r with
    | [k] => decidable_of_iff (n.release.Joins k) (by simp)
    | [] => isFalse (by simp)
    | _ :: _ :: _ => isFalse (by simp)
  inferInstanceAs (Decidable (_ ∧ (_ ∨ _)))

section Free

variable {R : Nat → Nat → Prop} {lo hi : Nat} {m : Mem} {n : HeapNode} {l r : List HeapNode}

/-- The node is marked free. -/
theorem Seg.release (hR : ∀ a b, R a b → a ≤ b) (hlay : Layout R lo (l ++ n :: r) hi)
    (hs : Seg m 0 (l ++ n :: r) 0) :
    Seg (status.set m n.addr heapFree) 0 (l ++ n.release :: r) 0 := by
  refine hs.replace hR hlay rfl (fun i hi => set_of_notMem (.inl hi)) ?_
  obtain ⟨hn, hr⟩ := (Seg.append_iff.mp hs).2
  obtain ⟨lo', -, hlay'⟩ := hlay.suffix hR
  refine ⟨⟨?_, ?_, ?_, ?_⟩, ?_⟩
  · exact (get_set_ne (by decide)).trans hn.size
  · exact get_set_self (by decide)
  · exact (get_set_ne (by decide)).trans hn.prev
  · exact (get_set_ne (by decide)).trans hn.next
  · exact hr.congr fun k hk f => get_set_apart (hlay'.apart hR hk)

/-- The node is marked free and merged to the right. -/
theorem freeNode_right (hR : ∀ a b, R a b → a ≤ b) (hlo : 0 < lo) (hhi : hi ≤ u64Size)
    (hlay : Layout R lo (l ++ n :: r) hi) (hused : n.used = true) (hs : Seg m 0 (l ++ n :: r) 0) :
    ∃ m', freeNode m n.addr = mergeLeft m' n.addr ∧
      Seg m' 0 (l ++ coalesce n.release r) 0 ∧
      ∀ i, OffHeaders (n :: r) i → m' i = m i := by
  have hs₁ := hs.release hR hlay
  have hlay₁ := hlay.release
  obtain ⟨lo', hlo', hsuf⟩ := hlay₁.suffix hR
  obtain ⟨hs₂, hframe⟩ := mergeRight_spec hR (by omega) hhi hsuf rfl (Seg.append_iff.mp hs₁).2
  have hstatus : status.get m n.addr = 1 := by
    rw [(Seg.append_iff.mp hs).2.1.status, hused]
    rfl
  refine ⟨mergeRight (status.set m n.addr heapFree) n.addr, ?_, ?_, fun i hi => ?_⟩
  · rw [freeNode, if_neg (by simp [hstatus, heapUsed]), if_neg (by simp [hstatus, heapFree])]
  · exact hs₁.replace hR hlay₁ (firstAddr_coalesce _ _ _)
      (fun i hi => hframe i (hsuf.offHeaders_of_lt hR hi)) hs₂
  · have hn := OffHeaders.cons_iff.mp hi
    exact (hframe i (OffHeaders.cons_iff.mpr hn)).trans (set_of_notMem hn.1)

/-- **`free`** of a used node that is not trapped: the list is linked again with the node freed and
merged. Only headers are written. -/
theorem freeNode_spec (hR : ∀ a b, R a b → a ≤ b) (hlo : 0 < lo) (hhi : hi ≤ u64Size)
    (hlay : Layout R lo (l ++ n :: r) hi) (hused : n.used = true) (hs : Seg m 0 (l ++ n :: r) 0)
    (ht : ¬Trapped l n r) :
    ∃ m', freeNode m n.addr = some m' ∧ Seg m' 0 (freed l n r) 0 ∧
      ∀ i, OffHeaders (l ++ n :: r) i → m' i = m i := by
  obtain ⟨m₁, he, hs₁, hframe⟩ := freeNode_right hR hlo hhi hlay hused hs
  have hlay₁ : Layout R lo (l ++ coalesce n.release r) hi :=
    hlay.release.replace fun _ h => h.coalesce
  have hoff : ∀ i, OffHeaders (l ++ n :: r) i → m₁ i = m i := fun i hi =>
    hframe i fun k hk => hi k (List.mem_append_right _ hk)
  obtain ⟨n', r', hn', haddr, hfree, hnil⟩ := coalesce_eq_cons n.release r
  rw [hn'] at hs₁ hlay₁
  rw [release_addr] at haddr
  rcases List.eq_nil_or_concat' l with rfl | ⟨l, p, rfl⟩
  · refine ⟨m₁, ?_, by rw [freed_nil, hn']; exact hs₁, hoff⟩
    rw [he, ← haddr]
    exact mergeLeft_first hs₁
  · rw [List.append_assoc] at hs₁ hlay₁
    obtain ⟨lo', hlo', hsuf⟩ := hlay₁.suffix hR
    have hseg := (Seg.append_iff.mp hs₁).2
    rw [freed_concat, hn', coalesce]
    by_cases hj : p.Joins n'
    case neg =>
      refine ⟨m₁, ?_, by rw [if_neg hj]; exact hs₁, hoff⟩
      rw [he, ← haddr]
      exact mergeLeft_of_not_joins hR (by omega) hhi hsuf hfree hseg hj
    case pos =>
      have hjn : p.Joins n.release := ⟨hj.1, rfl, hj.2.2.trans haddr⟩
      cases r' with
      | nil => exact absurd ⟨⟨p, by simp, hjn⟩, hnil.mp rfl⟩ ht
      | cons j r' =>
        obtain ⟨m₂, he₂, hs₂, hframe₂⟩ := mergeLeft_joins hR (by omega) hhi hsuf hfree hseg hj
        refine ⟨m₂, ?_, ?_, fun i hi => ?_⟩
        · rw [he, ← haddr, he₂]
        · rw [if_pos hj]
          exact hs₁.replace hR hlay₁ rfl (fun i hi => hframe₂ i (hsuf.offHeaders_of_lt hR hi)) hs₂
        · obtain ⟨hlp, hnr⟩ := OffHeaders.append_iff.mp hi
          have hn := OffHeaders.cons_iff.mp hnr
          have hreleased : OffHeaders (n.release :: r) i := OffHeaders.cons_iff.mpr hn
          have hmerged : OffHeaders (n' :: j :: r') i := by
            rw [← hn']
            exact hreleased.mono fun k hk => mem_coalesce hk
          have hp := (OffHeaders.append_iff.mp hlp).2 p List.mem_cons_self
          exact (hframe₂ i (OffHeaders.cons_iff.mpr ⟨hp, hmerged⟩)).trans (hframe i hnr)

/-- **`free` of a trapped node follows a `NULL` link.** -/
theorem freeNode_trapped (hR : ∀ a b, R a b → a ≤ b) (hlo : 0 < lo) (hhi : hi ≤ u64Size)
    (hlay : Layout R lo (l ++ n :: r) hi) (hused : n.used = true) (hs : Seg m 0 (l ++ n :: r) 0)
    (ht : Trapped l n r) : freeNode m n.addr = none := by
  obtain ⟨m₁, he, hs₁, -⟩ := freeNode_right hR hlo hhi hlay hused hs
  have hlay₁ : Layout R lo (l ++ coalesce n.release r) hi :=
    hlay.release.replace fun _ h => h.coalesce
  obtain ⟨⟨p, hp, hj⟩, hr⟩ := ht
  obtain ⟨l, rfl⟩ := List.getLast?_eq_some_iff.mp hp
  obtain ⟨n', r', hn', haddr, hfree, hnil⟩ := coalesce_eq_cons n.release r
  obtain rfl := hnil.mpr hr
  rw [hn', List.append_assoc] at hs₁ hlay₁
  obtain ⟨lo', hlo', hsuf⟩ := hlay₁.suffix hR
  rw [release_addr] at haddr
  rw [he, ← haddr]
  exact mergeLeft_last hR (by omega) hhi hsuf hfree (Seg.append_iff.mp hs₁).2
    ⟨hj.1, hfree, hj.2.2.trans haddr.symm⟩

end Free

/-- A well-formed heap: its nodes tile regions in address order, linked in both directions, and no
two adjacent ones are free. -/
structure Heap.WellFormed (h : Heap) (nodes : List HeapNode) : Prop where
  first : h.kernelHeap = firstAddr nodes 0
  layout : Layout (· ≤ ·) 1 nodes u64Size
  linked : Seg h.mem 0 nodes 0
  coalesced : Coalesced nodes

instance (h : Heap) (nodes : List HeapNode) : Decidable (h.WellFormed nodes) :=
  decidable_of_iff
    (h.kernelHeap = firstAddr nodes 0 ∧ Layout (· ≤ ·) 1 nodes u64Size ∧ Seg h.mem 0 nodes 0 ∧
      Coalesced nodes)
    ⟨fun h => ⟨h.1, h.2.1, h.2.2.1, h.2.2.2⟩, fun h => ⟨h.first, h.layout, h.linked, h.coalesced⟩⟩

/-- What `free` of the node `n` between `l` and `r` has to leave. -/
structure Heap.Frees (h : Heap) (l : List HeapNode) (n : HeapNode) (r : List HeapNode) (h' : Heap)
    (nodes : List HeapNode) : Prop where
  wellFormed : h'.WellFormed nodes
  /-- The block is free, and merged with the free neighbours. -/
  merged : ∃ f ∈ nodes, f.used = false ∧ f.addr ≤ n.addr ∧ n.stop ≤ f.stop ∧
    (∀ p ∈ l.getLast?, p.Joins n.release → f.addr = p.addr) ∧
    ∀ k ∈ r.head?, n.release.Joins k → f.stop = k.stop
  total : total nodes = total (l ++ n :: r)
  regions : ∀ a, Covers nodes a ↔ Covers (l ++ n :: r) a
  others : ∀ k ∈ l ++ r, ¬k.Joins n.release → ¬n.release.Joins k → k ∈ nodes
  blocks : ∀ k ∈ l ++ n :: r, ∀ i, k.ptr ≤ i → i < k.stop → h'.mem i = h.mem i

section Theorems

variable {h : Heap} {l r : List HeapNode} {n : HeapNode}

/-- A block is in no header. -/
theorem Layout.offHeaders {R : Nat → Nat → Prop} {lo hi i : Nat} {s : List HeapNode}
    {k : HeapNode} (hR : ∀ a b, R a b → a ≤ b) (hlay : Layout R lo s hi) (hk : k ∈ s)
    (hi : k.ptr ≤ i) (hi' : i < k.stop) : OffHeaders s i := by
  intro j hj
  obtain ⟨s₁, s₂, rfl⟩ := List.append_of_mem hk
  have hstop := j.addr_add_le_stop
  rw [ptr] at hi
  rcases List.mem_append.mp hj with hj | hj
  · have := hlay.stop_le hR hj
    exact .inr (by omega)
  · rcases List.mem_cons.mp hj with rfl | hj
    · exact .inr hi
    · have := hlay.stop_le' hR hj
      exact .inl (by omega)

/-- **`free` works unless the node is trapped.** On every well-formed heap, `free` of a used node
frees it, merges it with its free neighbours and leaves a well-formed heap with the other blocks
untouched, if and only if it is not the case that the node merges to the left and, once merged to
the right, is the last one. -/
theorem Heap.free_iff_not_trapped (hwf : h.WellFormed (l ++ n :: r)) (hused : n.used = true) :
    (∃ h' nodes, h.free n.ptr = some h' ∧ h.Frees l n r h' nodes) ↔ ¬Trapped l n r := by
  have hR : ∀ a b : Nat, a ≤ b → a ≤ b := fun _ _ h => h
  have hle := Nat.le_refl u64Size
  have hptr := hwf.layout.u64Sub_ptr hR hle (k := n) (by simp)
  constructor
  · rintro ⟨h', nodes, he, -⟩ ht
    have hnone := freeNode_trapped hR Nat.one_pos hle hwf.layout hused hwf.linked ht
    rw [Heap.free, hptr, hnone] at he
    exact nomatch he
  · intro ht
    obtain ⟨m', he, hs, hframe⟩ :=
      freeNode_spec hR Nat.one_pos hle hwf.layout hused hwf.linked ht
    refine ⟨{ h with mem := m' }, freed l n r, ?_, ?_⟩
    · rw [Heap.free, hptr, he]
      rfl
    · exact {
        wellFormed := {
          first := hwf.first.trans (firstAddr_freed l n r 0).symm
          layout := hwf.layout.freed
          linked := hs
          coalesced := hwf.coalesced.freed }
        merged := exists_mem_freed l n r
        total := total_freed l n r
        regions := fun _ => covers_freed
        others := fun k hk hl hr => mem_freed hR hwf.layout hk hl hr
        blocks := fun k hk i hi hi' => hframe i (hwf.layout.offHeaders hR hk hi hi') }

/-- The small heap with four blocks of 32 bytes, of which those at the pointers are freed. -/
def fourBlocks (freed : List Nat) : Option Heap := do
  let (h, _) ← smallHeap.alloc 32
  let (h, _) ← h.alloc 32
  let (h, _) ← h.alloc 32
  let (h, _) ← h.alloc 32
  freed.foldlM Heap.free h

/-- The second block is freed between two free ones. -/
theorem Heap.free_iff_not_trapped_between :
    ∃ h, fourBlocks [0x1020, 0x10a0] = some h ∧
      ((∃ h' nodes, h.free (HeapNode.ptr ⟨0x1040, 32, true⟩) = some h' ∧
          h.Frees [⟨0x1000, 32, false⟩] ⟨0x1040, 32, true⟩
            [⟨0x1080, 32, false⟩, ⟨0x10c0, 32, true⟩] h' nodes) ↔
        ¬Trapped [⟨0x1000, 32, false⟩] ⟨0x1040, 32, true⟩
          [⟨0x1080, 32, false⟩, ⟨0x10c0, 32, true⟩]) := by
  have hall : (fourBlocks [0x1020, 0x10a0]).any fun h => decide (h.WellFormed
      [⟨0x1000, 32, false⟩, ⟨0x1040, 32, true⟩, ⟨0x1080, 32, false⟩, ⟨0x10c0, 32, true⟩]) := by
    decide +kernel
  obtain ⟨h, hh, hwf⟩ := (Option.any_eq_true _ _).mp hall
  exact ⟨h, hh, Heap.free_iff_not_trapped (of_decide_eq_true hwf) rfl⟩

/-- The last block cannot be freed behind a free one. -/
theorem Heap.free_last_fails :
    ∃ h, fourBlocks [0x10a0] = some h ∧
      h.WellFormed [⟨0x1000, 32, true⟩, ⟨0x1040, 32, true⟩, ⟨0x1080, 32, false⟩,
        ⟨0x10c0, 32, true⟩] ∧
      h.free 0x10e0 = none := by
  have hall : (fourBlocks [0x10a0]).any fun h => decide (h.WellFormed
      [⟨0x1000, 32, true⟩, ⟨0x1040, 32, true⟩, ⟨0x1080, 32, false⟩, ⟨0x10c0, 32, true⟩]) &&
      (h.free 0x10e0).isNone := by
    decide +kernel
  obtain ⟨h, hh, hp⟩ := (Option.any_eq_true _ _).mp hall
  obtain ⟨hwf, hnone⟩ := Bool.and_eq_true_iff.mp hp
  exact ⟨h, hh, of_decide_eq_true hwf, Option.isNone_iff_eq_none.mp hnone⟩

end Theorems

end Colibri.Memory
