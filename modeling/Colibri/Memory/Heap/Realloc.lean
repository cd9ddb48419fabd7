import Colibri.Memory.Heap.Alloc

/-!
# Resizing a block in place

`realloc` makes a block smaller by turning its end into a free node (`shrink_spec`), and larger by
moving the header of the free node behind it (`extend_spec`). The moved header can overlap the old
one: its `status` and `size` are written before the old `next` is read. `Spared` says that these
two writes do not change what is read; they cannot when the header moves by less than 16 or by at
least 32 bytes.
-/

namespace Colibri.Memory

open Colibri.Lib HeapField HeapNode

/-- The node `n` with a block of `sz` bytes. -/
def HeapNode.resize (n : HeapNode) (sz : Nat) : HeapNode := { n with size := sz }

/-- The free node behind a block of `sz` bytes in `n`, which grows into the free node `k`. -/
def HeapNode.shifted (n k : HeapNode) (sz : Nat) : HeapNode where
  addr := n.addr + heapNodeSize + sz
  size := n.size + k.size - sz
  used := false

@[simp] theorem resize_addr (n : HeapNode) (sz : Nat) : (n.resize sz).addr = n.addr := rfl

theorem resize_stop (n : HeapNode) (sz : Nat) :
    (n.resize sz).stop = n.addr + heapNodeSize + sz := rfl

/-- The header that `realloc` writes for the node behind the grown block has not yet changed the
link of the old one, which it overlaps, when that link is read. -/
def Spared (m : Mem) (n k : HeapNode) (sz : Nat) : Prop :=
  next.get (size.set (status.set m (n.shifted k sz).addr heapFree) (n.shifted k sz).addr
    (n.shifted k sz).size) k.addr = next.get m k.addr

instance (m : Mem) (n k : HeapNode) (sz : Nat) : Decidable (Spared m n k sz) :=
  inferInstanceAs (Decidable (_ = _))

section Resize

variable {R : Nat → Nat → Prop} {lo hi p sz : Nat} {m : Mem} {n k : HeapNode}
  {l r : List HeapNode}

/-- The layout after the node is split behind `sz` bytes. -/
theorem Layout.split (hrefl : ∀ a, R a a) (h : Layout R lo (n :: r) hi)
    (hsz : sz + heapNodeSize ≤ n.size) : Layout R lo (n.resize sz :: n.rest sz :: r) hi :=
  ⟨h.1, hrefl _, by rw [rest_stop hsz]; exact h.2⟩

/-- The layout after the node `k` is shifted to grow the node before it. -/
theorem Layout.shift (hrefl : ∀ a, R a a) (h : Layout R lo (n :: k :: r) hi)
    (hadj : n.stop = k.addr) (hsz : sz ≤ n.size + k.size) :
    Layout R lo (n.resize sz :: n.shifted k sz :: r) hi := by
  have hstop : (n.shifted k sz).stop = k.stop := by
    simp only [stop, shifted] at hadj ⊢
    omega
  exact ⟨h.1, hrefl _, by rw [hstop]; exact h.2.2⟩

/-- The headers of `s` are written and those of `r` are behind them. -/
theorem Seg.frame {s : List HeapNode} {m' : Mem} {q : Nat} (hR : ∀ a b, R a b → a ≤ b)
    (hlay : Layout R lo (s ++ r) hi) (hr : Seg m q r 0)
    (hm : ∀ i, OffHeaders s i → m' i = m i) : Seg m' q r 0 := by
  refine hr.congr fun k hk f => get_congr fun i hi _ => hm i fun j hj => .inr ?_
  obtain ⟨s₁, s₂, rfl⟩ := List.append_of_mem hj
  rw [List.append_assoc] at hlay
  have hstop := hlay.stop_le' hR (k := k) (by simp [hk])
  have hj := j.addr_add_le_stop
  omega

/-- The headers in front of `r` are kept where only headers of `r` are written. -/
theorem Header.frame {s : List HeapNode} {m' : Mem} {q : Nat} (hR : ∀ a b, R a b → a ≤ b)
    (hlay : Layout R lo (s ++ r) hi) (hk : k ∈ s) (h : Header m k p q)
    (hm : ∀ i, OffHeaders r i → m' i = m i) : Header m' k p q := by
  refine h.congr fun f => get_congr fun i _ hi => hm i fun j hj => .inl ?_
  obtain ⟨s₁, s₂, rfl⟩ := List.append_of_mem hk
  rw [List.append_assoc] at hlay
  have hstop := hlay.stop_le' hR (k := j) (by simp [hj])
  have hk := k.addr_add_le_stop
  omega

/-- **`realloc` to a smaller size**: the rest of the block becomes a free node, merged with the node
on the right. -/
theorem shrink_spec (hR : ∀ a b, R a b → a ≤ b) (hrefl : ∀ a, R a a) (hhi : hi < u64Size)
    (hlay : Layout R lo (n :: r) hi) (hsz : sz + heapNodeSize ≤ n.size) (hs : Seg m p (n :: r) 0) :
    Seg (shrink m n.addr n.ptr sz) p (n.resize sz :: coalesce (n.rest sz) r) 0 ∧
      ∀ i, OffHeaders (n.resize sz :: n.rest sz :: r) i → shrink m n.addr n.ptr sz i = m i := by
  obtain ⟨hn, hr⟩ := hs
  have hlay' := hlay.split hrefl hsz
  have hle := Nat.le_of_lt hhi
  have hstop := ((hlay.le hR).2 n List.mem_cons_self).2
  rw [stop] at hstop
  have hap : Apart n.addr (n.rest sz).addr := .inl (Nat.le_add_right _ _)
  have haddr : u64Add n.ptr sz = (n.rest sz).addr := u64Add_eq (by rw [ptr]; omega)
  have hsize : u64Sub (u64Sub n.size sz) heapNodeSize = (n.rest sz).size := by
    rw [u64Sub_eq (a := n.size) (by omega) (by omega), u64Sub_eq (by omega) (by omega)]
    rfl
  have hrest : (n.rest sz).addr < u64Size ∧ (n.rest sz).size < u64Size := by
    simp only [rest]
    omega
  have hfirst := hlay.2.firstAddr_lt hR hle
  have hnaddr := hlay.addr_lt hR hle List.mem_cons_self
  set c := n.rest sz with hc
  -- the header of the new node, and the new size of the old one
  set m₁ := size.set (size.set (prev.set (next.set (status.set m c.addr heapFree) c.addr
    (firstAddr r 0)) c.addr n.addr) c.addr c.size) n.addr sz with hm₁
  have hframe₁ : ∀ i, OffHeaders [n.resize sz, c] i → m₁ i = m i := fun i hi => by
    have hin : i < n.addr ∨ n.addr + heapNodeSize ≤ i := hi (n.resize sz) (by simp)
    have hic := hi c (by simp)
    rw [hm₁, set_of_notMem hin, set_of_notMem hic, set_of_notMem hic, set_of_notMem hic,
      set_of_notMem hic]
  have hn₁ : Header m₁ (n.resize sz) p (firstAddr r 0) := by
    refine ⟨get_set_u64 (by decide) (by omega), ?_, ?_, ?_⟩ <;>
      simp only [hm₁, resize_addr, get_set_ne, get_set_apart, hap.symm, ne_eq, reduceCtorEq,
        not_false_eq_true]
    · exact hn.status
    · exact hn.prev
    · exact hn.next
  have hc₁ : Header m₁ c n.addr (firstAddr r 0) := by
    refine ⟨?_, ?_, ?_, ?_⟩ <;>
      simp only [hm₁, get_set_ne, get_set_apart, hap, get_set_u64, hrest, hnaddr, hfirst, ne_eq,
        reduceCtorEq, not_false_eq_true]
    exact get_set_self (by decide)
  have hr₁ : Seg m₁ n.addr r 0 := hr.frame (s := [n.resize sz, c]) hR hlay' hframe₁
  -- the node behind points back at the new one
  obtain ⟨hr₂, hframe₂⟩ := hr₁.relink (v := c.addr) hR hlay'.2.2 c.stop_pos hrest.1
  set m₂ := if firstAddr r 0 ≠ 0 then prev.set m₁ (firstAddr r 0) c.addr else m₁ with hm₂
  have hn₂ : Header m₂ (n.resize sz) p (firstAddr r 0) :=
    hn₁.frame (s := [n.resize sz, c]) hR hlay' (by simp) hframe₂
  have hc₂ : Header m₂ c n.addr (firstAddr r 0) :=
    hc₁.frame (s := [n.resize sz, c]) hR hlay' (by simp) hframe₂
  have he : shrink m n.addr n.ptr sz = mergeRight (next.set m₂ n.addr c.addr) c.addr := by
    unfold shrink
    simp only [haddr, get_set_ne, get_set_apart, hap.symm, hn.next, hn.size, hsize, ne_eq,
      reduceCtorEq, not_false_eq_true]
    rw [← hm₁, hm₂]
  -- the last link, and the merge
  have hs₃ : Seg (next.set m₂ n.addr c.addr) n.addr (c :: r) 0 :=
    ⟨hc₂.congr fun f => get_set_apart hap, hr₂.frame (s := [n.resize sz, c]) hR hlay' fun i hi =>
      set_of_notMem (hi (n.resize sz) (by simp))⟩
  obtain ⟨hs₄, hframe₄⟩ := mergeRight_spec hR (n.resize sz).stop_pos hle hlay'.2 rfl hs₃
  have hn₃ : Header (next.set m₂ n.addr c.addr) (n.resize sz) p c.addr :=
    ⟨(get_set_ne (by decide)).trans hn₂.size, (get_set_ne (by decide)).trans hn₂.status,
      (get_set_ne (by decide)).trans hn₂.prev, get_set_u64 (by decide) hrest.1⟩
  rw [he]
  refine ⟨⟨?_, hs₄⟩, fun i hi => ?_⟩
  · rw [firstAddr_coalesce]
    exact hn₃.frame (s := [n.resize sz]) hR hlay' (by simp) hframe₄
  · have hcr := (OffHeaders.cons_iff.mp hi).2
    have hin : i < n.addr ∨ n.addr + heapNodeSize ≤ i := (OffHeaders.cons_iff.mp hi).1
    have hr := (OffHeaders.cons_iff.mp hcr).2
    have hic := (OffHeaders.cons_iff.mp hcr).1
    rw [hframe₄ i hcr, set_of_notMem hin, hframe₂ i hr]
    refine hframe₁ i fun j hj => ?_
    rcases List.mem_pair.mp hj with rfl | rfl
    · exact hin
    · exact hic

/-- What `realloc` has written into the free node on the right when it comes to the last test: a
header for the rest, with the link `g` that it read off the old one. -/
theorem extend_headers (hR : ∀ a b, R a b → a ≤ b) (hhi : hi < u64Size)
    (hlay : Layout R lo (n :: k :: r) hi) (hadj : n.stop = k.addr)
    (hle : n.size ≤ sz) (hsz : sz ≤ n.size + k.size) {g : Nat}
    (hg : next.get (size.set (status.set m (n.shifted k sz).addr heapFree) (n.shifted k sz).addr
      (n.shifted k sz).size) k.addr = g)
    (hs : Seg m p (n :: k :: r) 0) :
    ∃ m₁, extend m n.addr n.ptr sz =
        (if g ≠ 0 then prev.set m₁ g (n.shifted k sz).addr else m₁) ∧
      Header m₁ (n.resize sz) p (n.shifted k sz).addr ∧ Header m₁ (n.shifted k sz) n.addr g ∧
      ∀ i, OffHeaders [n.resize sz, n.shifted k sz] i → m₁ i = m i := by
  obtain ⟨hn, hk, -⟩ := hs
  have hle' := Nat.le_of_lt hhi
  have hkstop := ((hlay.le hR).2 k (by simp)).2
  rw [stop] at hkstop hadj
  have hap : Apart n.addr (n.shifted k sz).addr := .inl (Nat.le_add_right _ _)
  have haddr : u64Add n.ptr sz = (n.shifted k sz).addr := u64Add_eq (by rw [ptr]; omega)
  have hsize : u64Sub (u64Add n.size k.size) sz = (n.shifted k sz).size := by
    rw [u64Add_eq (by omega), u64Sub_eq hsz (by omega)]
    rfl
  have hc : (n.shifted k sz).addr < u64Size ∧ (n.shifted k sz).size < u64Size := by
    simp only [shifted]
    omega
  have hnaddr := hlay.addr_lt hR hle' List.mem_cons_self
  have hksize : size.get (status.set m (n.shifted k sz).addr heapFree) k.addr = k.size := by
    refine (Mem.load_store_of_disjoint (.inr ?_)).trans hk.size
    simp only [shifted, offset, width]
    omega
  have hglt : g < u64Size := hg ▸ get_lt (by decide)
  have hnk : next.get m n.addr = k.addr := hn.next
  set c := n.shifted k sz with hcdef
  set m₁ := size.set (next.set (prev.set (next.set (size.set (status.set m c.addr heapFree) c.addr
    c.size) c.addr g) c.addr n.addr) n.addr c.addr) n.addr sz with hm₁
  have hn₁ : Header m₁ (n.resize sz) p c.addr := by
    refine ⟨get_set_u64 (by decide) (by omega), ?_, ?_, ?_⟩ <;>
      simp only [hm₁, resize_addr, get_set_ne, get_set_apart, hap.symm, get_set_u64, hc, ne_eq,
        reduceCtorEq, not_false_eq_true]
    · exact hn.status
    · exact hn.prev
  have hc₁ : Header m₁ c n.addr g := by
    refine ⟨?_, ?_, ?_, ?_⟩ <;>
      simp only [hm₁, get_set_ne, get_set_apart, hap, get_set_u64, hc, hnaddr, hglt, ne_eq,
        reduceCtorEq, not_false_eq_true]
    exact get_set_self (by decide)
  refine ⟨m₁, ?_, hn₁, hc₁, fun i hi => ?_⟩
  · unfold extend
    simp only [haddr, get_set_apart, hap.symm, hnk, hn.size, hksize, hsize, hg]
    rw [← hm₁, hc₁.next]
  · have hin : i < n.addr ∨ n.addr + heapNodeSize ≤ i := hi (n.resize sz) (by simp)
    have hic := hi c (by simp)
    rw [hm₁, set_of_notMem hin, set_of_notMem hin, set_of_notMem hic, set_of_notMem hic,
      set_of_notMem hic, set_of_notMem hic]

/-- **`realloc` into the free node on the right**, where the link of that node is read before it is
overwritten: the block grows and the rest is a free node again. -/
theorem extend_spec (hR : ∀ a b, R a b → a ≤ b) (hrefl : ∀ a, R a a) (hhi : hi < u64Size)
    (hlay : Layout R lo (n :: k :: r) hi) (hadj : n.stop = k.addr)
    (hle : n.size ≤ sz) (hsz : sz ≤ n.size + k.size) (hspared : Spared m n k sz)
    (hs : Seg m p (n :: k :: r) 0) :
    Seg (extend m n.addr n.ptr sz) p (n.resize sz :: n.shifted k sz :: r) 0 ∧
      ∀ i, OffHeaders (n.resize sz :: n.shifted k sz :: r) i →
        extend m n.addr n.ptr sz i = m i := by
  have hlay' := hlay.shift hrefl hadj hsz
  have hc := hlay'.addr_lt hR (Nat.le_of_lt hhi) (k := n.shifted k sz) (by simp)
  obtain ⟨m₁, he, hn₁, hc₁, hframe₁⟩ := extend_headers hR hhi hlay hadj hle hsz
    (Eq.trans hspared hs.2.1.next) hs
  have hr₁ : Seg m₁ k.addr r 0 :=
    hs.2.2.frame (s := [n.resize sz, n.shifted k sz]) hR hlay' hframe₁
  obtain ⟨hr₂, hframe₂⟩ := hr₁.relink (v := (n.shifted k sz).addr) hR hlay'.2.2
    (n.shifted k sz).stop_pos hc
  rw [he]
  refine ⟨⟨hn₁.frame (s := [n.resize sz, n.shifted k sz]) hR hlay' (by simp) hframe₂,
    hc₁.frame (s := [n.resize sz, n.shifted k sz]) hR hlay' (by simp) hframe₂, hr₂⟩, fun i hi => ?_⟩
  have hcr := (OffHeaders.cons_iff.mp hi).2
  refine (hframe₂ i (OffHeaders.cons_iff.mp hcr).2).trans (hframe₁ i fun j hj => ?_)
  rcases List.mem_pair.mp hj with rfl | rfl
  · exact (OffHeaders.cons_iff.mp hi).1
  · exact (OffHeaders.cons_iff.mp hcr).1

end Resize

/-- **`realloc` into a new block**, once it has one: the block is copied and its old node freed. -/
theorem Heap.move_eq {h h₁ : Heap} {n : HeapNode} {sz p : Nat} (halloc : h.alloc sz = some (h₁, p))
    (hp : p ≠ 0) (hnode : u64Sub n.ptr heapNodeSize = n.addr)
    (hsize : size.get h₁.mem n.addr = n.size) :
    h.move n.addr n.ptr sz =
      (freeNode (h₁.mem.copy p n.ptr n.size) n.addr).map fun mem => ({ h₁ with mem }, p) := by
  unfold Heap.move Heap.free
  simp only [Option.bind_eq_bind, halloc, Option.bind_some, hp, false_and, if_false, hsize, hnode]
  cases freeNode (h₁.mem.copy p n.ptr n.size) n.addr <;> rfl

/-- **`realloc` of an empty block**, when there is no memory: nothing is copied, and the old node is
freed. -/
theorem Heap.move_null {h h₁ : Heap} {n : HeapNode} {sz : Nat} (halloc : h.alloc sz = some (h₁, 0))
    (hnode : u64Sub n.ptr heapNodeSize = n.addr) (hsize : size.get h₁.mem n.addr = 0) :
    h.move n.addr n.ptr sz = (freeNode h₁.mem n.addr).map fun mem => ({ h₁ with mem }, 0) := by
  unfold Heap.move Heap.free
  simp only [Option.bind_eq_bind, halloc, Option.bind_some, hsize, Mem.copy_zero, ne_eq,
    not_true_eq_false, and_false, if_false, hnode]
  cases freeNode h₁.mem n.addr <;> rfl

end Colibri.Memory
