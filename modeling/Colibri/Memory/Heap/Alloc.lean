import Colibri.Memory.Heap.Free

/-!
# Taking a block

`alloc` takes the first free node that is large enough and makes a node of what is left of it. The
new node is linked with the block's node and with the node behind, but the node behind is not told:
its `prev` still names the block's node. On the last node, and where nothing is left to split off,
the list is in order again (`take_spec`); `SplitSafe` says that this is so.
-/

namespace Colibri.Memory

open Colibri.Lib HeapField HeapNode

/-- The node can hold a block of `sz` bytes. -/
def HeapNode.Fits (sz : Nat) (n : HeapNode) : Prop := n.used = false ∧ sz ≤ n.size

instance HeapNode.Fits.decidable (sz : Nat) (n : HeapNode) : Decidable (n.Fits sz) :=
  inferInstanceAs (Decidable (_ ∧ _))

/-- The free node behind a block of `sz` bytes in the free node `n`. -/
def HeapNode.rest (n : HeapNode) (sz : Nat) : HeapNode where
  addr := n.addr + heapNodeSize + sz
  size := n.size - sz - heapNodeSize
  used := false

/-- What becomes of the node `n` when a block of `sz` bytes is taken from it. -/
def carve (sz : Nat) (n : HeapNode) : List HeapNode :=
  if sz + heapNodeSize < n.size then [{ n with size := sz, used := true }, n.rest sz]
  else [{ n with used := true }]

/-- The block comes first. -/
theorem carve_eq_cons (sz : Nat) (n : HeapNode) :
    ∃ n' s, carve sz n = n' :: s ∧ n'.addr = n.addr ∧ n'.used = true ∧
      (sz ≤ n.size → sz ≤ n'.size) := by
  rw [carve]
  split
  · exact ⟨_, _, rfl, rfl, rfl, fun _ => Nat.le_refl sz⟩
  · exact ⟨_, _, rfl, rfl, rfl, id⟩

@[simp] theorem firstAddr_carve (sz : Nat) (n : HeapNode) (r : List HeapNode) (q : Nat) :
    firstAddr (carve sz n ++ r) q = n.addr := by
  obtain ⟨n', s, he, haddr, -⟩ := carve_eq_cons sz n
  rw [he, ← haddr]
  rfl

/-- The list after `alloc` found a node. -/
def allocated (sz : Nat) : List HeapNode → List HeapNode
  | [] => []
  | n :: r => if n.Fits sz then carve sz n ++ r else n :: allocated sz r

/-- The node that `alloc` takes is not split, or is the last one. -/
def SplitSafe (sz : Nat) : List HeapNode → Prop
  | [] => True
  | n :: r => if n.Fits sz then n.size ≤ sz + heapNodeSize ∨ r = [] else SplitSafe sz r

instance SplitSafe.decidable (sz : Nat) : ∀ nodes, Decidable (SplitSafe sz nodes)
  | [] => inferInstanceAs (Decidable True)
  | n :: r =>
    have := SplitSafe.decidable sz r
    inferInstanceAs (Decidable (ite (n.Fits sz) _ _))

theorem rest_stop {n : HeapNode} {sz : Nat} (h : sz + heapNodeSize ≤ n.size) :
    (n.rest sz).stop = n.stop := by
  simp only [stop, rest]
  omega

/-- Where `alloc` finds its node. -/
theorem exists_fit {sz : Nat} {nodes : List HeapNode} (h : ∃ n ∈ nodes, n.Fits sz) :
    ∃ l n r, nodes = l ++ n :: r ∧ (∀ k ∈ l, ¬k.Fits sz) ∧ n.Fits sz ∧
      allocated sz nodes = l ++ (carve sz n ++ r) ∧
      (SplitSafe sz nodes → n.size ≤ sz + heapNodeSize ∨ r = []) := by
  induction nodes with
  | nil => exact absurd h (by simp)
  | cons a nodes ih =>
    by_cases ha : a.Fits sz
    · exact ⟨[], a, nodes, rfl, by simp, ha, by rw [allocated, if_pos ha]; rfl,
        fun hs => by rwa [SplitSafe, if_pos ha] at hs⟩
    · obtain ⟨l, n, r, rfl, hl, hn, he, hs⟩ := ih (by
        obtain ⟨n, hn, hfit⟩ := h
        rcases List.mem_cons.mp hn with rfl | hn
        · exact absurd hfit ha
        · exact ⟨n, hn, hfit⟩)
      refine ⟨a :: l, n, r, rfl, List.forall_mem_cons.mpr ⟨ha, hl⟩, hn, ?_, fun h => hs ?_⟩
      · rw [allocated, if_neg ha, he]
        rfl
      · rwa [SplitSafe, if_neg ha] at h

section Alloc

variable {R : Nat → Nat → Prop} {lo hi p sz : Nat} {m : Mem} {n : HeapNode} {l r : List HeapNode}

theorem ForwardHeader.unfit_iff {q : Nat} (h : ForwardHeader m n q) :
    Unfit m sz n.addr ↔ ¬n.Fits sz := by
  rw [Unfit, h.status, h.size, HeapNode.Fits]
  cases n.used <;> simp [heapUsed, heapFree]

/-- The search of `alloc` stops at the first node that fits. -/
theorem Forward.findFit (h : Forward m (l ++ n :: r)) (hl : ∀ k ∈ l, ¬k.Fits sz) (hn : n.Fits sz)
    {fuel : Nat} (hfuel : l.length < fuel) (hpos : ∀ k ∈ l ++ n :: r, k.addr ≠ 0) :
    findFit m sz fuel (firstAddr (l ++ n :: r) 0) = some n.addr := by
  induction l generalizing fuel with
  | nil =>
    cases fuel with
    | zero => exact absurd hfuel (Nat.lt_irrefl 0)
    | succ fuel => exact if_neg fun hu => h.1.unfit_iff.mp hu hn
  | cons a l ih =>
    cases fuel with
    | zero => exact absurd hfuel (Nat.not_lt_zero _)
    | succ fuel =>
      rw [List.cons_append] at h
      have hnext : firstAddr (l ++ n :: r) 0 ≠ 0 := by
        rw [firstAddr_append]
        cases l with
        | nil => exact hpos n (by simp)
        | cons b l => exact hpos b (by simp)
      have hunfit : Unfit m sz a.addr := h.1.unfit_iff.mpr (hl a List.mem_cons_self)
      rw [List.cons_append, firstAddr, Memory.findFit, if_pos hunfit, h.1.next, if_neg hnext]
      exact ih h.2 (fun k hk => hl k (List.mem_cons_of_mem _ hk)) (Nat.lt_of_succ_lt_succ hfuel)
        fun k hk => hpos k (List.mem_cons_of_mem _ hk)

/-- The layout after a block is taken. -/
theorem Layout.carve (hrefl : ∀ a, R a a) (h : Layout R lo (n :: r) hi) :
    Layout R lo (carve sz n ++ r) hi := by
  rw [Memory.carve]
  split
  case isTrue hlt => exact ⟨h.1, hrefl _, by rw [rest_stop (by omega)]; exact h.2⟩
  case isFalse => exact h

theorem Layout.allocated (hrefl : ∀ a, R a a) (h : Layout R lo l hi) :
    Layout R lo (allocated sz l) hi := by
  induction l generalizing lo with
  | nil => exact h
  | cons a l ih =>
    rw [Memory.allocated]
    split
    case isTrue => exact h.carve hrefl
    case isFalse => exact ⟨h.1, ih h.2⟩

/-- The writes of `take` to the node `n` and, where it is split, to its rest. -/
theorem take_eq {q : Nat} (hstop : n.stop < u64Size) (hfit : n.Fits sz) (h : ForwardHeader m n q) :
    take m sz n.addr =
      if sz + heapNodeSize < n.size then
        status.set (size.set (next.set (next.set (prev.set (status.set (size.set m (n.rest sz).addr
          (n.rest sz).size) (n.rest sz).addr heapFree) (n.rest sz).addr n.addr) (n.rest sz).addr q)
          n.addr (n.rest sz).addr) n.addr sz) n.addr heapUsed
      else status.set m n.addr heapUsed := by
  have hle := hfit.2
  rw [stop] at hstop
  have hsum : u64Add sz heapNodeSize = sz + heapNodeSize := u64Add_eq (by omega)
  unfold take
  by_cases hlt : sz + heapNodeSize < n.size
  case neg => rw [if_neg hlt, if_neg (by rw [h.size, hsum]; exact hlt)]
  case pos =>
    have hap : Apart n.addr (n.rest sz).addr := .inl (Nat.le_add_right _ _)
    have haddr : u64Add (u64Add n.addr heapNodeSize) sz = (n.rest sz).addr := by
      rw [u64Add_eq (a := n.addr) (by omega), u64Add_eq (by omega)]
      rfl
    have hsize : u64Sub (u64Sub n.size sz) heapNodeSize = (n.rest sz).size := by
      rw [u64Sub_eq (a := n.size) (by omega) (by omega), u64Sub_eq (by omega) (by omega)]
      rfl
    rw [if_pos hlt, if_pos (by rw [h.size, hsum]; exact hlt)]
    simp only [haddr, h.size, hsize, get_set_apart hap.symm, h.next]

/-- `take` writes to headers only. -/
theorem take_offHeaders {q : Nat} (hstop : n.stop < u64Size) (hfit : n.Fits sz)
    (h : ForwardHeader m n q) : ∀ i, OffHeaders (carve sz n) i → take m sz n.addr i = m i := by
  intro i hi
  rw [take_eq hstop hfit h]
  rw [carve] at hi
  split
  case isTrue hlt =>
    rw [if_pos hlt] at hi
    have hn : i < n.addr ∨ n.addr + heapNodeSize ≤ i := (OffHeaders.cons_iff.mp hi).1
    have hrest := hi (n.rest sz) (by simp)
    simp only [set_of_notMem hn, set_of_notMem hrest]
  case isFalse hlt =>
    rw [if_neg hlt] at hi
    exact set_of_notMem (OffHeaders.cons_iff.mp hi).1

/-- **What `alloc` does with the node it takes**: the list is linked by `next` again. -/
theorem Forward.take (hR : ∀ a b, R a b → a ≤ b) (hhi : hi < u64Size)
    (hlay : Layout R lo (n :: r) hi) (hfit : n.Fits sz) (h : Forward m (n :: r)) :
    Forward (take m sz n.addr) (carve sz n ++ r) := by
  obtain ⟨hn, hr⟩ := h
  have hstop := ((hlay.le hR).2 n List.mem_cons_self).2
  rw [take_eq (by omega) hfit hn, carve]
  rw [stop] at hstop
  split
  case isFalse =>
    refine ⟨⟨?_, ?_, ?_⟩, ?_⟩
    · exact (get_set_ne (by decide)).trans hn.size
    · exact get_set_self (by decide)
    · exact (get_set_ne (by decide)).trans hn.next
    · exact hr.congr fun k hk f => get_set_apart (hlay.apart hR hk)
  case isTrue hlt =>
    have hap : Apart n.addr (n.rest sz).addr := .inl (Nat.le_add_right _ _)
    have hrest : (n.rest sz).addr < u64Size ∧ (n.rest sz).size < u64Size := by
      simp only [rest]
      omega
    have hnext : firstAddr r 0 < u64Size := hlay.2.firstAddr_lt hR (Nat.le_of_lt hhi)
    have hbehind : ∀ k ∈ r, Apart (n.rest sz).addr k.addr := fun k hk => by
      have := (hlay.2.le hR).2 k hk
      simp only [Apart, rest, stop] at this ⊢
      omega
    refine ⟨⟨?_, ?_, ?_⟩, ⟨?_, ?_, ?_⟩, ?_⟩
    · exact (get_set_ne (by decide)).trans (get_set_u64 (by decide) (by omega))
    · exact get_set_self (by decide)
    · rw [get_set_ne (by decide), get_set_ne (by decide)]
      exact get_set_u64 (by decide) hrest.1
    · simp only [get_set_ne, get_set_apart, hap, get_set_u64, hrest, ne_eq, reduceCtorEq,
        not_false_eq_true]
    · simp only [get_set_ne, get_set_apart, hap, ne_eq, reduceCtorEq, not_false_eq_true]
      exact get_set_self (by decide)
    · simp only [get_set_apart, hap, get_set_u64, hnext, ne_eq, reduceCtorEq, not_false_eq_true]
      rfl
    · refine hr.congr fun k hk f => ?_
      simp only [get_set_apart, hbehind k hk, hlay.apart hR hk]

/-- Where the node is not split or is the last, `take` links the list in both directions. -/
theorem take_spec (hR : ∀ a b, R a b → a ≤ b) (hhi : hi < u64Size)
    (hlay : Layout R lo (n :: r) hi) (hfit : n.Fits sz)
    (hsafe : n.size ≤ sz + heapNodeSize ∨ r = []) (hs : Seg m p (n :: r) 0) :
    Seg (take m sz n.addr) p (carve sz n ++ r) 0 := by
  have hforward := hs.forward.take hR hhi hlay hfit
  have hstop := ((hlay.le hR).2 n List.mem_cons_self).2
  have he := take_eq (by omega) hfit hs.forward.1
  obtain ⟨hn, hr⟩ := hs
  rw [he] at hforward ⊢
  rw [carve] at hforward ⊢
  split at hforward
  case isFalse hlt =>
    rw [if_neg hlt, if_neg hlt]
    refine ⟨hforward.1.header ?_, hr.congr fun k hk f => get_set_apart (hlay.apart hR hk)⟩
    exact (get_set_ne (by decide)).trans hn.prev
  case isTrue hlt =>
    obtain rfl : r = [] := hsafe.resolve_left (by omega)
    have hap : Apart n.addr (n.rest sz).addr := .inl (Nat.le_add_right _ _)
    rw [if_pos hlt, if_pos hlt]
    refine ⟨hforward.1.header ?_, hforward.2.1.header ?_, trivial⟩
    · simp only [get_set_ne, get_set_apart, hap.symm, hn.prev, ne_eq, reduceCtorEq,
        not_false_eq_true]
    · simp only [get_set_ne, get_set_apart, hap, get_set_u64,
        hlay.addr_lt hR (Nat.le_of_lt hhi) List.mem_cons_self, ne_eq, reduceCtorEq,
        not_false_eq_true]

/-- **`alloc` without growth** takes the first node that fits. -/
theorem Forward.alloc_eq {h : Heap} (hR : ∀ a b, R a b → a ≤ b) (hlo : 0 < lo) (hhi : hi < u64Size)
    (hlay : Layout R lo (l ++ n :: r) hi) (hfirst : h.kernelHeap = firstAddr (l ++ n :: r) 0)
    (hs : Forward h.mem (l ++ n :: r)) (hl : ∀ k ∈ l, ¬k.Fits sz) (hn : n.Fits sz) :
    h.alloc sz = some ({ h with mem := Memory.take h.mem sz n.addr }, n.ptr) ∧ n.ptr ≠ 0 ∧
      ∀ i, OffHeaders (carve sz n) i → Memory.take h.mem sz n.addr i = h.mem i := by
  have hpos : ∀ k ∈ l ++ n :: r, k.addr ≠ 0 := fun k hk => by
    have := (hlay.le hR).2 k hk
    omega
  have hfuel : l.length < u64Size := by
    have := hlay.length_le hR
    rw [List.length_append, heapNodeSize] at this
    omega
  have hfind : Memory.findFit h.mem sz u64Size h.kernelHeap = some n.addr := by
    rw [hfirst]
    exact hs.findFit hl hn hfuel hpos
  have hfits : ¬Unfit h.mem sz n.addr := fun hu => hs.suffix.1.unfit_iff.mp hu hn
  have hne := hpos n (by simp)
  have hstop := ((hlay.le hR).2 n (by simp)).2
  refine ⟨?_, by rw [ptr]; omega, take_offHeaders (by omega) hn hs.suffix.1⟩
  rw [stop] at hstop
  have hptr : u64Add n.addr heapNodeSize = n.ptr := u64Add_eq (by omega)
  unfold Heap.alloc
  simp [hfind, hfits, hne, hptr]

/-- **`alloc` without growth**, where the node it takes is not split or is the last: the list is
linked again with the block taken from the first node that fits. -/
theorem Heap.alloc_spec {h : Heap} {nodes : List HeapNode} (hR : ∀ a b, R a b → a ≤ b)
    (hrefl : ∀ a, R a a) (hlo : 0 < lo) (hhi : hi < u64Size) (hlay : Layout R lo nodes hi)
    (hfirst : h.kernelHeap = firstAddr nodes 0) (hs : Seg h.mem 0 nodes 0)
    (hfit : ∃ n ∈ nodes, n.Fits sz) (hsafe : SplitSafe sz nodes) :
    ∃ l n r m', nodes = l ++ n :: r ∧ n.Fits sz ∧ allocated sz nodes = l ++ (carve sz n ++ r) ∧
      h.alloc sz = some ({ h with mem := m' }, n.ptr) ∧ Seg m' 0 (allocated sz nodes) 0 ∧
      ∀ i, OffHeaders (allocated sz nodes) i → m' i = h.mem i := by
  obtain ⟨l, n, r, rfl, hl, hn, he, hsplit⟩ := exists_fit hfit
  obtain ⟨halloc, -, hframe⟩ := hs.forward.alloc_eq hR hlo hhi hlay hfirst hl hn
  obtain ⟨-, hsn⟩ := Seg.append_iff.mp hs
  obtain ⟨lo', -, hsuf⟩ := hlay.suffix hR
  have htake := take_spec hR hhi hsuf hn (hsplit hsafe) hsn
  have hoff : ∀ i, OffHeaders (carve sz n ++ r) i → take h.mem sz n.addr i = h.mem i :=
    fun i hi => hframe i (OffHeaders.append_iff.mp hi).1
  refine ⟨l, n, r, take h.mem sz n.addr, rfl, hn, he, halloc, ?_, fun i hi => ?_⟩
  · rw [he]
    refine hs.replace hR hlay (firstAddr_carve sz n r 0) (fun i hi => hframe i ?_) htake
    rw [← firstAddr_carve sz n r 0] at hi
    exact (OffHeaders.append_iff.mp ((hsuf.carve hrefl).offHeaders_of_lt hR hi)).1
  · rw [he] at hi
    exact hoff i (OffHeaders.append_iff.mp hi).2

end Alloc

end Colibri.Memory
