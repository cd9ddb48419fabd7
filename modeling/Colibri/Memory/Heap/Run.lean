import Colibri.Lib.Run
import Colibri.Memory.Heap.Realloc

/-!
# The heap in use

A run of the heap is a sequence of `alloc`, `realloc` and `free` calls after `init_heap`, each
`realloc` and `free` on a block in use. `HeapUse` is the heap with these blocks.

A call is `Sound` when it stays clear of three slips of `heap.c`: `alloc` that splits a node in the
middle of the list, `realloc` that reads a link it has overwritten, and `free` that follows a `NULL`
link. Growth is a fourth: the node made of a new area counts the area's whole size as its block's,
although its header is in the area too.

## Results

* `heap_tiles_region`: in runs of sound calls without growth the list tiles the initial region, with
  `prev` the inverse of `next`, and no call fails.
* `split_loses_back_link`: a run in which it does not.
-/

namespace Colibri.Memory

open Colibri.Lib HeapField HeapNode

/-- The nodes reached from `a` by `next`. -/
def readNodes (m : Mem) : Nat → Nat → List HeapNode
  | 0, _ => []
  | fuel + 1, a =>
    if a = 0 then []
    else ⟨a, size.get m a, decide (status.get m a = heapUsed)⟩ :: readNodes m fuel (next.get m a)

/-- The nodes reached from `kernel_heap` by `next`. -/
def Heap.nodes (h : Heap) : List HeapNode := readNodes h.mem u64Size h.kernelHeap

/-! ## The list is read off the memory -/

section Nodes

variable {R : Nat → Nat → Prop} {lo hi : Nat} {m : Mem} {nodes : List HeapNode} {h : Heap}

theorem Forward.readNodes_eq {fuel : Nat} (hs : Forward m nodes) (hpos : ∀ n ∈ nodes, n.addr ≠ 0)
    (hfuel : nodes.length < fuel) : readNodes m fuel (firstAddr nodes 0) = nodes := by
  induction nodes generalizing fuel with
  | nil =>
    cases fuel with
    | zero => rfl
    | succ fuel => exact if_pos rfl
  | cons n nodes ih =>
    cases fuel with
    | zero => exact absurd hfuel (Nat.not_lt_zero _)
    | succ fuel =>
      obtain ⟨hn, hr⟩ := hs
      have hused : decide (status.get m n.addr = heapUsed) = n.used := by
        rw [hn.status]
        cases n.used <;> rfl
      rw [firstAddr, readNodes, if_neg (hpos n List.mem_cons_self), hn.size, hused, hn.next,
        ih hr (fun k hk => hpos k (List.mem_cons_of_mem _ hk)) (Nat.lt_of_succ_lt_succ hfuel)]

/-- The list of a heap that is linked by `next`. -/
theorem Forward.nodes_eq (hs : Forward h.mem nodes) (hR : ∀ a b, R a b → a ≤ b) (hlo : 0 < lo)
    (hhi : hi < u64Size) (hlay : Layout R lo nodes hi) (hfirst : h.kernelHeap = firstAddr nodes 0) :
    h.nodes = nodes := by
  rw [Heap.nodes, hfirst]
  refine hs.readNodes_eq (fun n hn => ?_) ?_
  · have := (hlay.le hR).2 n hn
    omega
  · have := hlay.length_le hR
    rw [heapNodeSize] at this
    omega

end Nodes

/-- The nodes of the heap tile the region of `len` bytes at `start`, linked in both directions. -/
structure Heap.Tiles (h : Heap) (start len : Nat) : Prop where
  layout : Layout (· = ·) start h.nodes (start + len)
  linked : Seg h.mem 0 h.nodes 0

instance (h : Heap) (start len : Nat) : Decidable (h.Tiles start len) :=
  decidable_of_iff (Layout (· = ·) start h.nodes (start + len) ∧ Seg h.mem 0 h.nodes 0)
    ⟨fun h => ⟨h.1, h.2⟩, fun h => ⟨h.layout, h.linked⟩⟩

/-- A call of the heap. -/
inductive HeapCall
  | alloc (sz : Nat)
  | realloc (ptr sz : Nat)
  | free (ptr : Nat)

/-- The heap with the blocks in use: for each its pointer and the size that was asked for. -/
structure HeapUse where
  heap : Heap
  live : List (Nat × Nat)

namespace HeapUse

/-- `init_heap` on a region of `len` bytes at `start`. -/
def init (m : Mem) (start len : Nat) (kmem : Kmem) (kernelVmm : Vmm) : HeapUse where
  heap :=
    { mem := initHeap m start len, kernelHeap := start, kmem, kernelVmm, regions := [(start, len)] }
  live := []

/-- The blocks in use after a call returned `ptr`. -/
def record (ptr sz : Nat) (live : List (Nat × Nat)) : List (Nat × Nat) :=
  if ptr = 0 then live else (ptr, sz) :: live

/-- The blocks in use without the one at `ptr`. -/
def forget (ptr : Nat) (live : List (Nat × Nat)) : List (Nat × Nat) :=
  live.filter fun b => b.1 ≠ ptr

/-- One call. -/
def step (s : HeapUse) : HeapCall → Option HeapUse
  | .alloc sz => (s.heap.alloc sz).map fun (heap, ptr) => { heap, live := record ptr sz s.live }
  | .realloc ptr sz => (s.heap.realloc ptr sz).map fun (heap, ptr') =>
    { heap, live := record ptr' sz (forget ptr s.live) }
  | .free ptr => (s.heap.free ptr).map fun heap => { heap, live := forget ptr s.live }

/-- The pointer is to a block in use. -/
def IsLive (s : HeapUse) (ptr : Nat) : Prop := ∃ b ∈ s.live, b.1 = ptr

instance (s : HeapUse) (ptr : Nat) : Decidable (s.IsLive ptr) :=
  inferInstanceAs (Decidable (∃ b ∈ s.live, b.1 = ptr))

/-- What the callers of the heap keep to: blocks that are freed or resized are in use. -/
def Promised (s : HeapUse) : HeapCall → Prop
  | .alloc sz => sz < u64Size
  | .realloc ptr sz => (ptr = 0 ∨ s.IsLive ptr) ∧ sz < u64Size
  | .free ptr => s.IsLive ptr

/-- `realloc` has to move the block. -/
def Moves (s : HeapUse) (ptr sz : Nat) : Prop :=
  ptr ≠ 0 ∧ sz ≠ 0 ∧ ¬sz < size.get s.heap.mem (u64Sub ptr heapNodeSize) ∧
    MustMove s.heap.mem (u64Sub ptr heapNodeSize) ptr sz

instance (s : HeapUse) (ptr sz : Nat) : Decidable (s.Moves ptr sz) :=
  inferInstanceAs (Decidable (_ ∧ _ ∧ _ ∧ _))

/-- A node fits. -/
def HasRoom (s : HeapUse) (sz : Nat) : Prop := ∃ n ∈ s.heap.nodes, n.Fits sz

instance (s : HeapUse) (sz : Nat) : Decidable (s.HasRoom sz) :=
  inferInstanceAs (Decidable (∃ n ∈ s.heap.nodes, n.Fits sz))

/-- The call does not need to grow the heap. -/
def NoGrowth (s : HeapUse) : HeapCall → Prop
  | .alloc sz => s.HasRoom sz
  | .realloc ptr sz => ptr = 0 ∨ s.Moves ptr sz → s.HasRoom sz
  | .free _ => True

/-- `free` of the node at `ptr` does not find it trapped. -/
def FreeSafe (nodes : List HeapNode) (ptr : Nat) : Prop :=
  match nodes.dropWhile fun n => n.ptr ≠ ptr with
  | [] => True
  | n :: r => ¬Trapped (nodes.takeWhile fun n => n.ptr ≠ ptr) n r

/-- `realloc` into the node on the right reads its link before it is overwritten. -/
def ExtendSafe (m : Mem) (nodes : List HeapNode) (ptr sz : Nat) : Prop :=
  match nodes.dropWhile fun n => n.ptr ≠ ptr with
  | n :: k :: _ => Spared m n k sz
  | _ => True

/-- The calls on which the heap does what it should. -/
def Sound (s : HeapUse) : HeapCall → Prop
  | .alloc sz => SplitSafe sz s.heap.nodes
  | .realloc ptr sz =>
    if ptr = 0 then SplitSafe sz s.heap.nodes
    else if sz = 0 then FreeSafe s.heap.nodes ptr
    else if s.Moves ptr sz then
      SplitSafe sz s.heap.nodes ∧ FreeSafe (allocated sz s.heap.nodes) ptr
    else
      sz < size.get s.heap.mem (u64Sub ptr heapNodeSize) ∨
        ExtendSafe s.heap.mem s.heap.nodes ptr sz
  | .free ptr => FreeSafe s.heap.nodes ptr

instance (s : HeapUse) : ∀ c, Decidable (s.Promised c)
  | .alloc sz => inferInstanceAs (Decidable (sz < u64Size))
  | .realloc ptr sz => inferInstanceAs (Decidable ((ptr = 0 ∨ s.IsLive ptr) ∧ sz < u64Size))
  | .free ptr => inferInstanceAs (Decidable (s.IsLive ptr))

instance (s : HeapUse) : ∀ c, Decidable (s.NoGrowth c)
  | .alloc sz => inferInstanceAs (Decidable (s.HasRoom sz))
  | .realloc ptr sz => inferInstanceAs (Decidable (ptr = 0 ∨ s.Moves ptr sz → s.HasRoom sz))
  | .free _ => inferInstanceAs (Decidable True)

instance (nodes : List HeapNode) (ptr : Nat) : Decidable (FreeSafe nodes ptr) :=
  match h : nodes.dropWhile fun n => n.ptr ≠ ptr with
  | [] => isTrue (by rw [FreeSafe, h]; trivial)
  | n :: r =>
    decidable_of_iff (¬Trapped (nodes.takeWhile fun n => n.ptr ≠ ptr) n r) (by rw [FreeSafe, h])

instance (m : Mem) (nodes : List HeapNode) (ptr sz : Nat) :
    Decidable (ExtendSafe m nodes ptr sz) :=
  match h : nodes.dropWhile fun n => n.ptr ≠ ptr with
  | n :: k :: _ => decidable_of_iff (Spared m n k sz) (by rw [ExtendSafe, h])
  | [_] | [] => isTrue (by rw [ExtendSafe, h]; trivial)

instance (s : HeapUse) : ∀ c, Decidable (s.Sound c)
  | .alloc sz => inferInstanceAs (Decidable (SplitSafe sz s.heap.nodes))
  | .realloc ptr sz => inferInstanceAs (Decidable (ite (ptr = 0) _ (ite (sz = 0) _ (ite _ _ _))))
  | .free ptr => inferInstanceAs (Decidable (FreeSafe s.heap.nodes ptr))

/-! ## Nodes by their address -/

section Nodes

variable {R : Nat → Nat → Prop} {lo hi : Nat} {l r nodes : List HeapNode} {n k : HeapNode}

/-- Nodes of a layout at one address are one node. -/
theorem Layout.eq_of_ptr_eq (hR : ∀ a b, R a b → a ≤ b) (h : Layout R lo nodes hi)
    (hn : n ∈ nodes) (hk : k ∈ nodes) (he : n.ptr = k.ptr) : n = k := by
  obtain ⟨l, r, rfl⟩ := List.append_of_mem hn
  rw [ptr, ptr] at he
  have hnpos := n.addr_add_le_stop
  have hkpos := k.addr_add_le_stop
  have hsize : 0 < heapNodeSize := by decide
  rcases List.mem_append.mp hk with hk | hk
  · have := h.stop_le hR hk
    omega
  · rcases List.mem_cons.mp hk with rfl | hk
    · rfl
    · have := h.stop_le' hR hk
      omega

/-- The node at a pointer splits the list. -/
theorem Layout.around (hR : ∀ a b, R a b → a ≤ b) (h : Layout R lo (l ++ n :: r) hi) :
    ((l ++ n :: r).takeWhile fun k => k.ptr ≠ n.ptr) = l ∧
      ((l ++ n :: r).dropWhile fun k => k.ptr ≠ n.ptr) = n :: r := by
  have hl : ∀ k ∈ l, (decide (k.ptr ≠ n.ptr)) = true := fun k hk => by
    have hstop := h.stop_le hR hk
    have hpos := k.addr_add_le_stop
    have hsize : 0 < heapNodeSize := by decide
    refine decide_eq_true ?_
    rw [ptr, ptr]
    omega
  rw [List.takeWhile_append_of_pos hl, List.dropWhile_append_of_pos hl]
  simp

theorem freeSafe_iff (hR : ∀ a b, R a b → a ≤ b) (h : Layout R lo (l ++ n :: r) hi) :
    FreeSafe (l ++ n :: r) n.ptr ↔ ¬Trapped l n r := by
  obtain ⟨htake, hdrop⟩ := Layout.around hR h
  rw [FreeSafe, hdrop, htake]

theorem extendSafe_iff (hR : ∀ a b, R a b → a ≤ b) {sz : Nat}
    (h : Layout R lo (l ++ n :: k :: r) hi) :
    ExtendSafe m (l ++ n :: k :: r) n.ptr sz ↔ Spared m n k sz := by
  rw [ExtendSafe, (Layout.around hR h).2]

end Nodes

/-! ## The blocks in use -/

/-- Every block in use is in a node of its own. -/
structure Held (nodes : List HeapNode) (live : List (Nat × Nat)) : Prop where
  node : ∀ b ∈ live, ∃ n ∈ nodes, n.used = true ∧ n.ptr = b.1 ∧ b.2 ≤ n.size
  nodup : (live.map Prod.fst).Nodup

section Held

variable {nodes nodes' : List HeapNode} {live : List (Nat × Nat)} {ptr sz : Nat}

theorem Held.mono (h : Held nodes live) (hk : ∀ k ∈ nodes, k.used = true → k ∈ nodes') :
    Held nodes' live where
  node b hb := by
    obtain ⟨n, hn, hused, hptr, hsz⟩ := h.node b hb
    exact ⟨n, hk n hn hused, hused, hptr, hsz⟩
  nodup := h.nodup

theorem Held.forget (h : Held nodes live)
    (hk : ∀ k ∈ nodes, k.used = true → k.ptr ≠ ptr → k ∈ nodes') :
    Held nodes' (forget ptr live) where
  node b hb := by
    obtain ⟨hb, hne⟩ := List.mem_filter.mp hb
    obtain ⟨n, hn, hused, hptr, hsz⟩ := h.node b hb
    refine ⟨n, hk n hn hused ?_, hused, hptr, hsz⟩
    rw [hptr]
    exact of_decide_eq_true hne
  nodup := h.nodup.sublist (List.filter_sublist.map Prod.fst)

theorem Held.record (h : Held nodes live) (hlive : ∀ b ∈ live, b.1 ≠ ptr)
    (hn : ∃ n ∈ nodes, n.used = true ∧ n.ptr = ptr ∧ sz ≤ n.size) :
    Held nodes (record ptr sz live) := by
  rw [HeapUse.record]
  split
  case isTrue => exact h
  case isFalse =>
    refine ⟨List.forall_mem_cons.mpr ⟨hn, h.node⟩, List.nodup_cons.mpr ⟨fun hmem => ?_, h.nodup⟩⟩
    obtain ⟨b, hb, he⟩ := List.mem_map.mp hmem
    exact hlive b hb he

theorem forget_ne {b : Nat × Nat} (hb : b ∈ forget ptr live) : b.1 ≠ ptr :=
  of_decide_eq_true (List.mem_filter.mp hb).2

end Held

/-! ## One call -/

/-- The list of the heap is `nodes`, which tile the region of `len` bytes at `start`. -/
structure Listed (h : Heap) (start len : Nat) (nodes : List HeapNode) : Prop where
  pos : 0 < start
  bound : start + len < u64Size
  first : h.kernelHeap = firstAddr nodes 0
  layout : Layout (· = ·) start nodes (start + len)
  linked : Seg h.mem 0 nodes 0

section Calls

variable {h : Heap} {start len ptr sz : Nat} {nodes : List HeapNode} {live : List (Nat × Nat)}

theorem eq_le : ∀ a b : Nat, a = b → a ≤ b := fun _ _ h => Nat.le_of_eq h

theorem Listed.nodes_eq (hl : Listed h start len nodes) : h.nodes = nodes :=
  hl.linked.forward.nodes_eq eq_le hl.pos hl.bound hl.layout hl.first

theorem Listed.tiles (hl : Listed h start len nodes) : h.Tiles start len where
  layout := hl.nodes_eq.symm ▸ hl.layout
  linked := hl.nodes_eq.symm ▸ hl.linked

/-- `alloc` where a node fits and is not split in the middle of the list. -/
theorem Listed.alloc (hl : Listed h start len nodes) (hh : Held nodes live)
    (hfit : ∃ n ∈ nodes, n.Fits sz) (hsafe : SplitSafe sz nodes) :
    ∃ h' p, h.alloc sz = some (h', p) ∧ p ≠ 0 ∧ Listed h' start len (allocated sz nodes) ∧
      h'.regions = h.regions ∧ Held (allocated sz nodes) (record p sz live) ∧
      (∃ n ∈ allocated sz nodes, n.ptr = p ∧ sz ≤ n.size) ∧
      ∀ k ∈ nodes, k.used = true → k ∈ allocated sz nodes := by
  obtain ⟨l, n, r, m', he, hn, hnodes', halloc, hseg, -⟩ :=
    Heap.alloc_spec eq_le (fun _ => rfl) hl.pos hl.bound hl.layout hl.first hl.linked hfit hsafe
  obtain ⟨n', s, hcarve, haddr, hused, hsize⟩ := carve_eq_cons sz n
  have hmem : n' ∈ allocated sz nodes := by
    rw [hnodes', hcarve]
    simp
  have hptr : n'.ptr = n.ptr := by rw [ptr, ptr, haddr]
  have hkeep : ∀ k ∈ nodes, k.used = true → k ∈ allocated sz nodes := by
    intro k hk hku
    rw [hnodes']
    rw [he] at hk
    rcases List.mem_append.mp hk with hk | hk
    · exact List.mem_append_left _ hk
    · rcases List.mem_cons.mp hk with rfl | hk
      · exact absurd hku (by simp [hn.1])
      · simp [hk]
  have hnew : ∃ k ∈ allocated sz nodes, k.ptr = n.ptr ∧ sz ≤ k.size :=
    ⟨n', hmem, hptr, hsize hn.2⟩
  refine ⟨_, _, halloc, ?_, ⟨hl.pos, hl.bound, ?_, ?_, hseg⟩, rfl, ?_, hnew, hkeep⟩
  · rw [ptr, heapNodeSize]
    omega
  · rw [hnodes', firstAddr_append, firstAddr_carve]
    have hfirst := hl.first
    rw [he, firstAddr_append] at hfirst
    exact hfirst
  · exact hl.layout.allocated fun _ => rfl
  · refine (hh.mono hkeep).record (fun b hb hbp => ?_) ⟨n', hmem, hused, hptr, hsize hn.2⟩
    obtain ⟨k, hk, hku, hkp, -⟩ := hh.node b hb
    have hnk := Layout.eq_of_ptr_eq eq_le hl.layout (he ▸ by simp) hk (hbp.symm.trans hkp.symm)
    rw [← hnk, hn.1] at hku
    exact Bool.false_ne_true hku

/-- Replacing the node at a pointer keeps the used nodes in front of it and behind it. -/
theorem mem_of_ptr_ne {l r s : List HeapNode} {n k : HeapNode}
    (hr : ∀ k ∈ r, k.used = true → k ∈ s) (hk : k ∈ l ++ n :: r) (hu : k.used = true)
    (hne : k.ptr ≠ n.ptr) : k ∈ l ++ s := by
  rcases List.mem_append.mp hk with hk | hk
  · exact List.mem_append_left _ hk
  · rcases List.mem_cons.mp hk with rfl | hk
    · exact absurd rfl hne
    · exact List.mem_append_right _ (hr k hk hu)

/-- The node of a block in use. -/
theorem Held.exists_node (hh : Held nodes live) (hptr : ∃ b ∈ live, b.1 = ptr) :
    ∃ l n r, nodes = l ++ n :: r ∧ n.used = true ∧ n.ptr = ptr := by
  obtain ⟨b, hb, rfl⟩ := hptr
  obtain ⟨n, hn, hu, hp, -⟩ := hh.node b hb
  obtain ⟨l, r, he⟩ := List.append_of_mem hn
  exact ⟨l, n, r, he, hu, hp⟩

/-- `free` of a block that is not trapped. -/
theorem Listed.free (hl : Listed h start len nodes) (hh : Held nodes live)
    (hptr : ∃ n ∈ nodes, n.used = true ∧ n.ptr = ptr) (hsafe : FreeSafe nodes ptr) :
    ∃ h' nodes', h.free ptr = some h' ∧ Listed h' start len nodes' ∧ h'.regions = h.regions ∧
      Held nodes' (forget ptr live) ∧
      ∀ k ∈ nodes, k.used = true → k.ptr ≠ ptr → k ∈ nodes' := by
  obtain ⟨n, hn, hused, rfl⟩ := hptr
  obtain ⟨l, r, rfl⟩ := List.append_of_mem hn
  have hle := Nat.le_of_lt hl.bound
  obtain ⟨m', he, hseg, -⟩ := freeNode_spec eq_le hl.pos hle hl.layout hused hl.linked
    ((freeSafe_iff eq_le hl.layout).mp hsafe)
  have hkeep : ∀ k ∈ l ++ n :: r, k.used = true → k.ptr ≠ n.ptr → k ∈ freed l n r := by
    intro k hk hu hne
    have hlr : k ∈ l ++ r := mem_of_ptr_ne (fun _ hk _ => hk) hk hu hne
    exact mem_freed eq_le hl.layout hlr (fun hj => by simp [hj.1] at hu)
      fun hj => by simp [hj.2.1] at hu
  refine ⟨{ h with mem := m' }, freed l n r, ?_, ⟨hl.pos, hl.bound, ?_, hl.layout.freed, hseg⟩, rfl,
    hh.forget hkeep, hkeep⟩
  · rw [Heap.free, hl.layout.u64Sub_ptr eq_le hle hn, he]
    rfl
  · exact hl.first.trans (firstAddr_freed l n r 0).symm

/-- `realloc` to a smaller size. -/
theorem Listed.shrink {l r : List HeapNode} {n : HeapNode}
    (hl : Listed h start len (l ++ n :: r)) (hh : Held (l ++ n :: r) live) (hused : n.used = true)
    (hsz : sz + heapNodeSize ≤ n.size) :
    ∃ nodes', Listed { h with mem := Memory.shrink h.mem n.addr n.ptr sz } start len nodes' ∧
      Held nodes' (record n.ptr sz (forget n.ptr live)) := by
  obtain ⟨lo', hlo', hsuf⟩ := hl.layout.suffix eq_le
  have hpos := hl.pos
  obtain ⟨hseg, hframe⟩ := shrink_spec eq_le (fun _ => rfl) hl.bound hsuf hsz
    (Seg.append_iff.mp hl.linked).2
  have hlay' := hsuf.split (fun _ => rfl) hsz
  generalize Memory.shrink h.mem n.addr n.ptr sz = m' at hseg hframe ⊢
  have hlinked : Seg m' 0 (l ++ n.resize sz :: coalesce (n.rest sz) r) 0 :=
    hl.linked.replace eq_le hl.layout rfl
      (fun i hi => hframe i (hlay'.offHeaders_of_lt eq_le hi)) hseg
  refine ⟨l ++ n.resize sz :: coalesce (n.rest sz) r, ⟨hl.pos, hl.bound, ?_, ?_, hlinked⟩, ?_⟩
  · rw [hl.first, firstAddr_append, firstAddr_append]
    rfl
  · refine hl.layout.replace fun lo h => ?_
    obtain ⟨hn, hr⟩ := h.split (fun _ => rfl) hsz
    exact ⟨hn, hr.coalesce⟩
  · refine (hh.forget fun k hk hu hne => ?_).record (fun b hb => forget_ne hb)
      ⟨n.resize sz, by simp, hused, rfl, Nat.le_refl sz⟩
    refine mem_of_ptr_ne (fun k hk hu => ?_) hk hu hne
    refine List.mem_cons_of_mem _ (mem_coalesce_of_mem hk fun hj => ?_)
    simp [hj.2.1] at hu

/-- `realloc` into the node on the right, whose link is read in time. -/
theorem Listed.extend {l r : List HeapNode} {n k : HeapNode}
    (hl : Listed h start len (l ++ n :: k :: r)) (hh : Held (l ++ n :: k :: r) live)
    (hused : n.used = true) (hfree : k.used = false) (hle : n.size ≤ sz)
    (hsz : sz ≤ n.size + k.size) (hspared : Spared h.mem n k sz) :
    ∃ nodes', Listed { h with mem := Memory.extend h.mem n.addr n.ptr sz } start len nodes' ∧
      Held nodes' (record n.ptr sz (forget n.ptr live)) := by
  obtain ⟨lo', hlo', hsuf⟩ := hl.layout.suffix eq_le
  have hadj : n.stop = k.addr := hsuf.2.1
  obtain ⟨hseg, hframe⟩ := extend_spec eq_le (fun _ => rfl) hl.bound hsuf hadj hle hsz hspared
    (Seg.append_iff.mp hl.linked).2
  have hlay' := hsuf.shift (fun _ => rfl) hadj hsz
  generalize Memory.extend h.mem n.addr n.ptr sz = m' at hseg hframe ⊢
  have hlinked : Seg m' 0 (l ++ n.resize sz :: n.shifted k sz :: r) 0 :=
    hl.linked.replace eq_le hl.layout rfl
      (fun i hi => hframe i (hlay'.offHeaders_of_lt eq_le hi)) hseg
  refine ⟨l ++ n.resize sz :: n.shifted k sz :: r, ⟨hl.pos, hl.bound, ?_, ?_, hlinked⟩, ?_⟩
  · rw [hl.first, firstAddr_append, firstAddr_append]
    rfl
  · exact hl.layout.replace fun lo h => h.shift (fun _ => rfl) hadj hsz
  · refine (hh.forget fun j hj hu hne => ?_).record (fun b hb => forget_ne hb)
      ⟨n.resize sz, by simp, hused, rfl, Nat.le_refl sz⟩
    refine mem_of_ptr_ne (fun j hj hu => ?_) hj hu hne
    rcases List.mem_cons.mp hj with rfl | hj
    · simp [hfree] at hu
    · simp [hj]

/-- Writes to a block leave the list as it is. -/
theorem Listed.write {m' : Mem} {n : HeapNode} (hl : Listed h start len nodes) (hn : n ∈ nodes)
    (hm : ∀ i, i < n.ptr ∨ n.stop ≤ i → m' i = h.mem i) :
    Listed { h with mem := m' } start len nodes := by
  refine ⟨hl.pos, hl.bound, hl.first, hl.layout, hl.linked.congr fun k hk f => ?_⟩
  refine get_congr fun i hi hi' => hm i ?_
  by_contra hin
  have hoff := hl.layout.offHeaders eq_le (i := i) hn (by omega) (by omega) k hk
  omega

theorem Listed.header {l r : List HeapNode} {n : HeapNode} (hl : Listed h start len (l ++ n :: r)) :
    Header h.mem n (lastAddr 0 l) (firstAddr r 0) :=
  (Seg.append_iff.mp hl.linked).2.1

theorem forget_record {p : Nat} (hne : p ≠ ptr) :
    forget ptr (record p sz live) = record p sz (forget ptr live) := by
  rw [HeapUse.record, HeapUse.record]
  split
  case isTrue => rfl
  case isFalse => exact List.filter_cons_of_pos (decide_eq_true hne)

/-- `realloc` into a new block. -/
theorem Listed.move (hl : Listed h start len nodes) (hh : Held nodes live)
    {l r : List HeapNode} {n : HeapNode} (he : nodes = l ++ n :: r) (hused : n.used = true)
    (hlive : ∃ b ∈ live, b.1 = n.ptr) (hle : n.size ≤ sz) (hfit : ∃ k ∈ nodes, k.Fits sz)
    (hsafe : SplitSafe sz nodes) (hfree : FreeSafe (allocated sz nodes) n.ptr) :
    ∃ h' p nodes', h.move n.addr n.ptr sz = some (h', p) ∧ Listed h' start len nodes' ∧
      h'.regions = h.regions ∧ Held nodes' (record p sz (forget n.ptr live)) := by
  obtain ⟨h₁, p, halloc, hp, hl₁, hreg, hh₁, ⟨n', hn', hn'p, hn's⟩, hkeep⟩ := hl.alloc hh hfit hsafe
  have hn : n ∈ allocated sz nodes := hkeep n (by simp [he]) hused
  have hne : p ≠ n.ptr := by
    obtain ⟨b, hb, hbp⟩ := hlive
    have hnodup := hh₁.nodup
    rw [HeapUse.record, if_neg hp, List.map_cons, List.nodup_cons] at hnodup
    exact fun hpn => hnodup.1 (List.mem_map.mpr ⟨b, hb, hbp.trans hpn.symm⟩)
  have hsize : size.get h₁.mem n.addr = n.size := by
    obtain ⟨l₁, r₁, he₁⟩ := List.append_of_mem hn
    exact (he₁ ▸ hl₁ : Listed h₁ start len (l₁ ++ n :: r₁)).header.size
  -- the copy stays in the new block
  have hcopy : ∀ i, i < n'.ptr ∨ n'.stop ≤ i → h₁.mem.copy p n.ptr n.size i = h₁.mem i :=
    fun i hi => Mem.copy_of_notMem (by
      rw [stop, ← ptr, hn'p] at hi
      omega)
  have hl₂ := hl₁.write hn' hcopy
  obtain ⟨h₃, nodes₃, hfree₃, hl₃, hreg₃, hh₃, -⟩ := hl₂.free hh₁ ⟨n, hn, hused, rfl⟩ hfree
  refine ⟨h₃, p, nodes₃, ?_, hl₃, hreg₃.trans hreg, by rwa [forget_record hne] at hh₃⟩
  unfold Heap.move
  simp [halloc, hp, hsize, hfree₃]

/-- A block that need not move has a free node behind it with enough room. -/
theorem Listed.free_right {l r : List HeapNode} {n : HeapNode}
    (hl : Listed h start len (l ++ n :: r)) (hmove : ¬MustMove h.mem n.addr n.ptr sz) :
    ∃ k r', r = k :: r' ∧ k.used = false ∧ sz ≤ n.size + k.size := by
  have hnext := hl.header.next
  rw [MustMove, not_or, not_or, not_or] at hmove
  obtain ⟨hnull, hstatus, -, hroom⟩ := hmove
  cases r with
  | nil => exact absurd hnext hnull
  | cons k r =>
    have hk := (Seg.append_iff.mp hl.linked).2.2.1
    have hkstop := ((hl.layout.le eq_le).2 k (by simp)).2
    have hadj := Layout.stop_le' eq_le hl.layout (k := k) (by simp)
    have hbound := hl.bound
    rw [stop] at hkstop hadj
    rw [hnext] at hstatus hroom
    rw [firstAddr, hk.size, hl.header.size, u64Add_eq (by omega)] at hroom
    refine ⟨k, r, rfl, ?_, by omega⟩
    rw [firstAddr, hk.status] at hstatus
    cases hu : k.used with
    | false => rfl
    | true => exact absurd hstatus (by simp [hu, heapFree])

/-- `realloc`, under the conditions of a sound call without growth. -/
theorem Listed.realloc (hl : Listed h start len nodes) (hh : Held nodes live)
    (hpromised : Promised ⟨h, live⟩ (.realloc ptr sz)) (hgrow : NoGrowth ⟨h, live⟩ (.realloc ptr sz))
    (hsound : Sound ⟨h, live⟩ (.realloc ptr sz)) :
    ∃ h' p nodes', h.realloc ptr sz = some (h', p) ∧ Listed h' start len nodes' ∧
      h'.regions = h.regions ∧ Held nodes' (record p sz (forget ptr live)) := by
  have hnodes := hl.nodes_eq
  simp only [NoGrowth, HasRoom, hnodes] at hgrow
  simp only [Sound, hnodes] at hsound
  by_cases hptr : ptr = 0
  case pos =>
    rw [if_pos hptr] at hsound
    have hforget : Held nodes (forget ptr live) := hh.forget fun k hk _ _ => hk
    obtain ⟨h', p, halloc, -, hl', hreg, hh', -⟩ :=
      hl.alloc hforget (hgrow (.inl hptr)) hsound
    exact ⟨h', p, _, by rw [Heap.realloc, if_pos hptr, halloc], hl', hreg, hh'⟩
  case neg =>
    rw [if_neg hptr] at hsound
    have hlive : ∃ b ∈ live, b.1 = ptr := hpromised.1.resolve_left hptr
    obtain ⟨l, n, r, rfl, hused, rfl⟩ := hh.exists_node hlive
    have hn : n ∈ l ++ n :: r := by simp
    have hnode := hl.layout.u64Sub_ptr eq_le (Nat.le_of_lt hl.bound) hn
    by_cases hsz : sz = 0
    case pos =>
      rw [if_pos hsz] at hsound
      obtain ⟨h', nodes', hfree, hl', hreg, hh', -⟩ := hl.free hh ⟨n, hn, hused, rfl⟩ hsound
      refine ⟨h', 0, nodes', ?_, hl', hreg, hh'⟩
      rw [Heap.realloc, if_neg hptr, if_pos hsz, hfree]
      rfl
    case neg =>
      rw [if_neg hsz] at hsound
      have hsize := hl.header.size
      have hlt64 : n.size < u64Size := by
        have hbound := hl.layout.bounds eq_le (Nat.le_of_lt hl.bound) hn
        rw [heapNodeSize] at hbound
        omega
      have hmoves : Moves ⟨h, live⟩ n.ptr sz ↔ ¬sz < n.size ∧ MustMove h.mem n.addr n.ptr sz := by
        simp [Moves, hptr, hsz, hnode, hsize]
      have hrealloc : h.realloc n.ptr sz =
          if sz < n.size then
            if u64Sub n.size sz < heapNodeSize then some (h, n.ptr)
            else some ({ h with mem := Memory.shrink h.mem n.addr n.ptr sz }, n.ptr)
          else if MustMove h.mem n.addr n.ptr sz then h.move n.addr n.ptr sz
          else some ({ h with mem := Memory.extend h.mem n.addr n.ptr sz }, n.ptr) := by
        rw [Heap.realloc, if_neg hptr, if_neg hsz, hnode]
        simp only [hsize]
      rw [hrealloc]
      by_cases hlt : sz < n.size
      case pos =>
        by_cases hsmall : u64Sub n.size sz < heapNodeSize
        case pos =>
          refine ⟨h, n.ptr, l ++ n :: r, ?_, hl, rfl, ?_⟩
          · rw [if_pos hlt, if_pos hsmall]
          · exact (hh.forget fun k hk _ _ => hk).record (fun b hb => forget_ne hb)
              ⟨n, hn, hused, rfl, Nat.le_of_lt hlt⟩
        case neg =>
          have hroom : sz + heapNodeSize ≤ n.size := by
            rw [u64Sub_eq (Nat.le_of_lt hlt) (by omega)] at hsmall
            omega
          obtain ⟨nodes', hl', hh'⟩ := hl.shrink hh hused hroom
          refine ⟨_, n.ptr, nodes', ?_, hl', rfl, hh'⟩
          rw [if_pos hlt, if_neg hsmall]
      case neg =>
        by_cases hmove : MustMove h.mem n.addr n.ptr sz
        case pos =>
          have hm := hmoves.mpr ⟨hlt, hmove⟩
          rw [if_pos hm] at hsound
          obtain ⟨h', p, nodes', he, hl', hreg, hh'⟩ := hl.move hh rfl hused hlive (by omega)
            (hgrow (.inr hm)) hsound.1 hsound.2
          refine ⟨h', p, nodes', ?_, hl', hreg, hh'⟩
          rw [if_neg hlt, if_pos hmove, he]
        case neg =>
          rw [if_neg fun hm => hmove (hmoves.mp hm).2, hnode, hsize] at hsound
          obtain ⟨k, r, rfl, hfree, hroom⟩ := hl.free_right hmove
          have hspared := (extendSafe_iff eq_le hl.layout).mp (hsound.resolve_left hlt)
          obtain ⟨nodes', hl', hh'⟩ := hl.extend hh hused hfree (by omega) hroom hspared
          refine ⟨_, n.ptr, nodes', ?_, hl', rfl, hh'⟩
          rw [if_neg hlt, if_neg hmove]

end Calls

/-! ## Runs -/

/-- What every run of sound calls without growth keeps. -/
def Inv (start len : Nat) (s : HeapUse) : Prop :=
  ∃ nodes, Listed s.heap start len nodes ∧ Held nodes s.live ∧ s.heap.regions = [(start, len)]

section Run

variable {m : Mem} {start len : Nat} {kmem : Kmem} {vmm : Vmm} {s : HeapUse}

theorem inv_init (hstart : 0 < start) (hlen : heapNodeSize ≤ len) (hend : start + len < u64Size) :
    Inv start len (init m start len kmem vmm) := by
  have hsize : u64Sub len heapNodeSize = len - heapNodeSize := u64Sub_eq hlen (by omega)
  refine ⟨[⟨start, len - heapNodeSize, false⟩], ⟨hstart, hend, rfl, ?_, ?_⟩, ?_, rfl⟩
  · refine ⟨rfl, ?_⟩
    simp only [Layout, stop]
    omega
  · refine ⟨⟨?_, ?_, ?_, ?_⟩, trivial⟩ <;>
      simp only [init, initHeap, hsize, get_set_ne, get_set_u64, u64Size_pos, firstAddr, ne_eq,
        reduceCtorEq, not_false_eq_true]
    · exact get_set_u64 (by decide) (by omega)
    · exact get_set_self (by decide)
  · exact ⟨by simp [init], by simp [init]⟩

/-- **One sound call without growth** completes and keeps the invariant. -/
theorem Inv.step {c : HeapCall} (h : Inv start len s) (hpromised : s.Promised c)
    (hgrow : s.NoGrowth c) (hsound : s.Sound c) : ∃ s', s.step c = some s' ∧ Inv start len s' := by
  obtain ⟨nodes, hl, hh, hreg⟩ := h
  have hnodes := hl.nodes_eq
  cases c with
  | alloc sz =>
    simp only [NoGrowth, HasRoom, hnodes] at hgrow
    simp only [Sound, hnodes] at hsound
    obtain ⟨h', p, he, -, hl', hreg', hh', -⟩ := hl.alloc hh hgrow hsound
    refine ⟨⟨h', record p sz s.live⟩, ?_, _, hl', hh', hreg'.trans hreg⟩
    rw [HeapUse.step, he]
    rfl
  | realloc ptr sz =>
    obtain ⟨h', p, nodes', he, hl', hreg', hh'⟩ := hl.realloc hh hpromised hgrow hsound
    refine ⟨⟨h', record p sz (forget ptr s.live)⟩, ?_, nodes', hl', hh', hreg'.trans hreg⟩
    rw [HeapUse.step, he]
    rfl
  | free ptr =>
    simp only [Sound, hnodes] at hsound
    obtain ⟨l, n, r, rfl, hused, rfl⟩ := hh.exists_node hpromised
    obtain ⟨h', nodes', he, hl', hreg', hh', -⟩ :=
      hl.free hh ⟨n, by simp, hused, rfl⟩ hsound
    refine ⟨⟨h', forget n.ptr s.live⟩, ?_, nodes', hl', hh', hreg'.trans hreg⟩
    rw [HeapUse.step, he]
    rfl

theorem Inv.run (hstart : 0 < start) (hlen : heapNodeSize ≤ len) (hend : start + len < u64Size)
    (hrun : Run HeapUse.step (fun s c => s.Promised c ∧ s.NoGrowth c ∧ s.Sound c)
      (init m start len kmem vmm) s) : Inv start len s := by
  refine hrun.invariant (Inv start len) (inv_init hstart hlen hend) fun s c s' hs hok he => ?_
  obtain ⟨s'', he', hinv⟩ := hs.step hok.1 hok.2.1 hok.2.2
  rw [he] at he'
  rwa [Option.some.inj he']

/-- **The heap tiles its region** in every run of sound calls that never need to grow it, and every
such call completes. -/
theorem heap_tiles_region (hstart : 0 < start) (hlen : heapNodeSize ≤ len)
    (hend : start + len < u64Size)
    (hrun : Run HeapUse.step (fun s c => s.Promised c ∧ s.NoGrowth c ∧ s.Sound c)
      (init m start len kmem vmm) s) :
    s.heap.Tiles start len ∧
      ∀ c, s.Promised c → s.NoGrowth c → s.Sound c → (s.step c).isSome := by
  have hinv := Inv.run hstart hlen hend hrun
  refine ⟨?_, fun c hp hg hs => ?_⟩
  · obtain ⟨nodes, hl, -⟩ := hinv
    exact hl.tiles
  · obtain ⟨s', he, -⟩ := hinv.step hp hg hs
    rw [he]
    rfl

/-- The small heap, before any call. -/
def smallUse : HeapUse :=
  init (fun _ => 0) 0x1000 256 smallHeap.kmem smallHeap.kernelVmm

/-- Blocks are taken, freed, grown into the free space and shrunk. -/
theorem heap_tiles_region_small :
    ∃ s, runActions HeapUse.step (fun s c => s.Promised c ∧ s.NoGrowth c ∧ s.Sound c) smallUse
        [.alloc 32, .alloc 32, .alloc 32, .free 0x1060, .realloc 0x1020 40, .realloc 0x10a0 8] =
          some s ∧
      s.heap.Tiles 0x1000 256 := by
  have hsome : (runActions HeapUse.step (fun s c => s.Promised c ∧ s.NoGrowth c ∧ s.Sound c)
      smallUse [.alloc 32, .alloc 32, .alloc 32, .free 0x1060, .realloc 0x1020 40,
        .realloc 0x10a0 8]).isSome := by
    decide +kernel
  obtain ⟨s, hs⟩ := Option.isSome_iff_exists.mp hsome
  exact ⟨s, hs,
    (heap_tiles_region (by decide) (by decide) (by decide) (Run.of_runActions hs)).1⟩

/-- `alloc` splits a node in the middle of the list; the node behind still points back at the block
and not at the rest. -/
theorem split_loses_back_link :
    ∃ s, Run HeapUse.step (fun s c => s.Promised c ∧ s.NoGrowth c) smallUse s ∧
      ¬s.heap.Tiles 0x1000 256 := by
  have hany : (runActions HeapUse.step (fun s c => s.Promised c ∧ s.NoGrowth c) smallUse
      [.alloc 64, .alloc 32, .free 0x1020, .alloc 8]).any
        fun s => !decide (s.heap.Tiles 0x1000 256) := by
    decide +kernel
  obtain ⟨s, hs, hp⟩ := (Option.any_eq_true _ _).mp hany
  exact ⟨s, Run.of_runActions hs, by simpa using hp⟩

end Run

end HeapUse

end Colibri.Memory
