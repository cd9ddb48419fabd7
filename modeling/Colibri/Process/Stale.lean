import Colibri.Memory.Heap.Forward
import Colibri.Process

/-!
# What a new thread inherits from the heap

`alloc` hands out blocks as they are, `add_thread` writes neither `prio` nor `vruntime`, and
`run_proc` adds the weighted uptime to `vruntime`. So both come from what the block of the thread
held before.

The block is found by first fit in the list of nodes (`threadBlock`), whatever the blocks hold.

## Results

* `Kernel.createAndRun_eq`: the fields the scheduler reads, from the bytes of that block.
* `new_thread_fields_iff`: two heaps that differ in free blocks give the same fields if and only if
  they agree on nine bytes of it.
-/

namespace Colibri

open Colibri.Lib Colibri.Memory

/-! ## Records in blocks -/

/-- The fields are within `n` bytes. -/
def Within (fs : List Field) (n : Nat) : Prop := ∀ f ∈ fs, f.offset + f.width ≤ n

/-- The fields leave the offset `i` alone. -/
def Skips (fs : List Field) (i : Nat) : Prop := ∀ f ∈ fs, i < f.offset ∨ f.offset + f.width ≤ i

section

variable {m : Mem} {a i n offset : Nat} {fs gs : List Field} {name : List (BitVec 8)}

theorem writeFields_of_skips (h : Skips fs i) : writeFields m a fs (a + i) = m (a + i) := by
  induction fs generalizing m with
  | nil => rfl
  | cons f fs ih =>
    rw [writeFields, ih fun g hg => h g (List.mem_cons_of_mem _ hg)]
    have := h f List.mem_cons_self
    exact Mem.store_of_notMem (by omega)

theorem writeFields_of_notMem (h : Within fs n) (hi : i < a ∨ a + n ≤ i) :
    writeFields m a fs i = m i := by
  induction fs generalizing m with
  | nil => rfl
  | cons f fs ih =>
    rw [writeFields, ih fun g hg => h g (List.mem_cons_of_mem _ hg)]
    have := h f List.mem_cons_self
    exact Mem.store_of_notMem (by omega)

theorem Within.append (h : Within fs n) (h' : Within gs n) : Within (fs ++ gs) n :=
  List.forall_mem_append.mpr ⟨h, h'⟩

theorem within_nameFields {k : Nat} (h : offset + k ≤ n) : Within (nameFields offset k name) n := by
  intro f hf
  obtain ⟨i, hi, rfl⟩ := List.mem_map.mp hf
  have := List.mem_range.mp hi
  simp only
  omega

theorem skips_nameFields {k : Nat} (h : i < offset ∨ offset + k ≤ i) :
    Skips (nameFields offset k name) i := by
  intro f hf
  obtain ⟨j, hj, rfl⟩ := List.mem_map.mp hf
  have := List.mem_range.mp hj
  simp only
  omega

theorem within_procFields (pid : Nat) : Within (procFields pid name) procSize := by
  refine List.forall_mem_cons.mpr ⟨?_, within_nameFields (by decide)⟩
  simp [procSize]

theorem within_vmmFields (v : Vmm) (lock : Nat) : Within (vmmFields v lock) vmmInfoSize := by
  simp [Within, vmmFields, vmmInfoSize]

theorem within_threadFields (tid : Nat) : Within (threadFields tid name) threadSize :=
  Within.append (by simp [Within, threadSize]) (within_nameFields (by decide))

theorem within_stackFields (stack stackEnd entry proc : Nat) :
    Within (stackFields stack stackEnd entry proc) threadSize := by
  simp [Within, stackFields, threadSize]

/-- `add_thread` writes neither `vruntime` nor `prio`. -/
theorem skips_threadFields (tid : Nat) (hi : i < 8 ∨ i = prioOffset) :
    Skips (threadFields tid name) i := by
  unfold prioOffset at hi
  refine List.forall_mem_append.mpr ⟨?_, skips_nameFields (by omega)⟩
  simp only [List.forall_mem_cons, List.not_mem_nil, false_implies, implies_true, and_true]
  omega

theorem skips_stackFields (stack stackEnd entry proc : Nat) (hi : i < 8 ∨ i = prioOffset) :
    Skips (stackFields stack stackEnd entry proc) i := by
  unfold prioOffset at hi
  simp only [Skips, stackFields, List.forall_mem_cons, List.not_mem_nil, false_implies,
    implies_true, and_true]
  omega

end

/-! ## A step on the heap -/

/-- The kernel in the middle of a call: the heap is well formed, what is free is as it was in `m₀`,
and so is what is not heap. -/
structure Stage (m₀ : Mem) (lo hi : Nat) (nodes : List HeapNode) (s : Kernel) : Prop where
  chained : s.heap.Chained lo hi nodes
  free : ∀ i, FreeByte nodes i → s.heap.mem i = m₀ i
  outside : ∀ i, i < lo ∨ hi ≤ i → s.heap.mem i = m₀ i

section

variable {m₀ : Mem} {lo hi a b n k sz w off : Nat} {nodes : List HeapNode} {s : Kernel}
  {fs : List Field} {c : HeapNode}

theorem Block.bounds (hb : Block nodes a n) (hlay : Layout (· ≤ ·) lo nodes hi) :
    lo ≤ a ∧ a + n ≤ hi := by
  obtain ⟨c, hc, -, rfl, hn⟩ := hb
  have := (hlay.le nat_le).2 c hc
  simp only [HeapNode.ptr, HeapNode.stop] at this ⊢
  omega

theorem Stage.alloc (h : Stage m₀ lo hi nodes s) (hfit : firstFit sz nodes = some c) :
    ∃ mem, s.alloc sz = some ({ s with heap := { s.heap with mem } }, c.ptr) ∧
      Stage m₀ lo hi (allocated sz nodes) { s with heap := { s.heap with mem } } ∧
      (∀ a n, Block (allocated sz nodes) a n →
        ∀ i, a ≤ i → i < a + n → mem i = s.heap.mem i) ∧
      Block (allocated sz nodes) c.ptr sz ∧
      (∀ a n, Block nodes a n → 0 < n → 0 < sz → a ≠ c.ptr) ∧ c.ptr ≠ 0 ∧
      ∀ i, c.ptr ≤ i → i < c.ptr + sz → mem i = m₀ i := by
  obtain ⟨mem, hrun, hch, hoff, hblock, hfree, hne⟩ := h.chained.alloc hfit
  have hlay := h.chained.layout
  refine ⟨mem, by rw [Kernel.alloc, hrun]; rfl, ⟨hch, fun i hi => ?_, fun i hi => ?_⟩,
    fun a n hb i h₁ h₂ => hoff i (hb.offHeaders hch.layout h₁ h₂), hblock,
    fun a n hb hn hsz he => ?_, hne, fun i h₁ h₂ => ?_⟩
  · have hf := freeByte_of_allocated hi
    exact (hoff i (hi.offHeaders hch.layout)).trans (h.free i hf)
  · refine (hoff i fun j hj => ?_).trans (h.outside i hi)
    have hj' := (hch.layout.le nat_le).2 j hj
    have := j.addr_add_le_stop
    omega
  · subst he
    exact hb.not_free hlay (Nat.le_refl _) (by omega) (hfree _ (Nat.le_refl _) (by omega))
  · exact (hoff i (hblock.offHeaders hch.layout h₁ h₂)).trans (h.free i (hfree i h₁ h₂))

/-- A write to bytes of a block in use. -/
theorem Stage.store (h : Stage m₀ lo hi nodes s) (hb : Block nodes a n) {mem : Mem}
    (hm : ∀ i, i < a ∨ a + n ≤ i → mem i = s.heap.mem i) :
    Stage m₀ lo hi nodes { s with heap := { s.heap with mem } } := by
  have hlay := h.chained.layout
  have hbounds := Block.bounds hb hlay
  refine ⟨h.chained.write fun i hi => hm i ?_, fun i hi => ?_, fun i hi => ?_⟩
  · by_contra hin
    exact hi (hb.offHeaders hlay (by omega) (by omega))
  · refine (hm i ?_).trans (h.free i hi)
    by_contra hin
    exact hb.not_free hlay (by omega) (by omega) hi
  · exact (hm i (by omega)).trans (h.outside i hi)

theorem Stage.write (h : Stage m₀ lo hi nodes s) (hb : Block nodes a n) (hw : Within fs n) :
    Stage m₀ lo hi nodes (s.write a fs) :=
  h.store hb fun _ hi => writeFields_of_notMem hw hi

theorem Stage.setKmem (h : Stage m₀ lo hi nodes s) (kmem : Kmem) :
    Stage m₀ lo hi nodes (s.setKmem kmem) :=
  ⟨⟨h.chained.first, h.chained.layout, h.chained.linked, h.chained.pos, h.chained.bound⟩, h.free,
    h.outside⟩

end

/-- The parts of the kernel that are not the heap. -/
structure Env where
  kmem : Kmem
  data : Nat → BitVec 8
  processList : Nat
  kernelPml4 : Nat

/-- The parts of `s` that are not the heap. -/
def Kernel.env (s : Kernel) : Env := ⟨s.heap.kmem, s.data, s.processList, s.kernelPml4⟩

@[simp] theorem Kernel.env_setKmem (s : Kernel) (kmem : Kmem) :
    (s.setKmem kmem).env = { s.env with kmem } := rfl

@[simp] theorem Kernel.env_write (s : Kernel) (a : Nat) (fs : List Field) :
    (s.write a fs).env = s.env := rfl

/-- The blocks in use are not written. -/
def KeepsBlocks (nodes : List HeapNode) (m m' : Mem) : Prop :=
  ∀ a n, 0 < n → Block nodes a n → ∀ i, a ≤ i → i < a + n → m' i = m i

section

variable {m₀ : Mem} {lo hi p d : Nat} {nodes : List HeapNode} {s : Kernel} {c c₁ c₂ : HeapNode}
  {user : Bool}

/-- `vmm_create`, when there is a page for the page table. -/
theorem Stage.vmmCreate (h : Stage m₀ lo hi nodes s) (hf₁ : firstFit vmmInfoSize nodes = some c₁)
    (hf₂ : firstFit spinlockSize (allocated vmmInfoSize nodes) = some c₂) {k : Kmem} {page : Nat}
    (hk : s.heap.kmem.kalloc = (k, page)) (hpage : page ≠ 0) {v : Vmm}
    (hv : v = vmmInit (physToVirt page) lowhalfStart lowhalfEnd user) :
    ∃ s', s.vmmCreate user = some (s', some ⟨c₁.ptr, c₂.ptr, v⟩) ∧
      Stage m₀ lo hi (allocated spinlockSize (allocated vmmInfoSize nodes)) s' ∧
      s'.env = { s.env with kmem := k.mapHigherHalf s.kernelPml4 v.rootPagetable } ∧
      Block (allocated spinlockSize (allocated vmmInfoSize nodes)) c₁.ptr vmmInfoSize ∧
      (∀ a n, 0 < n → Block nodes a n → a ≠ c₁.ptr) ∧ KeepsBlocks nodes s.heap.mem s'.heap.mem := by
  obtain ⟨m₁, ha₁, st₁, keep₁, b₁, new₁, ne₁, -⟩ := h.alloc hf₁
  obtain ⟨m₂, ha₂, st₂, keep₂, b₂, new₂, ne₂, -⟩ := (st₁.setKmem k).alloc hf₂
  have b₁' : Block (allocated spinlockSize (allocated vmmInfoSize nodes)) c₁.ptr vmmInfoSize :=
    b₁.allocated
  have hlock : Within [⟨0, spinlockSize, 0⟩] spinlockSize := by simp [Within]
  have st₃ := ((st₂.write b₂ hlock).write b₁' (within_vmmFields v c₂.ptr)).setKmem
    (k.mapHigherHalf s.kernelPml4 v.rootPagetable)
  refine ⟨_, ?_, st₃, ?_, b₁', fun a n hn hb => new₁ a n hb hn (by decide), ?_⟩
  · unfold Kernel.vmmCreate
    rw [ha₁, Option.bind_some]
    simp only [if_neg ne₁, hk, if_neg hpage]
    rw [ha₂, Option.bind_some]
    simp only [if_neg ne₂, ← hv]
    rfl
  · simp only [Kernel.env_setKmem, Kernel.env_write]
    rfl
  · intro a n hn hb i h₁ h₂
    have hb' : Block (allocated vmmInfoSize nodes) a n := hb.allocated
    have hb'' : Block (allocated spinlockSize (allocated vmmInfoSize nodes)) a n := hb'.allocated
    have hlay := st₂.chained.layout
    have hap₁ := hb''.apart b₁' hlay (new₁ a n hb hn (by decide))
    have hap₂ := hb''.apart b₂ hlay (new₂ a n hb' hn (by decide))
    refine (writeFields_of_notMem (within_vmmFields _ _) (by omega)).trans ?_
    refine (writeFields_of_notMem hlock (by omega)).trans ?_
    exact (keep₂ a n hb'' i h₁ h₂).trans (keep₁ a n hb' i h₁ h₂)

/-- The thread array of the process at `p`: `data`, `len` and `capacity`. -/
structure ThreadArray (m : Mem) (p d len : Nat) : Prop where
  data : m.load (p + threadsOffset) 8 = d
  len : m.load (p + threadsOffset + 8) 8 = len
  capacity : m.load (p + threadsOffset + 16) 8 = 8

theorem ThreadArray.congr {m m' : Mem} {len : Nat} (h : ThreadArray m p d len)
    (hm : ∀ i, p + threadsOffset ≤ i → i < p + procSize → m' i = m i) :
    ThreadArray m' p d len := by
  have hoff : threadsOffset = 88 ∧ procSize = 128 := by decide
  refine ⟨?_, ?_, ?_⟩
  · exact (Mem.load_congr fun i h₁ h₂ => hm i (by omega) (by omega)).trans h.data
  · exact (Mem.load_congr fun i h₁ h₂ => hm i (by omega) (by omega)).trans h.len
  · exact (Mem.load_congr fun i h₁ h₂ => hm i (by omega) (by omega)).trans h.capacity

/-- `init_thread_array`. -/
theorem Stage.initThreadArray (h : Stage m₀ lo hi nodes s) (hp : Block nodes p procSize)
    (hf : firstFit threadArraySize nodes = some c) :
    ∃ s', s.initThreadArray (p + threadsOffset) = some s' ∧
      Stage m₀ lo hi (allocated threadArraySize nodes) s' ∧ s'.env = s.env ∧
      Block (allocated threadArraySize nodes) c.ptr threadArraySize ∧
      (∀ a n, 0 < n → Block nodes a n → a ≠ c.ptr) ∧ c.ptr ≠ 0 ∧
      ThreadArray s'.heap.mem p c.ptr 0 := by
  have hoff : threadsOffset = 88 ∧ procSize = 128 := by decide
  obtain ⟨s₀, hs₀⟩ : ∃ s₀, s₀ = s.write (p + threadsOffset) [⟨16, 8, 8⟩, ⟨8, 8, 0⟩] := ⟨_, rfl⟩
  have h₀ : Stage m₀ lo hi nodes s₀ := by
    rw [hs₀]
    refine h.store hp fun i hi => ?_
    have hw : Within [⟨16, 8, 8⟩, ⟨8, 8, 0⟩] 24 := by simp [Within]
    exact writeFields_of_notMem hw (by omega)
  obtain ⟨m₁, ha, st, keep, b, new, ne, -⟩ := h₀.alloc hf
  have hp' : Block (allocated threadArraySize nodes) p procSize := hp.allocated
  have hc : c.ptr < u64Size := by
    have := Block.bounds b st.chained.layout
    have := st.chained.bound
    have hsz : threadArraySize = 64 := rfl
    omega
  let m := writeFields m₁ (p + threadsOffset) [⟨0, 8, c.ptr⟩]
  have hrun : s.initThreadArray (p + threadsOffset) =
      some { s₀ with heap := { s₀.heap with mem := m } } := by
    simp only [Kernel.initThreadArray, ← hs₀, ha, Option.map_some]
    rfl
  have hkept : ∀ k, 8 ≤ k → k + 8 ≤ 24 → m.load (p + threadsOffset + k) 8 =
      s₀.heap.mem.load (p + threadsOffset + k) 8 := fun k hk hk' =>
    (Mem.load_store_of_disjoint (.inl (by dsimp only; omega))).trans
      (Mem.load_congr fun i hi hi' => keep p procSize hp' i (by omega) (by omega))
  refine ⟨_, hrun, ?_, by rw [hs₀]; rfl, b, fun a n hn hb => new a n hb hn (by decide), ne,
    ⟨?_, ?_, ?_⟩⟩
  · refine st.store hp' fun i hi => ?_
    have hw : Within [⟨0, 8, c.ptr⟩] 24 := by simp [Within]
    exact writeFields_of_notMem hw (by omega)
  · simp only [m, writeFields, Nat.add_zero]
    rw [Mem.load_store, Nat.mod_eq_of_lt (show c.ptr < 256 ^ 8 from hc)]
  · refine (hkept 8 (by omega) (by omega)).trans ?_
    rw [hs₀]
    exact Mem.load_store _ _ _ _
  · refine (hkept 16 (by omega) (by omega)).trans ?_
    rw [hs₀]
    exact (Mem.load_store_of_disjoint (.inl (by dsimp only; omega))).trans (Mem.load_store _ _ _ _)

/-- `add` to an array without a thread. -/
theorem Stage.add (h : Stage m₀ lo hi nodes s) (hp : Block nodes p procSize)
    (hd : Block nodes d threadArraySize) (hpd : p ≠ d) (hd0 : d ≠ 0) {t : Nat} (ht : t < u64Size)
    (harr : ThreadArray s.heap.mem p d 0) :
    ∃ s', s.add (p + threadsOffset) t = some s' ∧ Stage m₀ lo hi nodes s' ∧ s'.env = s.env ∧
      ThreadArray s'.heap.mem p d 1 ∧ s'.heap.mem.load d 8 = t ∧
      ∀ i, i < p ∨ p + procSize ≤ i → i < d ∨ d + threadArraySize ≤ i →
        s'.heap.mem i = s.heap.mem i := by
  have hoff : threadsOffset = 88 ∧ procSize = 128 ∧ threadArraySize = 64 := by decide
  have hap := hp.apart hd h.chained.layout hpd
  have hbounds := Block.bounds hd h.chained.layout
  have hhi := h.chained.bound
  have hdata : u64Add d (8 * 0) = d := by
    rw [Nat.mul_zero, u64Add_eq (by omega), Nat.add_zero]
  let m := (s.heap.mem.store d 8 t).store (p + threadsOffset + 8) 8 1
  have hm : ∀ i, i < p ∨ p + procSize ≤ i → i < d ∨ d + threadArraySize ≤ i →
      m i = s.heap.mem i := fun i h₁ h₂ => by
    refine (Mem.store_of_notMem ?_).trans (Mem.store_of_notMem ?_)
    · omega
    · omega
  have hrun : s.add (p + threadsOffset) t = some { s with heap := { s.heap with mem := m } } := by
    unfold Kernel.add
    simp only [harr.data, harr.len, harr.capacity, ge_iff_le, show ¬8 ≤ 0 by decide, if_false,
      if_neg hd0, hdata]
    rfl
  refine ⟨_, hrun, ?_, rfl, ⟨?_, ?_, ?_⟩, ?_, hm⟩
  · have h₁ : Stage m₀ lo hi nodes { s with heap := { s.heap with mem := s.heap.mem.store d 8 t } } :=
      h.store hd fun i hi => Mem.store_of_notMem (by omega)
    exact h₁.store hp fun i hi => Mem.store_of_notMem (by omega)
  · refine (Mem.load_store_of_disjoint (.inr (by omega))).trans ?_
    rw [Mem.load_store_of_disjoint (by simp only [Mem.Disjoint]; omega), harr.data]
  · exact Mem.load_store _ _ _ _
  · refine (Mem.load_store_of_disjoint (.inl (by omega))).trans ?_
    rw [Mem.load_store_of_disjoint (by simp only [Mem.Disjoint]; omega), harr.capacity]
  · refine (Mem.load_store_of_disjoint (by simp only [Mem.Disjoint]; omega)).trans ?_
    rw [Mem.load_store, Nat.mod_eq_of_lt (show t < 256 ^ 8 from ht)]

theorem Stage.congr {s' : Kernel} (h : Stage m₀ lo hi nodes s) (he : s'.heap = s.heap) :
    Stage m₀ lo hi nodes s' := by
  obtain ⟨h₁, h₂, h₃⟩ := h
  rw [← he] at h₁ h₂ h₃
  exact ⟨h₁, h₂, h₃⟩

/-- **`add_thread`**: the fields it does not write are as they were in the heap. -/
theorem Stage.addThread {b : VmmBlock} {name : List (BitVec 8)} {entry stack : Nat} {k : Kmem}
    {v : Vmm} (h : Stage m₀ lo hi nodes s) (hp : Block nodes p procSize)
    (hb : Block nodes b.addr vmmInfoSize) (hpb : p ≠ b.addr) (hd : Block nodes d threadArraySize)
    (hpd : p ≠ d) (hd0 : d ≠ 0) (harr : ThreadArray s.heap.mem p d 0)
    (hf : firstFit threadSize nodes = some c)
    (hstack : s.heap.kmem.vmmAlloc b.v pageSize memoryFlagWrite = some (k, v, stack))
    (hne : stack ≠ 0) :
    ∃ s', s.addThread p b name entry = some (s', { b with v }, c.ptr) ∧
      Stage m₀ lo hi (allocated threadSize nodes) s' ∧ s'.env = { s.env with kmem := k } ∧
      Block (allocated threadSize nodes) c.ptr threadSize ∧ c.ptr ≠ 0 ∧
      (∀ a n, 0 < n → Block nodes a n → a ≠ c.ptr) ∧ ThreadArray s'.heap.mem p d 1 ∧
      s'.heap.mem.load d 8 = c.ptr ∧
      ∀ i, i < 8 ∨ i = prioOffset → s'.heap.mem (c.ptr + i) = m₀ (c.ptr + i) := by
  obtain ⟨m₁, ha, st₁, keep, bt, new, ne, hold⟩ := h.alloc hf
  have hp' : Block (allocated threadSize nodes) p procSize := hp.allocated
  have hb' : Block (allocated threadSize nodes) b.addr vmmInfoSize := hb.allocated
  have hd' : Block (allocated threadSize nodes) d threadArraySize := hd.allocated
  have hpt : p ≠ c.ptr := new _ _ hp (by decide) (by decide)
  have hbt : b.addr ≠ c.ptr := new _ _ hb (by decide) (by decide)
  have hdt : d ≠ c.ptr := new _ _ hd (by decide) (by decide)
  have hlay := st₁.chained.layout
  have hsz : threadSize = 560 ∧ procSize = 128 ∧ threadsOffset = 88 ∧ prioOffset = 88 := by decide
  let s₁ : Kernel := { s with heap := { s.heap with mem := m₁ } }
  let s₂ : Kernel := { s₁ with nextFreeTid := u64Incr s.nextFreeTid }.write c.ptr
    (threadFields s.nextFreeTid name)
  let s₃ := (s₂.setKmem k).write b.addr (vmmFields v b.lock)
  let stackEnd := u64Add (k.areas stack).start (k.areas stack).size
  let s₄ := s₃.write c.ptr (stackFields stack stackEnd entry p)
  have st₁' : Stage m₀ lo hi (allocated threadSize nodes)
      { s₁ with nextFreeTid := u64Incr s.nextFreeTid } := st₁.congr rfl
  have st₂ : Stage m₀ lo hi (allocated threadSize nodes) s₂ :=
    st₁'.write bt (within_threadFields _)
  have st₃ : Stage m₀ lo hi (allocated threadSize nodes) s₃ :=
    (st₂.setKmem k).write hb' (within_vmmFields _ _)
  have st₄ : Stage m₀ lo hi (allocated threadSize nodes) s₄ := st₃.write bt (within_stackFields _ _ _ _)
  have harr₄ : ThreadArray s₄.heap.mem p d 0 := by
    refine harr.congr fun i h₁ h₂ => ?_
    have hap := hp'.apart bt hlay hpt
    have hap' := hp'.apart hb' hlay hpb
    refine (writeFields_of_notMem (within_stackFields _ _ _ _) (by omega)).trans ?_
    refine (writeFields_of_notMem (within_vmmFields _ _) (by omega)).trans ?_
    refine (writeFields_of_notMem (within_threadFields _) (by omega)).trans ?_
    exact keep _ _ hp' i (by omega) (by omega)
  have ht : c.ptr < u64Size := by
    have := Block.bounds bt hlay
    have := st₁.chained.bound
    omega
  obtain ⟨s', hadd, st', henv, harr', hdata, hframe⟩ := st₄.add hp' hd' hpd hd0 ht harr₄
  refine ⟨s', ?_, st', henv, bt, ne, fun a n hn hb => new a n hb hn (by decide), harr', hdata,
    fun i hi => ?_⟩
  · have hsame : s₂.heap.kmem = s.heap.kmem := rfl
    unfold Kernel.addThread
    rw [ha, Option.bind_some]
    simp only [if_neg ne]
    show (s₂.heap.kmem.vmmAlloc b.v pageSize memoryFlagWrite).bind _ = _
    rw [hsame, hstack, Option.bind_some]
    simp only [if_neg hne]
    show (s₄.add (p + threadsOffset) c.ptr).map _ = _
    rw [hadd]
    rfl
  · have hi' : i < threadSize := by omega
    have hap := bt.apart hp' hlay hpt.symm
    have hap' := bt.apart hd' hlay hdt.symm
    have hap'' := bt.apart hb' hlay hbt.symm
    refine (hframe _ (by omega) (by omega)).trans ?_
    refine (writeFields_of_skips (skips_stackFields _ _ _ _ hi)).trans ?_
    refine (writeFields_of_notMem (within_vmmFields _ _) (by omega)).trans ?_
    refine (writeFields_of_skips (skips_threadFields _ hi)).trans ?_
    exact hold _ (by omega) (by omega)

/-- What `lst_push_end` leaves alone. -/
theorem lstPushEnd_of_notMem {m : Mem} {lst n i : Nat} (hn : lst + 8 ≤ n ∨ n + 16 ≤ lst)
    (h₁ : i < n ∨ n + 16 ≤ i) (h₂ : i < lst ∨ lst + 16 ≤ i)
    (h₃ : i < lstPrev m lst ∨ lstPrev m lst + 16 ≤ i) : lstPushEnd m lst n i = m i := by
  have hprev : lstPrev (lstSetNext (lstSetPrev m n (lstPrev m lst)) n lst) lst = lstPrev m lst := by
    unfold lstPrev lstSetNext lstSetPrev
    rw [Mem.load_store_of_disjoint (by simp only [Mem.Disjoint]; omega),
      Mem.load_store_of_disjoint (by simp only [Mem.Disjoint]; omega)]
  unfold lstPushEnd
  simp only [hprev]
  refine (Mem.store_of_notMem (by omega)).trans ?_
  refine (Mem.store_of_notMem (by omega)).trans ?_
  refine (Mem.store_of_notMem (by omega)).trans ?_
  exact Mem.store_of_notMem (by omega)

end

/-- `process_list` is not in the heap, and its last process is not in the heap or in a block in
use. -/
structure ListOk (m : Mem) (lst lo hi : Nat) (nodes : List HeapNode) : Prop where
  head : lst + 16 ≤ lo ∨ hi ≤ lst
  last : lstPrev m lst + 16 ≤ lo ∨ hi ≤ lstPrev m lst ∨
    ∃ a n, Block nodes a n ∧ a ≤ lstPrev m lst ∧ lstPrev m lst + 16 ≤ a + n

/-- The process at `p` with one thread at `t`, whose fields `vruntime` and `prio` are as in `m₀`. -/
structure Created (m₀ : Mem) (lo hi : Nat) (nodes : List HeapNode) (s : Kernel) (p d t : Nat) :
    Prop where
  chained : s.heap.Chained lo hi nodes
  proc : Block nodes p procSize
  data : Block nodes d threadArraySize
  thread : Block nodes t threadSize
  proc_ne_data : p ≠ d
  proc_ne_thread : p ≠ t
  data_ne_thread : d ≠ t
  array : ThreadArray s.heap.mem p d 1
  first : s.heap.mem.load d 8 = t
  stale : ∀ i, i < 8 ∨ i = prioOffset → s.heap.mem (t + i) = m₀ (t + i)

section

variable {m₀ : Mem} {lo hi p d t : Nat} {nodes nodes₀ : List HeapNode} {s : Kernel}
  {c₁ c₂ c₃ c₄ c₅ : HeapNode}

/-- The process is put in the list. -/
theorem Created.push {lst : Nat} {m : Mem} (h : Created m₀ lo hi nodes s p d t)
    (hm : s.heap.mem = m) (hlst : lst + 16 ≤ lo ∨ hi ≤ lst)
    (hlast : lstPrev m lst + 16 ≤ lo ∨ hi ≤ lstPrev m lst ∨ ∃ a n, Block nodes a n ∧ a ≠ p ∧ a ≠ d ∧
      a ≠ t ∧ a ≤ lstPrev m lst ∧ lstPrev m lst + 16 ≤ a + n) :
    Created m₀ lo hi nodes { s with heap := { s.heap with mem := lstPushEnd m lst p } } p d t := by
  subst hm
  have hlay := h.chained.layout
  have hsz : threadSize = 560 ∧ procSize = 128 ∧ threadsOffset = 88 ∧ prioOffset = 88 ∧
    threadArraySize = 64 := by decide
  have hbp := Block.bounds h.proc hlay
  have hhead : lst + 8 ≤ p ∨ p + 16 ≤ lst := by
    clear hlast
    omega
  have hoff : ∀ i, lo ≤ i → i < hi → i < lst ∨ lst + 16 ≤ i := by
    clear hlast
    omega
  -- a block other than those of earlier processes, apart from the links at the start of `p`
  have hkeep : ∀ a n, Block nodes a n → (a = p ∨ a = d ∨ a = t) → ∀ i, a ≤ i → i < a + n →
      (i < p ∨ p + 16 ≤ i) → lstPushEnd s.heap.mem lst p i = s.heap.mem i := by
    intro a n hb hnew i h₁ h₂ hp
    have hba := Block.bounds hb hlay
    refine lstPushEnd_of_notMem hhead hp (hoff i (Nat.le_trans hba.1 h₁)
      (Nat.lt_of_lt_of_le h₂ hba.2)) ?_
    rcases hlast with hl | hl | ⟨b, k, hb', hnp, hnd, hnt, hl, hl'⟩
    · omega
    · omega
    · have hne : a ≠ b := by
        rcases hnew with rfl | rfl | rfl
        · exact hnp.symm
        · exact hnd.symm
        · exact hnt.symm
      have := hb.apart hb' hlay hne
      omega
  have hap := h.proc.apart h.data hlay h.proc_ne_data
  have hap' := h.proc.apart h.thread hlay h.proc_ne_thread
  refine ⟨h.chained.write fun i hx => ?_, h.proc, h.data, h.thread, h.proc_ne_data,
    h.proc_ne_thread, h.data_ne_thread, h.array.congr fun i h₁ h₂ => ?_, ?_, fun i hi => ?_⟩
  · have hin : lo ≤ i ∧ i < hi := by
      clear hlast
      by_contra hout
      refine hx fun n hn => ?_
      have := (hlay.le nat_le).2 n hn
      have := n.addr_add_le_stop
      omega
    refine lstPushEnd_of_notMem hhead ?_ (hoff i hin.1 hin.2) ?_
    · by_contra hp
      exact hx (h.proc.offHeaders hlay (by omega) (by omega))
    · rcases hlast with hl | hl | ⟨b, k, hb', -, -, -, hl, hl'⟩
      · omega
      · omega
      · by_contra hb
        exact hx (hb'.offHeaders hlay (by omega) (by omega))
  · exact hkeep p _ h.proc (.inl rfl) i (by omega) (by omega) (by omega)
  · refine (Mem.load_congr fun i h₁ h₂ => ?_).trans h.first
    exact hkeep d _ h.data (.inr (.inl rfl)) i h₁ (by omega) (by omega)
  · refine (hkeep t _ h.thread (.inr (.inr rfl)) (t + i) (by omega) (by omega) (by omega)).trans ?_
    exact h.stale i hi

/-- `create_process` from the new vmm on, when the segments and a stack find their places. -/
theorem Stage.loadProcess {b : VmmBlock} {elf : Elf} {q : Proc} {k : Kmem} {v : Vmm} {stack : Nat}
    (h : Stage m₀ lo hi nodes s) (hp : Block nodes p procSize)
    (hb : Block nodes b.addr vmmInfoSize) (hpb : p ≠ b.addr)
    (hf₄ : firstFit threadArraySize nodes = some c₄)
    (hf₅ : firstFit threadSize (allocated threadArraySize nodes) = some c₅)
    (hload : loadSegments elf.file ⟨s.heap.kmem, b.v, s.data, [], s.data⟩ elf.segments =
      some (q, true))
    (hstack : q.k.vmmAlloc q.v pageSize memoryFlagWrite = some (k, v, stack)) (hne : stack ≠ 0)
    (hlst : s.processList + 16 ≤ lo ∨ hi ≤ s.processList)
    (hlast : lstPrev m₀ s.processList + 16 ≤ lo ∨ hi ≤ lstPrev m₀ s.processList ∨
      ∃ a n, Block nodes a n ∧ a ≠ p ∧ a ≤ lstPrev m₀ s.processList ∧
        lstPrev m₀ s.processList + 16 ≤ a + n) :
    ∃ s', s.loadProcess p b elf = some (s', p) ∧
      Created m₀ lo hi (allocated threadSize (allocated threadArraySize nodes)) s' p c₄.ptr
        c₅.ptr := by
  have hvmm : Within [⟨112, 8, b.addr⟩] procSize := by simp [Within, procSize]
  let s₁ := s.write p [⟨112, 8, b.addr⟩]
  have st₁ : Stage m₀ lo hi nodes s₁ := h.write hp hvmm
  have st₁' : Stage m₀ lo hi nodes { s₁ with data := q.data } := st₁.congr rfl
  let s₂ := ({ s₁ with data := q.data }.setKmem q.k).write b.addr (vmmFields q.v b.lock)
  have st₂ : Stage m₀ lo hi nodes s₂ := (st₁'.setKmem q.k).write hb (within_vmmFields _ _)
  obtain ⟨s₃, harray, st₃, henv₃, hd, newd, hd0, harr⟩ := st₂.initThreadArray hp hf₄
  have hp₃ : Block (allocated threadArraySize nodes) p procSize := hp.allocated
  have hb₃ : Block (allocated threadArraySize nodes) b.addr vmmInfoSize := hb.allocated
  have hpd : p ≠ c₄.ptr := newd _ _ (by decide) hp
  have hkmem : s₃.heap.kmem = q.k := (congrArg Env.kmem henv₃).trans rfl
  have hstack₃ : s₃.heap.kmem.vmmAlloc q.v pageSize memoryFlagWrite = some (k, v, stack) := by
    rw [hkmem]
    exact hstack
  obtain ⟨s₄, hadd, st₄, henv₄, ht, ht0, newt, harr₄, hfirst, hstale⟩ :=
    @Stage.addThread m₀ lo hi p c₄.ptr _ s₃ c₅ { b with v := q.v } [] elf.entry stack k v st₃ hp₃ hb₃
      hpb hd hpd hd0 harr hf₅ hstack₃ hne
  have hpl : s₄.processList = s.processList :=
    (congrArg Env.processList henv₄).trans (congrArg Env.processList henv₃)
  have hcreated : Created m₀ lo hi (allocated threadSize (allocated threadArraySize nodes)) s₄ p
      c₄.ptr c₅.ptr :=
    ⟨st₄.chained, hp₃.allocated, hd.allocated, ht, hpd, newt _ _ (by decide) hp₃,
      newt _ _ (by decide) hd, harr₄, hfirst, hstale⟩
  have hprev : lstPrev s₄.heap.mem s.processList = lstPrev m₀ s.processList :=
    Mem.load_congr fun i h₁ h₂ => st₄.outside i (by clear hlast; omega)
  refine ⟨_, ?_, hcreated.push rfl hlst ?_⟩
  · unfold Kernel.loadProcess
    show (loadSegments elf.file ⟨s.heap.kmem, b.v, s.data, [], s.data⟩ elf.segments).bind _ = _
    rw [hload, Option.bind_some]
    simp only [Bool.not_true, Bool.false_eq_true, if_false]
    show (s₂.initThreadArray (p + threadsOffset)).bind _ = _
    rw [harray, Option.bind_some]
    show (s₃.addThread p { b with v := q.v } [] elf.entry).bind _ = _
    rw [hadd, Option.bind_some]
    simp only [if_neg ht0, hpl]
  · rw [hprev]
    rcases hlast with hl | hl | ⟨a, n, ha, hap, hl, hl'⟩
    · exact .inl hl
    · exact .inr (.inl hl)
    · have hn : 0 < n := by omega
      have ha' : Block (allocated threadArraySize nodes) a n := ha.allocated
      exact .inr (.inr ⟨a, n, ha'.allocated, hap, newd a n hn ha, newt a n hn ha', hl, hl'⟩)

end

/-! ## A process is created and run -/

/-- The blocks for a new process and for its first turn, in order. -/
def requests : List Nat :=
  [procSize, vmmInfoSize, spinlockSize, threadArraySize, threadSize, rbNodeSize]

/-- The free blocks serve the requests. -/
def Serves : List Nat → List HeapNode → Prop
  | [], _ => True
  | sz :: szs, nodes => (∃ c, firstFit sz nodes = some c) ∧ Serves szs (allocated sz nodes)

/-- The nodes when `add_thread` asks for its block. -/
def threadNodes (nodes : List HeapNode) : List HeapNode :=
  allocated threadArraySize (allocated spinlockSize (allocated vmmInfoSize (allocated procSize nodes)))

/-- The block of the new thread, by first fit. -/
def threadBlock (nodes : List HeapNode) : Nat :=
  ((firstFit threadSize (threadNodes nodes)).map HeapNode.ptr).getD 0

/-- There are pages for the new address space, and its segments and a stack find their places. -/
def SpaceMade (e : Env) (elf : Elf) (user : Bool) : Prop :=
  ∃ k page v q k' v' stack, e.kmem.kalloc = (k, page) ∧ page ≠ 0 ∧
    v = vmmInit (physToVirt page) lowhalfStart lowhalfEnd user ∧
    loadSegments elf.file ⟨k.mapHigherHalf e.kernelPml4 v.rootPagetable, v, e.data, [], e.data⟩
      elf.segments = some (q, true) ∧
    q.k.vmmAlloc q.v pageSize memoryFlagWrite = some (k', v', stack) ∧ stack ≠ 0

section

variable {lo hi : Nat} {nodes : List HeapNode} {s : Kernel} {name : List (BitVec 8)} {elf : Elf}
  {user : Bool}

theorem createProcess_made (name : List (BitVec 8)) (h : s.heap.Chained lo hi nodes)
    (hlist : ListOk s.heap.mem s.processList lo hi nodes) (hserve : Serves requests nodes)
    (hmade : SpaceMade s.env elf user) :
    ∃ s' p d, s.createProcess name elf user = some (s', p) ∧ p ≠ 0 ∧
      Created s.heap.mem lo hi (allocated threadSize (threadNodes nodes)) s' p d
        (threadBlock nodes) := by
  obtain ⟨⟨c₁, hf₁⟩, ⟨c₂, hf₂⟩, ⟨c₃, hf₃⟩, ⟨c₄, hf₄⟩, ⟨c₅, hf₅⟩, -⟩ := hserve
  obtain ⟨k, page, v, q, k', v', stack, hk, hpage, hv, hload, hstack, hne⟩ := hmade
  have st : Stage s.heap.mem lo hi nodes s := ⟨h, fun _ _ => rfl, fun _ _ => rfl⟩
  obtain ⟨m₁, ha, st₁, -, hp, new, hp0, -⟩ := st.alloc hf₁
  let s₁ : Kernel := { s with heap := { s.heap with mem := m₁ } }
  have st₁' : Stage s.heap.mem lo hi (allocated procSize nodes)
      { s₁ with nextFreePid := u64Incr s.nextFreePid } := st₁.congr rfl
  let s₂ := { s₁ with nextFreePid := u64Incr s.nextFreePid }.write c₁.ptr
    (procFields s.nextFreePid name)
  have st₂ : Stage s.heap.mem lo hi (allocated procSize nodes) s₂ :=
    st₁'.write hp (within_procFields _)
  obtain ⟨s₃, hvmm, st₃, henv, hb, newb, -⟩ := st₂.vmmCreate hf₂ hf₃ hk hpage hv
  have hp₂ : Block (allocated vmmInfoSize (allocated procSize nodes)) c₁.ptr procSize := hp.allocated
  have hpml : s₂.kernelPml4 = s.kernelPml4 := rfl
  rw [hpml] at henv
  have hkmem : s₃.heap.kmem = k.mapHigherHalf s.kernelPml4 v.rootPagetable := by
    show s₃.env.kmem = _
    rw [henv]
  have hdata : s₃.data = s.data := congrArg Env.data henv
  have hpl : s₃.processList = s.processList := congrArg Env.processList henv
  have hlast : lstPrev s.heap.mem s₃.processList + 16 ≤ lo ∨
      hi ≤ lstPrev s.heap.mem s₃.processList ∨
      ∃ a n, Block (allocated spinlockSize (allocated vmmInfoSize (allocated procSize nodes))) a n ∧
        a ≠ c₁.ptr ∧ a ≤ lstPrev s.heap.mem s₃.processList ∧
        lstPrev s.heap.mem s₃.processList + 16 ≤ a + n := by
    rw [hpl]
    rcases hlist.last with hl | hl | ⟨a, n, ha, hl, hl'⟩
    · exact .inl hl
    · exact .inr (.inl hl)
    · have ha₁ : Block (allocated procSize nodes) a n := ha.allocated
      have ha₂ : Block (allocated vmmInfoSize (allocated procSize nodes)) a n := ha₁.allocated
      exact .inr (.inr ⟨a, n, ha₂.allocated, new a n ha (by omega) (by decide), hl, hl'⟩)
  obtain ⟨s₄, hrun, hcreated⟩ := st₃.loadProcess (b := ⟨c₂.ptr, c₃.ptr, v⟩)
    hp₂.allocated hb (newb _ _ (by decide) hp) hf₄ hf₅
    (by rw [hkmem, hdata]; exact hload) hstack hne (by rw [hpl]; exact hlist.head) hlast
  have hblock : threadBlock nodes = c₅.ptr := by
    rw [threadBlock, threadNodes, hf₅]
    rfl
  refine ⟨s₄, c₁.ptr, c₄.ptr, ?_, hp0, ?_⟩
  · unfold Kernel.createProcess
    rw [ha, Option.bind_some]
    simp only [if_neg hp0]
    show (s₂.vmmCreate user).bind _ = _
    rw [hvmm, Option.bind_some]
    exact hrun
  · rw [hblock]
    exact hcreated

theorem freeVmm_null {s s' : Kernel} {proc p : Nat} {b : VmmBlock}
    (h : s.freeVmm proc b = some (s', p)) : p = 0 := by
  unfold Kernel.freeVmm at h
  obtain ⟨s₁, -, h⟩ := Option.bind_eq_some_iff.mp h
  obtain ⟨s₂, -, h⟩ := Option.bind_eq_some_iff.mp h
  exact (Prod.mk.inj (Option.some.inj h)).2.symm

/-- A thread was added, so there was a stack. -/
theorem addThread_stack {s s' : Kernel} {p t entry : Nat} {b b' : VmmBlock}
    (h : s.addThread p b name entry = some (s', b', t)) (ht : t ≠ 0)
    (halloc : ∀ s₁ c, s.alloc threadSize = some (s₁, c) → s₁.heap.kmem = s.heap.kmem) :
    ∃ k v stack, s.heap.kmem.vmmAlloc b.v pageSize memoryFlagWrite = some (k, v, stack) ∧
      stack ≠ 0 := by
  unfold Kernel.addThread at h
  obtain ⟨⟨s₁, c⟩, ha, h⟩ := Option.bind_eq_some_iff.mp h
  simp only at h
  split at h
  case isTrue =>
    exact absurd (Prod.mk.inj (Prod.mk.inj (Option.some.inj h)).2).2.symm ht
  case isFalse =>
    obtain ⟨⟨k, v, stack⟩, hstack, h⟩ := Option.bind_eq_some_iff.mp h
    have hkmem := halloc s₁ c ha
    refine ⟨k, v, stack, ?_, fun h0 => ?_⟩
    · rw [← hkmem]
      exact hstack
    · simp only [h0, if_true] at h
      obtain ⟨s₂, -, h⟩ := Option.map_eq_some_iff.mp h
      exact ht (Prod.mk.inj (Prod.mk.inj h).2).2.symm

/-- A process was returned, so its segments and a stack found their places. -/
theorem Stage.space_of_loadProcess {m₀ : Mem} {s' : Kernel} {b : VmmBlock} {p p' : Nat}
    {c₄ c₅ : HeapNode} (h : Stage m₀ lo hi nodes s) (hp : Block nodes p procSize)
    (hb : Block nodes b.addr vmmInfoSize) (hf₄ : firstFit threadArraySize nodes = some c₄)
    (hf₅ : firstFit threadSize (allocated threadArraySize nodes) = some c₅)
    (hrun : s.loadProcess p b elf = some (s', p')) (hp' : p' ≠ 0) :
    ∃ q k v stack, loadSegments elf.file ⟨s.heap.kmem, b.v, s.data, [], s.data⟩ elf.segments =
      some (q, true) ∧ q.k.vmmAlloc q.v pageSize memoryFlagWrite = some (k, v, stack) ∧
      stack ≠ 0 := by
  have hvmm : Within [⟨112, 8, b.addr⟩] procSize := by simp [Within, procSize]
  let s₁ := s.write p [⟨112, 8, b.addr⟩]
  have st₁ : Stage m₀ lo hi nodes s₁ := h.write hp hvmm
  unfold Kernel.loadProcess at hrun
  obtain ⟨⟨q, ok⟩, hload, hrun⟩ := Option.bind_eq_some_iff.mp hrun
  have st₁' : Stage m₀ lo hi nodes { s₁ with data := q.data } := st₁.congr rfl
  let s₂ := ({ s₁ with data := q.data }.setKmem q.k).write b.addr (vmmFields q.v b.lock)
  have st₂ : Stage m₀ lo hi nodes s₂ := (st₁'.setKmem q.k).write hb (within_vmmFields _ _)
  cases ok with
  | false => exact absurd (freeVmm_null hrun) hp'
  | true =>
    simp only [Bool.not_true, Bool.false_eq_true, if_false] at hrun
    change (s₂.initThreadArray (p + threadsOffset)).bind _ = _ at hrun
    obtain ⟨s₃, harray, st₃, henv, -⟩ := st₂.initThreadArray hp hf₄
    rw [harray, Option.bind_some] at hrun
    obtain ⟨⟨s₄, b', t⟩, hadd, hrun⟩ := Option.bind_eq_some_iff.mp hrun
    by_cases ht : t = 0
    · simp only [ht, if_true] at hrun
      exact absurd (freeVmm_null hrun) hp'
    · have hkmem : s₃.heap.kmem = q.k := (congrArg Env.kmem henv).trans rfl
      obtain ⟨k, v, stack, hstack, hne⟩ := addThread_stack hadd ht fun s₅ c ha => by
        obtain ⟨m₅, ha', -⟩ := st₃.alloc hf₅
        rw [ha'] at ha
        rw [← (Prod.mk.inj (Option.some.inj ha)).1]
      rw [hkmem] at hstack
      exact ⟨q, k, v, stack, hload, hstack, hne⟩

/-- A process was created, so there was room for it. -/
theorem spaceMade_of_createProcess {s' : Kernel} {p : Nat} (h : s.heap.Chained lo hi nodes)
    (hserve : Serves requests nodes) (hrun : s.createProcess name elf user = some (s', p))
    (hp0 : p ≠ 0) : SpaceMade s.env elf user := by
  obtain ⟨⟨c₁, hf₁⟩, ⟨c₂, hf₂⟩, ⟨c₃, hf₃⟩, ⟨c₄, hf₄⟩, ⟨c₅, hf₅⟩, -⟩ := hserve
  have st : Stage s.heap.mem lo hi nodes s := ⟨h, fun _ _ => rfl, fun _ _ => rfl⟩
  obtain ⟨m₁, ha, st₁, -, hp, new, hc₁, -⟩ := st.alloc hf₁
  let s₁ : Kernel := { s with heap := { s.heap with mem := m₁ } }
  have st₁' : Stage s.heap.mem lo hi (allocated procSize nodes)
      { s₁ with nextFreePid := u64Incr s.nextFreePid } := st₁.congr rfl
  let s₂ := { s₁ with nextFreePid := u64Incr s.nextFreePid }.write c₁.ptr
    (procFields s.nextFreePid name)
  have st₂ : Stage s.heap.mem lo hi (allocated procSize nodes) s₂ :=
    st₁'.write hp (within_procFields _)
  unfold Kernel.createProcess at hrun
  rw [ha, Option.bind_some] at hrun
  simp only [if_neg hc₁] at hrun
  change (s₂.vmmCreate user).bind _ = _ at hrun
  obtain ⟨k, page, hk⟩ : ∃ k page, s.heap.kmem.kalloc = (k, page) := ⟨_, _, rfl⟩
  have hk₂ : s₂.heap.kmem.kalloc = (k, page) := hk
  by_cases hpage : page = 0
  case pos =>
    obtain ⟨m₂, ha₂, -, -, -, -, hc₂, -⟩ := st₂.alloc hf₂
    obtain ⟨⟨s₃, b⟩, hvmm, hrun⟩ := Option.bind_eq_some_iff.mp hrun
    unfold Kernel.vmmCreate at hvmm
    rw [ha₂, Option.bind_some] at hvmm
    simp only [if_neg hc₂, hk₂, hpage, if_true] at hvmm
    obtain ⟨s₄, -, hvmm⟩ := Option.map_eq_some_iff.mp hvmm
    obtain ⟨-, rfl⟩ := Prod.mk.inj hvmm
    obtain ⟨s₅, -, hrun⟩ := Option.map_eq_some_iff.mp hrun
    exact absurd (Prod.mk.inj hrun).2.symm hp0
  case neg =>
    obtain ⟨v, hv⟩ : ∃ v, v = vmmInit (physToVirt page) lowhalfStart lowhalfEnd user := ⟨_, rfl⟩
    obtain ⟨s₃, hvmm, st₃, henv, hb, newb, -⟩ := st₂.vmmCreate hf₂ hf₃ hk₂ hpage hv
    rw [hvmm, Option.bind_some] at hrun
    have hp₂ : Block (allocated vmmInfoSize (allocated procSize nodes)) c₁.ptr procSize :=
      hp.allocated
    obtain ⟨q, k', v', stack, hload, hstack, hne⟩ := st₃.space_of_loadProcess
      (b := ⟨c₂.ptr, c₃.ptr, v⟩) hp₂.allocated hb hf₄ hf₅ hrun hp0
    have hpml : s₂.kernelPml4 = s.kernelPml4 := rfl
    have hkmem : s₃.heap.kmem = k.mapHigherHalf s.kernelPml4 v.rootPagetable := by
      show s₃.env.kmem = _
      rw [henv, hpml]
    have hdata : s₃.data = s.data := congrArg Env.data henv
    rw [hkmem, hdata] at hload
    exact ⟨k, page, v, q, k', v', stack, hk, hpage, hv, hload, hstack, hne⟩

/-- What the scheduler reads of a thread that is run for the first time at `now`, in a block with the
bytes of `m` at `t`. -/
def inherited (m : Mem) (t now : Nat) : Nat × Nat :=
  (m.load (t + prioOffset) 1,
    u64Add (m.load t 8) (u64Mul (u64Sub now 0) (1 + m.load (t + prioOffset) 1)))

/-- `run_proc` on a new process. -/
theorem Created.runProc {m₀ : Mem} {p d t : Nat} {c : HeapNode} (h : Created m₀ lo hi nodes s p d t)
    (hf : firstFit rbNodeSize nodes = some c) (now : Nat) :
    ∃ s', s.runProc p now = some s' ∧ s'.schedFields p = [inherited m₀ t now] := by
  have hsz : threadSize = 560 ∧ procSize = 128 ∧ threadsOffset = 88 ∧ prioOffset = 88 ∧
    threadArraySize = 64 ∧ rbNodeSize = 40 := by decide
  have hlay := h.chained.layout
  have hdt := h.data.apart h.thread hlay h.data_ne_thread
  have hpt := h.proc.apart h.thread hlay h.proc_ne_thread
  have hdb := Block.bounds h.data hlay
  have hhi := h.chained.bound
  have hfirst : s.heap.mem.load (u64Add d (8 * 0)) 8 = t := by
    rw [Nat.mul_zero, u64Add_eq (by omega), Nat.add_zero]
    exact h.first
  have hprio : s.heap.mem.load (t + prioOffset) 1 = m₀.load (t + prioOffset) 1 :=
    Mem.load_congr fun i h₁ h₂ => by
      obtain rfl : i = t + prioOffset := by omega
      exact h.stale _ (.inr rfl)
  have hvruntime : s.heap.mem.load t 8 = m₀.load t 8 := Mem.load_congr fun i h₁ h₂ => by
    have := h.stale (i - t) (.inl (by omega))
    rwa [Nat.add_sub_cancel' h₁] at this
  -- the entity is updated
  let mem := Kernel.update (s.heap.mem.store (t + 8) 8 0) t now
  have hmem : mem = (s.heap.mem.store (t + 8) 8 0).store t 8 (inherited m₀ t now).2 := by
    simp only [mem, Kernel.update, inherited]
    rw [Mem.load_store, Mem.load_store_of_disjoint (.inr (by omega)),
      Mem.load_store_of_disjoint (.inl (by omega)), hprio, hvruntime]
    rfl
  have hframe : ∀ i, i < t ∨ t + 16 ≤ i → mem i = s.heap.mem i := fun i hi => by
    rw [hmem]
    exact (Mem.store_of_notMem (by omega)).trans (Mem.store_of_notMem (by omega))
  have st₀ : Stage s.heap.mem lo hi nodes s := ⟨h.chained, fun _ _ => rfl, fun _ _ => rfl⟩
  have st₁ : Stage s.heap.mem lo hi nodes { s with heap := { s.heap with mem } } :=
    st₀.store h.thread fun i hi => hframe i (by omega)
  -- the node of the tree is allocated
  obtain ⟨m₂, ha, st₂, keep, hrb, new, hne, -⟩ := st₁.alloc hf
  have hp' : Block (allocated rbNodeSize nodes) p procSize := h.proc.allocated
  have hd' : Block (allocated rbNodeSize nodes) d threadArraySize := h.data.allocated
  have ht' : Block (allocated rbNodeSize nodes) t threadSize := h.thread.allocated
  have hw : Within [⟨24, 4, 0⟩, ⟨8, 8, 0⟩, ⟨0, 8, 0⟩, ⟨32, 8, t⟩] rbNodeSize := by
    simp [Within, rbNodeSize]
  let m₃ := writeFields m₂ c.ptr [⟨24, 4, 0⟩, ⟨8, 8, 0⟩, ⟨0, 8, 0⟩, ⟨32, 8, t⟩]
  have hkeep : ∀ a n, Block (allocated rbNodeSize nodes) a n → a ≠ c.ptr →
      ∀ i, a ≤ i → i < a + n → m₃ i = mem i := fun a n hb hac i h₁ h₂ => by
    have := hb.apart hrb st₂.chained.layout hac
    exact (writeFields_of_notMem hw (by omega)).trans (keep a n hb i h₁ h₂)
  have hpc : p ≠ c.ptr := new _ _ h.proc (by decide) (by decide)
  have hdc : d ≠ c.ptr := new _ _ h.data (by decide) (by decide)
  have htc : t ≠ c.ptr := new _ _ h.thread (by decide) (by decide)
  have harr : ThreadArray m₃ p d 1 := h.array.congr fun i h₁ h₂ =>
    (hkeep p _ hp' hpc i (by omega) (by omega)).trans (hframe i (by omega))
  have hfirst' : m₃.load (u64Add d (8 * 0)) 8 = t := by
    refine Eq.trans ?_ hfirst
    rw [Nat.mul_zero, u64Add_eq (by omega), Nat.add_zero]
    exact Mem.load_congr fun i h₁ h₂ =>
      (hkeep d _ hd' hdc i (by omega) (by omega)).trans (hframe i (by omega))
  have hend : ∀ fuel, Kernel.runLoop p now (fuel + 1) 1 { s with heap := { s.heap with mem := m₃ } } =
      some { s with heap := { s.heap with mem := m₃ } } := fun fuel => by
    unfold Kernel.runLoop
    have hlen : ¬1 < m₃.load (p + threadsOffset + 8) 8 := by
      rw [harr.len]
      exact Nat.lt_irrefl 1
    exact if_neg hlen
  have hrun : s.runProc p now = some { s with heap := { s.heap with mem := m₃ } } := by
    obtain ⟨fuel, hfuel⟩ : ∃ fuel, u64Size = fuel + 2 := ⟨u64Size - 2, by decide⟩
    rw [Kernel.runProc, hfuel, Kernel.runLoop, h.array.len, if_pos Nat.zero_lt_one]
    simp only [h.array.data, hfirst]
    rw [ha, Option.bind_some]
    simp only [if_neg hne]
    exact hend fuel
  refine ⟨_, hrun, ?_⟩
  have hlen : m₃.load (p + threadsOffset + 8) 8 = 1 := harr.len
  have hprio' : m₃.load (t + prioOffset) 1 = (inherited m₀ t now).1 := by
    refine Eq.trans ?_ hprio
    exact Mem.load_congr fun i h₁ h₂ =>
      (hkeep t _ ht' htc i (by omega) (by omega)).trans (hframe i (by omega))
  have hvruntime' : m₃.load t 8 = (inherited m₀ t now).2 := by
    have hlt : (inherited m₀ t now).2 < 256 ^ 8 := u64Add_lt _ _
    refine (Mem.load_congr fun i h₁ h₂ => hkeep t _ ht' htc i h₁ (by omega)).trans ?_
    rw [hmem, Mem.load_store, Nat.mod_eq_of_lt hlt]
  unfold Kernel.schedFields
  simp only [hlen, List.range_one, List.map_cons, List.map_nil, harr.data, hfirst', hprio',
    hvruntime']

/-- `create_process` and then `run_proc` at the uptime `now`: what the scheduler reads of the threads
of the process, if one was created. -/
def Kernel.createAndRun (s : Kernel) (name : List (BitVec 8)) (elf : Elf) (user : Bool) (now : Nat) :
    Option (List (Nat × Nat)) :=
  (s.createProcess name elf user).bind fun (s, p) =>
    if p = 0 then none else (s.runProc p now).map fun s => s.schedFields p

/-- The kernel with other bytes in its memory. -/
def Kernel.withMem (s : Kernel) (mem : Mem) : Kernel := { s with heap := { s.heap with mem } }

/-- The thread inherits its fields from the block that first fit finds for it. -/
theorem Kernel.createAndRun_eq (h : s.heap.Chained lo hi nodes)
    (hlist : ListOk s.heap.mem s.processList lo hi nodes) (hserve : Serves requests nodes)
    (hmade : SpaceMade s.env elf user) (now : Nat) :
    s.createAndRun name elf user now = some [inherited s.heap.mem (threadBlock nodes) now] := by
  obtain ⟨s', p, d, hcreate, hp, hcreated⟩ := createProcess_made name h hlist hserve hmade
  obtain ⟨-, -, -, -, -, ⟨c, hf⟩, -⟩ := hserve
  obtain ⟨s'', hrun, hfields⟩ := hcreated.runProc hf now
  unfold Kernel.createAndRun
  rw [hcreate, Option.bind_some]
  simp only [if_neg hp, hrun, Option.map_some, hfields]

theorem Kernel.spaceMade_of_createAndRun {now : Nat} {fields : List (Nat × Nat)}
    (h : s.heap.Chained lo hi nodes) (hserve : Serves requests nodes)
    (hrun : s.createAndRun name elf user now = some fields) : SpaceMade s.env elf user := by
  obtain ⟨⟨s', p⟩, hcreate, hrun⟩ := Option.bind_eq_some_iff.mp hrun
  change (if p = 0 then none else (s'.runProc p now).map fun s => s.schedFields p) = _ at hrun
  by_cases hp : p = 0
  · rw [if_pos hp] at hrun
    exact nomatch hrun
  · exact spaceMade_of_createProcess h hserve hcreate hp

/-- Two blocks give a thread the same fields if and only if they agree on nine bytes. -/
theorem inherited_eq_iff {m m' : Mem} {t now : Nat} : inherited m t now = inherited m' t now ↔
    ∀ i, i < 8 ∨ i = prioOffset → m (t + i) = m' (t + i) := by
  have hlt : m.load t 8 < u64Size := Mem.load_lt m t 8
  have hlt' : m'.load t 8 < u64Size := Mem.load_lt m' t 8
  have hadd : ∀ c, u64Add (m.load t 8) c = u64Add (m'.load t 8) c ↔ m.load t 8 = m'.load t 8 := by
    intro c
    refine ⟨fun h => ?_, fun h => by rw [h]⟩
    rw [u64Add, u64Add, u64Size_eq] at h
    rw [u64Size_eq] at hlt hlt'
    omega
  constructor
  · intro h
    obtain ⟨hprio, hv⟩ := Prod.mk.inj h
    rw [hprio] at hv
    rintro i (hi | rfl)
    · exact Mem.load_eq_iff.mp ((hadd _).mp hv) i hi
    · exact Mem.load_eq_iff.mp hprio 0 Nat.zero_lt_one
  · intro h
    have hprio : m.load (t + prioOffset) 1 = m'.load (t + prioOffset) 1 :=
      Mem.load_eq_iff.mpr fun i hi => by
        obtain rfl : i = 0 := by omega
        exact h prioOffset (.inr rfl)
    have hv : m.load t 8 = m'.load t 8 := Mem.load_eq_iff.mpr fun i hi => h i (.inl hi)
    rw [inherited, inherited, hprio, hv]

/-- **What a new thread inherits.** Of two heaps that differ in the bytes of free blocks only, both
give the threads of a new process the same `prio` and `vruntime` if and only if they agree on the
bytes of these two fields in the free block that the thread gets. -/
theorem new_thread_fields_iff {mem : Mem} {now : Nat} {fields : List (Nat × Nat)}
    (h : s.heap.Chained lo hi nodes) (hlist : ListOk s.heap.mem s.processList lo hi nodes)
    (hserve : Serves requests nodes) (hsame : ∀ i, ¬FreeByte nodes i → mem i = s.heap.mem i)
    (hrun : s.createAndRun name elf user now = some fields) :
    (s.withMem mem).createAndRun name elf user now = some fields ↔
      ∀ i, i < 8 ∨ i = prioOffset →
        mem (threadBlock nodes + i) = s.heap.mem (threadBlock nodes + i) := by
  have hmade := Kernel.spaceMade_of_createAndRun h hserve hrun
  have hmade' : SpaceMade (s.withMem mem).env elf user := hmade
  have hheaders : ∀ i, ¬OffHeaders nodes i → mem i = s.heap.mem i := fun i hi =>
    hsame i fun hfree => hi (hfree.offHeaders h.layout)
  have h' : (s.withMem mem).heap.Chained lo hi nodes := h.write hheaders
  have hprev : lstPrev mem s.processList = lstPrev s.heap.mem s.processList := by
    refine Mem.load_congr fun i h₁ h₂ => hsame i ?_
    rintro ⟨n, hn, -, h₃, h₄⟩
    have hbounds := (h.layout.le nat_le).2 n hn
    have hhead := hlist.head
    rw [HeapNode.ptr] at h₃
    omega
  have hlist' : ListOk (s.withMem mem).heap.mem (s.withMem mem).processList lo hi nodes := by
    refine ⟨hlist.head, ?_⟩
    have hlast := hlist.last
    rw [← hprev] at hlast
    exact hlast
  rw [Kernel.createAndRun_eq h hlist hserve hmade] at hrun
  rw [Kernel.createAndRun_eq h' hlist' hserve hmade', ← Option.some.inj hrun, Option.some_inj,
    List.cons.injEq, and_iff_left rfl]
  exact inherited_eq_iff

end

/-! ## A small heap -/

/-- A heap of one page, just initialised, with an empty process list below it. -/
def freshKernel : Kernel where
  heap :=
    { smallHeap with
      mem := initHeap (lstInit (fun _ => 0) 0x10) 0x1000 4096
      kmem := emptyKmem }
  data := fun _ => 0
  processList := 0x10
  kernelPml4 := 0x9000
  nextFreePid := 0
  nextFreeTid := 0

/-- An image without segments. -/
def emptyElf : Elf := ⟨0x400000, [], fun _ => 0⟩

theorem freshKernel_chained : freshKernel.heap.Chained 0x1000 0x2000 [⟨0x1000, 4064, false⟩] where
  first := rfl
  layout := by decide
  linked := ⟨⟨by decide +kernel, by decide +kernel, by decide +kernel⟩, trivial⟩
  pos := by decide
  bound := by decide

theorem freshKernel_list :
    ListOk freshKernel.heap.mem freshKernel.processList 0x1000 0x2000 [⟨0x1000, 4064, false⟩] :=
  ⟨by decide, .inl (by decide +kernel)⟩

theorem freshKernel_serves : Serves requests [⟨0x1000, 4064, false⟩] :=
  ⟨⟨_, rfl⟩, ⟨_, rfl⟩, ⟨_, rfl⟩, ⟨_, rfl⟩, ⟨_, rfl⟩, ⟨_, rfl⟩, trivial⟩

theorem freshKernel_space : SpaceMade freshKernel.env emptyElf true := by
  obtain ⟨v, hv⟩ : ∃ v, v = vmmInit (physToVirt 0x2000) lowhalfStart lowhalfEnd true := ⟨_, rfl⟩
  obtain ⟨k, hk⟩ : ∃ k : Kmem, k = { emptyKmem with free := [0x3000, 0x4000] } := ⟨_, rfl⟩
  have hkalloc : freshKernel.env.kmem.kalloc = (k, 0x2000) := by
    rw [hk]
    rfl
  have hrun : ((k.mapHigherHalf freshKernel.env.kernelPml4 v.rootPagetable).vmmAlloc v pageSize
      memoryFlagWrite).map (fun r => decide (r.2.2 ≠ 0)) = some true := by
    rw [hk, hv]
    decide +kernel
  obtain ⟨⟨k', v', stack⟩, hstack, hne⟩ := Option.map_eq_some_iff.mp hrun
  obtain ⟨q, hq⟩ : ∃ q : Proc, q = ⟨k.mapHigherHalf freshKernel.env.kernelPml4 v.rootPagetable, v,
    freshKernel.env.data, [], freshKernel.env.data⟩ := ⟨_, rfl⟩
  refine ⟨k, 0x2000, v, q, k', v', stack, hkalloc, by decide, hv, ?_, ?_, of_decide_eq_true hne⟩
  · rw [← hq]
    rfl
  · rw [hq]
    dsimp only
    exact hstack

/-- The heap of `freshKernel` with the byte at `i` in the free block set to `b`. -/
def staleByte (i : Nat) (b : BitVec 8) : Mem := Function.update freshKernel.heap.mem i b

theorem staleByte_same {i : Nat} {b : BitVec 8} (hi : 0x1020 ≤ i ∧ i < 0x2000) :
    ∀ j, ¬FreeByte [⟨0x1000, 4064, false⟩] j → staleByte i b j = freshKernel.heap.mem j := by
  intro j hj
  refine Function.update_of_ne (fun he => hj ?_) _ _
  subst he
  exact ⟨_, List.mem_singleton.mpr rfl, rfl, hi.1, hi.2⟩

theorem freshKernel_fields : freshKernel.createAndRun [] emptyElf true 5 = some [(0, 5)] := by
  rw [Kernel.createAndRun_eq freshKernel_chained freshKernel_list freshKernel_serves
    freshKernel_space 5]
  decide +kernel

/-- A stale byte that is not one of the nine. -/
theorem new_thread_fields_iff_fresh :
    (freshKernel.withMem (staleByte 0x1300 7)).createAndRun [] emptyElf true 5 = some [(0, 5)] := by
  have hblock : threadBlock [⟨0x1000, 4064, false⟩] = 0x11d0 := by decide
  refine (new_thread_fields_iff freshKernel_chained freshKernel_list freshKernel_serves
    (staleByte_same (by decide)) freshKernel_fields).mpr fun i hi => ?_
  rw [hblock]
  have hprio : prioOffset = 88 := rfl
  exact Function.update_of_ne (by omega) _ _

/-- **The priority of a new thread is a byte of a freed block.** With 1 in its place the thread is
charged twice its uptime. -/
theorem stale_priority :
    (∀ j, ¬FreeByte [⟨0x1000, 4064, false⟩] j → staleByte 0x1228 1 j = freshKernel.heap.mem j) ∧
      freshKernel.heap.Chained 0x1000 0x2000 [⟨0x1000, 4064, false⟩] ∧
      freshKernel.createAndRun [] emptyElf true 5 = some [(0, 5)] ∧
      (freshKernel.withMem (staleByte 0x1228 1)).createAndRun [] emptyElf true 5 =
        some [(1, 10)] := by
  have hsame := staleByte_same (i := 0x1228) (b := 1) (by decide)
  have h' : (freshKernel.withMem (staleByte 0x1228 1)).heap.Chained 0x1000 0x2000
      [⟨0x1000, 4064, false⟩] := freshKernel_chained.write fun j hj => hsame j fun hfree =>
    hj (hfree.offHeaders freshKernel_chained.layout)
  have hlist : ListOk (staleByte 0x1228 1) 0x10 0x1000 0x2000 [⟨0x1000, 4064, false⟩] :=
    ⟨by decide, .inl (by decide +kernel)⟩
  refine ⟨hsame, freshKernel_chained, freshKernel_fields, ?_⟩
  rw [Kernel.createAndRun_eq h' hlist freshKernel_serves freshKernel_space 5]
  decide +kernel

end Colibri
