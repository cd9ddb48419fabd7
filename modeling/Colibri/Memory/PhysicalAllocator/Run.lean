import Colibri.Memory.PhysicalAllocator

/-!
# Runs of the page allocator

`Window` is the geometry of the managed memory: `pageCount` pages from `base` on, mapped at
`PHYSICAL_OFFSET` without wrapping, with the bitmap in the first pages and `free_lst` elsewhere.
`FreeList w s L`: the ring holds the pages `L`, and the bitmap's clear bits are those of `L`. It holds
after `init_phys_allocator` and is kept by `kalloc`, by `kfree` of a page `kalloc` returned before,
and by what the owners of allocated pages write into them.
-/

namespace Colibri.Memory

open Colibri.Lib

/-- The managed memory. -/
structure Window where
  base : Nat
  pageCount : Nat
  freeLst : Nat
  aligned : base % 4096 = 0
  base_pos : 0 < base
  pages : 1 ≤ pageCount
  mapped : base + 4096 * pageCount + physicalOffset ≤ u64Size
  head_pos : 0 < freeLst
  head_lt : freeLst + 16 ≤ u64Size
  head_apart : Mem.Disjoint freeLst 16 (base + physicalOffset) (4096 * pageCount)

namespace Window

/-- The address of the bitmap. -/
def alloc (w : Window) : Nat := w.base + physicalOffset

/-- The size of the bitmap. -/
def allocSize (w : Window) : Nat := (w.pageCount - 1) / 8 + 1

/-- The number of pages the bitmap takes. -/
def index (w : Window) : Nat := (w.allocSize - 1) / 4096 + 1

/-- The physical address of a page. -/
def page (w : Window) (i : Nat) : Nat := w.base + 4096 * i

/-- Where a free page's list node is. -/
def nodeAddr (w : Window) (i : Nat) : Nat := w.base + 4096 * i + physicalOffset

/-- A page that is not one of the bitmap's. -/
def Allocatable (w : Window) (i : Nat) : Prop := w.index ≤ i ∧ i < w.pageCount

/-- The list nodes: `free_lst` and the allocatable pages. -/
def Node (w : Window) (a : Nat) : Prop := a = w.freeLst ∨ ∃ i, w.Allocatable i ∧ a = w.nodeAddr i

theorem physicalOffset_mod : physicalOffset % 4096 = 0 := by decide

theorem nodeAddr_inj (w : Window) {i j : Nat} (h : w.nodeAddr i = w.nodeAddr j) : i = j := by
  unfold nodeAddr at h
  omega

theorem allocSize_le (w : Window) : w.allocSize ≤ 4096 * w.index := by
  unfold index
  omega

theorem index_le (w : Window) : w.index ≤ w.pageCount := by
  have := w.pages
  unfold index allocSize
  omega

theorem pageCount_le (w : Window) : w.pageCount ≤ w.allocSize * 8 := by
  unfold allocSize
  omega

theorem alloc_add_le (w : Window) : w.alloc + w.allocSize ≤ u64Size := by
  have h₁ := w.mapped
  have h₂ := w.allocSize_le
  have h₃ := w.index_le
  unfold alloc
  omega

theorem spaced (w : Window) : Spaced w.Node := by
  have hm := w.mapped
  have hp := w.base_pos
  have hhp := w.head_pos
  have hhl := w.head_lt
  have hoff := physicalOffset_mod
  refine ⟨fun {a b} ha hb hab => ?_, fun {a} ha => ?_, fun {a} ha => ?_⟩
  · have hd := w.head_apart
    rcases ha with rfl | ⟨i, ⟨-, hi⟩, rfl⟩ <;> rcases hb with rfl | ⟨j, ⟨-, hj⟩, rfl⟩
    · exact absurd rfl hab
    · unfold nodeAddr
      rcases hd with hd | hd
      · exact .inl (by omega)
      · exact .inr (by omega)
    · unfold nodeAddr
      rcases hd with hd | hd
      · exact .inr (by omega)
      · exact .inl (by omega)
    · have hij : i ≠ j := fun e => hab (by rw [e])
      unfold nodeAddr
      rcases Nat.lt_or_gt_of_ne hij with hlt | hlt
      · exact .inl (by omega)
      · exact .inr (by omega)
  · rcases ha with rfl | ⟨i, -, rfl⟩
    · exact hhp
    · unfold nodeAddr
      omega
  · rcases ha with rfl | ⟨i, ⟨-, hi⟩, rfl⟩
    · omega
    · unfold nodeAddr
      omega

/-- The bitmap is outside the list nodes. -/
theorem bitmap_outside (w : Window) {x : Nat} (h₁ : w.alloc ≤ x) (h₂ : x < w.alloc + w.allocSize)
    {a : Nat} (ha : w.Node a) : x < a ∨ a + 16 ≤ x := by
  have h₃ := w.allocSize_le
  have h₄ := w.index_le
  unfold alloc at h₁ h₂
  rcases ha with rfl | ⟨i, ⟨hi, -⟩, rfl⟩
  · rcases w.head_apart with hd | hd <;> omega
  · unfold nodeAddr
    omega

theorem nodeAddr_notMem (w : Window) {i : Nat} {L : List Nat} (hi : i < w.pageCount) (hL : i ∉ L) :
    w.nodeAddr i ∉ w.freeLst :: L.map w.nodeAddr := by
  rw [List.mem_cons, not_or]
  constructor
  · intro e
    have hd := w.head_apart
    unfold nodeAddr at e
    rcases hd with hd | hd <;> omega
  · intro hm
    obtain ⟨j, hj, e⟩ := List.mem_map.mp hm
    rw [w.nodeAddr_inj e] at hj
    exact hL hj

theorem byte_mem (w : Window) {j : Nat} (hj : j < w.allocSize * 8) :
    w.alloc + j / 8 < u64Size ∧ w.alloc ≤ u64Add w.alloc (j / 8) ∧
      u64Add w.alloc (j / 8) < w.alloc + w.allocSize := by
  have h := w.alloc_add_le
  have hlt : w.alloc + j / 8 < u64Size := by omega
  rw [u64Add_eq hlt]
  omega

end Window

/-- **The ring holds the pages `L`, and exactly their bits are clear.** -/
structure FreeList (w : Window) (s : PhysAlloc) (L : List Nat) : Prop where
  base : s.base = w.base
  alloc : s.alloc = w.alloc
  allocSize : s.allocSize = w.allocSize
  freeLst : s.freeLst = w.freeLst
  ring : MemRing w.Node s.mem w.freeLst (L.map w.nodeAddr)
  range : ∀ i ∈ L, w.Allocatable i
  bits : ∀ j < w.allocSize * 8, bitIsset s.mem w.alloc j = decide (j ∉ L)

/-! ## Initialisation -/

/-- A loop of `bit_set`s sets the bits of its indexes and nothing else. -/
theorem foldl_bitSet (w : Window) :
    ∀ (l : List Nat) (m : Mem), (∀ i ∈ l, i < w.allocSize * 8) →
      (∀ j < w.allocSize * 8, bitIsset (l.foldl (fun m i => bitSet m w.alloc i) m) w.alloc j =
        (decide (j ∈ l) || bitIsset m w.alloc j)) ∧
      ∀ x, (x < w.alloc ∨ w.alloc + w.allocSize ≤ x) →
        l.foldl (fun m i => bitSet m w.alloc i) m x = m x
  | [], m, _ => ⟨fun j _ => by simp, fun x _ => rfl⟩
  | i :: l, m, h => by
    obtain ⟨hbits, hrest⟩ := foldl_bitSet w l (bitSet m w.alloc i) fun j hj =>
      h j (List.mem_cons_of_mem _ hj)
    have hi := w.byte_mem (h i List.mem_cons_self)
    refine ⟨fun j hj => ?_, fun x hx => ?_⟩
    · rw [List.foldl_cons, hbits j hj, bitIsset_bitSet hi.1 (w.byte_mem hj).1, ← Bool.or_assoc]
      congr 1
      by_cases hji : j = i <;> simp [hji]
    · rw [List.foldl_cons, hrest x hx, bitSet, Function.update_of_ne (by omega)]

/-- A ring does not see the bitmap. -/
theorem MemRing.of_bitmap {w : Window} {m m' : Mem} {L : List Nat}
    (hr : MemRing w.Node m w.freeLst L)
    (h : ∀ x, (x < w.alloc ∨ w.alloc + w.allocSize ≤ x) → m' x = m x) :
    MemRing w.Node m' w.freeLst L := by
  refine hr.congr fun a ha i hi hi' => h i ?_
  by_contra hc
  rcases w.bitmap_outside (x := i) (by omega) (by omega) (hr.mem a ha) with h | h <;> omega

/-- The bitmap does not see the ring. -/
theorem bitIsset_of_outside {w : Window} {m m' : Mem} (h : SameOutside w.Node m m') {j : Nat}
    (hj : j < w.allocSize * 8) : bitIsset m' w.alloc j = bitIsset m w.alloc j := by
  obtain ⟨-, h₁, h₂⟩ := w.byte_mem hj
  exact bitIsset_congr (h _ fun a ha => w.bitmap_outside h₁ h₂ ha)

/-- The loop that threads the free pages into the ring. -/
theorem foldl_pushEnd (w : Window) : ∀ (n i : Nat) (m : Mem) (L : List Nat), i + n ≤ w.pageCount →
    w.index ≤ i → MemRing w.Node m w.freeLst (L.map w.nodeAddr) → (∀ j ∈ L, j < i) →
    MemRing w.Node ((List.range' i n).foldl (fun m i => lstPushEnd m w.freeLst (w.nodeAddr i)) m)
        w.freeLst ((L ++ List.range' i n).map w.nodeAddr) ∧
      SameOutside w.Node m
        ((List.range' i n).foldl (fun m i => lstPushEnd m w.freeLst (w.nodeAddr i)) m)
  | 0, _, _, _, _, _, hr, _ => ⟨by simpa using hr, fun _ _ => rfl⟩
  | n + 1, i, m, L, hn, hi, hr, hL => by
    have hnode : w.Node (w.nodeAddr i) := .inr ⟨i, ⟨hi, by omega⟩, rfl⟩
    have hnew : w.nodeAddr i ∉ w.freeLst :: L.map w.nodeAddr :=
      w.nodeAddr_notMem (by omega) fun hm => absurd (hL i hm) (Nat.lt_irrefl i)
    obtain ⟨hr₁, ho₁⟩ := lstPushEnd_spec w.spaced hr hnode hnew
    have hr₁' : MemRing w.Node (lstPushEnd m w.freeLst (w.nodeAddr i)) w.freeLst
        ((L ++ [i]).map w.nodeAddr) := by simpa using hr₁
    obtain ⟨hr₂, ho₂⟩ := foldl_pushEnd w n (i + 1) _ (L ++ [i]) (by omega) (by omega) hr₁' (by
      intro j hj
      rcases List.mem_append.mp hj with hj | hj
      · have := hL j hj
        omega
      · rw [List.mem_singleton.mp hj]
        omega)
    rw [List.range'_succ, List.foldl_cons]
    refine ⟨by simpa using hr₂, ho₁.trans ho₂⟩

theorem Window.physToVirt_page (w : Window) {i : Nat} (hi : i < w.pageCount) :
    physToVirt (w.page i) = w.nodeAddr i := by
  have h := w.mapped
  rw [physToVirt, Window.page, Window.nodeAddr, u64Add_eq (by omega)]

theorem Window.addr_eq (w : Window) {i : Nat} (hi : i < w.pageCount) :
    u64Add w.base (u64Mul i pageSize) = w.page i := by
  have h := w.mapped
  rw [pageSize_eq, u64Mul_eq (by omega), u64Add_eq (by omega), Window.page, Nat.mul_comm]

/-- The first page behind the bitmap. -/
theorem Window.pageIndex_bitmap (w : Window) {s : PhysAlloc} (hb : s.base = w.base) :
    s.pageIndex (u64Sub (u64Add w.base w.allocSize) 1) + 1 = w.index := by
  have h₁ := w.mapped
  have h₂ := w.allocSize_le
  have h₃ := w.index_le
  have h₄ := w.aligned
  have h₅ : 1 ≤ w.allocSize := by
    unfold Window.allocSize
    omega
  have h₆ : 0 < physicalOffset := by decide
  have hlt : w.base + w.allocSize < u64Size := by omega
  have hstart : pageStart (w.base + w.allocSize - 1) = w.base + 4096 * ((w.allocSize - 1) / 4096) := by
    rw [pageStart_eq_iff (by omega)]
    omega
  rw [u64Add_eq hlt, u64Sub_eq (by omega) hlt, PhysAlloc.pageIndex, hstart, hb,
    u64Sub_eq (by omega) (by omega), pageSize_eq, Window.index]
  omega

/-- The bits after the three loops. -/
theorem Window.bits_init (w : Window) {j : Nat} (hj : j < w.allocSize * 8) :
    (decide (j ∈ List.range' w.pageCount (w.allocSize * 8 - w.pageCount)) ||
        (decide (j ∈ List.range w.index) || false)) =
      decide (j ∉ List.range' w.index (w.pageCount - w.index)) := by
  have h := w.index_le
  rw [Bool.or_false, ← Bool.decide_or]
  refine decide_eq_decide.mpr ?_
  rw [List.mem_range'_1, List.mem_range'_1, List.mem_range]
  omega

/-- **`init_phys_allocator`** threads all pages behind the bitmap into the ring, in order. -/
theorem initPhysAllocator_spec (w : Window) {s : PhysAlloc} {start size : Nat}
    (hb : w.base = pageStart start + 4096) (hc : w.pageCount = size / 4096)
    (hf : s.freeLst = w.freeLst) :
    FreeList w (s.initPhysAllocator start size)
      (List.range' w.index (w.pageCount - w.index)) := by
  have hmap := w.mapped
  have hpages := w.pages
  have hle := w.index_le
  have hcount := w.pageCount_le
  have hoff : 0 < physicalOffset := by decide
  have hstart : start < u64Size := by
    have := pageStart_le start
    rw [pageStart, pageSize_eq] at hb
    omega
  have hbase : u64Add (pageEnd start) 1 = w.base := by
    rw [pageEnd_eq hstart, u64Add_eq (by omega)]
    omega
  have halloc : physToVirt w.base = w.alloc := by
    rw [physToVirt, u64Add_eq (by omega), Window.alloc]
  have hhead : w.Node w.freeLst := .inl rfl
  obtain ⟨hr₀, -⟩ := lstInit_spec w.spaced s.mem hhead
  -- clearing the bitmap
  obtain ⟨m₀, hm₀⟩ : ∃ m₀, m₀ = (lstInit s.mem w.freeLst).fill w.alloc w.allocSize 0 := ⟨_, rfl⟩
  have hring₀ : MemRing w.Node m₀ w.freeLst [] := by
    refine hr₀.of_bitmap fun x hx => ?_
    rw [hm₀]
    exact if_neg (by omega)
  have hbits₀ : ∀ j < w.allocSize * 8, bitIsset m₀ w.alloc j = false := by
    intro j hj
    obtain ⟨-, h₁, h₂⟩ := w.byte_mem hj
    have hz : m₀ (u64Add w.alloc (j / 8)) = 0 := by
      rw [hm₀]
      exact if_pos ⟨h₁, h₂⟩
    rw [bitIsset, hz]
    simp
  -- the three loops
  obtain ⟨m₁, hm₁⟩ : ∃ m₁, m₁ = (List.range w.index).foldl (fun m i => bitSet m w.alloc i) m₀ :=
    ⟨_, rfl⟩
  obtain ⟨m₂, hm₂⟩ : ∃ m₂, m₂ = (List.range' w.index (w.pageCount - w.index)).foldl
      (fun m i => lstPushEnd m w.freeLst (w.nodeAddr i)) m₁ := ⟨_, rfl⟩
  obtain ⟨m₃, hm₃⟩ : ∃ m₃, m₃ = (List.range' w.pageCount (w.allocSize * 8 - w.pageCount)).foldl
      (fun m i => bitSet m w.alloc i) m₂ := ⟨_, rfl⟩
  have hpush : (List.range' w.index (w.pageCount - w.index)).foldl (fun m i =>
      lstPushEnd m w.freeLst (physToVirt (u64Add w.base (u64Mul i pageSize)))) m₁ = m₂ := by
    rw [hm₂]
    refine List.foldl_ext _ _ _ fun m i hi => ?_
    have hi' : i < w.pageCount := by
      rw [List.mem_range'_1] at hi
      omega
    rw [w.addr_eq hi', w.physToVirt_page hi']
  have hinit : s.initPhysAllocator start size =
      { s with base := w.base, alloc := w.alloc, allocSize := w.allocSize, mem := m₃ } := by
    unfold PhysAlloc.initPhysAllocator PhysAlloc.initLoops
    have hsz : (size / pageSize - 1) / 8 + 1 = w.allocSize := by
      rw [pageSize_eq, ← hc, Window.allocSize]
    have hmax : max w.index w.pageCount = w.pageCount := Nat.max_eq_right hle
    simp only [hbase, halloc, hf, hsz, w.pageIndex_bitmap]
    rw [if_neg (by rw [pageSize_eq]; omega), pageSize_eq, ← hc, ← pageSize_eq, ← hm₀, ← hm₁, hpush,
      hmax, ← hm₃]
  rw [hinit]
  obtain ⟨hb₁, ho₁⟩ := foldl_bitSet w (List.range w.index) m₀ fun i hi => by
    rw [List.mem_range] at hi
    omega
  obtain ⟨hb₃, ho₃⟩ := foldl_bitSet w (List.range' w.pageCount (w.allocSize * 8 - w.pageCount)) m₂
    fun i hi => by
      rw [List.mem_range'_1] at hi
      omega
  rw [← hm₁] at hb₁ ho₁
  rw [← hm₃] at hb₃ ho₃
  obtain ⟨hr₂, ho₂⟩ := foldl_pushEnd w (w.pageCount - w.index) w.index m₁ [] (by omega)
    (Nat.le_refl _) (hring₀.of_bitmap ho₁) (by simp)
  rw [List.nil_append, ← hm₂] at hr₂
  rw [← hm₂] at ho₂
  refine ⟨rfl, rfl, rfl, hf, hr₂.of_bitmap ho₃, fun i hi => ?_, fun j hj => ?_⟩
  · rw [List.mem_range'_1] at hi
    exact ⟨hi.1, by omega⟩
  · rw [hb₃ j hj, bitIsset_of_outside ho₂ hj, hb₁ j hj, hbits₀ j hj, w.bits_init hj]

/-! ## `kalloc` and `kfree` -/

section

variable {w : Window} {s : PhysAlloc} {L : List Nat}

theorem Window.page_pos (w : Window) (i : Nat) : 0 < w.page i := by
  have := w.base_pos
  unfold Window.page
  omega

theorem Window.page_inj (w : Window) {i j : Nat} (h : w.page i = w.page j) : i = j := by
  unfold Window.page at h
  omega

theorem Window.pageStart_page (w : Window) (i : Nat) : pageStart (w.page i) = w.page i := by
  refine pageStart_of_aligned ?_
  have := w.aligned
  unfold Window.page
  omega

theorem FreeList.nodup (h : FreeList w s L) : L.Nodup :=
  (List.nodup_cons.mp h.ring.ring.nodup).2.of_map _

theorem FreeList.pageIndex (h : FreeList w s L) {i : Nat} (hi : i < w.pageCount) :
    s.pageIndex (w.page i) = i := by
  have hm := w.mapped
  rw [PhysAlloc.pageIndex, w.pageStart_page, h.base, Window.page, pageSize_eq,
    u64Sub_eq (by omega) (by omega)]
  omega

/-- **`kalloc`** returns 0 when the ring is empty, else its first page. -/
theorem kalloc_nil (h : FreeList w s []) : s.kalloc = some (s, 0) := by
  have he : lstEmpty s.mem w.freeLst = true := (lstEmpty_iff h.ring).mpr rfl
  rw [PhysAlloc.kalloc, h.freeLst, if_pos he]

theorem kalloc_cons {i : Nat} (h : FreeList w s (i :: L)) :
    ∃ s', s.kalloc = some (s', w.page i) ∧ FreeList w s' L := by
  obtain ⟨m', hpop, hring, hout⟩ := lstPop_spec w.spaced h.ring
  have hi : i < w.pageCount := (h.range i List.mem_cons_self).2
  have hcount := w.pageCount_le
  have hne : ¬ lstEmpty s.mem w.freeLst = true := by
    rw [lstEmpty_iff h.ring]
    exact List.cons_ne_nil _ _
  have hvirt : virtToPhys (w.nodeAddr i) = w.page i := by
    have hm := w.mapped
    rw [virtToPhys, Window.nodeAddr, u64Sub_eq (by omega) (by omega), Window.page]
    omega
  have hbyte := w.byte_mem (show i < w.allocSize * 8 by omega)
  refine ⟨{ s with mem := bitSet m' w.alloc i }, ?_, h.base, h.alloc, h.allocSize, h.freeLst, ?_,
    fun j hj => h.range j (List.mem_cons_of_mem _ hj), fun j hj => ?_⟩
  · rw [PhysAlloc.kalloc, h.freeLst, if_neg hne, hpop]
    simp only [Option.bind_eq_bind, Option.bind_some, hvirt, h.pageIndex hi, h.alloc]
    rfl
  · refine hring.of_bitmap fun x hx => ?_
    exact Function.update_of_ne (by omega) _ _
  · have hnodup := List.nodup_cons.mp h.nodup
    rw [bitIsset_bitSet hbyte.1 (w.byte_mem hj).1, bitIsset_of_outside hout hj, h.bits j hj,
      ← Bool.decide_or]
    refine decide_eq_decide.mpr ?_
    rw [List.mem_cons]
    by_cases hji : j = i
    · subst hji
      simp [hnodup.1]
    · simp [hji]

/-- **`kfree` of a page that is free** changes nothing. -/
theorem kfree_of_mem (h : FreeList w s L) {i a : Nat} (hi : i ∈ L) (ha : pageStart a = w.page i) :
    s.kfree a = s := by
  have hlt : i < w.pageCount := (h.range i hi).2
  have hcount := w.pageCount_le
  have hbit : bitIsset s.mem w.alloc i = false := by
    rw [h.bits i (by omega)]
    exact decide_eq_false (not_not_intro hi)
  unfold PhysAlloc.kfree
  simp only [ha, h.pageIndex hlt, h.alloc, hbit]
  rfl

/-- **`kfree` of an allocated page** puts it first in the ring. -/
theorem kfree_of_notMem (h : FreeList w s L) {i a : Nat} (hr : w.Allocatable i) (hi : i ∉ L)
    (ha : pageStart a = w.page i) : FreeList w (s.kfree a) (i :: L) := by
  have hlt : i < w.pageCount := hr.2
  have hcount := w.pageCount_le
  have hbit : bitIsset s.mem w.alloc i = true := by
    rw [h.bits i (by omega)]
    exact decide_eq_true hi
  have hnew := w.nodeAddr_notMem hlt hi
  obtain ⟨hring, hout⟩ := lstPush_spec w.spaced h.ring (.inr ⟨i, hr, rfl⟩) hnew
  have hbyte := w.byte_mem (show i < w.allocSize * 8 by omega)
  have heq : s.kfree a =
      { s with mem := bitClear (lstPush s.mem w.freeLst (w.nodeAddr i)) w.alloc i } := by
    unfold PhysAlloc.kfree
    simp only [ha, h.pageIndex hlt, h.alloc, hbit, h.freeLst, w.physToVirt_page hlt]
    rfl
  rw [heq]
  refine ⟨h.base, h.alloc, h.allocSize, h.freeLst, ?_, fun j hj => ?_, fun j hj => ?_⟩
  · refine MemRing.of_bitmap (show MemRing w.Node _ w.freeLst ((i :: L).map w.nodeAddr) from hring)
      fun x hx => ?_
    exact Function.update_of_ne (by omega) _ _
  · rcases List.mem_cons.mp hj with rfl | hj
    · exact hr
    · exact h.range j hj
  · rw [bitIsset_bitClear hbyte.1 (w.byte_mem hj).1, bitIsset_of_outside hout hj, h.bits j hj,
      ← decide_not, ← Bool.decide_and]
    refine decide_eq_decide.mpr ?_
    rw [List.mem_cons, not_or]

end

/-! ## Runs -/

/-- The allocator with the pages it has given out, and those of them that were not freed since. -/
structure PhysRun where
  s : PhysAlloc
  given : List Nat
  held : List Nat

/-- A byte that does not belong to the allocator: it is in a page that is held, or outside the
managed memory and `free_lst`. -/
def Foreign (w : Window) (held : List Nat) (x : Nat) : Prop :=
  (∃ p ∈ held, physToVirt p ≤ x ∧ x < physToVirt p + 4096) ∨
    ((x < w.alloc ∨ w.alloc + 4096 * w.pageCount ≤ x) ∧ (x < w.freeLst ∨ w.freeLst + 16 ≤ x))

/-- One step: a `kalloc`, a `kfree` of an address in a page that was given out, or writes of the
others to their own memory. -/
inductive PhysStep (w : Window) : PhysRun → PhysRun → Prop
  | kalloc {r : PhysRun} {s' : PhysAlloc} {page : Nat} (h : r.s.kalloc = some (s', page))
      (hp : page ≠ 0) : PhysStep w r ⟨s', page :: r.given, page :: r.held⟩
  | exhausted {r : PhysRun} {s' : PhysAlloc} (h : r.s.kalloc = some (s', 0)) :
      PhysStep w r ⟨s', r.given, r.held⟩
  | kfree {r : PhysRun} (a : Nat) (h : pageStart a ∈ r.given) :
      PhysStep w r ⟨r.s.kfree a, r.given, r.held.filter (· ≠ pageStart a)⟩
  | write {r : PhysRun} (m : Mem) (h : ∀ x, ¬ Foreign w r.held x → m x = r.s.mem x) :
      PhysStep w r ⟨{ r.s with mem := m }, r.given, r.held⟩

/-- The runs from `r`. -/
inductive PhysReach (w : Window) (r : PhysRun) : PhysRun → Prop
  | refl : PhysReach w r r
  | tail {r₁ r₂ : PhysRun} (h : PhysReach w r r₁) (h' : PhysStep w r₁ r₂) : PhysReach w r r₂

/-- What every reachable state satisfies: the ring's pages are those that are not held. -/
structure PhysInv (w : Window) (r : PhysRun) (L : List Nat) : Prop where
  free : FreeList w r.s L
  given : ∀ p ∈ r.given, ∃ i, w.Allocatable i ∧ p = w.page i
  held : ∀ p ∈ r.held, p ∈ r.given
  mem_iff : ∀ i, w.Allocatable i → (i ∈ L ↔ w.page i ∉ r.held)

/-- The allocator does not see what others write. -/
theorem FreeList.write {w : Window} {r : PhysRun} {L : List Nat} (h : PhysInv w r L) {m : Mem}
    (hm : ∀ x, ¬ Foreign w r.held x → m x = r.s.mem x) : FreeList w { r.s with mem := m } L := by
  have hheld : ∀ p ∈ r.held, ∃ i, w.Allocatable i ∧ i ∉ L ∧ physToVirt p = w.nodeAddr i := by
    intro p hp
    obtain ⟨i, hi, rfl⟩ := h.given p (h.held p hp)
    exact ⟨i, hi, fun hL => (h.mem_iff i hi).mp hL hp, w.physToVirt_page hi.2⟩
  refine ⟨h.free.base, h.free.alloc, h.free.allocSize, h.free.freeLst, ?_, h.free.range, ?_⟩
  · refine h.free.ring.congr fun a ha x hx hx' => hm x ?_
    rintro (⟨p, hp, h₁, h₂⟩ | ⟨h₁, h₂⟩)
    · obtain ⟨i, hi, hiL, he⟩ := hheld p hp
      have hlt := hi.2
      rw [he] at h₁ h₂
      rcases List.mem_cons.mp ha with rfl | ha
      · have hd := w.head_apart
        unfold Window.nodeAddr at h₁ h₂
        rcases hd with hd | hd <;> omega
      · obtain ⟨j, hj, rfl⟩ := List.mem_map.mp ha
        have hij : i = j := by
          unfold Window.nodeAddr at h₁ h₂ hx hx'
          omega
        exact hiL (hij ▸ hj)
    · rcases List.mem_cons.mp ha with rfl | ha
      · omega
      · obtain ⟨j, hj, rfl⟩ := List.mem_map.mp ha
        have hlt := (h.free.range j hj).2
        unfold Window.nodeAddr at hx hx'
        unfold Window.alloc at h₁
        omega
  · intro j hj
    obtain ⟨-, hx, hx'⟩ := w.byte_mem hj
    have hsz := w.allocSize_le
    have hle := w.index_le
    rw [← h.free.bits j hj]
    refine bitIsset_congr (hm _ ?_)
    rintro (⟨p, hp, h₁, h₂⟩ | ⟨h₁, h₂⟩)
    · obtain ⟨i, hi, -, he⟩ := hheld p hp
      have hge := hi.1
      rw [he] at h₁
      unfold Window.nodeAddr at h₁
      have ha : w.alloc = w.base + physicalOffset := rfl
      omega
    · omega

/-- **Every step keeps the invariant.** -/
theorem PhysInv.step {w : Window} {r r' : PhysRun} {L : List Nat} (h : PhysInv w r L)
    (hstep : PhysStep w r r') : ∃ L', PhysInv w r' L' := by
  cases hstep with
  | @kalloc s' page hk hp =>
    cases L with
    | nil =>
      rw [kalloc_nil h.free, Option.some.injEq, Prod.mk.injEq] at hk
      exact absurd hk.2.symm hp
    | cons i L =>
      obtain ⟨s'', hk', hfree⟩ := kalloc_cons h.free
      rw [hk', Option.some.injEq, Prod.mk.injEq] at hk
      obtain ⟨rfl, rfl⟩ := hk
      have hi := h.free.range i List.mem_cons_self
      have hnodup := List.nodup_cons.mp h.free.nodup
      refine ⟨L, hfree, fun p hp => ?_, fun p hp => ?_, fun j hj => ?_⟩
      · rcases List.mem_cons.mp hp with rfl | hp
        · exact ⟨i, hi, rfl⟩
        · exact h.given p hp
      · rcases List.mem_cons.mp hp with rfl | hp
        · exact List.mem_cons_self
        · exact List.mem_cons_of_mem _ (h.held p hp)
      · have hiff := h.mem_iff j hj
        rw [List.mem_cons, not_or]
        by_cases hji : j = i
        · subst hji
          simp [hnodup.1]
        · have hpne : w.page j ≠ w.page i := fun e => hji (w.page_inj e)
          rw [← hiff, List.mem_cons]
          simp [hji, hpne]
  | @exhausted s' hk =>
    cases L with
    | nil =>
      rw [kalloc_nil h.free, Option.some.injEq, Prod.mk.injEq] at hk
      obtain ⟨rfl, -⟩ := hk
      exact ⟨[], h⟩
    | cons i L =>
      obtain ⟨s'', hk', -⟩ := kalloc_cons h.free
      rw [hk', Option.some.injEq, Prod.mk.injEq] at hk
      have := w.page_pos i
      omega
  | kfree a ha =>
    obtain ⟨i, hi, he⟩ := h.given _ ha
    have hheld : ∀ p ∈ r.held.filter (· ≠ pageStart a), p ∈ r.given := fun p hp =>
      h.held p (List.mem_filter.mp hp).1
    by_cases hL : i ∈ L
    · have hout := (h.mem_iff i hi).mp hL
      refine ⟨L, ?_, h.given, hheld, fun j hj => ?_⟩
      · rw [kfree_of_mem h.free hL he]
        exact h.free
      · rw [h.mem_iff j hj, List.mem_filter, he]
        simp only [ne_eq, decide_not, Bool.not_eq_true', decide_eq_false_iff_not, not_and, not_not]
        constructor
        · intro hn hm
          exact absurd hm hn
        · intro hn hm
          exact hout (hn hm ▸ hm)
    · refine ⟨i :: L, kfree_of_notMem h.free hi hL he, h.given, hheld, fun j hj => ?_⟩
      rw [List.mem_cons, h.mem_iff j hj, List.mem_filter, he]
      simp only [ne_eq, decide_not, Bool.not_eq_true', decide_eq_false_iff_not, not_and, not_not]
      constructor
      · rintro (rfl | hn) hm
        · rfl
        · exact absurd hm hn
      · intro hn
        by_cases hm : w.page j ∈ r.held
        · exact .inl (w.page_inj (hn hm))
        · exact .inr hm
  | write m hm => exact ⟨L, FreeList.write h hm, h.given, h.held, h.mem_iff⟩

theorem PhysInv.reach {w : Window} {r r' : PhysRun} {L : List Nat} (h : PhysInv w r L)
    (hreach : PhysReach w r r') : ∃ L', PhysInv w r' L' := by
  induction hreach with
  | refl => exact ⟨L, h⟩
  | tail _ hstep ih =>
    obtain ⟨L₁, h₁⟩ := ih
    exact h₁.step hstep

theorem PhysInv.init (w : Window) {s : PhysAlloc} {start size : Nat}
    (hb : w.base = pageStart start + 4096) (hc : w.pageCount = size / 4096)
    (hf : s.freeLst = w.freeLst) :
    PhysInv w ⟨s.initPhysAllocator start size, [], []⟩
      (List.range' w.index (w.pageCount - w.index)) := by
  refine ⟨initPhysAllocator_spec w hb hc hf, by simp, by simp, fun i hi => ?_⟩
  have hle := w.index_le
  obtain ⟨h₁, h₂⟩ := hi
  rw [List.mem_range'_1]
  simp only [List.not_mem_nil, not_false_eq_true, iff_true]
  omega

/-- What the allocator promises in a state: `L` are the pages of the ring. -/
structure Sound (w : Window) (r : PhysRun) (L : List Nat) : Prop where
  ring : LinkRing (lstNext r.s.mem) (lstPrev r.s.mem) r.s.freeLst (L.map w.nodeAddr)
  nodup : L.Nodup
  clear_iff : ∀ i < w.pageCount, (i ∈ L ↔ bitIsset r.s.mem r.s.alloc i = false)
  not_bitmap : ∀ i, physToVirt (w.page i) < r.s.alloc + r.s.allocSize → i < w.pageCount → i ∉ L
  not_padding : ∀ i, w.pageCount ≤ i → i ∉ L
  padding : ∀ i, w.pageCount ≤ i → i < r.s.allocSize * 8 → bitIsset r.s.mem r.s.alloc i = true
  kalloc : ∃ s' page, r.s.kalloc = some (s', page) ∧ page ∉ r.held ∧
    (page ≠ 0 → ∃ i, w.Allocatable i ∧ page = w.page i) ∧
    (page = 0 ↔ ∀ i, w.Allocatable i → w.page i ∈ r.held)
  kfree : ∀ a, pageStart a ∈ r.given → pageStart a ∉ r.held → r.s.kfree a = r.s

theorem PhysInv.sound {w : Window} {r : PhysRun} {L : List Nat} (h : PhysInv w r L) :
    Sound w r L := by
  have hcount := w.pageCount_le
  constructor
  · rw [h.free.freeLst]
    exact h.free.ring.ring
  · exact h.free.nodup
  · intro i hi
    rw [h.free.alloc, h.free.bits i (by omega), decide_eq_false_iff_not, not_not]
  · intro i hi hlt hL
    obtain ⟨hge, -⟩ := h.free.range i hL
    rw [w.physToVirt_page hlt, h.free.alloc, h.free.allocSize] at hi
    have := w.allocSize_le
    unfold Window.nodeAddr Window.alloc at hi
    omega
  · intro i hi hL
    have := (h.free.range i hL).2
    omega
  · intro i hi hlt
    rw [h.free.allocSize] at hlt
    rw [h.free.alloc, h.free.bits i hlt, decide_eq_true_iff]
    intro hL
    have := (h.free.range i hL).2
    omega
  · have hpos : ∀ p ∈ r.held, p ≠ 0 := by
      intro p hp
      obtain ⟨i, -, rfl⟩ := h.given p (h.held p hp)
      have := w.page_pos i
      omega
    cases L with
    | nil =>
      refine ⟨r.s, 0, kalloc_nil h.free, fun hm => hpos 0 hm rfl, fun h0 => absurd rfl h0, ?_⟩
      simp only [true_iff]
      intro i hi
      by_contra hn
      exact absurd ((h.mem_iff i hi).mpr hn) (by simp)
    | cons i L =>
      obtain ⟨s', hk, -⟩ := kalloc_cons h.free
      have hi := h.free.range i List.mem_cons_self
      have hout := (h.mem_iff i hi).mp List.mem_cons_self
      refine ⟨s', w.page i, hk, hout, fun _ => ⟨i, hi, rfl⟩, ?_⟩
      constructor
      · intro h0
        have := w.page_pos i
        omega
      · intro hall
        exact absurd (hall i hi) hout
  · intro a hg hn
    obtain ⟨i, hi, he⟩ := h.given _ hg
    exact kfree_of_mem h.free ((h.mem_iff i hi).mpr (he ▸ hn)) he

/-- **The page allocator is sound along every run** of `kalloc`, `kfree` of any address in a page
given out before, and writes of the pages' owners: ring and bitmap agree, no page is given out
twice, `kalloc` fails only when all pages are held, and freeing a free page does nothing. -/
theorem phys_allocator_sound (w : Window) {s : PhysAlloc} {start size : Nat} {r : PhysRun}
    (hb : w.base = pageStart start + 4096) (hc : w.pageCount = size / 4096)
    (hf : s.freeLst = w.freeLst)
    (hr : PhysReach w ⟨s.initPhysAllocator start size, [], []⟩ r) : ∃ L, Sound w r L := by
  obtain ⟨L, h⟩ := (PhysInv.init w hb hc hf).reach hr
  exact ⟨L, h.sound⟩

/-- A window of three pages, the first of which has the bitmap. -/
def smallWindow : Window where
  base := 0x2000
  pageCount := 3
  freeLst := 0x100
  aligned := rfl
  base_pos := by decide
  pages := by decide
  mapped := by decide
  head_pos := by decide
  head_lt := by decide
  head_apart := .inl (by decide)

/-- The allocator before its initialisation. -/
def bootAlloc : PhysAlloc where
  mem := fun _ => 0
  base := 0
  alloc := 0
  allocSize := 0
  freeLst := 0x100

/-- In the small window a `kalloc` and a `kfree` of the page are such a run. -/
theorem phys_allocator_sound_small :
    ∃ r L, PhysReach smallWindow ⟨bootAlloc.initPhysAllocator 0x1234 0x3fff, [], []⟩ r ∧
      r.given = [0x3000] ∧ r.held = [] ∧ Sound smallWindow r L := by
  have hfree : FreeList smallWindow (bootAlloc.initPhysAllocator 0x1234 0x3fff) [1, 2] :=
    initPhysAllocator_spec smallWindow rfl rfl rfl
  obtain ⟨s', hk, -⟩ := kalloc_cons hfree
  have hpage : smallWindow.page 1 = 0x3000 := rfl
  have hstart : pageStart 0x3abc = 0x3000 := rfl
  rw [hpage] at hk
  have hreach : PhysReach smallWindow ⟨bootAlloc.initPhysAllocator 0x1234 0x3fff, [], []⟩
      ⟨s'.kfree 0x3abc, [0x3000], [0x3000].filter (· ≠ pageStart 0x3abc)⟩ :=
    .tail (.tail .refl (.kalloc hk (by decide))) (.kfree 0x3abc (by simp [hstart]))
  obtain ⟨L, h⟩ := phys_allocator_sound smallWindow rfl rfl rfl hreach
  exact ⟨_, L, hreach, rfl, by simp [hstart], h⟩

end Colibri.Memory
