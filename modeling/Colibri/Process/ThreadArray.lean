import Colibri.Lib.Run
import Colibri.Libc.Memmove
import Colibri.Process.OutOfMemory

/-!
# Thread arrays (`kernel/process.c`)

`remove` and `remove_el`, and runs of `add` and `remove_el` on an array that `init_thread_array` made.
A call comes with its accesses to `array->data`: the index of each and the capacity at the time.
`realloc` is the one of the heap; a run is about the calls of it that succeed (`Regrows`).

## Results

* `Threads.remove`, `Threads.removeEl`: what is removed from the array is erased from the list.
* `Threads.add`: what is added is appended to it.
* `threadArray_run`: a run is one of lists, and no access is out of bounds.
-/

namespace Colibri

open Colibri.Lib Colibri.Libc Colibri.Memory

/-- An access to `array->data`: the index, and the capacity at the time. -/
structure Access where
  index : Nat
  capacity : Nat

/-- The access is in bounds. -/
def Access.InBounds (a : Access) : Prop := a.index < a.capacity

namespace Kernel

/-- `&array->data[i]`. -/
def arraySlot (s : Kernel) (array i : Nat) : Nat := u64Add (s.arrayData array) (8 * i)

/-- The accesses to `n` elements from `i` on. -/
def accesses (s : Kernel) (array i n : Nat) : List Access :=
  (List.range n).map fun j => ⟨i + j, s.arrayCapacity array⟩

/-- `array->len--`. -/
def decrLen (s : Kernel) (array : Nat) : Kernel := s.write array [⟨8, 8, u64Decr (s.arrayLen array)⟩]

/-- `remove`. -/
def remove (s : Kernel) (array index : Nat) : Kernel × List Access :=
  if index = u64Sub (s.arrayLen array) 1 then
    ((s.write (s.arraySlot array index) [⟨0, 8, 0⟩]).decrLen array, s.accesses array index 1)
  else
    let size := u64Mul 8 (u64Sub (u64Sub (s.arrayLen array) index) 1)
    let mem := memmove s.heap.mem (s.arraySlot array index) (s.arraySlot array (index + 1)) size
    (({ s with heap := { s.heap with mem } } : Kernel).decrLen array,
      s.accesses array (index + 1) (size / 8) ++ s.accesses array index (size / 8))

/-- The loop of `remove_el` from `i` on, with `n` elements left. -/
def removeElLoop (s : Kernel) (array t : Nat) : Nat → Nat → Kernel × List Access
  | 0, _ => (s, [])
  | n + 1, i =>
    let r := if s.heap.mem.load (s.arraySlot array i) 8 = t then s.remove array i
      else removeElLoop s array t n (i + 1)
    (r.1, s.accesses array i 1 ++ r.2)

/-- `remove_el`. -/
def removeEl (s : Kernel) (array t : Nat) : Kernel × List Access :=
  s.removeElLoop array t (s.arrayLen array) 0

end Kernel

/-- The calls on a thread array. -/
inductive ArrayOp
  | add (t : Nat)
  | removeEl (t : Nat)

/-- One call. `add` writes the element behind the last, once there is room for it. -/
def arrayStep (array : Nat) (s : Kernel) : ArrayOp → Option (Kernel × List Access)
  | .add t => (s.add array t).map fun s' => (s', s'.accesses array (s.arrayLen array) 1)
  | .removeEl t => some (s.removeEl array t)

/-- The call on the list of the threads. -/
def listStep (L : List Nat) : ArrayOp → List Nat
  | .add t => L ++ [t]
  | .removeEl t => L.erase t

/-! ## Allocations that succeed -/

/-- `alloc` gives `init_thread_array` a block apart from the array's own fields, which are kept. -/
structure Allocates (s : Kernel) (array : Nat) (s' : Kernel) (p : Nat) : Prop where
  alloc : (s.write array [⟨16, 8, 8⟩, ⟨8, 8, 0⟩]).alloc threadArraySize = some (s', p)
  fields : ∀ i, array ≤ i → i < array + 24 →
    s'.heap.mem i = (s.write array [⟨16, 8, 8⟩, ⟨8, 8, 0⟩]).heap.mem i
  notNull : p ≠ 0
  room : p + threadArraySize ≤ u64Size
  apart : Mem.Disjoint p threadArraySize array 24

/-- `realloc` of the data of the array for twice the capacity: there is such a block, apart from the
array's own fields, which are kept, and it holds what the old one did. -/
structure Regrows (s : Kernel) (array : Nat) (heap : Heap) (p : Nat) : Prop where
  notNull : p ≠ 0
  room : p + 8 * (2 * s.arrayCapacity array) ≤ u64Size
  apart : Mem.Disjoint p (8 * (2 * s.arrayCapacity array)) array 24
  realloc : (s.write array [⟨16, 8, u64Mul (s.arrayCapacity array) 2⟩]).heap.realloc
    (s.arrayData array) (s.doubled array) = some (heap, p)
  fields : ∀ i, array ≤ i → i < array + 24 →
    heap.mem i = (s.write array [⟨16, 8, u64Mul (s.arrayCapacity array) 2⟩]).heap.mem i
  contents : ∀ i < 8 * s.arrayLen array, heap.mem (p + i) = s.heap.mem (s.arrayData array + i)

/-- A thread is at a `u64` address, and where the array is full `realloc` succeeds. -/
def ReallocSucceeds (array : Nat) (s : Kernel) : ArrayOp → Prop
  | .add t => t < u64Size ∧
    (s.arrayCapacity array ≤ s.arrayLen array → ∃ heap p, Regrows s array heap p)
  | .removeEl _ => True

/-- What `Regrows` asks of the result of `realloc`, as it is checked. -/
def GrownTo (s : Kernel) (array : Nat) (r : Heap × Nat) : Prop :=
  r.2 ≠ 0 ∧ r.2 + 8 * (2 * s.arrayCapacity array) ≤ u64Size ∧
    Mem.Disjoint r.2 (8 * (2 * s.arrayCapacity array)) array 24 ∧
    (∀ i < 24, r.1.mem (array + i) =
      (s.write array [⟨16, 8, u64Mul (s.arrayCapacity array) 2⟩]).heap.mem (array + i)) ∧
    ∀ i < 8 * s.arrayLen array, r.1.mem (r.2 + i) = s.heap.mem (s.arrayData array + i)

instance (s : Kernel) (array : Nat) (r : Heap × Nat) : Decidable (GrownTo s array r) :=
  inferInstanceAs (Decidable (_ ∧ _ ∧ _ ∧ _ ∧ _))

theorem exists_regrows_iff {s : Kernel} {array : Nat} : (∃ heap p, Regrows s array heap p) ↔
    ((s.write array [⟨16, 8, u64Mul (s.arrayCapacity array) 2⟩]).heap.realloc (s.arrayData array)
      (s.doubled array)).any fun r => decide (GrownTo s array r) := by
  rw [Option.any_eq_true]
  constructor
  · rintro ⟨heap, p, h⟩
    refine ⟨(heap, p), h.realloc, decide_eq_true ⟨h.notNull, h.room, h.apart, fun i hi => ?_,
      h.contents⟩⟩
    exact h.fields (array + i) (Nat.le_add_right _ _) (Nat.add_lt_add_left hi _)
  · rintro ⟨⟨heap, p⟩, hrun, hr⟩
    obtain ⟨hne, hroom, hap, hfields, hcontents⟩ := of_decide_eq_true hr
    refine ⟨heap, p, hne, hroom, hap, hrun, fun i hi hi' => ?_, hcontents⟩
    obtain ⟨j, rfl⟩ := Nat.exists_eq_add_of_le hi
    exact hfields j (Nat.lt_of_add_lt_add_left hi')

instance (s : Kernel) (array : Nat) : Decidable (∃ heap p, Regrows s array heap p) :=
  decidable_of_iff _ exists_regrows_iff.symm

instance (array : Nat) (s : Kernel) : ∀ op, Decidable (ReallocSucceeds array s op)
  | .add t => inferInstanceAs (Decidable (t < u64Size ∧
      (s.arrayCapacity array ≤ s.arrayLen array → ∃ heap p, Regrows s array heap p)))
  | .removeEl _ => inferInstanceAs (Decidable True)

/-! ## The list of an array -/

/-- The first elements of the array at `array` are `L`; its data is at `d`. -/
structure Threads (m : Mem) (array d cap : Nat) (L : List Nat) : Prop where
  data : m.load array 8 = d
  len : m.load (array + 8) 8 = L.length
  capacity : m.load (array + 16) 8 = cap
  notNull : d ≠ 0
  pos : 0 < cap
  le : L.length ≤ cap
  room : d + 8 * cap ≤ u64Size
  apart : Mem.Disjoint d (8 * cap) array 24
  entries : ∀ i, (h : i < L.length) → m.load (d + 8 * i) 8 = L[i]

namespace Threads

variable {m m₁ : Mem} {s : Kernel} {array d cap t x : Nat} {L A B : List Nat}

/-- Elements are changed, and then the length. -/
theorem setLen {L' : List Nat} (h : Threads m array d cap L)
    (hm : ∀ i, i < d ∨ d + 8 * cap ≤ i → m₁ i = m i) (hle : L'.length ≤ cap)
    (hentries : ∀ i, (h : i < L'.length) → m₁.load (d + 8 * i) 8 = L'[i]) :
    Threads (m₁.store (array + 8) 8 L'.length) array d cap L' := by
  have hap := h.apart
  have hroom := h.room
  rw [Mem.Disjoint] at hap
  have hfield : ∀ k, k + 8 ≤ 24 → m₁.load (array + k) 8 = m.load (array + k) 8 := fun k hk =>
    Mem.load_congr fun i hi hi' => hm i (by omega)
  refine ⟨?_, ?_, ?_, h.notNull, h.pos, hle, hroom, h.apart, fun i hi => ?_⟩
  · rw [Mem.load_store_of_disjoint (.inr (Nat.le_refl _))]
    exact (hfield 0 (by omega)).trans h.data
  · have hlt : L'.length < 256 ^ 8 := by
      have hsize := u64Size_eq
      omega
    rw [Mem.load_store, Nat.mod_eq_of_lt hlt]
  · rw [Mem.load_store_of_disjoint (.inl (by omega)), hfield 16 (by omega), h.capacity]
  · rw [Mem.load_store_of_disjoint (by rw [Mem.Disjoint]; omega), hentries i hi]

theorem slot (h : Threads s.heap.mem array d cap L) {i : Nat} (hi : i < cap) :
    s.arraySlot array i = d + 8 * i := by
  have hroom := h.room
  have hdata : s.arrayData array = d := h.data
  rw [Kernel.arraySlot, hdata, u64Add_eq (by omega)]

/-- Accesses to elements below the capacity. -/
theorem inBounds (h : Threads s.heap.mem array d cap L) {i n : Nat} (hn : i + n ≤ cap) :
    ∀ a ∈ s.accesses array i n, a.InBounds := by
  intro a ha
  obtain ⟨j, hj, rfl⟩ := List.mem_map.mp ha
  have hcap : s.arrayCapacity array = cap := h.capacity
  have hlt := List.mem_range.mp hj
  rw [Access.InBounds, hcap]
  dsimp only
  omega

/-- `len--`, where the elements have been changed. -/
theorem decrLen {L' : List Nat} (h : Threads s.heap.mem array d cap L)
    (hm : ∀ i, i < d ∨ d + 8 * cap ≤ i → m₁ i = s.heap.mem i) (hlen : L.length = L'.length + 1)
    (hentries : ∀ i, (h : i < L'.length) → m₁.load (d + 8 * i) 8 = L'[i]) :
    Threads (({ s with heap := { s.heap with mem := m₁ } } : Kernel).decrLen array).heap.mem array d
      cap L' := by
  have hap := h.apart
  have hle := h.le
  have hroom := h.room
  rw [Mem.Disjoint] at hap
  have hload : m₁.load (array + 8) 8 = L'.length + 1 := by
    rw [← hlen, ← h.len]
    exact Mem.load_congr fun i hi hi' => hm i (by omega)
  have hdecr : u64Decr (m₁.load (array + 8) 8) = L'.length := by
    rw [hload, u64Decr_succ (by omega)]
  have hthreads := h.setLen hm (by omega) hentries
  rw [← hdecr] at hthreads
  exact hthreads

/-- The bytes that `remove` moves. -/
theorem movedSize (h : Threads s.heap.mem array d cap L) {i : Nat} (hi : i < L.length) :
    u64Mul 8 (u64Sub (u64Sub (s.arrayLen array) i) 1) = 8 * (L.length - i - 1) := by
  have hle := h.le
  have hroom := h.room
  have hlen : s.arrayLen array = L.length := h.len
  rw [hlen, u64Sub_eq (a := L.length) (b := i) (by omega) (by omega),
    u64Sub_eq (by omega) (by omega), u64Mul_eq (by omega)]

/-- **`remove`** takes out the element at its index. -/
theorem remove (h : Threads s.heap.mem array d cap (A ++ x :: B)) :
    Threads (s.remove array A.length).1.heap.mem array d cap (A ++ B) ∧
      ∀ a ∈ (s.remove array A.length).2, a.InBounds := by
  have hle := h.le
  have hroom := h.room
  have hlen : s.arrayLen array = A.length + (B.length + 1) := by
    rw [Kernel.arrayLen, h.len, List.length_append, List.length_cons]
  rw [List.length_append, List.length_cons] at hle
  have hlast : u64Sub (s.arrayLen array) 1 = A.length + B.length := by
    rw [hlen, u64Sub_eq (by omega) (by omega)]
    omega
  have hlength : (A ++ x :: B).length = (A ++ B).length + 1 := by simp; omega
  have hslot : s.arraySlot array A.length = d + 8 * A.length := h.slot (by omega)
  -- the elements in front stay where they are
  have hfront : ∀ i, (hi : i < A.length) → s.heap.mem.load (d + 8 * i) 8 = A[i] := by
    intro i hi
    rw [h.entries i (by simp; omega), List.getElem_append_left hi]
  rw [Kernel.remove, hlast]
  cases B with
  | nil =>
    rw [List.length_nil, Nat.add_zero, if_pos rfl, hslot]
    have hstore : Threads (({ s with heap := { s.heap with
        mem := s.heap.mem.store (d + 8 * A.length) 8 0 } } : Kernel).decrLen array).heap.mem array d
        cap (A ++ []) := by
      refine h.decrLen (fun i hi => Mem.store_of_notMem ?_) hlength fun i hi => ?_
      · rw [List.length_nil] at hle
        omega
      · simp only [List.append_nil] at hi ⊢
        rw [Mem.load_store_of_disjoint (.inr (by omega)), hfront i hi]
    exact ⟨hstore, h.inBounds (by rw [List.length_nil] at hle; omega)⟩
  | cons y B =>
    rw [List.length_cons] at hle hlen hlast ⊢
    have hne : A.length ≠ A.length + (B.length + 1) := by omega
    have hsize : u64Mul 8 (u64Sub (u64Sub (s.arrayLen array) A.length) 1) = 8 * (B.length + 1) := by
      rw [h.movedSize (by simp), List.length_append, List.length_cons, List.length_cons,
        Nat.add_sub_cancel_left, Nat.add_sub_cancel]
    have hslot' : s.arraySlot array (A.length + 1) = d + 8 * (A.length + 1) := h.slot (by omega)
    rw [if_neg hne, hsize, hslot, hslot']
    simp only [memmove_eq, Nat.mul_div_cancel_left _ (show 0 < 8 by decide)]
    refine ⟨h.decrLen (fun i hi => Mem.copy_of_notMem (by omega)) hlength fun i hi => ?_, ?_⟩
    · rw [List.length_append, List.length_cons] at hi
      rcases Nat.lt_or_ge i A.length with hlt | hge
      · rw [List.getElem_append_left hlt, ← hfront i hlt]
        exact Mem.load_congr fun j _ hj => Mem.copy_of_notMem (.inl (by omega))
      · have hnext := h.entries (i + 1) (by simp; omega)
        rw [List.getElem_append_right (by omega)] at hnext ⊢
        have hpred : i + 1 - A.length = i - A.length + 1 := by omega
        simp only [hpred, List.getElem_cons_succ] at hnext
        have hdst : d + 8 * i = d + 8 * A.length + 8 * (i - A.length) := by omega
        have hsrc : d + 8 * (i + 1) = d + 8 * (A.length + 1) + 8 * (i - A.length) := by omega
        rw [← hnext, hdst, hsrc]
        exact Mem.load_copy (by omega)
    · intro a ha
      rcases List.mem_append.mp ha with ha | ha
      · exact h.inBounds (by omega) a ha
      · exact h.inBounds (by omega) a ha

/-- The loop of `remove_el` where the elements in front are others. -/
theorem removeElLoop (h : Threads s.heap.mem array d cap (A ++ B)) (hA : t ∉ A) :
    Threads (s.removeElLoop array t B.length A.length).1.heap.mem array d cap ((A ++ B).erase t) ∧
      ∀ a ∈ (s.removeElLoop array t B.length A.length).2, a.InBounds := by
  rw [List.erase_append_right B hA]
  induction B generalizing A with
  | nil => exact ⟨h, by simp [Kernel.removeElLoop]⟩
  | cons x B ih =>
    have hle := h.le
    rw [List.length_append, List.length_cons] at hle
    have hslot : s.arraySlot array A.length = d + 8 * A.length := h.slot (by omega)
    have hx : s.heap.mem.load (d + 8 * A.length) 8 = x := by
      rw [h.entries A.length (by simp), List.getElem_append_right (Nat.le_refl _)]
      simp
    have hhead : ∀ a ∈ s.accesses array A.length 1, a.InBounds := h.inBounds (by omega)
    rw [List.length_cons, Kernel.removeElLoop, hslot, hx]
    by_cases hxt : x = t
    · obtain ⟨hrest, hbounds⟩ := h.remove
      simp only [if_pos hxt]
      rw [hxt, List.erase_cons_head]
      exact ⟨hrest, fun a ha => (List.mem_append.mp ha).elim (hhead a) (hbounds a)⟩
    · have hassoc : A ++ x :: B = (A ++ [x]) ++ B := by simp
      have hnot : t ∉ A ++ [x] := by
        rw [List.mem_append, List.mem_singleton, not_or]
        exact ⟨hA, Ne.symm hxt⟩
      rw [hassoc] at h
      obtain ⟨hrest, hbounds⟩ := ih h hnot
      rw [List.length_append, List.length_singleton] at hrest hbounds
      simp only [if_neg hxt]
      rw [List.erase_cons_tail (by simpa using hxt), List.append_cons]
      exact ⟨hrest, fun a ha => (List.mem_append.mp ha).elim (hhead a) (hbounds a)⟩

/-- **`remove_el`** erases the thread from the list. -/
theorem removeEl (h : Threads s.heap.mem array d cap L) :
    Threads (s.removeEl array t).1.heap.mem array d cap (L.erase t) ∧
      ∀ a ∈ (s.removeEl array t).2, a.InBounds := by
  have hlen : s.arrayLen array = L.length := h.len
  rw [Kernel.removeEl, hlen]
  exact removeElLoop (A := []) h List.not_mem_nil

/-- The element behind the last is written, and then the length. -/
theorem append (h : Threads s.heap.mem array d cap L) (hlt : L.length < cap) (ht : t < u64Size) :
    Threads ((s.write (u64Add d (8 * L.length)) [⟨0, 8, t⟩]).write array
      [⟨8, 8, u64Incr L.length⟩]).heap.mem array d cap (L ++ [t]) := by
  have hroom := h.room
  have hlength : (L ++ [t]).length = L.length + 1 := by simp
  rw [u64Add_eq (by omega), u64Incr_eq (by omega), ← hlength]
  refine h.setLen (fun i hi => Mem.store_of_notMem ?_) (by omega) fun i hi => ?_
  · dsimp only
    omega
  · rw [hlength] at hi
    rcases Nat.lt_or_ge i L.length with hin | hge
    · rw [List.getElem_append_left hin, ← h.entries i hin]
      exact Mem.load_store_of_disjoint (.inr (by omega))
    · obtain rfl : i = L.length := by omega
      have ht' : t < 256 ^ 8 := ht
      rw [List.getElem_concat_length rfl]
      exact (Mem.load_store _ _ _ _).trans (Nat.mod_eq_of_lt ht')

/-- The array in the block that `realloc` returned. -/
theorem regrow {heap : Heap} {p : Nat} (h : Threads s.heap.mem array d cap L)
    (hr : Regrows s array heap p) :
    Threads (heap.mem.store array 8 p) array p (2 * cap) L := by
  obtain ⟨hnull, hroom, hap, -, hfields, hcontents⟩ := hr
  have hcap : s.arrayCapacity array = cap := h.capacity
  have hlen : s.arrayLen array = L.length := h.len
  have hdata : s.arrayData array = d := h.data
  have hpos := h.pos
  have hle := h.le
  rw [hcap] at hroom hap hfields
  rw [hlen, hdata] at hcontents
  rw [Mem.Disjoint] at hap
  rw [u64Mul_eq (by omega)] at hfields
  have hfield : ∀ k, k + 8 ≤ 24 → heap.mem.load (array + k) 8 =
      (s.heap.mem.store (array + 16) 8 (cap * 2)).load (array + k) 8 := fun k hk =>
    Mem.load_congr fun i hi hi' => hfields i (by omega) (by omega)
  refine ⟨?_, ?_, ?_, hnull, by omega, by omega, hroom, hap, fun i hi => ?_⟩
  · rw [Mem.load_store, Nat.mod_eq_of_lt (show p < 256 ^ 8 from u64Size_eq_pow ▸ by omega)]
  · rw [Mem.load_store_of_disjoint (.inl (Nat.le_refl _)), hfield 8 (by omega),
      Mem.load_store_of_disjoint (.inr (by omega)), h.len]
  · rw [Mem.load_store_of_disjoint (.inl (by omega)), hfield 16 (by omega), Mem.load_store,
      Nat.mod_eq_of_lt (show cap * 2 < 256 ^ 8 from u64Size_eq_pow ▸ by omega), Nat.mul_comm]
  · rw [Mem.load_store_of_disjoint (by rw [Mem.Disjoint]; omega), ← h.entries i hi]
    refine Mem.load_eq_load fun j hj => ?_
    have hbyte := hcontents (8 * i + j) (by omega)
    rwa [← Nat.add_assoc, ← Nat.add_assoc] at hbyte

/-- **`add`** appends the thread to the list, and doubles the capacity before if it has to. -/
theorem add (h : Threads s.heap.mem array d cap L) (hok : ReallocSucceeds array s (.add t)) :
    ∃ s' d' cap', s.add array t = some s' ∧ Threads s'.heap.mem array d' cap' (L ++ [t]) := by
  obtain ⟨ht, hrealloc⟩ := hok
  have hcap : s.arrayCapacity array = cap := h.capacity
  have hlen : s.arrayLen array = L.length := h.len
  have hle := h.le
  have hpos := h.pos
  by_cases hfull : cap ≤ L.length
  · obtain ⟨heap, p, hr⟩ := hrealloc (by rw [hcap, hlen]; exact hfull)
    have hgrown := h.regrow hr
    have hdata : (s.write array [⟨16, 8, u64Mul (s.arrayCapacity array) 2⟩]).heap.mem.load array 8 =
        s.arrayData array := Mem.load_store_of_disjoint (.inr (by dsimp only; omega))
    obtain ⟨s₁, hs₁⟩ : ∃ s₁ : Kernel, s₁ =
        ({ s with heap } : Kernel).write array [⟨0, 8, p⟩] := ⟨_, rfl⟩
    have hmem : s₁.heap.mem = heap.mem.store array 8 p := by rw [hs₁]; rfl
    rw [← hmem] at hgrown
    have happend := hgrown.append (by omega) ht
    refine ⟨_, p, 2 * cap, ?_, happend⟩
    have hge : s.heap.mem.load (array + 8) 8 ≥ s.heap.mem.load (array + 16) 8 := by
      rw [h.len, h.capacity]
      exact hfull
    have hrun := hr.realloc
    rw [← hdata] at hrun
    unfold Kernel.add
    dsimp only
    rw [if_pos hge]
    refine (congrArg (Option.bind · _) hrun).trans ?_
    rw [Option.bind_some]
    dsimp only
    rw [if_neg hr.notNull]
    have hs₁' : ({ s.write array [⟨16, 8, u64Mul (s.heap.mem.load (array + 16) 8) 2⟩] with heap } :
        Kernel).write array [⟨0, 8, p⟩] = s₁ := by rw [hs₁]; rfl
    rw [hs₁', hgrown.data, hgrown.len, if_neg hgrown.notNull]
  · refine ⟨_, d, cap, ?_, h.append (by omega) ht⟩
    have hlt : ¬s.heap.mem.load (array + 8) 8 ≥ s.heap.mem.load (array + 16) 8 := by
      rw [h.len, h.capacity]
      exact hfull
    unfold Kernel.add
    dsimp only
    rw [if_neg hlt, h.data, h.len, if_neg h.notNull]

/-- **`init_thread_array`** makes an empty array. -/
theorem init {s₁ : Kernel} {p : Nat} (hal : Allocates s array s₁ p) :
    ∃ s', s.initThreadArray array = some s' ∧ Threads s'.heap.mem array p 8 [] := by
  obtain ⟨halloc, hfields, hnull, hroom, hap⟩ := hal
  rw [threadArraySize] at hroom hap
  refine ⟨s₁.write array [⟨0, 8, p⟩], by simp only [Kernel.initThreadArray, halloc, Option.map_some],
    ?_⟩
  have hp : p < 256 ^ 8 := u64Size_eq_pow ▸ by omega
  have hkept : ∀ k, 8 ≤ k → k + 8 ≤ 24 → (s₁.write array [⟨0, 8, p⟩]).heap.mem.load (array + k) 8 =
      (s.write array [⟨16, 8, 8⟩, ⟨8, 8, 0⟩]).heap.mem.load (array + k) 8 := fun k hk hk' =>
    (Mem.load_store_of_disjoint (.inl (by dsimp only; omega))).trans
      (Mem.load_congr fun i hi hi' => hfields i (by omega) (by omega))
  refine ⟨?_, ?_, ?_, hnull, by decide, by decide, hroom, hap, fun i hi => nomatch hi⟩
  · exact (Mem.load_store _ _ _ _).trans (Nat.mod_eq_of_lt hp)
  · exact (hkept 8 (by omega) (by omega)).trans (Mem.load_store _ _ _ _)
  · refine (hkept 16 (by omega) (by omega)).trans ?_
    exact (Mem.load_store_of_disjoint (.inl (by dsimp only; omega))).trans (Mem.load_store _ _ _ _)

end Threads

/-- **A thread array is a list of threads**, for every sequence of calls: they all go through, the
array holds the list, and no access was out of bounds. -/
theorem threadArray_run {s s₁ s₂ : Kernel} {array p : Nat} {ops : List ArrayOp}
    (hal : Allocates s array s₁ p) (hinit : s.initThreadArray array = some s₂)
    (hok : OkRun (arrayStep array) (ReallocSucceeds array) s₂ ops) :
    ∃ s' accesses d cap, runResults (arrayStep array) s₂ ops = some (s', accesses) ∧
      (∀ l ∈ accesses, ∀ a ∈ l, a.InBounds) ∧
      Threads s'.heap.mem array d cap (ops.foldl listStep []) := by
  obtain ⟨s₂', hs₂, h₀⟩ := Threads.init hal
  obtain rfl := Option.some.inj (hs₂.symm.trans hinit)
  have hstep : ∀ (s : Kernel) L op, (∃ d cap, Threads s.heap.mem array d cap L) →
      ReallocSucceeds array s op → ∃ s' l, arrayStep array s op = some (s', l) ∧
        (∀ a ∈ l, a.InBounds) ∧ ∃ d cap, Threads s'.heap.mem array d cap (listStep L op) := by
    rintro s L op ⟨d, cap, h⟩ hop
    cases op with
    | add t =>
      obtain ⟨s', d', cap', hadd, h'⟩ := h.add hop
      have hlen : s.arrayLen array = L.length := h.len
      have hle := h'.le
      rw [List.length_append, List.length_singleton] at hle
      refine ⟨s', s'.accesses array (s.arrayLen array) 1, by rw [arrayStep, hadd]; rfl, ?_, d', cap',
        h'⟩
      exact h'.inBounds (by rw [hlen]; exact hle)
    | removeEl t =>
      obtain ⟨hlist, hbounds⟩ := h.removeEl (t := t)
      exact ⟨(s.removeEl array t).1, (s.removeEl array t).2, by rw [arrayStep], hbounds, d, cap, hlist⟩
  have h₀' : ∃ d cap, Threads s₂'.heap.mem array d cap [] := ⟨p, 8, h₀⟩
  obtain ⟨s', accesses, hrun, hbounds, d, cap, hthreads⟩ := runResults_refine listStep
    (fun (s : Kernel) L => ∃ d cap, Threads s.heap.mem array d cap L)
    (fun l : List Access => ∀ a ∈ l, a.InBounds) hstep h₀' hok
  exact ⟨s', accesses, d, cap, hrun, hbounds, hthreads⟩

/-- The kernel over the small heap. -/
def smallKernel : Kernel where
  heap := smallHeap
  data := fun _ => 0
  processList := 0
  kernelPml4 := 0
  nextFreePid := 0
  nextFreeTid := 0

/-- The small heap has room for an array at 256. -/
theorem smallKernel_allocates : ∃ s, Allocates smallKernel 256 s 0x1020 := by
  have halloc : ((smallKernel.write 256 [⟨16, 8, 8⟩, ⟨8, 8, 0⟩]).alloc threadArraySize).any fun r =>
      decide (r.2 = 0x1020 ∧ ∀ i < 24, r.1.heap.mem (256 + i) =
        (smallKernel.write 256 [⟨16, 8, 8⟩, ⟨8, 8, 0⟩]).heap.mem (256 + i)) := by
    decide +kernel
  obtain ⟨⟨s, p⟩, hs, hp⟩ := (Option.any_eq_true _ _).mp halloc
  obtain ⟨rfl, hfields⟩ := of_decide_eq_true hp
  refine ⟨s, hs, fun i hi hi' => ?_, by decide, by decide, .inr (by decide)⟩
  obtain ⟨j, rfl⟩ := Nat.exists_eq_add_of_le hi
  exact hfields j (Nat.lt_of_add_lt_add_left hi')

/-- Nine threads, for which the array has to grow; the fifth one is removed, and another one comes. -/
def tenCalls : List ArrayOp :=
  [.add 1, .add 2, .add 3, .add 4, .add 5, .add 6, .add 7, .add 8, .add 9, .removeEl 5, .add 10]

/-- The array grows in place, and what was behind the thread that is removed moves up. -/
theorem threadArray_run_small : ∃ s s' accesses d cap,
    smallKernel.initThreadArray 256 = some s ∧
      runResults (arrayStep 256) s tenCalls = some (s', accesses) ∧
      (∀ l ∈ accesses, ∀ a ∈ l, a.InBounds) ∧
      Threads s'.heap.mem 256 d cap [1, 2, 3, 4, 6, 7, 8, 9, 10] := by
  obtain ⟨s₁, hal⟩ := smallKernel_allocates
  obtain ⟨s, hinit, -⟩ := Threads.init hal
  have hany : (smallKernel.initThreadArray 256).any fun s =>
      decide (OkRun (arrayStep 256) (ReallocSucceeds 256) s tenCalls) := by
    decide +kernel
  rw [hinit, Option.any_some] at hany
  obtain ⟨s', accesses, d, cap, h⟩ := threadArray_run hal hinit (of_decide_eq_true hany)
  exact ⟨s, s', accesses, d, cap, hinit, h⟩

end Colibri
