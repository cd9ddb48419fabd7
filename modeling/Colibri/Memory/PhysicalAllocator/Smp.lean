import Colibri.Memory.PhysicalAllocator.Run
import Colibri.Sync.Critical

/-!
# The page allocator on several processors

`kalloc` and `kfree` are critical sections of `phys_alloc_lock`, but `kfree` tests the page's bit
before it takes the lock. Here the two functions run on any number of processors: the operation on
`free_lst` and the write to the bitmap are steps of their own, the others' calls and their writes to
the pages they hold come in between.

A page is in one place at a time (`Place`): on the ring, with a holder, or on its way. The bits lag
behind: between the two steps of a critical section the bit of one page is not yet that of its place
(`Call.Finds`).

`smp_pages_sound`: no page is given out twice, and no bit that `kfree` tests is ever clear, if each
page that is freed is one that somebody holds.
-/

namespace Colibri.Memory

open Colibri.Lib Colibri.Sync

/-- The allocator, and the pages that `kalloc` returned and nobody has begun to free since. -/
structure Pages where
  s : PhysAlloc
  held : List Nat

/-- Where a processor is in `kalloc` or `kfree`. -/
inductive Call where
  /-- In `kalloc`. -/
  | kalloc
  /-- After `lst_pop`. -/
  | popped (page : Nat)
  | returned (page : Nat)
  /-- In `kfree`, after the test of the bit. -/
  | kfree (a : Nat)
  /-- After `lst_push`. -/
  | pushed (a : Nat)
  | freed
  /-- In the panic of `lst_pop`. -/
  | panicked
  deriving DecidableEq

/-- The critical sections of `kalloc` and `kfree`. -/
def allocBody : Call → Pages → Option (Call × Pages)
  | .kalloc, d =>
    if lstEmpty d.s.mem d.s.freeLst then some (.returned 0, d)
    else
      match lstPop d.s.mem d.s.freeLst with
      | some (mem, n) => some (.popped (virtToPhys n), { d with s.mem := mem })
      | none => some (.panicked, d)
  | .popped page, d =>
    let mem := bitSet d.s.mem d.s.alloc (d.s.pageIndex page)
    some (.returned page, { s := { d.s with mem }, held := page :: d.held })
  | .kfree a, d =>
    some (.pushed a, { d with s.mem := lstPush d.s.mem d.s.freeLst (physToVirt (pageStart a)) })
  | .pushed a, d =>
    some (.freed, { d with s.mem := bitClear d.s.mem d.s.alloc (d.s.pageIndex (pageStart a)) })
  | .panicked, d => some (.panicked, d)
  | .returned _, _ | .freed, _ => none

/-- The test of `kfree`. -/
def Pages.isset (d : Pages) (a : Nat) : Bool :=
  bitIsset d.s.mem d.s.alloc (d.s.pageIndex (pageStart a))

/-- The holder of a page gives it back. -/
def Pages.giveBack (d : Pages) (a : Nat) : Pages := { d with held := d.held.erase (pageStart a) }

/-- The calls: any `kalloc`, and `kfree` of a page that the caller holds and whose bit is set. -/
inductive CallsAlloc (d : Pages) (i : Nat) : Call → Pages → Prop
  | kalloc : CallsAlloc d i .kalloc d
  | kfree (a : Nat) (hheld : pageStart a ∈ d.held) (hset : d.isset a = true) :
      CallsAlloc d i (.kfree a) (d.giveBack a)

/-- What else happens: writes of the others to their own memory, and a `kfree` that finds the bit
clear. -/
inductive Others (w : Window) (d : Pages) : Pages → Prop
  | write (m : Mem) (h : ∀ x, ¬ Foreign w d.held x → m x = d.s.mem x) :
      Others w d { d with s.mem := m }
  | kfree (a : Nat) (hheld : pageStart a ∈ d.held) (hclear : d.isset a = false) :
      Others w d (d.giveBack a)

/-- The runs from a state of the allocator. -/
abbrev PagesRun (w : Window) (s : PhysAlloc) : Guarded Shared Nat Call Pages → Prop :=
  SectionRun allocBody CallsAlloc (Others w) (fun _ => .freed) ⟨s, []⟩

/-- Without the others, the steps of `kalloc` and of `kfree` are those of the functions. -/
theorem allocBody_kalloc (s : PhysAlloc) (held : List Nat) :
    s.kalloc = if lstEmpty s.mem s.freeLst then some (s, 0) else
      (lstPop s.mem s.freeLst).bind fun r =>
        (allocBody (.popped (virtToPhys r.2)) ⟨{ s with mem := r.1 }, held⟩).map fun c =>
          (c.2.s, virtToPhys r.2) := by
  unfold PhysAlloc.kalloc
  split_ifs
  · rfl
  · cases lstPop s.mem s.freeLst <;> rfl

theorem allocBody_kfree (s : PhysAlloc) (held : List Nat) (a : Nat) :
    some (s.kfree a) = if (⟨s, held⟩ : Pages).isset a then
      (allocBody (.kfree a) ⟨s, held⟩).bind fun c => (allocBody c.1 c.2).map fun c => c.2.s
      else some s := by
  unfold PhysAlloc.kfree Pages.isset
  cases hset : bitIsset s.mem s.alloc (s.pageIndex (pageStart a)) with
  | false => simp [hset]
  | true =>
    simp only [hset, if_true]
    rfl

/-! ## The ring and the bitmap apart -/

/-- The ring holds the pages `L`, and the clear bits are those of `C`. -/
structure Pool (w : Window) (s : PhysAlloc) (L C : List Nat) : Prop where
  base : s.base = w.base
  alloc : s.alloc = w.alloc
  allocSize : s.allocSize = w.allocSize
  freeLst : s.freeLst = w.freeLst
  ring : MemRing w.Node s.mem w.freeLst (L.map w.nodeAddr)
  range : ∀ i ∈ L, w.Allocatable i
  bits : ∀ j < w.allocSize * 8, bitIsset s.mem w.alloc j = decide (j ∉ C)

section Pool

variable {w : Window} {s : PhysAlloc} {L C : List Nat} {k : Nat}

theorem FreeList.pool (h : FreeList w s L) : Pool w s L L :=
  ⟨h.base, h.alloc, h.allocSize, h.freeLst, h.ring, h.range, h.bits⟩

theorem Pool.freeList (h : Pool w s L L) : FreeList w s L :=
  ⟨h.base, h.alloc, h.allocSize, h.freeLst, h.ring, h.range, h.bits⟩

theorem Pool.nodup (h : Pool w s L C) : L.Nodup :=
  (List.nodup_cons.mp h.ring.ring.nodup).2.of_map _

theorem Pool.pageIndex (h : Pool w s L C) (hk : k < w.pageCount) :
    s.pageIndex (w.page k) = k := by
  have hm := w.mapped
  rw [PhysAlloc.pageIndex, w.pageStart_page, h.base, Window.page, pageSize_eq,
    u64Sub_eq (by omega) (by omega)]
  omega

/-- The memory changes, and the variables do not. -/
theorem Pool.update {m : Mem} {L' C' : List Nat} (h : Pool w s L C)
    (hring : MemRing w.Node m w.freeLst (L'.map w.nodeAddr)) (hrange : ∀ i ∈ L', w.Allocatable i)
    (hbits : ∀ j < w.allocSize * 8, bitIsset m w.alloc j = decide (j ∉ C')) :
    Pool w { s with mem := m } L' C' :=
  ⟨h.base, h.alloc, h.allocSize, h.freeLst, hring, hrange, hbits⟩

theorem Pool.lstPop (h : Pool w s (k :: L) C) : ∃ m',
    lstPop s.mem s.freeLst = some (m', w.nodeAddr k) ∧ virtToPhys (w.nodeAddr k) = w.page k ∧
      Pool w { s with mem := m' } L C := by
  obtain ⟨m', hpop, hring, hout⟩ := lstPop_spec w.spaced h.ring
  have hk : k < w.pageCount := (h.range k List.mem_cons_self).2
  have hvirt : virtToPhys (w.nodeAddr k) = w.page k := by
    have hm := w.mapped
    rw [virtToPhys, Window.nodeAddr, u64Sub_eq (by omega) (by omega), Window.page]
    omega
  refine ⟨m', by rw [h.freeLst, hpop], hvirt,
    h.update hring (fun i hi => h.range i (List.mem_cons_of_mem _ hi)) fun j hj => ?_⟩
  rw [bitIsset_of_outside hout hj, h.bits j hj]

theorem Pool.lstPush (h : Pool w s L C) (hr : w.Allocatable k) (hk : k ∉ L) :
    Pool w { s with mem := lstPush s.mem s.freeLst (physToVirt (w.page k)) } (k :: L) C := by
  have hnew := w.nodeAddr_notMem hr.2 hk
  obtain ⟨hring, hout⟩ := lstPush_spec w.spaced h.ring (.inr ⟨k, hr, rfl⟩) hnew
  refine h.update ?_ (List.forall_mem_cons.mpr ⟨hr, h.range⟩) fun j hj => ?_
  · rw [h.freeLst, w.physToVirt_page hr.2]
    exact hring
  · rw [h.freeLst, w.physToVirt_page hr.2, bitIsset_of_outside hout hj, h.bits j hj]

theorem Pool.bitSet (h : Pool w s L (k :: L)) (hr : w.Allocatable k) (hk : k ∉ L) :
    Pool w { s with mem := bitSet s.mem s.alloc (s.pageIndex (w.page k)) } L L := by
  have hcount := w.pageCount_le
  have hlt := hr.2
  have hbyte := w.byte_mem (show k < w.allocSize * 8 by omega)
  refine h.update ?_ h.range fun j hj => ?_
  · rw [h.pageIndex hlt, h.alloc]
    exact h.ring.of_bitmap fun x hx => Function.update_of_ne (by omega) _ _
  · rw [h.pageIndex hlt, h.alloc, bitIsset_bitSet hbyte.1 (w.byte_mem hj).1, h.bits j hj,
      ← Bool.decide_or]
    refine decide_eq_decide.mpr ?_
    rw [List.mem_cons]
    by_cases hjk : j = k
    · simp [hjk, hk]
    · simp [hjk]

theorem Pool.bitClear (h : Pool w s (k :: L) L) :
    Pool w { s with mem := bitClear s.mem s.alloc (s.pageIndex (w.page k)) } (k :: L)
      (k :: L) := by
  have hcount := w.pageCount_le
  have hlt := (h.range k List.mem_cons_self).2
  have hbyte := w.byte_mem (show k < w.allocSize * 8 by omega)
  refine h.update ?_ h.range fun j hj => ?_
  · rw [h.pageIndex hlt, h.alloc]
    exact h.ring.of_bitmap fun x hx => Function.update_of_ne (by omega) _ _
  · rw [h.pageIndex hlt, h.alloc, bitIsset_bitClear hbyte.1 (w.byte_mem hj).1, h.bits j hj,
      ← decide_not, ← Bool.decide_and]
    refine decide_eq_decide.mpr ?_
    rw [List.mem_cons, not_or]

/-- A node of the ring or a byte of the bitmap is nobody's. -/
theorem not_foreign {held : List Nat} (h : Pool w s L C)
    (hheld : ∀ p ∈ held, ∃ i, w.Allocatable i ∧ i ∉ L ∧ p = w.page i) {x : Nat}
    (hx : (∃ a ∈ w.freeLst :: L.map w.nodeAddr, a ≤ x ∧ x < a + 16) ∨
      (w.alloc ≤ x ∧ x < w.alloc + w.allocSize)) : ¬ Foreign w held x := by
  have hd := w.head_apart
  have hsize := w.allocSize_le
  have hindex := w.index_le
  have halloc : w.alloc = w.base + physicalOffset := rfl
  rintro (⟨p, hp, h₁, h₂⟩ | ⟨h₁, h₂⟩)
  · obtain ⟨i, hi, hiL, rfl⟩ := hheld p hp
    have hlt := hi.2
    have hge := hi.1
    rw [w.physToVirt_page hi.2] at h₁ h₂
    unfold Window.nodeAddr at h₁ h₂
    obtain ⟨a, ha, hxa, hxa'⟩ | hbit := hx
    · rcases List.mem_cons.mp ha with rfl | ha
      · rcases hd with hd | hd <;> omega
      · obtain ⟨j, hj, rfl⟩ := List.mem_map.mp ha
        have hij : i = j := by
          unfold Window.nodeAddr at hxa hxa'
          omega
        exact hiL (hij ▸ hj)
    · omega
  · obtain ⟨a, ha, hxa, hxa'⟩ | hbit := hx
    · rcases List.mem_cons.mp ha with rfl | ha
      · omega
      · obtain ⟨j, hj, rfl⟩ := List.mem_map.mp ha
        have hlt := (h.range j hj).2
        unfold Window.nodeAddr at hxa hxa'
        omega
    · omega

/-- The allocator does not see writes to pages that are not on the ring. -/
theorem Pool.write {held : List Nat} (h : Pool w s L C)
    (hheld : ∀ p ∈ held, ∃ i, w.Allocatable i ∧ i ∉ L ∧ p = w.page i) {m : Mem}
    (hm : ∀ x, ¬ Foreign w held x → m x = s.mem x) : Pool w { s with mem := m } L C := by
  refine h.update (h.ring.congr fun a ha x hx hx' => ?_) h.range fun j hj => ?_
  · exact hm x (not_foreign h hheld (.inl ⟨a, ha, hx, hx'⟩))
  · obtain ⟨-, hx, hx'⟩ := w.byte_mem hj
    rw [← h.bits j hj]
    exact bitIsset_congr (hm _ (not_foreign h hheld (.inr ⟨hx, hx'⟩)))

end Pool

/-! ## Where the pages are -/

/-- Where a page is. -/
inductive Place where
  | ring
  | held
  | moving (i : Nat)
  deriving DecidableEq

/-- The page that a processor moves. -/
def Call.page : Phase → Call → Option Nat
  | .waits, .kfree a | .holds, .kfree a => some (pageStart a)
  | .holds, .popped page => some page
  | _, _ => none

/-- What a processor that has the lock finds, with the pages `L` on the ring. -/
def Call.Finds (w : Window) (s : PhysAlloc) (L : List Nat) : Call → Prop
  | .kalloc | .kfree _ | .returned _ | .freed => Pool w s L L
  | .popped page => ∃ k, w.page k = page ∧ Pool w s L (k :: L)
  | .pushed a => ∃ k L', pageStart a = w.page k ∧ L = k :: L' ∧ Pool w s L L'
  | .panicked => False

/-- A processor waits to begin. -/
def Call.Begins : Call → Prop
  | .kalloc | .kfree _ => True
  | _ => False

/-- The pages that the processors move. -/
def flight (ph : Nat → Phase) (loc : Nat → Call) (i : Nat) : Option Nat := Call.page (ph i) (loc i)

/-- **Each page is in one place.** -/
structure OnePlace (w : Window) (L held : List Nat) (fl : Nat → Option Nat) (place : Nat → Place) :
    Prop where
  ring_range : ∀ k ∈ L, w.Allocatable k
  held_range : ∀ p ∈ held, ∃ k, w.Allocatable k ∧ p = w.page k
  moving_range : ∀ i p, fl i = some p → ∃ k, w.Allocatable k ∧ p = w.page k
  ring_iff : ∀ k, w.Allocatable k → (k ∈ L ↔ place k = .ring)
  held_iff : ∀ k, w.Allocatable k → (w.page k ∈ held ↔ place k = .held)
  moving_iff : ∀ k i, w.Allocatable k → (fl i = some (w.page k) ↔ place k = .moving i)
  nodup : held.Nodup

/-- **The lock invariant**, with the place of each page. -/
structure Located (w : Window) (ph : Nat → Phase) (loc : Nat → Call) (d : Pages) (L : List Nat)
    (place : Nat → Place) : Prop where
  free : (∀ i, ph i ≠ .holds) → Pool w d.s L L
  busy : ∀ i, ph i = .holds → (loc i).Finds w d.s L
  waits : ∀ i, ph i = .waits → (loc i).Begins
  placed : OnePlace w L d.held (flight ph loc) place

section OnePlace

variable {w : Window} {L L' held held' : List Nat} {fl fl' : Nat → Option Nat}
  {place : Nat → Place} {k i : Nat}

/-- **A page goes to another place.** -/
theorem OnePlace.move (h : OnePlace w L held fl place) (hk : w.Allocatable k) (q : Place)
    (hL : ∀ j, j ∈ L' ↔ j = k ∧ q = .ring ∨ j ≠ k ∧ j ∈ L)
    (hheld : ∀ p, p ∈ held' ↔ p = w.page k ∧ q = .held ∨ p ≠ w.page k ∧ p ∈ held)
    (hfl : ∀ i p, fl' i = some p ↔ p = w.page k ∧ q = .moving i ∨ p ≠ w.page k ∧ fl i = some p)
    (hnodup : held'.Nodup) : OnePlace w L' held' fl' (Function.update place k q) := by
  have hpage {j : Nat} : w.page j = w.page k ↔ j = k := ⟨w.page_inj, fun h => by rw [h]⟩
  refine ⟨fun j hj => ?_, fun p hp => ?_, fun i p hp => ?_, fun j hj => ?_, fun j hj => ?_,
    fun j i hj => ?_, hnodup⟩
  · rcases (hL j).mp hj with ⟨rfl, -⟩ | ⟨-, hj⟩
    · exact hk
    · exact h.ring_range j hj
  · rcases (hheld p).mp hp with ⟨hp, -⟩ | ⟨-, hp⟩
    · exact ⟨k, hk, hp⟩
    · exact h.held_range p hp
  · rcases (hfl i p).mp hp with ⟨hp, -⟩ | ⟨-, hp⟩
    · exact ⟨k, hk, hp⟩
    · exact h.moving_range i p hp
  · rw [hL, h.ring_iff j hj]
    by_cases hjk : j = k
    · simp [hjk]
    · simp [hjk]
  · rw [hheld, h.held_iff j hj, ne_eq, hpage]
    by_cases hjk : j = k
    · simp [hjk]
    · simp [hjk]
  · rw [hfl, h.moving_iff j i hj, ne_eq, hpage]
    by_cases hjk : j = k
    · simp [hjk]
    · simp [hjk]

/-- A processor's page, when one processor's changes. -/
theorem update_flight {o : Option Nat} {j p : Nat} : Function.update fl i o j = some p ↔
    j = i ∧ o = some p ∨ j ≠ i ∧ fl j = some p := by
  by_cases hj : j = i
  · simp [hj]
  · simp [hj]

/-- A page that a processor takes up was not on its way. -/
theorem OnePlace.flight_take (h : OnePlace w L held fl place) (hk : w.Allocatable k)
    (hplace : ∀ i, place k ≠ .moving i) (hi : fl i = none) (j p : Nat) :
    Function.update fl i (some (w.page k)) j = some p ↔
      p = w.page k ∧ Place.moving i = .moving j ∨ p ≠ w.page k ∧ fl j = some p := by
  have hno : fl j ≠ some (w.page k) := fun hfl => hplace j ((h.moving_iff k j hk).mp hfl)
  rw [update_flight, Option.some.injEq, Place.moving.injEq]
  by_cases hj : j = i
  · subst hj
    simp [hi, eq_comm]
  · have hj' : ¬ i = j := fun he => hj he.symm
    simp only [hj, hj', false_and, and_false, false_or, not_false_eq_true, true_and, ne_eq]
    exact ⟨fun hfl => ⟨fun hp => hno (hp ▸ hfl), hfl⟩, fun hfl => hfl.2⟩

/-- A page that a processor puts down is not on its way any more. -/
theorem OnePlace.flight_put (h : OnePlace w L held fl place) (hk : w.Allocatable k)
    (hi : fl i = some (w.page k)) {q : Place} (hq : ∀ j, q ≠ .moving j) (j p : Nat) :
    Function.update fl i none j = some p ↔
      p = w.page k ∧ q = .moving j ∨ p ≠ w.page k ∧ fl j = some p := by
  have hplace := (h.moving_iff k i hk).mp hi
  have hno (hji : j ≠ i) : fl j ≠ some (w.page k) := fun hfl => by
    have hj := (h.moving_iff k j hk).mp hfl
    exact hji (Place.moving.inj (hj.symm.trans hplace))
  rw [update_flight]
  by_cases hj : j = i
  · subst hj
    simp [hi, hq, eq_comm]
  · simp only [hj, hq, false_and, and_false, false_or, not_false_eq_true, true_and, ne_eq]
    exact ⟨fun hfl => ⟨fun hp => hno hj (hp ▸ hfl), hfl⟩, fun hfl => hfl.2⟩

/-- `lst_pop`. -/
theorem OnePlace.pop (h : OnePlace w (k :: L) held fl place) (hk : k ∉ L) (hi : fl i = none) :
    OnePlace w L held (Function.update fl i (some (w.page k)))
      (Function.update place k (.moving i)) := by
  have hr := h.ring_range k List.mem_cons_self
  have hplace : place k = .ring := (h.ring_iff k hr).mp List.mem_cons_self
  have hheld : w.page k ∉ held := fun hm =>
    Place.noConfusion (hplace.symm.trans ((h.held_iff k hr).mp hm))
  refine h.move hr _ (fun j => ?_) (fun p => ?_)
    (h.flight_take hr (fun i hp => Place.noConfusion (hplace.symm.trans hp)) hi) h.nodup
  · rw [List.mem_cons]
    by_cases hj : j = k
    · simp [hj, hk]
    · simp [hj]
  · by_cases hp : p = w.page k
    · simp [hp, hheld]
    · simp [hp]

/-- The end of `kalloc`. -/
theorem OnePlace.give (h : OnePlace w L held fl place) (hk : w.Allocatable k)
    (hi : fl i = some (w.page k)) :
    OnePlace w L (w.page k :: held) (Function.update fl i none) (Function.update place k .held) := by
  have hplace := (h.moving_iff k i hk).mp hi
  have hheld : w.page k ∉ held := fun hm =>
    Place.noConfusion (hplace.symm.trans ((h.held_iff k hk).mp hm))
  have hring : k ∉ L := fun hm => Place.noConfusion (hplace.symm.trans ((h.ring_iff k hk).mp hm))
  refine h.move hk _ (fun j => ?_) (fun p => ?_) (h.flight_put hk hi fun j => Place.noConfusion)
    (List.nodup_cons.mpr ⟨hheld, h.nodup⟩)
  · by_cases hj : j = k
    · simp [hj, hring]
    · simp [hj]
  · rw [List.mem_cons]
    by_cases hp : p = w.page k
    · simp [hp]
    · simp [hp]

/-- The call of `kfree`. -/
theorem OnePlace.giveBack (h : OnePlace w L held fl place) (hk : w.page k ∈ held)
    (hr : w.Allocatable k) (hi : fl i = none) :
    OnePlace w L (held.erase (w.page k)) (Function.update fl i (some (w.page k)))
      (Function.update place k (.moving i)) := by
  have hplace := (h.held_iff k hr).mp hk
  have hring : k ∉ L := fun hm => Place.noConfusion (hplace.symm.trans ((h.ring_iff k hr).mp hm))
  refine h.move hr _ (fun j => ?_) (fun p => ?_)
    (h.flight_take hr (fun i hp => Place.noConfusion (hplace.symm.trans hp)) hi)
    (h.nodup.erase _)
  · by_cases hj : j = k
    · simp [hj, hring]
    · simp [hj]
  · rw [h.nodup.mem_erase_iff]
    simp

/-- `lst_push`. -/
theorem OnePlace.push (h : OnePlace w L held fl place) (hk : w.Allocatable k)
    (hi : fl i = some (w.page k)) :
    k ∉ L ∧ OnePlace w (k :: L) held (Function.update fl i none) (Function.update place k .ring) := by
  have hplace := (h.moving_iff k i hk).mp hi
  have hheld : w.page k ∉ held := fun hm =>
    Place.noConfusion (hplace.symm.trans ((h.held_iff k hk).mp hm))
  have hring : k ∉ L := fun hm => Place.noConfusion (hplace.symm.trans ((h.ring_iff k hk).mp hm))
  refine ⟨hring, h.move hk _ (fun j => ?_) (fun p => ?_)
    (h.flight_put hk hi fun j => Place.noConfusion) h.nodup⟩
  · rw [List.mem_cons]
    by_cases hj : j = k
    · simp [hj]
    · simp [hj]
  · by_cases hp : p = w.page k
    · simp [hp, hheld]
    · simp [hp]

end OnePlace

/-! ## The steps -/

section Steps

variable {w : Window} {ph : Nat → Phase} {loc : Nat → Call} {d : Pages} {L : List Nat}
  {place : Nat → Place} {i k : Nat} {l : Call}

theorem flight_update (p : Phase) : flight (Function.update ph i p) (Function.update loc i l) =
    Function.update (flight ph loc) i (Call.page p l) := by
  funext j
  unfold flight
  by_cases hj : j = i
  · simp [hj]
  · simp [hj]

/-- The processor's page is the same before and after. -/
theorem flight_same {p : Phase} (h : Call.page p l = flight ph loc i) :
    flight (Function.update ph i p) (Function.update loc i l) = flight ph loc := by
  rw [flight_update, h, Function.update_eq_self]

theorem page_out (l : Call) : Call.page .out l = none := by
  cases l <;> rfl

theorem flight_out (loc : Nat → Call) (h : ph i = .out) : flight ph loc i = none := by
  unfold flight
  rw [h, page_out]

theorem flight_holds (h : ph i = .holds) : flight ph loc i = Call.page .holds (loc i) := by
  unfold flight
  rw [h]

theorem Call.Begins.finds {s : PhysAlloc} (hl : l.Begins) (h : Pool w s L L) : l.Finds w s L := by
  cases l with
  | kalloc | kfree a => exact h
  | _ => exact hl.elim

/-- A call begins. -/
theorem Located.call {d' : Pages} {place' : Nat → Place} (h : Located w ph loc d L place)
    (hi : ph i = .out) (hl : l.Begins) (hs : d'.s = d.s)
    (hplaced : OnePlace w L d'.held (Function.update (flight ph loc) i (Call.page .waits l)) place') :
    Located w (Function.update ph i .waits) (Function.update loc i l) d' L place' where
  free hfree := by
    rw [hs]
    refine h.free fun j hj => hfree j ?_
    have hji : j ≠ i := fun he => Phase.noConfusion (hi.symm.trans (he ▸ hj))
    rw [Function.update_of_ne hji, hj]
  busy j hj := by
    obtain ⟨-, hp⟩ | ⟨hji, hj⟩ := Guarded.update_phase hj
    · exact Phase.noConfusion hp
    · rw [Function.update_of_ne hji, hs]
      exact h.busy j hj
  waits j hj := by
    obtain ⟨rfl, -⟩ | ⟨hji, hj⟩ := Guarded.update_phase hj
    · rwa [Function.update_self]
    · rw [Function.update_of_ne hji]
      exact h.waits j hj
  placed := by rwa [flight_update]

/-- A processor gets the lock. -/
theorem Located.acquire (h : Located w ph loc d L place) (hi : ph i = .waits)
    (hfree : ∀ j, ph j ≠ .holds) : Located w (Function.update ph i .holds) loc d L place where
  free hall := absurd (Function.update_self _ _ _) (hall i)
  busy j hj := by
    obtain ⟨rfl, -⟩ | ⟨-, hj⟩ := Guarded.update_phase hj
    · exact (h.waits j hi).finds (h.free hfree)
    · exact absurd hj (hfree j)
  waits j hj := by
    obtain ⟨-, hp⟩ | ⟨-, hj⟩ := Guarded.update_phase hj
    · exact Phase.noConfusion hp
    · exact h.waits j hj
  placed := by
    have hpage : Call.page .holds (loc i) = flight ph loc i := by
      have hbegins := h.waits i hi
      unfold flight
      rw [hi]
      cases hl : loc i with
      | kalloc | kfree a => rfl
      | _ =>
        rw [hl] at hbegins
        exact hbegins.elim
    have hsame := flight_same hpage
    rw [Function.update_eq_self] at hsame
    rw [hsame]
    exact h.placed

/-- A step of a critical section. -/
theorem Located.access {d' : Pages} {L' : List Nat} {place' : Nat → Place}
    (h : Located w ph loc d L place) (hi : ph i = .holds) (hother : ∀ j, j ≠ i → ph j ≠ .holds)
    (hfinds : l.Finds w d'.s L')
    (hplaced : OnePlace w L' d'.held (Function.update (flight ph loc) i (Call.page .holds l)) place') :
    Located w ph (Function.update loc i l) d' L' place' where
  free hall := absurd hi (hall i)
  busy j hj := by
    obtain rfl : j = i := by
      by_contra hji
      exact hother j hji hj
    rwa [Function.update_self]
  waits j hj := by
    have hji : j ≠ i := fun he => Phase.noConfusion (hi.symm.trans (he ▸ hj))
    rw [Function.update_of_ne hji]
    exact h.waits j hj
  placed := by
    have hph : Function.update ph i .holds = ph := by rw [← hi, Function.update_eq_self]
    rw [← hph, flight_update]
    exact hplaced

/-- A processor leaves the critical section. -/
theorem Located.release (h : Located w ph loc d L place) (hi : ph i = .holds)
    (hother : ∀ j, j ≠ i → ph j ≠ .holds) (hfinds : Pool w d.s L L)
    (hpage : Call.page .holds (loc i) = none) :
    Located w (Function.update ph i .out) loc d L place where
  free _ := hfinds
  busy j hj := by
    obtain ⟨-, hp⟩ | ⟨hji, hj⟩ := Guarded.update_phase hj
    · exact Phase.noConfusion hp
    · exact absurd hj (hother j hji)
  waits j hj := by
    obtain ⟨-, hp⟩ | ⟨-, hj⟩ := Guarded.update_phase hj
    · exact Phase.noConfusion hp
    · exact h.waits j hj
  placed := by
    have hflight : flight ph loc i = none := (flight_holds hi).trans hpage
    have hsame := flight_same ((page_out (loc i)).trans hflight.symm)
    rw [Function.update_eq_self] at hsame
    rw [hsame]
    exact h.placed

/-- The page that the holder of the lock moves. -/
theorem Located.moving (h : Located w ph loc d L place) (hi : ph i = .holds) {p : Nat}
    (hpage : Call.page .holds (loc i) = some p) :
    ∃ k, w.Allocatable k ∧ p = w.page k ∧ flight ph loc i = some (w.page k) := by
  have hflight := (flight_holds hi).trans hpage
  obtain ⟨k, hk, rfl⟩ := h.placed.moving_range i p hflight
  exact ⟨k, hk, rfl, hflight⟩

/-- **A step of the critical sections keeps the invariant.** -/
theorem Located.body {d' : Pages} (h : Located w ph loc d L place) (hi : ph i = .holds)
    (hother : ∀ j, j ≠ i → ph j ≠ .holds) (hbody : allocBody (loc i) d = some (l, d')) :
    ∃ L' place', Located w ph (Function.update loc i l) d' L' place' := by
  have hfinds := h.busy i hi
  cases hl : loc i with
  | kalloc =>
    rw [hl] at hfinds hbody
    have hflight : flight ph loc i = none := by
      rw [flight_holds hi, hl]
      rfl
    cases L with
    | nil =>
      have hempty : lstEmpty d.s.mem d.s.freeLst = true := by
        rw [hfinds.freeLst]
        exact (lstEmpty_iff hfinds.ring).mpr rfl
      rw [allocBody, if_pos hempty] at hbody
      obtain ⟨rfl, rfl⟩ := Prod.mk.inj (Option.some.inj hbody)
      refine ⟨[], place, h.access hi hother hfinds ?_⟩
      rw [Function.update_eq_self_iff.mpr hflight.symm]
      exact h.placed
    | cons k L =>
      have hempty : ¬ lstEmpty d.s.mem d.s.freeLst = true := by
        rw [hfinds.freeLst, lstEmpty_iff hfinds.ring]
        exact List.cons_ne_nil _ _
      obtain ⟨m', hpop, hvirt, hlisted⟩ := Pool.lstPop hfinds
      rw [allocBody, if_neg hempty, hpop] at hbody
      dsimp only at hbody
      rw [hvirt] at hbody
      obtain ⟨rfl, rfl⟩ := Prod.mk.inj (Option.some.inj hbody)
      exact ⟨L, _, h.access hi hother ⟨k, rfl, hlisted⟩
        (h.placed.pop (List.nodup_cons.mp hfinds.nodup).1 hflight)⟩
  | popped page =>
    rw [hl] at hfinds hbody
    obtain ⟨k, hk, rfl, hflight⟩ := h.moving hi (p := page) (by rw [hl]; rfl)
    obtain ⟨k', hpage, hlisted⟩ := hfinds
    obtain rfl := w.page_inj hpage
    obtain ⟨rfl, rfl⟩ := Prod.mk.inj (Option.some.inj hbody)
    have hring := (h.placed.push hk hflight).1
    exact ⟨L, _, h.access hi hother (hlisted.bitSet hk hring) (h.placed.give hk hflight)⟩
  | kfree a =>
    rw [hl] at hfinds hbody
    obtain ⟨k, hk, ha, hflight⟩ := h.moving hi (p := pageStart a) (by rw [hl]; rfl)
    obtain ⟨rfl, rfl⟩ := Prod.mk.inj (Option.some.inj hbody)
    obtain ⟨hring, hplaced⟩ := h.placed.push hk hflight
    refine ⟨k :: L, _, h.access hi hother ⟨k, L, ha, rfl, ?_⟩ hplaced⟩
    rw [ha]
    exact Pool.lstPush hfinds hk hring
  | pushed a =>
    rw [hl] at hfinds hbody
    obtain ⟨k, L', ha, rfl, hlisted⟩ := hfinds
    obtain ⟨rfl, rfl⟩ := Prod.mk.inj (Option.some.inj hbody)
    have hflight : flight ph loc i = none := by
      rw [flight_holds hi, hl]
      rfl
    refine ⟨k :: L', place, h.access hi hother ?_ ?_⟩
    · rw [ha]
      exact hlisted.bitClear
    · rw [Function.update_eq_self_iff.mpr hflight.symm]
      exact h.placed
  | panicked =>
    rw [hl] at hfinds
    exact hfinds.elim
  | returned page | freed =>
    rw [hl] at hbody
    exact absurd hbody (by simp [allocBody])

/-- A page that somebody holds is not on the ring. -/
theorem Located.not_ring (h : Located w ph loc d L place) {p : Nat} (hp : p ∈ d.held) :
    ∃ k, w.Allocatable k ∧ k ∉ L ∧ p = w.page k := by
  obtain ⟨k, hk, rfl⟩ := h.placed.held_range p hp
  have hplace := (h.placed.held_iff k hk).mp hp
  exact ⟨k, hk, fun hm => Place.noConfusion (hplace.symm.trans ((h.placed.ring_iff k hk).mp hm)), rfl⟩

/-- The bits of the pages that are held are set, whatever the holder of the lock has done so far. -/
theorem Located.isset (h : Located w ph loc d L place) {a : Nat} (ha : pageStart a ∈ d.held) :
    d.isset a = true := by
  obtain ⟨k, hk, hL, hpage⟩ := h.not_ring ha
  have hcount := w.pageCount_le
  have hlt := hk.2
  have hbit {C : List Nat} (hlisted : Pool w d.s L C) (hC : k ∉ C) : d.isset a = true := by
    rw [Pages.isset, hpage, hlisted.pageIndex hlt, hlisted.alloc, hlisted.bits k (by omega)]
    exact decide_eq_true hC
  by_cases hfree : ∀ i, ph i ≠ .holds
  · exact hbit (h.free hfree) hL
  · obtain ⟨i, hi⟩ := not_forall.mp hfree
    have hi := not_not.mp hi
    have hfinds := h.busy i hi
    cases hl : loc i with
    | popped page =>
      rw [hl] at hfinds
      obtain ⟨k', hpage', hlisted⟩ := hfinds
      refine hbit hlisted fun hm => ?_
      rcases List.mem_cons.mp hm with rfl | hm
      · -- the page that is popped is not held
        have hflight : flight ph loc i = some (w.page k) := by
          rw [flight_holds hi, hl, hpage']
          rfl
        have hheld := (h.placed.held_iff k hk).mp (hpage ▸ ha)
        exact Place.noConfusion (hheld.symm.trans ((h.placed.moving_iff k i hk).mp hflight))
      · exact hL hm
    | pushed a' =>
      rw [hl] at hfinds
      obtain ⟨k', L', -, rfl, hlisted⟩ := hfinds
      exact hbit hlisted fun hm => hL (List.mem_cons_of_mem _ hm)
    | panicked =>
      rw [hl] at hfinds
      exact hfinds.elim
    | kalloc | kfree a' | returned page | freed =>
      rw [hl] at hfinds
      exact hbit hfinds hL

/-- The holder of the lock does not see what others write. -/
theorem Call.Finds.write {s : PhysAlloc} {held : List Nat} {m : Mem} (hl : l.Finds w s L)
    (hheld : ∀ p ∈ held, ∃ k, w.Allocatable k ∧ k ∉ L ∧ p = w.page k)
    (hm : ∀ x, ¬ Foreign w held x → m x = s.mem x) : l.Finds w { s with mem := m } L := by
  cases l with
  | kalloc | kfree a | returned page | freed => exact Pool.write hl hheld hm
  | popped page =>
    obtain ⟨k, hk, hlisted⟩ := hl
    exact ⟨k, hk, hlisted.write hheld hm⟩
  | pushed a =>
    obtain ⟨k, L', ha, hL, hlisted⟩ := hl
    exact ⟨k, L', ha, hL, hlisted.write hheld hm⟩
  | panicked => exact hl

/-- Where a critical section ends. -/
theorem allocBody_eq_none (h : allocBody l d = none) : (∃ page, l = .returned page) ∨ l = .freed := by
  cases l with
  | kalloc =>
    rw [allocBody] at h
    split at h
    · exact absurd h (Option.some_ne_none _)
    · split at h <;> exact absurd h (Option.some_ne_none _)
  | returned page => exact .inl ⟨page, rfl⟩
  | freed => exact .inr rfl
  | _ => exact absurd h (Option.some_ne_none _)

/-- **The invariant is a lock invariant.** -/
theorem located_rule (w : Window) : Guarded.Rule allocBody CallsAlloc (Others w)
    fun ph loc d => ∃ L place, Located w ph loc d L place where
  call := by
    rintro ph loc d d' i l ⟨L, place, h⟩ hi hcall
    have hflight := flight_out loc hi
    cases hcall with
    | kalloc =>
      refine ⟨L, place, h.call hi trivial rfl ?_⟩
      rw [Function.update_eq_self_iff.mpr hflight.symm]
      exact h.placed
    | kfree a hheld hset =>
      obtain ⟨k, hk, -, ha⟩ := h.not_ring hheld
      have hplaced := h.placed.giveBack (ha ▸ hheld) hk hflight
      rw [← ha] at hplaced
      exact ⟨L, _, h.call hi trivial rfl hplaced⟩
  acquire := by
    rintro ph loc d i ⟨L, place, h⟩ hi hfree
    exact ⟨L, place, h.acquire hi hfree⟩
  access := by
    rintro ph loc d d' i l ⟨L, place, h⟩ hi hother hbody
    exact h.body hi hother hbody
  release := by
    rintro ph loc d i ⟨L, place, h⟩ hi hother hbody
    have hfinds := h.busy i hi
    rcases allocBody_eq_none hbody with ⟨page, hl⟩ | hl
    · rw [hl] at hfinds
      exact ⟨L, place, h.release hi hother hfinds (by rw [hl]; rfl)⟩
    · rw [hl] at hfinds
      exact ⟨L, place, h.release hi hother hfinds (by rw [hl]; rfl)⟩
  write := by
    rintro ph loc d d' ⟨L, place, h⟩ hothers
    cases hothers with
    | write m hm =>
      have hheld (p : Nat) (hp : p ∈ d.held) := h.not_ring hp
      exact ⟨L, place, fun hfree => (h.free hfree).write hheld hm,
        fun i hi => (h.busy i hi).write hheld hm, h.waits, h.placed⟩
    | kfree a hheld hclear => exact absurd (h.isset hheld) (by simp [hclear])

end Steps

/-! ## The result -/

/-- Before the first call, all pages are on the ring. -/
theorem located_init (w : Window) {s : PhysAlloc} {start size : Nat}
    (hb : w.base = pageStart start + 4096) (hc : w.pageCount = size / 4096)
    (hf : s.freeLst = w.freeLst) :
    Located w (fun _ => .out) (fun _ => .freed) ⟨s.initPhysAllocator start size, []⟩
      (List.range' w.index (w.pageCount - w.index)) fun _ => .ring := by
  have hfree := initPhysAllocator_spec w hb hc hf
  have hle := w.index_le
  refine ⟨fun _ => hfree.pool, fun i hi => Phase.noConfusion hi, fun i hi => Phase.noConfusion hi,
    hfree.range, fun p hp => absurd hp List.not_mem_nil, fun i p hp => ?_, fun k hk => ?_,
    fun k hk => ?_, fun k i hk => ?_, List.nodup_nil⟩
  · exact absurd ((flight_out _ rfl).symm.trans hp) (Option.some_ne_none p).symm
  · obtain ⟨h₁, h₂⟩ := hk
    rw [List.mem_range'_1]
    simp only [iff_true]
    omega
  · simp
  · rw [flight_out _ rfl]
    simp

/-- A page that somebody moves, while no processor is inside. -/
theorem moving_kfree {ph : Nat → Phase} {loc : Nat → Call} {i p : Nat}
    (hi : ph i ≠ .holds) (hbegins : ph i = .waits → (loc i).Begins) :
    flight ph loc i = some p ↔ ph i = .waits ∧ ∃ a, loc i = .kfree a ∧ pageStart a = p := by
  unfold flight
  cases hph : ph i with
  | out =>
    rw [page_out]
    simp
  | holds => exact absurd hph hi
  | waits =>
    have hb := hbegins hph
    cases hl : loc i with
    | kfree a => simp [Call.page]
    | kalloc => simp [Call.page]
    | _ =>
      rw [hl] at hb
      exact hb.elim

/-- While no processor is inside, the ring has the pages that are neither held nor about to be
freed. -/
theorem Located.mem_ring_iff {w : Window} {ph : Nat → Phase} {loc : Nat → Call} {d : Pages}
    {L : List Nat} {place : Nat → Place} (h : Located w ph loc d L place)
    (hfree : ∀ i, ph i ≠ .holds) {k : Nat} (hk : w.Allocatable k) :
    k ∈ L ↔ w.page k ∉ d.held ∧
      ∀ i a, ph i = .waits → loc i = .kfree a → pageStart a ≠ w.page k := by
  have hmoving (i : Nat) := (h.placed.moving_iff k i hk).symm.trans
    (moving_kfree (hfree i) (h.waits i))
  rw [h.placed.ring_iff k hk, h.placed.held_iff k hk]
  constructor
  · intro hring
    refine ⟨fun hheld => Place.noConfusion (hring.symm.trans hheld), fun i a hi hl ha => ?_⟩
    exact Place.noConfusion (hring.symm.trans ((hmoving i).mpr ⟨hi, a, hl, ha⟩))
  · rintro ⟨hheld, hno⟩
    cases hplace : place k with
    | ring => rfl
    | held => exact absurd hplace hheld
    | moving i =>
      obtain ⟨hi, a, hl, ha⟩ := (hmoving i).mp hplace
      exact absurd ha (hno i a hi hl)

/-- **The page allocator is sound on several processors.** On any number of processors and in every
interleaving of `kalloc`, of `kfree` of a page that somebody holds, and of writes of the holders to
their pages: no page is held twice, the pages that are held are allocatable ones and the test of
`kfree` finds their bits set, and `lst_pop` never panics. Whenever no processor is inside, the ring
and the bitmap agree, and the ring has exactly the pages that are neither held nor about to be
freed. -/
theorem smp_pages_sound (w : Window) {s : PhysAlloc} {start size : Nat}
    {g : Guarded Shared Nat Call Pages} (hb : w.base = pageStart start + 4096)
    (hc : w.pageCount = size / 4096) (hf : s.freeLst = w.freeLst)
    (hrun : PagesRun w (s.initPhysAllocator start size) g) :
    g.data.held.Nodup ∧
      (∀ p ∈ g.data.held, (∃ k, w.Allocatable k ∧ p = w.page k) ∧
        ∀ a, pageStart a = p → g.data.isset a = true) ∧
      (∀ i, g.lock.pc i = .holds → g.loc i ≠ .panicked) ∧
      ((∀ i, g.lock.pc i ≠ .holds) → ∃ L, FreeList w g.data.s L ∧ ∀ k, w.Allocatable k →
        (k ∈ L ↔ w.page k ∉ g.data.held ∧
          ∀ i a, (g.lock.pc i).phase = .waits → g.loc i = .kfree a → pageStart a ≠ w.page k)) := by
  obtain ⟨L, place, h⟩ := hrun.invariant (located_rule w) ⟨_, _, located_init w hb hc hf⟩
  refine ⟨h.placed.nodup, fun p hp => ⟨h.placed.held_range p hp, fun a ha => ?_⟩,
    fun i hi hl => ?_, fun hfree => ⟨L, ?_, fun k hk => ?_⟩⟩
  · exact h.isset (ha ▸ hp)
  · have hfinds := h.busy i (Pc.phase_eq_holds.mpr hi)
    rw [hl] at hfinds
    exact hfinds
  · exact (h.free fun i hi => hfree i (Pc.phase_eq_holds.mp hi)).freeList
  · exact h.mem_ring_iff (fun i hi => hfree i (Pc.phase_eq_holds.mp hi)) hk

/-- Two processors have called `kalloc` on the small window. -/
def twoCalls : Guarded Shared Nat Call Pages :=
  ⟨(Shared.init.next 0).next 1,
    Function.update (Function.update (fun _ => .freed) 0 .kalloc) 1 .kalloc,
    ⟨bootAlloc.initPhysAllocator 0x1234 0x3fff, []⟩⟩

/-- The processor `i` calls `kfree`. -/
def callsKfree (g : Guarded Shared Nat Call Pages) (i a : Nat) : Guarded Shared Nat Call Pages :=
  ⟨g.lock.next i, Function.update g.loc i (.kfree a), g.data.giveBack a⟩

/-- The second processor waits while the first one takes a page, and has taken the other from the ring
when the first one frees its page again. -/
theorem smp_pages_sound_two : ∃ g,
    PagesRun smallWindow (bootAlloc.initPhysAllocator 0x1234 0x3fff) g ∧ g.data.held = [0x4000] ∧
      g.data.isset 0x3abc = false ∧ g.data.isset 0x4abc = true := by
  have hcalls : PagesRun smallWindow (bootAlloc.initPhysAllocator 0x1234 0x3fff) twoCalls :=
    .step (.call 1 .kalloc _) (.step (.call 0 .kalloc _) .init ⟨rfl, .kalloc⟩ rfl) ⟨rfl, .kalloc⟩ rfl
  have hany : (runActions (fun g i => some (g.stepOf spinlock allocBody i))
      (fun g i => g.lock.pc i ≠ .idle) twoCalls
      [0, 0, 0, 0, 1, 1, 1, 0, 0, 0, 0, 1, 1, 1]).any fun g₁ =>
        decide (g₁.lock.pc 0 = .idle ∧ 0x3000 ∈ g₁.data.held ∧ g₁.data.isset 0x3abc = true) &&
        (runActions (fun g i => some (g.stepOf spinlock allocBody i))
          (fun g i => g.lock.pc i ≠ .idle) (callsKfree g₁ 0 0x3abc)
          [0, 1, 0, 1, 1, 1, 0, 0, 0, 0, 0, 0, 0]).any fun g =>
            decide (g.data.held = [0x4000] ∧ g.data.isset 0x3abc = false) := by
    decide +kernel
  obtain ⟨g₁, hg₁, hany⟩ := (Option.any_eq_true _ _).mp hany
  obtain ⟨hcall, hany⟩ := Bool.and_eq_true_iff.mp hany
  obtain ⟨g, hg, hdata⟩ := (Option.any_eq_true _ _).mp hany
  obtain ⟨hidle, hheld, hset⟩ := of_decide_eq_true hcall
  obtain ⟨hheld', hclear⟩ := of_decide_eq_true hdata
  have hkfree : PagesRun smallWindow (bootAlloc.initPhysAllocator 0x1234 0x3fff)
      (callsKfree g₁ 0 0x3abc) :=
    .step (.call 0 (.kfree 0x3abc) _) (hcalls.steps hg₁) ⟨hidle, .kfree 0x3abc hheld hset⟩ rfl
  have hrun := hkfree.steps hg
  refine ⟨g, hrun, hheld', hclear, ?_⟩
  exact ((smp_pages_sound smallWindow rfl rfl rfl hrun).2.1 0x4000
    (hheld' ▸ List.mem_singleton.mpr rfl)).2 0x4abc rfl

end Colibri.Memory
