import Colibri.Lib.Mem
import Colibri.Lib.Ring
import Colibri.Lib.U64

/-!
# `struct lst`

Model of `kernel/list.c` over byte memory. A node is sixteen bytes: `prev`, then `next`. The
functions are given the memory and return it.

`MemRing node m h L`: the nodes at `h` and `L` form a ring in `m`. The addresses come from a set
`node` of addresses that are far enough apart (`Spaced`), so writing one node leaves the others
alone.
-/

namespace Colibri.Memory

open Colibri.Lib

/-- `n->prev`. -/
def lstPrev (m : Mem) (n : Nat) : Nat := m.load n 8

/-- `n->next`. -/
def lstNext (m : Mem) (n : Nat) : Nat := m.load (n + 8) 8

/-- `n->prev = p`. -/
def lstSetPrev (m : Mem) (n p : Nat) : Mem := m.store n 8 p

/-- `n->next = p`. -/
def lstSetNext (m : Mem) (n p : Nat) : Mem := m.store (n + 8) 8 p

/-- `lst_init`. -/
def lstInit (m : Mem) (lst : Nat) : Mem := lstSetPrev (lstSetNext m lst lst) lst lst

/-- `lst_empty`. -/
def lstEmpty (m : Mem) (lst : Nat) : Bool := lstNext m lst = lst

/-- `lst_push`. -/
def lstPush (m : Mem) (lst n : Nat) : Mem :=
  let m := lstSetNext m n (lstNext m lst)
  let m := lstSetPrev m n lst
  let m := if lstNext m lst ≠ 0 then lstSetPrev m (lstNext m lst) n else m
  lstSetNext m lst n

/-- `lst_push_end`. -/
def lstPushEnd (m : Mem) (lst n : Nat) : Mem :=
  let m := lstSetPrev m n (lstPrev m lst)
  let m := lstSetNext m n lst
  let m := lstSetNext m (lstPrev m lst) n
  lstSetPrev m lst n

/-- `lst_pop`; `none` is its panic on an empty list. -/
def lstPop (m : Mem) (lst : Nat) : Option (Mem × Nat) :=
  if lstNext m lst = lst then none
  else
    let n := lstNext m lst
    let m := lstSetPrev m (lstNext m n) lst
    some (lstSetNext m lst (lstNext m n), n)

/-- `lst_pop_end`; `none` is its panic on an empty list. -/
def lstPopEnd (m : Mem) (lst : Nat) : Option (Mem × Nat) :=
  if lstPrev m lst = lst then none
  else
    let p := lstPrev m lst
    let m := lstSetNext m (lstPrev m p) lst
    some (lstSetPrev m lst (lstPrev m p), p)

/-! ## Nodes that do not overlap -/

/-- The nodes at these addresses do not overlap, and their addresses are `u64` values other than
`NULL`. -/
structure Spaced (node : Nat → Prop) : Prop where
  apart : ∀ {a b}, node a → node b → a ≠ b → Mem.Disjoint a 16 b 16
  pos : ∀ {a}, node a → 0 < a
  lt : ∀ {a}, node a → a < u64Size

theorem u64Size_eq_pow : u64Size = 256 ^ 8 := by decide

variable {node : Nat → Prop}

theorem lstNext_setPrev (hs : Spaced node) {m : Mem} {a b v : Nat} (ha : node a) (hb : node b) :
    lstNext (lstSetPrev m a v) b = lstNext m b := by
  refine Mem.load_store_of_disjoint ?_
  by_cases hab : a = b
  · exact .inl (by omega)
  · rcases hs.apart ha hb hab with h | h
    · exact .inl (by omega)
    · exact .inr (by omega)

theorem lstPrev_setNext (hs : Spaced node) {m : Mem} {a b v : Nat} (ha : node a) (hb : node b) :
    lstPrev (lstSetNext m a v) b = lstPrev m b := by
  refine Mem.load_store_of_disjoint ?_
  by_cases hab : a = b
  · exact .inr (by omega)
  · rcases hs.apart ha hb hab with h | h
    · exact .inl (by omega)
    · exact .inr (by omega)

theorem lstNext_setNext (hs : Spaced node) {m : Mem} {a b v : Nat} (ha : node a) (hb : node b)
    (hv : node v) : lstNext (lstSetNext m a v) b = if b = a then v else lstNext m b := by
  by_cases hab : b = a
  · subst hab
    rw [if_pos rfl, lstNext, lstSetNext, Mem.load_store, ← u64Size_eq_pow,
      Nat.mod_eq_of_lt (hs.lt hv)]
  · rw [if_neg hab]
    refine Mem.load_store_of_disjoint ?_
    rcases hs.apart ha hb (Ne.symm hab) with h | h
    · exact .inl (by omega)
    · exact .inr (by omega)

theorem lstPrev_setPrev (hs : Spaced node) {m : Mem} {a b v : Nat} (ha : node a) (hb : node b)
    (hv : node v) : lstPrev (lstSetPrev m a v) b = if b = a then v else lstPrev m b := by
  by_cases hab : b = a
  · subst hab
    rw [if_pos rfl, lstPrev, lstSetPrev, Mem.load_store, ← u64Size_eq_pow,
      Nat.mod_eq_of_lt (hs.lt hv)]
  · rw [if_neg hab]
    refine Mem.load_store_of_disjoint ?_
    rcases hs.apart ha hb (Ne.symm hab) with h | h
    · exact .inl (by omega)
    · exact .inr (by omega)

/-- `m'` agrees with `m` outside the nodes. -/
def SameOutside (node : Nat → Prop) (m m' : Mem) : Prop :=
  ∀ i, (∀ a, node a → i < a ∨ a + 16 ≤ i) → m' i = m i

theorem SameOutside.refl (m : Mem) : SameOutside node m m := fun _ _ => rfl

theorem SameOutside.trans {m m' m'' : Mem} (h : SameOutside node m m')
    (h' : SameOutside node m' m'') : SameOutside node m m'' :=
  fun i hi => (h' i hi).trans (h i hi)

theorem sameOutside_setNext {m : Mem} {a v : Nat} (ha : node a) :
    SameOutside node m (lstSetNext m a v) :=
  fun _ hi => Mem.store_of_notMem (by rcases hi a ha with h | h <;> omega)

theorem sameOutside_setPrev {m : Mem} {a v : Nat} (ha : node a) :
    SameOutside node m (lstSetPrev m a v) :=
  fun _ hi => Mem.store_of_notMem (by rcases hi a ha with h | h <;> omega)

/-! ## Rings in memory -/

/-- The nodes at `h` and `L` form a ring. -/
structure MemRing (node : Nat → Prop) (m : Mem) (h : Nat) (L : List Nat) : Prop where
  ring : LinkRing (lstNext m) (lstPrev m) h L
  mem : ∀ a ∈ h :: L, node a

/-- **`lst_init`** makes an empty ring. -/
theorem lstInit_spec (hs : Spaced node) (m : Mem) {h : Nat} (hh : node h) :
    MemRing node (lstInit m h) h [] ∧ SameOutside node m (lstInit m h) := by
  refine ⟨⟨ring_nil_iff.mpr ⟨?_, ?_⟩, by simpa using hh⟩, ?_⟩
  · rw [lstInit, lstNext_setPrev hs hh hh, lstNext_setNext hs hh hh hh, if_pos rfl]
  · rw [lstInit, lstPrev_setPrev hs hh hh hh, if_pos rfl]
  · exact (sameOutside_setNext hh).trans (sameOutside_setPrev hh)

theorem MemRing.node_next {m : Mem} {h : Nat} {L : List Nat} (hr : MemRing node m h L) :
    node (lstNext m h) := by
  rw [hr.ring.next_head]
  cases L with
  | nil => exact hr.mem h (by simp)
  | cons a L => exact hr.mem a (by simp)

theorem MemRing.node_prev {m : Mem} {h : Nat} {L : List Nat} (hr : MemRing node m h L) :
    node (lstPrev m h) := by
  rw [hr.ring.prev_head]
  rcases List.eq_nil_or_concat L with rfl | ⟨L', a, rfl⟩
  · exact hr.mem h (by simp)
  · exact hr.mem _ (by simp)

/-- A ring does not see writes outside its nodes. -/
theorem MemRing.congr {m m' : Mem} {h : Nat} {L : List Nat} (hr : MemRing node m h L)
    (hm : ∀ a ∈ h :: L, ∀ i, a ≤ i → i < a + 16 → m' i = m i) : MemRing node m' h L := by
  refine ⟨hr.ring.congr (fun a ha => ?_) fun a ha => ?_, hr.mem⟩
  · exact Mem.load_congr fun i hi hi' => hm a ha i (by omega) (by omega)
  · exact Mem.load_congr fun i hi hi' => hm a ha i hi (by omega)

/-- **`lst_push`** puts the node first. -/
theorem lstPush_spec (hs : Spaced node) {m : Mem} {h n : Nat} {L : List Nat}
    (hr : MemRing node m h L) (hn : node n) (hnew : n ∉ h :: L) :
    MemRing node (lstPush m h n) h (n :: L) ∧ SameOutside node m (lstPush m h n) := by
  have hh := hr.mem h (by simp)
  have hq := hr.node_next
  have hne : n ≠ h := fun e => hnew (by simp [e])
  -- the two writes to the new node leave the links of the ring alone
  obtain ⟨m₁, hm₁⟩ : ∃ m₁, m₁ = lstSetNext m n (lstNext m h) := ⟨_, rfl⟩
  obtain ⟨m₂, hm₂⟩ : ∃ m₂, m₂ = lstSetPrev m₁ n h := ⟨_, rfl⟩
  have hnext₂ : ∀ {a}, node a → lstNext m₂ a = if a = n then lstNext m h else lstNext m a := by
    intro a ha
    rw [hm₂, lstNext_setPrev hs hn ha, hm₁, lstNext_setNext hs hn ha hq]
  have hprev₂ : ∀ {a}, node a → lstPrev m₂ a = if a = n then h else lstPrev m a := by
    intro a ha
    rw [hm₂, lstPrev_setPrev hs hn ha hh, hm₁, lstPrev_setNext hs hn ha]
  have hq₂ : lstNext m₂ h = lstNext m h := by rw [hnext₂ hh, if_neg hne.symm]
  have heq : lstPush m h n = lstSetNext (lstSetPrev m₂ (lstNext m h) n) h n := by
    have h0 := hs.pos hq
    simp only [lstPush, ← hm₁, ← hm₂, hq₂]
    rw [if_pos (by omega)]
  rw [heq]
  refine ⟨⟨?_, ?_⟩, ?_⟩
  · have hqn : lstNext m h ≠ n := by
      intro e
      have := hr.ring.next_head
      rw [e] at this
      cases L with
      | nil => exact hne this
      | cons a L => exact hnew (by simp [this])
    refine hr.ring.insertFront hnew ?_ ?_ ?_ ?_ ?_ ?_
    · rw [lstNext_setNext hs hh hh hn, if_pos rfl]
    · rw [lstNext_setNext hs hh hn hn, if_neg hne, lstNext_setPrev hs hq hn, hnext₂ hn, if_pos rfl]
    · rw [lstPrev_setNext hs hh hq, lstPrev_setPrev hs hq hq hn, if_pos rfl]
    · rw [lstPrev_setNext hs hh hn, lstPrev_setPrev hs hq hn hn, if_neg hqn.symm, hprev₂ hn,
        if_pos rfl]
    · intro a ha hap
      have han : a ≠ n := fun e => hnew (e ▸ ha)
      have hna := hr.mem a ha
      rw [lstNext_setNext hs hh hna hn, if_neg hap, lstNext_setPrev hs hq hna, hnext₂ hna,
        if_neg han]
    · intro a ha haq
      have han : a ≠ n := fun e => hnew (e ▸ ha)
      have hna := hr.mem a ha
      rw [lstPrev_setNext hs hh hna, lstPrev_setPrev hs hq hna hn, if_neg haq, hprev₂ hna,
        if_neg han]
  · intro a ha
    rcases List.mem_cons.mp ha with rfl | ha
    · exact hh
    · rcases List.mem_cons.mp ha with rfl | ha
      · exact hn
      · exact hr.mem a (List.mem_cons_of_mem _ ha)
  · rw [hm₂, hm₁]
    exact (((sameOutside_setNext hn).trans (sameOutside_setPrev hn)).trans
      (sameOutside_setPrev hq)).trans (sameOutside_setNext hh)

/-- **`lst_push_end`** puts the node last. -/
theorem lstPushEnd_spec (hs : Spaced node) {m : Mem} {h n : Nat} {L : List Nat}
    (hr : MemRing node m h L) (hn : node n) (hnew : n ∉ h :: L) :
    MemRing node (lstPushEnd m h n) h (L ++ [n]) ∧ SameOutside node m (lstPushEnd m h n) := by
  have hh := hr.mem h (by simp)
  have hp := hr.node_prev
  have hne : n ≠ h := fun e => hnew (by simp [e])
  obtain ⟨m₁, hm₁⟩ : ∃ m₁, m₁ = lstSetPrev m n (lstPrev m h) := ⟨_, rfl⟩
  obtain ⟨m₂, hm₂⟩ : ∃ m₂, m₂ = lstSetNext m₁ n h := ⟨_, rfl⟩
  have hnext₂ : ∀ {a}, node a → lstNext m₂ a = if a = n then h else lstNext m a := by
    intro a ha
    rw [hm₂, lstNext_setNext hs hn ha hh, hm₁, lstNext_setPrev hs hn ha]
  have hprev₂ : ∀ {a}, node a → lstPrev m₂ a = if a = n then lstPrev m h else lstPrev m a := by
    intro a ha
    rw [hm₂, lstPrev_setNext hs hn ha, hm₁, lstPrev_setPrev hs hn ha hp]
  have hp₂ : lstPrev m₂ h = lstPrev m h := by rw [hprev₂ hh, if_neg hne.symm]
  have heq : lstPushEnd m h n = lstSetPrev (lstSetNext m₂ (lstPrev m h) n) h n := by
    simp only [lstPushEnd, ← hm₁, ← hm₂, hp₂]
  rw [heq]
  refine ⟨⟨?_, ?_⟩, ?_⟩
  · have hpn : lstPrev m h ≠ n := by
      intro e
      have hm := hr.ring.prev_head
      rw [e] at hm
      rcases List.eq_nil_or_concat L with rfl | ⟨L', a, rfl⟩
      · exact hne hm
      · exact hnew (by simp at hm; simp [hm])
    refine hr.ring.insertBack hnew ?_ ?_ ?_ ?_ ?_ ?_
    · rw [lstNext_setPrev hs hh hp, lstNext_setNext hs hp hp hn, if_pos rfl]
    · rw [lstNext_setPrev hs hh hn, lstNext_setNext hs hp hn hn, if_neg hpn.symm, hnext₂ hn,
        if_pos rfl]
    · rw [lstPrev_setPrev hs hh hh hn, if_pos rfl]
    · rw [lstPrev_setPrev hs hh hn hn, if_neg hne, lstPrev_setNext hs hp hn, hprev₂ hn, if_pos rfl]
    · intro a ha hap
      have han : a ≠ n := fun e => hnew (e ▸ ha)
      have hna := hr.mem a ha
      rw [lstNext_setPrev hs hh hna, lstNext_setNext hs hp hna hn, if_neg hap, hnext₂ hna,
        if_neg han]
    · intro a ha hah
      have han : a ≠ n := fun e => hnew (e ▸ ha)
      have hna := hr.mem a ha
      rw [lstPrev_setPrev hs hh hna hn, if_neg hah, lstPrev_setNext hs hp hna, hprev₂ hna,
        if_neg han]
  · intro a ha
    rcases List.mem_cons.mp ha with rfl | ha
    · exact hh
    · rcases List.mem_append.mp ha with ha | ha
      · exact hr.mem a (List.mem_cons_of_mem _ ha)
      · rw [List.mem_singleton.mp ha]
        exact hn
  · rw [hm₂, hm₁]
    exact (((sameOutside_setPrev hn).trans (sameOutside_setNext hn)).trans
      (sameOutside_setNext hp)).trans (sameOutside_setPrev hh)

theorem lstEmpty_iff {m : Mem} {h : Nat} {L : List Nat} (hr : MemRing node m h L) :
    lstEmpty m h = true ↔ L = [] := by
  rw [lstEmpty, decide_eq_true_iff, hr.ring.next_head_eq_iff]

/-- **`lst_pop`** takes the first node out. -/
theorem lstPop_spec (hs : Spaced node) {m : Mem} {h n : Nat} {L : List Nat}
    (hr : MemRing node m h (n :: L)) :
    ∃ m', lstPop m h = some (m', n) ∧ MemRing node m' h L ∧ SameOutside node m m' := by
  have hh := hr.mem h (by simp)
  have hn := hr.mem n (by simp)
  have hne : n ≠ h := fun e => (List.nodup_cons.mp hr.ring.nodup).1 (by simp [e])
  have hnh : lstNext m h = n := hr.ring.next_head
  have hq : node (lstNext m n) := by
    rw [(LinkRing.neighbours (show LinkRing _ _ h ([] ++ n :: L) from hr.ring)).2]
    cases L with
    | nil => exact hh
    | cons a L => exact hr.mem a (by simp)
  have hmem : ∀ a ∈ h :: L, node a := by
    intro a ha
    rcases List.mem_cons.mp ha with rfl | ha
    · exact hh
    · exact hr.mem a (by simp [ha])
  refine ⟨lstSetNext (lstSetPrev m (lstNext m n) h) h (lstNext m n), ?_, ⟨?_, hmem⟩,
    (sameOutside_setPrev hq).trans (sameOutside_setNext hh)⟩
  · rw [lstPop, if_neg (by rw [hnh]; exact hne)]
    simp only [hnh, lstNext_setPrev hs hq hn]
  · refine hr.ring.unlinkFront ?_ ?_ ?_ ?_
    · rw [lstNext_setNext hs hh hh hq, if_pos rfl]
    · rw [lstPrev_setNext hs hh hq, lstPrev_setPrev hs hq hq hh, if_pos rfl]
    · intro a ha hah
      rw [lstNext_setNext hs hh (hmem a ha) hq, if_neg hah, lstNext_setPrev hs hq (hmem a ha)]
    · intro a ha haq
      rw [lstPrev_setNext hs hh (hmem a ha), lstPrev_setPrev hs hq (hmem a ha) hh, if_neg haq]

/-- **`lst_pop_end`** takes the last node out. -/
theorem lstPopEnd_spec (hs : Spaced node) {m : Mem} {h n : Nat} {L : List Nat}
    (hr : MemRing node m h (L ++ [n])) :
    ∃ m', lstPopEnd m h = some (m', n) ∧ MemRing node m' h L ∧ SameOutside node m m' := by
  have hh := hr.mem h (by simp)
  have hn := hr.mem n (by simp)
  have hne : n ≠ h := fun e => (List.nodup_cons.mp hr.ring.nodup).1 (by simp [e])
  have hpn : lstPrev m h = n := by rw [hr.ring.prev_head, List.getLastD_concat]
  have hmem : ∀ a ∈ h :: L, node a := by
    intro a ha
    rcases List.mem_cons.mp ha with rfl | ha
    · exact hh
    · exact hr.mem a (by simp [ha])
  have hp : node (lstPrev m n) := by
    rw [(LinkRing.neighbours hr.ring).1]
    rcases List.eq_nil_or_concat L with rfl | ⟨L', a, rfl⟩
    · exact hh
    · exact hr.mem _ (by simp)
  refine ⟨lstSetPrev (lstSetNext m (lstPrev m n) h) h (lstPrev m n), ?_, ⟨?_, hmem⟩,
    (sameOutside_setNext hp).trans (sameOutside_setPrev hh)⟩
  · rw [lstPopEnd, if_neg (by rw [hpn]; exact hne)]
    simp only [hpn, lstPrev_setNext hs hp hn]
  · refine hr.ring.unlinkBack ?_ ?_ ?_ ?_
    · rw [lstNext_setPrev hs hh hp, lstNext_setNext hs hp hp hh, if_pos rfl]
    · rw [lstPrev_setPrev hs hh hh hp, if_pos rfl]
    · intro a ha hap
      rw [lstNext_setPrev hs hh (hmem a ha), lstNext_setNext hs hp (hmem a ha) hh, if_neg hap]
    · intro a ha hah
      rw [lstPrev_setPrev hs hh (hmem a ha) hp, if_neg hah, lstPrev_setNext hs hp (hmem a ha)]

end Colibri.Memory
