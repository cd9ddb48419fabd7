import Colibri.Memory.Heap

/-!
# Lists of heap nodes

What the list of `heap.c` is, apart from the memory it lies in: a list of `HeapNode`s laid out in
address order. `Layout R lo nodes hi` says how: from each node to the next the addresses are in the
relation `R`. With `=` the nodes tile the range from `lo` to `hi`; with `≤` they tile regions of it
that may be apart. `Seg m p nodes q` says that the headers in the memory `m` are those of `nodes`,
linked in both directions.

The operations of the heap replace a node or two of the list; the lemmas here say what that does to
the layout and to the links of the others.
-/

namespace Colibri.Memory

open Colibri.Lib HeapField

/-- A node, as its header describes it. -/
structure HeapNode where
  addr : Nat
  size : Nat
  used : Bool
  deriving DecidableEq

namespace HeapNode

/-- The first address behind the node's block. -/
def stop (n : HeapNode) : Nat := n.addr + heapNodeSize + n.size

/-- The pointer to the node's block. -/
def ptr (n : HeapNode) : Nat := n.addr + heapNodeSize

/-- The two nodes are free and adjacent. -/
def Joins (n k : HeapNode) : Prop := n.used = false ∧ k.used = false ∧ n.stop = k.addr

instance (n k : HeapNode) : Decidable (n.Joins k) := inferInstanceAs (Decidable (_ ∧ _ ∧ _))

/-- `n` with the node behind it merged into it. -/
def absorb (n k : HeapNode) : HeapNode := { n with size := n.size + (k.size + heapNodeSize) }

/-- `n`, freed. -/
def release (n : HeapNode) : HeapNode := { n with used := false }

@[simp] theorem absorb_addr (n k : HeapNode) : (n.absorb k).addr = n.addr := rfl

@[simp] theorem absorb_used (n k : HeapNode) : (n.absorb k).used = n.used := rfl

@[simp] theorem release_addr (n : HeapNode) : n.release.addr = n.addr := rfl

@[simp] theorem release_stop (n : HeapNode) : n.release.stop = n.stop := rfl

@[simp] theorem release_used (n : HeapNode) : n.release.used = false := rfl

@[simp] theorem release_size (n : HeapNode) : n.release.size = n.size := rfl

theorem absorb_stop {n k : HeapNode} (h : n.stop = k.addr) : (n.absorb k).stop = k.stop := by
  simp only [stop, absorb] at h ⊢
  omega

theorem addr_add_le_stop (n : HeapNode) : n.addr + heapNodeSize ≤ n.stop := Nat.le_add_right _ _

theorem stop_pos (n : HeapNode) : 0 < n.stop := by
  rw [stop, heapNodeSize]
  omega

end HeapNode

open HeapNode

/-- The node `n` before `r`, merged with the head of `r` where both are free and adjacent. -/
def coalesce (n : HeapNode) : List HeapNode → List HeapNode
  | [] => [n]
  | k :: r => if n.Joins k then n.absorb k :: r else n :: k :: r

/-- The list after the node `n` between `l` and `r` is freed. -/
def freed (l : List HeapNode) (n : HeapNode) (r : List HeapNode) : List HeapNode :=
  match l.getLast? with
  | none => coalesce n.release r
  | some p => l.dropLast ++ coalesce p (coalesce n.release r)

@[simp] theorem freed_nil (n : HeapNode) (r : List HeapNode) :
    freed [] n r = coalesce n.release r := rfl

@[simp] theorem freed_concat (l : List HeapNode) (p n : HeapNode) (r : List HeapNode) :
    freed (l ++ [p]) n r = l ++ coalesce p (coalesce n.release r) := by
  simp [freed]

/-- What merging to the right leaves starts with the same node. -/
theorem coalesce_eq_cons (n : HeapNode) (r : List HeapNode) :
    ∃ n' r', coalesce n r = n' :: r' ∧ n'.addr = n.addr ∧ n'.used = n.used ∧
      (r' = [] ↔ r = [] ∨ ∃ k, r = [k] ∧ n.Joins k) := by
  cases r with
  | nil => exact ⟨n, [], rfl, rfl, rfl, by simp⟩
  | cons k r =>
    rw [coalesce]
    split
    case isTrue hj => exact ⟨_, _, rfl, rfl, rfl, by simp [hj]⟩
    case isFalse hj => exact ⟨_, _, rfl, rfl, rfl, by simp [hj]⟩

/-- Merging makes no new headers. -/
theorem mem_coalesce {n k : HeapNode} {r : List HeapNode} (hk : k ∈ coalesce n r) :
    ∃ k' ∈ n :: r, k'.addr = k.addr := by
  cases r with
  | nil => exact ⟨k, hk, rfl⟩
  | cons j r =>
    rw [coalesce] at hk
    split at hk
    case isFalse => exact ⟨k, hk, rfl⟩
    case isTrue =>
      rcases List.mem_cons.mp hk with rfl | hk
      · exact ⟨n, List.mem_cons_self, rfl⟩
      · exact ⟨k, by simp [hk], rfl⟩

/-- The address of the first node, or `q`. -/
def firstAddr : List HeapNode → Nat → Nat
  | [], q => q
  | n :: _, _ => n.addr

/-- The address of the last node, or `p`. -/
def lastAddr : Nat → List HeapNode → Nat
  | p, [] => p
  | _, n :: ns => lastAddr n.addr ns

@[simp] theorem firstAddr_append (l r : List HeapNode) (q : Nat) :
    firstAddr (l ++ r) q = firstAddr l (firstAddr r q) := by
  cases l <;> rfl

@[simp] theorem lastAddr_append (p : Nat) (l r : List HeapNode) :
    lastAddr p (l ++ r) = lastAddr (lastAddr p l) r := by
  induction l generalizing p with
  | nil => rfl
  | cons n l ih => exact ih n.addr

@[simp] theorem firstAddr_coalesce (n : HeapNode) (r : List HeapNode) (q : Nat) :
    firstAddr (coalesce n r) q = n.addr := by
  cases r with
  | nil => rfl
  | cons k r =>
    rw [coalesce]
    split <;> rfl

@[simp] theorem firstAddr_freed (l : List HeapNode) (n : HeapNode) (r : List HeapNode) (q : Nat) :
    firstAddr (freed l n r) q = firstAddr (l ++ n :: r) q := by
  rcases List.eq_nil_or_concat' l with rfl | ⟨l, p, rfl⟩
  · rw [freed_nil, firstAddr_coalesce]
    rfl
  · rw [freed_concat, List.append_assoc, firstAddr_append, firstAddr_append, firstAddr_coalesce]
    rfl

/-! ## The layout -/

/-- The nodes are in address order, from `lo` to `hi`, each related by `R` to the end of the one
before it. -/
def Layout (R : Nat → Nat → Prop) : Nat → List HeapNode → Nat → Prop
  | lo, [], hi => R lo hi
  | lo, n :: ns, hi => R lo n.addr ∧ Layout R n.stop ns hi

instance Layout.decidable {R : Nat → Nat → Prop} [DecidableRel R] :
    ∀ lo nodes hi, Decidable (Layout R lo nodes hi)
  | lo, [], hi => inferInstanceAs (Decidable (R lo hi))
  | lo, n :: ns, hi =>
    have := Layout.decidable (R := R) n.stop ns hi
    inferInstanceAs (Decidable (R lo n.addr ∧ Layout R n.stop ns hi))

section Layout

variable {R : Nat → Nat → Prop} {lo hi : Nat} {l r : List HeapNode} {n k : HeapNode}

theorem Layout.append_iff : Layout R lo (l ++ n :: r) hi ↔
    Layout R lo l n.addr ∧ Layout R n.stop r hi := by
  induction l generalizing lo with
  | nil => rfl
  | cons a l ih => exact ⟨fun ⟨h, hl⟩ => ⟨⟨h, (ih.mp hl).1⟩, (ih.mp hl).2⟩,
      fun ⟨⟨h, hl⟩, hr⟩ => ⟨h, ih.mpr ⟨hl, hr⟩⟩⟩

/-- Merging adjacent nodes keeps the layout. -/
theorem Layout.weaken (h : Layout (· = ·) lo l hi) : Layout (· ≤ ·) lo l hi := by
  induction l generalizing lo with
  | nil => exact Nat.le_of_eq h
  | cons n l ih => exact ⟨Nat.le_of_eq h.1, ih h.2⟩

theorem Layout.absorb (hadj : n.stop = k.addr) (h : Layout R lo (n :: k :: r) hi) :
    Layout R lo (n.absorb k :: r) hi := by
  obtain ⟨hn, -, hr⟩ := h
  exact ⟨hn, by rwa [absorb_stop hadj]⟩

theorem Layout.coalesce (h : Layout R lo (n :: r) hi) : Layout R lo (coalesce n r) hi := by
  cases r with
  | nil => exact h
  | cons k r =>
    rw [Memory.coalesce]
    split
    case isTrue hj => exact h.absorb hj.2.2
    case isFalse => exact h

/-- A piece of the list is replaced by one that keeps its place. -/
theorem Layout.replace {s s' : List HeapNode} (hs : ∀ lo, Layout R lo s hi → Layout R lo s' hi)
    (h : Layout R lo (l ++ s) hi) : Layout R lo (l ++ s') hi := by
  induction l generalizing lo with
  | nil => exact hs lo h
  | cons a l ih => exact ⟨h.1, ih h.2⟩

theorem Layout.release (h : Layout R lo (l ++ n :: r) hi) : Layout R lo (l ++ n.release :: r) hi :=
  Layout.replace (s := n :: r) (fun _ h => h) h

/-- Freeing a node keeps the layout. -/
theorem Layout.freed (h : Layout R lo (l ++ n :: r) hi) : Layout R lo (freed l n r) hi := by
  have hn : ∀ lo, Layout R lo (n :: r) hi → Layout R lo (Memory.coalesce n.release r) hi :=
    fun lo h => Layout.coalesce (n := n.release) h
  rcases List.eq_nil_or_concat' l with rfl | ⟨l, p, rfl⟩
  · exact hn lo h
  · rw [List.append_assoc] at h
    rw [freed_concat]
    refine h.replace fun lo hp => ?_
    obtain ⟨hlo, hnr⟩ := hp
    exact Layout.coalesce ⟨hlo, hn _ hnr⟩

/-- The nodes of a layout are behind its start and before its end. -/
theorem Layout.le (hR : ∀ a b, R a b → a ≤ b) (h : Layout R lo l hi) :
    lo ≤ hi ∧ ∀ k ∈ l, lo ≤ k.addr ∧ k.stop ≤ hi := by
  induction l generalizing lo with
  | nil => exact ⟨hR _ _ h, by simp⟩
  | cons a l ih =>
    obtain ⟨ha, hl⟩ := h
    obtain ⟨hle, hmem⟩ := ih hl
    have hlo := hR _ _ ha
    have hstop := a.addr_add_le_stop
    refine ⟨by omega, fun k hk => ?_⟩
    rcases List.mem_cons.mp hk with rfl | hk
    · exact ⟨hlo, hle⟩
    · have hk := hmem k hk
      exact ⟨by omega, hk.2⟩

/-- The rest of a list is laid out behind its start. -/
theorem Layout.suffix {s : List HeapNode} (hR : ∀ a b, R a b → a ≤ b)
    (h : Layout R lo (l ++ s) hi) : ∃ lo', lo ≤ lo' ∧ Layout R lo' s hi := by
  induction l generalizing lo with
  | nil => exact ⟨lo, Nat.le_refl lo, h⟩
  | cons a l ih =>
    obtain ⟨lo', hle, hs⟩ := ih h.2
    have hlo := hR _ _ h.1
    have hstop := a.addr_add_le_stop
    exact ⟨lo', by omega, hs⟩

/-- The nodes before a node end before it. -/
theorem Layout.stop_le (hR : ∀ a b, R a b → a ≤ b) (h : Layout R lo (l ++ n :: r) hi)
    (hk : k ∈ l) : k.stop ≤ n.addr :=
  ((Layout.append_iff.mp h).1.le hR).2 k hk |>.2

/-- The nodes behind a node start behind it. -/
theorem Layout.stop_le' (hR : ∀ a b, R a b → a ≤ b) (h : Layout R lo (l ++ n :: r) hi)
    (hk : k ∈ r) : n.stop ≤ k.addr :=
  ((Layout.append_iff.mp h).2.le hR).2 k hk |>.1

/-- Two nodes of the list are one node, or one of them ends before the other. -/
theorem Layout.eq_or_stop_le {nodes : List HeapNode} (hR : ∀ a b, R a b → a ≤ b) (h : Layout R lo nodes hi) (hn : n ∈ nodes)
    (hk : k ∈ nodes) : n = k ∨ n.stop ≤ k.addr ∨ k.stop ≤ n.addr := by
  obtain ⟨l, r, rfl⟩ := List.append_of_mem hn
  rcases List.mem_append.mp hk with hk | hk
  · exact .inr (.inr (h.stop_le hR hk))
  · rcases List.mem_cons.mp hk with rfl | hk
    · exact .inl rfl
    · exact .inr (.inl (h.stop_le' hR hk))

theorem Layout.apart (hR : ∀ a b, R a b → a ≤ b) (h : Layout R lo (n :: r) hi) (hk : k ∈ r) :
    Apart n.addr k.addr := by
  have hstop := Layout.stop_le' (l := []) hR h hk
  have hn := n.addr_add_le_stop
  exact .inl (by omega)

/-- Addresses and sizes of the nodes are `u64` values. -/
theorem Layout.bounds (hR : ∀ a b, R a b → a ≤ b) (hhi : hi ≤ u64Size) (h : Layout R lo l hi)
    (hk : k ∈ l) : k.addr + heapNodeSize + k.size ≤ u64Size :=
  Nat.le_trans ((h.le hR).2 k hk).2 hhi

theorem Layout.addr_lt (hR : ∀ a b, R a b → a ≤ b) (hhi : hi ≤ u64Size) (h : Layout R lo l hi)
    (hk : k ∈ l) : k.addr < u64Size := by
  have hb := h.bounds hR hhi hk
  rw [heapNodeSize] at hb
  omega

theorem Layout.firstAddr_lt (hR : ∀ a b, R a b → a ≤ b) (hhi : hi ≤ u64Size)
    (h : Layout R lo l hi) : firstAddr l 0 < u64Size := by
  cases l with
  | nil => exact u64Size_pos
  | cons n l => exact h.addr_lt hR hhi List.mem_cons_self

/-- The number of nodes is bounded by the addresses they take. -/
theorem Layout.length_le (hR : ∀ a b, R a b → a ≤ b) (h : Layout R lo l hi) :
    lo + heapNodeSize * l.length ≤ hi := by
  induction l generalizing lo with
  | nil => exact hR _ _ h
  | cons a l ih =>
    have hl := ih h.2
    have hlo := hR _ _ h.1
    have hstop := a.addr_add_le_stop
    rw [List.length_cons, Nat.mul_succ]
    omega

/-- The node is found in front of its block. -/
theorem Layout.u64Sub_ptr (hR : ∀ a b, R a b → a ≤ b) (hhi : hi ≤ u64Size)
    (h : Layout R lo l hi) (hk : k ∈ l) : u64Sub k.ptr heapNodeSize = k.addr := by
  have haddr := h.addr_lt hR hhi hk
  have hsize : heapNodeSize ≤ u64Size := by decide
  have he : k.addr + heapNodeSize + (u64Size - heapNodeSize) = k.addr + u64Size := by omega
  rw [ptr, u64Sub, he, Nat.add_mod_right, Nat.mod_eq_of_lt haddr]

end Layout

/-! ## What freeing conserves -/

/-- The bytes of the nodes, headers included. -/
def total (l : List HeapNode) : Nat := (l.map fun n => heapNodeSize + n.size).sum

/-- The address is in one of the nodes. -/
def Covers (l : List HeapNode) (a : Nat) : Prop := ∃ n ∈ l, n.addr ≤ a ∧ a < n.stop

/-- No two neighbours are free and adjacent. -/
def Coalesced (l : List HeapNode) : Prop := l.IsChain fun n k => ¬n.Joins k

instance (l : List HeapNode) : Decidable (Coalesced l) :=
  inferInstanceAs (Decidable (List.IsChain _ _))

section Conserve

variable {l r : List HeapNode} {n k : HeapNode}

@[simp] theorem total_nil : total [] = 0 := rfl

@[simp] theorem total_cons (n : HeapNode) (l : List HeapNode) :
    total (n :: l) = heapNodeSize + n.size + total l := by
  simp [total]

@[simp] theorem total_append (l r : List HeapNode) : total (l ++ r) = total l + total r := by
  simp [total]

@[simp] theorem total_coalesce (n : HeapNode) (r : List HeapNode) :
    total (coalesce n r) = total (n :: r) := by
  cases r with
  | nil => rfl
  | cons k r =>
    rw [coalesce]
    split
    · simp only [total_cons, absorb]
      omega
    · rfl

/-- Freeing a node conserves the bytes. -/
theorem total_freed (l : List HeapNode) (n : HeapNode) (r : List HeapNode) :
    total (freed l n r) = total (l ++ n :: r) := by
  rcases List.eq_nil_or_concat' l with rfl | ⟨l, p, rfl⟩
  · simp
  · simp

theorem covers_append {a : Nat} : Covers (l ++ r) a ↔ Covers l a ∨ Covers r a := by
  simp [Covers, or_and_right, exists_or]

theorem covers_cons {a : Nat} : Covers (n :: r) a ↔ (n.addr ≤ a ∧ a < n.stop) ∨ Covers r a := by
  simp [Covers]

theorem covers_coalesce {a : Nat} : Covers (coalesce n r) a ↔ Covers (n :: r) a := by
  cases r with
  | nil => rfl
  | cons k r =>
    rw [coalesce]
    split
    case isTrue hj =>
      have hn := n.addr_add_le_stop
      have hk := k.addr_add_le_stop
      have hadj := hj.2.2
      have hsplit : (n.addr ≤ a ∧ a < k.stop) ↔
          (n.addr ≤ a ∧ a < n.stop) ∨ (k.addr ≤ a ∧ a < k.stop) := by omega
      rw [covers_cons, covers_cons, covers_cons, absorb_addr, absorb_stop hadj, hsplit, or_assoc]
    case isFalse => rfl

/-- Freeing a node leaves the regions of the heap as they are. -/
theorem covers_freed {a : Nat} : Covers (freed l n r) a ↔ Covers (l ++ n :: r) a := by
  have hn : Covers (coalesce n.release r) a ↔ Covers (n :: r) a := by
    rw [covers_coalesce, covers_cons, covers_cons, release_addr, release_stop]
  rcases List.eq_nil_or_concat' l with rfl | ⟨l, p, rfl⟩
  · exact hn
  · rw [freed_concat, List.append_assoc, covers_append, covers_append, covers_coalesce,
      covers_cons, hn, ← covers_cons]
    rfl

theorem head_coalesce {y : HeapNode} (hy : y ∈ (coalesce n r).head?) :
    y.addr = n.addr ∧ y.used = n.used := by
  obtain ⟨n', r', he, haddr, hused, -⟩ := coalesce_eq_cons n r
  obtain rfl : n' = y := by simpa [he] using hy
  exact ⟨haddr, hused⟩

theorem Coalesced.coalesce (h : Coalesced r) : Coalesced (coalesce n r) := by
  cases r with
  | nil => exact List.isChain_singleton n
  | cons k r =>
    rw [Memory.coalesce]
    split
    case isFalse hj => exact List.isChain_cons_cons.mpr ⟨hj, h⟩
    case isTrue hj =>
      cases r with
      | nil => exact List.isChain_singleton _
      | cons j r =>
        obtain ⟨hkj, hr⟩ := List.isChain_cons_cons.mp h
        refine List.isChain_cons_cons.mpr ⟨fun hnj => hkj ?_, hr⟩
        exact ⟨hj.2.1, hnj.2.1, (absorb_stop hj.2.2).symm.trans hnj.2.2⟩

/-- Freeing a node leaves no two free nodes adjacent. -/
theorem Coalesced.freed (h : Coalesced (l ++ n :: r)) : Coalesced (freed l n r) := by
  have hr : Coalesced r := by
    have htail := (List.isChain_append.mp h).2.1
    exact htail.tail
  have hn : Coalesced (Memory.coalesce n.release r) := hr.coalesce
  rcases List.eq_nil_or_concat' l with rfl | ⟨l, p, rfl⟩
  · exact hn
  · rw [freed_concat]
    rw [List.append_assoc] at h
    obtain ⟨hl, -, hlp⟩ := List.isChain_append.mp h
    refine List.isChain_append.mpr ⟨hl, hn.coalesce, fun x hx y hy hxy => ?_⟩
    obtain ⟨haddr, hused⟩ := head_coalesce hy
    exact hlp x hx p rfl ⟨hxy.1, hused ▸ hxy.2.1, hxy.2.2.trans haddr⟩

/-- The free node that the freed node has become a part of, with its neighbours. -/
theorem exists_mem_freed (l : List HeapNode) (n : HeapNode) (r : List HeapNode) :
    ∃ f ∈ freed l n r, f.used = false ∧ f.addr ≤ n.addr ∧ n.stop ≤ f.stop ∧
      (∀ p ∈ l.getLast?, p.Joins n.release → f.addr = p.addr) ∧
      ∀ k ∈ r.head?, n.release.Joins k → f.stop = k.stop := by
  have hright : ∃ f r', coalesce n.release r = f :: r' ∧ f.used = false ∧ f.addr = n.addr ∧
      n.stop ≤ f.stop ∧ ∀ k ∈ r.head?, n.release.Joins k → f.stop = k.stop := by
    cases r with
    | nil => exact ⟨_, _, rfl, rfl, rfl, Nat.le_refl _, by simp⟩
    | cons k r =>
      rw [coalesce]
      split
      case isFalse hj =>
        exact ⟨_, _, rfl, rfl, rfl, Nat.le_refl _, fun _ hk' hk => by
          obtain rfl : k = _ := by simpa using hk'
          exact absurd hk hj⟩
      case isTrue hj =>
        have hstop := absorb_stop hj.2.2
        have hadj := hj.2.2
        have hk := k.addr_add_le_stop
        rw [release_stop] at hadj
        refine ⟨_, _, rfl, rfl, rfl, by omega, fun k' hk' _ => ?_⟩
        obtain rfl : k = k' := by simpa using hk'
        exact hstop
  obtain ⟨f, r', he, hfree, haddr, hstop, hk⟩ := hright
  rcases List.eq_nil_or_concat' l with rfl | ⟨l, p, rfl⟩
  · rw [freed_nil, he]
    exact ⟨f, List.mem_cons_self, hfree, by omega, hstop, by simp, hk⟩
  · rw [freed_concat, he, coalesce]
    split
    case isFalse hj =>
      refine ⟨f, by simp, hfree, by omega, hstop, fun p' hp' hpn => ?_, hk⟩
      obtain rfl : p = p' := by simpa using hp'
      exact absurd ⟨hpn.1, hfree, hpn.2.2.trans haddr.symm⟩ hj
    case isTrue hj =>
      have hps := absorb_stop hj.2.2
      have hadj := hj.2.2
      have hp := p.addr_add_le_stop
      refine ⟨p.absorb f, by simp, hj.1, ?_, by omega, fun p' hp' _ => ?_, fun k' hk' hj' => ?_⟩
      · rw [absorb_addr]
        omega
      · obtain rfl : p = p' := by simpa using hp'
        rfl
      · rw [hps, hk k' hk' hj']

theorem mem_coalesce_of_mem (hk : k ∈ r) (hj : ¬n.Joins k) : k ∈ coalesce n r := by
  cases r with
  | nil => exact absurd hk List.not_mem_nil
  | cons j r =>
    rw [coalesce]
    split
    case isFalse => exact List.mem_cons_of_mem _ hk
    case isTrue hnj =>
      rcases List.mem_cons.mp hk with rfl | hk
      · exact absurd hnj hj
      · exact List.mem_cons_of_mem _ hk

/-- Freeing a node leaves the others but its neighbours in the list. -/
theorem mem_freed {R : Nat → Nat → Prop} {lo hi : Nat} (hR : ∀ a b, R a b → a ≤ b)
    (h : Layout R lo (l ++ n :: r) hi) (hk : k ∈ l ++ r) (hl : ¬k.Joins n.release)
    (hr : ¬n.release.Joins k) : k ∈ freed l n r := by
  have hright : k ∈ r → k ∈ coalesce n.release r := fun hk => mem_coalesce_of_mem hk hr
  rcases List.eq_nil_or_concat' l with rfl | ⟨l, p, rfl⟩
  · exact hright hk
  · rw [freed_concat]
    rcases List.mem_append.mp hk with hk | hk
    · rcases List.mem_append.mp hk with hk | hk
      · exact List.mem_append_left _ hk
      · obtain rfl := List.mem_singleton.mp hk
        obtain ⟨n', r', he, haddr, hfree, -⟩ := coalesce_eq_cons n.release r
        have hj : ¬k.Joins n' := fun hj => hl ⟨hj.1, rfl, hj.2.2.trans haddr⟩
        rw [he, coalesce, if_neg hj]
        simp
    · refine List.mem_append_right _ (mem_coalesce_of_mem (hright hk) fun hj => ?_)
      have hp := h.stop_le hR (k := p) (by simp)
      have hnk := h.stop_le' hR hk
      have hn := n.addr_add_le_stop
      have hadj := hj.2.2
      rw [heapNodeSize] at hn
      omega

end Conserve

/-! ## The headers in memory -/

/-- The header of `n`, with its links. -/
structure Header (m : Mem) (n : HeapNode) (p q : Nat) : Prop where
  size : size.get m n.addr = n.size
  status : status.get m n.addr = n.used.toNat
  prev : prev.get m n.addr = p
  next : next.get m n.addr = q

/-- The headers of the nodes, linked: before the first is `p` and behind the last `q`. -/
def Seg (m : Mem) : Nat → List HeapNode → Nat → Prop
  | _, [], _ => True
  | p, n :: ns, q => Header m n p (firstAddr ns q) ∧ Seg m n.addr ns q

instance (m : Mem) (n : HeapNode) (p q : Nat) : Decidable (Header m n p q) :=
  decidable_of_iff
    (HeapField.size.get m n.addr = n.size ∧ HeapField.status.get m n.addr = n.used.toNat ∧
      HeapField.prev.get m n.addr = p ∧ HeapField.next.get m n.addr = q)
    ⟨fun h => ⟨h.1, h.2.1, h.2.2.1, h.2.2.2⟩, fun h => ⟨h.size, h.status, h.prev, h.next⟩⟩

instance Seg.decidable (m : Mem) : ∀ p nodes q, Decidable (Seg m p nodes q)
  | _, [], _ => inferInstanceAs (Decidable True)
  | p, n :: ns, q =>
    have := Seg.decidable m n.addr ns q
    inferInstanceAs (Decidable (Header m n p (firstAddr ns q) ∧ Seg m n.addr ns q))

/-- The address is in no header of the nodes. -/
def OffHeaders (l : List HeapNode) (i : Nat) : Prop :=
  ∀ n ∈ l, i < n.addr ∨ n.addr + heapNodeSize ≤ i

theorem OffHeaders.mono {s s' : List HeapNode} {i : Nat} (h : OffHeaders s i)
    (hs : ∀ k ∈ s', ∃ k' ∈ s, k'.addr = k.addr) : OffHeaders s' i := by
  intro k hk
  obtain ⟨k', hk', haddr⟩ := hs k hk
  rw [← haddr]
  exact h k' hk'

theorem OffHeaders.cons_iff {n : HeapNode} {s : List HeapNode} {i : Nat} :
    OffHeaders (n :: s) i ↔ (i < n.addr ∨ n.addr + heapNodeSize ≤ i) ∧ OffHeaders s i :=
  List.forall_mem_cons

theorem OffHeaders.append_iff {s t : List HeapNode} {i : Nat} :
    OffHeaders (s ++ t) i ↔ OffHeaders s i ∧ OffHeaders t i :=
  List.forall_mem_append

section Seg

variable {m m' : Mem} {p q : Nat} {l r : List HeapNode} {n : HeapNode}

theorem Header.congr (h : Header m n p q) (hm : ∀ f : HeapField, f.get m' n.addr = f.get m n.addr) :
    Header m' n p q where
  size := (hm _).trans h.size
  status := (hm _).trans h.status
  prev := (hm _).trans h.prev
  next := (hm _).trans h.next

theorem Seg.append_iff : Seg m p (l ++ r) q ↔
    Seg m p l (firstAddr r q) ∧ Seg m (lastAddr p l) r q := by
  induction l generalizing p with
  | nil => simp [Seg, lastAddr]
  | cons a l ih => rw [List.cons_append, Seg, Seg, ih, firstAddr_append, lastAddr, and_assoc]

/-- The links of the nodes whose headers are kept. -/
theorem Seg.congr (h : Seg m p l q)
    (hm : ∀ n ∈ l, ∀ f : HeapField, f.get m' n.addr = f.get m n.addr) : Seg m' p l q := by
  induction l generalizing p with
  | nil => trivial
  | cons a l ih =>
    exact ⟨h.1.congr (hm a List.mem_cons_self), ih h.2 fun n hn => hm n (List.mem_cons_of_mem _ hn)⟩

/-- The list ends when it is followed from its first node. -/
theorem Seg.firstAddr_eq (h : Seg m p (n :: l) q) : next.get m n.addr = firstAddr l q := h.1.next

/-- **The end of the list changes.** Where the nodes from `n` on become `s`, which starts where `n`
does, and nothing in front of `n` is written, the whole list is linked again. -/
theorem Seg.replace {R : Nat → Nat → Prop} {lo hi : Nat} {s : List HeapNode}
    (hR : ∀ a b, R a b → a ≤ b) (hlay : Layout R lo (l ++ n :: r) hi)
    (h : Seg m p (l ++ n :: r) q) (hfirst : firstAddr s q = n.addr)
    (hm : ∀ i, i < n.addr → m' i = m i) (hs : Seg m' (lastAddr p l) s q) :
    Seg m' p (l ++ s) q := by
  obtain ⟨hl, -⟩ := Seg.append_iff.mp h
  rw [Seg.append_iff, hfirst]
  refine ⟨hl.congr fun k hk f => get_congr fun i _ hi => hm i ?_, hs⟩
  have hstop := hlay.stop_le hR hk
  have hk := k.addr_add_le_stop
  omega

/-- In front of the first node there are no headers. -/
theorem Layout.offHeaders_of_lt {R : Nat → Nat → Prop} {lo hi i : Nat}
    (hR : ∀ a b, R a b → a ≤ b) (hlay : Layout R lo l hi) (hi : i < firstAddr l 0) :
    OffHeaders l i := by
  cases l with
  | nil => exact fun _ hk => absurd hk List.not_mem_nil
  | cons n l =>
    rw [firstAddr] at hi
    refine OffHeaders.cons_iff.mpr ⟨.inl hi, fun k hk => ?_⟩
    have hstop := Layout.stop_le' (l := []) hR hlay hk
    have hn := n.addr_add_le_stop
    exact .inl (by omega)

/-- `if (a) a->prev = v`, where `a` is the first node of the list or `NULL`. -/
theorem Seg.relink {R : Nat → Nat → Prop} {lo hi v : Nat} (hR : ∀ a b, R a b → a ≤ b)
    (hlay : Layout R lo r hi) (hlo : 0 < lo) (hv : v < u64Size) (h : Seg m p r 0) :
    Seg (if firstAddr r 0 ≠ 0 then prev.set m (firstAddr r 0) v else m) v r 0 ∧
      ∀ i, OffHeaders r i →
        (if firstAddr r 0 ≠ 0 then prev.set m (firstAddr r 0) v else m) i = m i := by
  cases r with
  | nil => exact ⟨trivial, fun _ _ => rfl⟩
  | cons j r =>
    have hj : j.addr ≠ 0 := by
      have := hR _ _ hlay.1
      omega
    rw [firstAddr, if_pos hj]
    obtain ⟨hhead, hr⟩ := h
    refine ⟨⟨⟨?_, ?_, ?_, ?_⟩, ?_⟩, fun i hi => set_of_notMem (hi j List.mem_cons_self)⟩
    · rw [get_set_ne (by decide), hhead.size]
    · rw [get_set_ne (by decide), hhead.status]
    · exact get_set_self hv
    · rw [get_set_ne (by decide), hhead.next]
    · exact hr.congr fun k hk f => get_set_apart (hlay.apart hR hk)

end Seg

/-! ## Links forward -/

/-- The header of `n` is in memory, up to its `prev`, with `q` the next node. -/
structure ForwardHeader (m : Mem) (n : HeapNode) (q : Nat) : Prop where
  size : size.get m n.addr = n.size
  status : status.get m n.addr = if n.used then heapUsed else heapFree
  next : next.get m n.addr = q

/-- The nodes are linked by `next`. -/
def Forward (m : Mem) : List HeapNode → Prop
  | [] => True
  | n :: l => ForwardHeader m n (firstAddr l 0) ∧ Forward m l

section Forward

variable {m m' : Mem} {p q : Nat} {l r nodes : List HeapNode} {n : HeapNode}

theorem ForwardHeader.congr (h : ForwardHeader m n q)
    (hm : ∀ f : HeapField, f.get m' n.addr = f.get m n.addr) : ForwardHeader m' n q :=
  ⟨(hm _).trans h.size, (hm _).trans h.status, (hm _).trans h.next⟩

theorem ForwardHeader.header (h : ForwardHeader m n q) (hprev : prev.get m n.addr = p) :
    Header m n p q where
  size := h.size
  status := by
    rw [h.status]
    cases n.used <;> rfl
  prev := hprev
  next := h.next

theorem Forward.congr (h : Forward m l) (hm : ∀ n ∈ l, ∀ f : HeapField, f.get m' n.addr = f.get m n.addr) :
    Forward m' l := by
  induction l with
  | nil => trivial
  | cons n l ih =>
    exact ⟨h.1.congr (hm n List.mem_cons_self),
      ih h.2 fun k hk => hm k (List.mem_cons_of_mem _ hk)⟩

theorem Forward.suffix (h : Forward m (l ++ r)) : Forward m r := by
  induction l with
  | nil => exact h
  | cons n l ih => exact ih h.2

/-- The list after a part of it is replaced by one that starts at the same address. -/
theorem Forward.replace {s : List HeapNode} (h : Forward m (l ++ n :: r)) (hs : Forward m' s)
    (hfirst : firstAddr s 0 = n.addr)
    (hm : ∀ k ∈ l, ∀ f : HeapField, f.get m' k.addr = f.get m k.addr) : Forward m' (l ++ s) := by
  induction l with
  | nil => exact hs
  | cons a l ih =>
    rw [List.cons_append] at h ⊢
    refine ⟨?_, ih h.2 fun k hk => hm k (List.mem_cons_of_mem _ hk)⟩
    have ha := h.1.congr (hm a List.mem_cons_self)
    rw [firstAddr_append] at ha ⊢
    rw [hfirst]
    exact ha

theorem Seg.forward (hs : Seg m p nodes 0) : Forward m nodes := by
  induction nodes generalizing p with
  | nil => trivial
  | cons n nodes ih =>
    obtain ⟨hn, hr⟩ := hs
    refine ⟨⟨hn.size, ?_, hn.next⟩, ih hr⟩
    rw [hn.status]
    cases n.used <;> rfl

end Forward

end Colibri.Memory
