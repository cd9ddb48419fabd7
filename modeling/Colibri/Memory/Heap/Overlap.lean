import Colibri.Memory.Heap.FirstFit

/-!
# A header written over the one it is read from

A block that grows in place pushes the header of the free node behind it up by as many bytes as the
block grows. Where these are fewer than a header, the new header overlaps the old one, and `realloc`
has written the `status` and the `size` of the new one before it reads the `next` of the old one.

## Results

* `spared_iff`: when that link is still what it was, in terms of the nodes (`LinkKept`).
* `extend_broken`: where it is not, the memory after the call holds no list of the heap. The link that
  was read leads outside the list, and the store through it cannot mend that.
-/

namespace Colibri.Memory

open Colibri.Lib HeapField HeapNode

/-- The `next` of the free node `k` behind `n`, in front of `r`, is read before `realloc` to `sz`
bytes overwrites it, or with bytes that are the ones it has. From 16 bytes on its lowest bytes are
the top of the new `size` and the new `status`, from 24 on its highest are the bottom of the new
`size`. -/
def LinkKept (n k : HeapNode) (r : List HeapNode) (sz : Nat) : Prop :=
  sz - n.size < 16 ∨ heapNodeSize ≤ sz - n.size ∨
    (sz - n.size < 24 ∧ firstAddr r 0 % 256 ^ (sz - n.size - 15) =
      (n.shifted k sz).size / 256 ^ (24 - (sz - n.size))) ∨
    (24 ≤ sz - n.size ∧ firstAddr r 0 / 256 ^ (sz - n.size - 24) =
      (n.shifted k sz).size % 256 ^ (32 - (sz - n.size)))

instance (n k : HeapNode) (r : List HeapNode) (sz : Nat) : Decidable (LinkKept n k r sz) :=
  inferInstanceAs (Decidable (_ ∨ _ ∨ _ ∨ _))

section Overlap

variable {R : Nat → Nat → Prop} {lo hi sz i : Nat} {m : Mem} {n k : HeapNode} {l r : List HeapNode}

/-- **The link is read as it was iff `LinkKept`.** -/
theorem spared_iff (hadj : n.stop = k.addr) (hle : n.size ≤ sz)
    (hlt : (n.shifted k sz).size < u64Size) (hnext : next.get m k.addr = firstAddr r 0) :
    Spared m n k sz ↔ LinkKept n k r sz := by
  obtain ⟨d, hd⟩ : ∃ d, d = sz - n.size := ⟨_, rfl⟩
  have hc : (n.shifted k sz).addr = k.addr + d := by
    simp only [shifted, stop] at hadj ⊢
    omega
  obtain ⟨s, hs⟩ : ∃ s, s = (n.shifted k sz).size := ⟨_, rfl⟩
  rw [Spared, LinkKept, hc, ← hd, ← hs, hnext]
  rw [← hs] at hlt
  change m.load (k.addr + 24) 8 = firstAddr r 0 at hnext
  change ((m.store (k.addr + d + 8) 1 0).store (k.addr + d) 8 s).load (k.addr + 24) 8 =
    firstAddr r 0 ↔ _
  set f := firstAddr r 0
  set M := (m.store (k.addr + d + 8) 1 0).store (k.addr + d) 8 s with hM
  have hsize : M.load (k.addr + d) 8 = s := by
    rw [hM, Mem.load_store]
    exact Nat.mod_eq_of_lt hlt
  -- what is not overwritten is read as it was
  have hkeep : ∀ a w, a + w ≤ k.addr + d ∨ k.addr + d + 9 ≤ a → M.load a w = m.load a w :=
    fun a w h => by
      rw [hM, Mem.load_store_of_disjoint (by simp only [Mem.Disjoint]; omega),
        Mem.load_store_of_disjoint (by simp only [Mem.Disjoint]; omega)]
  rcases Nat.lt_or_ge d 16 with h16 | h16
  · refine iff_of_true ?_ (.inl h16)
    rw [← hnext, hM, Mem.load_store_of_disjoint (by simp only [Mem.Disjoint]; omega),
      Mem.load_store_of_disjoint (by simp only [Mem.Disjoint]; omega)]
  rcases Nat.lt_or_ge d 32 with h32 | h32
  swap
  · refine iff_of_true ?_ (.inr (.inl h32))
    rw [← hnext, hkeep _ _ (by omega)]
  rcases Nat.lt_or_ge d 24 with h24 | h24
  · -- the low bytes are the top of the size and the status
    obtain ⟨t, ht⟩ : ∃ t, d = 16 + t := ⟨d - 16, by omega⟩
    obtain ⟨u, hu⟩ : ∃ u, t + u = 7 := ⟨7 - t, by omega⟩
    have hsplit : ∀ m' : Mem, m'.load (k.addr + 24) 8 =
        m'.load (k.addr + 24) (t + 1) + 256 ^ (t + 1) * m'.load (k.addr + 24 + (t + 1)) u :=
      fun m' => by rw [← Mem.load_add, show t + 1 + u = 8 by omega]
    have hhigh := hkeep (k.addr + 24 + (t + 1)) u (by omega)
    have hstatus : M.load (k.addr + 24 + t) 1 = 0 := by
      rw [hM, Mem.load_store_of_disjoint (by simp only [Mem.Disjoint]; omega),
        show k.addr + d + 8 = k.addr + 24 + t by omega, Mem.load_store]
      rfl
    have htop : M.load (k.addr + 24) t = s / 256 ^ (24 - d) := by
      have := Mem.load_div M (k.addr + d) (u + 1) t
      rw [show u + 1 + t = 8 by omega, hsize, show k.addr + d + (u + 1) = k.addr + 24 by omega] at this
      rw [← this, show u + 1 = 24 - d by omega]
    have hlow : M.load (k.addr + 24) (t + 1) = s / 256 ^ (24 - d) := by
      rw [Mem.load_add, hstatus, htop, Nat.mul_zero, Nat.add_zero]
    have hf : m.load (k.addr + 24) (t + 1) = f % 256 ^ (d - 15) := by
      have := Mem.load_mod m (k.addr + 24) (t + 1) u
      rw [show t + 1 + u = 8 by omega, hnext] at this
      rw [← this, show t + 1 = d - 15 by omega]
    have hiff : M.load (k.addr + 24) 8 = f ↔ f % 256 ^ (d - 15) = s / 256 ^ (24 - d) := by
      rw [← hf, ← hlow, ← hnext, hsplit M, hsplit m, hhigh]
      exact Nat.add_right_cancel_iff.trans eq_comm
    rw [hiff]
    constructor
    · exact fun h => .inr (.inr (.inl ⟨h24, h⟩))
    · rintro (h | h | h | h)
      · omega
      · exact absurd h (Nat.not_le.mpr h32)
      · exact h.2
      · omega
  · -- the high bytes are the bottom of the size
    obtain ⟨t, ht⟩ : ∃ t, d = 24 + t := ⟨d - 24, by omega⟩
    obtain ⟨u, hu⟩ : ∃ u, t + u = 8 := ⟨8 - t, by omega⟩
    have hsplit : ∀ m' : Mem, m'.load (k.addr + 24) 8 =
        m'.load (k.addr + 24) t + 256 ^ t * m'.load (k.addr + d) u :=
      fun m' => by rw [show k.addr + d = k.addr + 24 + t by omega, ← Mem.load_add, hu]
    have hlow := hkeep (k.addr + 24) t (by omega)
    have hbottom : M.load (k.addr + d) u = s % 256 ^ (32 - d) := by
      have := Mem.load_mod M (k.addr + d) u t
      rw [show u + t = 8 by omega, hsize] at this
      rw [← this, show u = 32 - d by omega]
    have hf : m.load (k.addr + d) u = f / 256 ^ (d - 24) := by
      have := Mem.load_div m (k.addr + 24) t u
      rw [hu, hnext, show k.addr + 24 + t = k.addr + d by omega] at this
      rw [← this, show t = d - 24 by omega]
    have hiff : M.load (k.addr + 24) 8 = f ↔ f / 256 ^ (d - 24) = s % 256 ^ (32 - d) := by
      rw [← hf, ← hbottom, ← hnext, hsplit M, hsplit m, hlow, Nat.add_left_cancel_iff,
        Nat.mul_right_inj (Nat.pow_pos (by decide)).ne']
      exact eq_comm
    rw [hiff]
    constructor
    · exact fun h => .inr (.inr (.inr ⟨h24, h⟩))
    · rintro (h | h | h | h)
      · omega
      · exact absurd h (Nat.not_le.mpr h32)
      · omega
      · exact h.2

/-! ## Where the link is lost -/

/-- The first node of a layout starts before every byte that it covers. -/
theorem Layout.firstAddr_le (hR : ∀ a b, R a b → a ≤ b) (h : Layout R lo (n :: r) hi)
    (hi : Covers (n :: r) i) : n.addr ≤ i := by
  rcases covers_cons.mp hi with hi | ⟨j, hj, hji⟩
  · exact hi.1
  · have hstop := Layout.stop_le' (l := []) hR h hj
    have hn := n.addr_add_le_stop
    omega

/-- The bytes behind a node are covered by the nodes behind it. -/
theorem Layout.covers_behind (hR : ∀ a b, R a b → a ≤ b) (h : Layout R lo (l ++ n :: r) hi)
    (hi : n.stop ≤ i) : Covers (l ++ n :: r) i ↔ Covers r i := by
  rw [covers_append, covers_cons]
  constructor
  · rintro (⟨j, hj, hji⟩ | hni | hr)
    · have hstop := h.stop_le hR hj
      have hn := n.addr_add_le_stop
      omega
    · omega
    · exact hr
  · exact fun hr => .inr (.inr hr)

/-- Two lists that cover the same bytes go on at the same address behind nodes that end at the same
one. -/
theorem Layout.firstAddr_eq {lo' hi' : Nat} {l' r' : List HeapNode} {n' : HeapNode}
    (hR : ∀ a b, R a b → a ≤ b) (h : Layout R lo (l ++ n :: r) hi)
    (h' : Layout R lo' (l' ++ n' :: r') hi') (hstop : n'.stop = n.stop)
    (hcov : ∀ i, Covers (l' ++ n' :: r') i ↔ Covers (l ++ n :: r) i) :
    firstAddr r' 0 = firstAddr r 0 := by
  have hbehind : ∀ i, n.stop ≤ i → (Covers r' i ↔ Covers r i) := fun i hi => by
    rw [← h.covers_behind hR hi, ← h'.covers_behind hR (hstop ▸ hi)]
    exact hcov i
  have hself : ∀ (j : HeapNode) s, Covers (j :: s) j.addr := fun j s => by
    have hj := j.addr_add_le_stop
    rw [heapNodeSize] at hj
    exact covers_cons.mpr (.inl ⟨Nat.le_refl _, by omega⟩)
  obtain ⟨lo₁, -, hr⟩ := Layout.suffix (l := l ++ [n]) hR (by simpa using h)
  obtain ⟨lo₂, -, hr'⟩ := Layout.suffix (l := l' ++ [n']) hR (by simpa using h')
  cases r with
  | nil =>
    cases r' with
    | nil => rfl
    | cons j' r' =>
      have hj' := h'.stop_le' hR (k := j') (by simp)
      exact absurd ((hbehind _ (hstop ▸ hj')).mp (hself j' r')) (by simp [Covers])
  | cons j r =>
    have hj := h.stop_le' hR (k := j) (by simp)
    cases r' with
    | nil => exact absurd ((hbehind _ hj).mpr (hself j r)) (by simp [Covers])
    | cons j' r' =>
      have hj' := h'.stop_le' hR (k := j') (by simp)
      have hle := hr'.firstAddr_le hR ((hbehind _ hj).mpr (hself j r))
      have hle' := hr.firstAddr_le hR ((hbehind _ (hstop ▸ hj')).mp (hself j' r'))
      exact Nat.le_antisymm hle hle'

/-- A store of `c` that overlaps the link of the header at `c` cannot make it `NULL`, with the header
still pointing back in front of itself: in `m'` it would take zeros from both. -/
theorem overwritten_link_ne_null {m' : Mem} {a c g : Nat} (hac : a < c) (hcg : c < g)
    (hgc : g < c + 16) (hstored : m'.load (g + 16) 8 = c) (hprev : m'.load (c + 16) 8 = a)
    (hlink : m.load (c + 24) 8 = g) (hkeep : ∀ i, i < g + 16 → m' i = m i) :
    m'.load (c + 24) 8 ≠ 0 := by
  intro hnull
  rcases Nat.lt_trichotomy g (c + 8) with hlt | rfl | hgt
  · -- the store ends in the link: what it leaves in `prev` is too large
    obtain ⟨t, ht⟩ : ∃ t, g + t = c + 8 := ⟨c + 8 - g, by omega⟩
    obtain ⟨u, hu⟩ : ∃ u, t + u = 8 := ⟨8 - t, by omega⟩
    have hlow : m'.load (c + 24) u = 0 := by
      have := Mem.load_mod m' (c + 24) u t
      rw [show u + t = 8 by omega, hnull, Nat.zero_mod] at this
      exact this.symm
    have hc : m'.load (g + 16) t = c := by
      have := Mem.load_add m' (g + 16) t u
      rw [hu, hstored, show g + 16 + t = c + 24 by omega, hlow, Nat.mul_zero, Nat.add_zero] at this
      exact this.symm
    have ha := Mem.load_add m' (c + 16) u t
    rw [show u + t = 8 by omega, hprev, show c + 16 + u = g + 16 by omega, hc] at ha
    have hpow : 0 < 256 ^ u := Nat.pow_pos (by decide)
    have := Nat.le_mul_of_pos_left c hpow
    omega
  · rw [hstored] at hnull
    omega
  · -- the store starts in the link: both addresses end in a zero byte
    obtain ⟨t, ht⟩ : ∃ t, g = c + 8 + (t + 1) := ⟨g - c - 9, by omega⟩
    obtain ⟨u, hu⟩ : ∃ u, t + 1 + (u + 1) = 8 := ⟨6 - t, by omega⟩
    have hsplit := Mem.load_add m' (c + 24) (t + 1) (u + 1)
    rw [hu, hnull, show c + 24 + (t + 1) = g + 16 by omega] at hsplit
    have hlow : m'.load (c + 24) (t + 1) = 0 := by omega
    have hhigh : m'.load (g + 16) (u + 1) = 0 := by
      have hpow : 256 ^ (t + 1) ≠ 0 := (Nat.pow_pos (by decide)).ne'
      have hmul : 256 ^ (t + 1) * m'.load (g + 16) (u + 1) = 0 := by omega
      exact (Nat.mul_eq_zero.mp hmul).resolve_left hpow
    have hc : c % 256 = 0 := by
      have := Mem.load_mod m' (g + 16) 1 7
      rw [show 1 + 7 = 8 from rfl, hstored] at this
      rw [show c % 256 = c % 256 ^ 1 by rw [pow_one], this]
      have := Mem.load_mod m' (g + 16) 1 u
      rw [Nat.add_comm 1 u, hhigh, Nat.zero_mod] at this
      exact this.symm
    have hg : g % 256 = 0 := by
      have := Mem.load_mod m (c + 24) 1 7
      rw [show 1 + 7 = 8 from rfl, hlink] at this
      rw [show g % 256 = g % 256 ^ 1 by rw [pow_one], this]
      have hsame : m'.load (c + 24) 1 = m.load (c + 24) 1 :=
        Mem.load_congr fun i hi hi' => hkeep i (by omega)
      rw [← hsame]
      have := Mem.load_mod m' (c + 24) 1 t
      rw [Nat.add_comm 1 t, hlow, Nat.zero_mod] at this
      exact this.symm
    omega

/-- **No list is left where the link is lost.** After `realloc` has grown the block of `n` and read
another link than that of `k`, the memory holds no list that covers the bytes of the heap and still
has a node in the place of `n`. -/
theorem extend_broken {lo' hi' : Nat} {s : List HeapNode} {n' : HeapNode} (hpos : 0 < lo)
    (hhi : hi < u64Size) (hlay : Layout (· ≤ ·) lo (l ++ n :: k :: r) hi)
    (hs : Seg m 0 (l ++ n :: k :: r) 0) (hadj : n.stop = k.addr) (hle : n.size ≤ sz)
    (hsz : sz ≤ n.size + k.size) (hlost : ¬Spared m n k sz)
    (hlay' : Layout (· ≤ ·) lo' s hi') (hs' : Seg (extend m n.addr n.ptr sz) 0 s 0)
    (hcov : ∀ i, Covers s i ↔ Covers (l ++ n :: k :: r) i) (hn' : n' ∈ s)
    (haddr : n'.addr = n.addr) : False := by
  obtain ⟨lo₁, hlo₁, hsuf⟩ := hlay.suffix nat_le
  obtain ⟨-, hk, hr⟩ := (Seg.append_iff.mp hs).2
  obtain ⟨g, hg⟩ : ∃ g, next.get (size.set (status.set m (n.shifted k sz).addr heapFree)
    (n.shifted k sz).addr (n.shifted k sz).size) k.addr = g := ⟨_, rfl⟩
  have hgf : g ≠ firstAddr r 0 := fun e => hlost (hg.trans (e.trans hk.next.symm))
  obtain ⟨m₁, he, hn₁, hc₁, hframe⟩ :=
    extend_headers nat_le hhi hsuf hadj hle hsz hg (Seg.append_iff.mp hs).2
  have hcstop : (n.shifted k sz).stop = k.stop := by
    simp only [stop, shifted] at hadj ⊢
    omega
  have hcaddr : (n.shifted k sz).addr = n.addr + heapNodeSize + sz := rfl
  have hkn : k.addr + (sz - n.size) = (n.shifted k sz).addr := by
    rw [stop] at hadj
    omega
  have hmoved : k.addr < (n.shifted k sz).addr := by
    rcases Nat.eq_zero_or_pos (sz - n.size) with h0 | h0
    · refine absurd ?_ hlost
      rw [Spared, ← hkn, h0, Nat.add_zero, get_set_ne (by decide), get_set_ne (by decide)]
    · omega
  have hclt : (n.shifted k sz).addr < u64Size := by
    have hstop := ((hlay.le nat_le).2 k (by simp)).2
    have := (n.shifted k sz).addr_add_le_stop
    omega
  set c := n.shifted k sz with hc
  have hcs := c.addr_add_le_stop
  rw [he] at hs'
  set M := if g ≠ 0 then prev.set m₁ g c.addr else m₁ with hM
  -- the store through the lost link
  have hfield : ∀ (f : HeapField) a,
      g = 0 ∨ a + f.offset + f.width ≤ g + 16 ∨ g + 24 ≤ a + f.offset →
        f.get M a = f.get m₁ a := fun f a h => by
    rw [hM]
    split
    case isFalse => rfl
    case isTrue hg0 =>
      refine Mem.load_store_of_disjoint ?_
      simp only [Mem.Disjoint, offset, width] at h ⊢
      omega
  obtain ⟨l', r', rfl⟩ := List.append_of_mem hn'
  have hhead := (Seg.append_iff.mp hs').2.1
  have hncov : Covers (l' ++ n' :: r') c.addr :=
    (hcov _).mpr ⟨k, by simp, by omega, by rw [← hcstop]; rw [heapNodeSize] at hcs; omega⟩
  -- behind the block comes the rest
  have hnext : firstAddr r' 0 = c.addr := by
    by_cases hw : g = 0 ∨ n.addr + 24 + 8 ≤ g + 16 ∨ g + 24 ≤ n.addr + 24
    case pos =>
      rw [← hhead.next, haddr, hfield next n.addr hw]
      exact hn₁.next
    case neg =>
      have hsame : n'.size = sz := by
        rw [← hhead.size, haddr, hfield .size n.addr (by simp only [offset, width]; omega)]
        exact hn₁.size
      have hstop : n'.stop = c.addr := by rw [stop, hsame, haddr, hcaddr]
      have hbehind := (hlay'.covers_behind nat_le (Nat.le_of_eq hstop)).mp hncov
      obtain ⟨lo₂, -, hr'⟩ := Layout.suffix (l := l' ++ [n']) nat_le (by simpa using hlay')
      cases r' with
      | nil => exact absurd hbehind (by simp [Covers])
      | cons c' r' =>
        have hfirst := hr'.firstAddr_le nat_le hbehind
        have hlast := hlay'.stop_le' nat_le (k := c') (by simp)
        exact Nat.le_antisymm hfirst (hstop ▸ hlast)
  obtain ⟨c', r', rfl⟩ : ∃ c' r'', r' = c' :: r'' := by
    cases r' with
    | nil => exact absurd hnext (by rw [firstAddr, hcaddr, heapNodeSize]; omega)
    | cons c' r' => exact ⟨c', r', rfl⟩
  have hc' : c'.addr = c.addr := hnext
  have hrest := (Seg.append_iff.mp hs').2.2
  have hsplit : l' ++ n' :: c' :: r' = (l' ++ [n']) ++ c' :: r' := by simp
  by_cases hw : g = 0 ∨ c.addr + 8 ≤ g + 16 ∨ g + 24 ≤ c.addr
  case neg =>
    -- its size is overwritten: its link leads back in front of it
    have hlink : firstAddr r' 0 = g := by
      rw [← hrest.1.next, hc', hfield next c.addr (by simp only [offset, width]; omega)]
      exact hc₁.next
    cases r' with
    | nil => exact hw (.inl hlink.symm)
    | cons j r' =>
      rw [hsplit] at hlay'
      have hj := hlay'.stop_le' nat_le (k := j) (by simp)
      have hjaddr : j.addr = g := hlink
      have := c'.addr_add_le_stop
      rw [heapNodeSize] at this
      omega
  case pos =>
    have hcsize : c'.size = c.size := by
      rw [← hrest.1.size, hc', hfield .size c.addr (by simp only [offset, width]; omega)]
      exact hc₁.size
    have hstop : c'.stop = k.stop := by rw [← hcstop, stop, stop, hcsize, hc']
    have hlink : firstAddr r' 0 = firstAddr r 0 := by
      have hlay₁ : Layout (· ≤ ·) lo ((l ++ [n]) ++ k :: r) hi := by simpa using hlay
      rw [hsplit] at hlay' hcov
      exact hlay₁.firstAddr_eq nat_le hlay' hstop (by simpa using hcov)
    by_cases hw' : g = 0 ∨ c.addr + 24 + 8 ≤ g + 16 ∨ g + 24 ≤ c.addr + 24
    case pos =>
      -- its link is not overwritten, and is the wrong one
      refine hgf ?_
      rw [← hlink, ← hrest.1.next, hc', hfield next c.addr hw']
      exact hc₁.next.symm
    case neg =>
      have hg0 : g ≠ 0 := fun h => hw' (.inl h)
      cases r with
      | nil =>
        have hstored : M.load (g + 16) 8 = c.addr := by
          rw [hM, if_pos hg0]
          exact get_set_u64 (by decide) hclt
        have hback : M.load (c.addr + 16) 8 = n.addr := by
          rw [← haddr, ← hc']
          exact hrest.1.prev
        have hkeep : ∀ i, i < g + 16 → M i = m₁ i := fun i hi => by
          rw [hM, if_pos hg0]
          exact Mem.store_of_lt hi
        have hne := overwritten_link_ne_null (by rw [hcaddr, heapNodeSize]; omega) (by omega)
          (by omega) hstored hback hc₁.next hkeep
        refine hne ?_
        rw [← hc']
        exact hrest.1.next.trans hlink
      | cons j r =>
        -- the node behind still points back at the old header
        obtain ⟨j', r', rfl⟩ : ∃ j' r'', r' = j' :: r'' := by
          cases r' with
          | nil =>
            have hj := ((hlay.le nat_le).2 j (by simp)).1
            have : j.addr = 0 := hlink.symm
            omega
          | cons j' r' => exact ⟨j', r', rfl⟩
        have hj' : j'.addr = j.addr := hlink
        have hkj := Layout.stop_le' (l := l ++ [n]) nat_le (by simpa using hlay) (n := k) (k := j)
          (r := j :: r) (by simp)
        have hold : prev.get M j.addr = k.addr := by
          rw [hfield prev j.addr (by
            rw [← hcstop] at hkj
            rw [heapNodeSize] at hcs
            simp only [offset, width]
            omega), ← hr.1.prev]
          refine get_congr fun i hi hi' => hframe i fun z hz => .inr ?_
          rcases List.mem_pair.mp hz with rfl | rfl
          · rw [resize_addr]
            have := n.addr_add_le_stop
            have := k.addr_add_le_stop
            omega
          · omega
        have hback : prev.get M j.addr = c.addr := by
          rw [← hj', ← hc']
          exact hrest.2.1.prev
        omega

end Overlap

end Colibri.Memory
