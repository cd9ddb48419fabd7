import Colibri.Memory.Heap.FirstFit

/-!
# A back link that `alloc` leaves behind

Where `alloc` splits a node in the middle of the list, the node behind still points back at the block
and not at the rest. `free` writes few fields of other nodes (`freeNode_field`), and that link is not
one of them when the block to be freed is another one: a `realloc` that moves a block to such a place
leaves a list that is not linked in both directions (`move_broken`).
-/

namespace Colibri.Memory

open Colibri.Lib HeapField HeapNode

/-- The nodes' `next` links stay in the list. -/
def NextIn (m : Mem) (l : List HeapNode) : Prop :=
  ∀ n ∈ l, next.get m n.addr = 0 ∨ ∃ k ∈ l, k.addr = next.get m n.addr

section Fields

variable {lo hi v : Nat} {m m' : Mem} {n y x : HeapNode} {l : List HeapNode} {f g : HeapField}

/-- A field of one header is not changed through another header or another field. -/
theorem Layout.get_set (hlay : Layout (· ≤ ·) lo l hi) (hx : x ∈ l) (hy : y ∈ l)
    (h : y ≠ x ∨ f ≠ g) : f.get (g.set m x.addr v) y.addr = f.get m y.addr := by
  have hxs := x.addr_add_le_stop
  have hys := y.addr_add_le_stop
  rcases hlay.eq_or_stop_le nat_le hx hy with rfl | hle | hle
  · exact get_set_ne (h.resolve_left fun hne => hne rfl)
  · exact get_set_apart (.inl (by omega))
  · exact get_set_apart (.inr (by omega))

/-- `merge_right` changes `size` and `next` of its node, and `prev` of the node two behind. -/
theorem mergeRight_field (hlay : Layout (· ≤ ·) lo l hi) (hin : NextIn m l) (hn : n ∈ l) (hy : y ∈ l)
    (h : y ≠ n ∨ f = prev)
    (hback : f = prev → ∀ k ∈ l, k.addr = next.get m n.addr → next.get m k.addr ≠ y.addr) :
    f.get (mergeRight m n.addr) y.addr = f.get m y.addr := by
  have hnode : ∀ (m₀ : Mem) v w, f.get (HeapField.size.set (next.set m₀ n.addr v) n.addr w) y.addr =
      f.get m₀ y.addr := fun m₀ v w => by
    rcases h with h | rfl
    · rw [hlay.get_set hn hy (.inl h), hlay.get_set hn hy (.inl h)]
    · rw [hlay.get_set hn hy (.inr (by decide)), hlay.get_set hn hy (.inr (by decide))]
  unfold mergeRight
  dsimp only
  split
  case isFalse => rfl
  case isTrue ht =>
    obtain ⟨k, hk, hkn⟩ := (hin n hn).resolve_left ht.1
    rw [hnode, ← hkn]
    split
    case isFalse => rfl
    case isTrue hk0 =>
      obtain ⟨s, hs, hsk⟩ := (hin k hk).resolve_left hk0
      rw [← hsk]
      by_cases hf : f = prev
      · refine hlay.get_set hs hy (.inl fun e => hback hf k hk hkn ?_)
        rw [← hsk, e]
      · exact hlay.get_set hs hy (.inr hf)

/-- After `merge_right` the node's link is its own or that of the node behind it. -/
theorem mergeRight_next (hlay : Layout (· ≤ ·) lo l hi) (hin : NextIn m l) (hn : n ∈ l) :
    next.get (mergeRight m n.addr) n.addr = next.get m n.addr ∨
      ∃ k ∈ l, k.addr = next.get m n.addr ∧
        next.get (mergeRight m n.addr) n.addr = next.get m k.addr := by
  unfold mergeRight
  dsimp only
  split
  case isFalse => exact .inl rfl
  case isTrue ht =>
    obtain ⟨k, hk, hkn⟩ := (hin n hn).resolve_left ht.1
    refine .inr ⟨k, hk, hkn, ?_⟩
    rw [get_set_ne (f := next) (g := .size) (by decide),
      get_set_u64 (by decide) (get_lt (by decide)), ← hkn]
    split
    case isFalse => rfl
    case isTrue hk0 =>
      obtain ⟨s, hs, hsk⟩ := (hin k hk).resolve_left hk0
      rw [← hsk]
      exact (hlay.get_set (f := next) (g := prev) hs hk (.inr (by decide))).trans hsk.symm

/-- The merge with the node on the left changes `size` and `next` of that node, which is free, and
`prev` of the node behind. -/
theorem mergeLeft_field (hlay : Layout (· ≤ ·) lo l hi) (hn : n ∈ l) (hy : y ∈ l)
    (hleft : prev.get m n.addr = 0 ∨ ∃ x ∈ l, x ≠ n ∧ x.addr = prev.get m n.addr)
    (hright : next.get m n.addr = 0 ∨ ∃ k ∈ l, k.addr = next.get m n.addr)
    (hnext : f = prev → next.get m n.addr ≠ y.addr)
    (hprev : f ≠ prev → prev.get m n.addr = y.addr → status.get m y.addr ≠ heapFree)
    (he : mergeLeft m n.addr = some m') : f.get m' y.addr = f.get m y.addr := by
  unfold mergeLeft at he
  dsimp only at he
  split at he
  case isFalse => exact Option.some.inj he ▸ rfl
  case isTrue ht =>
    obtain ⟨x, hx, hxn, hxp⟩ := hleft.resolve_left ht.1
    rw [← hxp] at he ht
    have hlink : ∀ v, next.get (next.set m x.addr v) n.addr = next.get m n.addr := fun v =>
      hlay.get_set hx hn (.inl (Ne.symm hxn))
    rw [hlink] at he
    split at he
    case isTrue => exact nomatch he
    case isFalse hn0 =>
      obtain ⟨k, hk, hkn⟩ := hright.resolve_left hn0
      rw [← hkn] at he
      obtain rfl := Option.some.inj he
      by_cases hf : f = prev
      · subst hf
        have hyk : y ≠ k := fun e => hnext rfl (by rw [← hkn, e])
        rw [hlay.get_set hx hy (.inr (by decide)), hlay.get_set hk hy (.inl hyk),
          hlay.get_set hx hy (.inr (by decide))]
      · have hyx : y ≠ x := fun e => hprev hf (by rw [← hxp, e]) (by rw [e]; exact ht.2.1)
        rw [hlay.get_set hx hy (.inl hyx), hlay.get_set hk hy (.inr hf),
          hlay.get_set hx hy (.inl hyx)]

/-- **What `free` leaves alone**, on a list whose back links need not be right: a field of another
node, unless it is the back link of one of the two nodes behind, or the node that the freed one points
back at is free. -/
theorem freeNode_field (hlay : Layout (· ≤ ·) lo l hi) (hin : NextIn m l) (hn : n ∈ l) (hy : y ∈ l)
    (h : y ≠ n ∨ f = prev)
    (hleft : prev.get m n.addr = 0 ∨ ∃ x ∈ l, x ≠ n ∧ x.addr = prev.get m n.addr)
    (hself : ∀ k ∈ l, k.addr = next.get m n.addr → next.get m k.addr ≠ n.addr)
    (hnext : f = prev → next.get m n.addr ≠ y.addr)
    (hback : f = prev → ∀ k ∈ l, k.addr = next.get m n.addr → next.get m k.addr ≠ y.addr)
    (hprev : f ≠ prev → prev.get m n.addr = y.addr → status.get m y.addr ≠ heapFree)
    (he : freeNode m n.addr = some m') : f.get m' y.addr = f.get m y.addr := by
  unfold freeNode at he
  split at he
  case isTrue => exact Option.some.inj he ▸ rfl
  case isFalse =>
    split at he
    case isTrue => exact Option.some.inj he ▸ rfl
    case isFalse =>
      set m₁ := status.set m n.addr heapFree with hm₁
      have hmark : ∀ z ∈ l, ∀ g : HeapField, z ≠ n ∨ g ≠ status → g.get m₁ z.addr = g.get m z.addr :=
        fun z hz g hg => hlay.get_set hn hz hg
      have hlink : ∀ z ∈ l, next.get m₁ z.addr = next.get m z.addr := fun z hz =>
        hmark z hz next (.inr (by decide))
      have hin₁ : NextIn m₁ l := fun z hz => by
        rw [hlink z hz]
        exact hin z hz
      have hright : ∀ z ∈ l, ∀ g : HeapField, z ≠ n ∨ g = prev →
          (g = prev → ∀ k ∈ l, k.addr = next.get m n.addr → next.get m k.addr ≠ z.addr) →
          g.get (mergeRight m₁ n.addr) z.addr = g.get m₁ z.addr := fun z hz g hg hb =>
        mergeRight_field hlay hin₁ hn hz hg fun hgp k hk hkn => by
          rw [hlink n hn] at hkn
          rw [hlink k hk]
          exact hb hgp k hk hkn
      have hback₂ : prev.get (mergeRight m₁ n.addr) n.addr = prev.get m n.addr :=
        (hright n hn prev (.inr rfl) fun _ => hself).trans (hmark n hn prev (.inr (by decide)))
      have hfy : f.get (mergeRight m₁ n.addr) y.addr = f.get m y.addr := by
        refine (hright y hy f h hback).trans (hmark y hy f ?_)
        exact h.imp id fun hf => by rw [hf]; decide
      rw [← hfy]
      have hnext₂ : next.get (mergeRight m₁ n.addr) n.addr = next.get m n.addr ∨
          ∃ k ∈ l, k.addr = next.get m n.addr ∧
            next.get (mergeRight m₁ n.addr) n.addr = next.get m k.addr := by
        rcases mergeRight_next hlay hin₁ hn with he | ⟨k, hk, hkn, he⟩
        · exact .inl (he.trans (hlink n hn))
        · exact .inr ⟨k, hk, hkn.trans (hlink n hn), he.trans (hlink k hk)⟩
      have hleft₂ : prev.get (mergeRight m₁ n.addr) n.addr = 0 ∨
          ∃ x ∈ l, x ≠ n ∧ x.addr = prev.get (mergeRight m₁ n.addr) n.addr := by
        rw [hback₂]
        exact hleft
      refine mergeLeft_field hlay hn hy hleft₂ ?_ (fun hf => ?_) (fun hf hp => ?_) he
      · rcases hnext₂ with he | ⟨k, hk, -, he⟩
        · rw [he]
          exact hin n hn
        · rw [he]
          exact hin k hk
      · rcases hnext₂ with he | ⟨k, hk, hkn, he⟩
        · rw [he]
          exact hnext hf
        · rw [he]
          exact hback hf k hk hkn
      · rw [hback₂] at hp
        have hyn : y ≠ n := h.resolve_right hf
        have hstatus := (hright y hy status (.inl hyn) fun h => absurd h (by decide)).trans
          (hmark y hy status (.inl hyn))
        rw [hstatus]
        exact hprev hf hp

end Fields

/-! ## The links of a list -/

section Links

variable {lo hi p : Nat} {m : Mem} {n k y : HeapNode} {l r : List HeapNode}

/-- The link of a node leads behind it. -/
theorem Forward.next_mem (hlay : Layout (· ≤ ·) lo l hi) (hs : Forward m l) (hn : n ∈ l) :
    next.get m n.addr = 0 ∨ ∃ k ∈ l, k.addr = next.get m n.addr ∧ n.stop ≤ k.addr := by
  obtain ⟨s, t, rfl⟩ := List.append_of_mem hn
  have hnext := hs.suffix.1.next
  cases t with
  | nil => exact .inl hnext
  | cons k t => exact .inr ⟨k, by simp, hnext.symm, hlay.stop_le' nat_le (by simp)⟩

/-- Only the node in front of a node links to it. -/
theorem Forward.eq_of_next (hpos : 0 < lo) (hlay : Layout (· ≤ ·) lo (l ++ n :: k :: r) hi)
    (hs : Forward m (l ++ n :: k :: r)) (hy : y ∈ l ++ n :: k :: r)
    (hnext : next.get m y.addr = k.addr) : y = n := by
  have hk0 := ((hlay.le nat_le).2 k (by simp)).1
  have hks := k.addr_add_le_stop
  obtain ⟨j, -, hj, hyj⟩ := (hs.next_mem hlay hy).resolve_left (by omega)
  have hnk := hlay.stop_le' nat_le (k := k) (by simp)
  have hns := n.addr_add_le_stop
  rw [heapNodeSize] at hks hns
  rcases List.mem_append.mp hy with hl | hr
  · -- a node further in front links to one before `k`
    obtain ⟨s, t, rfl⟩ := List.append_of_mem hl
    rw [List.append_assoc, List.cons_append] at hs
    have hfirst := hs.suffix.1.next
    rw [hnext, firstAddr_append] at hfirst
    cases t with
    | nil =>
      have : k.addr = n.addr := hfirst
      omega
    | cons z t =>
      have hz := hlay.stop_le nat_le (k := z) (by simp)
      have := z.addr_add_le_stop
      have : k.addr = z.addr := hfirst
      omega
  · rcases List.mem_cons.mp hr with rfl | hr
    · rfl
    · have hlay₁ : Layout (· ≤ ·) lo ((l ++ [n]) ++ k :: r) hi := by simpa using hlay
      rcases List.mem_cons.mp hr with rfl | hr
      · omega
      · have := hlay₁.stop_le' nat_le hr
        have := y.addr_add_le_stop
        omega

/-- A node is pointed back at by the one it links to. -/
theorem Seg.next_mem (hs : Seg m p l 0) (hn : n ∈ l) (hne : next.get m n.addr ≠ 0) :
    ∃ k ∈ l, k.addr = next.get m n.addr ∧ prev.get m k.addr = n.addr := by
  obtain ⟨s, t, rfl⟩ := List.append_of_mem hn
  obtain ⟨hhead, ht⟩ := (Seg.append_iff.mp hs).2
  cases t with
  | nil => exact absurd hhead.next hne
  | cons k t => exact ⟨k, by simp, hhead.next.symm, ht.1.prev⟩

/-- A node points back at one in front of it. -/
theorem Seg.prev_mem (hlay : Layout (· ≤ ·) lo l hi) (hs : Seg m 0 l 0) (hn : n ∈ l) :
    prev.get m n.addr = 0 ∨ ∃ k ∈ l, k.addr = prev.get m n.addr ∧ k.stop ≤ n.addr := by
  obtain ⟨s, t, rfl⟩ := List.append_of_mem hn
  have hprev := (Seg.append_iff.mp hs).2.1.prev
  rcases List.eq_nil_or_concat' s with rfl | ⟨s, k, rfl⟩
  · exact .inl hprev
  · rw [lastAddr_append] at hprev
    exact .inr ⟨k, by simp, hprev.symm, hlay.stop_le nat_le (by simp)⟩

/-- `free` of another node leaves a back link that skips a node as it is, and the links that lead to
it. -/
theorem stale_free {m' : Mem} {a c j : HeapNode} (hpos : 0 < lo)
    (hlay : Layout (· ≤ ·) lo (l ++ a :: c :: j :: r) hi) (hs : Forward m (l ++ a :: c :: j :: r))
    (hused : a.used = true) (hn : n ∈ l ++ a :: c :: j :: r) (hna : n ≠ a) (hnc : n ≠ c)
    (hleft : prev.get m n.addr = 0 ∨
      ∃ z ∈ l ++ a :: c :: j :: r, z.addr = prev.get m n.addr ∧ z.stop ≤ n.addr)
    (hskip : prev.get m n.addr ≠ c.addr) (he : freeNode m n.addr = some m') :
    next.get m' a.addr = c.addr ∧ next.get m' c.addr = j.addr ∧
      prev.get m' j.addr = prev.get m j.addr := by
  have ha : a ∈ l ++ a :: c :: j :: r := by simp
  have hc : c ∈ l ++ a :: c :: j :: r := by simp
  have hj : j ∈ l ++ a :: c :: j :: r := by simp
  have hsplit : l ++ a :: c :: j :: r = (l ++ [a]) ++ c :: j :: r := by simp
  have hin : NextIn m (l ++ a :: c :: j :: r) := fun z hz =>
    (hs.next_mem hlay hz).imp id fun ⟨k, hk, hkz, _⟩ => ⟨k, hk, hkz⟩
  have hleft' : prev.get m n.addr = 0 ∨
      ∃ z ∈ l ++ a :: c :: j :: r, z ≠ n ∧ z.addr = prev.get m n.addr :=
    hleft.imp id fun ⟨z, hz, hzn, hstop⟩ => ⟨z, hz, fun e => by
      have := z.addr_add_le_stop
      rw [e, heapNodeSize] at this
      rw [e] at hstop
      omega, hzn⟩
  have hself : ∀ k ∈ l ++ a :: c :: j :: r, k.addr = next.get m n.addr →
      next.get m k.addr ≠ n.addr := fun k hk hkn e => by
    have hn0 := ((hlay.le nat_le).2 n hn).1
    have hk0 := ((hlay.le nat_le).2 k hk).1
    obtain ⟨k₁, -, hk₁, hnk⟩ := (hs.next_mem hlay hn).resolve_left (by omega)
    obtain ⟨n₁, -, hn₁, hkn₁⟩ := (hs.next_mem hlay hk).resolve_left (by omega)
    have hns := n.addr_add_le_stop
    have hks := k.addr_add_le_stop
    rw [heapNodeSize] at hns hks
    omega
  have hstatus : status.get m a.addr ≠ heapFree := by
    rw [hs.suffix.1.status, hused]
    decide
  have hac : next.get m a.addr = c.addr := hs.suffix.1.next
  have hcj : next.get m c.addr = j.addr := hs.suffix.2.1.next
  have hnj : next.get m n.addr ≠ j.addr := fun e => by
    rw [hsplit] at hlay hs hn
    exact hnc (hs.eq_of_next hpos hlay hn e)
  have hnkj : ∀ k ∈ l ++ a :: c :: j :: r, k.addr = next.get m n.addr →
      next.get m k.addr ≠ j.addr := fun k hk hkn e => by
    have hkc : k = c := by
      rw [hsplit] at hlay hs hk
      exact hs.eq_of_next hpos hlay hk e
    exact hna (hs.eq_of_next hpos hlay hn (by rw [← hkn, hkc]))
  refine ⟨?_, ?_, ?_⟩
  · rw [freeNode_field hlay hin hn ha (.inl (Ne.symm hna)) hleft' hself (fun h => absurd h (by decide))
      (fun h => absurd h (by decide)) (fun _ _ => hstatus) he]
    exact hac
  · rw [freeNode_field hlay hin hn hc (.inl (Ne.symm hnc)) hleft' hself (fun h => absurd h (by decide))
      (fun h => absurd h (by decide)) (fun _ h => absurd h hskip) he]
    exact hcj
  · exact freeNode_field hlay hin hn hj (.inr rfl) hleft' hself (fun _ => hnj) (fun _ => hnkj)
      (fun h => absurd rfl h) he

end Links

/-! ## A moved block -/

section Move

variable {lo hi lo' hi' sz p : Nat} {h h' : Heap} {n n' x j : HeapNode} {l r nodes' : List HeapNode}

/-- **No list is left where a block is moved into the middle of the list and its node is split**: the
node behind the rest still points back at the block. -/
theorem move_broken (hl : h.Linked lo hi (l ++ x :: j :: r)) (hunfit : ∀ k ∈ l, ¬k.Fits sz)
    (hx : x.Fits sz) (hsplit : sz + heapNodeSize < x.size) (hn : n ∈ l ++ x :: j :: r)
    (hused : n.used = true) (hle : n.size ≤ sz) (hmove : h.move n.addr n.ptr sz = some (h', p))
    (hl' : h'.Linked lo' hi' nodes') (hn' : n' ∈ nodes') (hp : n'.ptr = p) : False := by
  have hlay := hl.layout
  have hpos := hl.pos
  have hx' : x ∈ l ++ x :: j :: r := by simp
  have hnx : n ≠ x := fun e => by
    rw [e, hx.1] at hused
    exact absurd hused (by decide)
  -- the list after `alloc`, and where its nodes were before
  obtain ⟨mem, halloc, hfw, hframe, hp0⟩ :=
    Forward.alloc hl.first hpos hl.bound hlay hl.linked.forward hunfit hx
  have hcarve : carve sz x = [⟨x.addr, sz, true⟩, x.rest sz] := if_pos hsplit
  obtain ⟨L, hL⟩ : ∃ L, L = l ++ ⟨x.addr, sz, true⟩ :: x.rest sz :: j :: r := ⟨_, rfl⟩
  have hlayL : Layout (· ≤ ·) lo L hi := by
    have hcarved : Layout (· ≤ ·) lo (l ++ (carve sz x ++ j :: r)) hi :=
      hlay.replace fun _ hlay => hlay.carve fun _ => Nat.le_refl _
    rw [hcarve] at hcarved
    rw [hL]
    exact hcarved
  have hfwL : Forward mem L := by
    rw [hcarve] at hfw
    rw [hL]
    exact hfw
  have hkept : ∀ z ∈ l ++ x :: j :: r, z ≠ x → z ∈ L := by
    intro z hz hzx
    rw [hL]
    rcases List.mem_append.mp hz with hz | hz
    · simp [hz]
    · rcases List.mem_cons.mp hz with rfl | hz
      · exact absurd rfl hzx
      · exact List.mem_append_right _ (by simp [List.mem_cons.mp hz])
  obtain ⟨a, ha⟩ : ∃ a : HeapNode, a = ⟨x.addr, sz, true⟩ := ⟨_, rfl⟩
  obtain ⟨c, hc⟩ : ∃ c, c = x.rest sz := ⟨_, rfl⟩
  rw [← ha, ← hc] at hL hcarve
  have haL : a ∈ L := by simp [hL]
  have hcL : c ∈ L := by simp [hL]
  have hjL : j ∈ L := by simp [hL]
  have hnL : n ∈ L := hkept n hn hnx
  have hca : c.addr = x.addr + heapNodeSize + sz := by rw [hc]; rfl
  have haa : a.addr = x.addr := by rw [ha]
  have hastop : a.stop = c.addr := by rw [stop, haa, hca, ha]
  -- a node of the old list does not start where the rest does
  have hnec : ∀ z ∈ l ++ x :: j :: r, z.addr ≠ c.addr := by
    intro z hz e
    have hzs := z.addr_add_le_stop
    have hxs : x.stop = x.addr + heapNodeSize + x.size := rfl
    rcases hlay.eq_or_stop_le nat_le hz hx' with rfl | hle | hle
    · rw [hca, heapNodeSize] at e
      omega
    · rw [heapNodeSize] at *
      omega
    · omega
  have hprev : ∀ z ∈ l ++ x :: j :: r, z ≠ x → prev.get mem z.addr = prev.get h.mem z.addr := by
    intro z hz hzx
    refine get_congr fun i h₁ h₂ => hframe i fun y hy => ?_
    have hzs := z.addr_add_le_stop
    have hxs : x.stop = x.addr + heapNodeSize + x.size := rfl
    rw [hcarve] at hy
    rcases List.mem_pair.mp hy with rfl | rfl
    all_goals rcases hlay.eq_or_stop_le nat_le hz hx' with rfl | hle | hle
    all_goals first | exact absurd rfl hzx | omega
  -- the copy leaves the headers alone
  have hsize : size.get mem n.addr = n.size := by
    obtain ⟨s, t, he⟩ := List.append_of_mem hnL
    rw [he] at hfwL
    exact hfwL.suffix.1.size
  rw [Heap.move_eq halloc hp0 (hlay.u64Sub_ptr nat_le (Nat.le_of_lt hl.bound) hn) hsize] at hmove
  obtain ⟨m', hfree, he⟩ := Option.map_eq_some_iff.mp hmove
  obtain ⟨rfl, rfl⟩ := Prod.mk.inj he
  have hsame : ∀ z ∈ L, ∀ f : HeapField,
      f.get (mem.copy x.ptr n.ptr n.size) z.addr = f.get mem z.addr := fun z hz f => by
    refine get_congr fun i h₁ h₂ => if_neg fun hin => ?_
    rw [ptr] at hin
    have := hlayL.offHeaders nat_le haL (i := i) (by rw [ptr, haa]; exact hin.1)
      (by rw [hastop, hca]; omega) z hz
    omega
  obtain ⟨m₂, hm₂⟩ : ∃ m₂, m₂ = mem.copy x.ptr n.ptr n.size := ⟨_, rfl⟩
  rw [← hm₂] at hsame
  change freeNode (mem.copy x.ptr n.ptr n.size) n.addr = some m' at hfree
  rw [← hm₂] at hfree
  have hfw₂ : Forward m₂ L := hfwL.congr hsame
  have hprev₂ : ∀ z ∈ l ++ x :: j :: r, z ≠ x → prev.get m₂ z.addr = prev.get h.mem z.addr :=
    fun z hz hzx => (hsame z (hkept z hz hzx) prev).trans (hprev z hz hzx)
  have hback := hl.linked.prev_mem hlay hn
  rw [← hprev₂ n hn hnx] at hback
  have hleft : prev.get m₂ n.addr = 0 ∨ ∃ z ∈ L, z.addr = prev.get m₂ n.addr ∧ z.stop ≤ n.addr := by
    refine hback.imp_right ?_
    rintro ⟨z, hz, hzn, hstop⟩
    by_cases hzx : z = x
    · refine ⟨a, haL, by rw [haa, ← hzx, hzn], ?_⟩
      rw [hastop, hca]
      rw [hzx, stop] at hstop
      omega
    · exact ⟨z, hkept z hz hzx, hzn, hstop⟩
  have hskip : prev.get m₂ n.addr ≠ c.addr := fun e => by
    rcases hback with h0 | ⟨z, hz, hzn, -⟩
    · rw [hca, heapNodeSize] at e
      omega
    · exact hnec z hz (hzn.trans e)
  have hjx : j ≠ x := fun e => by
    have := hlay.stop_le' nat_le (k := j) (by simp)
    have hxs := x.addr_add_le_stop
    rw [e, heapNodeSize] at *
    omega
  have hnc : n ≠ c := fun e => hnec n hn (by rw [e])
  have hna : n ≠ a := fun e => hnx (by
    refine (hlay.eq_or_stop_le nat_le hn hx').resolve_right fun hor => ?_
    have hns := n.addr_add_le_stop
    have hxs := x.addr_add_le_stop
    have hea : n.addr = x.addr := by rw [e, haa]
    rw [heapNodeSize] at *
    omega)
  subst hL
  obtain ⟨hac, hcj, hj⟩ :=
    stale_free hpos hlayL hfw₂ (by rw [ha]) hnL hna hnc hleft hskip hfree
  have hjback : prev.get m' j.addr = x.addr := by
    rw [hj, hprev₂ j (by simp) hjx]
    exact (Seg.append_iff.mp hl.linked).2.2.1.prev
  -- in the list that is left, the node behind the rest points back at the rest
  have hn'a : n'.addr = a.addr := by
    rw [haa]
    exact Nat.add_right_cancel hp
  rw [← hn'a] at hac
  obtain ⟨c', hc', hcc, -⟩ := hl'.linked.next_mem hn' (by rw [hac, hca, heapNodeSize]; omega)
  rw [hac] at hcc
  have hj0 := ((hlay.le nat_le).2 j (by simp)).1
  rw [← hcc] at hcj
  obtain ⟨j', hj', hjj, hjc⟩ := hl'.linked.next_mem hc' (by rw [hcj]; omega)
  rw [hjj, hcj, hjback, hcc, hca, heapNodeSize] at hjc
  omega

end Move

end Colibri.Memory
