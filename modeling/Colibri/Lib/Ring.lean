import Mathlib.Data.List.Chain
import Mathlib.Data.List.Nodup

/-!
# Rings of links

A circular doubly linked list is a head `h` and members `L` with `next` and `prev` going through
`h, L, h` and back. `LinkRing.insert` puts a node between two neighbours and `LinkRing.unlink` takes one
out; both touch the two neighbours only. The nodes come from any type, so a list that ends in `NULL`
at both sides is a ring as well: its head is `NULL`, whose `next` is the first member and whose
`prev` is the last.
-/

namespace Colibri.Lib

variable {α : Type}

/-- Two nodes that follow each other. -/
def Linked (next prev : α → α) (a b : α) : Prop := next a = b ∧ prev b = a

/-- **The ring with head `h` and members `L`.** -/
structure LinkRing (next prev : α → α) (h : α) (L : List α) : Prop where
  links : List.IsChain (Linked next prev) (h :: L ++ [h])
  nodup : (h :: L).Nodup

/-- A chain depends on `next` of all nodes but the last and on `prev` of all but the first. -/
theorem isChain_congr {next prev next' prev' : α → α} :
    ∀ {l : List α}, List.IsChain (Linked next prev) l → (∀ a ∈ l.dropLast, next' a = next a) →
      (∀ b ∈ l.tail, prev' b = prev b) → List.IsChain (Linked next' prev') l
  | [], _, _, _ => .nil
  | [a], _, _, _ => .singleton a
  | a :: b :: l, h, hn, hp => by
    rw [List.isChain_cons_cons] at h ⊢
    obtain ⟨⟨h₁, h₂⟩, h⟩ := h
    refine ⟨⟨(hn a (by simp)).trans h₁, (hp b (by simp)).trans h₂⟩,
      isChain_congr h (fun x hx => hn x ?_) fun y hy => hp y ?_⟩
    · rw [List.dropLast_cons_of_ne_nil (by simp)]
      exact List.mem_cons_of_mem _ hx
    · exact List.mem_cons_of_mem _ hy

/-- A chain of `next` alone depends on that of all nodes but the last. -/
theorem nextChain_congr {next next' : α → α} :
    ∀ {l : List α}, List.IsChain (fun a b => next a = b) l → (∀ a ∈ l.dropLast, next' a = next a) →
      List.IsChain (fun a b => next' a = b) l
  | [], _, _ => .nil
  | [a], _, _ => .singleton a
  | a :: b :: l, h, hn => by
    rw [List.isChain_cons_cons] at h ⊢
    refine ⟨(hn a (by simp)).trans h.1, nextChain_congr h.2 fun x hx => hn x ?_⟩
    rw [List.dropLast_cons_of_ne_nil (by simp)]
    exact List.mem_cons_of_mem _ hx

theorem LinkRing.congr {next prev next' prev' : α → α} {h : α} {L : List α} (hr : LinkRing next prev h L)
    (hn : ∀ a ∈ h :: L, next' a = next a) (hp : ∀ a ∈ h :: L, prev' a = prev a) :
    LinkRing next' prev' h L := by
  refine ⟨isChain_congr hr.links (fun a ha => hn a ?_) fun b hb => hp b ?_, hr.nodup⟩
  · rwa [List.dropLast_concat] at ha
  · simpa [or_comm] using hb

theorem ring_nil_iff {next prev : α → α} {h : α} :
    LinkRing next prev h [] ↔ next h = h ∧ prev h = h := by
  constructor
  · rintro ⟨hl, -⟩
    simpa [Linked] using hl
  · rintro ⟨hn, hp⟩
    exact ⟨by simp [Linked, hn, hp], List.nodup_singleton h⟩

/-- The first member, or the head again, follows the head. -/
theorem LinkRing.next_head {next prev : α → α} {h : α} {L : List α} (hr : LinkRing next prev h L) :
    next h = L.headD h := by
  cases L with
  | nil => exact (ring_nil_iff.mp hr).1
  | cons a L =>
    have hl := hr.links
    rw [List.cons_append, List.cons_append, List.isChain_cons_cons] at hl
    exact hl.1.1

/-- **The empty ring is the one whose head follows itself.** -/
theorem LinkRing.next_head_eq_iff {next prev : α → α} {h : α} {L : List α} (hr : LinkRing next prev h L) :
    next h = h ↔ L = [] := by
  rw [hr.next_head]
  cases L with
  | nil => simp
  | cons a L =>
    have hne : a ≠ h := fun e => (List.nodup_cons.mp hr.nodup).1 (by simp [e])
    simp [hne]

theorem LinkRing.prev_head {next prev : α → α} {h : α} {L : List α} (hr : LinkRing next prev h L) :
    prev h = L.getLastD h := by
  rcases List.eq_nil_or_concat L with rfl | ⟨L', a, rfl⟩
  · exact (ring_nil_iff.mp hr).2
  · have hl := hr.links
    rw [List.concat_eq_append, List.cons_append, List.append_assoc] at hl
    have hl' : List.IsChain (Linked next prev) ((h :: L') ++ a :: h :: []) := hl
    rw [List.isChain_append_cons_cons] at hl'
    simpa using hl'.2.1.2

theorem exists_eq_append_getLastD (h : α) (L : List α) : ∃ A, h :: L = A ++ [L.getLastD h] := by
  rcases List.eq_nil_or_concat L with rfl | ⟨L', a, rfl⟩
  · exact ⟨[], rfl⟩
  · exact ⟨h :: L', by simp⟩

theorem exists_append_eq_headD (h : α) (L : List α) : ∃ B, L ++ [h] = L.headD h :: B := by
  cases L with
  | nil => exact ⟨[], rfl⟩
  | cons a L => exact ⟨L ++ [h], rfl⟩

/-- The ring cut at two neighbours `p` and `q`. -/
theorem linkRing_append_iff {next prev : α → α} {h p q : α} {L₁ L₂ A B : List α}
    (hA : h :: L₁ = A ++ [p]) (hB : L₂ ++ [h] = q :: B) :
    List.IsChain (Linked next prev) (h :: (L₁ ++ L₂) ++ [h]) ↔
      List.IsChain (Linked next prev) (A ++ [p]) ∧ Linked next prev p q ∧
        List.IsChain (Linked next prev) (q :: B) := by
  have he : h :: (L₁ ++ L₂) ++ [h] = A ++ p :: q :: B := by
    rw [← List.cons_append, List.append_assoc, hB, hA]
    simp
  rw [he, List.isChain_append_cons_cons]

theorem append_cons_eq_of_cut {h p q : α} (n : α) {L₁ L₂ A B : List α} (hA : h :: L₁ = A ++ [p])
    (hB : L₂ ++ [h] = q :: B) : h :: (L₁ ++ n :: L₂) ++ [h] = A ++ p :: n :: q :: B := by
  have he : h :: (L₁ ++ n :: L₂) ++ [h] = (h :: L₁) ++ n :: (L₂ ++ [h]) := by simp
  rw [he, hA, hB]
  simp

/-- What the two sides of a cut share with the ring: no node but the two neighbours, and these on
the side where they are not written. -/
theorem notMem_of_cut {h p q : α} {L₁ L₂ A B : List α} (hnd : (h :: (L₁ ++ L₂)).Nodup)
    (hA : h :: L₁ = A ++ [p]) (hB : L₂ ++ [h] = q :: B) :
    (∀ a ∈ (A ++ [p]).dropLast, a ∈ h :: (L₁ ++ L₂) ∧ a ≠ p) ∧
    (∀ a ∈ (q :: B).dropLast, a ∈ h :: (L₁ ++ L₂) ∧ a ≠ p) ∧
    (∀ a ∈ (A ++ [p]).tail, a ∈ h :: (L₁ ++ L₂) ∧ a ≠ q) ∧
    (∀ a ∈ (q :: B).tail, a ∈ h :: (L₁ ++ L₂) ∧ a ≠ q) := by
  have htail : (A ++ [p]).tail = L₁ := by rw [← hA]; rfl
  have hdrop : (q :: B).dropLast = L₂ := by rw [← hB, List.dropLast_concat]
  have hBmem : ∀ a ∈ q :: B, a = h ∨ a ∈ L₂ := by
    intro a ha
    rw [← hB] at ha
    simpa [or_comm] using ha
  have hAmem : ∀ a ∈ A ++ [p], a = h ∨ a ∈ L₁ := by
    intro a ha
    rw [← hA] at ha
    simpa using ha
  have hnd₁ : (A ++ [p]).Nodup := by
    rw [← hA]
    exact hnd.sublist (by simp)
  have hnd₂ : (q :: B).Nodup := by
    rw [← hB, List.nodup_append_comm]
    exact hnd.sublist (by simp)
  have hdis : ∀ a ∈ L₁, a ∉ L₂ := by
    intro a h₁ h₂
    rw [List.nodup_cons, List.nodup_append] at hnd
    exact hnd.2.2.2 a h₁ a h₂ rfl
  have hh : h ∉ L₁ ∧ h ∉ L₂ := by
    rw [List.nodup_cons, List.mem_append, not_or] at hnd
    exact hnd.1
  have hp := hAmem p (by simp)
  have hq := hBmem q (by simp)
  rw [List.dropLast_concat, htail, hdrop, List.tail_cons]
  refine ⟨fun a ha => ⟨?_, ?_⟩, fun a ha => ⟨?_, ?_⟩, fun a ha => ⟨?_, ?_⟩, fun a ha => ⟨?_, ?_⟩⟩
  · have := hAmem a (by simp [ha])
    simp only [List.mem_cons, List.mem_append]
    tauto
  · rintro rfl
    rw [List.nodup_append] at hnd₁
    exact hnd₁.2.2 a ha a (by simp) rfl
  · simp [ha]
  · rintro rfl
    rcases hp with rfl | hp
    · exact hh.2 ha
    · exact hdis a hp ha
  · simp [ha]
  · rintro rfl
    rcases hq with rfl | hq
    · exact hh.1 ha
    · exact hdis a ha hq
  · have := hBmem a (by simp [ha])
    simp only [List.mem_cons, List.mem_append]
    tauto
  · rintro rfl
    exact (List.nodup_cons.mp hnd₂).1 ha

/-- **Inserting `n` between the neighbours `p` and `q`**, by any writes that leave the other links
of the ring alone. -/
theorem LinkRing.insert {next prev next' prev' : α → α} {h n p q : α} {L₁ L₂ : List α}
    (hr : LinkRing next prev h (L₁ ++ L₂)) (hn : n ∉ h :: (L₁ ++ L₂)) (hp : p = L₁.getLastD h)
    (hq : q = L₂.headD h) (hpn : next' p = n) (hnq : next' n = q) (hqn : prev' q = n)
    (hnp : prev' n = p) (hnext : ∀ a ∈ h :: (L₁ ++ L₂), a ≠ p → next' a = next a)
    (hprev : ∀ a ∈ h :: (L₁ ++ L₂), a ≠ q → prev' a = prev a) :
    LinkRing next' prev' h (L₁ ++ n :: L₂) := by
  obtain ⟨A, hA⟩ := exists_eq_append_getLastD h L₁
  obtain ⟨B, hB⟩ := exists_append_eq_headD h L₂
  rw [← hp] at hA
  rw [← hq] at hB
  obtain ⟨h₁, -, h₂⟩ := (linkRing_append_iff hA hB).mp hr.links
  obtain ⟨m₁, m₂, m₃, m₄⟩ := notMem_of_cut hr.nodup hA hB
  refine ⟨?_, ?_⟩
  · have he := append_cons_eq_of_cut n hA hB
    rw [he, List.isChain_append_cons_cons, List.isChain_cons_cons]
    exact ⟨isChain_congr h₁ (fun a ha => hnext a (m₁ a ha).1 (m₁ a ha).2)
        fun a ha => hprev a (m₃ a ha).1 (m₃ a ha).2, ⟨hpn, hnp⟩, ⟨hnq, hqn⟩,
      isChain_congr h₂ (fun a ha => hnext a (m₂ a ha).1 (m₂ a ha).2)
        fun a ha => hprev a (m₄ a ha).1 (m₄ a ha).2⟩
  · rw [← List.cons_append]
    exact List.perm_middle.nodup_iff.mpr (List.nodup_cons.mpr ⟨hn, hr.nodup⟩)

/-- The neighbours of a member. -/
theorem LinkRing.neighbours {next prev : α → α} {h n : α} {L₁ L₂ : List α}
    (hr : LinkRing next prev h (L₁ ++ n :: L₂)) :
    prev n = L₁.getLastD h ∧ next n = L₂.headD h := by
  obtain ⟨A, hA⟩ := exists_eq_append_getLastD h L₁
  obtain ⟨B, hB⟩ := exists_append_eq_headD h L₂
  have he := append_cons_eq_of_cut n hA hB
  have hl := hr.links
  rw [he, List.isChain_append_cons_cons, List.isChain_cons_cons] at hl
  exact ⟨hl.2.1.2, hl.2.2.1.1⟩

/-- **Taking `n` out** from between its neighbours `p` and `q`. -/
theorem LinkRing.unlink {next prev next' prev' : α → α} {h n p q : α} {L₁ L₂ : List α}
    (hr : LinkRing next prev h (L₁ ++ n :: L₂)) (hp : p = L₁.getLastD h) (hq : q = L₂.headD h)
    (hpq : next' p = q) (hqp : prev' q = p)
    (hnext : ∀ a ∈ h :: (L₁ ++ L₂), a ≠ p → next' a = next a)
    (hprev : ∀ a ∈ h :: (L₁ ++ L₂), a ≠ q → prev' a = prev a) :
    LinkRing next' prev' h (L₁ ++ L₂) := by
  obtain ⟨A, hA⟩ := exists_eq_append_getLastD h L₁
  obtain ⟨B, hB⟩ := exists_append_eq_headD h L₂
  rw [← hp] at hA
  rw [← hq] at hB
  have hnd : (h :: (L₁ ++ L₂)).Nodup := hr.nodup.sublist (by simp)
  have he := append_cons_eq_of_cut n hA hB
  have hl := hr.links
  rw [he, List.isChain_append_cons_cons, List.isChain_cons_cons] at hl
  obtain ⟨m₁, m₂, m₃, m₄⟩ := notMem_of_cut hnd hA hB
  refine ⟨(linkRing_append_iff hA hB).mpr ⟨?_, ⟨hpq, hqp⟩, ?_⟩, hnd⟩
  · exact isChain_congr hl.1 (fun a ha => hnext a (m₁ a ha).1 (m₁ a ha).2)
      fun a ha => hprev a (m₃ a ha).1 (m₃ a ha).2
  · exact isChain_congr hl.2.2.2 (fun a ha => hnext a (m₂ a ha).1 (m₂ a ha).2)
      fun a ha => hprev a (m₄ a ha).1 (m₄ a ha).2

/-! ## At the ends -/

theorem LinkRing.insertFront {next prev next' prev' : α → α} {h n : α} {L : List α}
    (hr : LinkRing next prev h L) (hn : n ∉ h :: L) (hhn : next' h = n) (hnq : next' n = next h)
    (hqn : prev' (next h) = n) (hnh : prev' n = h)
    (hnext : ∀ a ∈ h :: L, a ≠ h → next' a = next a)
    (hprev : ∀ a ∈ h :: L, a ≠ next h → prev' a = prev a) : LinkRing next' prev' h (n :: L) :=
  @LinkRing.insert α next prev next' prev' h n h (next h) [] L hr hn rfl hr.next_head hhn hnq hqn hnh
    hnext hprev

theorem LinkRing.insertBack {next prev next' prev' : α → α} {h n : α} {L : List α}
    (hr : LinkRing next prev h L) (hn : n ∉ h :: L) (hpn : next' (prev h) = n) (hnh : next' n = h)
    (hhn : prev' h = n) (hnp : prev' n = prev h)
    (hnext : ∀ a ∈ h :: L, a ≠ prev h → next' a = next a)
    (hprev : ∀ a ∈ h :: L, a ≠ h → prev' a = prev a) : LinkRing next' prev' h (L ++ [n]) := by
  rw [← List.append_nil L] at hr hn hnext hprev
  exact @LinkRing.insert α next prev next' prev' h n (prev h) h L [] hr hn
    (by rw [hr.prev_head, List.append_nil]) rfl hpn hnh hhn hnp hnext hprev

theorem LinkRing.unlinkFront {next prev next' prev' : α → α} {h n : α} {L : List α}
    (hr : LinkRing next prev h (n :: L)) (hhq : next' h = next n) (hqh : prev' (next n) = h)
    (hnext : ∀ a ∈ h :: L, a ≠ h → next' a = next a)
    (hprev : ∀ a ∈ h :: L, a ≠ next n → prev' a = prev a) : LinkRing next' prev' h L :=
  @LinkRing.unlink α next prev next' prev' h n h (next n) [] L hr rfl
    (LinkRing.neighbours (show LinkRing next prev h ([] ++ n :: L) from hr)).2 hhq hqh hnext hprev

theorem LinkRing.unlinkBack {next prev next' prev' : α → α} {h n : α} {L : List α}
    (hr : LinkRing next prev h (L ++ [n])) (hpn : next' (prev n) = h) (hhp : prev' h = prev n)
    (hnext : ∀ a ∈ h :: L, a ≠ prev n → next' a = next a)
    (hprev : ∀ a ∈ h :: L, a ≠ h → prev' a = prev a) : LinkRing next' prev' h L := by
  rw [← List.append_nil L] at hnext hprev ⊢
  exact hr.unlink hr.neighbours.1 rfl hpn hhp hnext hprev

/-! ## Reading a ring -/

/-- A ring with its links exchanged is the ring read backward. -/
theorem LinkRing.reverse {next prev : α → α} {h : α} {L : List α} (hr : LinkRing next prev h L) :
    LinkRing prev next h L.reverse := by
  refine ⟨?_, ?_⟩
  · have he : h :: L.reverse ++ [h] = (h :: L ++ [h]).reverse := by simp
    rw [he, List.isChain_reverse]
    exact hr.links.imp fun a b hab => hab.symm
  · obtain ⟨hh, hL⟩ := List.nodup_cons.mp hr.nodup
    exact List.nodup_cons.mpr ⟨by rwa [List.mem_reverse], List.nodup_reverse.mpr hL⟩

/-- The nodes from `a` on along `next`, up to the head `h`. -/
def follow [DecidableEq α] (next : α → α) (h : α) : Nat → α → Option (List α)
  | 0, _ => none
  | fuel + 1, a => if a = h then some [] else (follow next h fuel (next a)).map (a :: ·)

/-- Reading a chain that ends in the head. -/
theorem follow_chain [DecidableEq α] {next prev : α → α} {h a : α} {L : List α} {fuel : Nat}
    (hl : List.IsChain (Linked next prev) (a :: L ++ [h])) (hh : h ∉ L) (hf : L.length < fuel) :
    follow next h fuel (next a) = some L := by
  induction L generalizing a fuel with
  | nil =>
    obtain ⟨fuel, rfl⟩ := Nat.exists_eq_succ_of_ne_zero (Nat.ne_of_gt hf)
    have hnext : next a = h := (List.isChain_pair.mp hl).1
    rw [follow, if_pos hnext]
  | cons b L ih =>
    obtain ⟨fuel, rfl⟩ := Nat.exists_eq_succ_of_ne_zero (Nat.ne_of_gt (Nat.zero_lt_of_lt hf))
    rw [List.cons_append, List.cons_append, List.isChain_cons_cons] at hl
    rw [List.mem_cons, not_or] at hh
    have hnext : next a = b := hl.1.1
    rw [follow, hnext, if_neg (Ne.symm hh.1),
      ih (List.cons_append ▸ hl.2) hh.2 (Nat.lt_of_succ_lt_succ hf), Option.map_some]

/-- **A ring read forward** gives its members. -/
theorem LinkRing.follow_next [DecidableEq α] {next prev : α → α} {h : α} {L : List α}
    (hr : LinkRing next prev h L) {fuel : Nat} (hf : L.length < fuel) :
    follow next h fuel (next h) = some L :=
  follow_chain hr.links (List.nodup_cons.mp hr.nodup).1 hf

/-- **A ring read backward** gives them in the opposite order. -/
theorem LinkRing.follow_prev [DecidableEq α] {next prev : α → α} {h : α} {L : List α}
    (hr : LinkRing next prev h L) {fuel : Nat} (hf : L.length < fuel) :
    follow prev h fuel (prev h) = some L.reverse :=
  hr.reverse.follow_next (by rwa [List.length_reverse])

end Colibri.Lib
