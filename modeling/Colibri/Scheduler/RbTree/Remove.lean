import Colibri.Scheduler.RbTree.Insert

/-!
# `rb_remove` keeps the tree

`balance_tree_remove` runs before the leaf is unlinked, so its loop is about a context: the hole
still holds a subtree of the old black height, and the loop reshapes the context until it fits a
subtree of one black node less (`Shrunk`). Nothing it dereferences is `NULL`: the sibling of a
subtree of positive black height is a node, and so is the inner child of a red sibling.
-/

namespace Colibri.Scheduler

open Colibri.Lib Colibri.Lib.ColorTree Colibri.Lib.Ctx

variable {E : Type}

/-- In `t'` the context of `S` is a reshaped `f :: k` that fits a black subtree of black height
`m`. The node above the hole, and the side the hole is on, are as before. -/
def Shrunk (t : SchedTree E) (f : Frame (Addr × E)) (k : NCtx E) (S : NTree E) (m : Nat)
    (t' : SchedTree E) : Prop :=
  Keeps t t' ∧ ∃ c s k', Holds t' (fill (⟨f.dir, c, f.x, s⟩ :: k') S) ∧
    before (⟨f.dir, c, f.x, s⟩ :: k') = before (f :: k) ∧
    after (⟨f.dir, c, f.x, s⟩ :: k') = after (f :: k) ∧
    CtxColor (⟨f.dir, c, f.x, s⟩ :: k') .black ∧ CtxHeight (⟨f.dir, c, f.x, s⟩ :: k') m

/-- Case 6: the sibling's outer child is red. -/
theorem removeCase6_spec {t : SchedTree E} {k : NCtx E} {dir : Dir} {cp cs : Color} {p s d : Addr}
    {ep es ed : E} {S C D₁ D₂ : NTree E} {cd : Color}
    (h : Holds t (fill (⟨dir, cp, (p, ep), dnode dir C cs (s, es) (dnode dir D₁ cd (d, ed) D₂)⟩ :: k)
      S)) :
    ∃ t', t.removeCase6 p s (some d) dir = some t' ∧ Keeps t t' ∧
      Holds t' (fill (⟨dir, .black, (p, ep), C⟩ ::
        ⟨dir, cp, (s, es), dnode dir D₁ .black (d, ed) D₂⟩ :: k) S) := by
  obtain ⟨t₁, h₁, hk₁, h⟩ := rotate_spec (k := k) h
  have hp : t₁.nodes p = _ :=
    Holds.node (k := ⟨dir, cs, (s, es), dnode dir D₁ cd (d, ed) D₂⟩ :: k) h
  obtain ⟨t₂, h₂, hk₂, h⟩ := setColor_spec (k := k) cp h
  obtain ⟨t₃, h₃, hk₃, h⟩ :=
    setColor_spec (k := ⟨dir, cp, (s, es), dnode dir D₁ cd (d, ed) D₂⟩ :: k) .black h
  have h' : Holds t₃ (fill (⟨dir.flip, cp, (s, es), dnode dir S .black (p, ep) C⟩ :: k)
      (dnode dir D₁ cd (d, ed) D₂)) := by
    simpa [fill] using h
  obtain ⟨t₄, h₄, hk₄, h''⟩ := setColor_spec .black h'
  refine ⟨t₄, ?_, ((hk₁.trans hk₂).trans hk₃).trans hk₄, ?_⟩
  · simp [SchedTree.removeCase6, h₁, hp, h₂, h₃, h₄]
  · simpa [fill] using h''

/-- Case 5: only the sibling's inner child is red. -/
theorem removeCase5_spec {t : SchedTree E} {k : NCtx E} {dir : Dir} {cp cs cc : Color}
    {p s c : Addr} {ep es ec : E} {S C₁ C₂ D : NTree E}
    (h : Holds t (fill (⟨dir, cp, (p, ep), dnode dir (dnode dir C₁ cc (c, ec) C₂) cs (s, es) D⟩ :: k)
      S)) :
    ∃ t', t.removeCase5 p s (some c) dir = some t' ∧ Keeps t t' ∧
      Holds t' (fill (⟨dir, .black, (p, ep), C₁⟩ ::
        ⟨dir, cp, (c, ec), dnode dir C₂ .black (s, es) D⟩ :: k) S) := by
  have h' : Holds t (fill (⟨dir.flip, cp, (p, ep), S⟩ :: k)
      (dnode dir.flip D cs (s, es) (dnode dir.flip C₂ cc (c, ec) C₁))) := by
    simpa [fill] using h
  obtain ⟨t₁, h₁, hk₁, h⟩ := rotate_spec h'
  obtain ⟨t₂, h₂, hk₂, h⟩ := setColor_spec .black h
  obtain ⟨t₃, h₃, hk₃, h⟩ :=
    setColor_spec (k := ⟨dir.flip, .black, (c, ec), C₁⟩ :: ⟨dir.flip, cp, (p, ep), S⟩ :: k) .red h
  have h'' : Holds t₃ (fill (⟨dir, cp, (p, ep),
      dnode dir C₁ .black (c, ec) (dnode dir C₂ .red (s, es) D)⟩ :: k) S) := by
    simpa [fill] using h
  obtain ⟨t₄, h₄, hk₄, h⟩ := removeCase6_spec h''
  refine ⟨t₄, ?_, ((hk₁.trans hk₂).trans hk₃).trans hk₄, h⟩
  simp [SchedTree.removeCase5, h₁, h₂, h₃, h₄]

/-- Case 3: a red sibling changes places with `p`. -/
theorem removeCase3_spec {t : SchedTree E} {k : NCtx E} {dir : Dir} {cp cs cc : Color}
    {p s c : Addr} {ep es ec : E} {S C₁ C₂ D : NTree E}
    (h : Holds t (fill (⟨dir, cp, (p, ep), dnode dir (dnode dir C₁ cc (c, ec) C₂) cs (s, es) D⟩ :: k)
      S)) :
    ∃ t', t.removeCase3 p s (some c) dir = some (t', c, ptr C₁, ptr C₂) ∧ Keeps t t' ∧
      Holds t' (fill (⟨dir, .red, (p, ep), dnode dir C₁ cc (c, ec) C₂⟩ ::
        ⟨dir, .black, (s, es), D⟩ :: k) S) := by
  obtain ⟨t₁, h₁, hk₁, h⟩ := rotate_spec (k := k) h
  obtain ⟨t₂, h₂, hk₂, h⟩ := setColor_spec (k := ⟨dir, cs, (s, es), D⟩ :: k) .red h
  obtain ⟨t₃, h₃, hk₃, h⟩ := setColor_spec (k := k) .black h
  have h' : Holds t₃ (fill (⟨dir.flip, .red, (p, ep), S⟩ :: ⟨dir, .black, (s, es), D⟩ :: k)
      (dnode dir C₁ cc (c, ec) C₂)) := by
    simpa [fill] using h
  refine ⟨t₃, ?_, (hk₁.trans hk₂).trans hk₃, h⟩
  simp [SchedTree.removeCase3, h₁, h₂, h₃, h'.node]

/-- **An iteration with a black sibling** either fits the context to the shorter subtree, or recolours
the sibling and leaves the whole subtree of `p`, black as before, one black node short. -/
theorem removeBlackSibling_spec {t : SchedTree E} {k : NCtx E} {dir : Dir} {cp : Color}
    {p s : Addr} {ep es : E} {S C D : NTree E} {m : Nat}
    (h : Holds t (fill (⟨dir, cp, (p, ep), dnode dir C .black (s, es) D⟩ :: k) S))
    (hC : C.NoRedRed) (hD : D.NoRedRed) (hCh : C.BlackHeight m) (hDh : D.BlackHeight m)
    (hk : CtxColor k cp) (hkh : CtxHeight k (m + 1 + cp.weight)) :
    (∃ t', t.removeBlackSibling p s (ptr C) (ptr D) dir = some (t', false) ∧
      Shrunk t ⟨dir, cp, (p, ep), dnode dir C .black (s, es) D⟩ k S m t') ∨
    (∃ t', t.removeBlackSibling p s (ptr C) (ptr D) dir = some (t', true) ∧ Keeps t t' ∧
      Holds t' (fill (⟨dir, .black, (p, ep), dnode dir C .red (s, es) D⟩ :: k) S) ∧
      cp = .black ∧ C.color = .black ∧ D.color = .black) := by
  have h' : Holds t (fill (⟨dir.flip, cp, (p, ep), S⟩ :: k) (dnode dir C .black (s, es) D)) := by
    simpa [fill] using h
  have hCb : t.isBlack (ptr C) = _ := isBlack_spec h'.near
  have hDb : t.isBlack (ptr D) = _ := isBlack_spec h'.far
  cases hDc : D.color with
  | red =>
    obtain ⟨D₁, cd, ⟨d, ed⟩, D₂, rfl⟩ := exists_dnode dir (t := D) (by rintro rfl; simp at hDc)
    rw [color_dnode] at hDc
    subst hDc
    obtain ⟨t', ht', hk', h''⟩ := removeCase6_spec h
    refine Or.inl ⟨t', ?_, hk', .black, C, _, h'', ?_, ?_, ?_, ?_⟩
    · rw [ptr_dnode, color_dnode] at hDb
      simp [SchedTree.removeBlackSibling, hDb, ht']
    · cases dir <;> simp [before, toList_dnode]
    · cases dir <;> simp [after, toList_dnode]
    · rw [noRedRed_dnode] at hD
      exact ⟨hC, by simp, by simp [hD.1, hD.2.1], by simp, hk⟩
    · rw [blackHeight_red] at hDh
      exact ⟨hCh, by simp [hDh], hkh⟩
  | black =>
    cases hCc : C.color with
    | red =>
      obtain ⟨C₁, cc, ⟨c, ec⟩, C₂, rfl⟩ := exists_dnode dir (t := C) (by rintro rfl; simp at hCc)
      rw [color_dnode] at hCc
      subst hCc
      obtain ⟨t', ht', hk', h''⟩ := removeCase5_spec h
      rw [noRedRed_dnode] at hC
      rw [blackHeight_red] at hCh
      refine Or.inl ⟨t', ?_, hk', .black, C₁, _, h'', ?_, ?_, ?_, ?_⟩
      · rw [ptr_dnode, color_dnode] at hCb
        simp [SchedTree.removeBlackSibling, hDb, hDc, hCb, ht']
      · cases dir <;> simp [before, toList_dnode]
      · cases dir <;> simp [after, toList_dnode]
      · exact ⟨hC.1, by simp, by simp [hC.2.1, hD], by simp, hk⟩
      · exact ⟨hCh.1, by simp [hCh.2, hDh], hkh⟩
    | black =>
      obtain ⟨t₁, h₁, hk₁, hr⟩ := setColor_spec .red h'
      have hr' : Holds t₁ (fill k (dnode dir S cp (p, ep) (dnode dir C .red (s, es) D))) := by
        simpa [fill] using hr
      cases cp with
      | black =>
        refine Or.inr ⟨t₁, ?_, hk₁, hr', rfl, rfl, rfl⟩
        simp [SchedTree.removeBlackSibling, hDb, hDc, hCb, hCc, h₁, hr'.node]
      | red =>
        obtain ⟨t₂, h₂, hk₂, h''⟩ := setColor_spec .black hr'
        refine Or.inl ⟨t₂, ?_, hk₁.trans hk₂, .black, dnode dir C .red (s, es) D, k, h'', ?_, ?_,
          ?_, ?_⟩
        · simp [SchedTree.removeBlackSibling, hDb, hDc, hCb, hCc, h₁, hr'.node, h₂]
        · exact before_congr (by simp [toList_dnode]) rfl
        · exact after_congr (by simp [toList_dnode]) rfl
        · exact ⟨by simp [hC, hD, hCc, hDc], by simp, ctxColor_black hk⟩
        · exact ⟨by simp [hCh, hDh], hkh⟩

/-- Writing the root pointer it already has changes nothing. -/
theorem holds_setRoot {t : SchedTree E} {T : NTree E} {r : Ptr} (h : Holds t T) (hr : ptr T = r) :
    { t with root := r } = t := by
  rw [← hr, ← h.root]

/-- **The loop of `balance_tree_remove`.** The induction is on the fuel; case 2 moves one frame up,
and what it recoloured becomes the innermost frame of the result. -/
theorem balanceRemoveLoop_spec :
    ∀ (fuel : Nat) {t : SchedTree E} {f : Frame (Addr × E)} {k : NCtx E} {d : Dir}
      {A B : NTree E} {c : Color} {n : Addr} {e : E} {m : Nat},
      k.length < fuel → Holds t (fill (f :: k) (dnode d A c (n, e) B)) →
      CtxColor (f :: k) .black → CtxHeight (f :: k) (m + 1) →
      ∃ t', SchedTree.balanceRemoveLoop fuel t n = some t' ∧ Shrunk t f k (dnode d A c (n, e) B) m t'
  | 0, _, _, _, _, _, _, _, _, _, _, hf, _, _, _ => absurd hf (Nat.not_lt_zero _)
  | fuel + 1, t, ⟨dir, cp, (p, ep), sib⟩, k, d, A, B, c, n, e, m, hf, h, hcc, hch => by
    obtain ⟨hsib, hsc, hkc⟩ := hcc
    obtain ⟨hsh, hkh⟩ := hch
    simp only at hsib hsc hkc hsh hkh
    obtain ⟨C, cs, ⟨s, es⟩, D, rfl⟩ := exists_dnode dir (ne_nil_of_blackHeight_succ hsh)
    have hdir := dirOf_spec h
    have hn := h.node
    have hp : t.nodes p = _ := Holds.node (k := k) h
    have hs' : Holds t (fill (⟨dir.flip, cp, (p, ep), dnode d A c (n, e) B⟩ :: k)
        (dnode dir C cs (s, es) D)) := by
      simpa [fill] using h
    have hs := hs'.node
    rw [noRedRed_dnode] at hsib
    cases cs with
    | black =>
      rw [blackHeight_black] at hsh
      rcases removeBlackSibling_spec h hsib.1 hsib.2.1 hsh.1 hsh.2 hkc hkh with
        ⟨t', ht', hsh'⟩ | ⟨t', ht', hk', h', rfl, hCc, hDc⟩
      · refine ⟨t', ?_, hsh'⟩
        simp [SchedTree.balanceRemoveLoop, hdir, hn, hp, hs, ctxPtr, ht']
      · -- case 2: `p` and everything below it is one black node short now
        have hn' := h'.node
        have hp' : t'.nodes p = _ := Holds.node (k := k) h'
        have hcol : (dnode dir C .red (s, es) D).NoRedRed := by simp [hsib.1, hsib.2.1, hCc, hDc]
        have hhei : (dnode dir C .red (s, es) D).BlackHeight m := by simp [hsh]
        cases k with
        | nil =>
          refine ⟨t', ?_, hk', .black, _, [], h', ?_, ?_, ⟨hcol, by simp, trivial⟩, hhei, trivial⟩
          · have hroot := holds_setRoot h' (r := some p) (by simp [fill])
            simp [SchedTree.balanceRemoveLoop, hdir, hn, hp, hs, ctxPtr, ht', hn', hp', hroot]
          · exact before_congr (by simp [toList_dnode]) rfl
          · exact after_congr (by simp [toList_dnode]) rfl
        | cons g k =>
          obtain ⟨t'', ht'', hk'', c', s', k'', h'', hb, ha, hc', hh'⟩ :=
            balanceRemoveLoop_spec fuel (by simp at hf; omega) (k := k) h' hkc hkh
          refine ⟨t'', ?_, hk'.trans hk'', .black, dnode dir C .red (s, es) D,
            ⟨g.dir, c', g.x, s'⟩ :: k'', h'', ?_, ?_, ⟨hcol, by simp, hc'⟩, hhei, hh'⟩
          · simp [SchedTree.balanceRemoveLoop, hdir, hn, hp, hs, ctxPtr, ht', hn', hp', ht'']
          · exact before_congr (by simp [toList_dnode]) hb
          · exact after_congr (by simp [toList_dnode]) ha
    | red =>
      -- case 3: `p` is black and so are the sibling's children, which have positive black height
      obtain rfl : cp = .black := by
        cases cp with
        | black => rfl
        | red => simpa using (hsc rfl).2
      obtain ⟨hC, hD, hCD⟩ := hsib
      obtain ⟨hCc, hDc⟩ := hCD rfl
      rw [blackHeight_red] at hsh
      obtain ⟨C₁, cc, ⟨c', ec⟩, C₂, rfl⟩ := exists_dnode dir (ne_nil_of_blackHeight_succ hsh.1)
      rw [color_dnode] at hCc
      subst hCc
      rw [noRedRed_dnode] at hC
      rw [blackHeight_black] at hsh
      obtain ⟨t₁, h₁, hk₁, h'⟩ := removeCase3_spec h
      rcases removeBlackSibling_spec h' hC.1 hC.2.1 hsh.1.1 hsh.1.2 ⟨hD, by simp, hkc⟩
        ⟨hsh.2, hkh⟩ with ⟨t', ht', hk', c'', s'', k'', h'', hb, ha, hc', hh'⟩ | ⟨_, _, _, _, hcp, _⟩
      · refine ⟨t', ?_, hk₁.trans hk', c'', s'', k'', h'', ?_, ?_, hc', hh'⟩
        · simp [SchedTree.balanceRemoveLoop, hdir, hn, hp, hs, ctxPtr, h₁, ht']
        · rw [hb]
          cases dir <;> simp [before, toList_dnode]
        · rw [ha]
          cases dir <;> simp [after, toList_dnode]
      · exact absurd hcp (by simp)

/-! ## Unlinking a node -/

/-- The address of a tree's first node. -/
def firstAddr (T : NTree E) : Ptr := T.toList.head?.map Prod.fst

theorem firstAddr_eq (T : NTree E) : firstAddr T = (addrs T).head? := by
  rw [firstAddr, addrs, List.head?_map]

/-- Clearing the child pointer of the node above the hole. -/
theorem detach_spec {t : SchedTree E} {f : Frame (Addr × E)} {k : NCtx E} {S : NTree E}
    (h : Holds t (fill (f :: k) S)) :
    ∃ t', t.modify f.x.1 (·.setChild f.dir none) = some t' ∧ Keeps t t' ∧
      Holds t' (fill (f :: k) .nil) := by
  obtain ⟨hroot, ⟨hf, hs, hk⟩, -, hnd⟩ := holds_fill.mp h
  have hnd' : (ctxAddrs (f :: k) ++ addrs (.nil : NTree E)).Nodup := by
    simp only [addrs_nil, List.append_nil]
    exact (List.nodup_append.mp hnd).1
  simp only [ctxAddrs, List.nodup_append, List.nodup_cons, List.mem_append,
    List.cons_append] at hnd
  refine ⟨_, SchedTree.modify_eq hf _, ⟨rfl, rfl, isSome_update hf⟩,
    holds_fill.mpr ⟨?_, ⟨?_, ?_, ?_⟩, trivial, hnd'⟩⟩
  · rw [hroot]
    exact ptr_fill_cons _ _ _ _
  · rw [mkNode_setChild]
    exact Function.update_self _ _ _
  · exact rep_congr hs fun a ha => Function.update_of_ne (by grind) _ _
  · exact ctxRep_congr hk fun a ha => Function.update_of_ne (by grind) _ _

/-- Freeing a node that is no longer in the tree. -/
theorem Holds.free {t : SchedTree E} {T : NTree E} {a : Addr} (h : Holds t T) (ha : a ∉ addrs T) :
    Holds (t.free a) T :=
  ⟨h.root, rep_congr h.rep fun i hi => Function.update_of_ne (by grind) _ _, h.nodup⟩

theorem isSome_free {t t' : SchedTree E} {a : Addr}
    (h : ∀ i, (t'.nodes i).isSome = (t.nodes i).isSome) (i : Addr) :
    ((t'.free a).nodes i).isSome ↔ i ≠ a ∧ (t.nodes i).isSome := by
  rw [← h i]
  by_cases hi : i = a
  · simp [SchedTree.free, hi]
  · simp [SchedTree.free, hi]

/-- The cached `leftmost` is not part of what a tree's pointers hold. -/
theorem Holds.setLeftmost {t : SchedTree E} {T : NTree E} (h : Holds t T) (p : Ptr) :
    Holds { t with leftmost := p } T :=
  ⟨h.root, h.rep, h.nodup⟩

/-- The root of a filled context is one of the context's nodes. -/
theorem ptr_fill_mem {f : Frame (Addr × E)} {k : NCtx E} {S : NTree E} {a : Addr}
    (h : ptr (fill (f :: k) S) = some a) : a ∈ ctxAddrs (f :: k) := by
  induction k generalizing f S with
  | nil =>
    simp only [fill, ptr_dnode, Option.some.injEq] at h
    simp [ctxAddrs, h]
  | cons g k ih =>
    rw [fill] at h
    exact List.mem_cons_of_mem _ (List.mem_append_right _ (ih h))

/-- With nothing before the hole, the node after it is the one above it. -/
theorem head_after {k : NCtx E} (h : before k = []) : (after k).head?.map Prod.fst = ctxPtr k := by
  cases k with
  | nil => rfl
  | cons f k =>
    cases hd : f.dir with
    | left => simp [after, hd, ctxPtr]
    | right => simp [before, hd] at h

theorem firstAddr_fill {k : NCtx E} {S : NTree E} :
    firstAddr (fill k S) = (before k ++ (S.toList ++ after k)).head?.map Prod.fst := by
  rw [firstAddr, toList_fill]

/-- What `rb_remove` does to `leftmost` when the leaf `n` goes. -/
theorem leftmost_leaf {k : NCtx E} {c : Color} {n : Addr} {e : E}
    (hnd : (addrs (fill k (.node .nil c (n, e) .nil))).Nodup) :
    (if firstAddr (fill k (.node .nil c (n, e) .nil)) = some n then ctxPtr k
      else firstAddr (fill k (.node .nil c (n, e) .nil))) =
      (before k ++ after k).head?.map Prod.fst := by
  rw [firstAddr_fill]
  cases hb : before k with
  | nil => simp [toList, head_after hb]
  | cons x l =>
    have hx : x.1 ≠ n := by
      intro hx
      rw [addrs, toList_fill, hb] at hnd
      simp only [toList, List.nil_append, List.cons_append, List.map_cons, List.nodup_cons,
        List.map_append] at hnd
      exact hnd.1 (by simp [hx])
    simp [hx]

/-- Unlinking a leaf below the root. In both colours the node above `n`, on the same side, is what
loses its child. -/
theorem unlinkLeaf_spec {t : SchedTree E} {f : Frame (Addr × E)} {k : NCtx E} {c : Color}
    {n : Addr} {e : E}
    (h : Holds t (fill (f :: k) (.node .nil c (n, e) .nil)))
    (hb : Balanced (fill (f :: k) (.node .nil c (n, e) .nil)))
    (hsize : (fill (f :: k) (.node .nil c (n, e) .nil)).size ≤ t.size) :
    ∃ t' T', t.unlinkLeaf n = some t' ∧ Holds t' T' ∧ Balanced T' ∧
      T'.toList = before (f :: k) ++ after (f :: k) ∧ t'.size = t.size - 1 ∧
      t'.leftmost = t.leftmost ∧ ∀ i, (t'.nodes i).isSome ↔ i ≠ n ∧ (t.nodes i).isSome := by
  have hn : t.nodes n = _ := Holds.node (d := .left) h
  have hdir : t.dirOf n = some f.dir := dirOf_spec (d := .left) h
  obtain ⟨-, hcc, m, ⟨m', rfl, hm', -⟩, hch⟩ := balanced_fill.mp hb
  obtain rfl : m' = 0 := hm'
  obtain ⟨t₁, c', s', k', ht₁, hk₁, h₁, hbef, haft, hcc', hch'⟩ : ∃ t₁ c' s' k',
      (if c = .red then some t else t.balanceTreeRemove n) = some t₁ ∧ Keeps t t₁ ∧
      Holds t₁ (fill (⟨f.dir, c', f.x, s'⟩ :: k') (.node .nil c (n, e) .nil)) ∧
      before (⟨f.dir, c', f.x, s'⟩ :: k') = before (f :: k) ∧
      after (⟨f.dir, c', f.x, s'⟩ :: k') = after (f :: k) ∧
      CtxColor (⟨f.dir, c', f.x, s'⟩ :: k') .black ∧
      CtxHeight (⟨f.dir, c', f.x, s'⟩ :: k') 0 := by
    cases c with
    | red => exact ⟨t, f.color, f.sib, k, rfl, Keeps.refl _, h, rfl, rfl, ctxColor_black hcc, hch⟩
    | black =>
      have hlen := length_le_height (f :: k) (.node .nil .black (n, e) .nil : NTree E)
      have hfuel : k.length < t.size + 1 := by
        have := height_le_size (fill (f :: k) (.node .nil .black (n, e) .nil : NTree E))
        simp only [List.length_cons] at hlen
        omega
      obtain ⟨t₁, ht₁, hk₁, c', s', k', h₁, hrest⟩ :=
        balanceRemoveLoop_spec (d := .left) (t.size + 1) hfuel h hcc hch
      exact ⟨t₁, c', s', k', by rw [if_neg (by simp)]; exact ht₁, hk₁, h₁, hrest⟩
  have hn₁ : t₁.nodes n = _ := Holds.node (d := .left) h₁
  obtain ⟨t₂, ht₂, hk₂, h₂⟩ := detach_spec h₁
  have hlist : (fill (⟨f.dir, c', f.x, s'⟩ :: k') (.nil : NTree E)).toList =
      before (f :: k) ++ after (f :: k) := by
    rw [toList_fill, hbef, haft]
    rfl
  have hnmem : n ∉ addrs (fill (⟨f.dir, c', f.x, s'⟩ :: k') (.nil : NTree E)) := by
    have hnd := h.nodup
    rw [addrs, toList_fill] at hnd
    rw [addrs, hlist]
    simp only [toList, List.nil_append, List.cons_append, List.map_append, List.map_cons,
      List.nodup_append, List.nodup_cons, List.mem_cons] at hnd
    simp only [List.map_append, List.mem_append]
    grind
  refine ⟨t₂.free n, _, ?_, h₂.free hnmem, balanced_fill.mpr ⟨trivial, hcc', 0, rfl, hch'⟩, hlist,
    ?_, ?_, isSome_free fun i => (hk₂.live i).trans (hk₁.live i)⟩
  · cases c with
    | red =>
      obtain rfl : t = t₁ := by simpa using ht₁
      simp_all [SchedTree.unlinkLeaf, ctxPtr]
    | black =>
      rw [if_neg (by simp)] at ht₁
      simp_all [SchedTree.unlinkLeaf, ctxPtr]
  · show t₂.size - 1 = _
    rw [hk₂.size, hk₁.size]
  · show t₂.leftmost = _
    rw [hk₂.leftmost, hk₁.leftmost]

/-- **Removing a leaf.** -/
theorem removeLeaf_spec {t : SchedTree E} {k : NCtx E} {c : Color} {n : Addr} {e : E}
    (h : Holds t (fill k (.node .nil c (n, e) .nil)))
    (hb : Balanced (fill k (.node .nil c (n, e) .nil)))
    (hsize : (fill k (.node .nil c (n, e) .nil)).size ≤ t.size) :
    ∃ t' T', t.removeLeaf n = some t' ∧ Holds t' T' ∧ Balanced T' ∧
      T'.toList = before k ++ after k ∧ t'.size = t.size - 1 ∧
      (t.leftmost = firstAddr (fill k (.node .nil c (n, e) .nil)) → t'.leftmost = firstAddr T') ∧
      ∀ i, (t'.nodes i).isSome ↔ i ≠ n ∧ (t.nodes i).isSome := by
  have hn : t.nodes n = _ := Holds.node (d := .left) h
  -- the tree after the update of `leftmost`
  obtain ⟨t₀, ht₀⟩ : ∃ t₀ : SchedTree E,
      t₀ = if t.leftmost = some n then { t with leftmost := ctxPtr k } else t := ⟨_, rfl⟩
  have hfields : t₀.nodes = t.nodes ∧ t₀.root = t.root ∧ t₀.size = t.size := by
    rw [ht₀]
    split <;> exact ⟨rfl, rfl, rfl⟩
  obtain ⟨hnodes, hroot, hsz⟩ := hfields
  have hleft : t.leftmost = firstAddr (fill k (.node .nil c (n, e) .nil)) →
      t₀.leftmost = (before k ++ after k).head?.map Prod.fst := by
    intro hl
    rw [← leftmost_leaf h.nodup, ← hl, ht₀]
    split <;> rfl
  have h₀ : Holds t₀ (fill k (.node .nil c (n, e) .nil)) :=
    ⟨by rw [hroot, h.root], by rw [hnodes]; exact h.rep, h.nodup⟩
  have heq : t.removeLeaf n =
      if t₀.root = some n then some ({ t₀ with root := none }.free n) else t₀.unlinkLeaf n := by
    unfold SchedTree.removeLeaf
    rw [hn, ht₀]
    rfl
  rw [heq]
  cases k with
  | nil =>
    refine ⟨{ t₀ with root := none }.free n, .nil, if_pos ?_, ⟨rfl, trivial, List.nodup_nil⟩,
      ⟨trivial, 0, rfl⟩, rfl, ?_, ?_, isSome_free fun i => ?_⟩
    · rw [h₀.root]
      rfl
    · show t₀.size - 1 = _
      rw [hsz]
    · exact hleft
    · rw [← hnodes]
  | cons f k =>
    have hnd := (addrs_fill_perm (f :: k) _).nodup_iff.mp h.nodup
    have hnk : n ∉ ctxAddrs (f :: k) := by
      simp only [List.nodup_append] at hnd
      exact fun hm => hnd.2.2 n hm n (by simp [addrs, toList]) rfl
    have hne : t₀.root ≠ some n := by
      rw [h₀.root]
      exact fun hr => hnk (ptr_fill_mem hr)
    obtain ⟨t', T', ht', hT', hbal, hlist, hs, hlm, hlive⟩ :=
      unlinkLeaf_spec h₀ hb (by rw [hsz]; exact hsize)
    refine ⟨t', T', ?_, hT', hbal, hlist, by rw [hs, hsz], ?_, by rw [← hnodes]; exact hlive⟩
    · rw [if_neg hne, ht']
    · intro hl
      rw [hlm, hleft hl, firstAddr, hlist]

/-- An only child is a red leaf, and its parent is black. -/
theorem only_child {d : Dir} {S : NTree E} {c : Color} {x : Addr × E}
    (hc : (dnode d S c x .nil).NoRedRed) {m : Nat} (hh : (dnode d S c x .nil).BlackHeight m)
    (hS : S ≠ .nil) : ∃ y, S = .node .nil .red y .nil ∧ c = .black := by
  rw [noRedRed_dnode] at hc
  obtain ⟨m', rfl, hS0, hm'⟩ := blackHeight_dnode.mp hh
  obtain rfl : m' = 0 := hm'
  cases S with
  | nil => exact absurd rfl hS
  | node l cs y r =>
    obtain ⟨n, hn, hl, hr⟩ := hS0
    obtain rfl : n = 0 := by omega
    cases cs with
    | black => simp at hn
    | red =>
      obtain ⟨hlr, -, hcol⟩ := hc
      obtain ⟨hlc, hrc⟩ := hlr.2.2 rfl
      refine ⟨y, ?_, ?_⟩
      · rw [eq_nil_of_blackHeight_zero hl hlc, eq_nil_of_blackHeight_zero hr hrc]
      · cases c with
        | black => rfl
        | red => exact absurd (hcol rfl).1 (by simp [ColorTree.color])

/-- `t'` holds a balanced tree of the entities `es`, in this order, in the nodes of `T` but one, which
is freed; its first node is the cached `leftmost`, if that of `T` was. -/
def Leaves (t : SchedTree E) (T : NTree E) (es : List E) (t' : SchedTree E) : Prop :=
  t'.size = t.size - 1 ∧ ∃ T' x, Holds t' T' ∧ Balanced T' ∧ T'.toList.map Prod.snd = es ∧
    (addrs T).Perm (x :: addrs T') ∧ (t.leftmost = firstAddr T → t'.leftmost = firstAddr T') ∧
    ∀ i, (t'.nodes i).isSome ↔ i ≠ x ∧ (t.nodes i).isSome

/-- **Removing a node with one child**, which gives its entity to the node and goes. -/
theorem removeChild_spec {t : SchedTree E} {k : NCtx E} {d : Dir} {S : NTree E} {c : Color}
    {n : Addr} {e : E} (h : Holds t (fill k (dnode d S c (n, e) .nil)))
    (hb : Balanced (fill k (dnode d S c (n, e) .nil))) (ch : Addr) (hS : ptr S = some ch) :
    ∃ t', t.removeChild n ch = some t' ∧ Leaves t (fill k (dnode d S c (n, e) .nil))
      ((before k ++ S.toList ++ after k).map Prod.snd) t' := by
  obtain ⟨hcol, hcc, m, hm, hch⟩ := balanced_fill.mp hb
  obtain ⟨⟨ch', ec⟩, rfl, rfl⟩ := only_child hcol hm (by rintro rfl; simp at hS)
  obtain rfl : ch' = ch := by simpa [ptr] using hS
  obtain ⟨m', rfl, hm'⟩ := blackHeight_dnode.mp hm
  obtain rfl : m' = 0 := hm'.2
  have hdir : t.dirOf ch' = some d :=
    dirOf_spec (d := .left) (f := ⟨d, .black, (n, e), .nil⟩) (k := k) h
  have hch' : t.nodes ch' = _ :=
    Holds.node (d := .left) (k := ⟨d, .black, (n, e), .nil⟩ :: k) h
  obtain ⟨t₁, h₁, hk₁, hh₁⟩ := setSe_spec ec h
  obtain ⟨t₂, h₂, hk₂, hh₂⟩ := detach_spec (f := ⟨d, .black, (n, ec), .nil⟩) (k := k) hh₁
  simp only [fill] at hh₂ h₂
  have hnd := h.nodup
  rw [addrs, toList_fill] at hnd
  have hmem : ch' ∉ addrs (fill k (dnode d .nil .black (n, ec) .nil)) := by
    rw [addrs, toList_fill]
    cases d <;>
    · simp only [dnode, toList, List.map_append, List.map_cons, List.nodup_append, List.nodup_cons,
        List.mem_append, List.mem_cons, List.map_nil, List.nil_append] at hnd ⊢
      grind
  have hlm : t.leftmost = firstAddr (fill k (dnode d (.node .nil .red (ch', ec) .nil) .black (n, e)
      .nil)) → (if t.leftmost = some ch' then some n else t.leftmost) =
        firstAddr (fill k (dnode d .nil .black (n, ec) .nil)) := by
    intro hl
    rw [hl, firstAddr_fill, firstAddr_fill]
    cases hbef : before k with
    | nil =>
      cases d with
      | left => simp [dnode, toList]
      | right =>
        have hne : n ≠ ch' := by
          rintro rfl
          simp [dnode, toList, hbef] at hnd
        simp [dnode, toList, hne]
    | cons x l =>
      have hne : x.1 ≠ ch' := by
        intro hx
        rw [hbef] at hnd
        cases d <;> simp [dnode, toList, hx] at hnd
      simp [hne]
  refine ⟨({ t₂ with leftmost := if t.leftmost = some ch' then some n else t.leftmost }).free ch', ?_,
    ?_, _, ch', (hh₂.setLeftmost _).free hmem, balanced_fill.mpr ⟨by simp, ?_, 1, by simp, ?_⟩, ?_,
    ?_, hlm, isSome_free fun i => (hk₂.live i).trans (hk₁.live i)⟩
  · have hl₂ : t₂.leftmost = t.leftmost := by rw [hk₂.leftmost, hk₁.leftmost]
    have heq : (if t.leftmost = some ch' then { t₂ with leftmost := some n } else t₂) =
        { t₂ with leftmost := if t.leftmost = some ch' then some n else t.leftmost } := by
      split
      · rfl
      · rw [← hl₂]
    simp [SchedTree.removeChild, hdir, hch', h₁, h₂, hl₂, heq]
  · show t₂.size - 1 = _
    rw [hk₂.size, hk₁.size]
  · simpa using hcc
  · simpa using hch
  · rw [toList_fill]
    cases d <;> simp [dnode, toList]
  · rw [addrs, addrs, toList_fill, toList_fill]
    cases d with
    | left =>
      simp only [dnode, toList, List.map_append, List.map_cons, List.nil_append, List.cons_append]
      exact List.perm_middle
    | right =>
      have hperm : ((before k).map Prod.fst ++ [n] ++ ch' :: (after k).map Prod.fst).Perm
          (ch' :: ((before k).map Prod.fst ++ [n] ++ (after k).map Prod.fst)) := List.perm_middle
      simpa [dnode, toList] using hperm

/-- **Removing a node with at most one child.** -/
theorem removeOuter_spec {t : SchedTree E} {k : NCtx E} {l r : NTree E} {c : Color} {n : Addr}
    {e : E} (h : Holds t (fill k (.node l c (n, e) r))) (hb : Balanced (fill k (.node l c (n, e) r)))
    (hsize : (fill k (.node l c (n, e) r)).size ≤ t.size) (hlr : l = .nil ∨ r = .nil) :
    ∃ t', t.removeOuter n = some t' ∧ Leaves t (fill k (.node l c (n, e) r))
      ((before k ++ l.toList ++ (r.toList ++ after k)).map Prod.snd) t' := by
  have hn : t.nodes n = _ := Holds.node (d := .left) h
  cases l with
  | node l₁ cl x l₂ =>
    obtain rfl : r = .nil := by simpa using hlr
    obtain ⟨t', ht', hlv⟩ := removeChild_spec (d := .left) h hb x.1 rfl
    refine ⟨t', ?_, by simpa [toList, dnode] using hlv⟩
    simp [SchedTree.removeOuter, hn, mkNode, ptr, ht']
  | nil =>
    cases r with
    | node r₁ cr x r₂ =>
      obtain ⟨t', ht', hlv⟩ := removeChild_spec (d := .right) h hb x.1 rfl
      refine ⟨t', ?_, by simpa [toList, dnode] using hlv⟩
      simp [SchedTree.removeOuter, hn, mkNode, ptr, ht']
    | nil =>
      obtain ⟨t', T', ht', hT', hbal, hlist, hs, hlm, hlive⟩ := removeLeaf_spec h hb hsize
      refine ⟨t', ?_, hs, T', n, hT', hbal, by simp [hlist, toList], ?_, hlm, hlive⟩
      · simp [SchedTree.removeOuter, hn, mkNode, ht']
      · rw [addrs, addrs, hlist, toList_fill]
        simp only [toList, List.nil_append, List.cons_append, List.map_append, List.map_cons]
        exact List.perm_middle

/-- **`rightmost` finds the last node** of a subtree. -/
theorem rightmost_spec {t : SchedTree E} : ∀ (fuel : Nat) {k : NCtx E} {S : NTree E} {a : Addr},
    S.height < fuel → Holds t (fill k S) → ptr S = some a →
    ∃ k' l c sw e, t.rightmost fuel a = some sw ∧ S = fill k' (.node l c (sw, e) .nil) ∧
      after k' = []
  | 0, _, _, _, hf, _, _ => absurd hf (Nat.not_lt_zero _)
  | _ + 1, _, .nil, _, _, _, ha => by simp at ha
  | fuel + 1, k, .node l c (n, e) r, a, hf, h, ha => by
    obtain rfl : n = a := by simpa [ptr] using ha
    have hn : t.nodes n = _ := Holds.node (d := .right) (A := r) (B := l) h
    cases hr : r with
    | nil =>
      subst hr
      refine ⟨[], l, c, n, e, ?_, rfl, rfl⟩
      simp [SchedTree.rightmost, hn, mkNode]
    | node r₁ cr x r₂ =>
      subst hr
      have hf' : (ColorTree.node r₁ cr x r₂ : NTree E).height < fuel := by
        simp only [ColorTree.height] at hf ⊢
        omega
      obtain ⟨k', l', c', sw, e', hsw, hS, hk'⟩ :=
        rightmost_spec fuel (k := ⟨.right, c, (n, e), l⟩ :: k) hf' h (a := x.1) rfl
      refine ⟨k' ++ [⟨.right, c, (n, e), l⟩], l', c', sw, e', ?_, ?_, ?_⟩
      · simp [SchedTree.rightmost, hn, mkNode, ptr, hsw]
      · rw [fill_append, ← hS]
        rfl
      · rw [after_append, hk']
        rfl

/-- **Removing the node `n`**: its entity leaves the sequence, the others stay in their order. -/
theorem removeNode_spec {t : SchedTree E} {k : NCtx E} {l r : NTree E} {c : Color} {n : Addr}
    {e : E} (h : Holds t (fill k (.node l c (n, e) r))) (hb : Balanced (fill k (.node l c (n, e) r)))
    (hsize : (fill k (.node l c (n, e) r)).size ≤ t.size) :
    ∃ t', t.removeNode n = some t' ∧ Leaves t (fill k (.node l c (n, e) r))
      ((before k ++ l.toList ++ (r.toList ++ after k)).map Prod.snd) t' := by
  have hn : t.nodes n = _ := Holds.node (d := .left) h
  by_cases hlr : l = .nil ∨ r = .nil
  · obtain ⟨t', ht', hlv⟩ := removeOuter_spec h hb hsize hlr
    refine ⟨t', ?_, hlv⟩
    rw [← ht']
    rcases hlr with rfl | rfl
    · cases r <;> simp [SchedTree.removeNode, hn, mkNode, ptr]
    · cases l <;> simp [SchedTree.removeNode, hn, mkNode, ptr]
  · obtain ⟨hln, hrn⟩ := not_or.mp hlr
    obtain ⟨a, ha⟩ := Option.ne_none_iff_exists'.mp (mt ptr_eq_none.mp hln)
    obtain ⟨b, hb'⟩ := Option.ne_none_iff_exists'.mp (mt ptr_eq_none.mp hrn)
    have hheight := (length_le_height k (.node l c (n, e) r)).trans (height_le_size _)
    obtain ⟨k', L, c', sw, es, hsw, rfl, hk'⟩ :=
      rightmost_spec (t.size + 1) (k := ⟨.left, c, (n, e), r⟩ :: k)
        (by simp only [ColorTree.height] at hheight; omega) h ha
    have hswn : t.nodes sw = _ :=
      Holds.node (d := .left) (k := k' ++ ⟨.left, c, (n, e), r⟩ :: k)
        (by rw [fill_append]; exact h)
    obtain ⟨t₁, h₁, hk₁, hh₁⟩ := setSe_spec (d := .left) es h
    -- `n` now has the predecessor's entity, and `sw` is the node to remove
    have hT : fill (k' ++ ⟨.left, c, (n, es), r⟩ :: k) (.node L c' (sw, es) .nil) =
        fill k (.node (fill k' (.node L c' (sw, es) .nil)) c (n, es) r) := by
      rw [fill_append]
      rfl
    have hlist : (addrs (fill k (.node (fill k' (.node L c' (sw, es) .nil)) c (n, es) r))) =
        addrs (fill k (.node (fill k' (.node L c' (sw, es) .nil)) c (n, e) r)) := by
      simp [addrs, toList_fill, toList]
    have hb₁ : Balanced (fill k (.node (fill k' (.node L c' (sw, es) .nil)) c (n, es) r)) := by
      have hb₀ := balanced_fill.mp hb
      exact balanced_fill.mpr hb₀
    obtain ⟨t', ht', hs, T', x, hT', hbal, hents, haddr, hlm, hlive⟩ := removeOuter_spec (by rw [hT]; exact hh₁)
      (by rw [hT]; exact hb₁)
      (by
        rw [hT, hk₁.size, ← toList_length, ← List.length_map, ← addrs, hlist, addrs, List.length_map,
          toList_length]
        exact hsize)
      (.inr rfl)
    refine ⟨t', ?_, by rw [hs, hk₁.size], T', x, hT', hbal, ?_, ?_, fun hl => hlm ?_, fun i => by
      rw [hlive, hk₁.live]⟩
    · simp [SchedTree.removeNode, hn, mkNode, ha, hb', hsw, hswn, h₁, ht']
    · rw [hents, before_append, after_append, hk']
      simp [before, after, toList_fill, toList, hk']
    · rw [← hlist, ← hT]
      exact haddr
    · rw [hT, firstAddr_eq, hlist, ← firstAddr_eq, hk₁.leftmost, hl]

/-! ## The descent -/

section Find

variable {K : Type} [LinearOrder K] [DecidableEq E]

/-- The path of `rb_remove`'s descent for `se` meets `se`. -/
def Reaches (key : E → K) (se : E) : NTree E → Prop
  | .nil => False
  | .node l _ x r => x.2 = se ∨ (if key se < key x.2 then Reaches key se l else Reaches key se r)

/-- **The descent of `rb_remove`** ends, on the node of `se` if its path meets `se` and with `NULL`
if not. -/
theorem findLoop_spec (key : E → K) (se : E) {t : SchedTree E} :
    ∀ (fuel : Nat) {p : Ptr} {S : NTree E}, S.height < fuel → Rep t.nodes p S →
      (¬ Reaches key se S ∧ t.findLoop key se fuel (ptr S) = some none) ∨
      (Reaches key se S ∧ ∃ k l c a r, t.findLoop key se fuel (ptr S) = some (some a) ∧
        S = fill k (.node l c (a, se) r))
  | 0, _, _, hf, _ => absurd hf (Nat.not_lt_zero _)
  | _ + 1, _, .nil, _, _ => .inl ⟨id, rfl⟩
  | fuel + 1, p, .node l c (n, e) r, hf, h => by
    obtain ⟨hn, hl, hr⟩ := h
    simp only [ColorTree.height] at hf
    by_cases he : e = se
    · subst he
      exact .inr ⟨.inl rfl, [], l, c, n, r, by simp [SchedTree.findLoop, ptr, hn], rfl⟩
    · by_cases hk : key se < key e
      · have hloop : t.findLoop key se (fuel + 1) (some n) = t.findLoop key se fuel (ptr l) := by
          simp [SchedTree.findLoop, hn, he, hk]
        have hreach : Reaches key se (.node l c (n, e) r) ↔ Reaches key se l := by
          simp [Reaches, he, hk]
        rcases findLoop_spec key se fuel (by omega) hl with ⟨h₁, h₂⟩ | ⟨h₁, k, l', c', a, r', h₂, h₃⟩
        · exact .inl ⟨mt hreach.mp h₁, hloop.trans h₂⟩
        · refine .inr ⟨hreach.mpr h₁, k ++ [⟨.left, c, (n, e), r⟩], l', c', a, r', hloop.trans h₂, ?_⟩
          rw [fill_append, ← h₃]
          rfl
      · have hloop : t.findLoop key se (fuel + 1) (some n) = t.findLoop key se fuel (ptr r) := by
          simp [SchedTree.findLoop, hn, he, hk]
        have hreach : Reaches key se (.node l c (n, e) r) ↔ Reaches key se r := by
          simp [Reaches, he, hk]
        rcases findLoop_spec key se fuel (by omega) hr with ⟨h₁, h₂⟩ | ⟨h₁, k, l', c', a, r', h₂, h₃⟩
        · exact .inl ⟨mt hreach.mp h₁, hloop.trans h₂⟩
        · refine .inr ⟨hreach.mpr h₁, k ++ [⟨.right, c, (n, e), l⟩], l', c', a, r', hloop.trans h₂,
            ?_⟩
          rw [fill_append, ← h₃]
          rfl

/-- **`rb_remove`.** If its descent meets `se`, one occurrence of `se` leaves the sequence;
otherwise nothing changes. -/
theorem rbRemove_spec (key : E → K) {t : SchedTree E} {T : NTree E} (se : E) (h : Holds t T)
    (hb : Balanced T) (hsize : T.size ≤ t.size) :
    (¬ Reaches key se T ∧ t.rbRemove key se = some t) ∨
    (Reaches key se T ∧ ∃ t' A B, t.rbRemove key se = some t' ∧
      T.toList.map Prod.snd = A ++ se :: B ∧ Leaves t T (A ++ B) t') := by
  have hroot := h.root
  rcases findLoop_spec key se (t.size + 1)
    (Nat.lt_succ_of_le ((height_le_size T).trans hsize)) h.rep with
    ⟨h₁, h₂⟩ | ⟨h₁, k, l, c, a, r, h₂, rfl⟩
  · refine .inl ⟨h₁, ?_⟩
    simp [SchedTree.rbRemove, SchedTree.find, hroot, h₂]
  · obtain ⟨t', ht', hlv⟩ := removeNode_spec h hb hsize
    refine .inr ⟨h₁, t', (before k ++ l.toList).map Prod.snd, (r.toList ++ after k).map Prod.snd, ?_,
      ?_, ?_⟩
    · simp [SchedTree.rbRemove, SchedTree.find, hroot, h₂, ht']
    · simp [toList_fill, toList]
    · rw [← List.map_append]
      exact hlv

end Find

end Colibri.Scheduler
