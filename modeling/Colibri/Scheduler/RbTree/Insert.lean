import Colibri.Scheduler.RbTree.Repr

/-!
# `rb_insert` keeps the tree

`balanceInsertLoop_spec` is the loop of `balance_tree_insert`: the tree around the red node `n` is
in order except that `n`'s parent may be red as well, and one iteration either ends or moves that
defect two levels up. The loop may end with a red root. `rbInsert_spec` puts the descent in front.
-/

namespace Colibri.Scheduler

open Colibri.Lib Colibri.Lib.ColorTree Colibri.Lib.Ctx

variable {E : Type}

/-- The shape part of a well-formed red-black tree. -/
structure Balanced (T : NTree E) : Prop where
  noRedRed : T.NoRedRed
  blackHeight : ∃ n, T.BlackHeight n

theorem balanced_fill {k : NCtx E} {S : NTree E} :
    Balanced (fill k S) ↔ S.NoRedRed ∧ CtxColor k S.color ∧
      ∃ m, S.BlackHeight m ∧ CtxHeight k m := by
  constructor
  · rintro ⟨h1, h2⟩
    obtain ⟨h3, h4⟩ := noRedRed_fill.mp h1
    exact ⟨h3, h4, blackHeight_fill.mp h2⟩
  · rintro ⟨h1, h2, h3⟩
    exact ⟨noRedRed_fill.mpr ⟨h1, h2⟩, blackHeight_fill.mpr h3⟩

/-- The external case, whatever the colours. -/
theorem insertExternal_spec {t : SchedTree E} {k : NCtx E} {dir : Dir} {S B U : NTree E}
    {cp cg : Color} {p g : Addr} {ep eg : E}
    (h : Holds t (fill k (dnode dir (dnode dir S cp (p, ep) B) cg (g, eg) U))) :
    ∃ t', t.insertExternal g p dir = some t' ∧ Keeps t t' ∧
      Holds t' (fill k (dnode dir S .black (p, ep) (dnode dir B .red (g, eg) U))) := by
  rw [← dnode_flip dir U, ← dnode_flip dir B] at h
  obtain ⟨t₁, h₁, hk₁, h⟩ := rotate_spec h
  obtain ⟨t₂, h₂, hk₂, h⟩ := setColor_spec (k := ⟨dir.flip, cp, (p, ep), S⟩ :: k) .red h
  obtain ⟨t₃, h₃, hk₃, h⟩ := setColor_spec (k := k) .black h
  refine ⟨t₃, ?_, (hk₁.trans hk₂).trans hk₃, ?_⟩
  · simp [SchedTree.insertExternal, h₁, h₂, h₃]
  · simpa using h

/-- The tree the external case leaves is balanced. -/
theorem balanced_external {k : NCtx E} {dir : Dir} {S B U : NTree E} {x y : Addr × E} {m : Nat}
    (hS : S.NoRedRed) (hB : B.NoRedRed) (hU : U.NoRedRed) (hBc : B.color = .black)
    (hUc : U.color = .black) (hSh : S.BlackHeight m) (hBh : B.BlackHeight m)
    (hUh : U.BlackHeight m) (hk : CtxColor k .black) (hkh : CtxHeight k (m + 1)) :
    Balanced (fill k (dnode dir S .black x (dnode dir B .red y U))) := by
  refine balanced_fill.mpr ⟨?_, by rwa [color_dnode], m + 1, ?_, hkh⟩
  · simp [hS, hB, hU, hBc, hUc]
  · simp [hSh, hBh, hUh]

/-- What one call of the rebalancing achieves: a balanced tree with the same in-order sequence of
nodes, in memory. -/
def Rebalanced (t : SchedTree E) (T : NTree E) (t' : SchedTree E) : Prop :=
  Keeps t t' ∧ ∃ T', Holds t' T' ∧ T'.toList = T.toList ∧ Balanced T'

theorem Rebalanced.of_keeps {t t' t'' : SchedTree E} {T T' : NTree E} (hk : Keeps t t')
    (hT : T'.toList = T.toList) (h : Rebalanced t' T' t'') : Rebalanced t T t'' := by
  obtain ⟨hk', T'', hT'', hl, hb⟩ := h
  exact ⟨hk.trans hk', T'', hT'', hl.trans hT, hb⟩

/-- **The loop of `balance_tree_insert`.** The induction is on the fuel; the context shrinks by two
frames at each turn. -/
theorem balanceInsertLoop_spec :
    ∀ (fuel : Nat) {t : SchedTree E} {f : Frame (Addr × E)} {k : NCtx E} {d : Dir}
      {A B : NTree E} {n : Addr} {e : E} {m : Nat},
      k.length < fuel → Holds t (fill (f :: k) (dnode d A .red (n, e) B)) →
      (dnode d A .red (n, e) B).NoRedRed → (dnode d A .red (n, e) B).BlackHeight m →
      CtxColor (f :: k) .black → CtxHeight (f :: k) m →
      ∃ t', SchedTree.balanceInsertLoop fuel t n f.x.1 = some t' ∧
        Rebalanced t (fill (f :: k) (dnode d A .red (n, e) B)) t'
  | 0, _, _, _, _, _, _, _, _, _, hf, _, _, _, _, _ => absurd hf (Nat.not_lt_zero _)
  | fuel + 1, t, ⟨fd, fc, (p, ep), sib⟩, k, d, A, B, n, e, m, hf, h, hrr, hbh, hcc, hch => by
    have hpn : t.nodes p = _ := Holds.node (k := k) h
    rw [ptr_dnode] at hpn
    cases fc with
    | black =>
      refine ⟨t, ?_, Keeps.refl t, _, h, rfl, balanced_fill.mpr ⟨hrr, ?_, m, hbh, hch⟩⟩
      · simp [SchedTree.balanceInsertLoop, hpn]
      · exact ⟨hcc.1, by simp, hcc.2.2⟩
    | red =>
      cases k with
      | nil =>
        obtain ⟨t', ht', hk', h'⟩ := setColor_spec (k := []) .black h
        refine ⟨t', ?_, hk', _, h', ?_, ?_⟩
        · simp [SchedTree.balanceInsertLoop, hpn, ctxPtr, ht']
        · cases fd <;> rfl
        · refine balanced_fill.mpr ⟨?_, trivial, m + 1, ?_, trivial⟩
          · exact noRedRed_dnode.mpr ⟨hrr, hcc.1, by simp⟩
          · exact blackHeight_black.mpr ⟨hbh, hch.1⟩
      | cons g k =>
        obtain ⟨gd, gc, ⟨ga, eg⟩, U⟩ := g
        obtain ⟨hsib, hsc, hU, hgc, hck⟩ := hcc
        obtain ⟨hsh, hUh, hkh⟩ := hch
        have hsc := (hsc rfl).2
        -- the grandparent is black: its child `p` is red
        have hgb : gc = .black := by
          cases gc with
          | black => rfl
          | red => exact absurd (hgc rfl).1 (by simp)
        subst hgb
        simp only [Color.weight_red, Nat.add_zero, Color.weight_black] at hUh hkh
        have hga : t.nodes ga = _ := Holds.node (k := k) h
        have hdir : t.dirOf p = some gd := dirOf_spec (k := k) h
        have hunc : t.isBlack (ptr U) = _ := isBlack_spec (Holds.far (k := k) h)
        rw [ptr_dnode] at hga
        cases hUc : U.color with
        | black =>
          obtain ⟨A', B', hS⟩ := dnode_along d gd A .red (n, e) B
          rw [hS] at h hrr hbh ⊢
          rw [noRedRed_dnode] at hrr
          rw [blackHeight_red] at hbh
          obtain ⟨hA, hB, hAB⟩ := hrr
          obtain ⟨hAc, hBc⟩ := hAB rfl
          by_cases hfd : fd = gd
          · subst hfd
            -- external: `n` and `p` hang on the same side
            have hne : ptr sib ≠ some n := by
              have hnd := (holds_fill.mp h).nodup
              simp only [ctxAddrs, List.nodup_append, List.nodup_cons, mem_addrs_dnode,
                List.mem_cons, List.mem_append] at hnd
              grind [→ ptr_mem]
            obtain ⟨t', ht', hk', h'⟩ := insertExternal_spec (k := k) h
            refine ⟨t', ?_, hk', _, h', toList_fill_congr ?_, ?_⟩
            · simp [SchedTree.balanceInsertLoop, hpn, ctxPtr, hdir, hga, hunc, hUc, hne, ht']
            · cases fd <;> simp [dnode, toList]
            · exact balanced_external (by simp [hA, hB, hAc, hBc]) hsib hU hsc hUc
                (by simp [hbh]) hsh hUh hck hkh
          · -- internal: one rotation at `p` brings it back to the external case
            obtain rfl : fd = gd.flip := by cases fd <;> cases gd <;> simp_all [Dir.flip]
            have h : Holds t (fill (⟨gd, .black, (ga, eg), U⟩ :: k)
                (dnode gd sib .red (p, ep) (dnode gd A' .red (n, e) B'))) := by
              rw [← dnode_flip]; exact h
            obtain ⟨t₁, h₁, hk₁, h⟩ := rotate_spec h
            have hga₁ : t₁.nodes ga = _ := Holds.node (k := k) h
            obtain ⟨t', ht', hk', h'⟩ := insertExternal_spec (k := k) h
            refine ⟨t', ?_, hk₁.trans hk', _, h', toList_fill_congr ?_, ?_⟩
            · simp [SchedTree.balanceInsertLoop, hpn, ctxPtr, hdir, hga, hunc, hUc, h₁, hga₁, ht']
            · cases gd <;> simp [dnode, toList, Dir.flip]
            · exact balanced_external (by simp [hsib, hA, hsc, hAc]) hB hU hBc hUc
                (by simp [hsh, hbh]) hbh.2 hUh hck hkh
        | red =>
          obtain ⟨a, c, ⟨u, eu⟩, b, rfl⟩ := exists_dnode gd (t := U) (by rintro rfl; simp [color] at hUc)
          rw [color_dnode] at hUc
          subst hUc
          rw [ptr_dnode, color_dnode] at hunc
          -- both children of the grandparent are red: they turn black, it turns red and becomes `n`
          obtain ⟨t₁, h₁, hk₁, h₁'⟩ :=
            setColor_spec (k := ⟨gd, .black, (ga, eg), dnode gd a .red (u, eu) b⟩ :: k) .black h
          have h₁'' : Holds t₁ (fill (⟨gd.flip, .black, (ga, eg),
              dnode fd (dnode d A .red (n, e) B) .black (p, ep) sib⟩ :: k)
              (dnode gd a .red (u, eu) b)) := by
            simpa [fill] using h₁'
          obtain ⟨t₂, h₂, hk₂, h₂'⟩ := setColor_spec .black h₁''
          have h₂'' : Holds t₂ (fill k (dnode gd (dnode fd (dnode d A .red (n, e) B) .black (p, ep)
              sib) .black (ga, eg) (dnode gd a .black (u, eu) b))) := by
            simpa [fill] using h₂'
          obtain ⟨t₃, h₃, hk₃, h₃'⟩ := setColor_spec (k := k) .red h₂''
          have hga₃ : t₃.nodes ga = _ := Holds.node (k := k) h₃'
          have hkeep := (hk₁.trans hk₂).trans hk₃
          have hlist : (fill k (dnode gd (dnode fd (dnode d A .red (n, e) B) .black (p, ep) sib)
              .red (ga, eg) (dnode gd a .black (u, eu) b))).toList =
              (fill (⟨fd, .red, (p, ep), sib⟩ ::
                ⟨gd, .black, (ga, eg), dnode gd a .red (u, eu) b⟩ :: k)
                (dnode d A .red (n, e) B)).toList :=
            toList_fill_congr (by simp [toList_dnode])
          rw [noRedRed_dnode] at hU
          rw [blackHeight_red] at hUh
          have hrr' : (dnode gd (dnode fd (dnode d A .red (n, e) B) .black (p, ep) sib) .red
              (ga, eg) (dnode gd a .black (u, eu) b)).NoRedRed := by
            simpa [hsib, hU.1, hU.2.1] using hrr
          have hbh' : (dnode gd (dnode fd (dnode d A .red (n, e) B) .black (p, ep) sib) .red
              (ga, eg) (dnode gd a .black (u, eu) b)).BlackHeight (m + 1) := by
            simpa [hsh, hUh] using hbh
          cases k with
          | nil =>
            refine ⟨t₃, ?_, hkeep, _, h₃', hlist, balanced_fill.mpr ⟨hrr', trivial, _, hbh', trivial⟩⟩
            simp [SchedTree.balanceInsertLoop, hpn, ctxPtr, hdir, hga, hunc, h₁, h₂, h₃, hga₃]
          | cons g' k' =>
            obtain ⟨t', ht', hr'⟩ := balanceInsertLoop_spec fuel (by simp at hf; omega) h₃' hrr' hbh'
              hck hkh
            refine ⟨t', ?_, Rebalanced.of_keeps hkeep hlist hr'⟩
            simp [SchedTree.balanceInsertLoop, hpn, ctxPtr, hdir, hga, hunc, h₁, h₂, h₃, hga₃, ht']

/-! ## The descent -/

/-- The slot a context's hole is. -/
def linkOf : NCtx E → SchedTree.Link
  | [] => .root
  | f :: _ => .child f.x.1 f.dir

theorem linkOf_cons (f : Frame (Addr × E)) (k : NCtx E) : linkOf (f :: k) = .child f.x.1 f.dir := rfl

theorem ctxPtr_cons (f : Frame (Addr × E)) (k : NCtx E) : ctxPtr (f :: k) = some f.x.1 := rfl

theorem readLink_spec {t : SchedTree E} {k : NCtx E} {S : NTree E} (h : Holds t (fill k S)) :
    t.readLink (linkOf k) = some (ptr S) := by
  cases k with
  | nil => simp only [linkOf, SchedTree.readLink, h.root, fill]
  | cons f k =>
    obtain ⟨hf, -, -⟩ := (holds_fill.mp h).ctx
    simp [linkOf, SchedTree.readLink, hf]

variable {K : Type} [LinearOrder K]

/-- In-order, the keys do not decrease. -/
def Sorted (key : E → K) (T : NTree E) : Prop :=
  T.toList.Pairwise fun x y => key x.2 ≤ key y.2

/-- The hole of `k` is where `rb_insert` puts an entity of key `v`: after every key at most `v` and
before every larger one. -/
def Splits (key : E → K) (v : K) (k : NCtx E) : Prop :=
  (∀ x ∈ before k, key x.2 ≤ v) ∧ ∀ x ∈ after k, v < key x.2

/-- **The descent of `rb_insert`** ends at a hole, and its flag tells whether nothing stands before
that hole. In a sorted tree the hole splits the keys at `v`. -/
theorem insertDescend_spec (key : E → K) (v : K) {t : SchedTree E} :
    ∀ (fuel : Nat) {k : NCtx E} {S : NTree E}, S.height < fuel → Holds t (fill k S) →
      ∃ k', t.insertDescend key v fuel (linkOf k) (ctxPtr k) (before k).isEmpty =
          some (linkOf k', ctxPtr k', (before k').isEmpty) ∧
        fill k' .nil = fill k S ∧ (Sorted key S → Splits key v k → Splits key v k')
  | 0, _, _, hf, _ => absurd hf (Nat.not_lt_zero _)
  | fuel + 1, k, .nil, _, h => by
    refine ⟨k, ?_, rfl, fun _ hsp => hsp⟩
    simp [SchedTree.insertDescend, readLink_spec h]
  | fuel + 1, k, .node l c (a, e) r, hf, h => by
    have ha : t.nodes a = _ := Holds.node (d := .left) h
    simp only [height] at hf
    by_cases hv : v < key e
    · obtain ⟨k', hk', hfill, hsp'⟩ :=
        insertDescend_spec key v fuel (k := ⟨.left, c, (a, e), r⟩ :: k) (S := l) (by omega) h
      refine ⟨k', ?_, hfill, fun hs hsp => ?_⟩
      · rw [← hk']
        simp [SchedTree.insertDescend, readLink_spec h, ptr, ha, hv, before, linkOf_cons, ctxPtr_cons]
      · obtain ⟨hl, hr, -⟩ := List.pairwise_append.mp hs
        obtain ⟨hra, -⟩ := List.pairwise_cons.mp hr
        refine hsp' hl ⟨by simpa [before] using hsp.1, ?_⟩
        simp only [after, List.cons_append, List.mem_cons, List.mem_append]
        rintro x (rfl | hx | hx)
        · exact hv
        · exact lt_of_lt_of_le hv (hra x hx)
        · exact hsp.2 x hx
    · obtain ⟨k', hk', hfill, hsp'⟩ :=
        insertDescend_spec key v fuel (k := ⟨.right, c, (a, e), l⟩ :: k) (S := r) (by omega) h
      refine ⟨k', ?_, hfill, fun hs hsp => ?_⟩
      · have hne : (before (⟨.right, c, (a, e), l⟩ :: k)).isEmpty = false := by simp [before]
        rw [← hk', hne]
        simp [SchedTree.insertDescend, readLink_spec h, ptr, ha, hv, linkOf_cons, ctxPtr_cons]
      · obtain ⟨-, hr, hlr⟩ := List.pairwise_append.mp hs
        refine hsp' (List.pairwise_cons.mp hr).2 ⟨?_, by simpa [after] using hsp.2⟩
        simp only [before, List.mem_append, List.mem_singleton]
        rintro x (hx | hx | rfl)
        · exact hsp.1 x hx
        · exact (hlr x hx (a, e) List.mem_cons_self).trans (not_lt.mp hv)
        · exact not_lt.mp hv

/-! ## Linking the new node -/

/-- `run->parent = parent; *link = run` hangs the new node in the hole. -/
theorem attach_spec {t : SchedTree E} {k : NCtx E} {run : Addr} {se : E} {p : Ptr}
    (h : Holds t (fill k .nil)) (hfresh : run ∉ addrs (fill k .nil))
    (hrun : t.nodes run = some ⟨none, none, p, .red, se⟩) :
    ∃ t' t'', t.modify run (·.setParent (ctxPtr k)) = some t' ∧
      t'.writeLink (some run) (linkOf k) = some t'' ∧ Keeps t t'' ∧
      Holds t'' (fill k (.node .nil .red (run, se) .nil)) := by
  obtain ⟨hroot, hctx, -, hnd⟩ := holds_fill.mp h
  have hfresh : run ∉ ctxAddrs k := fun hm =>
    hfresh ((addrs_fill_perm k .nil).mem_iff.mpr (List.mem_append_left _ hm))
  have hnd' : (ctxAddrs k ++ addrs (.node .nil .red (run, se) .nil)).Nodup := by
    simp only [addrs_nil, List.append_nil] at hnd
    simp only [addrs, toList, List.nil_append, List.map_cons, List.map_nil, List.nodup_append, hnd,
      List.nodup_cons, List.not_mem_nil, not_false_eq_true, List.nodup_nil, List.mem_singleton]
    grind
  have hctx' : CtxRep (Function.update t.nodes run (some ⟨none, none, ctxPtr k, .red, se⟩)) none k :=
    ctxRep_congr hctx fun a ha => Function.update_of_ne (by grind) _ _
  cases k with
  | nil =>
    refine ⟨_, _, SchedTree.modify_eq hrun _, rfl, ⟨rfl, rfl, isSome_update hrun⟩, holds_fill.mpr
      ⟨rfl, trivial, ⟨Function.update_self _ _ _, trivial, trivial⟩, hnd'⟩⟩
  | cons f k =>
    obtain ⟨hf, hs, hk⟩ := hctx'
    simp only [ctxAddrs, List.mem_cons, List.mem_append, not_or] at hfresh
    simp only [ctxAddrs, List.nodup_append, List.nodup_cons, List.mem_append,
      List.cons_append] at hnd
    refine ⟨_, _, SchedTree.modify_eq hrun _, SchedTree.modify_eq hf _,
      ⟨rfl, rfl, fun i => (isSome_update hf i).trans (isSome_update hrun i)⟩, holds_fill.mpr ⟨?_, ⟨?_, ?_, ?_⟩, ⟨?_, trivial, trivial⟩, hnd'⟩⟩
    · rw [hroot]
      exact ptr_fill_cons _ _ _ _
    · rw [mkNode_setChild]
      exact Function.update_self _ _ _
    · exact rep_congr hs fun a ha => Function.update_of_ne (by grind) _ _
    · exact ctxRep_congr hk fun a ha => Function.update_of_ne (by grind) _ _
    · exact (Function.update_of_ne hfresh.1 _ _).trans (Function.update_self _ _ _)

/-- **`rb_insert`**: it neither faults nor loops, and the tree stays balanced. In a sorted tree the
new node stands right after the last entity whose key is at most its own. -/
theorem rbInsert_spec (key : E → K) {t : SchedTree E} {T : NTree E} (se : E) {run : Addr}
    (h : Holds t T) (hb : Balanced T) (hsize : T.size ≤ t.size) (hfresh : t.nodes run = none) :
    ∃ t' T' l r, t.rbInsert key se run = some t' ∧ Holds t' T' ∧ Balanced T' ∧
      t'.size = t.size + 1 ∧ T.toList = l ++ r ∧ T'.toList = l ++ (run, se) :: r ∧
      (Sorted key T → (∀ x ∈ l, key x.2 ≤ key se) ∧ ∀ x ∈ r, key se < key x.2) ∧
      (t'.leftmost = if l.isEmpty then some run else t.leftmost) ∧
      ∀ i, (t'.nodes i).isSome ↔ i = run ∨ (t.nodes i).isSome := by
  have hrun : run ∉ addrs T := by
    intro hm
    obtain ⟨x, hx, rfl⟩ := List.mem_map.mp hm
    obtain ⟨n, hn, -⟩ := rep_mem h.rep hx
    simp [hfresh] at hn
  -- `alloc` has returned `run`; the tree does not see it yet
  let t₀ : SchedTree E := { t with
    nodes := Function.update t.nodes run (some ⟨none, none, none, .red, se⟩), size := t.size + 1 }
  have h₀ : Holds t₀ (fill [] T) :=
    ⟨h.root, rep_congr h.rep fun a ha => Function.update_of_ne (fun e : a = run => hrun (e ▸ ha)) _ _,
      h.nodup⟩
  have hheight : T.height < t₀.size + 1 := by
    have := height_le_size T
    simp only [t₀]
    omega
  obtain ⟨k, hdesc, hfill, hsplit⟩ := insertDescend_spec key (key se) (t₀.size + 1) hheight h₀
  let t₁ : SchedTree E := if (before k).isEmpty then { t₀ with leftmost := some run } else t₀
  have ht₁ : t₁.nodes = t₀.nodes ∧ t₁.size = t.size + 1 ∧
      t₁.leftmost = if (before k).isEmpty then some run else t.leftmost := by
    simp only [t₁]
    split <;> exact ⟨rfl, rfl, rfl⟩
  have h₁ : Holds t₁ (fill k .nil) := by
    rw [hfill]
    refine ⟨?_, by rw [ht₁.1]; exact h₀.rep, h₀.nodup⟩
    rw [← h₀.root]
    simp only [t₁]
    split <;> rfl
  have hrun₁ : t₁.nodes run = some ⟨none, none, none, .red, se⟩ := by
    rw [ht₁.1]
    exact Function.update_self _ _ _
  obtain ⟨t₂, t₃, hm, hw, hk₃, h₃⟩ := attach_spec h₁ (by rw [hfill]; exact hrun) hrun₁
  have hb' : Balanced (fill k .nil) := by rw [hfill]; exact hb
  obtain ⟨-, hcc, m, hm0, hch⟩ := balanced_fill.mp hb'
  obtain rfl : m = 0 := hm0
  have hlist : T.toList = before k ++ after k := by
    have := congrArg toList hfill
    simpa [toList_fill, toList, fill] using this.symm
  -- the rebalancing keeps the in-order sequence
  obtain ⟨t', ht', hk', T', hT', hl', hbal'⟩ : ∃ t', t₃.balanceTreeInsert run (ctxPtr k) = some t' ∧
      Rebalanced t₃ (fill k (.node .nil .red (run, se) .nil)) t' := by
    cases k with
    | nil =>
      obtain ⟨t', ht', hk', h'⟩ := setColor_spec (k := []) (d := .left) .black h₃
      exact ⟨t', ht', hk', _, h', rfl, ⟨by simp [fill], 1, blackHeight_black.mpr ⟨rfl, rfl⟩⟩⟩
    | cons f k =>
      have hlen := length_le_height (f :: k) (.nil : NTree E)
      rw [hfill] at hlen
      have hfuel : k.length < t₃.size + 1 := by
        rw [hk₃.size, ht₁.2.1]
        have := height_le_size T
        simp only [fill, List.length_cons] at hlen
        omega
      exact balanceInsertLoop_spec (d := .left) (t₃.size + 1) hfuel h₃ (by simp)
        (by simp) hcc hch
  refine ⟨t', T', before k, after k, ?_, hT', hbal', ?_, hlist, ?_, fun hs => hsplit hs
    ⟨fun x hx => absurd hx List.not_mem_nil, fun x hx => absurd hx List.not_mem_nil⟩, ?_,
    ?_⟩
  · show (t₀.insertDescend key (key se) (t₀.size + 1) .root none true).bind _ = _
    rw [show t₀.insertDescend key (key se) (t₀.size + 1) .root none true = _ from hdesc]
    show (t₁.modify run _).bind _ = _
    rw [hm]
    show (t₂.writeLink (some run) (linkOf k)).bind _ = _
    rw [hw]
    exact ht'
  · rw [hk'.size, hk₃.size, ht₁.2.1]
  · rw [hl', toList_fill]
    simp [toList]
  · rw [hk'.leftmost, hk₃.leftmost, ht₁.2.2]
  · intro i
    rw [hk'.live, hk₃.live, ht₁.1]
    by_cases hi : i = run
    · simp [t₀, hi]
    · simp [t₀, hi]

end Colibri.Scheduler
