import Colibri.Scheduler.RbTree

/-!
# What the node memory represents

`Holds t T`: the pointers of `t` are the tree `T`, whose payloads pair a node's address with the
entity it points to. Parent pointers are part of it: every child's `parent` is the node it hangs
under and the root's is `NULL`. `HoldsAt t k S` is the same for the tree `fill k S`, cut at the
hole of the context `k`, which is the form the rebalancing loops work in.

The writes of the C code are local: `Rep` and `CtxRep` depend on the nodes they mention only
(`rep_congr`, `ctxRep_congr`). **`rotate_spec`** says what `rotate` does to a represented tree.
-/

namespace Colibri.Scheduler

open Colibri.Lib Colibri.Lib.ColorTree Colibri.Lib.Ctx

variable {E : Type}

/-- A tree whose payloads are node addresses with the entity each node points to. -/
abbrev NTree (E : Type) := ColorTree (Addr × E)

/-- A context over such trees. -/
abbrev NCtx (E : Type) := Ctx (Addr × E)

/-- The pointer to a tree's root. -/
def ptr : NTree E → Ptr
  | .nil => none
  | .node _ _ x _ => some x.1

/-- The pointer to the node the hole hangs under. -/
def ctxPtr : NCtx E → Ptr
  | [] => none
  | f :: _ => some f.x.1

/-- The addresses of a tree's nodes, in in-order. -/
def addrs (T : NTree E) : List Addr := T.toList.map Prod.fst

/-- The addresses of a context's nodes. -/
def ctxAddrs : NCtx E → List Addr
  | [] => []
  | f :: k => f.x.1 :: (addrs f.sib ++ ctxAddrs k)

/-- The node whose child on side `d` is `near`. -/
def mkNode (d : Dir) (near far parent : Ptr) (c : Color) (e : E) : RbNode E :=
  match d with
  | .left => ⟨near, far, parent, c, e⟩
  | .right => ⟨far, near, parent, c, e⟩

/-- The memory holds the tree `T` hanging under `p`. -/
def Rep (nodes : Addr → Option (RbNode E)) : Ptr → NTree E → Prop
  | _, .nil => True
  | p, .node l c x r => nodes x.1 = some ⟨ptr l, ptr r, p, c, x.2⟩ ∧
      Rep nodes (some x.1) l ∧ Rep nodes (some x.1) r

/-- The memory holds the context `k` around a hole whose content is at `h`. -/
def CtxRep (nodes : Addr → Option (RbNode E)) : Ptr → NCtx E → Prop
  | _, [] => True
  | h, f :: k => nodes f.x.1 = some (mkNode f.dir h (ptr f.sib) (ctxPtr k) f.color f.x.2) ∧
      Rep nodes (some f.x.1) f.sib ∧ CtxRep nodes (some f.x.1) k

/-- **The tree in memory is `T`.** -/
structure Holds (t : SchedTree E) (T : NTree E) : Prop where
  root : t.root = ptr T
  rep : Rep t.nodes none T
  nodup : (addrs T).Nodup

/-- `Holds t (fill k S)`, cut at the hole of `k`. -/
structure HoldsAt (t : SchedTree E) (k : NCtx E) (S : NTree E) : Prop where
  root : t.root = ptr (fill k S)
  ctx : CtxRep t.nodes (ptr S) k
  rep : Rep t.nodes (ctxPtr k) S
  nodup : (ctxAddrs k ++ addrs S).Nodup

/-! ## Nodes along a direction -/

@[simp] theorem mkNode_child (d : Dir) (a b p : Ptr) (c : Color) (e : E) :
    (mkNode d a b p c e).child d = a := by cases d <;> rfl

@[simp] theorem mkNode_child_flip (d : Dir) (a b p : Ptr) (c : Color) (e : E) :
    (mkNode d a b p c e).child d.flip = b := by cases d <;> rfl

@[simp] theorem mkNode_parent (d : Dir) (a b p : Ptr) (c : Color) (e : E) :
    (mkNode d a b p c e).parent = p := by cases d <;> rfl

@[simp] theorem mkNode_color (d : Dir) (a b p : Ptr) (c : Color) (e : E) :
    (mkNode d a b p c e).color = c := by cases d <;> rfl

@[simp] theorem mkNode_se (d : Dir) (a b p : Ptr) (c : Color) (e : E) :
    (mkNode d a b p c e).se = e := by cases d <;> rfl

@[simp] theorem mkNode_setChild (d : Dir) (a b p q : Ptr) (c : Color) (e : E) :
    (mkNode d a b p c e).setChild d q = mkNode d q b p c e := by cases d <;> rfl

@[simp] theorem mkNode_setChild_flip (d : Dir) (a b p q : Ptr) (c : Color) (e : E) :
    (mkNode d a b p c e).setChild d.flip q = mkNode d a q p c e := by cases d <;> rfl

@[simp] theorem mkNode_setParent (d : Dir) (a b p q : Ptr) (c : Color) (e : E) :
    (mkNode d a b p c e).setParent q = mkNode d a b q c e := by cases d <;> rfl

@[simp] theorem mkNode_setColor (d : Dir) (a b p : Ptr) (c c' : Color) (e : E) :
    (mkNode d a b p c e).setColor c' = mkNode d a b p c' e := by cases d <;> rfl

@[simp] theorem mkNode_setSe (d : Dir) (a b p : Ptr) (c : Color) (e e' : E) :
    (mkNode d a b p c e).setSe e' = mkNode d a b p c e' := by cases d <;> rfl

@[simp] theorem ptr_nil : ptr (.nil : NTree E) = none := rfl

@[simp] theorem ptr_dnode (d : Dir) (a : NTree E) (c : Color) (x : Addr × E) (b : NTree E) :
    ptr (dnode d a c x b) = some x.1 := by cases d <;> rfl

theorem ptr_eq_none {T : NTree E} : ptr T = none ↔ T = .nil := by
  cases T <;> simp [ptr]

@[simp] theorem rep_nil (nodes : Addr → Option (RbNode E)) (p : Ptr) : Rep nodes p .nil := trivial

theorem rep_dnode {nodes : Addr → Option (RbNode E)} {p : Ptr} {d : Dir} {a : NTree E} {c : Color}
    {x : Addr × E} {b : NTree E} :
    Rep nodes p (dnode d a c x b) ↔ nodes x.1 = some (mkNode d (ptr a) (ptr b) p c x.2) ∧
      Rep nodes (some x.1) a ∧ Rep nodes (some x.1) b := by
  cases d with
  | left => exact Iff.rfl
  | right =>
    simp only [dnode, Rep, mkNode]
    exact and_congr_right fun _ => and_comm

/-! ## Addresses -/

@[simp] theorem addrs_nil : addrs (.nil : NTree E) = [] := rfl

theorem addrs_dnode_perm (d : Dir) (a : NTree E) (c : Color) (x : Addr × E) (b : NTree E) :
    (addrs (dnode d a c x b)).Perm (x.1 :: (addrs a ++ addrs b)) := by
  cases d with
  | left =>
    simp only [addrs, dnode, toList, List.map_append, List.map_cons]
    exact List.perm_middle
  | right =>
    simp only [addrs, dnode, toList, List.map_append, List.map_cons]
    exact List.perm_middle.trans (List.perm_append_comm.cons _)

@[simp] theorem mem_addrs_dnode {d : Dir} {a : NTree E} {c : Color} {x : Addr × E} {b : NTree E}
    {i : Addr} : i ∈ addrs (dnode d a c x b) ↔ i = x.1 ∨ i ∈ addrs a ∨ i ∈ addrs b := by
  rw [(addrs_dnode_perm d a c x b).mem_iff]
  simp

@[simp] theorem nodup_addrs_dnode {d : Dir} {a : NTree E} {c : Color} {x : Addr × E}
    {b : NTree E} : (addrs (dnode d a c x b)).Nodup ↔
      (x.1 ∉ addrs a ∧ x.1 ∉ addrs b) ∧ (addrs a).Nodup ∧ (addrs b).Nodup ∧
        ∀ i ∈ addrs a, ∀ j ∈ addrs b, i ≠ j := by
  rw [(addrs_dnode_perm d a c x b).nodup_iff, List.nodup_cons, List.nodup_append, List.mem_append,
    not_or]

theorem addrs_fill_perm (k : NCtx E) (S : NTree E) :
    (addrs (fill k S)).Perm (ctxAddrs k ++ addrs S) := by
  induction k generalizing S with
  | nil => exact List.Perm.refl _
  | cons f k ih =>
    refine (ih _).trans ?_
    refine ((addrs_dnode_perm f.dir S f.color f.x f.sib).append_left _).trans ?_
    simp only [ctxAddrs, List.cons_append, List.append_assoc]
    refine List.perm_middle.trans (List.Perm.cons _ ?_)
    rw [List.perm_iff_count]
    intro a
    simp only [List.count_append]
    omega

theorem ptr_mem {T : NTree E} {a : Addr} (h : ptr T = some a) : a ∈ addrs T := by
  cases T with
  | nil => simp at h
  | node l c x r =>
    simp only [ptr, Option.some.injEq] at h
    subst h
    simp [addrs, toList]

theorem ctxPtr_mem {k : NCtx E} {a : Addr} (h : ctxPtr k = some a) : a ∈ ctxAddrs k := by
  cases k with
  | nil => simp [ctxPtr] at h
  | cons f k =>
    simp only [ctxPtr, Option.some.injEq] at h
    simp [ctxAddrs, h]

/-! ## Locality -/

theorem rep_congr {nodes nodes' : Addr → Option (RbNode E)} {p : Ptr} {T : NTree E}
    (h : Rep nodes p T) (hag : ∀ a ∈ addrs T, nodes' a = nodes a) : Rep nodes' p T := by
  induction T generalizing p with
  | nil => trivial
  | node l c x r ihl ihr =>
    obtain ⟨hx, hl, hr⟩ := h
    refine ⟨?_, ihl hl fun a ha => hag a ?_, ihr hr fun a ha => hag a ?_⟩
    · rw [hag x.1 (by simp [addrs, toList]), hx]
    · simp only [addrs, toList, List.map_append, List.mem_append] at ha ⊢
      exact Or.inl ha
    · simp only [addrs, toList, List.map_append, List.map_cons, List.mem_append,
        List.mem_cons] at ha ⊢
      exact Or.inr (Or.inr ha)

/-- Every payload of a represented tree is a live node. -/
theorem rep_mem {nodes : Addr → Option (RbNode E)} {p : Ptr} {T : NTree E} (h : Rep nodes p T)
    {x : Addr × E} (hx : x ∈ T.toList) : ∃ n, nodes x.1 = some n ∧ n.se = x.2 := by
  induction T generalizing p with
  | nil => simp [toList] at hx
  | node l c y r ihl ihr =>
    obtain ⟨hy, hl, hr⟩ := h
    simp only [toList, List.mem_append, List.mem_cons] at hx
    rcases hx with hx | rfl | hx
    · exact ihl hl hx
    · exact ⟨_, hy, rfl⟩
    · exact ihr hr hx

theorem rep_unique {nodes : Addr → Option (RbNode E)} {p : Ptr} {T T' : NTree E}
    (h : Rep nodes p T) (h' : Rep nodes p T') (hp : ptr T = ptr T') : T = T' := by
  induction T generalizing p T' with
  | nil => exact (ptr_eq_none.mp hp.symm).symm
  | node l c x r ihl ihr =>
    cases T' with
    | nil => simp [ptr] at hp
    | node l' c' x' r' =>
      obtain ⟨hx, hl, hr⟩ := h
      obtain ⟨hx', hl', hr'⟩ := h'
      have ha : x.1 = x'.1 := by simpa [ptr] using hp
      rw [← ha] at hl' hr' hx'
      rw [hx] at hx'
      simp only [Option.some.injEq, RbNode.mk.injEq, true_and] at hx'
      obtain ⟨hpl, hpr, hc, he⟩ := hx'
      rw [ihl hl hl' hpl, ihr hr hr' hpr, hc, Prod.ext ha he]

theorem ctxRep_congr {nodes nodes' : Addr → Option (RbNode E)} {h : Ptr} {k : NCtx E}
    (hk : CtxRep nodes h k) (hag : ∀ a ∈ ctxAddrs k, nodes' a = nodes a) : CtxRep nodes' h k := by
  induction k generalizing h with
  | nil => trivial
  | cons f k ih =>
    obtain ⟨hf, hs, hk⟩ := hk
    simp only [ctxAddrs, List.mem_cons, List.mem_append] at hag
    refine ⟨?_, rep_congr hs fun a ha => hag a (Or.inr (Or.inl ha)),
      ih hk fun a ha => hag a (Or.inr (Or.inr ha))⟩
    rw [hag _ (Or.inl rfl), hf]

theorem rep_fill {nodes : Addr → Option (RbNode E)} {k : NCtx E} {S : NTree E} :
    Rep nodes none (fill k S) ↔ CtxRep nodes (ptr S) k ∧ Rep nodes (ctxPtr k) S := by
  induction k generalizing S with
  | nil => simp [fill, CtxRep, ctxPtr]
  | cons f k ih =>
    rw [fill, ih, rep_dnode, ptr_dnode]
    simp only [CtxRep, ctxPtr]
    tauto

theorem holds_fill {t : SchedTree E} {k : NCtx E} {S : NTree E} :
    Holds t (fill k S) ↔ HoldsAt t k S := by
  constructor
  · rintro ⟨h1, h2, h3⟩
    obtain ⟨h4, h5⟩ := rep_fill.mp h2
    exact ⟨h1, h4, h5, (addrs_fill_perm k S).nodup_iff.mp h3⟩
  · rintro ⟨h1, h2, h3, h4⟩
    exact ⟨h1, rep_fill.mpr ⟨h2, h3⟩, (addrs_fill_perm k S).nodup_iff.mpr h4⟩

/-- What a tree's memory holds is determined. -/
theorem holds_unique {t : SchedTree E} {T T' : NTree E} (h : Holds t T) (h' : Holds t T') : T = T' :=
  rep_unique h.rep h'.rep (h.root.symm.trans h'.root)

/-- The root pointer does not see what fills a context, except its address when there is no
frame. -/
theorem ptr_fill_congr {k : NCtx E} {S S' : NTree E} (h : ptr S = ptr S') :
    ptr (fill k S) = ptr (fill k S') := by
  induction k generalizing S S' with
  | nil => exact h
  | cons f k ih => exact ih (by simp)

theorem ptr_fill_cons (f : Frame (Addr × E)) (k : NCtx E) (S S' : NTree E) :
    ptr (fill (f :: k) S) = ptr (fill (f :: k) S') :=
  ptr_fill_congr (k := k) (by simp)

/-! ## The writes of the C code -/

theorem SchedTree.modify_eq {t : SchedTree E} {a : Addr} {n : RbNode E} (h : t.nodes a = some n)
    (f : RbNode E → RbNode E) :
    t.modify a f = some { t with nodes := Function.update t.nodes a (some (f n)) } := by
  simp [SchedTree.modify, h]

theorem SchedTree.dirOf_eq {t : SchedTree E} {n : Addr} {nd : RbNode E} {f : Frame (Addr × E)}
    {q : Ptr} (hn : t.nodes n = some nd) (hp : nd.parent = some f.x.1)
    (hf : t.nodes f.x.1 = some (mkNode f.dir (some n) (ptr f.sib) q f.color f.x.2))
    (hs : n ∉ addrs f.sib) : t.dirOf n = some f.dir := by
  have hsib : ptr f.sib ≠ some n := fun h => hs (ptr_mem h)
  simp only [SchedTree.dirOf, hn, hp, hf, Option.bind_eq_bind, Option.bind_some]
  cases hd : f.dir <;> simp [mkNode, hsib]


/-- Hanging a tree under another node writes its root's `parent` and nothing else (`m₀` is any
node, for the empty tree). -/
theorem rep_reparent {nodes : Addr → Option (RbNode E)} {p : Ptr} {T : NTree E}
    (h : Rep nodes p T) (hnd : (addrs T).Nodup) (m₀ : RbNode E) :
    ∃ m, (∀ i, ptr T = some i → nodes i = some m) ∧ ∀ nodes' q,
      (∀ i, ptr T = some i → nodes' i = some (m.setParent q)) →
      (∀ i ∈ addrs T, ptr T ≠ some i → nodes' i = nodes i) → Rep nodes' q T := by
  cases T with
  | nil => exact ⟨m₀, by simp, fun _ _ _ _ => trivial⟩
  | node l c x r =>
    obtain ⟨hx, hl, hr⟩ := h
    have hnd' : (addrs (dnode .left l c x r)).Nodup := hnd
    rw [nodup_addrs_dnode] at hnd'
    have hmem : ∀ i, i ∈ addrs (.node l c x r) ↔ i = x.1 ∨ i ∈ addrs l ∨ i ∈ addrs r :=
      fun i => mem_addrs_dnode (d := .left)
    refine ⟨⟨ptr l, ptr r, p, c, x.2⟩, fun i hi => ?_,
      fun nodes' q hroot hrest => ⟨hroot _ rfl, ?_, ?_⟩⟩
    · simp only [ptr, Option.some.injEq] at hi
      rw [← hi, hx]
    · refine rep_congr hl fun a ha => hrest a (by grind) ?_
      simp only [ptr, ne_eq, Option.some.injEq]
      grind
    · refine rep_congr hr fun a ha => hrest a (by grind) ?_
      simp only [ptr, ne_eq, Option.some.injEq]
      grind

/-- Putting another tree into a context's hole writes one child pointer of the node above it. -/
theorem ctxRep_repoint {nodes : Addr → Option (RbNode E)} {n : Addr} {k : NCtx E}
    (h : CtxRep nodes (some n) k) (hnd : (ctxAddrs k).Nodup) (hn : n ∉ ctxAddrs k) (e₀ : E) :
    ∃ d s q c e,
      (∀ i, ctxPtr k = some i → nodes i = some (mkNode d (some n) s q c e) ∧ s ≠ some n) ∧
      ∀ nodes' r, (∀ i, ctxPtr k = some i → nodes' i = some (mkNode d r s q c e)) →
        (∀ i ∈ ctxAddrs k, ctxPtr k ≠ some i → nodes' i = nodes i) → CtxRep nodes' r k := by
  cases k with
  | nil => exact ⟨.left, none, none, .red, e₀, by simp [ctxPtr], fun _ _ _ _ => trivial⟩
  | cons f k =>
    obtain ⟨hf, hs, hk⟩ := h
    simp only [ctxAddrs, List.nodup_cons, List.mem_cons, List.mem_append, not_or,
      List.nodup_append] at hnd hn
    refine ⟨f.dir, ptr f.sib, ctxPtr k, f.color, f.x.2, fun i hi => ⟨?_, ?_⟩,
      fun nodes' r hhead hrest => ⟨hhead _ rfl, ?_, ?_⟩⟩
    · simp only [ctxPtr, Option.some.injEq] at hi
      rw [← hi, hf]
    · exact fun hs => hn.2.1 (ptr_mem hs)
    · refine rep_congr hs fun a ha => hrest a (by simp [ctxAddrs, ha]) ?_
      simp only [ctxPtr, ne_eq, Option.some.injEq]
      grind
    · refine ctxRep_congr hk fun a ha => hrest a (by simp [ctxAddrs, ha]) ?_
      simp only [ctxPtr, ne_eq, Option.some.injEq]
      grind

/-- `t'` is `t` with the node `x` at `p`, if `p` is a node. -/
structure SchedTree.Writes (t t' : SchedTree E) (p : Ptr) (x : RbNode E) : Prop where
  leftmost : t'.leftmost = t.leftmost
  size : t'.size = t.size
  node : ∀ i, p = some i → t'.nodes i = some x
  rest : ∀ i, p ≠ some i → t'.nodes i = t.nodes i

theorem SchedTree.modify_writes {t : SchedTree E} {a : Addr} {x y : RbNode E}
    (f : RbNode E → RbNode E) (h : t.nodes a = some x) (hf : f x = y) :
    ∃ t', t.modify a f = some t' ∧ t'.root = t.root ∧ t.Writes t' (some a) y := by
  refine ⟨_, modify_eq h f, rfl, rfl, rfl, fun i hi => ?_, fun i hi => ?_⟩
  · rw [← Option.some.inj hi, hf]
    exact Function.update_self _ _ _
  · exact Function.update_of_ne (fun e => hi (congrArg some e.symm)) _ _

/-- The child that changes sides gets its new parent, if there is one; `f` is the rest. -/
theorem SchedTree.reparent_writes {t : SchedTree E} {b : Ptr} {m : RbNode E} (q : Ptr) :
    (∀ i, b = some i → t.nodes i = some m) →
    ∃ t', (∀ f : SchedTree E → Option (SchedTree E), (match b with
        | some c => (t.modify c (·.setParent q)).bind f
        | none => f t) = f t') ∧
      t'.root = t.root ∧ t.Writes t' b (m.setParent q) := by
  -- `hb` is not a binder: the `match` on `b` would take it in
  intro hb
  cases b with
  | none => exact ⟨t, fun _ => rfl, rfl, rfl, rfl, fun _ hi => (nomatch hi), fun _ _ => rfl⟩
  | some j =>
    obtain ⟨t', ht', hroot, hw⟩ := modify_writes (·.setParent q) (hb j rfl) rfl
    exact ⟨t', fun f => congrArg (Option.bind · f) ht', hroot, hw⟩

/-- The link to `n`, in the node above or in the tree, becomes one to `r`; `f` is the rest. -/
theorem SchedTree.repoint_writes {t : SchedTree E} {n r : Addr} {p : Ptr} {nd : RbNode E} {d : Dir}
    {s q : Ptr} {c : Color} {e : E} (hn : t.nodes n = some nd) : nd.parent = p →
    (∀ i, p = some i → t.nodes i = some (mkNode d (some n) s q c e) ∧ s ≠ some n) →
    ∃ t', (∀ f : SchedTree E → Option (SchedTree E), (match p with
        | some p => (t.dirOf n).bind fun d => (t.modify p (·.setChild d (some r))).bind f
        | none => f { t with root := some r }) = f t') ∧
      t'.root = (if p = none then some r else t.root) ∧
      t.Writes t' p (mkNode d (some r) s q c e) := by
  intro hnp hp
  cases p with
  | none => exact ⟨_, fun _ => rfl, rfl, rfl, rfl, fun _ hi => (nomatch hi), fun _ _ => rfl⟩
  | some j =>
    obtain ⟨hj, hs⟩ := hp j rfl
    have hdir : t.dirOf n = some d := by
      simp only [dirOf, hn, hnp, hj, Option.bind_eq_bind, Option.bind_some]
      cases d <;> simp [mkNode, hs]
    obtain ⟨t', ht', hroot, hw⟩ :=
      modify_writes (·.setChild d (some r)) hj (mkNode_setChild d (some n) s q (some r) c e)
    refine ⟨t', fun f => ?_, hroot, hw⟩
    simp only [hdir, Option.bind_some, ht']

/-- `rotate` node by node. `m` is the node that changes parent, and `mkNode d (some n) s q c' e'`
the node above `n`, where there are such nodes. -/
theorem SchedTree.rotate_eval {t : SchedTree E} {dir : Dir} {n r : Addr} {a b c p : Ptr}
    {cn cr : Color} {en er : E} (m : RbNode E) (d : Dir) (s q : Ptr) (c' : Color) (e' : E)
    (hn : t.nodes n = some (mkNode dir a (some r) p cn en))
    (hr : t.nodes r = some (mkNode dir b c (some n) cr er)) (hnr : n ≠ r)
    (hb : ∀ i, b = some i → i ≠ n ∧ i ≠ r ∧ p ≠ some i ∧ t.nodes i = some m)
    (hp : ∀ i, p = some i →
      i ≠ n ∧ i ≠ r ∧ t.nodes i = some (mkNode d (some n) s q c' e') ∧ s ≠ some n) :
    ∃ t', t.rotate n dir = some t' ∧ t'.leftmost = t.leftmost ∧ t'.size = t.size ∧
      t'.root = (if p = none then some r else t.root) ∧
      t'.nodes n = some (mkNode dir a b (some r) cn en) ∧
      t'.nodes r = some (mkNode dir (some n) c p cr er) ∧
      (∀ i, b = some i → t'.nodes i = some (m.setParent (some n))) ∧
      (∀ i, p = some i → t'.nodes i = some (mkNode d (some r) s q c' e')) ∧
      ∀ i, i ≠ n → i ≠ r → b ≠ some i → p ≠ some i → t'.nodes i = t.nodes i := by
  have hne : ∀ {i j : Addr}, i ≠ j → some i ≠ some j := fun h e => h (Option.some.inj e)
  have hbn : b ≠ some n := fun e => (hb n e).1 rfl
  have hbr : b ≠ some r := fun e => (hb r e).2.1 rfl
  have hpn : p ≠ some n := fun e => (hp n e).1 rfl
  have hpr : p ≠ some r := fun e => (hp r e).2.1 rfl
  -- the writes of the source, one after the other
  obtain ⟨t₁, h₁, hroot₁, w₁⟩ := modify_writes (·.setChild dir.flip b) hn
    (mkNode_setChild_flip dir a (some r) p b cn en)
  obtain ⟨t₂, h₂, hroot₂, w₂⟩ := reparent_writes (t := t₁) (m := m) (some n)
    fun i hi => (w₁.rest i (hne (hb i hi).1.symm)).trans (hb i hi).2.2.2
  have hr₂ : t₂.nodes r = some (mkNode dir b c (some n) cr er) := by
    rw [w₂.rest r hbr, w₁.rest r (hne hnr), hr]
  obtain ⟨t₃, h₃, hroot₃, w₃⟩ := modify_writes (·.setParent p) hr₂
    (mkNode_setParent dir b c (some n) p cr er)
  have hn₃ : t₃.nodes n = some (mkNode dir a b p cn en) := by
    rw [w₃.rest n (hne hnr.symm), w₂.rest n hbn, w₁.node n rfl]
  obtain ⟨t₄, h₄, hroot₄, w₄⟩ := repoint_writes (r := r) hn₃ (mkNode_parent dir a b p cn en)
    fun i hi => by
      obtain ⟨hin, hir, hi', hs⟩ := hp i hi
      have hbi : b ≠ some i := fun e => (hb i e).2.2.1 hi
      rw [w₃.rest i (hne hir.symm), w₂.rest i hbi, w₁.rest i (hne hin.symm)]
      exact ⟨hi', hs⟩
  have hn₄ : t₄.nodes n = some (mkNode dir a b p cn en) := by rw [w₄.rest n hpn, hn₃]
  obtain ⟨t₅, h₅, hroot₅, w₅⟩ := modify_writes (·.setParent (some r)) hn₄
    (mkNode_setParent dir a b p (some r) cn en)
  have hr₅ : t₅.nodes r = some (mkNode dir b c p cr er) := by
    rw [w₅.rest r (hne hnr), w₄.rest r hpr, w₃.node r rfl]
  obtain ⟨t₆, h₆, hroot₆, w₆⟩ := modify_writes (·.setChild dir (some n)) hr₅
    (mkNode_setChild dir b c p (some n) cr er)
  have heval : t.rotate n dir = some t₆ := by
    simp only [rotate, hn, hr, mkNode_parent, mkNode_child, mkNode_child_flip, Option.bind_eq_bind,
      Option.bind_some, h₁]
    refine (h₂ _).trans ?_
    rw [h₃, Option.bind_some]
    refine (h₄ _).trans ?_
    rw [h₅, Option.bind_some, h₆]
  refine ⟨t₆, heval, ?_, ?_, ?_, ?_, w₆.node r rfl, fun i hi => ?_, fun i hi => ?_,
    fun i hin hir hib hip => ?_⟩
  · rw [w₆.leftmost, w₅.leftmost, w₄.leftmost, w₃.leftmost, w₂.leftmost, w₁.leftmost]
  · rw [w₆.size, w₅.size, w₄.size, w₃.size, w₂.size, w₁.size]
  · rw [hroot₆, hroot₅, hroot₄, hroot₃, hroot₂, hroot₁]
  · rw [w₆.rest n (hne hnr.symm), w₅.node n rfl]
  · obtain ⟨hin, hir, hip, -⟩ := hb i hi
    rw [w₆.rest i (hne hir.symm), w₅.rest i (hne hin.symm), w₄.rest i hip, w₃.rest i (hne hir.symm),
      w₂.node i hi]
  · obtain ⟨hin, hir, -⟩ := hp i hi
    rw [w₆.rest i (hne hir.symm), w₅.rest i (hne hin.symm), w₄.node i hi]
  · rw [w₆.rest i (hne (Ne.symm hir)), w₅.rest i (hne (Ne.symm hin)), w₄.rest i hip,
      w₃.rest i (hne (Ne.symm hir)), w₂.rest i hib, w₁.rest i (hne (Ne.symm hin))]

/-- `t'` has the cached `leftmost`, the node count and the live nodes of `t`. -/
structure Keeps (t t' : SchedTree E) : Prop where
  leftmost : t'.leftmost = t.leftmost
  size : t'.size = t.size
  live : ∀ i, (t'.nodes i).isSome = (t.nodes i).isSome

theorem Keeps.refl (t : SchedTree E) : Keeps t t := ⟨rfl, rfl, fun _ => rfl⟩

theorem Keeps.trans {t t' t'' : SchedTree E} (h : Keeps t t') (h' : Keeps t' t'') : Keeps t t'' :=
  ⟨h'.leftmost.trans h.leftmost, h'.size.trans h.size, fun i => (h'.live i).trans (h.live i)⟩

theorem isSome_update {nodes : Addr → Option (RbNode E)} {a : Addr} {n n' : RbNode E}
    (h : nodes a = some n) (i : Addr) :
    (Function.update nodes a (some n') i).isSome = (nodes i).isSome := by
  by_cases hi : i = a
  · subst hi
    simp [h]
  · rw [Function.update_of_ne hi]

/-- **`rotate` rotates**: the tree at `n` turns over to side `dir`, in any context. -/
theorem rotate_spec {t : SchedTree E} {k : NCtx E} {dir : Dir} {A B C : NTree E} {cn cr : Color}
    {n r : Addr} {en er : E}
    (h : Holds t (fill k (dnode dir A cn (n, en) (dnode dir B cr (r, er) C)))) :
    ∃ t', t.rotate n dir = some t' ∧ Keeps t t' ∧
      Holds t' (fill k (dnode dir (dnode dir A cn (n, en) B) cr (r, er) C)) := by
  obtain ⟨hroot, hctx, hrep, hnd⟩ := holds_fill.mp h
  obtain ⟨hn, hA, hR⟩ := rep_dnode.mp hrep
  obtain ⟨hr, hB, hC⟩ := rep_dnode.mp hR
  simp only [ptr_dnode] at hn hr hctx
  have hnd' : (ctxAddrs k ++ addrs (dnode dir (dnode dir A cn (n, en) B) cr (r, er) C)).Nodup := by
    simp only [List.nodup_append, nodup_addrs_dnode, mem_addrs_dnode] at hnd ⊢
    grind
  simp only [List.nodup_append, nodup_addrs_dnode, mem_addrs_dnode] at hnd
  -- what `rotate_eval` needs to know of the node that changes parent and of the node above
  obtain ⟨m, hm, hBm⟩ := rep_reparent hB (by grind) (mkNode dir none none none cn en)
  obtain ⟨d, s, q, c', e', hf, hk⟩ := ctxRep_repoint hctx hnd.1 (by grind) en
  obtain ⟨t', ht', hl, hs, hroot', hn', hr', hb', hp', hother⟩ :=
    SchedTree.rotate_eval m d s q c' e' hn hr (by grind)
      (fun i hi => ⟨by grind [→ ptr_mem], by grind [→ ptr_mem],
        by grind [→ ptr_mem, → ctxPtr_mem], hm i hi⟩)
      (fun i hi => ⟨by grind [→ ctxPtr_mem], by grind [→ ctxPtr_mem], hf i hi⟩)
  have hlive : ∀ i, (t'.nodes i).isSome = (t.nodes i).isSome := by
    intro i
    by_cases hin : i = n
    · rw [hin, hn', hn]
      rfl
    by_cases hir : i = r
    · rw [hir, hr', hr]
      rfl
    by_cases hib : ptr B = some i
    · rw [hb' i hib, hm i hib]
      rfl
    by_cases hip : ctxPtr k = some i
    · rw [hp' i hip, (hf i hip).1]
      rfl
    rw [hother i hin hir hib hip]
  refine ⟨t', ht', ⟨hl, hs, hlive⟩, holds_fill.mpr ⟨?_, ?_, ?_, hnd'⟩⟩
  · cases k with
    | nil => simpa [fill, ctxPtr] using hroot'
    | cons f k =>
      rw [hroot', hroot]
      simp only [ctxPtr, reduceCtorEq, if_false]
      exact ptr_fill_cons _ _ _ _
  · rw [ptr_dnode]
    refine hk _ _ hp' fun i hi hne => hother i ?_ ?_ ?_ hne <;> grind [→ ptr_mem]
  · refine rep_dnode.mpr ⟨by rw [hr', ptr_dnode], rep_dnode.mpr ⟨hn', ?_, ?_⟩, ?_⟩
    · refine rep_congr hA fun i hi => hother i ?_ ?_ ?_ ?_ <;> grind [→ ptr_mem, → ctxPtr_mem]
    · refine hBm _ _ hb' fun i hi hne => hother i ?_ ?_ hne ?_ <;> grind [→ ctxPtr_mem]
    · refine rep_congr hC fun i hi => hother i ?_ ?_ ?_ ?_ <;> grind [→ ptr_mem, → ctxPtr_mem]

/-- Reading the node in the hole. -/
theorem Holds.node {t : SchedTree E} {k : NCtx E} {d : Dir} {A B : NTree E} {c : Color} {n : Addr}
    {e : E} (h : Holds t (fill k (dnode d A c (n, e) B))) :
    t.nodes n = some (mkNode d (ptr A) (ptr B) (ctxPtr k) c e) :=
  (rep_dnode.mp (holds_fill.mp h).rep).1

/-- Writing a node's colour or entity. -/
theorem modify_spec {t : SchedTree E} {k : NCtx E} {d : Dir} {A B : NTree E} {c c' : Color}
    {n : Addr} {e e' : E} {f : RbNode E → RbNode E}
    (h : Holds t (fill k (dnode d A c (n, e) B)))
    (hf : ∀ p, f (mkNode d (ptr A) (ptr B) p c e) = mkNode d (ptr A) (ptr B) p c' e') :
    ∃ t', t.modify n f = some t' ∧ Keeps t t' ∧ Holds t' (fill k (dnode d A c' (n, e') B)) := by
  obtain ⟨hroot, hctx, hrep, hnd⟩ := holds_fill.mp h
  obtain ⟨hn, hA, hB⟩ := rep_dnode.mp hrep
  have hnd' : (ctxAddrs k ++ addrs (dnode d A c' (n, e') B)).Nodup := by
    simp only [List.nodup_append, nodup_addrs_dnode, mem_addrs_dnode] at hnd ⊢
    exact hnd
  simp only [List.nodup_append, nodup_addrs_dnode, mem_addrs_dnode] at hnd
  refine ⟨_, SchedTree.modify_eq hn f, ⟨rfl, rfl, isSome_update hn⟩, holds_fill.mpr ⟨?_, ?_, ?_, hnd'⟩⟩
  · rw [hroot]
    exact ptr_fill_congr (by simp)
  · simp only [ptr_dnode] at hctx ⊢
    exact ctxRep_congr hctx fun a ha => Function.update_of_ne (by grind) _ _
  · rw [hf]
    refine rep_dnode.mpr ⟨Function.update_self _ _ _, rep_congr hA fun a ha => ?_,
      rep_congr hB fun a ha => ?_⟩ <;> exact Function.update_of_ne (by grind) _ _

theorem setColor_spec {t : SchedTree E} {k : NCtx E} {d : Dir} {A B : NTree E} {c : Color}
    {n : Addr} {e : E} (c' : Color) (h : Holds t (fill k (dnode d A c (n, e) B))) :
    ∃ t', t.modify n (·.setColor c') = some t' ∧ Keeps t t' ∧
      Holds t' (fill k (dnode d A c' (n, e) B)) :=
  modify_spec h (by simp)

theorem setSe_spec {t : SchedTree E} {k : NCtx E} {d : Dir} {A B : NTree E} {c : Color}
    {n : Addr} {e : E} (e' : E) (h : Holds t (fill k (dnode d A c (n, e) B))) :
    ∃ t', t.modify n (·.setSe e') = some t' ∧ Keeps t t' ∧
      Holds t' (fill k (dnode d A c (n, e') B)) :=
  modify_spec h (by simp)

/-- `DIR` of the node in the hole is the side the hole is on. -/
theorem dirOf_spec {t : SchedTree E} {f : Frame (Addr × E)} {k : NCtx E} {d : Dir} {A B : NTree E}
    {c : Color} {n : Addr} {e : E} (h : Holds t (fill (f :: k) (dnode d A c (n, e) B))) :
    t.dirOf n = some f.dir := by
  obtain ⟨hroot, hctx, hrep, hnd⟩ := holds_fill.mp h
  have hn := h.node
  obtain ⟨hf, -, -⟩ := hctx
  rw [ptr_dnode] at hf
  simp only [ctxAddrs, List.nodup_append, mem_addrs_dnode, List.mem_cons, List.mem_append] at hnd
  exact SchedTree.dirOf_eq hn (by simp [ctxPtr]) hf (by grind)

theorem isBlack_spec {t : SchedTree E} {p : Ptr} {T : NTree E} (h : Rep t.nodes p T) :
    t.isBlack (ptr T) = some (decide (T.color = .black)) := by
  cases T with
  | nil => simp [SchedTree.isBlack, ColorTree.color]
  | node l c x r =>
    show (t.nodes x.1).map _ = _
    rw [h.1]
    rfl

/-- A subtree beside the hole is represented too. -/
theorem Holds.far {t : SchedTree E} {k : NCtx E} {d : Dir} {A B : NTree E} {c : Color} {n : Addr}
    {e : E} (h : Holds t (fill k (dnode d A c (n, e) B))) : Rep t.nodes (some n) B :=
  (rep_dnode.mp (holds_fill.mp h).rep).2.2

theorem Holds.near {t : SchedTree E} {k : NCtx E} {d : Dir} {A B : NTree E} {c : Color} {n : Addr}
    {e : E} (h : Holds t (fill k (dnode d A c (n, e) B))) : Rep t.nodes (some n) A :=
  (rep_dnode.mp (holds_fill.mp h).rep).2.1

end Colibri.Scheduler
