import Mathlib.Data.Nat.Log
import Mathlib.Data.List.Perm.Basic
import Mathlib.Tactic.Ring

/-!
# Red-black trees and their contexts

Coloured binary trees over an arbitrary payload, and the one-hole contexts a bottom-up algorithm
climbs. Everything is stated along a direction `d` (`dnode`), so a mirrored pair of cases is one
case.

* `BlackHeight t n`: every path from the root of `t` to a missing child crosses `n` black nodes.
* `NoRedRed t`: no red node has a red child. The root itself may be red.
* `CtxHeight` / `CtxColor` are the same two conditions on a context, relative to what fills its
  hole; `blackHeight_fill` and `noRedRed_fill` split a filled context into the two halves.
* **`height_le`**: with both conditions a tree of `n` nodes is at most `2 * log₂ (n + 1) + 1`
  nodes high.
-/

namespace Colibri.Lib

/-- The colour of a node. -/
inductive Color where
  | red
  | black
  deriving DecidableEq, Repr

/-- The two children of a node. -/
inductive Dir where
  | left
  | right
  deriving DecidableEq, Repr

/-- The other side. -/
def Dir.flip : Dir → Dir
  | .left => .right
  | .right => .left

@[simp] theorem Dir.flip_flip (d : Dir) : d.flip.flip = d := by cases d <;> rfl

@[simp] theorem Dir.flip_ne (d : Dir) : d.flip ≠ d := by cases d <;> simp [Dir.flip]

@[simp] theorem Dir.ne_flip (d : Dir) : d ≠ d.flip := by cases d <;> simp [Dir.flip]

/-- How much a node of this colour adds to a path's black count. -/
def Color.weight : Color → Nat
  | .red => 0
  | .black => 1

@[simp] theorem Color.weight_red : Color.red.weight = 0 := rfl

@[simp] theorem Color.weight_black : Color.black.weight = 1 := rfl

/-- A coloured binary tree. -/
inductive ColorTree (α : Type) where
  | nil
  | node (l : ColorTree α) (c : Color) (x : α) (r : ColorTree α)
  deriving DecidableEq, Repr

namespace ColorTree

variable {α : Type}

/-- The in-order sequence of payloads. -/
def toList : ColorTree α → List α
  | nil => []
  | node l _ x r => l.toList ++ x :: r.toList

/-- The number of nodes. -/
def size : ColorTree α → Nat
  | nil => 0
  | node l _ _ r => l.size + r.size + 1

/-- The number of nodes on a longest path. -/
def height : ColorTree α → Nat
  | nil => 0
  | node l _ _ r => max l.height r.height + 1

/-- The root's colour; a missing node counts as black. -/
def color : ColorTree α → Color
  | nil => .black
  | node _ c _ _ => c

/-- Every path from the root to a missing child crosses `n` black nodes. -/
def BlackHeight : ColorTree α → Nat → Prop
  | nil, n => n = 0
  | node l c _ r, n => ∃ m, n = m + c.weight ∧ l.BlackHeight m ∧ r.BlackHeight m

/-- No red node has a red child. -/
def NoRedRed : ColorTree α → Prop
  | nil => True
  | node l c _ r => l.NoRedRed ∧ r.NoRedRed ∧ (c = .red → l.color = .black ∧ r.color = .black)

/-- The node whose child on side `d` is `near` and whose other child is `far`. -/
def dnode (d : Dir) (near : ColorTree α) (c : Color) (x : α) (far : ColorTree α) : ColorTree α :=
  match d with
  | .left => node near c x far
  | .right => node far c x near

@[simp] theorem toList_length (t : ColorTree α) : t.toList.length = t.size := by
  induction t with
  | nil => rfl
  | node l c x r ihl ihr => simp only [toList, size, List.length_append, List.length_cons, ihl, ihr]; omega

@[simp] theorem color_nil : (nil : ColorTree α).color = .black := rfl

@[simp] theorem color_dnode (d : Dir) (a : ColorTree α) (c : Color) (x : α) (b : ColorTree α) :
    (dnode d a c x b).color = c := by cases d <;> rfl

@[simp] theorem dnode_flip (d : Dir) (a : ColorTree α) (c : Color) (x : α) (b : ColorTree α) :
    dnode d.flip a c x b = dnode d b c x a := by cases d <;> rfl

theorem toList_dnode (d : Dir) (a : ColorTree α) (c : Color) (x : α) (b : ColorTree α) :
    (dnode d a c x b).toList = match d with
      | .left => a.toList ++ x :: b.toList
      | .right => b.toList ++ x :: a.toList := by cases d <;> rfl

/-- A node read along one direction can be read along the other. -/
theorem dnode_along (d d' : Dir) (a : ColorTree α) (c : Color) (x : α) (b : ColorTree α) :
    ∃ a' b', dnode d a c x b = dnode d' a' c x b' := by
  cases d <;> cases d'
  · exact ⟨a, b, rfl⟩
  · exact ⟨b, a, rfl⟩
  · exact ⟨b, a, rfl⟩
  · exact ⟨a, b, rfl⟩

/-- Every node can be read along either direction. -/
theorem exists_dnode (d : Dir) {t : ColorTree α} (h : t ≠ nil) :
    ∃ a c x b, t = dnode d a c x b := by
  cases t with
  | nil => exact absurd rfl h
  | node l c x r =>
    cases d with
    | left => exact ⟨l, c, x, r, rfl⟩
    | right => exact ⟨r, c, x, l, rfl⟩

@[simp] theorem blackHeight_nil (n : Nat) : (nil : ColorTree α).BlackHeight n ↔ n = 0 := Iff.rfl

@[simp] theorem noRedRed_nil : (nil : ColorTree α).NoRedRed := trivial

theorem blackHeight_dnode {d : Dir} {a : ColorTree α} {c : Color} {x : α} {b : ColorTree α} {n : Nat} :
    (dnode d a c x b).BlackHeight n ↔ ∃ m, n = m + c.weight ∧ a.BlackHeight m ∧ b.BlackHeight m := by
  cases d with
  | left => exact Iff.rfl
  | right =>
    simp only [dnode, BlackHeight]
    exact exists_congr fun m => and_congr_right fun _ => and_comm

@[simp] theorem blackHeight_red {d : Dir} {a : ColorTree α} {x : α} {b : ColorTree α} {n : Nat} :
    (dnode d a .red x b).BlackHeight n ↔ a.BlackHeight n ∧ b.BlackHeight n := by
  rw [blackHeight_dnode]
  simp

@[simp] theorem blackHeight_black {d : Dir} {a : ColorTree α} {x : α} {b : ColorTree α} {n : Nat} :
    (dnode d a .black x b).BlackHeight (n + 1) ↔ a.BlackHeight n ∧ b.BlackHeight n := by
  rw [blackHeight_dnode]
  simp

@[simp] theorem noRedRed_dnode {d : Dir} {a : ColorTree α} {c : Color} {x : α} {b : ColorTree α} :
    (dnode d a c x b).NoRedRed ↔
      a.NoRedRed ∧ b.NoRedRed ∧ (c = .red → a.color = .black ∧ b.color = .black) := by
  cases d with
  | left => exact Iff.rfl
  | right => simp only [dnode, NoRedRed]; tauto

/-- A tree that some path crosses without meeting a black node, and whose root is not red, is
empty. -/
theorem eq_nil_of_blackHeight_zero {t : ColorTree α} (h : t.BlackHeight 0) (hc : t.color = .black) :
    t = nil := by
  cases t with
  | nil => rfl
  | node l c x r =>
    obtain ⟨m, hm, -⟩ := h
    simp only [color] at hc
    subst hc
    simp at hm

/-- A tree of positive black height is not empty. -/
theorem ne_nil_of_blackHeight_succ {t : ColorTree α} {n : Nat} (h : t.BlackHeight (n + 1)) :
    t ≠ nil := by
  rintro rfl
  simp at h

/-! ## The height bound -/

theorem pow_blackHeight_le {t : ColorTree α} {n : Nat} (h : t.BlackHeight n) : 2 ^ n ≤ t.size + 1 := by
  induction t generalizing n with
  | nil => simp only [blackHeight_nil] at h; simp [h, size]
  | node l c x r ihl ihr =>
    obtain ⟨m, rfl, hl, hr⟩ := h
    have h1 := ihl hl
    have h2 := ihr hr
    simp only [size]
    cases c with
    | red => simp only [Color.weight_red, Nat.add_zero]; omega
    | black => simp only [Color.weight_black, Nat.pow_succ]; omega

/-- Along a path at most every other node is red, so a height is at most twice the black height,
plus one for a red root. -/
theorem height_le_blackHeight {t : ColorTree α} {n : Nat} (h : t.BlackHeight n) (hr : t.NoRedRed) :
    t.height ≤ 2 * n + (1 - t.color.weight) := by
  induction t generalizing n with
  | nil => simp [height]
  | node l c x r ihl ihr =>
    obtain ⟨m, rfl, hl, hrr⟩ := h
    obtain ⟨hnl, hnr, hcc⟩ := hr
    have h1 := ihl hl hnl
    have h2 := ihr hrr hnr
    simp only [height, color]
    cases c with
    | red =>
      obtain ⟨hlc, hrc⟩ := hcc rfl
      rw [hlc] at h1
      rw [hrc] at h2
      simp only [Color.weight_black, Color.weight_red] at h1 h2 ⊢
      omega
    | black =>
      simp only [Color.weight_black]
      omega

/-- **The height of a red-black tree is logarithmic**, also when its root is red. -/
theorem height_le {t : ColorTree α} {n : Nat} (h : t.BlackHeight n) (hr : t.NoRedRed) :
    t.height ≤ 2 * Nat.log 2 (t.size + 1) + 1 := by
  have h1 := height_le_blackHeight h hr
  have h2 : n ≤ Nat.log 2 (t.size + 1) :=
    (Nat.le_log_iff_pow_le (by omega) (by omega)).mpr (pow_blackHeight_le h)
  omega

theorem height_le_size (t : ColorTree α) : t.height ≤ t.size := by
  induction t with
  | nil => exact le_refl _
  | node l c x r ihl ihr => simp only [height, size]; omega

end ColorTree

/-! ## Contexts -/

/-- One level of a context: a node whose child on side `dir` is the hole. -/
structure Frame (α : Type) where
  dir : Dir
  color : Color
  x : α
  sib : ColorTree α

/-- A context, innermost frame first. -/
abbrev Ctx (α : Type) := List (Frame α)

namespace Ctx

variable {α : Type}

open ColorTree

/-- Fill the hole. -/
def fill : Ctx α → ColorTree α → ColorTree α
  | [], t => t
  | f :: k, t => fill k (dnode f.dir t f.color f.x f.sib)

/-- What stands before the hole in in-order. -/
def before : Ctx α → List α
  | [] => []
  | f :: k => before k ++ (match f.dir with
    | .left => []
    | .right => f.sib.toList ++ [f.x])

/-- What stands after the hole in in-order. -/
def after : Ctx α → List α
  | [] => []
  | f :: k => (match f.dir with
    | .left => f.x :: f.sib.toList
    | .right => []) ++ after k

/-- The black-height condition on a context whose hole has black height `n`. -/
def CtxHeight : Ctx α → Nat → Prop
  | [], _ => True
  | f :: k, n => f.sib.BlackHeight n ∧ CtxHeight k (n + f.color.weight)

/-- The colour condition on a context whose hole has colour `c`. -/
def CtxColor : Ctx α → Color → Prop
  | [], _ => True
  | f :: k, c => f.sib.NoRedRed ∧ (f.color = .red → c = .black ∧ f.sib.color = .black) ∧
      CtxColor k f.color

theorem toList_fill (k : Ctx α) (t : ColorTree α) :
    (fill k t).toList = before k ++ (t.toList ++ after k) := by
  induction k generalizing t with
  | nil => simp [fill, before, after]
  | cons f k ih =>
    rw [fill, ih]
    cases hd : f.dir <;> simp [before, after, hd, dnode, toList]

theorem toList_fill_congr {k : Ctx α} {s t : ColorTree α} (h : s.toList = t.toList) :
    (fill k s).toList = (fill k t).toList := by
  rw [toList_fill, toList_fill, h]

theorem before_congr {d : Dir} {c c' : Color} {x : α} {s s' : ColorTree α} {k k' : Ctx α}
    (hs : s.toList = s'.toList) (hk : before k = before k') :
    before (⟨d, c, x, s⟩ :: k) = before (⟨d, c', x, s'⟩ :: k') := by
  simp only [before, hs, hk]

theorem after_congr {d : Dir} {c c' : Color} {x : α} {s s' : ColorTree α} {k k' : Ctx α}
    (hs : s.toList = s'.toList) (hk : after k = after k') :
    after (⟨d, c, x, s⟩ :: k) = after (⟨d, c', x, s'⟩ :: k') := by
  simp only [after, hs, hk]

theorem fill_append (k₁ k₂ : Ctx α) (t : ColorTree α) : fill (k₁ ++ k₂) t = fill k₂ (fill k₁ t) := by
  induction k₁ generalizing t with
  | nil => rfl
  | cons f k ih => exact ih _

theorem before_append (k₁ k₂ : Ctx α) : before (k₁ ++ k₂) = before k₂ ++ before k₁ := by
  induction k₁ with
  | nil => simp [before]
  | cons f k ih => cases hd : f.dir <;> simp [before, hd, ih]

theorem after_append (k₁ k₂ : Ctx α) : after (k₁ ++ k₂) = after k₁ ++ after k₂ := by
  induction k₁ with
  | nil => rfl
  | cons f k ih => cases hd : f.dir <;> simp [after, hd, ih]

theorem blackHeight_fill {k : Ctx α} {t : ColorTree α} :
    (∃ n, (fill k t).BlackHeight n) ↔ ∃ m, t.BlackHeight m ∧ CtxHeight k m := by
  induction k generalizing t with
  | nil => simp [fill, CtxHeight]
  | cons f k ih =>
    rw [fill, ih]
    constructor
    · rintro ⟨m, hm, hk⟩
      obtain ⟨m', rfl, ht, hs⟩ := blackHeight_dnode.mp hm
      exact ⟨m', ht, hs, hk⟩
    · rintro ⟨m, ht, hs, hk⟩
      exact ⟨_, blackHeight_dnode.mpr ⟨m, rfl, ht, hs⟩, hk⟩

theorem noRedRed_fill {k : Ctx α} {t : ColorTree α} :
    (fill k t).NoRedRed ↔ t.NoRedRed ∧ CtxColor k t.color := by
  induction k generalizing t with
  | nil => simp [fill, CtxColor]
  | cons f k ih =>
    rw [fill, ih, noRedRed_dnode, color_dnode]
    simp only [CtxColor]
    tauto

/-- A context that accepts a red hole accepts a black one. -/
theorem ctxColor_black {k : Ctx α} {c : Color} (h : CtxColor k c) : CtxColor k .black := by
  cases k with
  | nil => trivial
  | cons f k => exact ⟨h.1, fun hf => ⟨rfl, (h.2.1 hf).2⟩, h.2.2⟩

/-- A context is no longer than the filled tree is high. -/
theorem length_le_height (k : Ctx α) (t : ColorTree α) : k.length + t.height ≤ (fill k t).height := by
  induction k generalizing t with
  | nil => simp [fill]
  | cons f k ih =>
    refine le_trans ?_ (ih _)
    cases f.dir <;> simp only [List.length_cons, dnode, height] <;> omega

end Ctx

end Colibri.Lib
