import Mathlib.Logic.Function.Basic
import Mathlib.Data.List.Infix

/-!
# Radix trees in a store of tables

A store has a table at every address, and a table has an entry at every index; `child` says which
entries refer to a further table. `descend` follows a path of indexes through the tables and `seek`
gives the entry at which a path of indexes ends: its last one, or one before it that has no child.

`IsTree` is what makes writing an entry a local change: no table is reached by two paths. Then
`seek_setEntry` says that a write is seen by the paths through that entry only, and
`IsTree.link` that hanging an empty table into an empty place changes no path's entry in a way that
matters. Paths are restricted to a set `ok` that is closed under prefixes, so that a part of the
tables (a slot that refers back to its own table, say) can be left out.
-/

namespace Colibri.Lib

variable {A E : Type} (child : E → Option A)

/-- The table that the indexes `p` lead to from `t`. -/
def descend (tables : A → Nat → E) : A → List Nat → Option A
  | t, [] => some t
  | t, i :: p =>
    match child (tables t i) with
    | some t' => descend tables t' p
    | none => none

/-- The entry at which the indexes end, with the number of those that are left. -/
def seek (tables : A → Nat → E) : A → List Nat → Option (Nat × E)
  | _, [] => none
  | t, [i] => some (0, tables t i)
  | t, i :: j :: p =>
    match child (tables t i) with
    | some t' => seek tables t' (j :: p)
    | none => some (p.length + 1, tables t i)

/-- The tables with the entry `e` at index `i` of `t`. -/
def setEntry [DecidableEq A] (tables : A → Nat → E) (t : A) (i : Nat) (e : E) : A → Nat → E :=
  Function.update tables t (Function.update (tables t) i e)

/-- No table is reached by two of the paths `ok`. -/
def IsTree (ok : List Nat → Prop) (tables : A → Nat → E) (root : A) : Prop :=
  ∀ ⦃p q t⦄, ok p → ok q → descend child tables root p = some t →
    descend child tables root q = some t → p = q

variable {child} {tables tables' : A → Nat → E} {root t u : A} {i j : Nat} {p q : List Nat} {e : E}

theorem descend_cons {t' : A} (h : child (tables t i) = some t') :
    descend child tables t (i :: p) = descend child tables t' p := by
  rw [descend, h]

theorem descend_cons_none (h : child (tables t i) = none) :
    descend child tables t (i :: p) = none := by
  rw [descend, h]

theorem descend_append : ∀ (p : List Nat) (t : A), descend child tables t (p ++ q) =
    (descend child tables t p).bind fun u => descend child tables u q
  | [], _ => rfl
  | i :: p, t => by
    rw [List.cons_append, descend, descend]
    cases child (tables t i) with
    | none => rfl
    | some t' => exact descend_append p t'

theorem descend_concat (h : descend child tables root p = some t) :
    descend child tables root (p ++ [i]) = child (tables t i) := by
  rw [descend_append, h, Option.bind_some, descend]
  cases child (tables t i) <;> rfl

theorem seek_cons {t' : A} (h : child (tables t i) = some t') :
    seek child tables t (i :: j :: p) = seek child tables t' (j :: p) := by
  simp only [seek, h]

theorem seek_cons_none (h : child (tables t i) = none) :
    seek child tables t (i :: p) = some (p.length, tables t i) := by
  cases p with
  | nil => rfl
  | cons j p =>
    rw [seek, h]
    rfl

theorem seek_singleton : seek child tables t [i] = some (0, tables t i) := rfl

/-- A path's entry is that of its rest, from where its beginning leads. -/
theorem seek_append : ∀ (p : List Nat) (t : A), descend child tables t p = some u →
    seek child tables t (p ++ i :: q) = seek child tables u (i :: q)
  | [], t, h => by
    obtain rfl : t = u := Option.some.inj h
    rfl
  | j :: p, t, h => by
    rw [descend] at h
    cases hc : child (tables t j) with
    | none => simp [hc] at h
    | some t' =>
      rw [hc] at h
      have hne : ∃ k r, p ++ i :: q = k :: r := by
        cases p with
        | nil => exact ⟨i, q, rfl⟩
        | cons k r => exact ⟨k, r ++ i :: q, rfl⟩
      obtain ⟨k, r, he⟩ := hne
      rw [List.cons_append, he, seek_cons hc, ← he]
      exact seek_append p t' h

theorem seek_leaf (h : descend child tables root p = some t) :
    seek child tables root (p ++ [i]) = some (0, tables t i) := by
  rw [seek_append p root h, seek_singleton]

/-! ## Paths and the entries they read -/

/-- The entries that the path `q` reads are the same in both stores. -/
def SameAlong (child : E → Option A) (tables tables' : A → Nat → E) (root : A) (q : List Nat) :
    Prop :=
  ∀ r j s u, q = r ++ j :: s → descend child tables root r = some u → tables' u j = tables u j

theorem SameAlong.tail {t' : A} (h : SameAlong child tables tables' t (i :: q))
    (hc : child (tables t i) = some t') : SameAlong child tables tables' t' q := by
  intro r j s u he hr
  exact h (i :: r) j s u (by rw [he]; rfl) (by rw [descend_cons hc]; exact hr)

theorem descend_congr : ∀ (q : List Nat) (t : A), SameAlong child tables tables' t q →
    descend child tables' t q = descend child tables t q
  | [], _, _ => rfl
  | i :: q, t, h => by
    have he : tables' t i = tables t i := h [] i q t rfl rfl
    rw [descend, descend, he]
    cases hc : child (tables t i) with
    | none => rfl
    | some t' => exact descend_congr q t' (h.tail hc)

theorem seek_congr : ∀ (q : List Nat) (t : A), SameAlong child tables tables' t q →
    seek child tables' t q = seek child tables t q
  | [], _, _ => rfl
  | [i], t, h => by
    have he : tables' t i = tables t i := h [] i [] t rfl rfl
    rw [seek_singleton, seek_singleton, he]
  | i :: j :: q, t, h => by
    have he : tables' t i = tables t i := h [] i (j :: q) t rfl rfl
    cases hc : child (tables t i) with
    | none =>
      have hc' : child (tables' t i) = none := by rw [he, hc]
      rw [seek_cons_none hc, seek_cons_none hc', he]
    | some t' =>
      have hc' : child (tables' t i) = some t' := by rw [he, hc]
      rw [seek_cons hc, seek_cons hc']
      exact seek_congr (j :: q) t' (h.tail hc)

/-! ## Writing an entry -/

variable [DecidableEq A]

theorem setEntry_self : setEntry tables t i e t i = e := by
  rw [setEntry, Function.update_self, Function.update_self]

theorem setEntry_of_ne (h : u ≠ t ∨ j ≠ i) : setEntry tables t i e u j = tables u j := by
  unfold setEntry
  by_cases hu : u = t
  · subst hu
    rw [Function.update_self, Function.update_of_ne (h.resolve_left fun hn => hn rfl)]
  · rw [Function.update_of_ne hu]

section

variable {ok : List Nat → Prop} (hok : ∀ {p q : List Nat}, p <+: q → ok q → ok p)

include hok

omit hok in
/-- **In a tree, a path that does not go through an entry does not see it written.** -/
theorem IsTree.sameAlong (h : IsTree child ok tables root)
    (ht : descend child tables root p = some t) (hp : ok p)
    (hq : ∀ r j s, q = r ++ j :: s → ok r) (hn : ¬ p ++ [i] <+: q) :
    SameAlong child tables (setEntry tables t i e) root q := by
  intro r j s u he hu
  refine setEntry_of_ne (not_and_or.mp ?_)
  rintro ⟨rfl, rfl⟩
  have hrp : r = p := h (hq r j s he) hp hu ht
  subst hrp
  exact hn ⟨s, by rw [he]; simp⟩

theorem IsTree.descend_setEntry (h : IsTree child ok tables root)
    (ht : descend child tables root p = some t) (hp : ok p) (hq : ok q) (hn : ¬ p ++ [i] <+: q) :
    descend child (setEntry tables t i e) root q = descend child tables root q :=
  descend_congr q root (h.sameAlong ht hp (fun _ j s he => hok ⟨j :: s, he.symm⟩ hq) hn)

omit hok in
theorem IsTree.seek_setEntry (h : IsTree child ok tables root)
    (ht : descend child tables root p = some t) (hp : ok p)
    (hq : ∀ r j s, q = r ++ j :: s → ok r) (hn : ¬ p ++ [i] <+: q) :
    seek child (setEntry tables t i e) root q = seek child tables root q :=
  seek_congr q root (h.sameAlong ht hp hq hn)

omit hok in
theorem not_prefix_concat : ¬ p ++ [i] <+: p := fun h => by
  have := h.length_le
  simp only [List.length_append, List.length_singleton] at this
  omega

theorem IsTree.seek_setEntry_self (h : IsTree child ok tables root)
    (ht : descend child tables root p = some t) (hp : ok p) :
    seek child (setEntry tables t i e) root (p ++ [i]) = some (0, e) := by
  have ht' : descend child (setEntry tables t i e) root p = some t := by
    rw [h.descend_setEntry hok ht hp hp not_prefix_concat, ht]
  rw [seek_leaf ht', setEntry_self]

/-! ## Hanging in a table -/

/-- The tables with the table `new`, all of whose entries are `z`, hung in at index `i` of `t`. -/
def link (tables : A → Nat → E) (t : A) (i : Nat) (e : E) (new : A) (z : E) : A → Nat → E :=
  Function.update (setEntry tables t i e) new fun _ => z

omit hok in
theorem link_new {new : A} {z : E} : link tables t i e new z new j = z := by
  rw [link, Function.update_self]

omit hok in
theorem link_of_ne {new : A} {z : E} (h : u ≠ new) :
    link tables t i e new z u j = setEntry tables t i e u j := by
  rw [link, Function.update_of_ne h]

section

variable {new : A} {z : E} (h : IsTree child ok tables root)
  (ht : descend child tables root p = some t) (hp : ok (p ++ [i]))
  (hnew : ∀ q, ok q → descend child tables root q ≠ some new)
  (hc : child e = some new) (hz : child z = none)

include h ht hp hnew

theorem IsTree.sameAlong_link (hq : ∀ r j s, q = r ++ j :: s → ok r) (hn : ¬ p ++ [i] <+: q) :
    SameAlong child tables (link tables t i e new z) root q := by
  have hpp : ok p := hok ⟨[i], rfl⟩ hp
  intro r j s u he hu
  have hne : u ≠ new := by
    rintro rfl
    exact hnew r (hq r j s he) hu
  rw [link_of_ne hne]
  exact h.sameAlong ht hpp hq hn r j s u he hu

/-- Paths that do not go through the entry do not see the new table. -/
theorem IsTree.descend_link (hq : ok q) (hn : ¬ p ++ [i] <+: q) :
    descend child (link tables t i e new z) root q = descend child tables root q :=
  descend_congr q root
    (h.sameAlong_link hok ht hp hnew (fun _ j s he => hok ⟨j :: s, he.symm⟩ hq) hn)

theorem IsTree.seek_link (hq : ∀ r j s, q = r ++ j :: s → ok r) (hn : ¬ p ++ [i] <+: q) :
    seek child (link tables t i e new z) root q = seek child tables root q :=
  seek_congr q root (h.sameAlong_link hok ht hp hnew hq hn)

theorem IsTree.descend_link_before :
    descend child (link tables t i e new z) root p = some t := by
  rw [h.descend_link hok ht hp hnew (hok ⟨[i], rfl⟩ hp) not_prefix_concat, ht]

omit [DecidableEq A] h in
theorem ne_new_of_descend : t ≠ new := by
  rintro rfl
  exact hnew p (hok ⟨[i], rfl⟩ hp) ht

include hc

theorem IsTree.descend_link_self :
    descend child (link tables t i e new z) root (p ++ [i]) = some new := by
  rw [descend_concat (h.descend_link_before hok ht hp hnew),
    link_of_ne (ne_new_of_descend hok ht hp hnew), setEntry_self, hc]

include hz

/-- Behind the new table there is none. -/
theorem IsTree.descend_link_behind : descend child (link tables t i e new z) root
    (p ++ [i] ++ j :: q) = none := by
  rw [descend_append, h.descend_link_self hok ht hp hnew hc, Option.bind_some, descend, link_new, hz]

/-- A path through the new table ends at one of its entries. -/
theorem IsTree.seek_link_behind : seek child (link tables t i e new z) root (p ++ [i] ++ j :: q) =
    some (q.length, z) := by
  rw [seek_append _ root (h.descend_link_self hok ht hp hnew hc), seek_cons_none, link_new]
  rw [link_new, hz]

/-- The tables reached now are those from before and the new one. -/
theorem IsTree.descend_link_cases (hq : ok q)
    (hu : descend child (link tables t i e new z) root q = some u) :
    (q = p ++ [i] ∧ u = new) ∨ (¬ p ++ [i] <+: q ∧ descend child tables root q = some u) := by
  by_cases hn : p ++ [i] <+: q
  · obtain ⟨s, rfl⟩ := hn
    cases s with
    | nil =>
      rw [List.append_nil, h.descend_link_self hok ht hp hnew hc] at hu
      exact .inl ⟨List.append_nil _, (Option.some.inj hu).symm⟩
    | cons j s =>
      rw [h.descend_link_behind hok ht hp hnew hc hz] at hu
      exact absurd hu (by simp)
  · rw [h.descend_link hok ht hp hnew hq hn] at hu
    exact .inr ⟨hn, hu⟩

/-- **Hanging a new, empty table into a tree** gives a tree. -/
theorem IsTree.link : IsTree child ok (Lib.link tables t i e new z) root := by
  intro q r u hq hr hqu hru
  rcases h.descend_link_cases hok ht hp hnew hc hz hq hqu with ⟨rfl, rfl⟩ | ⟨-, hqu⟩ <;>
    rcases h.descend_link_cases hok ht hp hnew hc hz hr hru with ⟨rfl, hu⟩ | ⟨-, hru⟩
  · rfl
  · exact absurd hru (hnew r hr)
  · exact absurd (hu ▸ hqu) (hnew q hq)
  · exact h hq hr hqu hru

end

end

end Colibri.Lib
