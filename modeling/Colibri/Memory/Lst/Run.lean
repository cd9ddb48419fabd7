import Colibri.Lib.Run
import Colibri.Memory.Lst

/-!
# Runs of `struct lst`

The operations of `kernel/list.c` and the unlinking of a node in `destroy_process`
(`kernel/process.c`), one after the other on a list that `lst_init` made. The abstract model is a
double-ended queue of node addresses; it stops where the kernel must not go: a node that is in the
list is pushed, one that is not is unlinked, or nothing is there to be popped.

## Results

* `lstUnlink_spec`: unlinking takes the node out and no other.
* `lstStep_sim`: each operation is the one on the queue.
* `lstRun_deque`: so is each run, and the list read forward, backward or by `lst_empty` is the queue.
-/

namespace Colibri.Memory

open Colibri.Lib

/-- The unlinking in `destroy_process`: `n` is `&proc->lst`. -/
def lstUnlink (m : Mem) (n : Nat) : Mem :=
  let m := lstSetNext m (lstPrev m n) (lstNext m n)
  lstSetPrev m (lstNext m n) (lstPrev m n)

/-- The operations on a list. -/
inductive LstOp
  | push (n : Nat)
  | pushEnd (n : Nat)
  | pop
  | popEnd
  | unlink (n : Nat)

/-- The node that an operation brings. -/
def LstOp.new : LstOp → Option Nat
  | .push n => some n
  | .pushEnd n => some n
  | _ => none

/-- One operation on the list at `h`: the memory and the node returned. -/
def lstStep (h : Nat) (m : Mem) : LstOp → Option (Mem × Option Nat)
  | .push n => some (lstPush m h n, none)
  | .pushEnd n => some (lstPushEnd m h n, none)
  | .pop => (lstPop m h).map fun r => (r.1, some r.2)
  | .popEnd => (lstPopEnd m h).map fun r => (r.1, some r.2)
  | .unlink n => some (lstUnlink m n, none)

/-- The same operation on a double-ended queue; `h` is no member. -/
def dequeStep (h : Nat) (L : List Nat) : LstOp → Option (List Nat × Option Nat)
  | .push n => if n ∈ h :: L then none else some (n :: L, none)
  | .pushEnd n => if n ∈ h :: L then none else some (L ++ [n], none)
  | .pop => L.head?.map fun n => (L.tail, some n)
  | .popEnd => L.getLast?.map fun n => (L.dropLast, some n)
  | .unlink n => if n ∈ L then some (L.erase n, none) else none

/-- The list at `h` is the queue `L`, whichever way it is read. -/
structure IsDeque (m : Mem) (h : Nat) (L : List Nat) : Prop where
  forward : ∀ fuel, L.length < fuel → follow (lstNext m) h fuel (lstNext m h) = some L
  backward : ∀ fuel, L.length < fuel → follow (lstPrev m) h fuel (lstPrev m h) = some L.reverse
  empty : lstEmpty m h = true ↔ L = []

variable {node : Nat → Prop} {m : Mem} {h n : Nat} {L L₁ L₂ : List Nat}

theorem MemRing.isDeque (hr : MemRing node m h L) : IsDeque m h L where
  forward _ hf := hr.ring.follow_next hf
  backward _ hf := hr.ring.follow_prev hf
  empty := lstEmpty_iff hr

/-- **Unlinking** takes the node out, wherever it is. -/
theorem lstUnlink_spec (hs : Spaced node) (hr : MemRing node m h (L₁ ++ n :: L₂)) :
    MemRing node (lstUnlink m n) h (L₁ ++ L₂) ∧ SameOutside node m (lstUnlink m n) := by
  have hmem : ∀ a ∈ h :: (L₁ ++ L₂), node a := by
    intro a ha
    refine hr.mem a ?_
    rw [List.mem_cons, List.mem_append] at ha ⊢
    exact ha.imp_right (.imp_right (List.mem_cons_of_mem _))
  have hn := hr.mem n (by simp)
  obtain ⟨hprev, hnext⟩ := hr.ring.neighbours
  have hp : node (lstPrev m n) := by
    rw [hprev]
    exact hmem _ (List.cons_subset_cons h (List.subset_append_left L₁ L₂) List.getLastD_mem_cons)
  have hq : node (lstNext m n) := by
    obtain ⟨B, hB⟩ := exists_append_eq_headD h L₂
    have hin : L₂.headD h ∈ L₂ ++ [h] := hB ▸ List.mem_cons_self
    rw [hnext]
    refine hmem _ ?_
    rw [List.mem_append, List.mem_singleton] at hin
    rw [List.mem_cons, List.mem_append]
    exact hin.symm.imp_right .inr
  have heq : lstUnlink m n =
      lstSetPrev (lstSetNext m (lstPrev m n) (lstNext m n)) (lstNext m n) (lstPrev m n) := by
    have hne : n ≠ lstPrev m n := by
      rw [hprev]
      have hnd := hr.ring.nodup
      rw [← List.cons_append, List.nodup_append] at hnd
      exact (hnd.2.2 _ List.getLastD_mem_cons n List.mem_cons_self).symm
    simp only [lstUnlink]
    rw [lstNext_setNext hs hp hn hq, if_neg hne, lstPrev_setNext hs hp hn]
  rw [heq]
  refine ⟨⟨hr.ring.unlink hprev hnext ?_ ?_ ?_ ?_, hmem⟩,
    (sameOutside_setNext hp).trans (sameOutside_setPrev hq)⟩
  · rw [lstNext_setPrev hs hq hp, lstNext_setNext hs hp hp hq, if_pos rfl]
  · rw [lstPrev_setPrev hs hq hq hp, if_pos rfl]
  · intro a ha hap
    rw [lstNext_setPrev hs hq (hmem a ha), lstNext_setNext hs hp (hmem a ha) hq, if_neg hap]
  · intro a ha haq
    rw [lstPrev_setPrev hs hq (hmem a ha) hp, if_neg haq, lstPrev_setNext hs hp (hmem a ha)]

/-- **Each operation** is the one on the queue. -/
theorem lstStep_sim (hs : Spaced node) {op : LstOp} (hop : ∀ n, op.new = some n → node n)
    {L' : List Nat} {r : Option Nat} (hr : MemRing node m h L)
    (hd : dequeStep h L op = some (L', r)) :
    ∃ m', lstStep h m op = some (m', r) ∧ MemRing node m' h L' := by
  cases op with
  | push n =>
    rw [dequeStep] at hd
    split at hd
    case isTrue => exact nomatch hd
    case isFalse hnew =>
      obtain ⟨rfl, rfl⟩ := Prod.mk.inj (Option.some.inj hd)
      exact ⟨_, rfl, (lstPush_spec hs hr (hop n rfl) hnew).1⟩
  | pushEnd n =>
    rw [dequeStep] at hd
    split at hd
    case isTrue => exact nomatch hd
    case isFalse hnew =>
      obtain ⟨rfl, rfl⟩ := Prod.mk.inj (Option.some.inj hd)
      exact ⟨_, rfl, (lstPushEnd_spec hs hr (hop n rfl) hnew).1⟩
  | pop =>
    obtain ⟨n, hn, he⟩ := Option.map_eq_some_iff.mp hd
    obtain ⟨rfl, rfl⟩ := Prod.mk.inj he
    obtain ⟨T, rfl⟩ := List.head?_eq_some_iff.mp hn
    obtain ⟨m', hm', hr', -⟩ := lstPop_spec hs hr
    exact ⟨m', by rw [lstStep, hm', Option.map_some], hr'⟩
  | popEnd =>
    obtain ⟨n, hn, he⟩ := Option.map_eq_some_iff.mp hd
    obtain ⟨rfl, rfl⟩ := Prod.mk.inj he
    obtain ⟨T, rfl⟩ := List.getLast?_eq_some_iff.mp hn
    obtain ⟨m', hm', hr', -⟩ := lstPopEnd_spec hs hr
    exact ⟨m', by rw [lstStep, hm', Option.map_some], by rwa [List.dropLast_concat]⟩
  | unlink n =>
    rw [dequeStep] at hd
    split at hd
    case isFalse => exact nomatch hd
    case isTrue hin =>
      obtain ⟨rfl, rfl⟩ := Prod.mk.inj (Option.some.inj hd)
      obtain ⟨L₁, L₂, hnot, rfl, herase⟩ := List.exists_erase_eq hin
      exact ⟨_, rfl, herase ▸ (lstUnlink_spec hs hr).1⟩

/-- **A list is a double-ended queue**: from `lst_init` on, every run of the queue is one of the
list, with the same nodes returned, and leaves the list reading as the queue. -/
theorem lstRun_deque (hs : Spaced node) (hh : node h) (m : Mem) {ops : List LstOp}
    (hops : ∀ op ∈ ops, ∀ n, op.new = some n → node n) {rs : List (Option Nat)}
    (hrun : runResults (dequeStep h) [] ops = some (L, rs)) :
    ∃ m', runResults (lstStep h) (lstInit m h) ops = some (m', rs) ∧ IsDeque m' h L := by
  obtain ⟨m', hm', hr⟩ := runResults_sim (fun m L => MemRing node m h L)
    (fun m L op L' r hr hop hd => lstStep_sim hs hop hr hd) (lstInit_spec hs m hh).1 hops hrun
  exact ⟨m', hm', hr.isDeque⟩

/-- Two nodes and the head, 16 bytes each: one is pushed at either end, one is unlinked, and the
other is popped. -/
theorem lstRun_deque_two : ∃ m', runResults (lstStep 16) (lstInit (fun _ => 0) 16)
    [.push 32, .pushEnd 48, .unlink 32, .popEnd] = some (m', [none, none, none, some 48]) ∧
      IsDeque m' 16 [] := by
  have hsize := u64Size_eq
  have hs : Spaced fun a => a = 16 ∨ a = 32 ∨ a = 48 :=
    { apart := fun ha hb hab => by rw [Mem.Disjoint]; omega
      pos := fun ha => by omega
      lt := fun ha => by omega }
  refine lstRun_deque hs (.inl rfl) (fun _ => 0) ?_ rfl
  intro op hop n hn
  simp only [List.mem_cons, List.not_mem_nil, or_false] at hop
  rcases hop with rfl | rfl | rfl | rfl
  · exact .inr (.inl (Option.some.inj hn).symm)
  · exact .inr (.inr (Option.some.inj hn).symm)
  · exact nomatch hn
  · exact nomatch hn

end Colibri.Memory
