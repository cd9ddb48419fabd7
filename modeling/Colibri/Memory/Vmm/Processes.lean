import Colibri.Memory.Vmm.Gaps
import Colibri.Memory.Vmm.Separation

/-!
# Processes do not reach each other's memory

`Procs` is the system of the processes: their page tables and area lists, and the bytes of physical
memory. Its purpose is `Private`: a memory for each process, which only its own actions change. In
every run the page tables stay apart and the area lists of all processes sound (`Isolated`), and each
step is one of private memories (`process_isolation`).

Pages come back: an area that is freed and a process that ends leave theirs to the others. What
`unmappages` frees is whatever a descriptor holds, present or not, so this is for areas whose
descriptors are present.
-/

namespace Colibri.Memory

open Colibri.Lib

/-! ## The system of the processes -/

/-- The processes, their page tables and the bytes of physical memory. -/
structure Procs where
  k : Kmem
  vmms : Nat → Option Vmm
  /-- Physical memory, by physical address. -/
  data : Nat → BitVec 8
  /-- The pages that hold the area records of each process. -/
  records : Nat → List Nat

/-- What happens to them; the first argument is the process. As for one process, accesses are of
single bytes and the permissions are not looked at. `held` is what was in the page of the new root
table, and `other` what the kernel writes elsewhere. -/
inductive ProcsAction where
  | create (i : Nat) (user : Bool) (held : Nat → Entry)
  | alloc (i base sz : Nat) (flags : BitVec 8)
  | protect (i area : Nat) (flags : BitVec 8)
  | touch (i va : Nat)
  | store (i va : Nat) (b : BitVec 8)
  | free (i area : Nat)
  | exit (i : Nat)
  | other (data : Nat → BitVec 8)

namespace Procs

/-- The translation of an address of a process. -/
def translate (s : Procs) (i va : Nat) : Option Translation :=
  (s.vmms i).bind fun v => Memory.translate s.k.tables v.rootPagetable va

/-- The process with its page tables after a step. -/
def set (s : Procs) (i : Nat) (k : Kmem) (v : Vmm) : Procs :=
  { s with k, vmms := Function.update s.vmms i (some v) }

/-- The system without a process. -/
def remove (s : Procs) (i : Nat) (k : Kmem) : Procs :=
  { s with
    k, vmms := Function.update s.vmms i none, records := Function.update s.records i [] }

/-- An access: a page fault if the address is not mapped. `none` is a fault that is not served. -/
def touch (s : Procs) (i va : Nat) : Option Procs :=
  match s.vmms i with
  | none => none
  | some v =>
    match Memory.translate s.k.tables v.rootPagetable va with
    | some _ => some s
    | none =>
      match s.k.onDemandAllocation v va with
      | some (k, true) => some (s.set i k v)
      | _ => none

/-- The effect of an action. -/
def step (kernelPml4 : Nat) (s : Procs) : ProcsAction → Option Procs
  | .create i user held =>
    let k := { s.k with tables := Function.update s.k.tables (physToVirt s.k.kalloc.2) held }
    match k.vmmCreate true true lowhalfStart lowhalfEnd user with
    | (k, some v) => some (s.set i (k.mapHigherHalf kernelPml4 v.rootPagetable) v)
    | (_, none) => some s
  | .alloc i base sz flags =>
    (s.vmms i).bind fun v => (s.k.vmmAllocAt base v sz flags).map fun (k, v, _) =>
      { s.set i k v with
        records := Function.update s.records i
          (s.records i ++ s.k.free.filter fun p => decide (p ∉ k.free)) }
  | .protect i area flags =>
    (s.vmms i).bind fun v => (s.k.updateAreaAccess v area flags).map fun (k, _) => s.set i k v
  | .touch i va => s.touch i va
  | .store i va b =>
    (s.touch i va).bind fun s => (s.translate i va).map fun t =>
      { s with data := Function.update s.data t.pa b }
  | .free i area =>
    (s.vmms i).bind fun v => (s.k.vmmFreeArea v area).map fun (k, v, _) => s.set i k v
  | .exit i => (s.vmms i).bind fun v => (s.k.vmmDestroy v).map fun k => s.remove i k
  | .other data => some { s with data }

/-- What the rest of the system promises. A new process has a name of its own, and the page of its root
table was left without present entries in its lower half. The arithmetic of an allocation does not
wrap, and there is a page for a container. Areas are in the low half, and those that are given up are
listed and have no descriptor that is not present; the last container of a process that ends was left
with 0 in the place of its `next`. Accesses are in the low half, and faults find a free page. The
kernel does not write to the pages of processes. -/
def Promised (s : Procs) : ProcsAction → Prop
  | .create i _ held => s.vmms i = none ∧ ∀ j < 256, (held j).present = false
  | .alloc i base sz _ => ∀ v, s.vmms i = some v →
    NoWrap v base sz ∧ (NeedsContainer v → s.k.free ≠ [])
  | .protect _ area _ => s.k.areaLast area < lowhalfEnd
  | .touch i va => va < lowhalfEnd ∧ (s.translate i va = none → s.k.free ≠ [])
  | .store i va _ => va < lowhalfEnd ∧ (s.translate i va = none → s.k.free ≠ [])
  | .free i area => ∀ v, s.vmms i = some v →
    Listed s.k v area ∧ Whole s.k v.rootPagetable area
  | .exit i => ∀ v, s.vmms i = some v → (∀ a, Listed s.k v a → Whole s.k v.rootPagetable a) ∧
    (v.currentContainer ≠ 0 → s.k.containerNext v.currentContainer = 0)
  | .other data => ∀ i, ∀ va < lowhalfEnd, ∀ t, s.translate i va = some t → data t.pa = s.data t.pa

/-- The roots of the processes. -/
def Root (s : Procs) (r : Nat) : Prop := ∃ i v, s.vmms i = some v ∧ v.rootPagetable = r

/-- What a process reads at an address of the low half. -/
def memory (s : Procs) (i va : Nat) : Option (BitVec 8) :=
  if va < lowhalfEnd then (s.translate i va).map fun t => s.data t.pa else none

end Procs

/-! ## Private memories -/

/-- A memory for each process, by address; an address may have no byte yet. -/
abbrev Private : Type := Nat → Nat → Option (BitVec 8)

/-- What happens to them: nothing, accesses, and ranges of pages that are given up. -/
inductive PrivateAction where
  | idle
  | touch (i va : Nat)
  | store (i va : Nat) (b : BitVec 8)
  | drop (i : Nat) (pages : Nat → Prop)

/-- **Each process has a memory of its own.** An access to an address without a byte gives bytes to
its page; what they are is left open. -/
inductive Private.Step : Private → PrivateAction → Private → Prop
  | idle (m : Private) : Step m .idle m
  | mapped (m : Private) (i va : Nat) (h : m i va ≠ none) : Step m (.touch i va) m
  | fault (m : Private) (i va : Nat) (bytes : Nat → BitVec 8) (h : m i va = none) :
    Step m (.touch i va) fun j x =>
      if j = i ∧ pageStart x = pageStart va then some (bytes x) else m j x
  | store (m m' : Private) (i va : Nat) (b : BitVec 8) (h : Step m (.touch i va) m') :
    Step m (.store i va b) (Function.update m' i (Function.update (m' i) va (some b)))
  | drop (m : Private) (i : Nat) (pages : Nat → Prop) [DecidablePred pages] :
    Step m (.drop i pages) fun j x => if j = i ∧ pages x then none else m j x

/-- The process that it is about. -/
def PrivateAction.process : PrivateAction → Option Nat
  | .idle => none
  | .touch i _ => some i
  | .store i _ _ => some i
  | .drop i _ => some i

/-- The memory of another process is as before. -/
theorem Private.Step.other {m m' : Private} {a : PrivateAction} {j : Nat} (h : Step m a m')
    (hj : a.process ≠ some j) : m' j = m j := by
  induction h with
  | idle => rfl
  | mapped i va h => rfl
  | fault i va bytes h =>
    funext x
    exact if_neg fun he => hj (congrArg some he.1.symm)
  | store m' i va b h ih =>
    rw [Function.update_of_ne fun he => hj (congrArg some he.symm)]
    exact ih hj
  | drop i pages =>
    funext x
    exact if_neg fun he => hj (congrArg some he.1.symm)

/-- What an action of the system is to the memories. -/
def Procs.effect (s : Procs) : ProcsAction → PrivateAction
  | .create _ _ _ => .idle
  | .alloc _ _ _ _ => .idle
  | .protect _ _ _ => .idle
  | .touch i va => .touch i va
  | .store i va b => .store i va b
  | .free i area => .drop i (AreaPages s.k area)
  | .exit i => .drop i fun _ => True
  | .other _ => .idle

/-! ## Steps -/

/-- **The processes are apart**, and their area lists sound. -/
structure Isolated (kernelPml4 : Nat) (s : Procs) : Prop where
  separate : Separate s.k kernelPml4 (fun p => ∃ i, p ∈ s.records i) s.Root
  distinct : ∀ i j v w, s.vmms i = some v → s.vmms j = some w →
    v.rootPagetable = w.rootPagetable → i = j
  areas : ∀ i v, s.vmms i = some v → ∃ L, AreaList s.k v ((s.records i).map physToVirt) L
  recordsApart : ∀ i j p, p ∈ s.records i → p ∈ s.records j → i = j
  absent : ∀ i, s.vmms i = none → s.records i = []

section

variable {kernelPml4 i j va : Nat} {s s' : Procs} {k' : Kmem} {v v' : Vmm}

theorem Procs.translate_eq (hv : s.vmms i = some v) :
    s.translate i va = Memory.translate s.k.tables v.rootPagetable va := by
  rw [Procs.translate, hv, Option.bind_some]

@[simp] theorem Procs.set_vmms_self : (s.set i k' v').vmms i = some v' := by
  simp only [Procs.set, Function.update_self]

theorem Procs.set_vmms_of_ne (hj : j ≠ i) : (s.set i k' v').vmms j = s.vmms j := by
  simp only [Procs.set, Function.update_of_ne hj]

@[simp] theorem Procs.set_k : (s.set i k' v').k = k' := rfl

@[simp] theorem Procs.set_data : (s.set i k' v').data = s.data := rfl

@[simp] theorem Procs.remove_k : (s.remove i k').k = k' := rfl

@[simp] theorem Procs.remove_data : (s.remove i k').data = s.data := rfl

theorem Procs.remove_vmms_self : (s.remove i k').vmms i = none := by
  simp only [Procs.remove, Function.update_self]

theorem Procs.remove_vmms_of_ne (hj : j ≠ i) : (s.remove i k').vmms j = s.vmms j := by
  simp only [Procs.remove, Function.update_of_ne hj]

theorem Procs.remove_records_self : (s.remove i k').records i = [] := by
  simp only [Procs.remove, Function.update_self]

theorem Procs.remove_records_of_ne (hj : j ≠ i) : (s.remove i k').records j = s.records j := by
  simp only [Procs.remove, Function.update_of_ne hj]

/-- Who is left. -/
theorem Procs.of_remove (h : (s.remove i k').vmms j = some v) : j ≠ i ∧ s.vmms j = some v := by
  have hj : j ≠ i := by
    rintro rfl
    rw [Procs.remove_vmms_self] at h
    exact absurd h (by simp)
  exact ⟨hj, (Procs.remove_vmms_of_ne hj).symm.trans h⟩

theorem Procs.of_mem_remove {p : Nat} (h : p ∈ (s.remove i k').records j) :
    j ≠ i ∧ p ∈ s.records j := by
  have hj : j ≠ i := by
    rintro rfl
    rw [Procs.remove_records_self] at h
    exact absurd h List.not_mem_nil
  exact ⟨hj, Procs.remove_records_of_ne hj ▸ h⟩

theorem Procs.translate_set : (s.set i k' v').translate i va =
    Memory.translate k'.tables v'.rootPagetable va :=
  Procs.translate_eq Procs.set_vmms_self

theorem Procs.translate_set_of_ne (hj : j ≠ i) : (s.set i k' v').translate j va =
    (s.vmms j).bind fun v => Memory.translate k'.tables v.rootPagetable va := by
  rw [Procs.translate, Procs.set_vmms_of_ne hj, Procs.set_k]

theorem Procs.memory_of_lt (hva : va < lowhalfEnd) :
    s.memory i va = (s.translate i va).map fun t => s.data t.pa := if_pos hva

theorem Procs.memory_of_not_lt (hva : ¬ va < lowhalfEnd) : s.memory i va = none := if_neg hva

/-- The memories, address by address. -/
theorem Procs.memory_congr (h : ∀ j, ∀ x < lowhalfEnd, (s'.translate j x).map (fun t => s'.data t.pa) =
    (s.translate j x).map fun t => s.data t.pa) : s'.memory = s.memory := by
  funext j x
  by_cases hx : x < lowhalfEnd
  · rw [Procs.memory_of_lt hx, Procs.memory_of_lt hx]
    exact h j x hx
  · rw [Procs.memory_of_not_lt hx, Procs.memory_of_not_lt hx]

namespace Isolated

theorem root (hv : s.vmms i = some v) : s.Root v.rootPagetable := ⟨i, v, hv, rfl⟩

theorem space (h : Isolated kernelPml4 s) (hv : s.vmms i = some v) :
    LowSpace s.k v.rootPagetable := h.separate.space _ (root hv)

theorem root_ne (h : Isolated kernelPml4 s) (hv : s.vmms i = some v) {w : Vmm}
    (hw : s.vmms j = some w) (hj : j ≠ i) : v.rootPagetable ≠ w.rootPagetable :=
  fun he => hj (h.distinct i j v w hv hw he).symm

theorem root_set (hv : s.vmms i = some v) (hroot : v'.rootPagetable = v.rootPagetable) :
    (s.set i k' v').Root = s.Root := by
  funext r
  refine propext ⟨?_, ?_⟩
  · rintro ⟨j, w, hw, rfl⟩
    by_cases hj : j = i
    · subst hj
      rw [Procs.set_vmms_self] at hw
      obtain rfl := Option.some.inj hw
      exact ⟨j, v, hv, hroot.symm⟩
    · rw [Procs.set_vmms_of_ne hj] at hw
      exact ⟨j, w, hw, rfl⟩
  · rintro ⟨j, w, hw, rfl⟩
    by_cases hj : j = i
    · subst hj
      obtain rfl : v = w := Option.some.inj (hv.symm.trans hw)
      exact ⟨j, v', Procs.set_vmms_self, hroot⟩
    · exact ⟨j, w, (Procs.set_vmms_of_ne hj).trans hw, rfl⟩

/-- The names of the processes after a step. -/
theorem distinct_set (h : Isolated kernelPml4 s)
    (hv : ∀ j w, s.vmms j = some w → j ≠ i → w.rootPagetable ≠ v'.rootPagetable) {a b : Nat}
    {x y : Vmm} (ha : (s.set i k' v').vmms a = some x) (hb : (s.set i k' v').vmms b = some y)
    (he : x.rootPagetable = y.rootPagetable) : a = b := by
  by_cases hai : a = i <;> by_cases hbi : b = i
  · rw [hai, hbi]
  · subst hai
    rw [Procs.set_vmms_self] at ha
    rw [Procs.set_vmms_of_ne hbi] at hb
    obtain rfl := Option.some.inj ha
    exact absurd he.symm (hv b y hb hbi)
  · subst hbi
    rw [Procs.set_vmms_self] at hb
    rw [Procs.set_vmms_of_ne hai] at ha
    obtain rfl := Option.some.inj hb
    exact absurd he (hv a x ha hai)
  · rw [Procs.set_vmms_of_ne hai] at ha
    rw [Procs.set_vmms_of_ne hbi] at hb
    exact h.distinct a b x y ha hb he

/-- **A confined step** of one process, which has the pages `P` for its records then. -/
theorem setRecords (h : Isolated kernelPml4 s) (hv : s.vmms i = some v)
    (hroot : v'.rootPagetable = v.rootPagetable) {P L : List Nat}
    (hsep : Separate k' kernelPml4 (fun p => ∃ j, p ∈ Function.update s.records i P j) s.Root)
    (hlist : AreaList k' v' (P.map physToVirt) L) (hown : OwnRecords (P.map physToVirt) s.k k')
    (hapart : ∀ j ≠ i, ∀ p ∈ P, p ∉ s.records j) :
    Isolated kernelPml4 { s.set i k' v' with records := Function.update s.records i P } := by
  have hroots : (s.set i k' v').Root = s.Root := root_set hv hroot
  have hP : Function.update s.records i P i = P := Function.update_self i P s.records
  have hother : ∀ j, j ≠ i → Function.update s.records i P j = s.records j := fun j hj =>
    Function.update_of_ne hj P s.records
  refine ⟨?_, fun a b x y ha hb he => ?_, fun j w hw => ?_, fun a b p ha hb => ?_, fun j hj => ?_⟩
  · rw [← hroots] at hsep
    exact hsep
  · change (s.set i k' v').vmms a = some x at ha
    change (s.set i k' v').vmms b = some y at hb
    exact h.distinct_set (fun j w hw hj he => h.root_ne hv hw hj (hroot ▸ he.symm)) ha hb he
  · change (s.set i k' v').vmms j = some w at hw
    change ∃ L, AreaList k' w ((Function.update s.records i P j).map physToVirt) L
    by_cases hj : j = i
    · subst hj
      rw [Procs.set_vmms_self] at hw
      obtain rfl := Option.some.inj hw
      rw [hP]
      exact ⟨L, hlist⟩
    · rw [Procs.set_vmms_of_ne hj] at hw
      rw [hother j hj]
      obtain ⟨M, hM⟩ := h.areas j w hw
      refine ⟨M, hM.other hown hlist.containers.aligned fun c hc hc' => ?_⟩
      obtain ⟨p, hp, rfl⟩ := List.mem_map.mp hc
      obtain ⟨q, hq, he⟩ := List.mem_map.mp hc'
      have hpq := physToVirt_inj (hsep.recordsRam q ⟨i, hP.symm ▸ hq⟩).lt
        (h.separate.recordsRam p ⟨j, hp⟩).lt he
      exact hapart j hj q hq (hpq ▸ hp)
  · change p ∈ Function.update s.records i P a at ha
    change p ∈ Function.update s.records i P b at hb
    by_cases hai : a = i <;> by_cases hbi : b = i
    · rw [hai, hbi]
    · rw [hai, hP] at ha
      rw [hother b hbi] at hb
      exact absurd hb (hapart b hbi p ha)
    · rw [hbi, hP] at hb
      rw [hother a hai] at ha
      exact absurd ha (hapart a hai p hb)
    · rw [hother a hai] at ha
      rw [hother b hbi] at hb
      exact h.recordsApart a b p ha hb
  · change (s.set i k' v').vmms j = none at hj
    change Function.update s.records i P j = []
    by_cases hji : j = i
    · subst hji
      rw [Procs.set_vmms_self] at hj
      exact absurd hj (by simp)
    · rw [Procs.set_vmms_of_ne hji] at hj
      rw [hother j hji]
      exact h.absent j hj

/-- **A confined step** that needs no page for its records. -/
theorem set (h : Isolated kernelPml4 s) (hv : s.vmms i = some v)
    (hc : Confined v.rootPagetable s.k k') (hroot : v'.rootPagetable = v.rootPagetable)
    {L : List Nat} (hlist : AreaList k' v' ((s.records i).map physToVirt) L)
    (hown : OwnRecords ((s.records i).map physToVirt) s.k k') :
    Isolated kernelPml4 (s.set i k' v') := by
  have hsame : Function.update s.records i (s.records i) = s.records :=
    Function.update_eq_self i s.records
  have hset := h.setRecords hv hroot (by rw [hsame]; exact h.separate.confined (root hv) hc) hlist
    hown fun j hj p hp hp' => hj (h.recordsApart j i p hp' hp)
  rw [hsame] at hset
  exact hset

/-- The other processes do not see it. -/
theorem translate_other (h : Isolated kernelPml4 s) (hv : s.vmms i = some v)
    (hc : Confined v.rootPagetable s.k k') (hj : j ≠ i) (hva : va < lowhalfEnd) :
    (s.set i k' v').translate j va = s.translate j va := by
  rw [Procs.translate_set_of_ne hj, Procs.translate]
  cases hw : s.vmms j with
  | none => rfl
  | some w =>
    have hsame := h.separate.sameTables (root hv) hc.toWithin (.inl (root hw)) (h.root_ne hv hw hj)
    rw [Option.bind_some, Option.bind_some]
    exact translate_congr (hsame.leafAt_va hva)

/-- **No byte of memory is under two addresses**, of one process or of two. -/
theorem inj (h : Isolated kernelPml4 s) {x y : Nat} (hx : x < lowhalfEnd) (hy : y < lowhalfEnd)
    {t t' : Translation} (ht : s.translate i x = some t) (ht' : s.translate j y = some t')
    (he : t.pa = t'.pa) : i = j ∧ x = y := by
  obtain ⟨v, hv, ht⟩ := Option.bind_eq_some_iff.mp ht
  obtain ⟨w, hw, ht'⟩ := Option.bind_eq_some_iff.mp ht'
  by_cases hij : i = j
  · subst hij
    obtain rfl : v = w := Option.some.inj (hv.symm.trans hw)
    exact ⟨rfl, (h.space hv).toBacked.inj hx hy ht ht' he⟩
  · obtain ⟨e, hl, hpa⟩ := (h.space hv).toBacked.leaf hx ht
    obtain ⟨e', hl', hpa'⟩ := (h.space hw).toBacked.leaf hy ht'
    have hm := frame_mod e
    have hm' := frame_mod e'
    have hframe : e.frame 0 = e'.frame 0 := by omega
    refine absurd (FrameOf.of_leaf hy hl') (hframe ▸ ?_)
    exact h.separate.frames _ _ (root hv) (root hw) (h.root_ne hv hw (Ne.symm hij)) _
      (.of_leaf hx hl)

/-- A step that moves no page is none for the memories. -/
theorem memory_set (h : Isolated kernelPml4 s) (hv : s.vmms i = some v)
    (hc : Confined v.rootPagetable s.k k')
    (hpa : ∀ x < lowhalfEnd, (Memory.translate k'.tables v'.rootPagetable x).map Translation.pa =
      (Memory.translate s.k.tables v.rootPagetable x).map Translation.pa) :
    (s.set i k' v').memory = s.memory := by
  refine Procs.memory_congr fun j x hx => ?_
  by_cases hj : j = i
  · subst hj
    rw [Procs.translate_set, Procs.translate_eq hv, Procs.set_data]
    have := congrArg (Option.map s.data) (hpa x hx)
    rwa [Option.map_map, Option.map_map] at this
  · rw [h.translate_other hv hc hj hx, Procs.set_data]

/-- **A new process** has nothing in its memory. -/
theorem create (h : Isolated kernelPml4 s) {user : Bool} {held : Nat → Entry}
    (hi : s.vmms i = none) (hheld : ∀ j < 256, (held j).present = false)
    (hstep : s.step kernelPml4 (.create i user held) = some s') :
    Isolated kernelPml4 s' ∧ s'.memory = s.memory := by
  unfold Procs.step at hstep
  simp only at hstep
  split at hstep
  next k₁ v hcreate =>
    obtain rfl := Option.some.inj hstep
    obtain ⟨page, free, hfree, -, rfl, hv⟩ := vmmCreate_eq hcreate
    have hfree' : s.k.free = page :: free := hfree
    have hroot : v.rootPagetable = physToVirt page := by
      rw [hv]
      exact vmmInit_rootPagetable _ _ _ _
    rw [Kmem.kalloc_cons hfree', hroot]
    obtain ⟨k', hk'⟩ : ∃ k', k' = ({ s.k with
        tables := Function.update s.k.tables (physToVirt page) held, free } : Kmem).mapHigherHalf
      kernelPml4 (physToVirt page) := ⟨_, rfl⟩
    have hn := mapHigherHalf_newRoot h.separate.kernel hfree' hheld hk'
    obtain ⟨hsep, hnot, hsame⟩ := h.separate.create hn
    have hs : SameRecords s.k k' := by
      have hhigh := mapHigherHalf_sameRecords { s.k with
        tables := Function.update s.k.tables (physToVirt page) held, free } kernelPml4
        (physToVirt page)
      rw [← hk'] at hhigh
      exact ⟨hhigh.areas, hhigh.containers⟩
    rw [← hk']
    have hother : ∀ j w, s.vmms j = some w → j ≠ i := by
      rintro j w hw rfl
      exact absurd (hi.symm.trans hw) (by simp)
    have hroots : (s.set i k' v).Root = fun r => r = physToVirt page ∨ s.Root r := by
      funext r
      refine propext ⟨?_, ?_⟩
      · rintro ⟨j, w, hw, rfl⟩
        by_cases hj : j = i
        · subst hj
          rw [Procs.set_vmms_self] at hw
          obtain rfl := Option.some.inj hw
          exact .inl hroot
        · rw [Procs.set_vmms_of_ne hj] at hw
          exact .inr (root hw)
      · rintro (he | ⟨j, w, hw, rfl⟩)
        · exact ⟨i, v, Procs.set_vmms_self, hroot.trans he.symm⟩
        · exact ⟨j, w, (Procs.set_vmms_of_ne (hother j w hw)).trans hw, rfl⟩
    have hnil := h.absent i hi
    refine ⟨⟨?_, fun a b x y ha hb he => h.distinct_set (fun j w hw hj he => ?_) ha hb he,
      fun j w hw => ?_, h.recordsApart, fun j hj => ?_⟩, Procs.memory_congr fun j x hx => ?_⟩
    · rw [hroots]
      exact hsep
    · exact hnot (hroot ▸ he ▸ root hw)
    · change ∃ L, AreaList k' w ((s.records j).map physToVirt) L
      by_cases hji : j = i
      · subst hji
        rw [Procs.set_vmms_self] at hw
        obtain rfl := Option.some.inj hw
        rw [hnil, hv]
        exact ⟨[], AreaList.init (by decide)⟩
      · rw [Procs.set_vmms_of_ne hji] at hw
        obtain ⟨L, hL⟩ := h.areas j w hw
        exact ⟨L, hL.congr (fun a _ => congrFun hs.areas a) fun c _ => congrFun hs.containers c⟩
    · by_cases hji : j = i
      · subst hji
        exact hnil
      · rw [Procs.set_vmms_of_ne hji] at hj
        exact h.absent j hj
    · by_cases hj : j = i
      · subst hj
        rw [Procs.translate_set, hroot, translate_none (hn.empty x hx), Procs.translate, hi]
        rfl
      · rw [Procs.translate_set_of_ne hj, Procs.translate, Procs.set_data]
        cases hw : s.vmms j with
        | none => rfl
        | some w =>
          rw [Option.bind_some, Option.bind_some,
            translate_congr ((hsame _ (root hw)).leafAt_va hx)]
  next =>
    obtain rfl := Option.some.inj hstep
    exact ⟨h, rfl⟩

/-- The next free page can hold records. -/
theorem freshContainer (h : Isolated kernelPml4 s) {page : Nat} {free : List Nat}
    (hfree : s.k.free = page :: free) : FreshContainer s.k ((s.records i).map physToVirt) page := by
  have hpage : page ∈ s.k.free := by rw [hfree]; exact List.mem_cons_self
  have hram := h.separate.ram page hpage
  refine ⟨⟨free, hfree⟩, hram.aligned, hram.mapped, fun hm => ?_⟩
  obtain ⟨p, hp, he⟩ := List.mem_map.mp hm
  have hrec : ∃ j, p ∈ s.records j := ⟨i, hp⟩
  have hpp := physToVirt_inj (h.separate.recordsRam p hrec).lt hram.lt he
  exact h.separate.recordsFree p hrec (hpp ▸ hpage)

/-- The pages that left the free list, when those before are known. -/
theorem filter_taken {l l' : List Nat} (hnodup : (l' ++ l).Nodup) :
    (l' ++ l).filter (fun p => decide (p ∉ l)) = l' := by
  rw [List.filter_append]
  have hdisj := (List.nodup_append.mp hnodup).2.2
  have h₁ : l'.filter (fun p => decide (p ∉ l)) = l' :=
    List.filter_eq_self.mpr fun p hp => decide_eq_true fun hm => hdisj p hp p hm rfl
  have h₂ : l.filter (fun p => decide (p ∉ l)) = [] :=
    List.filter_eq_nil_iff.mpr fun p hp => by simp [hp]
  rw [h₁, h₂, List.append_nil]

/-- **An allocation** may take a page for a container. -/
theorem alloc (h : Isolated kernelPml4 s) {base sz : Nat} {flags : BitVec 8}
    (hp : s.Promised (.alloc i base sz flags))
    (hstep : s.step kernelPml4 (.alloc i base sz flags) = some s') :
    Isolated kernelPml4 s' ∧ s'.memory = s.memory := by
  unfold Procs.step at hstep
  obtain ⟨v, hv, hstep⟩ := Option.bind_eq_some_iff.mp hstep
  obtain ⟨⟨k', v', a⟩, hrun, rfl⟩ := Option.map_eq_some_iff.mp hstep
  obtain ⟨hwrap, hneeds⟩ := hp v hv
  obtain ⟨hc, hroot, ht⟩ := vmmAllocAt_confined (h.space hv) hrun
  obtain ⟨L, hL⟩ := h.areas i v hv
  obtain ⟨page, hpage⟩ : ∃ page, NeedsContainer v →
      FreshContainer s.k ((s.records i).map physToVirt) page := by
    cases hf : s.k.free with
    | nil => exact ⟨0, fun hn => absurd hf (hneeds hn)⟩
    | cons page free => exact ⟨page, fun _ => h.freshContainer hf⟩
  have hown := hL.linked.alloc_own hpage hrun
  obtain ⟨P, hP⟩ : ∃ P, P = s.records i ++ s.k.free.filter fun p => decide (p ∉ k'.free) :=
    ⟨_, rfl⟩
  have hmem : (s.set i k' v').memory = s.memory :=
    h.memory_set hv hc fun x _ => by rw [ht, hroot]
  -- the list after it, with the pages that were taken
  have hlist : ∃ M, AreaList k' v' (P.map physToVirt) M ∧
      OwnRecords (P.map physToVirt) s.k k' := by
    rcases hL.linked.alloc hpage hrun with ⟨rfl, rfl, -⟩ | ⟨hl, -, -, hfree⟩
    · have hnil : s.k.free.filter (fun p => decide (p ∉ s.k.free)) = [] :=
        List.filter_eq_nil_iff.mpr fun p hp => by simp [hp]
      rw [hnil, List.append_nil] at hP
      exact ⟨L, hP ▸ hL, (SameRecords.refl s.k).own⟩
    · have hnodup := h.separate.kernel.nodup
      rw [hfree] at hnodup hP
      rw [filter_taken hnodup] at hP
      have hgrown : grownContainers v ((s.records i).map physToVirt) page = P.map physToVirt := by
        rw [hP]
        unfold grownContainers
        by_cases hn : NeedsContainer v
        · rw [if_pos hn, if_pos hn, List.map_append, List.map_singleton]
        · rw [if_neg hn, if_neg hn, List.append_nil]
      rw [hgrown] at hown
      rcases hL.alloc hwrap hpage hrun with ⟨-, -, rfl⟩ | ⟨hnew, -⟩
      · exact absurd (List.mem_append_right L List.mem_cons_self) hl.zero_notMem
      · rw [hgrown] at hnew
        exact ⟨L ++ [a], hnew, hown⟩
  obtain ⟨M, hM, hownP⟩ := hlist
  have hother : ∀ j, j ≠ i → Function.update s.records i P j = s.records j := fun j hj =>
    Function.update_of_ne hj P s.records
  have htaken : ∀ p ∈ P, (p ∈ s.k.free ∧ p ∉ k'.free) ∨ p ∈ s.records i := by
    intro p hp
    rw [hP] at hp
    rcases List.mem_append.mp hp with hp | hp
    · exact .inr hp
    · obtain ⟨hm, hn⟩ := List.mem_filter.mp hp
      exact .inl ⟨hm, of_decide_eq_true hn⟩
  change Isolated kernelPml4 { s.set i k' v' with
    records := Function.update s.records i
      (s.records i ++ s.k.free.filter fun p => decide (p ∉ k'.free)) } ∧ _
  rw [← hP]
  refine ⟨h.setRecords hv hroot (h.separate.record (root hv) hc ht fun p hp => ?_) hM hownP
    fun j hj p hp hp' => ?_, hmem⟩
  · obtain ⟨j, hj⟩ := hp
    by_cases hji : j = i
    · subst hji
      rw [Function.update_self] at hj
      exact (htaken p hj).imp id fun hm => ⟨j, hm⟩
    · rw [hother j hji] at hj
      exact .inr ⟨j, hj⟩
  · rcases htaken p hp with ⟨hm, -⟩ | hm
    · exact h.separate.recordsFree p ⟨j, hp'⟩ hm
    · exact hj (h.recordsApart j i p hp' hm)

theorem protect (h : Isolated kernelPml4 s) {area : Nat} {flags : BitVec 8}
    (hlow : s.k.areaLast area < lowhalfEnd)
    (hstep : s.step kernelPml4 (.protect i area flags) = some s') :
    Isolated kernelPml4 s' ∧ s'.memory = s.memory := by
  unfold Procs.step at hstep
  obtain ⟨v, hv, hstep⟩ := Option.bind_eq_some_iff.mp hstep
  obtain ⟨⟨k', b⟩, hrun, rfl⟩ := Option.map_eq_some_iff.mp hstep
  obtain ⟨hc, hpa⟩ := updateAreaAccess_confined (h.space hv) hlow hrun
  have hown := updateAreaAccess_own hrun
  obtain ⟨L, hL⟩ := h.areas i v hv
  have hL' := hL.other hown (by simp) (by simp)
  exact ⟨h.set hv hc rfl hL' (hown.mono (by simp)), h.memory_set hv hc hpa⟩

/-- **An access** that faults gives its page what the first free page holds. -/
theorem touch (h : Isolated kernelPml4 s) (hva : va < lowhalfEnd)
    (hfree : s.translate i va = none → s.k.free ≠ []) (hstep : s.touch i va = some s') :
    Isolated kernelPml4 s' ∧ Private.Step s.memory (.touch i va) s'.memory := by
  unfold Procs.touch at hstep
  cases hv : s.vmms i with
  | none => simp [hv] at hstep
  | some v =>
    rw [hv] at hstep
    simp only at hstep
    cases ht : Memory.translate s.k.tables v.rootPagetable va with
    | some t =>
      rw [ht] at hstep
      obtain rfl := Option.some.inj hstep
      refine ⟨h, .mapped s.memory i va ?_⟩
      rw [Procs.memory_of_lt hva, Procs.translate_eq hv, ht]
      simp
    | none =>
      rw [ht] at hstep
      simp only at hstep
      split at hstep
      next k' hrun =>
        obtain rfl := Option.some.inj hstep
        have hne := hfree (by rw [Procs.translate_eq hv, ht])
        obtain ⟨p, ps, hps⟩ := List.exists_cons_of_ne_nil hne
        have hc := onDemandAllocation_confined (h.space hv) hva hne hrun
        obtain ⟨-, hnew, hold⟩ := (h.space hv).toBacked.fault hva hps hrun
        have hnone : s.memory i va = none := by
          rw [Procs.memory_of_lt hva, Procs.translate_eq hv, ht]
          rfl
        have hmem : (s.set i k' v).memory = fun j x =>
            if j = i ∧ pageStart x = pageStart va then some (s.data (p + x % 4096))
            else s.memory j x := by
          funext j x
          by_cases hx : x < lowhalfEnd
          · rw [Procs.memory_of_lt hx, Procs.set_data]
            by_cases hj : j = i
            · subst hj
              rw [Procs.translate_set]
              by_cases hp : pageStart x = pageStart va
              · have := congrArg (Option.map s.data) (hnew x hx hp)
                rw [if_pos ⟨rfl, hp⟩]
                rwa [Option.map_map] at this
              · rw [if_neg fun he => hp he.2, hold x hx hp, Procs.memory_of_lt hx,
                  Procs.translate_eq hv]
            · rw [if_neg fun he => hj he.1, h.translate_other hv hc hj hx, Procs.memory_of_lt hx]
          · have hpage : pageStart x ≠ pageStart va := by
              intro he
              have hm := pageStart_mod va
              have h₁ := (pageStart_eq_iff hm).mp he
              have h₂ := pageStart_le va
              have h₃ : lowhalfEnd = 2 ^ 47 := rfl
              omega
            rw [Procs.memory_of_not_lt hx, if_neg fun he => hpage he.2, Procs.memory_of_not_lt hx]
        obtain ⟨L, hL⟩ := h.areas i v hv
        have hs := onDemandAllocation_sameRecords hrun
        have hL' := hL.congr (fun a _ => congrFun hs.areas a) fun c _ => congrFun hs.containers c
        rw [hmem]
        exact ⟨h.set hv hc rfl hL' hs.own, .fault s.memory i va _ hnone⟩
      next => exact absurd hstep (by simp)

/-- **A store** changes the byte of its address, and no other of any process. -/
theorem store (h : Isolated kernelPml4 s) (hva : va < lowhalfEnd) {t : Translation} (b : BitVec 8)
    (ht : s.translate i va = some t) :
    Isolated kernelPml4 { s with data := Function.update s.data t.pa b } ∧
      ({ s with data := Function.update s.data t.pa b } : Procs).memory =
        Function.update s.memory i (Function.update (s.memory i) va (some b)) := by
  refine ⟨⟨h.separate, h.distinct, h.areas, h.recordsApart, h.absent⟩, ?_⟩
  obtain ⟨s₁, hs₁⟩ : ∃ s₁ : Procs, s₁ = { s with data := Function.update s.data t.pa b } := ⟨_, rfl⟩
  have htr : ∀ j x, s₁.translate j x = s.translate j x := fun j x => hs₁ ▸ rfl
  have hdata : s₁.data = Function.update s.data t.pa b := hs₁ ▸ rfl
  rw [← hs₁]
  funext j x
  by_cases hx : x < lowhalfEnd
  · rw [Procs.memory_of_lt hx, htr, hdata]
    by_cases hjx : j = i ∧ x = va
    · obtain ⟨rfl, rfl⟩ := hjx
      rw [ht, Option.map_some, Function.update_self, Function.update_self, Function.update_self]
    · have hold : Function.update s.memory i (Function.update (s.memory i) va (some b)) j x =
          s.memory j x := by
        by_cases hj : j = i
        · subst hj
          rw [Function.update_self, Function.update_of_ne fun e => hjx ⟨rfl, e⟩]
        · rw [Function.update_of_ne hj]
      rw [hold, Procs.memory_of_lt hx]
      cases ht' : s.translate j x with
      | none => rfl
      | some t' =>
        have hne : t'.pa ≠ t.pa := fun e => hjx (h.inj hx hva ht' ht e)
        rw [Option.map_some, Option.map_some, Function.update_of_ne hne]
  · have hxva : x ≠ va := fun e => hx (e ▸ hva)
    rw [Procs.memory_of_not_lt hx]
    by_cases hj : j = i
    · subst hj
      rw [Function.update_self, Function.update_of_ne hxva, Procs.memory_of_not_lt hx]
    · rw [Function.update_of_ne hj, Procs.memory_of_not_lt hx]

/-- **An area that is freed** leaves the memory of its process. -/
theorem free (h : Isolated kernelPml4 s) {area : Nat}
    (hp : s.Promised (.free i area)) (hstep : s.step kernelPml4 (.free i area) = some s') :
    Isolated kernelPml4 s' ∧ Private.Step s.memory (.drop i (AreaPages s.k area)) s'.memory := by
  unfold Procs.step at hstep
  obtain ⟨v, hv, hstep⟩ := Option.bind_eq_some_iff.mp hstep
  obtain ⟨⟨k', v', b⟩, hrun, rfl⟩ := Option.map_eq_some_iff.mp hstep
  obtain ⟨hlisted, hlow, hheld⟩ := hp v hv
  obtain ⟨hc, hroot, htr⟩ := vmmFreeArea_confined (h.space hv) hlow hheld hrun
  obtain ⟨L, hL⟩ := h.areas i v hv
  have hmem := hL.linked.mem_of_listed hlisted
  have hown := hL.linked.free_own hmem hrun
  obtain ⟨L₁, L₂, rfl⟩ := List.append_of_mem hmem
  obtain ⟨k₂, v₂, hrun', hL'⟩ := hL.free
  obtain ⟨rfl, rfl, rfl⟩ : k₂ = k' ∧ v₂ = v' ∧ true = b := by simpa [hrun'] using hrun
  refine ⟨h.set hv hc hroot hL' hown, ?_⟩
  have hmemory : (s.set i k₂ v₂).memory = fun j x =>
      if j = i ∧ AreaPages s.k area x then none else s.memory j x := by
    funext j x
    by_cases hx : x < lowhalfEnd
    · rw [Procs.memory_of_lt hx, Procs.set_data]
      by_cases hj : j = i
      · subst hj
        rw [Procs.translate_set, hroot, htr x hx]
        by_cases hpg : AreaPages s.k area x
        · rw [if_pos ⟨rfl, hpg⟩, if_pos ⟨rfl, hpg⟩]
          rfl
        · rw [if_neg fun he => hpg he.2, if_neg fun he => hpg he.2, Procs.memory_of_lt hx,
            Procs.translate_eq hv]
      · rw [if_neg fun he => hj he.1, h.translate_other hv hc hj hx, Procs.memory_of_lt hx]
    · rw [Procs.memory_of_not_lt hx, Procs.memory_of_not_lt hx, ite_self]
  rw [hmemory]
  exact .drop s.memory i _

theorem root_remove (h : Isolated kernelPml4 s) (hv : s.vmms i = some v) {r : Nat}
    (hr : (s.remove i k').Root r) : s.Root r ∧ v.rootPagetable ≠ r := by
  obtain ⟨j, w, hw, rfl⟩ := hr
  obtain ⟨hj, hw⟩ := Procs.of_remove hw
  exact ⟨root hw, h.root_ne hv hw hj⟩

/-- **The rest of the system** is sound without the process, if its page tables are. -/
theorem remove (h : Isolated kernelPml4 s)
    (hsep : Separate k' kernelPml4 (fun p => ∃ j, p ∈ (s.remove i k').records j)
      (s.remove i k').Root) (hs : SameRecords s.k k') : Isolated kernelPml4 (s.remove i k') := by
  refine ⟨hsep, fun a b x y ha hb he => ?_, fun j w hw => ?_, fun a b p ha hb => ?_,
    fun j hj => ?_⟩
  · exact h.distinct a b x y (Procs.of_remove ha).2 (Procs.of_remove hb).2 he
  · obtain ⟨hj, hw⟩ := Procs.of_remove hw
    obtain ⟨L, hL⟩ := h.areas j w hw
    rw [Procs.remove_records_of_ne hj]
    exact ⟨L, hL.congr (fun a _ => congrFun hs.areas a) fun c _ => congrFun hs.containers c⟩
  · exact h.recordsApart a b p (Procs.of_mem_remove ha).2 (Procs.of_mem_remove hb).2
  · by_cases hji : j = i
    · rw [hji, Procs.remove_records_self]
    · rw [Procs.remove_vmms_of_ne hji] at hj
      rw [Procs.remove_records_of_ne hji]
      exact h.absent j hj

/-- The other processes do not see that it ends. -/
theorem memory_remove (h : Isolated kernelPml4 s) (hv : s.vmms i = some v) {k₁ : Kmem}
    (hc : Confined v.rootPagetable s.k k₁) (ht : k'.tables = k₁.tables) :
    (s.remove i k').memory = fun j x => if j = i ∧ True then none else s.memory j x := by
  funext j x
  by_cases hx : x < lowhalfEnd
  · rw [Procs.memory_of_lt hx, Procs.translate]
    by_cases hj : j = i
    · subst hj
      rw [if_pos ⟨rfl, trivial⟩, Procs.remove_vmms_self]
      rfl
    · rw [if_neg fun he => hj he.1, Procs.memory_of_lt hx, Procs.translate,
        Procs.remove_vmms_of_ne hj, Procs.remove_k, Procs.remove_data, ht]
      cases hw : s.vmms j with
      | none => rfl
      | some w =>
        have hsame := h.separate.sameTables (root hv) hc.toWithin (.inl (root hw))
          (h.root_ne hv hw hj)
        rw [Option.bind_some, Option.bind_some]
        exact congrArg _ (translate_congr (hsame.leafAt_va hx))
  · rw [Procs.memory_of_not_lt hx, Procs.memory_of_not_lt hx, ite_self]

/-- What was not the process's own stays apart when its root table `page` and the pages of its records
are given back. -/
theorem separate_remove (h : Isolated kernelPml4 s) (hv : s.vmms i = some v) {k₁ : Kmem}
    (hc : Confined v.rootPagetable s.k k₁) {page : Nat} (hpage : RamPage page)
    (hroot : v.rootPagetable = physToVirt page) (hnodup : (s.records i).Nodup)
    (hnot : ∀ p, (∃ j, p ∈ s.records j) → p ≠ page) (ht : k'.tables = k₁.tables)
    (hf : k'.free = (page :: (s.records i).reverse) ++ k₁.free) :
    Separate k' kernelPml4 (fun p => ∃ j, p ∈ (s.remove i k').records j) (s.remove i k').Root := by
  have hsep := h.separate.confined (root hv) hc
  have hrec : ∀ p ∈ s.records i, ∃ j, p ∈ s.records j := fun p hp => ⟨i, hp⟩
  have hself : LowTable k₁ v.rootPagetable (physToVirt page) := hroot ▸ .self
  have hroots : ∀ r, (s.remove i k').Root r → s.Root r ∧ v.rootPagetable ≠ r :=
    fun r hr => h.root_remove hv hr
  have hother : ∀ r, (s.remove i k').Root r ∨ r = kernelPml4 →
      (s.Root r ∨ r = kernelPml4) ∧ v.rootPagetable ≠ r := by
    rintro r (hr | rfl)
    · exact ⟨.inl (hroots r hr).1, (hroots r hr).2⟩
    · exact ⟨.inr rfl, h.separate.notKernel _ (root hv)⟩
  have hpages : (page :: (s.records i).reverse).Nodup := by
    refine List.nodup_cons.mpr ⟨fun hm => ?_, List.nodup_reverse.mpr hnodup⟩
    exact hnot page (hrec page (List.mem_reverse.mp hm)) rfl
  have hcases : ∀ {Q : Nat → Prop}, Q page → (∀ p ∈ s.records i, Q p) →
      ∀ p ∈ page :: (s.records i).reverse, Q p := by
    intro Q hq hr p hm
    rcases List.mem_cons.mp hm with rfl | hm
    · exact hq
    · exact hr p (List.mem_reverse.mp hm)
  refine hsep.release (fun r hr => (hroots r hr).1) (fun p hp => ?_) hpages
    (hcases hpage fun p hp => h.separate.recordsRam p (hrec p hp))
    (hcases (fun hm => ?_) fun p hp => hsep.recordsFree p (hrec p hp))
    (hcases (fun r hr hf => ?_) fun p hp r hr => hsep.recordsFrame p r (hrec p hp) (hroots r hr).1)
    (hcases (fun r hr => ?_) fun p hp r hr => hsep.recordsTable p r (hrec p hp) (hother r hr).1)
    (hcases (fun hp => ?_) fun p hp hp' => ?_) ht hf
  · obtain ⟨j, hp⟩ := hp
    exact ⟨j, (Procs.of_mem_remove hp).2⟩
  · obtain ⟨q, hq, hd⟩ := hself.tableOf
    exact hc.space.ready.fresh page hm q hq hd
  · exact hsep.frameTables r v.rootPagetable (hroots r hr).1 (.inl (root hv))
      (hroots r hr).2.symm page hf hself.tableOf
  · exact hsep.tables v.rootPagetable r (root hv) (hother r hr).1 (hother r hr).2 _ hself
  · obtain ⟨j, hp⟩ := hp
    exact hnot page ⟨j, (Procs.of_mem_remove hp).2⟩ rfl
  · obtain ⟨j, hp'⟩ := hp'
    obtain ⟨hj, hp'⟩ := Procs.of_mem_remove hp'
    exact hj (h.recordsApart j i p hp' hp)

/-- **A process that ends** gives back its pages, all but its tables, and has no memory. -/
theorem exit (h : Isolated kernelPml4 s) (hp : s.Promised (.exit i))
    (hstep : s.step kernelPml4 (.exit i) = some s') :
    Isolated kernelPml4 s' ∧ Private.Step s.memory (.drop i fun _ => True) s'.memory := by
  unfold Procs.step at hstep
  obtain ⟨v, hv, hstep⟩ := Option.bind_eq_some_iff.mp hstep
  obtain ⟨k', hrun, rfl⟩ := Option.map_eq_some_iff.mp hstep
  obtain ⟨hwhole, hlast⟩ := hp v hv
  obtain ⟨L, hL⟩ := h.areas i v hv
  obtain ⟨page, hpage, hroot⟩ := h.separate.rootRam _ (root hv)
  have hrec : ∀ p ∈ s.records i, ∃ j, p ∈ s.records j := fun p hp => ⟨i, hp⟩
  have hself : TableOf s.k v.rootPagetable (physToVirt page) := hroot ▸ .self
  have hnot : ∀ p, (∃ j, p ∈ s.records j) → p ≠ page := by
    rintro p hp rfl
    exact h.separate.recordsTable p _ hp (.inl (root hv)) hself
  obtain ⟨k₁, hc, hs, he⟩ := vmmDestroy_eq hL (h.space hv)
    (fun a ha => hwhole a (hL.linked.listed_of_mem ha)) hlast
    (fun p hp => h.separate.recordsRam p (hrec p hp)) hpage hroot
    (fun p hp => ⟨h.separate.recordsPage (root hv) (hrec p hp), hnot p (hrec p hp)⟩) hrun
  have ht : k'.tables = k₁.tables := by rw [he]
  have hf : k'.free = (page :: (s.records i).reverse) ++ k₁.free := by rw [he, List.cons_append]
  have hsep := h.separate_remove hv hc hpage hroot hL.containers.nodup.of_map hnot ht hf
  have hs' : SameRecords s.k k' := ⟨by rw [he, hs.areas], by rw [he, hs.containers]⟩
  refine ⟨h.remove hsep hs', ?_⟩
  rw [h.memory_remove hv hc ht]
  exact .drop s.memory i fun _ => True

/-- **Every step** keeps the page tables separate and is one of private memories. -/
theorem step (h : Isolated kernelPml4 s) {a : ProcsAction} (hp : s.Promised a)
    (hstep : s.step kernelPml4 a = some s') :
    Isolated kernelPml4 s' ∧ Private.Step s.memory (s.effect a) s'.memory := by
  cases a with
  | create i user held =>
    obtain ⟨h', hm⟩ := h.create hp.1 hp.2 hstep
    exact ⟨h', hm ▸ .idle s'.memory⟩
  | alloc i base sz flags =>
    obtain ⟨h', hm⟩ := h.alloc hp hstep
    exact ⟨h', hm ▸ .idle s'.memory⟩
  | protect i area flags =>
    obtain ⟨h', hm⟩ := h.protect hp hstep
    exact ⟨h', hm ▸ .idle s'.memory⟩
  | touch i va => exact h.touch hp.1 hp.2 hstep
  | store i va b =>
    unfold Procs.step at hstep
    obtain ⟨s₁, hs₁, hstep⟩ := Option.bind_eq_some_iff.mp hstep
    obtain ⟨t, ht, rfl⟩ := Option.map_eq_some_iff.mp hstep
    obtain ⟨h₁, htouch⟩ := h.touch hp.1 hp.2 hs₁
    obtain ⟨h₂, hm⟩ := h₁.store hp.1 b ht
    exact ⟨h₂, hm ▸ .store s.memory s₁.memory i va b htouch⟩
  | free i area => exact h.free hp hstep
  | exit i => exact h.exit hp hstep
  | other data =>
    obtain rfl := Option.some.inj hstep
    have hm : ({ s with data } : Procs).memory = s.memory := Procs.memory_congr fun j x hx => by
      change (s.translate j x).map (fun t => data t.pa) = _
      cases ht : s.translate j x with
      | none => rfl
      | some t => rw [Option.map_some, Option.map_some, hp j x hx t ht]
    exact ⟨⟨h.separate, h.distinct, h.areas, h.recordsApart, h.absent⟩, hm ▸ .idle s.memory⟩

end Isolated

end

/-! ## Runs -/

/-- **The start**: the kernel has its page table, and there is no process. -/
structure Procs.Start (kernelPml4 : Nat) (s : Procs) : Prop where
  kernel : Ready s.k kernelPml4
  ram : ∀ p ∈ s.k.free, RamPage p
  vmms : ∀ i, s.vmms i = none
  records : ∀ i, s.records i = []

section

variable {kernelPml4 : Nat} {s₀ s s' : Procs} {a : ProcsAction}

theorem Procs.Start.isolated (h : s.Start kernelPml4) : Isolated kernelPml4 s := by
  have hvmm : ∀ i v, s.vmms i ≠ some v := fun i v hv => by simp [h.vmms i] at hv
  have hroot : ∀ r, ¬ s.Root r := by
    rintro r ⟨i, v, hv, -⟩
    exact hvmm i v hv
  have hrec : ∀ i p, p ∉ s.records i := fun i p hp => by simp [h.records i] at hp
  have hrec' : ∀ p, ¬ ∃ i, p ∈ s.records i := by
    rintro p ⟨i, hp⟩
    exact hrec i p hp
  exact
    { separate :=
        { kernel := h.kernel
          space := fun r hr => absurd hr (hroot r)
          notKernel := fun r hr => absurd hr (hroot r)
          tables := fun r _ hr => absurd hr (hroot r)
          frames := fun r _ hr => absurd hr (hroot r)
          frameTables := fun r _ hr => absurd hr (hroot r)
          ram := h.ram
          frameRam := fun r _ hr => absurd hr (hroot r)
          rootRam := fun r hr => absurd hr (hroot r)
          recordsRam := fun p hp => absurd hp (hrec' p)
          recordsFree := fun p hp => absurd hp (hrec' p)
          recordsFrame := fun p _ hp => absurd hp (hrec' p)
          recordsTable := fun p _ hp => absurd hp (hrec' p) }
      distinct := fun i _ v _ hv => absurd hv (hvmm i v)
      areas := fun i v hv => absurd hv (hvmm i v)
      recordsApart := fun i _ p hp => absurd hp (hrec i p)
      absent := fun i _ => h.records i }

theorem Isolated.of_run (h₀ : s₀.Start kernelPml4)
    (hr : Run (Procs.step kernelPml4) Procs.Promised s₀ s) : Isolated kernelPml4 s :=
  Run.invariant (Isolated kernelPml4) h₀.isolated (fun _ _ _ h hp hstep => (h.step hp hstep).1) hr

/-- **The processes are isolated**: in every run, each step is one of private memories, and the memory
of every process but the one that acts is as before. -/
theorem process_isolation (h₀ : s₀.Start kernelPml4)
    (hr : Run (Procs.step kernelPml4) Procs.Promised s₀ s) (hp : s.Promised a)
    (hstep : s.step kernelPml4 a = some s') :
    Private.Step s.memory (s.effect a) s'.memory ∧
      ∀ j, (s.effect a).process ≠ some j → s'.memory j = s.memory j := by
  obtain ⟨-, hprivate⟩ := (Isolated.of_run h₀ hr).step hp hstep
  exact ⟨hprivate, fun j hj => hprivate.other hj⟩

/-- **What holds in every state of a run**: no byte is under two addresses, of one process or of two; a
page that is mapped is not free, holds no area records and is no page table; the area lists of all
processes are sound. -/
theorem processes_apart (h₀ : s₀.Start kernelPml4)
    (hr : Run (Procs.step kernelPml4) Procs.Promised s₀ s) :
    (∀ i j, ∀ x < lowhalfEnd, ∀ y < lowhalfEnd, ∀ t t', s.translate i x = some t →
      s.translate j y = some t' → t.pa = t'.pa → i = j ∧ x = y) ∧
    (∀ i, ∀ x < lowhalfEnd, ∀ t, s.translate i x = some t →
      pageStart t.pa ∉ s.k.free ∧ (∀ j, pageStart t.pa ∉ s.records j) ∧
      ∀ r, s.Root r ∨ r = kernelPml4 → ¬ TableOf s.k r (physToVirt (pageStart t.pa))) ∧
    ∀ i v, s.vmms i = some v → ∃ L, WellListed s.k v ((s.records i).map physToVirt) L := by
  have h := Isolated.of_run h₀ hr
  refine ⟨fun i j x hx y hy t t' ht ht' he => h.inj hx hy ht ht' he, fun i x hx t ht => ?_,
    fun i v hv => ?_⟩
  · obtain ⟨v, hv, ht⟩ := Option.bind_eq_some_iff.mp ht
    obtain ⟨e, hl, hpa⟩ := (h.space hv).toBacked.leaf hx ht
    have hpage : pageStart t.pa = e.frame 0 := by
      have hm := frame_mod e
      exact (pageStart_eq_iff hm).mpr (by omega)
    have hframe : FrameOf s.k v.rootPagetable (e.frame 0) := .of_leaf hx hl
    rw [hpage]
    refine ⟨(h.space hv).notFree x hx e hl, fun j hj => ?_, fun r hr => ?_⟩
    · exact h.separate.recordsFrame _ _ ⟨j, hj⟩ (Isolated.root hv) hframe
    · by_cases hne : v.rootPagetable = r
      · exact hne ▸ (h.space hv).noTable _ hframe
      · exact h.separate.frameTables _ r (Isolated.root hv) hr hne _ hframe
  · obtain ⟨L, hL⟩ := h.areas i v hv
    exact ⟨L, hL.wellListed⟩

end

/-! ## Two processes -/

/-- A kernel with seven free pages. -/
def sevenStart : Procs := ⟨sevenPages, fun _ => none, fun _ => 0, fun _ => []⟩

theorem sevenStart_start : sevenStart.Start 0x9000 where
  kernel := sevenPages_ready
  ram := fun p hp => by
    simp only [sevenStart, sevenPages, List.mem_cons, List.not_mem_nil, or_false] at hp
    rcases hp with rfl | rfl | rfl | rfl | rfl | rfl | rfl <;> exact ⟨by decide, by decide, by decide⟩
  vmms := fun _ => rfl
  records := fun _ => rfl

/-- Two processes are created; the first allocates a page and writes to it. What the promises of the
steps ask for, and what the two read there in the end. -/
def storeOne : Option (Bool × List (List Nat) × List (Option (BitVec 8))) :=
  (sevenStart.step 0x9000 (.create 1 true fun _ => ⟨0⟩)).bind fun s₁ =>
  (s₁.step 0x9000 (.create 2 true fun _ => ⟨0⟩)).bind fun s₂ =>
  (s₂.step 0x9000 (.alloc 1 0x400000 1 1)).bind fun s₃ =>
  (s₃.step 0x9000 (.store 1 0x400010 0x42)).map fun s₄ =>
    ((s₁.vmms 2).isNone && (s₂.vmms 1).all fun v => decide (NoWrap v 0x400000 1),
      [s₂.k.free, s₃.k.free],
      [s₃.memory 1 0x400010, s₄.memory 1 0x400010, s₄.memory 2 0x400010])

theorem storeOne_eq : storeOne = some (true,
    [[0x4000, 0x5000, 0x6000, 0x7000, 0x8000], [0x5000, 0x6000, 0x7000, 0x8000]],
    [none, some 0x42, none]) := by decide +kernel

theorem exists_storeOne : ∃ s s',
    Run (Procs.step 0x9000) Procs.Promised sevenStart s ∧
    s.Promised (.store 1 0x400010 0x42) ∧ s.step 0x9000 (.store 1 0x400010 0x42) = some s' ∧
    s.memory 1 0x400010 = none ∧ s'.memory 1 0x400010 = some 0x42 ∧ s'.memory 2 0x400010 = none := by
  have h := storeOne_eq
  unfold storeOne at h
  obtain ⟨s₁, hs₁, h⟩ := Option.bind_eq_some_iff.mp h
  obtain ⟨s₂, hs₂, h⟩ := Option.bind_eq_some_iff.mp h
  obtain ⟨s₃, hs₃, h⟩ := Option.bind_eq_some_iff.mp h
  obtain ⟨s₄, hs₄, h⟩ := Option.map_eq_some_iff.mp h
  simp only [Prod.mk.injEq, List.cons.injEq, and_true, Bool.and_eq_true] at h
  obtain ⟨⟨hnone, hwrap⟩, ⟨hfree₂, hfree₃⟩, hm₃, hm₄, hm₄'⟩ := h
  have h₁ : Run (Procs.step 0x9000) Procs.Promised sevenStart s₁ :=
    .step (.create 1 true fun _ => ⟨0⟩) .init ⟨rfl, fun _ _ => Entry.present_zero⟩ hs₁
  have h₂ : Run (Procs.step 0x9000) Procs.Promised sevenStart s₂ :=
    .step (.create 2 true fun _ => ⟨0⟩) h₁
      ⟨Option.isNone_iff_eq_none.mp hnone, fun _ _ => Entry.present_zero⟩ hs₂
  have h₃ : Run (Procs.step 0x9000) Procs.Promised sevenStart s₃ := by
    refine .step (.alloc 1 0x400000 1 1) h₂ (fun v hv => ⟨?_, fun _ => by simp [hfree₂]⟩) hs₃
    simpa only [hv, Option.all_some, decide_eq_true_eq] using hwrap
  exact ⟨s₃, s₄, h₃, ⟨by decide, fun _ => by simp [hfree₃]⟩, hs₄, hm₃, hm₄, hm₄'⟩

/-- The second process does not see the store of the first. -/
theorem process_isolation_store : ∃ s s' : Procs, s.memory 1 0x400010 = none ∧
    s'.memory 1 0x400010 = some 0x42 ∧ s'.memory 2 0x400010 = none ∧
    Private.Step s.memory (.store 1 0x400010 0x42) s'.memory ∧ s'.memory 2 = s.memory 2 := by
  obtain ⟨s, s', hr, hp, hstep, hm, hm', hm₂⟩ := exists_storeOne
  obtain ⟨hprivate, hsame⟩ := process_isolation sevenStart_start hr hp hstep
  exact ⟨s, s', hm, hm', hm₂, hprivate, hsame 2 (by simp [Procs.effect, PrivateAction.process])⟩

/-- The page that the store takes is under one address only, and not free. -/
theorem processes_apart_store : ∃ s' : Procs, s'.memory 1 0x400010 = some 0x42 ∧
    (∃ t, s'.translate 1 0x400010 = some t ∧ pageStart t.pa ∉ s'.k.free ∧
      ∀ j, ∀ y < lowhalfEnd, ∀ t', s'.translate j y = some t' → t.pa = t'.pa →
        1 = j ∧ 0x400010 = y) := by
  obtain ⟨s, s', hr, hp, hstep, -, hm, -⟩ := exists_storeOne
  obtain ⟨hinj, hpage, -⟩ := processes_apart sevenStart_start (hr.step _ hp hstep)
  have hva : 0x400010 < lowhalfEnd := by decide
  refine ⟨s', hm, ?_⟩
  rw [Procs.memory_of_lt hva] at hm
  obtain ⟨t, ht, -⟩ := Option.map_eq_some_iff.mp hm
  exact ⟨t, ht, (hpage 1 _ hva t ht).1, fun j y hy t' ht' he => hinj 1 j _ hva y hy t t' ht ht' he⟩

end Colibri.Memory
