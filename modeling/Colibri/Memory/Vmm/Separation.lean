import Colibri.Memory.Vmm.Confinement

/-!
# Page tables that share nothing below

`Separate`: what is under the root of one process, tables and pages, is under no other root, is not
free and holds no area records. A confined change keeps this (`Separate.confined`), and so do a new
root table (`Separate.create`) and the pages that a process leaves behind (`Separate.release`).
-/

namespace Colibri.Memory

open Colibri.Lib

/-- A page of the memory that is mapped at `PHYSICAL_OFFSET`. -/
structure RamPage (p : Nat) : Prop where
  aligned : p % 4096 = 0
  pos : 0 < p
  mapped : p + physicalOffset + 4096 ≤ u64Size

theorem RamPage.lt {p : Nat} (h : RamPage p) : p < 2 ^ 51 := by
  have hm := h.mapped
  rw [u64Size_eq, show physicalOffset = 18446742424442109952 from rfl] at hm
  omega

theorem RamPage.virtToPhys {p : Nat} (h : RamPage p) : virtToPhys (physToVirt p) = p := by
  have hm := h.mapped
  have hpos : 0 < physicalOffset := by decide
  rw [Memory.virtToPhys, physToVirt, u64Add_eq (by omega), u64Sub_eq (by omega) (by omega)]
  omega

/-- The roots of processes are those in `roots`. `records` are the pages that hold area records. -/
structure Separate (k : Kmem) (kernelPml4 : Nat) (records roots : Nat → Prop) : Prop where
  kernel : Ready k kernelPml4
  space : ∀ r, roots r → LowSpace k r
  notKernel : ∀ r, roots r → r ≠ kernelPml4
  tables : ∀ r s, roots r → roots s ∨ s = kernelPml4 → r ≠ s →
    ∀ t, LowTable k r t → ¬ TableOf k s t
  frames : ∀ r s, roots r → roots s → r ≠ s → ∀ f, FrameOf k r f → ¬ FrameOf k s f
  frameTables : ∀ r s, roots r → roots s ∨ s = kernelPml4 → r ≠ s →
    ∀ f, FrameOf k r f → ¬ TableOf k s (physToVirt f)
  ram : ∀ p ∈ k.free, RamPage p
  frameRam : ∀ r f, roots r → FrameOf k r f → RamPage f
  rootRam : ∀ r, roots r → ∃ p, RamPage p ∧ r = physToVirt p
  recordsRam : ∀ p, records p → RamPage p
  recordsFree : ∀ p, records p → p ∉ k.free
  recordsFrame : ∀ p r, records p → roots r → ¬ FrameOf k r p
  recordsTable : ∀ p s, records p → roots s ∨ s = kernelPml4 → ¬ TableOf k s (physToVirt p)

section

variable {k k' : Kmem} {kernelPml4 r s : Nat} {records roots : Nat → Prop}

namespace Separate

theorem ready (h : Separate k kernelPml4 records roots) (hs : roots s ∨ s = kernelPml4) :
    Ready k s := by
  rcases hs with hs | rfl
  · exact (h.space s hs).ready
  · exact h.kernel

/-- No other root has the tables of the footprint. -/
theorem outside (h : Separate k kernelPml4 records roots) (hr : roots r)
    (hs : roots s ∨ s = kernelPml4) (hne : r ≠ s) {t : Nat} (ht : Footprint k r t) :
    ¬ TableOf k s t := by
  rcases ht with ht | ⟨p, hp, he⟩
  · exact h.tables r s hr hs hne t ht
  · rw [he]
    rcases hp with hp | hp
    · exact fun ⟨q, hq, hd⟩ => (h.ready hs).fresh p hp q hq hd
    · exact h.frameTables r s hr hs hne p hp

/-- No other process has the pages of the footprint. -/
theorem pageOutside (h : Separate k kernelPml4 records roots) (hr : roots r) (hs : roots s)
    (hne : r ≠ s) {p : Nat} (hp : PageOf k r p) : ¬ FrameOf k s p := by
  rcases hp with hp | hp
  · rintro ⟨va, hva, e, hl, rfl⟩
    exact (h.space s hs).notFree va hva e hl hp
  · exact h.frames r s hr hs hne p hp

theorem sameTables (h : Separate k kernelPml4 records roots) (hr : roots r)
    (hc : Within r k k') (hs : roots s ∨ s = kernelPml4) (hne : r ≠ s) : SameTables k k' s :=
  fun t ht => hc.tables t fun hf => h.outside hr hs hne hf ht

theorem recordsPage (h : Separate k kernelPml4 records roots) (hr : roots r) {p : Nat}
    (hp : records p) : ¬ PageOf k r p := by
  rintro (hm | hf)
  · exact h.recordsFree p hp hm
  · exact h.recordsFrame p r hp hr hf

/-! What is under the roots after a change that is confined to `r`. -/

theorem tableOf_confined (h : Separate k kernelPml4 records roots) (hr : roots r)
    (hc : Within r k k') (hs : roots s ∨ s = kernelPml4) {t : Nat} (ht : TableOf k' s t) :
    TableOf k s t ∨ (r = s ∧ ∃ p, PageOf k r p ∧ t = physToVirt p) := by
  by_cases hrs : r = s
  · subst hrs
    exact (hc.tableOf ht).imp id fun hp => ⟨rfl, hp⟩
  · exact .inl ((h.sameTables hr hc hs hrs).tableOf.mp ht)

theorem lowTable_confined (h : Separate k kernelPml4 records roots) (hr : roots r)
    (hc : Within r k k') (hs : roots s) {t : Nat} (ht : LowTable k' s t) :
    (r ≠ s ∧ LowTable k s t) ∨ (r = s ∧ Footprint k r t) := by
  by_cases hrs : r = s
  · subst hrs
    exact .inr ⟨rfl, hc.lowTable ht⟩
  · exact .inl ⟨hrs, (h.sameTables hr hc (.inl hs) hrs).lowTable.mp ht⟩

theorem frameOf_confined (h : Separate k kernelPml4 records roots) (hr : roots r)
    (hc : Within r k k') (hs : roots s) {f : Nat} (hf : FrameOf k' s f) :
    (r ≠ s ∧ FrameOf k s f) ∨ (r = s ∧ PageOf k r f) := by
  by_cases hrs : r = s
  · subst hrs
    exact .inr ⟨rfl, hc.pages f (.inr hf)⟩
  · exact .inl ⟨hrs, (h.sameTables hr hc (.inl hs) hrs).frameOf.mp hf⟩

theorem ready_confined (h : Separate k kernelPml4 records roots) (hr : roots r)
    (hc : Confined r k k') (hs : roots s ∨ s = kernelPml4) : Ready k' s := by
  by_cases hrs : r = s
  · exact hrs ▸ hc.space.ready
  · exact (h.ready hs).sameTables (h.sameTables hr hc.toWithin hs hrs) hc.space.ready
      List.suffix_rfl fun p hp => h.outside hr hs hrs (.inr ⟨p, hc.pages p (.inl hp), rfl⟩)

/-- **The frame rule**: what is confined to one process keeps them apart. -/
theorem confined (h : Separate k kernelPml4 records roots) (hr : roots r)
    (hc : Confined r k k') : Separate k' kernelPml4 records roots := by
  have hram : ∀ p, PageOf k r p → RamPage p := fun p hp => hp.elim (h.ram p) (h.frameRam r p hr)
  refine ⟨h.ready_confined hr hc (.inr rfl), fun s hs => ?_, h.notKernel,
    fun s s' hs hs' hne t ht ht' => ?_, fun s s' hs hs' hne f hf hf' => ?_,
    fun s s' hs hs' hne f hf ht' => ?_, fun p hp => hram p (hc.pages p (.inl hp)),
    fun s f hs hf => ?_, h.rootRam, h.recordsRam,
    fun p hp hm => h.recordsPage hr hp (hc.pages p (.inl hm)), fun p s hp hs hf => ?_,
    fun p s hp hs ht => ?_⟩
  · by_cases hrs : r = s
    · exact hrs ▸ hc.space
    · exact (h.space s hs).sameTables (h.sameTables hr hc.toWithin (.inl hs) hrs)
        (h.ready_confined hr hc (.inl hs)) fun p hp => h.pageOutside hr hs hrs
          (hc.pages p (.inl hp))
  · -- a low table of `s` that is one of `s'`
    rcases h.lowTable_confined hr hc.toWithin hs ht with ⟨hrs, ht⟩ | ⟨rfl, hft⟩
    · rcases h.tableOf_confined hr hc.toWithin hs' ht' with ht' | ⟨rfl, hp⟩
      · exact h.tables s s' hs hs' hne t ht ht'
      · exact h.outside hr (.inl hs) hrs (.inr hp) ht.tableOf
    · rcases h.tableOf_confined hr hc.toWithin hs' ht' with ht' | ⟨rfl, -⟩
      · exact h.outside hr hs' hne hft ht'
      · exact hne rfl
  · -- a page of `s` that is one of `s'`
    rcases h.frameOf_confined hr hc.toWithin hs hf with ⟨hrs, hf⟩ | ⟨rfl, hp⟩
    · rcases h.frameOf_confined hr hc.toWithin hs' hf' with ⟨-, hf'⟩ | ⟨rfl, hp⟩
      · exact h.frames s s' hs hs' hne f hf hf'
      · exact h.pageOutside hr hs hrs hp hf
    · rcases h.frameOf_confined hr hc.toWithin hs' hf' with ⟨-, hf'⟩ | ⟨rfl, -⟩
      · exact h.pageOutside hr hs' hne hp hf'
      · exact hne rfl
  · -- a page of `s` that is a table of `s'`
    rcases h.frameOf_confined hr hc.toWithin hs hf with ⟨hrs, hf⟩ | ⟨rfl, hp⟩
    · rcases h.tableOf_confined hr hc.toWithin hs' ht' with ht' | ⟨rfl, p, hp, he⟩
      · exact h.frameTables s s' hs hs' hne f hf ht'
      · have hfp := physToVirt_inj ((h.space s hs).frame_lt f hf) ((h.space r hr).pageOf_lt hp) he
        exact h.pageOutside hr hs hrs (hfp ▸ hp) hf
    · rcases h.tableOf_confined hr hc.toWithin hs' ht' with ht' | ⟨rfl, -⟩
      · exact h.outside hr hs' hne (.inr ⟨f, hp, rfl⟩) ht'
      · exact hne rfl
  · rcases h.frameOf_confined hr hc.toWithin hs hf with ⟨-, hf⟩ | ⟨-, hp⟩
    · exact h.frameRam s f hs hf
    · exact hram f hp
  · rcases h.frameOf_confined hr hc.toWithin hs hf with ⟨-, hf⟩ | ⟨-, hpage⟩
    · exact h.recordsFrame p s hp hs hf
    · exact h.recordsPage hr hp hpage
  · rcases h.tableOf_confined hr hc.toWithin hs ht with ht | ⟨rfl, q, hq, he⟩
    · exact h.recordsTable p s hp hs ht
    · have hpq := physToVirt_inj (h.recordsRam p hp).lt ((h.space r hr).pageOf_lt hq) he
      exact h.recordsPage hr hp (hpq ▸ hq)

/-- The pages that left the free list, the tables being the same, may hold records. -/
theorem record (h : Separate k kernelPml4 records roots) (hr : roots r) (hc : Confined r k k')
    (ht : k'.tables = k.tables) {records' : Nat → Prop}
    (hrec : ∀ p, records' p → (p ∈ k.free ∧ p ∉ k'.free) ∨ records p) :
    Separate k' kernelPml4 records' roots := by
  have h' := h.confined hr hc
  have htable : ∀ {s t}, TableOf k' s t → TableOf k s t := by
    rintro s t ⟨q, hq, hd⟩
    exact ⟨q, hq, ht ▸ hd⟩
  have hframe : ∀ {s f}, FrameOf k' s f → FrameOf k s f := by
    rintro s f ⟨va, hva, e, hl, hf⟩
    exact ⟨va, hva, e, ht ▸ hl, hf⟩
  refine ⟨h'.kernel, h'.space, h'.notKernel, h'.tables, h'.frames, h'.frameTables, h'.ram,
    h'.frameRam, h'.rootRam, fun p hp => ?_, fun p hp => ?_, fun p s hp hs hf => ?_,
    fun p s hp hs hts => ?_⟩
  · rcases hrec p hp with ⟨hm, -⟩ | hp
    · exact h.ram p hm
    · exact h.recordsRam p hp
  · rcases hrec p hp with ⟨-, hn⟩ | hp
    · exact hn
    · exact h'.recordsFree p hp
  · rcases hrec p hp with ⟨hm, -⟩ | hp
    · obtain ⟨va, hva, e, hl, rfl⟩ := hframe hf
      exact (h.space s hs).notFree va hva e hl hm
    · exact h'.recordsFrame p s hp hs hf
  · rcases hrec p hp with ⟨hm, -⟩ | hp
    · obtain ⟨q, hq, hd⟩ := htable hts
      exact (h.ready hs).fresh p hm q hq hd
    · exact h'.recordsTable p s hp hs hts

/-- **A new root table** is one more process with nothing below. -/
theorem create (h : Separate k kernelPml4 records roots) {page : Nat}
    (hn : NewRoot k k' kernelPml4 page) :
    Separate k' kernelPml4 records (fun s => s = physToVirt page ∨ roots s) ∧
      ¬ roots (physToVirt page) ∧ ∀ s, roots s → SameTables k k' s := by
  have hpage : page ∈ k.free := by rw [hn.free]; exact List.mem_cons_self
  have hsuf : k'.free <:+ k.free := by
    rw [hn.free]
    exact List.suffix_cons page k'.free
  have hfresh : ∀ s, roots s ∨ s = kernelPml4 → ¬ TableOf k s (physToVirt page) :=
    fun s hs ⟨q, hq, hd⟩ => (h.ready hs).fresh page hpage q hq hd
  have hsame : ∀ s, roots s ∨ s = kernelPml4 → SameTables k k' s := fun s hs t ht =>
    hn.same t fun e => hfresh s hs (e ▸ ht)
  have hnoFrame := hn.noFrame
  have hready : ∀ s, roots s ∨ s = kernelPml4 → Ready k' s := fun s hs =>
    (h.ready hs).sameTables (hsame s hs) h.kernel hsuf fun p hp ⟨q, hq, hd⟩ =>
      (h.ready hs).fresh p (hsuf.subset hp) q hq hd
  -- a page of the others is not the new root
  have hpageEq : ∀ p, RamPage p → physToVirt p = physToVirt page → p = page := fun p hp he =>
    physToVirt_inj hp.lt (h.ram page hpage).lt he
  obtain ⟨root, hroot⟩ : ∃ root, root = physToVirt page := ⟨_, rfl⟩
  have hlow := hn.low
  have htable := hn.tables
  have hspace := hn.space
  rw [← hroot] at hfresh hnoFrame hpageEq hlow htable hspace ⊢
  -- what is under a root afterwards
  have hlowTable : ∀ s t, s = root ∨ roots s → LowTable k' s t →
      (roots s ∧ LowTable k s t) ∨ (s = root ∧ t = root) := by
    rintro s t (rfl | hs) ht
    · exact .inr ⟨rfl, hlow t ht⟩
    · exact .inl ⟨hs, (hsame s (.inl hs)).lowTable.mp ht⟩
  have htableOf : ∀ s t, (s = root ∨ roots s) ∨ s = kernelPml4 → TableOf k' s t →
      ((roots s ∨ s = kernelPml4) ∧ TableOf k s t) ∨
        (s = root ∧ (t = root ∨ TableOf k kernelPml4 t)) := by
    rintro s t ((rfl | hs) | hs) ht
    · exact .inr ⟨rfl, htable t ht⟩
    · exact .inl ⟨.inl hs, (hsame s (.inl hs)).tableOf.mp ht⟩
    · exact .inl ⟨.inr hs, (hsame s (.inr hs)).tableOf.mp ht⟩
  have hframeOf : ∀ s f, s = root ∨ roots s → FrameOf k' s f → roots s ∧ FrameOf k s f := by
    rintro s f (rfl | hs) hf
    · exact absurd hf (hnoFrame f)
    · exact ⟨hs, (hsame s (.inl hs)).frameOf.mp hf⟩
  have hnotFree : ∀ s f, roots s → FrameOf k s f → f ∉ k.free := by
    rintro s f hs ⟨va, hva, e, hl, rfl⟩
    exact (h.space s hs).notFree va hva e hl
  refine ⟨⟨hready _ (.inr rfl), fun s hs => ?_, fun s hs => ?_, fun s s' hs hs' hss t ht ht' => ?_,
    fun s s' hs hs' hss f hf hf' => ?_, fun s s' hs hs' hss f hf ht' => ?_,
    fun p hp => h.ram p (hsuf.subset hp), fun s f hs hf => ?_, fun s hs => ?_, h.recordsRam,
    fun p hp hm => h.recordsFree p hp (hsuf.subset hm), fun p s hp hs hf => ?_,
    fun p s hp hs ht => ?_⟩, fun hr => hfresh root (.inl hr) .self, fun s hs => hsame s (.inl hs)⟩
  · rcases hs with rfl | hs
    · exact hspace
    · exact (h.space s hs).sameTables (hsame s (.inl hs)) (hready s (.inl hs)) fun p hp hf =>
        hnotFree s p hs hf (hsuf.subset hp)
  · rcases hs with rfl | hs
    · exact fun e => hfresh kernelPml4 (.inr rfl) (e ▸ .self)
    · exact h.notKernel s hs
  · rcases hlowTable s t hs ht with ⟨hold, hlt⟩ | ⟨hsr, htr⟩
    · rcases htableOf s' t hs' ht' with ⟨hold', htt⟩ | ⟨-, rfl | htk⟩
      · exact h.tables s s' hold hold' hss t hlt htt
      · exact hfresh s (.inl hold) hlt.tableOf
      · exact h.tables s kernelPml4 hold (.inr rfl) (h.notKernel s hold) t hlt htk
    · rcases htableOf s' t hs' ht' with ⟨hold', htt⟩ | ⟨hsr', -⟩
      · exact hfresh s' hold' (htr ▸ htt)
      · exact hss (hsr.trans hsr'.symm)
  · obtain ⟨hold, hff⟩ := hframeOf s f hs hf
    obtain ⟨hold', hff'⟩ := hframeOf s' f hs' hf'
    exact h.frames s s' hold hold' hss f hff hff'
  · obtain ⟨hold, hff⟩ := hframeOf s f hs hf
    rcases htableOf s' _ hs' ht' with ⟨hold', htt⟩ | ⟨-, he | htk⟩
    · exact h.frameTables s s' hold hold' hss f hff htt
    · exact hnotFree s f hold hff (hpageEq f (h.frameRam s f hold hff) he ▸ hpage)
    · exact h.frameTables s kernelPml4 hold (.inr rfl) (h.notKernel s hold) f hff htk
  · obtain ⟨hold, hff⟩ := hframeOf s f hs hf
    exact h.frameRam s f hold hff
  · rcases hs with rfl | hs
    · exact ⟨page, h.ram page hpage, hroot⟩
    · exact h.rootRam s hs
  · obtain ⟨hold, hff⟩ := hframeOf s p hs hf
    exact h.recordsFrame p s hp hold hff
  · rcases htableOf s _ hs ht with ⟨hold, htt⟩ | ⟨-, he | htk⟩
    · exact h.recordsTable p s hp hold htt
    · exact h.recordsFree p hp (hpageEq p (h.recordsRam p hp) he ▸ hpage)
    · exact h.recordsTable p kernelPml4 hp (.inr rfl) htk

/-- **Pages that are given back**: the processes `roots'` and the records `records'` are left, and none
of them has one of the pages. -/
theorem release (h : Separate k kernelPml4 records roots) {records' roots' : Nat → Prop}
    (hroots : ∀ s, roots' s → roots s) (hrecords : ∀ p, records' p → records p) {pages : List Nat}
    (hnodup : pages.Nodup) (hram : ∀ p ∈ pages, RamPage p) (hnew : ∀ p ∈ pages, p ∉ k.free)
    (hframe : ∀ p ∈ pages, ∀ s, roots' s → ¬ FrameOf k s p)
    (htable : ∀ p ∈ pages, ∀ s, roots' s ∨ s = kernelPml4 → ¬ TableOf k s (physToVirt p))
    (hrecord : ∀ p ∈ pages, ¬ records' p) (ht : k'.tables = k.tables)
    (hfree : k'.free = pages ++ k.free) : Separate k' kernelPml4 records' roots' := by
  have hroots' : ∀ {s}, roots' s ∨ s = kernelPml4 → roots s ∨ s = kernelPml4 :=
    fun hs => hs.imp (hroots _) id
  have hmem : ∀ {Q : Nat → Prop}, (∀ p ∈ pages, Q p) → (∀ p ∈ k.free, Q p) → ∀ p ∈ k'.free, Q p := by
    intro Q hp hf p hm
    rw [hfree] at hm
    rcases List.mem_append.mp hm with hm | hm
    · exact hp p hm
    · exact hf p hm
  have hsame : ∀ s, SameTables k k' s := fun s t _ => congrFun ht t
  have hramFree : ∀ p ∈ k'.free, RamPage p := hmem hram h.ram
  have hready : ∀ s, roots' s ∨ s = kernelPml4 → Ready k' s := fun s hs =>
    { tree := ht ▸ (h.ready (hroots' hs)).tree
      nodup := by
        rw [hfree, List.nodup_append]
        exact ⟨hnodup, h.kernel.nodup, fun a ha b hb e => hnew a ha (e ▸ hb)⟩
      aligned := fun p hp => (hramFree p hp).aligned
      pos := fun p hp => (hramFree p hp).pos
      lt := fun p hp => (hramFree p hp).lt
      fresh := by
        refine hmem (fun p hp q hq hd => htable p hp s hs ⟨q, hq, ht ▸ hd⟩) fun p hp => ?_
        rw [ht]
        exact (h.ready (hroots' hs)).fresh p hp }
  refine ⟨hready _ (.inr rfl), fun s hs => ?_, fun s hs => h.notKernel s (hroots s hs),
    fun s s' hs hs' hne t htl => ?_, fun s s' hs hs' hne f hf => ?_, fun s s' hs hs' hne f hf => ?_,
    hramFree, fun s f hs hf => ?_, fun s hs => h.rootRam s (hroots s hs),
    fun p hp => h.recordsRam p (hrecords p hp), fun p hp => ?_, fun p s hp hs => ?_,
    fun p s hp hs => ?_⟩
  · refine (h.space s (hroots s hs)).sameTables (hsame s) (hready s (.inl hs)) (hmem (fun p hp =>
      hframe p hp s hs) fun p hp hf => ?_)
    obtain ⟨va, hva, e, hl, rfl⟩ := hf
    exact (h.space s (hroots s hs)).notFree va hva e hl hp
  · rw [(hsame s').tableOf]
    exact h.tables s s' (hroots s hs) (hroots' hs') hne t ((hsame s).lowTable.mp htl)
  · rw [(hsame s').frameOf]
    exact h.frames s s' (hroots s hs) (hroots s' hs') hne f ((hsame s).frameOf.mp hf)
  · rw [(hsame s').tableOf]
    exact h.frameTables s s' (hroots s hs) (hroots' hs') hne f ((hsame s).frameOf.mp hf)
  · exact h.frameRam s f (hroots s hs) ((hsame s).frameOf.mp hf)
  · rw [hfree, List.mem_append, not_or]
    exact ⟨fun hm => hrecord p hm hp, h.recordsFree p (hrecords p hp)⟩
  · rw [(hsame s).frameOf]
    exact h.recordsFrame p s (hrecords p hp) (hroots s hs)
  · rw [(hsame s).tableOf]
    exact h.recordsTable p s (hrecords p hp) (hroots' hs)

end Separate

/-! ## `vmm_destroy` -/

/-- **What `vmm_destroy` gives back** beside the pages of the areas: the pages `P` of the containers,
and the root. -/
theorem vmmDestroy_eq {v : Vmm} {P L : List Nat} {page : Nat}
    (hL : AreaList k v (P.map physToVirt) L) (h : LowSpace k v.rootPagetable)
    (hwhole : ∀ a ∈ L, Whole k v.rootPagetable a)
    (hlast : v.currentContainer ≠ 0 → k.containerNext v.currentContainer = 0)
    (hram : ∀ p ∈ P, RamPage p) (hpage : RamPage page)
    (hroot : v.rootPagetable = physToVirt page)
    (hP : ∀ p ∈ P, ¬ PageOf k v.rootPagetable p ∧ p ≠ page)
    (hrun : k.vmmDestroy v = some k') :
    ∃ k₁, Confined v.rootPagetable k k₁ ∧ SameRecords k k₁ ∧
      k' = { k₁ with free := page :: (P.reverse ++ k₁.free) } := by
  unfold Kmem.vmmDestroy at hrun
  obtain ⟨k₁, hk₁, hrun⟩ := Option.bind_eq_some_iff.mp hrun
  obtain ⟨k₂, hk₂, hrun⟩ := Option.bind_eq_some_iff.mp hrun
  obtain rfl : k₂.kfree (virtToPhys v.rootPagetable) = k' := Option.some.inj hrun
  rw [hL.linked.first_eq] at hk₁
  obtain ⟨hc, hs⟩ := destroyAreas_confined L [] u64Size hL h rfl hwhole hk₁
  have hfree : ∀ p ∈ P, p ∉ k₁.free := fun p hp hm => (hP p hp).1 (hc.pages p (.inl hm))
  have hvirt : (P.map physToVirt).map virtToPhys = P := by
    rw [List.map_map]
    exact (List.map_congr_left fun p hp => (hram p hp).virtToPhys).trans (List.map_id P)
  have hcont := hL.containers
  have hchain : List.IsChain (fun a b => k₁.containerNext a = b) (P.map physToVirt) := by
    rw [hs.containers]
    exact hcont.chain
  have hnodup : P.Nodup := hcont.nodup.of_map
  have hconts := destroyContainers_spec (P.map physToVirt) k₁ u64Size hcont.length_lt hchain
    (fun c hcm => ⟨Nat.ne_of_gt (hcont.pos c hcm), ?_⟩) (by rw [hvirt]; exact hnodup)
    (by rw [hvirt]; exact hfree) fun hne => ?_
  · rw [hvirt] at hconts
    rw [hcont.root, hconts] at hk₂
    obtain rfl := Option.some.inj hk₂
    have hnotFree : page ∉ P.reverse ++ k₁.free := by
      rw [List.mem_append, List.mem_reverse, not_or]
      refine ⟨fun hm => (hP page hm).2 rfl, fun hm => ?_⟩
      exact hc.space.ready.fresh page hm [] LowPath.nil.1 (congrArg some hroot)
    refine ⟨k₁, hc, hs, ?_⟩
    rw [hroot, hpage.virtToPhys, Kmem.kfree, pageStart_of_aligned hpage.aligned, if_neg hnotFree]
  · obtain ⟨p, hp, rfl⟩ := List.mem_map.mp hcm
    rw [(hram p hp).virtToPhys, pageStart_of_aligned (hram p hp).aligned]
  · rw [hs.containers, ← hcont.current]
    exact hlast fun h0 => hne (hcont.eq_nil_iff.mp h0)

end

end Colibri.Memory
