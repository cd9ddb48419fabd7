import Colibri.Scheduler.Cfs

/-!
# `uptime` (`kernel/arch/x86-64/timer/hpet.c`)

`uptime` scales the HPET's main counter by its period, in femtoseconds, and divides by `1e6`. The
product is a `u64`. It wraps once the counter has run for 2 ^ 64 femtoseconds, which is about five
hours, and `uptime` starts again from 0.

The division is exact here. The source makes it in `double`.

## Results

* `uptime_eq_iff`: a single value is the scaled counter if and only if the product does not wrap.
* `clockRuns_iff`: over a sequence of readings, `uptime` and the differences that `update` of
  `cfs.c` takes are right if and only if no product wraps.
-/

namespace Colibri.Timer

open Colibri.Lib Colibri.Scheduler

/-- The femtoseconds in a unit of `uptime`, `1e6`. -/
def femtoPerTick : Nat := 1000000

/-- `uptime`, when `poll_hpet` reads `counter`. -/
def uptime (hpetPeriod counter : Nat) : Nat := u64Mul counter hpetPeriod / femtoPerTick

/-- `uptime` is right over the readings of the main counter: it does not decrease, it is the scaled
counter, and between two successive readings `update` adds the time that has passed. -/
structure ClockRuns (hpetPeriod : Nat) (readings : List Nat) : Prop where
  sorted : (readings.map (uptime hpetPeriod)).Pairwise (· ≤ ·)
  exact : ∀ c ∈ readings, uptime hpetPeriod c = c * hpetPeriod / femtoPerTick
  update : ∀ p ∈ readings.zip readings.tail, ∀ th : Thread,
    th.execStartTime = uptime hpetPeriod p.1 →
      th.execStartTime ≤ uptime hpetPeriod p.2 ∧
        System.updateEntity (uptime hpetPeriod p.2) th =
          th.setVruntime (u64Add th.vruntime
            (System.weightDelta th (uptime hpetPeriod p.2 - th.execStartTime)))

variable {period c c' : Nat} {readings : List Nat}

/-- **A single value of `uptime`** is the scaled counter if and only if the product does not wrap. -/
theorem uptime_eq_iff : uptime period c = c * period / femtoPerTick ↔ c * period < u64Size := by
  have hpos := u64Size_eq
  rw [uptime, femtoPerTick]
  constructor
  · intro h
    by_contra hwrap
    have hlt : u64Mul c period < u64Size := Nat.mod_lt _ u64Size_pos
    have hdiv : c * period = u64Mul c period + u64Size * (c * period / u64Size) :=
      (Nat.mod_add_div _ _).symm
    have hone : 1 ≤ c * period / u64Size := (Nat.one_le_div_iff u64Size_pos).mpr (Nat.le_of_not_lt hwrap)
    have hle : u64Size ≤ u64Size * (c * period / u64Size) := Nat.le_mul_of_pos_right _ hone
    omega
  · intro h
    rw [u64Mul_eq h]

/-- Where products do not wrap, `uptime` follows the counter. -/
theorem uptime_mono (hc : c ≤ c') (h : c' * period < u64Size) : uptime period c ≤ uptime period c' := by
  have hmul : c * period ≤ c' * period := Nat.mul_le_mul_right _ hc
  rw [uptime_eq_iff.mpr h, uptime_eq_iff.mpr (Nat.lt_of_le_of_lt hmul h)]
  exact Nat.div_le_div_right hmul

theorem uptime_lt (period c : Nat) : uptime period c < u64Size :=
  Nat.lt_of_le_of_lt (Nat.div_le_self _ _) (Nat.mod_lt _ u64Size_pos)

/-- An entity that started to run at an earlier uptime is charged the difference. -/
theorem updateEntity_of_le {th : Thread} {now : Nat} (h : th.execStartTime ≤ now)
    (hnow : now < u64Size) :
    System.updateEntity now th =
      th.setVruntime (u64Add th.vruntime (System.weightDelta th (now - th.execStartTime))) := by
  rw [System.updateEntity, u64Sub_eq h hnow]

/-- Successive members of a sorted list are in order, and are members. -/
theorem le_of_mem_zip_tail (h : readings.Pairwise (· ≤ ·)) {p : Nat × Nat}
    (hp : p ∈ readings.zip readings.tail) : p.1 ≤ p.2 ∧ p.2 ∈ readings := by
  induction readings with
  | nil => exact absurd hp (by simp)
  | cons a l ih =>
    cases l with
    | nil => exact absurd hp (by simp)
    | cons b l =>
      obtain ⟨hab, hl⟩ := List.pairwise_cons.mp h
      rcases List.mem_cons.mp hp with rfl | hp
      · exact ⟨hab b List.mem_cons_self, by simp⟩
      · obtain ⟨hle, hmem⟩ := ih hl hp
        exact ⟨hle, List.mem_cons_of_mem _ hmem⟩

/-- **`uptime` is a clock as long as the product does not wrap**, and no longer. -/
theorem clockRuns_iff (hsorted : readings.Pairwise (· ≤ ·)) :
    ClockRuns period readings ↔ ∀ c ∈ readings, c * period < u64Size := by
  constructor
  · intro h c hc
    exact uptime_eq_iff.mp (h.exact c hc)
  · intro h
    refine ⟨?_, fun c hc => uptime_eq_iff.mpr (h c hc), fun p hp th hth => ?_⟩
    · refine List.pairwise_map.mpr (hsorted.imp_of_mem fun _ hb hab => uptime_mono hab (h _ hb))
    · obtain ⟨hle, hmem⟩ := le_of_mem_zip_tail hsorted hp
      have hup := uptime_mono hle (h _ hmem)
      rw [← hth] at hup
      exact ⟨hup, updateEntity_of_le hup (uptime_lt period p.2)⟩

/-- Five hours and some minutes at 100 MHz. -/
theorem clockRuns_iff_five_hours : ClockRuns 10000000 [0, 360000000000, 1844674407370] :=
  (clockRuns_iff (by decide)).mpr (by decide)

/-- One count later `uptime` is 0 again. -/
theorem uptime_wraps : ¬∀ period readings, period < 2 ^ 32 → (∀ c ∈ readings, c < u64Size) →
    readings.Pairwise (· ≤ ·) → ClockRuns period readings := by
  intro h
  have hruns := h 10000000 [1844674407370, 1844674407371] (by decide) (by decide) (by decide)
  have hle : (18446744073700 : Nat) ≤ 0 := by
    have hsorted := hruns.sorted
    have h₁ : uptime 10000000 1844674407370 = 18446744073700 := by decide
    have h₂ : uptime 10000000 1844674407371 = 0 := by decide
    rw [List.map_cons, List.map_cons, List.map_nil, h₁, h₂] at hsorted
    exact List.rel_of_pairwise_cons hsorted (by simp)
  exact absurd hle (by decide)

end Colibri.Timer
