/-
The times of the notes of a file follow their musical order.

A bar takes `fpb` frames, and the `barpm` bars of a minute take no more than the frames of
a minute; what the division cuts off is a pause after the last bar of each minute.  So a
bar starts no earlier than the bar before it ends, across the minutes too, and each note of
a bar lies within its `fpb` frames.  Within a bar the times are the integer parts of
numbers in the order of the notes.
-/
import Ksi.Proofs.Resource
import Mathlib.Algebra.Order.Field.Rat
import Mathlib.Data.Prod.Lex
import Mathlib.Tactic.Linarith
import Mathlib.Tactic.Ring

namespace Ksi.Resource

open Ksi.RBTree

/-- Where a note is in the music: its bar, and its part of the bar. -/
def Fields.position (f : Fields) : ℤ ×ₗ ℚ :=
  toLex (f.bar.toInt, (f.num.toInt : ℚ) / f.div.toInt)

/-- The note is in one of the bars, before its end. -/
structure Fields.InBar (f : Fields) : Prop where
  bar : 0 ≤ f.bar.toInt
  div : 1 ≤ f.div.toInt
  num : 0 ≤ f.num.toInt
  before : f.num.toInt < f.div.toInt

variable {framesPerSecond : Int} {barpm : Int16} {f g : Fields}

/-! ### The bars -/

/-- The time at which a bar starts. -/
def barStart (framesPerSecond : Int) (barpm : Int16) (b : Int) : Int :=
  b / barpm.toInt * (framesPerSecond * 60) + b % barpm.toInt * fpb framesPerSecond barpm

theorem fpb_nonneg (hfps : 0 < framesPerSecond) (hbarpm : 1 ≤ barpm.toInt) :
    0 ≤ fpb framesPerSecond barpm :=
  Int.tdiv_nonneg (by omega) (by omega)

/-- The bars of a minute fit in it. -/
theorem mul_fpb_le (hfps : 0 < framesPerSecond) (hbarpm : 1 ≤ barpm.toInt) :
    barpm.toInt * fpb framesPerSecond barpm ≤ framesPerSecond * 60 := by
  unfold fpb
  rw [Int.tdiv_eq_ediv_of_nonneg (by omega)]
  exact Int.mul_ediv_self_le (by omega)

/-- A later bar starts no earlier than a bar ends. -/
theorem barStart_add_fpb_le (hfps : 0 < framesPerSecond) (hbarpm : 1 ≤ barpm.toInt) {b c : Int}
    (hlt : b < c) :
    barStart framesPerSecond barpm b + fpb framesPerSecond barpm ≤
      barStart framesPerSecond barpm c := by
  have hfpb := fpb_nonneg hfps hbarpm
  have hminute := mul_fpb_le hfps hbarpm
  have hb := Int.mul_ediv_add_emod b barpm.toInt
  have hc := Int.mul_ediv_add_emod c barpm.toInt
  have hb' : b % barpm.toInt < barpm.toInt := Int.emod_lt_of_pos b (by omega)
  have hc' : 0 ≤ c % barpm.toInt := Int.emod_nonneg c (by omega)
  have hquot : b / barpm.toInt ≤ c / barpm.toInt := Int.ediv_le_ediv (by omega) hlt.le
  unfold barStart
  rcases hquot.eq_or_lt with heq | hnext
  · -- the same minute: the bar is one of the earlier ones
    have hrem : b % barpm.toInt + 1 ≤ c % barpm.toInt := by
      rw [heq] at hb
      omega
    have hbars := Int.mul_le_mul_of_nonneg_right hrem hfpb
    rw [heq]
    linarith [hbars, Int.add_mul (b % barpm.toInt) 1 (fpb framesPerSecond barpm)]
  · -- a later minute: the bars of the first one end before it does
    have hminutes : (b / barpm.toInt + 1) * (framesPerSecond * 60) ≤
        c / barpm.toInt * (framesPerSecond * 60) :=
      Int.mul_le_mul_of_nonneg_right hnext (by omega)
    have hbars : (b % barpm.toInt + 1) * fpb framesPerSecond barpm ≤
        barpm.toInt * fpb framesPerSecond barpm :=
      Int.mul_le_mul_of_nonneg_right hb' hfpb
    have hpos := Int.mul_nonneg hc' hfpb
    rw [Int.add_mul] at hminutes hbars
    linarith

/-! ### The parts of a bar -/

/-- The frames from the start of its bar to a note. -/
def partOf (framesPerSecond : Int) (barpm : Int16) (f : Fields) : Int :=
  fpb framesPerSecond barpm * f.num.toInt / f.div.toInt

/-- The time of a note is the one of its bar and the one of its part. -/
theorem exactTime_eq (hfps : 0 < framesPerSecond) (hbarpm : 1 ≤ barpm.toInt) (hf : f.InBar) :
    exactTime framesPerSecond barpm f =
      barStart framesPerSecond barpm f.bar.toInt + partOf framesPerSecond barpm f := by
  have hparts := Int.mul_nonneg (fpb_nonneg hfps hbarpm) hf.num
  unfold exactTime barStart partOf
  rw [Int.tdiv_eq_ediv_of_nonneg hf.bar, Int.tmod_eq_emod_of_nonneg hf.bar,
    Int.tdiv_eq_ediv_of_nonneg hparts, Int.mul_assoc]

theorem partOf_nonneg (hfps : 0 < framesPerSecond) (hbarpm : 1 ≤ barpm.toInt) (hf : f.InBar) :
    0 ≤ partOf framesPerSecond barpm f :=
  Int.ediv_nonneg (Int.mul_nonneg (fpb_nonneg hfps hbarpm) hf.num) (by have := hf.div; omega)

/-- A note is not after the end of its bar. -/
theorem partOf_le_fpb (hfps : 0 < framesPerSecond) (hbarpm : 1 ≤ barpm.toInt) (hf : f.InBar) :
    partOf framesPerSecond barpm f ≤ fpb framesPerSecond barpm := by
  have hdiv := hf.div
  refine Int.ediv_le_of_le_mul (by omega) ?_
  exact Int.mul_le_mul_of_nonneg_left hf.before.le (fpb_nonneg hfps hbarpm)

/-- A part of a bar that is no greater starts no later. -/
theorem partOf_mono (hfps : 0 < framesPerSecond) (hbarpm : 1 ≤ barpm.toInt) (hf : f.InBar)
    (hg : g.InBar)
    (hle : (f.num.toInt : ℚ) / f.div.toInt ≤ (g.num.toInt : ℚ) / g.div.toInt) :
    partOf framesPerSecond barpm f ≤ partOf framesPerSecond barpm g := by
  have hfdiv : 0 < f.div.toInt := hf.div
  have hgdiv : 0 < g.div.toInt := hg.div
  have hcross : f.num.toInt * g.div.toInt ≤ g.num.toInt * f.div.toInt := by
    rw [div_le_div_iff₀ (by exact_mod_cast hfdiv) (by exact_mod_cast hgdiv)] at hle
    exact_mod_cast hle
  have hfloor : partOf framesPerSecond barpm f * f.div.toInt ≤
      fpb framesPerSecond barpm * f.num.toInt :=
    Int.ediv_mul_le _ hfdiv.ne'
  refine Int.le_ediv_of_mul_le hgdiv (Int.le_of_mul_le_mul_right ?_ hfdiv)
  calc partOf framesPerSecond barpm f * g.div.toInt * f.div.toInt
      = partOf framesPerSecond barpm f * f.div.toInt * g.div.toInt := by ring
    _ ≤ fpb framesPerSecond barpm * f.num.toInt * g.div.toInt :=
        Int.mul_le_mul_of_nonneg_right hfloor hgdiv.le
    _ = fpb framesPerSecond barpm * (f.num.toInt * g.div.toInt) := Int.mul_assoc _ _ _
    _ ≤ fpb framesPerSecond barpm * (g.num.toInt * f.div.toInt) :=
        Int.mul_le_mul_of_nonneg_left hcross (fpb_nonneg hfps hbarpm)
    _ = fpb framesPerSecond barpm * g.num.toInt * f.div.toInt := (Int.mul_assoc _ _ _).symm

/-! ### The notes -/

/-- **A note that is no later in the music has no later key.** -/
theorem timeOf_mono (hfps : 0 < framesPerSecond) (hbarpm : 1 ≤ barpm.toInt) (hf : f.InBar)
    (hg : g.InBar) (hle : f.position ≤ g.position) {x y : Int}
    (hx : timeOf framesPerSecond barpm f = some x) (hy : timeOf framesPerSecond barpm g = some y) :
    x ≤ y := by
  obtain ⟨-, rfl⟩ := (timeOf_eq_some hfps).mp hx
  obtain ⟨-, rfl⟩ := (timeOf_eq_some hfps).mp hy
  rw [exactTime_eq hfps hbarpm hf, exactTime_eq hfps hbarpm hg]
  rcases Prod.Lex.toLex_le_toLex.mp hle with hbar | ⟨hbar, hpart⟩
  · have hlater : f.bar.toInt < g.bar.toInt := hbar
    have hstart := barStart_add_fpb_le hfps hbarpm hlater
    have hend := partOf_le_fpb hfps hbarpm hf
    have hpos := partOf_nonneg hfps hbarpm hg
    omega
  · have hparts := partOf_mono hfps hbarpm hf hg hpart
    have hsame : f.bar.toInt = g.bar.toInt := hbar
    rw [hsame]
    omega

/-- The last note of a minute of seven bars. -/
def lastNote : Fields := { bar := 6, div := 7, num := 6, note := 69, vel := 99 }

/-- The first note of the next minute. -/
def firstNote : Fields := { bar := 7, div := 4, num := 0, note := 69, vel := 99 }

theorem timeOf_mono_nextMinute :
    timeOf 48000 7 lastNote = some 2821220 ∧ timeOf 48000 7 firstNote = some 2880000 ∧
      (2821220 : Int) ≤ 2880000 := by
  have hlast : timeOf 48000 7 lastNote = some 2821220 := by decide
  have hfirst : timeOf 48000 7 firstNote = some 2880000 := by decide
  refine ⟨hlast, hfirst, timeOf_mono (by decide) (by decide)
    ⟨by decide, by decide, by decide, by decide⟩ ⟨by decide, by decide, by decide, by decide⟩
    ?_ hlast hfirst⟩
  exact Prod.Lex.toLex_le_toLex.mpr (.inl (by decide))

end Ksi.Resource
