import CommandLanguage.Reference.Expand

/-!
# What a slice holds

The sums that the bounds of a slice are made of stop at the least and the greatest integer of
sixty-four bits. That never shows: a slice holds the items between the bounds that sums without a
limit would give (`slice_eq_window`). For the sum of a size and something negative stays in the range
(`fits_add_of_neg`), and that of a start and a length is cut off at the size anyway
(`min_clampInteger`).
-/

namespace CommandLanguage.Text

open Decimal (clampInteger minInteger maxInteger)

variable {α : Type} {xs : List α} {n : Nat} {offset : Int} {length : Option Int}

/-! ## Bounds without a limit -/

/-- Where a slice of a list of `n` items begins. -/
def windowStart (n : Nat) (offset : Int) : Int := if offset < 0 then max (n + offset) 0 else offset

/-- Where a slice of a list of `n` items ends. -/
def windowStop (n : Nat) (offset : Int) : Option Int → Int
  | none => n
  | some l => if l < 0 then n + l else min (windowStart n offset + l) n

/-- The items at the positions from `start` on and before `stop`. Positions may be negative or
beyond the end, and then there is no item at them. -/
def window (xs : List α) (start stop : Int) : List α :=
  (xs.zipIdx.filter fun (_, i) => start ≤ i ∧ i < stop).map Prod.fst

/-- An integer of sixty-four bits. -/
def Fits (i : Int) : Prop := minInteger ≤ i ∧ i ≤ maxInteger

theorem fits_toInt (i : Int64) : Fits i.toInt :=
  ⟨i.le_toInt, Int.le_sub_one_of_lt i.toInt_lt⟩

theorem windowStart_nonneg (n : Nat) (offset : Int) : 0 ≤ windowStart n offset := by
  unfold windowStart
  split <;> omega

theorem windowStop_le (n : Nat) (offset : Int) (length : Option Int) :
    windowStop n offset length ≤ n := by
  unfold windowStop
  split
  · exact Int.le_refl _
  · split <;> omega

/-- The items at the positions of a window, if counting begins at `k`. By induction on the items:
each of them is in the window, or before it, or behind it. -/
theorem filter_zipIdx (xs : List α) (start stop : Int) (k : Nat) :
    ((xs.zipIdx k).filter fun (_, i) => start ≤ i ∧ i < stop).map Prod.fst =
      (xs.take (stop - k).toNat).drop (start - k).toNat := by
  induction xs generalizing k with
  | nil => simp
  | cons x xs ih =>
    -- to begin one later shifts both bounds, and a bound that is passed stays at zero
    have hsucc {i : Int} (h : (k : Int) < i) : (i - k).toNat = (i - (k + 1 : Nat)).toNat + 1 := by
      omega
    have hzero {i : Int} (h : i ≤ k) : (i - k).toNat = 0 ∧ (i - (k + 1 : Nat)).toNat = 0 := by
      omega
    rw [List.zipIdx_cons, List.filter_cons]
    by_cases hstop : (k : Int) < stop
    · rw [hsucc hstop, List.take_succ_cons]
      by_cases hstart : start ≤ k
      · obtain ⟨hk, hk'⟩ := hzero hstart
        rw [if_pos (decide_eq_true ⟨hstart, hstop⟩), List.map_cons, ih, hk, hk', List.drop_zero,
          List.drop_zero]
      · rw [if_neg (by simp [hstart]), ih, hsucc (Int.not_le.1 hstart), List.drop_succ_cons]
    · obtain ⟨hk, hk'⟩ := hzero (Int.not_lt.1 hstop)
      rw [if_neg (by simp [hstop]), ih, hk, hk', List.take_zero, List.take_zero, List.drop_nil,
        List.drop_nil]

/-- A window is what is left of the items before its end when those before its start are gone. -/
theorem window_eq (xs : List α) (start stop : Int) :
    window xs start stop = (xs.take stop.toNat).drop start.toNat := by
  rw [window, filter_zipIdx]
  simp

/-- The window of the first `k` items and that of all others. -/
theorem window_append (xs : List α) {k : Int} (hk : 0 ≤ k) :
    window xs 0 (min k xs.length) ++ window xs k xs.length = xs := by
  have htake : (min k xs.length).toNat = min k.toNat xs.length := by omega
  rw [window_eq, window_eq, htake, ← List.take_eq_take_min, Int.toNat_natCast, List.take_length]
  exact List.take_append_drop k.toNat xs

/-! ## Bounds with a limit

The operands are sixty-four bit integers and the length of a text is a natural number. What is
computed of them by way of checks and clamps is what exact integers give. -/

theorem clampInteger_of_fits {i : Int} (h : Fits i) : clampInteger i = i := by
  obtain ⟨hmin, hmax⟩ := h
  unfold clampInteger
  omega

/-- A sum that is too large does not show where it is cut off at a size. -/
theorem min_clampInteger {i : Int} (hn : (n : Int) ≤ maxInteger) (hi : 0 ≤ i) :
    min (clampInteger i) n = min i n := by
  have hzero : minInteger ≤ 0 := by decide
  unfold clampInteger
  omega

/-- A sum of a size and something negative does not leave the range. -/
theorem fits_add_of_neg {i : Int} (hn : (n : Int) ≤ maxInteger) (hi : Fits i) (hneg : i < 0) :
    Fits (n + i) := by
  obtain ⟨hmin, -⟩ := hi
  constructor <;> omega

/-- The bounds of a slice are those of its window, and a slice has none if its window is empty. -/
theorem sliceBounds?_eq (hn : (n : Int) ≤ maxInteger) (hoffset : Fits offset)
    (hlength : ∀ l ∈ length, Fits l) :
    sliceBounds? n offset length =
      if windowStart n offset < windowStop n offset length then
        some ((windowStart n offset).toNat, (windowStop n offset length).toNat)
      else none := by
  have hsize : min (n : Int) maxInteger = n := Int.min_eq_left hn
  -- an offset from the end is added within the range of integers, so nothing is cut off
  have hstart : (if offset < 0 then max (clampInteger (n + offset)) 0 else offset) =
      windowStart n offset := by
    unfold windowStart
    split
    next hneg => rw [clampInteger_of_fits (fits_add_of_neg hn hoffset hneg)]
    next => rfl
  -- a length may lead beyond that range, but then also beyond the end of the text
  have hstop {l : Int} (hl : Fits l) : (if l < 0 then clampInteger (n + l) else
      min (clampInteger (windowStart n offset + l)) n) = windowStop n offset (some l) := by
    simp only [windowStop]
    split
    next hneg => rw [clampInteger_of_fits (fits_add_of_neg hn hl hneg)]
    next hpos =>
      rw [min_clampInteger hn (Int.add_nonneg (windowStart_nonneg n offset) (Int.not_lt.1 hpos))]
  -- the two tests of the program are one, as the window ends within the text
  have hbounds {stop : Int} (h : stop = windowStop n offset length) :
      (if windowStart n offset < n ∧ windowStart n offset < stop then
          some ((windowStart n offset).toNat, stop.toNat) else none) =
        if windowStart n offset < windowStop n offset length then
          some ((windowStart n offset).toNat, (windowStop n offset length).toNat) else none := by
    have hle := windowStop_le n offset length
    subst h
    by_cases hlt : windowStart n offset < windowStop n offset length
    · rw [if_pos ⟨Int.lt_of_lt_of_le hlt hle, hlt⟩, if_pos hlt]
    · rw [if_neg fun h => hlt h.2, if_neg hlt]
  unfold sliceBounds?
  cases length with
  | none =>
    simp only [hsize, hstart]
    exact hbounds rfl
  | some l =>
    simp only [hsize, hstart]
    exact hbounds (hstop (hlength l rfl))

theorem slice_of_fits (hxs : (xs.length : Int) ≤ maxInteger) (hoffset : Fits offset)
    (hlength : ∀ l ∈ length, Fits l) :
    slice xs offset length =
      window xs (windowStart xs.length offset) (windowStop xs.length offset length) := by
  have hstart := windowStart_nonneg xs.length offset
  rw [slice, sliceBounds?_eq hxs hoffset hlength, window_eq]
  by_cases h : windowStart xs.length offset < windowStop xs.length offset length
  · rw [if_pos h]
  · rw [if_neg h, List.drop_eq_nil_of_le]
    rw [List.length_take]
    omega

/-- **A slice is a window.** Whatever its offset and length are, a slice of a list holds the items
from its start on and before its end, as sums without a limit give them, and no item behind the last
one is asked for. So a list is the slice of its first `k` items and then that of all others. No list
in memory has more items than the greatest integer of sixty-four bits. -/
theorem slice_eq_window (xs : List α) (hxs : (xs.length : Int) ≤ maxInteger) :
    (∀ (offset : Int64) (length : Option Int64),
      let start := windowStart xs.length offset.toInt
      let stop := windowStop xs.length offset.toInt (length.map Int64.toInt)
      slice xs offset.toInt (length.map Int64.toInt) = window xs start (min stop xs.length) ∧
      ∀ first behind,
        sliceBounds? xs.length offset.toInt (length.map Int64.toInt) = some (first, behind) →
          first < behind ∧ behind ≤ xs.length) ∧
    ∀ k : Int64, 0 ≤ k → slice xs 0 (some k.toInt) ++ slice xs k.toInt none = xs := by
  have hfits (length : Option Int64) : ∀ l ∈ length.map Int64.toInt, Fits l := fun l hl => by
    obtain ⟨i, -, rfl⟩ := Option.map_eq_some_iff.1 hl
    exact fits_toInt i
  refine ⟨fun offset length => ⟨?_, fun first behind h => ?_⟩, fun k hk => ?_⟩
  · rw [slice_of_fits hxs (fits_toInt offset) (hfits length), Int.min_eq_left (windowStop_le _ _ _)]
  · have hstart := windowStart_nonneg xs.length offset.toInt
    have hle := windowStop_le xs.length offset.toInt (length.map Int64.toInt)
    rw [sliceBounds?_eq hxs (fits_toInt offset) (hfits length)] at h
    split at h
    · cases h
      omega
    · cases h
  · -- the two windows begin and end at the same place
    have hpos : 0 ≤ k.toInt := by simpa using Int64.le_iff_toInt_le.1 hk
    have hzero : Fits 0 := ⟨by decide, by decide⟩
    have hfirst := slice_of_fits hxs hzero (hfits (some k))
    have hothers := slice_of_fits hxs (fits_toInt k) (hfits none)
    simp only [windowStart, windowStop, Option.map_some, Option.map_none, Int.lt_irrefl, if_false,
      if_neg (Int.not_lt.2 hpos), Int.zero_add] at hfirst hothers
    rw [hfirst, hothers, window_append xs hpos]

/-- Two letters from the end of a text, with a length that leaves the range when it is added. -/
theorem slice_eq_window_end :
    let xs := "John".toList
    (xs.length : Int) ≤ maxInteger ∧
      slice xs (-2) (some maxInteger) = window xs 2 4 ∧
      sliceBounds? 4 (-2) (some maxInteger) = some (2, 4) ∧ 2 < 4 ∧ 4 ≤ xs.length ∧
      (0 : Int64) ≤ 3 ∧ slice xs 0 (some 3) ++ slice xs 3 none = xs := by
  intro xs
  have hsize : (xs.length : Int) ≤ maxInteger := by decide
  obtain ⟨hwindow, hwhole⟩ := slice_eq_window xs hsize
  obtain ⟨hslice, hbounds⟩ := hwindow (-2) (some Int64.maxValue)
  have hends : sliceBounds? 4 (-2) (some maxInteger) = some (2, 4) := by decide
  obtain ⟨hlt, hle⟩ := hbounds 2 4 hends
  exact ⟨hsize, hslice, hends, hlt, hle, by decide, hwhole 3 (by decide)⟩

end CommandLanguage.Text
