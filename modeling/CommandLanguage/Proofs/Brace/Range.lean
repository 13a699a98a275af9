import Mathlib
import CommandLanguage.Brace.Range
import CommandLanguage.Proofs.Decimal.Integer

/-!
# What ranges stand for

A range between two integers stands for an arithmetic progression, each item of which is written
out and padded with zeros. The items are counted without a bound and computed in sixty-four bits:
where a step would leave these, the range has come to its end.

A range between two letters is a progression too, but nothing ends it where a step leaves the
sixty-four bits. The loop is then thrown back to the least integers, from which another step leads
to just before where it has been. So the letters go down from the first one to the code point zero.

* `march_eq_progression` — the loop over numbers, for all bounds and steps;
* `readInteger?_item`, `Padded` — how one item reads and looks;
* `range_eq_progression` — a range of numbers as a whole;
* `letters_eq_progression` — the loop over letters, for all letters and steps.
-/

namespace CommandLanguage.Brace

open Decimal

/-! ## The loop

Upwards and downwards the loop is the same, but for the sign, so both are spoken of at once with
`along` and `ahead`. -/

section

variable (up : Bool) (i last : Int)

/-- The integer that lies `n` further on the way, upwards or downwards. It is computed without a
bound, and what sixty-four bits make of it is a matter of the loops. -/
def along (n : Nat) : Int := if up then i + n else i - n

/-- How far it is to the last integer. -/
def ahead : Int := if up then last - i else i - last

variable {up i last}

theorem along_zero : along up i 0 = i := by cases up <;> simp [along]

theorem along_add (n m : Nat) : along up (along up i n) m = along up i (n + m) := by
  cases up <;> simp [along] <;> omega

theorem ahead_along (n : Nat) : ahead up (along up i n) last = ahead up i last - n := by
  cases up <;> simp [ahead, along] <;> omega

theorem march_succ (step rounds : Nat) :
    march up last step (rounds + 1) i =
      if 0 ≤ ahead up i last then
        match fitting? (along up i step) with
        | some next => i :: march up last step rounds next
        | none => [i]
      else [] := by
  have hahead : (if up then i ≤ last else last ≤ i) ↔ 0 ≤ ahead up i last := by
    cases up <;> simp [ahead]
  rw [march]
  exact ite_congr (propext hahead) (fun _ => rfl) fun _ => rfl

/-- Past the last integer there are no items. -/
theorem march_past (step rounds : Nat) (h : ahead up i last < 0) :
    march up last step rounds i = [] := by
  cases rounds with
  | zero => rfl
  | succ rounds => rw [march_succ, if_neg (by omega)]

/-- An integer on the way to the last one is between the two. -/
theorem fits_along {n : Nat} (h : (n : Int) ≤ ahead up i last)
    (hi : minInteger ≤ i ∧ i ≤ maxInteger) (hlast : minInteger ≤ last ∧ last ≤ maxInteger) :
    minInteger ≤ along up i n ∧ along up i n ≤ maxInteger := by
  cases up <;> simp only [ahead, along, if_true, if_false, Bool.false_eq_true] at h ⊢ <;> omega

/-- The loop runs through a progression. When it ends since sixty-four bits are not enough for the
next integer, that integer lies past the last one anyway. The induction is on the rounds, of which
there are more than integers ahead. -/
theorem march_eq {step : Nat} (hstep : 0 < step)
    (hlast : minInteger ≤ last ∧ last ≤ maxInteger) {rounds n : Nat} (hn : ahead up i last = n)
    (hrounds : n < rounds) (hi : minInteger ≤ i ∧ i ≤ maxInteger) :
    march up last step rounds i =
      (List.range (n / step + 1)).map fun k => along up i (k * step) := by
  induction rounds generalizing i n with
  | zero => omega
  | succ rounds ih =>
    rw [march_succ, if_pos (by omega), List.range_succ_eq_map, List.map_cons, Nat.zero_mul,
      along_zero, List.map_map]
    -- either there is room for a step on the way to the last integer, or this is the last item
    by_cases hfar : step ≤ n
    · have hnext : ahead up (along up i step) last = (n - step : Nat) := by
        rw [ahead_along, hn]
        omega
      have hcount : n / step = (n - step) / step + 1 := Nat.div_eq_sub_div hstep hfar
      have hfits : minInteger ≤ along up i step ∧ along up i step ≤ maxInteger :=
        fits_along (by omega) hi hlast
      rw [fitting?_eq_some hfits, hcount]
      dsimp only
      rw [ih hnext (by omega) hfits]
      refine congrArg _ (List.map_congr_left fun k _ => ?_)
      rw [along_add, Function.comp_apply, Nat.succ_mul, Nat.add_comm]
    · rw [Nat.div_eq_of_lt (by omega)]
      -- the loop ends here, whether it notices that sixty-four bits are not enough or that it is
      -- past the end
      cases hnext : fitting? (along up i step) with
      | none => rfl
      | some next =>
        have heq : along up i step = next := by
          rw [fitting?] at hnext
          split at hnext
          · exact Option.some.inj hnext
          · cases hnext
        have hpast : ahead up next last < 0 := by
          rw [← heq, ahead_along]
          omega
        simp [march_past step rounds hpast]

end

/-- Between integers of sixty-four bits the loop runs through the progression that is counted. The
rounds that it is given are enough, as every step takes it further by at least one. -/
theorem march_eq_progression {first last : Int} {step : Nat} (hstep : 0 < step)
    (hfirst : minInteger ≤ first ∧ first ≤ maxInteger)
    (hlast : minInteger ≤ last ∧ last ≤ maxInteger) :
    march (first ≤ last) last step ((last - first).natAbs + 1) first =
      progression first last step := by
  have hn : ahead (first ≤ last) first last = ((last - first).natAbs : Int) := by
    simp only [ahead, decide_eq_true_eq]
    omega
  rw [march_eq hstep hlast hn (Nat.lt_succ_self _) hfirst]
  simp [progression, along]

/-! ## Items

An item is written with as many digits as the widest bound that is padded, and its sign is not among
them. -/

/-- The digits that an item is written with. -/
def itemDigits (width : Nat) (i : Int) : List Char :=
  zeros (width - (digits i.natAbs).length) ++ digits i.natAbs

theorem item_eq_withSign (width : Nat) (i : Int) :
    item width i = withSign (i < 0) (itemDigits width i) := by
  simp [item, withSign, itemDigits]

theorem isDigits_itemDigits (width : Nat) (i : Int) : IsDigits (itemDigits width i) :=
  isDigits_zeros_append _ (isDigits_digits _)

/-- An item is read as the integer that it is written for, padded or not. So nothing is lost by
writing it out. -/
theorem readInteger?_item (width : Nat) {i : Int} (hi : minInteger ≤ i ∧ i ≤ maxInteger) :
    readInteger? (item width i) = some i := by
  have hvalue : signedValue (i < 0) (itemDigits width i) = i := by
    simp only [signedValue, itemDigits, digitsValue_zeros_append, digitsValue_digits,
      decide_eq_true_eq]
    omega
  rw [item_eq_withSign, readInteger?_withSign _ (isDigits_itemDigits _ _), hvalue,
    fitting?_eq_some hi]

theorem le_length_itemDigits (width : Nat) (i : Int) : width ≤ (itemDigits width i).length := by
  simp only [itemDigits, zeros, List.length_append, List.length_replicate]
  omega

/-- Only a padded item begins with a zero that could be left out, and it is then exactly as wide as
it was to be. -/
theorem length_itemDigits_of_hasLeadingZero {width : Nat} {i : Int}
    (h : HasLeadingZero (itemDigits width i)) : (itemDigits width i).length = width := by
  rcases Nat.lt_or_ge (digits i.natAbs).length width with hlt | hge
  · simp only [itemDigits, zeros, List.length_append, List.length_replicate]
    omega
  · rw [itemDigits, Nat.sub_eq_zero_of_le hge] at h
    exact absurd h (not_hasLeadingZero_digits _)

/-- How the digits of an item go with those of the bounds of its range. -/
structure Padded (bounds : List (List Char)) (ds : List Char) : Prop where
  /-- they are at least as many as those of a bound with a leading zero -/
  wide {b : List Char} : b ∈ bounds → HasLeadingZero b → b.length ≤ ds.length
  /-- a leading zero is there for the sake of such a bound only -/
  needed : HasLeadingZero ds → ∃ b ∈ bounds, HasLeadingZero b ∧ b.length = ds.length

/-- The width that a bound with the given digits asks for. -/
def widthOf (ds : List Char) : Nat := if HasLeadingZero ds then ds.length else 0

theorem padding_eq (a b : Written) :
    padding [a.text, b.text] = max (widthOf a.digits) (widthOf b.digits) := by
  have hfilter (w : Written) : w.text.filter (· != '-') = w.digits := by
    have hdigits : w.digits.filter (· != '-') = w.digits :=
      List.filter_eq_self.2 fun c hc =>
        bne_iff_ne.2 (Text.ne_of_kind (w.isDigits.isDigit c hc) (by decide))
    cases hsign : w.negative <;> simp [Written.text, withSign, hsign, hdigits]
  simp only [padding, hfilter, List.foldl_cons, List.foldl_nil, Nat.zero_max, Bool.and_eq_true,
    decide_eq_true_eq, beq_iff_eq]
  rfl

theorem padded_itemDigits (a b : Written) (i : Int) :
    Padded [a.digits, b.digits] (itemDigits (padding [a.text, b.text]) i) := by
  rw [padding_eq]
  have hwidth := le_length_itemDigits (max (widthOf a.digits) (widthOf b.digits)) i
  refine ⟨fun {bound} hbound hzero => ?_, fun hzero => ?_⟩
  · have hlength : bound.length = widthOf bound := (if_pos hzero).symm
    have hmax : widthOf bound ≤ max (widthOf a.digits) (widthOf b.digits) := by
      rcases List.mem_cons.1 hbound with rfl | hbound
      · exact Nat.le_max_left _ _
      · rw [List.mem_singleton.1 hbound]
        exact Nat.le_max_right _ _
    omega
  · have hlength := length_itemDigits_of_hasLeadingZero hzero
    have hpositive := hzero.1
    -- a bound that asks for any width at all has a leading zero
    have hasked (bound : List Char) (h : 0 < widthOf bound) :
        HasLeadingZero bound ∧ bound.length = widthOf bound := by
      rw [widthOf] at h ⊢
      split at h
      · rename_i hbound
        exact ⟨hbound, (if_pos hbound).symm⟩
      · omega
    rcases Nat.le_total (widthOf a.digits) (widthOf b.digits) with hle | hle
    · rw [Nat.max_eq_right hle] at hlength hpositive ⊢
      obtain ⟨hbound, hsize⟩ := hasked b.digits (by omega)
      exact ⟨b.digits, by simp, hbound, by omega⟩
    · rw [Nat.max_eq_left hle] at hlength hpositive ⊢
      obtain ⟨hbound, hsize⟩ := hasked a.digits (by omega)
      exact ⟨a.digits, by simp, hbound, by omega⟩

/-! ## Ranges -/

/-- A range between two integers. -/
structure Numbers where
  first : Written
  last : Written
  /-- the step, if there is one -/
  step : Option Written

namespace Numbers

variable (r : Numbers)

/-- How a step is written after the bounds. -/
def stepText : Option Written → List Char
  | none => []
  | some step => '.' :: '.' :: step.text

/-- What stands between the braces. -/
def text : List Char := r.first.text ++ '.' :: '.' :: (r.last.text ++ stepText r.step)

/-- How far an item is from the next one. A step of zero counts as one, and a step that sixty-four
bits are not enough for as the greatest integer. -/
def stride : Nat :=
  match r.step with
  | none => 1
  | some step => if step.value = 0 then 1 else min step.value.natAbs (2 ^ 63 - 1)

/-- The number of items. -/
def count : Nat := (r.last.value - r.first.value).natAbs / r.stride + 1

/-- The integer that is `k` steps from the first one. -/
def nth (k : Nat) : Int :=
  if r.first.value ≤ r.last.value then r.first.value + k * r.stride
  else r.first.value - k * r.stride

theorem stride_pos : 0 < r.stride := by
  rw [stride]
  split
  · exact Nat.one_pos
  · split
    · exact Nat.one_pos
    · omega

theorem numbers?_text :
    numbers? r.text = some (r.first.text, r.last.text, r.step.map Written.text) := by
  have hdots (s : List Char) : ∀ c, ('.' :: '.' :: s).head? = some c → c.isDigit = false := by
    rintro _ ⟨⟩
    rfl
  have hstep : Brace.step? (stepText r.step) = some (r.step.map Written.text) := by
    cases r.step with
    | none => rfl
    | some step =>
      have hsplit := step.splitInteger?_text (r := []) nofun
      rw [List.append_nil] at hsplit
      simp [stepText, Brace.step?, splitDots?, hsplit]
  have hend : ∀ c, (stepText r.step).head? = some c → c.isDigit = false := by
    cases r.step with
    | none => exact nofun
    | some step => exact hdots _
  simp [numbers?, text, r.first.splitInteger?_text (hdots _), splitDots?,
    r.last.splitInteger?_text hend, hstep]

theorem bound_text (text : String) (w : Written) : bound text w.text = .ok w.value := by
  rw [bound, w.readInteger?_text]

theorem stepSize_text (text : String) :
    stepSize text (r.step.map Written.text) = .ok r.stride := by
  rw [stride]
  cases r.step with
  | none => rfl
  | some step =>
    simp only [Option.map_some, stepSize, bound_text, Except.map]
    rfl

/-- The items of a range between numbers are those of the progression, unless there are too many of
them. How many there are is counted before any is made. -/
theorem range_text :
    range r.text =
      if maxItems < r.count then
        .error (.range (String.ofList ('\x7b' :: r.text ++ ['\x7d'])) .tooLarge)
      else
        .ok ((progression r.first.value r.last.value r.stride).map
          (item (padding [r.first.text, r.last.text]))) := by
  simp only [range, numbers?_text, bound_text, stepSize_text, bind, Except.bind,
    march_eq_progression r.stride_pos r.first.value_fits r.last.value_fits]
  rfl

theorem length_progression :
    (progression r.first.value r.last.value r.stride).length = r.count := by
  simp [progression, count]

theorem getElem?_progression {k : Nat} (hk : k < r.count) :
    (progression r.first.value r.last.value r.stride)[k]? = some (r.nth k) := by
  have hrange : (List.range r.count)[k]? = some k := List.getElem?_range hk
  rw [count] at hrange
  rw [progression, List.getElem?_map, hrange]
  rfl

/-- The progression does not leave the integers between the bounds. -/
theorem fits_nth {k : Nat} (hk : k < r.count) : minInteger ≤ r.nth k ∧ r.nth k ≤ maxInteger := by
  have hfirst := r.first.value_fits
  have hlast := r.last.value_fits
  have hway : k * r.stride ≤ (r.last.value - r.first.value).natAbs :=
    (Nat.le_div_iff_mul_le r.stride_pos).1 (Nat.le_of_lt_succ hk)
  rw [nth]
  split <;> omega

/-- **A range between numbers is an arithmetic progression.** A range with more than `maxItems`
items is refused. All others stand for exactly the integers from the first bound towards the last,
at the distance that the step asks for, whatever the bounds and the step are: each item is read as
an integer of sixty-four bits, so no step goes wrong at their ends. The items are written with at
least as many digits as the widest bound with a leading zero, and have a leading zero themselves
only to get as wide as that. -/
theorem range_eq_progression :
    if maxItems < r.count then
      range r.text = .error (.range (String.ofList ('\x7b' :: r.text ++ ['\x7d'])) .tooLarge)
    else
      ∃ items, range r.text = .ok items ∧ items.length = r.count ∧
        ∀ k, k < r.count → ∃ item, items[k]? = some item ∧
          readInteger? item = some (r.nth k) ∧
          Padded [r.first.digits, r.last.digits] (splitSign item).2 := by
  rw [r.range_text]
  split
  · rfl
  · refine ⟨_, rfl, by rw [List.length_map, length_progression], fun k hk => ?_⟩
    refine ⟨item (padding [r.first.text, r.last.text]) (r.nth k), ?_, ?_, ?_⟩
    · rw [List.getElem?_map, r.getElem?_progression hk, Option.map_some]
    · exact readInteger?_item _ (r.fits_nth hk)
    · rw [item_eq_withSign, splitSign_withSign _ (isDigits_itemDigits _ _)]
      exact padded_itemDigits _ _ _

/-- The last step would lead out of the sixty-four bits. -/
example : range "-09223372036854775807..-9223372036854775808..7".toList =
    .ok ["-09223372036854775807".toList] := by rfl

end Numbers

/-! ## The loop over letters -/

section

variable {up : Bool} {i last : Int} {step rounds : Nat}

theorem minInteger_eq : minInteger = -2 ^ 63 := rfl

theorem maxInteger_eq : maxInteger = 2 ^ 63 - 1 := rfl

theorem wrap_eq (i : Int) : wrap i = (i + 2 ^ 63) % 2 ^ 64 - 2 ^ 63 := by
  rw [wrap, minInteger_eq, Int.sub_neg]
  rfl

/-- What sixty-four bits are enough for stays as it is. -/
theorem wrap_of_fits (h : minInteger ≤ i ∧ i ≤ maxInteger) : wrap i = i := by
  rw [minInteger_eq, maxInteger_eq] at h
  rw [wrap_eq]
  omega

theorem marchUnchecked_succ :
    marchUnchecked up last step (rounds + 1) i =
      if 0 ≤ ahead up i last then i :: marchUnchecked up last step rounds (wrap (along up i step))
      else [] := by
  have hahead : (if up then i ≤ last else last ≤ i) ↔ 0 ≤ ahead up i last := by
    cases up <;> simp [ahead]
  rw [marchUnchecked]
  exact ite_congr (propext hahead) (fun _ => rfl) fun _ => rfl

theorem marchUnchecked_past (h : ahead up i last < 0) :
    marchUnchecked up last step rounds i = [] := by
  cases rounds with
  | zero => rfl
  | succ rounds => rw [marchUnchecked_succ, if_neg (by omega)]

/-- The two loops are the same as long as sixty-four bits are enough: for the first step, and if
that one does not lead past the last integer, for a step from the last integer too. Every step in
between starts from somewhere nearer. -/
theorem marchUnchecked_eq_march (hi : minInteger ≤ i ∧ i ≤ maxInteger)
    (hfirst : minInteger ≤ along up i step ∧ along up i step ≤ maxInteger)
    (hfar : 0 ≤ ahead up (along up i step) last →
      minInteger ≤ along up last step ∧ along up last step ≤ maxInteger) :
    marchUnchecked up last step rounds i = march up last step rounds i := by
  induction rounds generalizing i with
  | zero => rfl
  | succ rounds ih =>
    rw [marchUnchecked_succ, march_succ, fitting?_eq_some hfirst, wrap_of_fits hfirst]
    split
    · dsimp only
      rcases Int.lt_or_le (ahead up (along up i step) last) 0 with hpast | hahead
      · rw [marchUnchecked_past hpast, march_past _ _ hpast]
      · -- the next step leads from somewhere between here and the last integer
        have hfits := hfar hahead
        have hnext : minInteger ≤ along up (along up i step) step ∧
            along up (along up i step) step ≤ maxInteger := by
          cases up <;> simp only [ahead, along, if_true, if_false, Bool.false_eq_true] at * <;> omega
        rw [ih hfirst hnext fun _ => hfits]
    · rfl

theorem letter?_eq (i : Int) : letter? i =
    if (i % 2 ^ 32).toNat.isValidChar then some (Char.ofNat (i % 2 ^ 32).toNat) else none := rfl

/-- A code point of the Latin alphabet, or that many above the least integer, is that character.
Only the lower thirty-two bits of an integer are looked at, and those of the least integer are
zero. -/
theorem letter?_eq_some {n : Nat} (hn : n < 128) (hi : i = n ∨ i = minInteger + n) :
    letter? i = some (Char.ofNat n) := by
  have hlow : (i % 2 ^ 32).toNat = n := by
    rw [minInteger_eq] at hi
    omega
  have hvalid : n.isValidChar := .inl (by omega)
  rw [letter?_eq, hlow, if_pos hvalid]

/-- Right before zero there are no characters: the lower thirty-two bits of such an integer are too
great for a code point. -/
theorem letter?_eq_none (hi : -128 ≤ i) (hneg : i < 0) : letter? i = none := by
  have hlow : 0x110000 ≤ (i % 2 ^ 32).toNat := by omega
  rw [letter?_eq, if_neg]
  rintro (h | h) <;> omega

/-- A step from right above the least integer, and one that ends right below zero. Nothing on this
last part of the way is a character, so what comes of it does not matter. -/
theorem marchUnchecked_wrapped_end {back : Nat} (hstep : step + back = 2 ^ 63)
    (hsmall : back < 128) (hlast : 0 ≤ last ∧ last < 128) (hi : -back ≤ i) (hneg : i < 0) :
    (marchUnchecked true last step (rounds + 1) i).filterMap letter? = [] := by
  have hfits : minInteger ≤ i + step ∧ i + step ≤ maxInteger := by
    rw [minInteger_eq, maxInteger_eq]
    omega
  have hahead : 0 ≤ ahead true i last := by
    show 0 ≤ last - i
    omega
  have hpast : ahead true (i + step) last < 0 := by
    show last - (i + step) < 0
    omega
  have hnone : letter? i = none := letter?_eq_none (by omega) hneg
  rw [marchUnchecked_succ, if_pos hahead, List.filterMap_cons, hnone]
  show (marchUnchecked true last step rounds (wrap (i + step))).filterMap letter? = []
  rw [wrap_of_fits hfits, marchUnchecked_past hpast, List.filterMap_nil]

/-- Nothing follows the last code point the loop comes by: the next step leads past the end, or, from
above the least integer, to right below zero. -/
theorem marchUnchecked_wrapped_last {back n : Nat} (hstep : step + back = 2 ^ 63)
    (hsmall : back < 128) (hlast : 0 ≤ last ∧ last < 128) (hn : n < back)
    (hi : i = n ∨ i = minInteger + n) :
    (marchUnchecked true last step (rounds + 1) (wrap (i + step))).filterMap letter? = [] := by
  rcases hi with rfl | rfl
  · have hfits : minInteger ≤ n + step ∧ (n : Int) + step ≤ maxInteger := by
      rw [minInteger_eq, maxInteger_eq]
      omega
    have hpast : ahead true (n + step) last < 0 := by
      show last - (n + step) < 0
      omega
    rw [wrap_of_fits hfits, marchUnchecked_past hpast, List.filterMap_nil]
  · have hnext : wrap (minInteger + n + step) = n - back := by
      rw [wrap_eq, minInteger_eq]
      omega
    rw [hnext]
    exact marchUnchecked_wrapped_end hstep hsmall hlast (by omega) (by omega)

/-- Once the loop wraps around, it goes back and forth between the code points and the least
integers, and comes by each of the code points `n`, `n - back`, `n - 2 * back` and so on once. -/
theorem filterMap_marchUnchecked_wrapped {back n : Nat} (hback : 0 < back)
    (hstep : step + back = 2 ^ 63) (hsmall : back < 128) (hlast : last < 128)
    (hn : n ≤ last) (hrounds : n + 3 ≤ rounds) (hi : i = n ∨ i = minInteger + n) :
    (marchUnchecked true last step rounds i).filterMap letter? =
      (List.range (n / back + 1)).map fun k => Char.ofNat (n - k * back) := by
  induction rounds generalizing n i with
  | zero => omega
  | succ rounds ih =>
    have hahead : 0 ≤ ahead true i last := by
      show 0 ≤ last - i
      rw [minInteger_eq] at hi
      omega
    rw [marchUnchecked_succ, if_pos hahead, List.filterMap_cons, letter?_eq_some (by omega) hi,
      List.range_succ_eq_map, List.map_cons, Nat.zero_mul, Nat.sub_zero, List.map_map]
    refine congrArg (Char.ofNat n :: ·) ?_
    show (marchUnchecked true last step rounds (wrap (i + step))).filterMap letter? = _
    by_cases hmore : back ≤ n
    · -- from above the code points to above the least integer, and the other way round
      have hnext : wrap (i + step) = (n - back : Nat) ∨
          wrap (i + step) = minInteger + (n - back : Nat) := by
        rcases hi with rfl | rfl
        · right
          rw [wrap_eq, minInteger_eq]
          omega
        · left
          rw [wrap_eq, minInteger_eq]
          omega
      rw [ih (by omega) (by omega) hnext, Nat.div_eq_sub_div hback hmore]
      refine List.map_congr_left fun k _ => congrArg Char.ofNat ?_
      rw [Nat.succ_mul]
      omega
    · rw [Nat.div_eq_of_lt (by omega), List.range_zero, List.map_nil]
      obtain ⟨rounds, rfl⟩ : ∃ k, rounds = k + 1 := Nat.exists_eq_add_one.2 (by omega)
      exact marchUnchecked_wrapped_last hstep hsmall ⟨by omega, hlast⟩ (by omega) hi

end

section

variable {a b : Char} {step : Nat}

/-- A progression stays between its bounds. -/
theorem between_of_mem_progression {a b i : Int} {step : Nat} (h : i ∈ progression a b step) :
    min a b ≤ i ∧ i ≤ max a b := by
  obtain ⟨k, hk, rfl⟩ := List.mem_map.1 h
  have hcount : k * step ≤ (b - a).natAbs :=
    (Nat.mul_le_mul_right step (Nat.le_of_lt_succ (List.mem_range.1 hk))).trans
      (Nat.div_mul_le_self _ _)
  have hcount' : (k : Int) * step ≤ (b - a).natAbs := by exact_mod_cast hcount
  have hpos : (0 : Int) ≤ k * step := by positivity
  split <;> omega

/-- Where the first step leads out of the sixty-four bits, the letters are those from `a` down to the
code point zero, as far from each other as the step is short of 2 ^ 63. -/
theorem letters_of_wraps (ha : a.toNat < 128) (hb : b.toNat < 128) (hstep : step ≤ maxInteger)
    (hle : a ≤ b) (hwraps : maxInteger < a.toNat + step) :
    letters a b step =
      (progression a.toNat 0 (2 ^ 63 - step)).map fun i => Char.ofNat i.toNat := by
  rw [maxInteger_eq] at hstep hwraps
  have hback : step + (2 ^ 63 - step) = 2 ^ 63 := by omega
  have hcodes := filterMap_marchUnchecked_wrapped (i := a.toNat) (n := a.toNat) (by omega) hback
    (by omega) (Int.ofNat_lt.2 hb) (Int.ofNat_le.2 hle) (Nat.add_le_add_right
      (Nat.le_add_right _ b.toNat) 3) (.inl rfl)
  simp only [letters]
  rw [decide_eq_true hle, hcodes, progression, List.map_map]
  have hcount : ((0 : Int) - a.toNat).natAbs = a.toNat := by omega
  have hdown : ¬((a.toNat : Int) ≤ 0) := by omega
  rw [hcount]
  refine List.map_congr_left fun k _ => ?_
  rw [Function.comp_apply, if_neg hdown]
  refine congrArg Char.ofNat ?_
  rw [← Int.natCast_mul]
  omega

/-- Where the first step stays within the sixty-four bits, so does every later one: the last letter
is near the first, and there is room for many more behind it. -/
theorem letters_of_fits (ha : a.toNat < 128) (hb : b.toNat < 128) (hpositive : 0 < step)
    (hstep : step ≤ maxInteger) (hwraps : ¬(a ≤ b ∧ maxInteger < a.toNat + step)) :
    letters a b step =
      (progression a.toNat b.toNat step).map fun i => Char.ofNat i.toNat := by
  have hle : a ≤ b ↔ a.toNat ≤ b.toNat := Iff.rfl
  rw [maxInteger_eq] at hstep
  simp only [letters, hle] at hwraps ⊢
  have hn : ahead (a.toNat ≤ b.toNat) a.toNat b.toNat =
      ((b.toNat - a.toNat : Int).natAbs : Int) := by
    simp only [ahead, decide_eq_true_eq]
    omega
  have hfits (c : Char) (hc : c.toNat < 128) :
      minInteger ≤ (c.toNat : Int) ∧ (c.toNat : Int) ≤ maxInteger := by
    rw [minInteger_eq, maxInteger_eq]
    omega
  have hfirst : minInteger ≤ along (a.toNat ≤ b.toNat) a.toNat step ∧
      along (a.toNat ≤ b.toNat) a.toNat step ≤ maxInteger := by
    rw [maxInteger_eq] at hwraps
    rw [minInteger_eq, maxInteger_eq]
    simp only [along, decide_eq_true_eq]
    split <;> omega
  -- a step that does not lead past the last letter is a short one
  have hfar (h : 0 ≤ ahead (a.toNat ≤ b.toNat) (along (a.toNat ≤ b.toNat) a.toNat step) b.toNat) :
      minInteger ≤ along (a.toNat ≤ b.toNat) b.toNat step ∧
        along (a.toNat ≤ b.toNat) b.toNat step ≤ maxInteger := by
    rw [ahead_along, hn] at h
    rw [minInteger_eq, maxInteger_eq]
    simp only [along]
    split <;> omega
  rw [marchUnchecked_eq_march (hfits a ha) hfirst hfar,
    march_eq hpositive (hfits b hb) hn (by omega) (hfits a ha)]
  have hprogression : ((List.range ((b.toNat - a.toNat : Int).natAbs / step + 1)).map fun k =>
      along (a.toNat ≤ b.toNat) a.toNat (k * step)) = progression a.toNat b.toNat step := by
    simp [progression, along]
  rw [hprogression, ← List.filterMap_eq_map]
  refine List.filterMap_congr fun i hi => ?_
  have hbetween := between_of_mem_progression hi
  exact letter?_eq_some (by omega) (.inl (by omega))

/-- The letters of a range, in the order of the code points or against it. Where the first step leads
out of the sixty-four bits they are other ones than between `a` and `b`: those from `a` down to the
code point zero, as far from each other as the step is short of 2 ^ 63. -/
theorem letters_eq_progression (ha : a.toNat < 128) (hb : b.toNat < 128) (hpositive : 0 < step)
    (hstep : step ≤ maxInteger) :
    letters a b step =
      (if a ≤ b ∧ maxInteger < a.toNat + step then progression a.toNat 0 (2 ^ 63 - step)
        else progression a.toNat b.toNat step).map fun i => Char.ofNat i.toNat := by
  split
  · next hwraps => exact letters_of_wraps ha hb hstep hwraps.1 hwraps.2
  · next hwraps => exact letters_of_fits ha hb hpositive hstep hwraps

/-- With the greatest step there is, `{a..c..9223372036854775807}` goes down from `a` one by one, to
the code point zero. -/
example : (letters 'a' 'c' 9223372036854775807).length = 98 ∧
    (letters 'a' 'c' 9223372036854775807).getLast? = some (Char.ofNat 0) := by
  decide +kernel

/-- None of the letters comes behind both `a` and `b`. -/
theorem toNat_le_of_mem_letters (ha : a.toNat < 128) (hb : b.toNat < 128) (hpositive : 0 < step)
    (hstep : step ≤ maxInteger) {c : Char} (hc : c ∈ letters a b step) :
    c.toNat ≤ max a.toNat b.toNat := by
  rw [letters_eq_progression ha hb hpositive hstep] at hc
  obtain ⟨i, hi, rfl⟩ := List.mem_map.1 hc
  have hle : i.toNat ≤ max a.toNat b.toNat := by
    split at hi <;> have hbetween := between_of_mem_progression hi <;> omega
  rw [Char.toNat_ofNat]
  split
  · exact hle
  · exact Nat.zero_le _

theorem letter?_toNat (c : Char) : letter? c.toNat = some c := by
  have hlt : c.toNat < 2 ^ 32 := c.val.toNat_lt
  have hlow : ((c.toNat : Int) % 2 ^ 32).toNat = c.toNat := by omega
  have hvalid : c.toNat.isValidChar := c.valid
  rw [letter?_eq, hlow, if_pos hvalid, Char.ofNat_toNat]

/-- The first letter is one of them, whatever the step. Even a loop that wraps around has passed it
before its first step. -/
theorem letters_ne_nil (a b : Char) (step : Nat) : letters a b step ≠ [] := by
  have hahead : 0 ≤ ahead (a ≤ b) a.toNat b.toNat := by
    have hle : a ≤ b ↔ a.toNat ≤ b.toNat := Iff.rfl
    simp only [ahead, decide_eq_true_eq, hle]
    split <;> omega
  have hfirst := List.filterMap_cons_some (l := marchUnchecked (a ≤ b) b.toNat step
    (a.toNat + b.toNat + 2) (wrap (along (a ≤ b) a.toNat step))) (letter?_toNat a)
  rw [letters, marchUnchecked_succ, if_pos hahead, hfirst]
  exact List.cons_ne_nil _ _

end

/-! ## Ranges of any kind -/

theorem isRange_of_splitDots? {s r : List Char} (before : List Char)
    (h : splitDots? s = some r) : isRange (before ++ s) = true := by
  induction before with
  | nil =>
    rw [splitDots?.eq_def] at h
    split at h
    · rfl
    · cases h
  | cons c before ih => rw [List.cons_append, isRange, ih, Bool.or_true]

theorem isRange_of_numbers? {body : List Char} (h : (numbers? body).isSome) :
    isRange body = true := by
  obtain ⟨parts, hparts⟩ := Option.isSome_iff_exists.1 h
  obtain ⟨⟨a, r⟩, hsplit, hrest⟩ := Option.bind_eq_some_iff.1 hparts
  obtain ⟨s, hdots, -⟩ := Option.bind_eq_some_iff.1 hrest
  rw [← append_of_splitInteger? hsplit]
  exact isRange_of_splitDots? a hdots

theorem isRange_of_letters? {body : List Char} (h : (letters? body).isSome) :
    isRange body = true := by
  obtain ⟨parts, hparts⟩ := Option.isSome_iff_exists.1 h
  obtain ⟨⟨a, r⟩, hsplit, hrest⟩ := Option.bind_eq_some_iff.1 hparts
  obtain ⟨s, hdots, -⟩ := Option.bind_eq_some_iff.1 hrest
  have hbody : [a] ++ r = body := by
    cases body with
    | nil => cases hsplit
    | cons c body =>
      rw [splitLetter?] at hsplit
      split at hsplit
      · cases hsplit
        rfl
      · cases hsplit
  rw [← hbody]
  exact isRange_of_splitDots? [a] hdots

/-- What a bind gives, its two parts give. -/
theorem exists_of_bind {α β : Type} {x : Except Fault α} {f : α → Except Fault β} {b : β}
    (h : x >>= f = .ok b) : ∃ a, x = .ok a ∧ f a = .ok b := by
  cases x with
  | ok a => exact ⟨a, rfl, h⟩
  | error e => cases h

/-- A step is positive and fits into sixty-four bits, as it is read with a check and zero is
replaced. -/
theorem stepSize_bounds {text : String} {s : Option (List Char)} {step : Nat}
    (h : stepSize text s = .ok step) : 0 < step ∧ step ≤ maxInteger := by
  have hmax : maxInteger.toNat = 2 ^ 63 - 1 := rfl
  rw [maxInteger_eq]
  cases s with
  | none =>
    cases h
    decide
  | some s =>
    rw [stepSize] at h
    cases hbound : bound text s with
    | error f =>
      rw [hbound] at h
      cases h
    | ok i =>
      rw [hbound] at h
      cases h
      dsimp only
      rw [hmax]
      split <;> omega

theorem march_ne_nil (first last : Int) (step : Nat) :
    march (first ≤ last) last step ((last - first).natAbs + 1) first ≠ [] := by
  have hahead : 0 ≤ ahead (first ≤ last) first last := by
    simp only [ahead, decide_eq_true_eq]
    omega
  rw [march_succ, if_pos hahead]
  split <;> exact List.cons_ne_nil _ _

/-- What stands for a range has two dots, and the range has an item. So a group of this kind is seen
by the search that looks for dots, and it is never replaced by nothing. -/
theorem isRange_of_range {body : List Char} {items : List (List Char)}
    (h : range body = .ok items) : isRange body = true ∧ items ≠ [] := by
  rw [range] at h
  dsimp only at h
  split at h
  · -- numbers, letters, or no range at all
    rename_i hnumbers
    refine ⟨isRange_of_numbers? (Option.isSome_of_eq_some hnumbers), ?_⟩
    obtain ⟨first, -, h⟩ := exists_of_bind h
    obtain ⟨last, -, h⟩ := exists_of_bind h
    obtain ⟨step, -, h⟩ := exists_of_bind h
    split at h
    · cases h
    · cases h
      exact mt List.map_eq_nil_iff.1 (march_ne_nil first last step)
  · rename_i hletters
    refine ⟨isRange_of_letters? (Option.isSome_of_eq_some hletters), ?_⟩
    obtain ⟨step, -, h⟩ := exists_of_bind h
    split at h
    · cases h
    · cases h
      exact mt List.map_eq_nil_iff.1 (letters_ne_nil _ _ _)
  · cases h

end CommandLanguage.Brace
