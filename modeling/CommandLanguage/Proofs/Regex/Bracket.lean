import CommandLanguage.Proofs.Regex.Leaves

/-!
# Reading bracket expressions

The expression for a pattern is `Engine.Written`: characters, dots and stars, and bracket expressions in
which brackets stand only behind a backslash. A bracket expression that lists no members is not read as
such, because a closing bracket in the first place is one of the members. What is read then goes on
behind that bracket, and up to the next one.

So a reader of members can be inside of brackets as they are written, and outside of them. `Amid`
holds of the texts that it can have ahead in either case. It is closed under all steps of the reader,
and a bracket expression ends only where one is written to end (`leaves_bracket`).
-/

namespace CommandLanguage.Regex

open Engine (isSign isOrdinary Enclosed Written)

/-! ## Texts of expressions -/

/-- What can be ahead of a reader of members, within brackets as they are written or outside of
them. The reader may have taken the end of one bracket expression for a member, and then it is
outside of all that are written and reads on to the end of the next. -/
inductive Amid (ending : List Char) : (within : Bool) → List Char → Prop where
  /-- the text ends outside of brackets -/
  | nil : Amid ending false []
  /-- a character that is neither a bracket nor a backslash -/
  | ordinary {within : Bool} {c : Char} {s : List Char} : isOrdinary c = true →
      Amid ending within s → Amid ending within (c :: s)
  /-- any character behind a backslash -/
  | escaped {within : Bool} {c : Char} {s : List Char} : Amid ending within s →
      Amid ending within ('\\' :: c :: s)
  /-- brackets begin -/
  | opens {s : List Char} : Amid ending true s → Amid ending false ('[' :: s)
  /-- brackets end -/
  | closes {s : List Char} : Written ending s → Amid ending true (']' :: s)

section

variable {ending s r u : List Char} {within : Bool} {c : Char}

theorem isOrdinary_of_isSign (hc : isSign c = false) : isOrdinary c = true := by
  have hne {d : Char} (hd : isSign d = true) : c ≠ d := by
    rintro rfl
    rw [hc] at hd
    cases hd
  have hopen : c ≠ '[' := hne rfl
  have hclose : c ≠ ']' := hne rfl
  have hbackslash : c ≠ '\\' := hne rfl
  simp [isOrdinary, hopen, hclose, hbackslash]

theorem amid_of_enclosed (h : Enclosed u) (hs : Amid ending within s) : Amid ending within (u ++ s) := by
  induction h with
  | nil => exact hs
  | ordinary hc _ ih => exact .ordinary hc ih
  | escaped _ ih => exact .escaped ih

theorem amid_of_ordinary (hs : ∀ c ∈ s, isOrdinary c = true) : Amid ending false s := by
  induction s with
  | nil => exact .nil
  | cons c s ih =>
    obtain ⟨hc, hs⟩ := List.forall_mem_cons.1 hs
    exact .ordinary hc (ih hs)

/-- An expression is outside of brackets, to begin with. What stands behind it, its `ending`, has
none. -/
theorem amid_of_written (h : Written ending s) (hending : ∀ c ∈ ending, isOrdinary c = true) :
    Amid ending false s := by
  induction h with
  | ending => exact amid_of_ordinary hending
  | char hc _ ih => exact .ordinary (isOrdinary_of_isSign hc) ih
  | escaped _ _ ih => exact .escaped ih
  | dot _ ih => exact .ordinary rfl ih
  | star _ ih => exact .ordinary rfl (.ordinary rfl ih)
  | bracket hu hs _ => exact .opens (amid_of_enclosed hu (.closes hs))

theorem Amid.tail (hc : isOrdinary c = true) (h : Amid ending within (c :: r)) :
    Amid ending within r := by
  cases h with
  | ordinary _ h => exact h
  | escaped h => cases hc
  | opens h => cases hc
  | closes h => cases hc

/-- Ahead of a reader of members. -/
def IsAmid (ending s : List Char) : Prop := ∃ within, Amid ending within s

theorem isStable_isAmid (ending : List Char) : IsStable (IsAmid ending) :=
  fun _ _ hc ⟨within, h⟩ => ⟨within, h.tail hc⟩

/-! ## Members -/

/-- A member of a bracket expression takes a character that is no closing bracket, or an escape.
Neither leads from within brackets to the outside. -/
theorem leaves_bracketItem (h : IsAmid ending (c :: r)) (hclose : c ≠ ']') :
    Leaves (bracketItem c r) s fun _ r => IsAmid ending r := by
  obtain ⟨within, h⟩ := h
  unfold bracketItem
  split
  · next hc =>
    obtain rfl := eq_of_beq hc
    cases h with
    | ordinary hc h => cases hc
    | escaped h => exact leaves_escape (isStable_isAmid ending) _ ⟨within, h⟩
  · next hc =>
    refine .step rfl (.pure ?_)
    cases h with
    | ordinary _ h => exact ⟨within, h⟩
    | escaped h => exact absurd rfl hc
    | opens h => exact ⟨true, h⟩
    | closes h => exact absurd rfl hclose

/-- A range takes two members and the sign between them. -/
theorem leaves_bracketRange (h : IsAmid ending (c :: r)) (hclose : c ≠ ']') :
    Leaves (bracketRange c r) s fun _ r => IsAmid ending r := by
  unfold bracketRange
  refine (leaves_bracketItem h hclose).bind fun first r h => ?_
  refine .skip_rest ?_
  split
  · exact .throw _
  · next d r =>
    refine .step rfl ?_
    split
    · exact .lift fun _ _ => h
    · next hrange =>
      simp only [Bool.or_eq_true, bne_iff_ne, beq_iff_eq, not_or, Decidable.not_not] at hrange
      -- a dash with something behind it other than a closing bracket: the member is a range
      obtain ⟨⟨rfl, hnext⟩, -⟩ := hrange
      refine .moveOn_bind ?_
      rintro e r rfl
      have hlast := isStable_isAmid ending '-' (e :: r) rfl h
      refine (leaves_bracketItem hlast ?_).bind fun last r h => ?_
      · rintro rfl
        exact hnext rfl
      · refine .lift_bind fun low _ => .lift_bind fun high _ => ?_
        dsimp only
        split
        · exact .throw_bind _
        · exact .pure h

/-! ## Named sets -/

theorem isOrdinary_of_named? {name : List Char} {cs : CharSet}
    (h : CharSet.named? (String.ofList name) = some cs) : ∀ c ∈ name, isOrdinary c = true := by
  have hname {literal : String} (heq : String.ofList name = literal) : name = literal.toList := by
    rw [← heq, String.toList_ofList]
  unfold CharSet.named? at h
  split at h
  case h_15 => cases h
  all_goals
    rename_i heq
    rw [hname heq]
    exact List.all_eq_true.1 rfl

theorem IsStable.append {T : List Char → Prop} (hT : IsStable T) (hu : ∀ c ∈ u, isOrdinary c = true)
    (h : T (u ++ s)) : T s := by
  induction u with
  | nil => exact h
  | cons c u ih =>
    obtain ⟨hc, hu⟩ := List.forall_mem_cons.1 hu
    exact ih hu (hT _ _ hc h)

/-- A named set is a bracket expression as it is written. -/
theorem written_of_namedSet? {cs : CharSet} (h : Amid ending true s)
    (hset : namedSet? s = some (cs, r)) : Written ending r := by
  have hT : IsStable (Amid ending true) := fun _ _ hc h => h.tail hc
  -- the name has no brackets, so what is behind it is the bracket that closes
  have hname {s r : List Char} {cs : CharSet} (h : Amid ending true s)
      (hdrop : s.dropWhile (· != ':') = ':' :: ']' :: r)
      (hnamed : CharSet.named? (String.ofList (s.takeWhile (· != ':'))) = some cs) :
      Written ending r := by
    rw [← List.takeWhile_append_dropWhile (p := (· != ':')) (l := s), hdrop] at h
    cases (hT.append (isOrdinary_of_named? hnamed) h).tail rfl with
    | ordinary hc _ => cases hc
    | closes h => exact h
  unfold namedSet? at hset
  split at hset
  · next r' =>
    dsimp only at hset
    split at hset
    · next hdrop =>
      obtain ⟨cs', hnamed, heq⟩ := Option.map_eq_some_iff.1 hset
      obtain ⟨-, rfl⟩ := Prod.mk.inj heq
      refine hname ?_ hdrop hnamed
      split
      · exact (h.tail rfl).tail rfl
      · exact h.tail rfl
    · cases hset
  · cases hset

/-! ## Bracket expressions -/

variable (hending : ∀ c ∈ ending, isOrdinary c = true)
include hending

/-- The members up to a closing bracket, by induction on the steps. That bracket is one that is
written to close, or one outside of brackets; behind either there is an expression again. -/
theorem leaves_bracketItems (seen : List CharSet) (fuel : Nat) (h : IsAmid ending s) :
    Leaves (bracketItems seen fuel) s fun _ r => Written ending r := by
  induction fuel generalizing seen s with
  | zero => exact .throw _
  | succ fuel ih =>
    rw [bracketItems]
    refine .skip_rest ?_
    -- the kinds of members: a bracket within, the closing one, the operators on sets, and all
    -- others
    obtain ⟨within, h⟩ := h
    split
    · exact .throw _
    · split
      · next hset =>
        refine .step rfl (ih _ ⟨false, ?_⟩)
        cases h with
        | ordinary hc _ => cases hc
        | opens h => exact amid_of_written (written_of_namedSet? h hset) hending
      · exact .throw _
    · cases h with
      | ordinary hc _ => cases hc
      | closes h => exact .step rfl (.pure h)
    · exact .throw _
    · exact .throw _
    · exact .throw _
    · next hclose _ _ _ => exact (leaves_bracketRange ⟨within, h⟩ hclose).bind fun _ _ h => ih _ h

/-- What comes before the members: a negation, and a closing bracket or a sign that stands in the
first place and is a member there. -/
theorem leaves_bracketStart (seen : List CharSet) (fuel : Nat) (h : IsAmid ending (c :: r)) :
    Leaves (bracketStart seen fuel c r) (c :: r) fun _ r => IsAmid ending r := by
  induction fuel generalizing seen c r with
  | zero => exact .pure h
  | succ fuel ih =>
    rw [bracketStart]
    split
    · next hdash =>
      refine .moveOn_bind ?_
      rintro c' r' rfl
      exact ih _ (isStable_isAmid ending _ _ (by rw [eq_of_beq hdash]; rfl) h)
    · split
      · next hclose =>
        -- a closing bracket in the first place is a member, and then the text goes on within the
        -- brackets
        obtain ⟨rfl, -⟩ : c = ']' ∧ _ := by simpa using hclose
        obtain ⟨within, h⟩ := h
        cases h with
        | ordinary hc _ => cases hc
        | closes h =>
          cases r with
          | nil => nofun
          | cons d r => exact .step rfl (.pure ⟨false, amid_of_written h hending⟩)
      · exact .pure h

/-- A bracket expression is read as a set, and ends where one is written to end. -/
theorem leaves_bracket (h : Amid ending true r) :
    Leaves (bracket r) s fun e r => (∃ cs, e = .set cs) ∧ Written ending r := by
  -- what stands behind the bracket and the negation, in both cases
  have hmembers (negated : Bool) {c : Char} {r : List Char} (h : IsAmid ending (c :: r)) :
      Leaves (do
        let seen ← bracketStart [] (r.length + 2) c r
        let members ← bracketItems seen (r.length + 2)
        let members := if (← Read.flags).foldCase then members.foldCase else members
        return Regex.set (if negated then .complement members else members)) (c :: r)
        fun e r => (∃ cs, e = .set cs) ∧ Written ending r := by
    refine (leaves_bracketStart hending _ _ h).bind fun seen r h => ?_
    refine (leaves_bracketItems hending _ _ h).bind fun members r h => ?_
    exact .step rfl (.pure ⟨⟨_, rfl⟩, h⟩)
  unfold bracket
  refine .moveOn_bind ?_
  rintro c r' rfl
  dsimp only
  split
  · next hnegated =>
    have hr := h.tail (by rw [eq_of_beq hnegated]; rfl)
    refine .moveOn_bind ?_
    rintro d r rfl
    exact hmembers true ⟨true, hr⟩
  · exact .step rfl (hmembers false ⟨true, h⟩)

end

end CommandLanguage.Regex
