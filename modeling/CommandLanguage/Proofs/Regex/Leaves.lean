import CommandLanguage.Proofs.Regex.Reading

/-!
# What readers leave

A reader that is not known to succeed can still be known to leave some text or other if it does.
`Leaves m s Q` says so: whenever `m` reads the text `s`, without flags and groups, to some end, what it
gives and the text that is left meet `Q`. The rules follow the steps of a reader.

Numbers and escapes are the first readers it is said of. They take nothing but digits, letters and
braces, so that they keep to any kind of text from which such characters can be taken
(`IsStable`).
-/

namespace CommandLanguage.Regex

open Engine (isOrdinary)

/-- What a reader gives and leaves of a text meets `Q`, if it reads it at all. Nothing is asked of a
fault: an expression that is refused is not searched for. -/
def Leaves {α : Type} (m : Read α) (s : List Char) (Q : α → List Char → Prop) : Prop :=
  ∀ a rd, m.run (.plain s) = .ok (a, rd) → ∃ r, rd = .plain r ∧ Q a r

namespace Leaves

variable {α β : Type} {m : Read α} {f : α → Read β} {s r : List Char} {a : α}
  {Q : α → List Char → Prop} {R : β → List Char → Prop}

theorem of_run (h : m.run (.plain s) = .ok (a, .plain r)) (hQ : Q a r) : Leaves m s Q := by
  intro a' rd hrun
  obtain ⟨rfl, rfl⟩ := Prod.mk.inj (Except.ok.inj (h.symm.trans hrun))
  exact ⟨r, rfl, hQ⟩

theorem of_eq {m' : Read α} {s' : List Char} (h : m.run (.plain s) = m'.run (.plain s'))
    (h' : Leaves m' s' Q) : Leaves m s Q := by
  intro a rd hrun
  exact h' a rd (h.symm.trans hrun)

theorem pure (hQ : Q a s) : Leaves (Pure.pure a) s Q := of_run rfl hQ

theorem throw (fault : Fault) : Leaves (throw fault : Read α) s Q := nofun

theorem bind (hm : Leaves m s Q) (hf : ∀ a r, Q a r → Leaves (f a) r R) :
    Leaves (m >>= f) s R := by
  intro b rd hrun
  rw [StateT.run_bind] at hrun
  cases hfirst : m.run (.plain s) with
  | error fault =>
    rw [hfirst] at hrun
    cases hrun
  | ok p =>
    obtain ⟨a, rd'⟩ := p
    obtain ⟨r, rfl, hQ⟩ := hm a rd' hfirst
    rw [hfirst] at hrun
    exact hf a r hQ b rd hrun

/-- A step that does not fail. What it gives is known, and the reader behind it is looked at
alone. -/
theorem step (hm : m.run (.plain s) = .ok (a, .plain r)) (hf : Leaves (f a) r R) :
    Leaves (m >>= f) s R :=
  bind (Q := fun a' r' => a' = a ∧ r' = r) (of_run hm ⟨rfl, rfl⟩) fun _ _ ⟨ha, hr⟩ => by
    rwa [ha, hr]

theorem throw_bind (fault : Fault) : Leaves ((MonadExcept.throw fault : Read α) >>= f) s R :=
  bind (throw fault) (Q := fun _ _ => False) fun _ _ h => h.elim

theorem lift {x : Except Fault α} (hQ : ∀ a, x = .ok a → Q a s) : Leaves (liftM x : Read α) s Q := by
  cases x with
  | error fault => exact throw fault
  | ok a => exact of_run rfl (hQ a rfl)

/-- What is computed without reading. -/
theorem lift_bind {x : Except Fault α} (hf : ∀ a, x = .ok a → Leaves (f a) s R) :
    Leaves ((liftM x : Read α) >>= f) s R := by
  cases x with
  | error fault => exact throw_bind fault
  | ok a => exact step rfl (hf a rfl)

theorem skip_rest {f : List Char → Read β} (hf : Leaves (f s) s R) :
    Leaves (do Read.skip; f (← Read.rest)) s R := of_eq (run_rest f s) hf

/-- Going on needs a character to go on with. -/
theorem moveOn_bind {f : Char × List Char → Read β} {s' : List Char} {fault : Fault}
    (hf : ∀ c r, s' = c :: r → Leaves (f (c, r)) (c :: r) R) :
    Leaves (Read.moveOn s' fault >>= f) s R := by
  cases s' with
  | nil => exact throw_bind fault
  | cons c r => exact step rfl (hf c r rfl)

end Leaves

/-! ## Numbers and escapes -/

/-- Texts of a kind from which ordinary characters can be taken. What is ahead of a reader within
brackets is of such a kind, and so is what is ahead of it outside of them. -/
def IsStable (T : List Char → Prop) : Prop :=
  ∀ c r, isOrdinary c = true → T (c :: r) → T r

theorem isOrdinary_of_kind {kind : Char → Bool} {c : Char} (hc : kind c = true)
    (hopen : kind '[' = false) (hclose : kind ']' = false) (hbackslash : kind '\\' = false) :
    isOrdinary c = true := by
  have hopen : c ≠ '[' := Text.ne_of_kind hc hopen
  have hclose : c ≠ ']' := Text.ne_of_kind hc hclose
  have hbackslash : c ≠ '\\' := Text.ne_of_kind hc hbackslash
  simp [isOrdinary, hopen, hclose, hbackslash]

theorem isOrdinary_of_isHexDigit {c : Char} (h : isHexDigit c = true) : isOrdinary c = true :=
  isOrdinary_of_kind h (by decide) (by decide) (by decide)

theorem isOrdinary_of_isEdgeChar {c : Char} (h : isEdgeChar c = true) : isOrdinary c = true :=
  isOrdinary_of_kind h (by decide) (by decide) (by decide)

section

variable {T : List Char → Prop} (hT : IsStable T) {s r : List Char}
include hT

theorem leaves_hexFixed (n : Nat) (c : Char) (h : T (c :: r)) :
    Leaves (hexFixed (n + 1) c r) s fun _ r => T r := by
  induction n generalizing c r s with
  | zero =>
    rw [hexFixed.eq_2]
    split
    · exact .throw_bind _
    · next hc =>
      exact .step rfl (.pure (hT c r (isOrdinary_of_isHexDigit (by simpa using hc)) h))
  | succ n ih =>
    rw [hexFixed.eq_3]
    split
    · exact .throw_bind _
    · next hc =>
      have hr := hT c r (isOrdinary_of_isHexDigit (by simpa using hc)) h
      refine .moveOn_bind ?_
      rintro d r' rfl
      exact (ih d hr).bind fun _ _ h => .pure h

theorem leaves_hexBrace (fuel : Nat) (h : T r) : Leaves (hexBrace fuel r) s fun _ r => T r := by
  induction fuel generalizing r s with
  | zero => exact .throw _
  | succ fuel ih =>
    rw [hexBrace]
    refine .moveOn_bind ?_
    rintro c r' rfl
    dsimp only
    split
    · next hc => exact .step rfl (.pure (hT c r' (by rw [eq_of_beq hc]; rfl) h))
    · split
      · exact .throw _
      · next hc =>
        have hr := hT c r' (isOrdinary_of_isHexDigit (by simpa using hc)) h
        exact (ih hr).bind fun _ _ h => .pure h

theorem leaves_hexEscape (length : Nat) (h : T r) :
    Leaves (hexEscape (length + 1) r) s fun _ r => T r := by
  unfold hexEscape
  refine .moveOn_bind ?_
  rintro c r' rfl
  dsimp only
  split
  · next hc =>
    have hr := hT c r' (by rw [eq_of_beq hc]; rfl) h
    refine (leaves_hexBrace hT _ hr).bind fun ds r h => ?_
    split
    · exact .throw_bind _
    · split
      · exact .step rfl (.pure h)
      · exact .throw _
  · refine (leaves_hexFixed hT length c h).bind fun ds r h => ?_
    split
    · exact .step rfl (.pure h)
    · exact .throw _

theorem leaves_edgeName (fuel : Nat) (h : T r) : Leaves (edgeName fuel r) s fun _ r => T r := by
  induction fuel generalizing r s with
  | zero => exact .throw _
  | succ fuel ih =>
    cases r with
    | nil => exact .throw _
    | cons c r =>
      rw [edgeName]
      split
      · next hc =>
        have hr := hT c r (isOrdinary_of_isEdgeChar hc) h
        exact .step rfl ((ih hr).bind fun _ _ h => .pure h)
      · split
        · next hc => exact .step rfl (.pure (hT c r (by rw [eq_of_beq hc]; rfl) h))
        · exact .throw _

theorem leaves_wordEdge (h : T r) : Leaves (wordEdge r) r fun _ r => T r := by
  unfold wordEdge
  split
  · refine .moveOn_bind ?_
    rintro c r' rfl
    dsimp only
    split
    · exact .step rfl (.pure h)
    · have hr := hT _ _ rfl h
      refine (leaves_edgeName hT _ hr).bind fun name r h => ?_
      split <;> first | exact .pure h | exact .throw _
  · exact .pure h

/-- An escape ends right behind its first character, or after more ordinary ones. Its first
character may be anything, and so it is passed for itself; the digits, letters and braces of longer
escapes are ordinary. -/
theorem leaves_escape (c : Char) (h : T r) : Leaves (escape (c :: r)) s fun _ r => T r := by
  unfold escape
  dsimp only
  split
  · exact .throw_bind _
  · refine .step rfl ?_
    have hspecial (c : Char) : Leaves (do return literal (← Read.flags) c) r fun _ r => T r :=
      .step rfl (.pure h)
    split
    -- the sets of properties, the numbers, the other sets and the characters with a letter
    · exact .throw _
    · exact .throw _
    · exact leaves_hexEscape hT 1 h
    · exact leaves_hexEscape hT 3 h
    · exact leaves_hexEscape hT 7 h
    iterate 6 exact .pure h
    iterate 6 exact hspecial _
    -- the conditions
    · exact .pure h
    · exact .pure h
    · exact leaves_wordEdge hT h
    iterate 3 exact .pure h
    · split
      · exact hspecial _
      · exact .throw _

end

end CommandLanguage.Regex
