import CommandLanguage.Proofs.Reference.Pass

/-!
# Splicing values into a text

A text that is put together from pieces is expanded by one pass for the slices and, later, one for
the references to whole texts. In between, the texts of the slices stand in the text, with their
`$` escaped but with their backslashes as they are. If one of them ends in a backslash and a
reference to a whole text follows, the backslash escapes the `$` of the reference: the reference is
taken for text, and the backslash is lost.

Nothing else goes wrong. `shown` is the text that comes out, `hides` tells whether a reference is
hidden in this way, and `expand_pieces` says that the text of the whole is put together from the
texts of the pieces exactly if none is.
-/

namespace CommandLanguage

/-- Whether an outcome is a given text. -/
def Outcome.isText (t : List Char) : Outcome (List Char) → Bool
  | .value u => u == t
  | _ => false

/-- The check says what it looks like. -/
theorem Outcome.eq_value_of_isText {t : List Char} {o : Outcome (List Char)}
    (h : o.isText t = true) : o = .value t := by
  cases o with
  | value u => rw [eq_of_beq h]
  | _ => cases h

namespace Reference

variable {inner : List Char → Run (List Char)} {s : ScopeId} {σ : Scopes}

/-! ## Single pieces -/

namespace Name

/-- A name has no braces. -/
theorem plain (n : Name) : ∀ c ∈ n.text, c ≠ '\x7b' ∧ c ≠ '\x7d' :=
  fun _ hc => ⟨n.ne_of_mem hc (by decide), n.ne_of_mem hc (by decide)⟩

end Name

namespace Piece

/-- The body of a slice has no braces, so its group ends with the first closing brace. -/
theorem plain_sliceBody (n : Name) (offset length : Numeral) :
    ∀ c ∈ sliceBody n offset length, c ≠ '\x7b' ∧ c ≠ '\x7d' := by
  have hdigits (d : Numeral) : ∀ c ∈ d.digits, c ≠ '\x7b' ∧ c ≠ '\x7d' :=
    fun _ hc => ⟨d.ne_of_mem hc (by decide), d.ne_of_mem hc (by decide)⟩
  have hcolon : (':' : Char) ≠ '\x7b' ∧ (':' : Char) ≠ '\x7d' := by decide
  refine List.forall_mem_append.2 ⟨n.plain, List.forall_mem_cons.2 ⟨hcolon, ?_⟩⟩
  exact List.forall_mem_append.2 ⟨hdigits offset, List.forall_mem_cons.2 ⟨hcolon, hdigits length⟩⟩

/-- The parts that a piece is cut into. -/
def segments : Piece → List Segment
  | literal t _ => literals t
  | whole n => [.group n.text]
  | slice n offset length => [.group (sliceBody n offset length)]

/-- The parts of a text that is put together from pieces are those of the pieces. No piece ends in a
backslash or begins a group that another one closes, so each of them is cut by itself. -/
theorem segments_flatMap_text (ps : List Piece) :
    Reference.segments (ps.flatMap text) = ps.flatMap segments := by
  induction ps with
  | nil => rw [List.flatMap_nil, Reference.segments]; rfl
  | cons p ps ih =>
    rw [List.flatMap_cons, List.flatMap_cons, ← ih]
    cases p with
    | literal t plain =>
      have hd : '$' ∉ t := fun h => (plain _ h).1 rfl
      have hlast : t.getLast? ≠ some '\\' := fun h => (plain _ (List.mem_of_getLast? h)).2.1 rfl
      have h := segments_escape_append (t := t) (r := ps.flatMap text) fun h => absurd h hlast
      rwa [escape_of_not_mem hd] at h
    | whole n => exact segments_group n.plain _
    | slice n offset length => exact segments_group (plain_sliceBody n offset length) _

/-- The groups of pieces are read as slices or as whole texts. -/
theorem read?_replace_of_mem_segments {ps : List Piece} {body : List Char}
    (h : .group body ∈ ps.flatMap segments) : Form.replace.read? body = none := by
  obtain ⟨p, -, hp⟩ := List.mem_flatMap.1 h
  cases p with
  | literal t _ => simp [segments, literals] at hp
  | whole n =>
    cases List.mem_singleton.1 hp
    exact read?_name n (by decide)
  | slice n offset length =>
    cases List.mem_singleton.1 hp
    exact read?_replace_sliceBody n offset length

end Piece

/-! ## Reading -/

/-- The text of a variable is read with the draws that are still to come, and no scope is
touched. -/
theorem readText_apply (s : ScopeId) (name : String) (c : Settings) (w : World) :
    ∃ w', readText s name c w =
        (.value (w.scopes.readAt s name w.draws).toText.toList, w') ∧ w'.scopes = w.scopes := by
  obtain ⟨v?, w', hread, hv, hσ⟩ := Run.read_apply s name c w
  refine ⟨w', ?_, hσ⟩
  rw [readText, readValue, bind_assoc, Run.bind_apply hread, pure_bind, hv]
  rfl

/-- A reference to a whole text gives the text that the piece stands for. -/
theorem resolve_whole_apply (n : Name) (c : Settings) (w : World) :
    ∃ w', resolve inner s (.whole (String.ofList n.text)) c w =
        (.value ((Piece.whole n).value w.scopes s w.draws), w') ∧ w'.scopes = w.scopes :=
  readText_apply s (String.ofList n.text) c w

/-- A reference to a slice gives the text that the piece stands for. Its operands are digits and are
read without a fault. -/
theorem resolve_slice_apply (n : Name) (offset length : Numeral) (c : Settings) (w : World) :
    ∃ w', resolve inner s (.slice (String.ofList n.text) offset.digits (some length.digits)) c w =
        (.value ((Piece.slice n offset length).value w.scopes s w.draws), w') ∧
      w'.scopes = w.scopes := by
  obtain ⟨w', hread, hσ⟩ := readText_apply s (String.ofList n.text) c w
  refine ⟨w', ?_, hσ⟩
  rw [resolve, Run.bind_apply hread]
  simp only [operand, operand?, offset.readInteger?_digits, length.readInteger?_digits, pure_bind]
  rfl

/-! ## A piece alone -/

/-- A reference alone is read by the first form that fits, and stands for its text. What takes its
place is escaped, so that the later forms find nothing, and the last step takes the backslashes away
again. -/
theorem expand_group {before after : List Form} {form : Form}
    (hall : Form.all = before ++ form :: after) {body : List Char}
    (hplain : ∀ c ∈ body, c ≠ '\x7b' ∧ c ≠ '\x7d')
    (hbefore : ∀ form ∈ before, form.read? body = none) {r : Reference}
    (hr : form.read? body = some r) {c : Settings} {w : World} {t : List Char}
    (hresolve : ∀ inner, ∃ w', resolve inner s r c w = (.value t, w')) :
    (expand s (Segment.group body).text c w).1 = .value t := by
  have hsegments : segments (Segment.group body).text = [.group body] := by
    have h := segments_group hplain []
    rw [List.append_nil] at h
    rw [h, segments]
  -- the forms before find nothing, and what takes the place of the group holds nothing for those
  -- behind
  have hstep (inner : List Char → Run (List Char)) :
      (expandStep inner s (Segment.group body).text c w).1 = .value t := by
    obtain ⟨w', hw'⟩ := hresolve inner
    rw [expandStep_eq, hall, expandForms_append_of_unread (by simpa [hsegments] using hbefore),
      expandForms, hsegments, expandGroups, hr]
    simp only [expandGroups, bind_assoc, pure_bind, List.append_nil]
    rw [Run.bind_apply hw', Run.note_bind_apply,
      expandForms_of_openDollars _ (openDollars_escape t), pure_bind,
      expandBare_of_openDollars (openDollars_escape t), pure_bind, unescape_escape]
    rfl
  exact hstep _

/-- A piece alone stands for its text. Each of the three kinds is read by one form and passed over
by the forms before it. -/
theorem expand_text (p : Piece) (s : ScopeId) (c : Settings) (w : World) :
    (expand s p.text c w).1 = .value (p.value w.scopes s w.draws) := by
  cases p with
  | literal t plain =>
    have hd : '$' ∉ t := fun h => (plain _ h).1 rfl
    -- without a `$` the text is its own escaped text
    have h := expand_escape (s := s) t
    rw [escape_of_not_mem hd] at h
    rw [Piece.text, h]
    rfl
  | whole n =>
    refine expand_group (show Form.all = Form.all.dropLast ++ .whole :: [] from rfl) n.plain
      (fun form hform => ?_) (read?_whole n) fun inner => ?_
    · exact read?_name n fun h => by
        subst h
        exact absurd hform (by decide)
    · exact (resolve_whole_apply n c w).imp fun _ h => h.1
  | slice n offset length =>
    refine expand_group (show Form.all = [.replace] ++ .slice :: Form.all.drop 2 from rfl)
      (Piece.plain_sliceBody n offset length)
      (List.forall_mem_singleton.2 (read?_replace_sliceBody n offset length))
      (read?_slice_sliceBody n offset length) fun inner => ?_
    exact (resolve_slice_apply n offset length c w).imp fun _ h => h.1

/-! ## Between the passes

From the pass for slices on, every piece comes with its text. That of a reference to a whole text
does not matter before its own pass. -/

/-- How a piece is written after the pass for slices. -/
def written : Piece × List Char → List Char
  | (.whole n, _) => (Segment.group n.text).text
  | (_, t) => escape t

/-- The parts of such a text; `before` is what stands between the last reference and the text. A
backslash at its end hides a reference to a whole text, and then the reference is cut as text. -/
def cut : List Char → List (Piece × List Char) → List Segment
  | before, [] => literals before
  | before, (.whole n, _) :: r =>
    if before.getLast? = some '\\' then
      literals (before.dropLast ++ (Segment.group n.text).text) ++ cut [] r
    else literals before ++ .group n.text :: cut [] r
  | before, (_, t) :: r => cut (before ++ t) r

/-- The text that comes out. Behind a hidden reference the search goes on with nothing before it:
the body of the reference ends in no backslash. -/
def shown : List Char → List (Piece × List Char) → List Char
  | before, [] => before
  | before, (.whole n, t) :: r =>
    if before.getLast? = some '\\' then
      before.dropLast ++ (Segment.group n.text).text ++ shown [] r
    else before ++ t ++ shown [] r
  | before, (_, t) :: r => shown (before ++ t) r

/-- Whether a reference is hidden: a backslash from a slice comes right before it. What is written
there by the pass for slices makes the `$` behind it an escaped one. -/
def hides : List Char → List (Piece × List Char) → Bool
  | _, [] => false
  | before, (.whole _, _) :: r => before.getLast? == some '\\' || hides [] r
  | before, (_, t) :: r => hides (before ++ t) r

/-- The parts of what is written after the pass for slices. A text that was spliced in and a literal
belong together, and only a reference to a whole text ends what stands before the next one. -/
theorem segments_written (before : List Char) (ws : List (Piece × List Char)) :
    segments (escape before ++ ws.flatMap written) = cut before ws := by
  -- a text that is no reference belongs to what stands before the next one
  have next {before t : List Char} {ws : List (Piece × List Char)}
      (ih : ∀ before, segments (escape before ++ ws.flatMap written) = cut before ws) :
      segments (escape before ++ (escape t ++ ws.flatMap written)) = cut (before ++ t) ws := by
    rw [← List.append_assoc, ← escape_append, ih]
  induction ws generalizing before with
  | nil =>
    rw [List.flatMap_nil, segments_escape_append (by simp), segments, List.append_nil, cut]
  | cons e ws ih =>
    obtain ⟨p, t⟩ := e
    have hws : segments (ws.flatMap written) = cut [] ws := ih []
    rw [List.flatMap_cons]
    cases p with
    | literal u _ => exact next ih
    | slice n offset length => exact next ih
    | whole n =>
      unfold cut
      split
      · rename_i hlast
        obtain ⟨u, rfl⟩ := List.getLast?_eq_some_iff.1 hlast
        rw [List.dropLast_concat, written, segments_escape_hidden, hws]
      · rename_i hlast
        rw [segments_escape_append fun h => absurd h hlast, written, segments_group n.plain, hws]

/-- Only references to whole texts are left. -/
theorem exists_name_of_mem_cut {before : List Char} {ws : List (Piece × List Char)}
    {body : List Char} (h : .group body ∈ cut before ws) : ∃ n : Name, body = n.text := by
  have hliterals (t : List Char) : Segment.group body ∉ literals t := by simp [literals]
  induction ws generalizing before with
  | nil => exact absurd h (hliterals before)
  | cons e ws ih =>
    obtain ⟨p, t⟩ := e
    cases p with
    | literal u _ => exact ih h
    | slice n offset length => exact ih h
    | whole n =>
      unfold cut at h
      split at h
      · -- a reference that the text before it hides stays a literal, and so does its name
        rcases List.mem_append.1 h with h | h
        · exact absurd h (hliterals _)
        · exact ih h
      · rcases List.mem_append.1 h with h | h
        · exact absurd h (hliterals _)
        · rcases List.mem_cons.1 h with h | h
          · cases h
            exact ⟨n, rfl⟩
          · exact ih h

/-! ## The two passes

For the pass for slices the texts of whole references are not known yet, and for the pass for whole
texts those of slices are just text. -/

/-- A piece stands for its text with some draws or other. Which draws these are depends on the
pieces before it, and it does not matter here. -/
def Stands (σ : Scopes) (s : ScopeId) (e : Piece × List Char) : Prop :=
  ∃ draws, e.2 = e.1.value σ s draws

/-- A run that gives the text of a piece for the draws still to come at that time. It gives a text
that the piece stands for with some draws, which is all that is needed of it. -/
theorem returns_value {p : Piece} {m : Run (List Char)}
    (h : ∀ c w, ∃ w', m c w = (.value (p.value w.scopes s w.draws), w') ∧ w'.scopes = w.scopes) :
    Run.Returns σ (fun t => Stands σ s (p, t)) m := by
  intro c w hw
  obtain ⟨w', hw', hσ⟩ := h c w
  rw [hw']
  exact ⟨_, rfl, ⟨w.draws, by rw [← hw]⟩, hσ.trans hw⟩

/-- What the pass for slices makes of pieces. Only the texts of references to whole texts are still
open. -/
def IsWritten (σ : Scopes) (s : ScopeId) (ps : List Piece) (text : List Char) : Prop :=
  ∃ ws : List (Piece × List Char), ws.map Prod.fst = ps ∧
    (∀ e ∈ ws, e.1.isWhole = false → Stands σ s e) ∧ text = ws.flatMap written

/-- One more piece in front. If it is a reference to a whole text, then any text may be noted beside
it for now. -/
theorem IsWritten.cons {p : Piece} {t text : List Char} {ps : List Piece}
    (hp : p.isWhole = false → Stands σ s (p, t)) (h : IsWritten σ s ps text) :
    IsWritten σ s (p :: ps) (written (p, t) ++ text) := by
  obtain ⟨ws, hws, hstands, htext⟩ := h
  exact ⟨(p, t) :: ws, by simp [hws], List.forall_mem_cons.2 ⟨hp, hstands⟩, by simp [htext]⟩

/-- The pass for slices replaces the slices. By induction on the pieces: all of its groups are
slices, which it reads, or whole texts, which it does not. -/
theorem returns_slices (ps : List Piece) :
    Run.Returns σ (IsWritten σ s ps)
      (expandGroups (resolve inner s) .slice (ps.flatMap Piece.segments)) := by
  induction ps with
  | nil => exact .pure ⟨[], rfl, List.forall_mem_nil _, rfl⟩
  | cons p ps ih =>
    rw [List.flatMap_cons]
    cases p with
    | literal t plain =>
      have hd : '$' ∉ t := fun h => (plain _ h).1 rfl
      have hstands : Stands σ s (.literal t plain, t) := ⟨fun _ => 0, rfl⟩
      rw [Piece.segments, expandGroups_literals]
      exact .bind ih fun text htext => .pure (htext.cons fun _ => hstands)
    | whole n =>
      -- the pass leaves it, so that any text may stand beside it
      have hread : Form.slice.read? n.text = none := read?_name n (by decide)
      simp only [Piece.segments, List.singleton_append, expandGroups, hread]
      refine .bind ih fun text htext => .pure ?_
      exact htext.cons (p := .whole n) (t := []) fun h => Bool.noConfusion h
    | slice n offset length =>
      have hresolve : Run.Returns σ (fun t => Stands σ s (.slice n offset length, t))
          (resolve inner s (.slice (String.ofList n.text) offset.digits (some length.digits))) :=
        returns_value (resolve_slice_apply n offset length)
      simp only [Piece.segments, List.singleton_append, expandGroups, read?_slice_sliceBody]
      refine .bind hresolve fun t ht => .bind (.note _ _) fun _ _ => ?_
      exact .bind ih fun text htext => .pure (htext.cons fun _ => ht)

/-- What comes of pieces after what stands before them. -/
def IsShown (σ : Scopes) (s : ScopeId) (ps : List Piece) (before text : List Char) : Prop :=
  ∃ ws : List (Piece × List Char), ws.map Prod.fst = ps ∧ (∀ e ∈ ws, Stands σ s e) ∧
    text = shown before ws

/-- One more piece in front, whose text is noted beside it. -/
theorem IsShown.cons {p : Piece} {t u before after rest : List Char} {ps : List Piece}
    (hp : Stands σ s (p, t)) (h : IsShown σ s ps after rest)
    (hshown : ∀ ws, shown before ((p, t) :: ws) = u ++ shown after ws) :
    IsShown σ s (p :: ps) before (u ++ rest) := by
  obtain ⟨ws, hws, hstands, hrest⟩ := h
  refine ⟨(p, t) :: ws, by simp [hws], List.forall_mem_cons.2 ⟨hp, hstands⟩, ?_⟩
  rw [hrest, hshown]

/-- The pass for whole texts replaces the references to them that are not hidden. By induction on
the pieces, with what stands before them: a hidden reference is text to this pass, and it is passed
over. -/
theorem returns_wholes (before : List Char) {ws : List (Piece × List Char)}
    (h : ∀ e ∈ ws, e.1.isWhole = false → Stands σ s e) :
    Run.Returns σ (fun text => ∃ t, text = escape t ∧ IsShown σ s (ws.map Prod.fst) before t)
      (expandGroups (resolve inner s) .whole (cut before ws)) := by
  induction ws generalizing before with
  | nil =>
    rw [cut, ← List.append_nil (literals before), expandGroups_literals]
    simp only [expandGroups, pure_bind, List.append_nil]
    exact .pure ⟨before, rfl, [], rfl, List.forall_mem_nil _, rfl⟩
  | cons e ws ih =>
    obtain ⟨p, t⟩ := e
    obtain ⟨hp, hws⟩ := List.forall_mem_cons.1 h
    rw [List.map_cons]
    cases p with
    | literal _ _ | slice _ _ _ =>
      refine (ih (before ++ t) hws).mono fun text h => ?_
      obtain ⟨rest, htext, hrest⟩ := h
      exact ⟨rest, htext, hrest.cons (u := []) (hp rfl) fun _ => rfl⟩
    | whole n =>
      unfold cut
      split
      · rename_i hlast
        -- a hidden reference stands for a text that does not come out
        have hstands : Stands σ s (.whole n, (Piece.whole n).value σ s fun _ => 0) :=
          ⟨fun _ => 0, rfl⟩
        rw [expandGroups_literals]
        refine .bind (ih [] hws) fun text h => .pure ?_
        obtain ⟨rest, htext, hrest⟩ := h
        refine ⟨_, ?_, hrest.cons hstands fun ws => by rw [shown, if_pos hlast]⟩
        rw [htext, ← escape_append]
      · rename_i hlast
        have hresolve : Run.Returns σ (fun t => Stands σ s (.whole n, t))
            (resolve inner s (.whole (String.ofList n.text))) :=
          returns_value (resolve_whole_apply n)
        rw [expandGroups_literals]
        simp only [expandGroups, read?_whole, bind_assoc, pure_bind]
        refine .bind hresolve fun t ht => .bind (.note _ _) fun _ _ => ?_
        refine .bind (ih [] hws) fun text h => .pure ?_
        obtain ⟨rest, htext, hrest⟩ := h
        refine ⟨_, ?_, hrest.cons ht fun ws => by rw [shown, if_neg hlast]⟩
        rw [htext, escape_append, escape_append, List.append_assoc]

/-- What comes of a text that is put together from pieces. The pass for slices goes over all of them
before the one for whole texts does, and the first can hide what the second looks for. -/
theorem returns_expand (ps : List Piece) :
    Run.Returns σ (IsShown σ s ps []) (expand s (ps.flatMap Piece.text)) := by
  have hstep (inner : List Char → Run (List Char)) :
      Run.Returns σ (IsShown σ s ps []) (expandStep inner s (ps.flatMap Piece.text)) := by
    -- the first form reads no piece
    have hreplace : ∀ form ∈ [Form.replace], ∀ body,
        .group body ∈ segments (ps.flatMap Piece.text) → form.read? body = none := by
      intro form hform body hbody
      rw [List.mem_singleton.1 hform]
      rw [Piece.segments_flatMap_text] at hbody
      exact Piece.read?_replace_of_mem_segments hbody
    rw [expandStep_eq, show Form.all = [.replace] ++ .slice :: Form.all.drop 2 from rfl,
      expandForms_append_of_unread hreplace, expandForms, Piece.segments_flatMap_text, bind_assoc]
    refine .bind (returns_slices ps) fun text hwritten => ?_
    obtain ⟨ws, hfst, hstands, htext⟩ := hwritten
    have hcut : segments text = cut [] ws := by
      rw [htext]
      exact segments_written [] ws
    -- once the slices are gone, no form but the last reads anything
    have hothers : ∀ form ∈ (Form.all.drop 2).dropLast, ∀ body,
        .group body ∈ segments text → form.read? body = none := by
      intro form hform body hbody
      rw [hcut] at hbody
      obtain ⟨n, rfl⟩ := exists_name_of_mem_cut hbody
      exact read?_name n fun h => by
        subst h
        exact absurd hform (by decide)
    rw [show Form.all.drop 2 = (Form.all.drop 2).dropLast ++ [.whole] from rfl,
      expandForms_append_of_unread hothers, expandForms, hcut, bind_assoc, ← hfst]
    refine .bind (returns_wholes [] hstands) fun text hshown => ?_
    obtain ⟨t, htext, ht⟩ := hshown
    rw [expandForms, pure_bind, htext, expandBare_of_openDollars (openDollars_escape _), pure_bind,
      unescape_escape]
    exact .pure ht
  exact hstep _

/-! ## Nothing else goes wrong -/

/-- What comes out is put together from the texts of the pieces exactly if nothing is hidden. At the
first hidden reference there is a `$` where there should be a backslash, so that no later text can
make up for it. -/
theorem shown_eq_iff (before : List Char) (ws : List (Piece × List Char)) :
    shown before ws = before ++ ws.flatMap Prod.snd ↔ hides before ws = false := by
  induction ws generalizing before with
  | nil => simp [shown, hides]
  | cons e ws ih =>
    obtain ⟨p, t⟩ := e
    cases p with
    | literal u _ => simpa [shown, hides] using ih (before ++ t)
    | slice n offset length => simpa [shown, hides] using ih (before ++ t)
    | whole n =>
      by_cases hlast : before.getLast? = some '\\'
      · obtain ⟨u, rfl⟩ := List.getLast?_eq_some_iff.1 hlast
        simp [shown, hides, Segment.text]
      · simpa [shown, hides, hlast] using ih []

/-- **Expansion puts texts together from those of their pieces, unless a reference is hidden.** The
text of every piece is what the piece alone is expanded to. Only for pieces that draw a random
number the draws may be other ones. -/
theorem expand_pieces (s : ScopeId) (ps : List Piece) (c : Settings) (w : World) :
    ∃ ws : List (Piece × List Char), ws.map Prod.fst = ps ∧
      (∀ e ∈ ws, ∃ draws, (e.1.draws w.scopes s = false → draws = w.draws) ∧
        (expand s e.1.text c { w with draws }).1 = .value e.2) ∧
      (expand s (ps.flatMap Piece.text) c w).1 = .value (shown [] ws) ∧
      ((expand s (ps.flatMap Piece.text) c w).1 = .value (ws.flatMap Prod.snd) ↔
        hides [] ws = false) := by
  obtain ⟨text, htext, ⟨ws, hfst, hstands, rfl⟩, -⟩ := returns_expand (s := s) ps c w rfl
  refine ⟨ws, hfst, fun e he => ?_, htext, ?_⟩
  · obtain ⟨draws, hvalue⟩ := hstands e he
    cases hdraws : e.1.draws w.scopes s with
    | true =>
      refine ⟨draws, nofun, ?_⟩
      rw [hvalue]
      exact expand_text e.1 s c { w with draws }
    | false =>
      refine ⟨w.draws, fun _ => rfl, ?_⟩
      rw [hvalue, Piece.value_eq_of_not_draws hdraws draws w.draws]
      exact expand_text e.1 s c w
  · rw [htext, Outcome.value.injEq]
    exact shown_eq_iff [] ws

/-- A world in which `a` is a backslash and `b` is an `x`. -/
def backslashWorld : World where
  scopes := (Scopes.root.define 0 "a" (.text "\\")).define 0 "b" (.text "x")

/-- A slice that is a backslash hides the reference after it: what comes out is not the backslash
and the `x` that the two stand for alone. -/
theorem expand_slice_hides :
    (expand 0 "$\x7ba:0:1\x7d".toList {} backslashWorld).1 = .value ['\\'] ∧
      (expand 0 "$\x7bb\x7d".toList {} backslashWorld).1 = .value ['x'] ∧
      (expand 0 "$\x7ba:0:1\x7d$\x7bb\x7d".toList {} backslashWorld).1 =
        .value "$\x7bb\x7d".toList :=
  ⟨Outcome.eq_value_of_isText (by decide +kernel), Outcome.eq_value_of_isText (by decide +kernel),
    Outcome.eq_value_of_isText (by decide +kernel)⟩

end Reference

end CommandLanguage
