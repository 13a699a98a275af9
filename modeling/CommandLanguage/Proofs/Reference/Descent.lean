import CommandLanguage.Proofs.Reference.Dollars
import CommandLanguage.Proofs.Reference.Reading
import CommandLanguage.Proofs.Run.Returns

/-!
# How deep references lie within each other

Values get longer texts into a text, and a later pass goes over them. So it is not its length that
bounds how deep an expansion goes, but its open `$`: no pass adds one (`openAfter_expandGroups`,
`openAfter_expandBare`), since values are escaped, and the texts that are expanded within a text have
fewer of them (`expandGroups_congr`). An expansion then makes no use of what it is told to do
with texts that lie deeper than their number (`expandWithin_congr`), and it comes to an end without
them.
-/

namespace CommandLanguage.Reference

variable {inner inner' : List Char → Run (List Char)} {s : ScopeId} {form : Form} {text out : List Char}
  {b b' : Option Char} {c : Settings} {w w' : World} {ps : List Segment}

/-! ## What a pass adds

The text that comes out of a pass is compared with the one that it went over part by part, with the
character before each part handed along. -/

/-- A part that stays as it is adds as much to both texts. The rest is compared behind any
character, for only the part tells which one that is. -/
theorem openAfter_append_le (hb : b' = some '\\' → b = some '\\') (u : List Char) {v v' : List Char}
    (h : ∀ {b b' : Option Char}, (b' = some '\\' → b = some '\\') → openAfter b v ≤ openAfter b' v') :
    openAfter b (u ++ v) ≤ openAfter b' (u ++ v') := by
  rw [openAfter_append, openAfter_append]
  refine Nat.add_le_add (openAfter_mono hb u) (h ?_)
  cases u.getLast? with
  | none => exact hb
  | some _ => exact id

/-- An escaped text adds nothing, and no backslash stands behind the part whose place it takes. That
is what keeps a value that ends in a backslash from hiding more than was hidden before: it can only
take from the count. -/
theorem openAfter_escape_append_le (t : List Char) {u v v' : List Char} (hu : u ≠ [])
    (hlast : u.getLast? ≠ some '\\')
    (h : ∀ {b b' : Option Char}, (b' = some '\\' → b = some '\\') → openAfter b v ≤ openAfter b' v') :
    openAfter b (escape t ++ v) ≤ openAfter b' (u ++ v') := by
  rw [openAfter_append, openAfter_append, openAfter_escape, Nat.zero_add]
  refine Nat.le_trans (h fun hback => ?_) (Nat.le_add_left _ _)
  rw [List.getLast?_eq_some_getLast hu] at hback hlast
  exact absurd hback hlast

/-- No group ends in a backslash: its last character is its closing brace. -/
theorem getLast?_group (body : List Char) : (Segment.group body).text.getLast? ≠ some '\\' := by
  simp [Segment.text, List.getLast?_cons]

/-- A pass over the groups of a text adds no open `$`. By induction on the parts, for all characters
that may stand before them: a literal is the same in both texts, and what takes the place of a group
is escaped. -/
theorem openAfter_expandGroups {resolve : Reference → Run (List Char)}
    (hb : b' = some '\\' → b = some '\\')
    (h : expandGroups resolve form ps c w = (.value out, w')) :
    openAfter b out ≤ openAfter b' (ps.flatMap Segment.text) := by
  induction ps generalizing b b' w w' out with
  | nil =>
    cases h
    exact Nat.zero_le _
  | cons p rest ih =>
    rw [List.flatMap_cons]
    -- what is not replaced
    have hsame {w : World}
        (h : (do return p.text ++ (← expandGroups resolve form rest) : Run (List Char)) c w =
          (.value out, w')) : openAfter b out ≤ openAfter b' (p.text ++ rest.flatMap Segment.text) := by
      obtain ⟨v, w₁, hv, h⟩ := Run.exists_of_bind h
      cases h
      exact openAfter_append_le hb _ fun hb => ih hb hv
    cases p with
    | group body =>
      unfold expandGroups at h
      cases hread : form.read? body with
      | none =>
        rw [hread] at h
        exact hsame h
      | some r =>
        rw [hread] at h
        obtain ⟨result, w₁, -, h⟩ := Run.exists_of_bind h
        rw [Run.note_bind_apply] at h
        obtain ⟨v, w₂, hv, h⟩ := Run.exists_of_bind h
        cases h
        exact openAfter_escape_append_le result (List.cons_ne_nil _ _) (getLast?_group body)
          fun hb => ih hb hv
    | literal _ | bare _ => exact hsame h

/-- The same of a text, which begins with no character before it. -/
theorem openAfter_le_of_expandGroups {resolve : Reference → Run (List Char)}
    (h : expandGroups resolve form (segments text) c w = (.value out, w')) :
    openAfter none out ≤ openAfter none text := by
  have hle : openAfter none out ≤ openAfter none ((segments text).flatMap Segment.text) :=
    openAfter_expandGroups id h
  rwa [flatMap_text_segments] at hle

/-- The names that are cut out of a text. -/
theorem isName_of_mem_bareSegments {name : List Char} (h : .bare name ∈ bareSegments text) :
    Text.isName name = true := by
  fun_induction bareSegments text with
  | case1 => cases h
  | case2 r ih => exact ih (by simpa using h)
  | case3 r n rest hsplit _ ih =>
    rcases List.mem_cons.1 h with h | h
    · cases h
      exact Text.isName_of_splitName? hsplit
    · exact ih h
  | case4 r hsplit ih => exact ih (by simpa using h)
  | case5 c r hescape _ ih => exact ih (by simpa using h)

/-- No name ends in a backslash. -/
theorem getLast?_bare {name : List Char} (h : Text.isName name = true) :
    (Segment.bare name).text.getLast? ≠ some '\\' := by
  intro hlast
  have hmem : '\\' ∈ name := by
    have hmem := List.mem_of_getLast? hlast
    rcases List.mem_cons.1 hmem with hmem | hmem
    · cases hmem
    · exact hmem
  cases name with
  | nil => cases hmem
  | cons d name =>
    obtain ⟨hd, hname⟩ := Bool.and_eq_true_iff.1 h
    rcases List.mem_cons.1 hmem with rfl | hmem
    · cases hd
    · cases List.all_eq_true.1 hname _ hmem

/-- The pass over the names in a text adds no open `$`. What takes the place of a name is escaped,
and a name ends in no backslash that could be lost. -/
theorem openAfter_expandBare (hb : b' = some '\\' → b = some '\\')
    (hps : ∀ name, .bare name ∈ ps → Text.isName name = true)
    (h : expandBare s ps c w = (.value out, w')) :
    openAfter b out ≤ openAfter b' (ps.flatMap Segment.text) := by
  induction ps generalizing b b' w w' out with
  | nil =>
    cases h
    exact Nat.zero_le _
  | cons p rest ih =>
    have hrest := fun name hname => hps name (List.mem_cons_of_mem p hname)
    rw [List.flatMap_cons]
    cases p with
    | bare name =>
      -- a value is escaped, so the `$` of the reference is gone and none has come in its place
      obtain ⟨value, w₁, -, h⟩ := Run.exists_of_bind h
      obtain ⟨v, w₂, hv, h⟩ := Run.exists_of_bind h
      cases h
      exact openAfter_escape_append_le value (List.cons_ne_nil _ _)
        (getLast?_bare (hps name List.mem_cons_self)) fun hb => ih hb hrest hv
    | literal _ | group _ =>
      obtain ⟨v, w₁, hv, h⟩ := Run.exists_of_bind h
      cases h
      exact openAfter_append_le hb _ fun hb => ih hb hrest hv

/-- The same of the pass over the names in a text. -/
theorem openAfter_le_of_expandBare
    (h : expandBare s (bareSegments text) c w = (.value out, w')) :
    openAfter none out ≤ openAfter none text := by
  have hle : openAfter none out ≤ openAfter none ((bareSegments text).flatMap Segment.text) :=
    openAfter_expandBare id (fun _ => isName_of_mem_bareSegments) h
  rwa [flatMap_text_bareSegments] at hle

/-! ## What a pass expands -/

/-- A reference needs the texts in it only. Whatever else is done with texts makes no difference to
it. -/
theorem resolve_congr {r : Reference} (h : ∀ t ∈ r.texts, inner t = inner' t) :
    resolve inner s r = resolve inner' s r := by
  cases r with
  | replace name which pattern replacement =>
    have hpattern := h pattern List.mem_cons_self
    have hreplacement := h replacement (List.mem_cons_of_mem _ List.mem_cons_self)
    simp only [resolve, hpattern, hreplacement]
  | fallback name emptyCounts action word =>
    have hword := h word List.mem_cons_self
    simp only [resolve, hword]
  | remove name how pattern =>
    have hpattern := h pattern List.mem_cons_self
    simp only [resolve, hpattern]
  | element name view index =>
    have hindex := h index List.mem_cons_self
    simp only [resolve, hindex]
  | slice | changeCase | elements | size | whole => rfl

/-- A pass expands such texts only that have fewer open `$`. They stand in the body of a group, and
the `$` of the group itself is not in it. -/
theorem expandGroups_congr
    (h : ∀ t, openAfter none t < openAfter none text → inner t = inner' t) :
    expandGroups (resolve inner s) form (segments text) =
      expandGroups (resolve inner' s) form (segments text) := by
  -- the texts within a group have fewer open `$` than the text
  have hgroups : ∀ body, .group body ∈ segments text → ∀ r, form.read? body = some r →
      resolve inner s r = resolve inner' s r := by
    intro body hbody r hr
    refine resolve_congr fun t ht => h t ?_
    exact Nat.lt_of_le_of_lt (Form.openAfter_le_of_read? hr ht) (openAfter_lt_of_mem_segments hbody)
  generalize segments text = ps at hgroups ⊢
  induction ps with
  | nil => rfl
  | cons p rest ih =>
    have hrest := ih fun body hbody => hgroups body (List.mem_cons_of_mem p hbody)
    cases p with
    | group body =>
      have hbody := hgroups body List.mem_cons_self
      unfold expandGroups
      cases hread : form.read? body with
      | none => simp only [hrest]
      | some r => simp only [hbody r hread, hrest]
    | literal _ | bare _ => simp only [expandGroups, hrest]

/-- The passes one after the other: none of them has more open `$` to go over than the first one. So
what is asked of the texts that the first one expands is enough for all. -/
theorem expandForms_congr {n : Nat} (h : ∀ t, openAfter none t < n → inner t = inner' t)
    (forms : List Form) (hn : openAfter none text ≤ n) (w : World) :
    expandForms (resolve inner s) forms text c w = expandForms (resolve inner' s) forms text c w := by
  induction forms generalizing text w with
  | nil => rfl
  | cons form forms ih =>
    have hpass : expandGroups (resolve inner s) form (segments text) =
        expandGroups (resolve inner' s) form (segments text) :=
      expandGroups_congr fun t ht => h t (Nat.lt_of_lt_of_le ht hn)
    refine Run.bind_congr (by rw [hpass]) fun out w' hout => ih ?_ w'
    exact Nat.le_trans (openAfter_le_of_expandGroups hout) hn

/-- All passes over a text expand such texts only that have fewer open `$` than it. -/
theorem expandStep_congr (h : ∀ t, openAfter none t < openAfter none text → inner t = inner' t) :
    expandStep inner s text = expandStep inner' s text := by
  unfold expandStep
  split
  · funext c w
    exact Run.bind_congr (expandForms_congr h _ (Nat.le_refl _) w) fun _ _ _ => rfl
  · rfl

/-! ## Depth

Fuel is one way to say how deep an expansion may go, and what is done below is left open here
instead. Where this makes no difference, nothing ever goes so deep. -/

/-- Replaces the references of a text. What lies deeper within references than `depth` is left to
`deeper`, so that it can be said of a depth that it is enough: if it does not matter what `deeper`
does. -/
def expandWithin (deeper : List Char → Run (List Char)) (s : ScopeId) :
    Nat → List Char → Run (List Char)
  | 0, text => deeper text
  | depth + 1, text => expandStep (expandWithin deeper s depth) s text

/-- The expansion with fuel gives up on what lies deeper than its fuel. Written in this way, giving
up is one of the things that can be done there. -/
theorem expandFrom_eq (fuel : Nat) (s : ScopeId) (text : List Char) :
    expandFrom fuel s text = expandWithin (fun _ => Run.outOfFuel) s fuel text := by
  induction fuel generalizing text with
  | zero => rfl
  | succ fuel ih =>
    have hinner : expandFrom fuel s = expandWithin (fun _ => Run.outOfFuel) s fuel := funext ih
    rw [expandFrom, expandWithin, hinner]

/-- From the depth of the open `$` on, it makes no difference how deep one goes and what is done
there. By induction on the depth: each layer goes on with texts that have fewer open `$`. -/
theorem expandWithin_congr {deeper deeper' : List Char → Run (List Char)} {m n : Nat}
    (hm : openAfter none text < m) (hn : openAfter none text < n) :
    expandWithin deeper s m text = expandWithin deeper' s n text := by
  induction m generalizing n text with
  | zero => cases hm
  | succ m ih =>
    cases n with
    | zero => cases hn
    | succ n =>
      exact expandStep_congr fun t ht => ih (Nat.lt_of_lt_of_le ht (Nat.le_of_lt_succ hm))
        (Nat.lt_of_lt_of_le ht (Nat.le_of_lt_succ hn))

/-- Expansion takes fuel enough, so it goes as deep as there is anything. -/
theorem expand_eq_expandWithin (deeper : List Char → Run (List Char)) (s : ScopeId) {n : Nat}
    (hn : openAfter none text < n) : expand s text = expandWithin deeper s n text := by
  rw [expand, expandFrom_eq, openDollars_eq]
  exact expandWithin_congr (Nat.lt_succ_self _) hn

/-! ## The end of an expansion -/

/-- A run that comes to an end, and not for want of fuel. It is one more thing that is said of all
readings, and so it needs no induction of its own. -/
def finishing : Reading where
  Keeps Q m := ∀ c w, (∃ a, (m c w).1 = .value a ∧ Q a) ∨ ∃ f, (m c w).1 = .fault f
  keeps_pure h _ _ := .inl ⟨_, rfl, h⟩
  keeps_bind := by
    intro α β P R m f hm hf c w
    have hends := hm c w
    rcases Run.bind_cases m f c w with ⟨a, w', hmc, h⟩ | ⟨e, w', -, h⟩ | ⟨w', hmc, h⟩
    · rw [hmc] at hends
      rcases hends with ⟨a', ha, hP⟩ | ⟨_, ha⟩
      · cases ha
        rw [h]
        exact hf a hP c w'
      · cases ha
    · exact .inr ⟨e, by rw [h]⟩
    · rw [hmc] at hends
      rcases hends with ⟨_, ha, -⟩ | ⟨_, ha⟩ <;> cases ha
  keeps_fault _ _ _ := .inr ⟨_, rfl⟩
  keeps_engine c _ := .inl ⟨c.engine, rfl, trivial⟩
  keeps_note level text c w := by
    refine .inl ⟨(), ?_, trivial⟩
    unfold Run.note
    split <;> rfl
  keeps_read s name c w := by
    obtain ⟨v?, w', h, -⟩ := Run.read_apply s name c w
    exact .inl ⟨v?, by rw [h], trivial⟩

/-- A run that goes to some depth comes to an end if what is done there does. -/
theorem finishing_expandWithin {deeper : List Char → Run (List Char)}
    (h : ∀ t, finishing.Runs (deeper t)) (s : ScopeId) (depth : Nat) (text : List Char) :
    finishing.Runs (expandWithin deeper s depth text) := by
  induction depth generalizing text with
  | zero => exact h text
  | succ depth ih =>
    refine finishing.runs_expandStep ih (fun name _ => ?_) text
    exact finishing.runs_resolve_fallback ih (finishing.keeps_read s name) fun _ _ _ _ _ _ =>
      .inl ⟨(), rfl, trivial⟩

/-- An expansion comes to an end: what would be without one lies deeper than it goes. -/
theorem finishing_expand (s : ScopeId) (text : List Char) : finishing.Runs (expand s text) := by
  rw [expand_eq_expandWithin pure s (Nat.lt_succ_self _)]
  exact finishing_expandWithin (fun _ => .pure trivial) s _ text

/-- **Expansion descends.** Whatever the values are, it ends with a text or a fault; it is the
expansion by passes which expand the texts in references in the same way; no pass adds an open `$`;
the texts that a pass expands, and with them those of all passes together, have fewer open `$` than
what it goes over; and so none lies deeper than there are `$`. -/
theorem expand_descends (s : ScopeId) (text : List Char) :
    (∀ c w, (∃ out, (expand s text c w).1 = .value out) ∨ ∃ f, (expand s text c w).1 = .fault f) ∧
    expand s text = expandStep (expand s) s text ∧
    (∀ inner form c w out w',
      expandGroups (resolve inner s) form (segments text) c w = (.value out, w') →
        openAfter none out ≤ openAfter none text) ∧
    (∀ c w out w', expandBare s (bareSegments text) c w = (.value out, w') →
      openAfter none out ≤ openAfter none text) ∧
    (∀ inner inner', (∀ t, openAfter none t < openAfter none text → inner t = inner' t) →
      (∀ form, expandGroups (resolve inner s) form (segments text) =
        expandGroups (resolve inner' s) form (segments text)) ∧
      expandStep inner s text = expandStep inner' s text) ∧
    ∀ deeper, expandWithin deeper s (text.count '$' + 1) text = expand s text := by
  refine ⟨fun c w => ?_, ?_, ?_, ?_, ?_, fun deeper => ?_⟩
  · rcases finishing_expand s text c w with ⟨out, hout, -⟩ | hfault
    · exact .inl ⟨out, hout⟩
    · exact .inr hfault
  · -- both sides are runs with fuel for as many passes as there are open `$`
    have hstep := expand_eq_expandWithin pure s (Nat.lt_succ_self (openAfter none text))
    rw [hstep, expandWithin]
    refine expandStep_congr fun t ht => ?_
    rw [expand_eq_expandWithin pure s ht]
  · exact fun _ _ _ _ _ _ => openAfter_le_of_expandGroups
  · exact fun _ _ _ _ => openAfter_le_of_expandBare
  · intro inner inner' h
    exact ⟨fun _ => expandGroups_congr h, expandStep_congr h⟩
  · exact (expand_eq_expandWithin deeper s
      (Nat.lt_succ_of_le (openAfter_le_count none text))).symm

/-- A text with a reference in the word of another one. What is done with texts that have two open
`$`, as it has itself, makes no difference to it. -/
theorem expand_descends_word :
    let text := "$\x7ba:-$\x7bb\x7d\x7d".toList
    openAfter none text = 2 ∧ expandStep pure 0 text =
      expandStep (fun t => if openAfter none t < 2 then pure t else Run.outOfFuel) 0 text := by
  intro text
  have htwo : openAfter none text = 2 := by decide
  refine ⟨htwo, ((expand_descends 0 text).2.2.2.2.1 pure _ fun t ht => ?_).2⟩
  rw [htwo] at ht
  rw [if_pos ht]

end CommandLanguage.Reference
