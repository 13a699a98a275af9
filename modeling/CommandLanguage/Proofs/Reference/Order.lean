import CommandLanguage.Proofs.Reference.Descent
import CommandLanguage.Proofs.Reference.Forms
import CommandLanguage.Proofs.Reference.Pass
import CommandLanguage.Proofs.Reference.Splicing

/-!
# The order of the forms

A text is searched for one form of references after the other. For a single reference the order does
not matter: only one form reads it, and what takes its place holds no reference (`expandForms_group`).
The texts in the reference are expanded in their turn, and there the order does matter once references
stand beside each other, as one of them may assign what another reads. So it is for texts whose
references lie within each other, but not beside each other, that the order makes no difference at any
depth (`expandListedFrom_of_nested`).

* `expandStepIn`, `expandListed` — expansion with the forms in another order, in a text alone or in all
  texts within it, too;
* `opensGroup` — whether a `${` stands in a text;
* `Nested` — the texts with no more than one reference, in which each text is again such a text.
-/

namespace CommandLanguage

/-! ## Braces -/

namespace Braces

/-- Whether the braces of a text are balanced, within `depth` groups that are open before it. -/
def isBalanced (depth : Nat) : List Char → Bool
  | [] => depth == 0
  | c :: r =>
    if c == '\x7b' then isBalanced (depth + 1) r
    else if c == '\x7d' then depth != 0 && isBalanced (depth - 1) r
    else isBalanced depth r

/-- The search for the closing brace of a group passes over balanced braces and comes out at the
depth it had. -/
theorem closing?_of_isBalanced {depth : Nat} {body : List Char} (h : isBalanced depth body = true)
    (r : List Char) : closing? (depth + 1) (body ++ '\x7d' :: r) = some body.length := by
  induction body generalizing depth with
  | nil =>
    obtain rfl : depth = 0 := by simpa [isBalanced] using h
    rfl
  | cons c body ih =>
    rw [isBalanced] at h
    rw [List.cons_append, closing?, List.length_cons]
    split at h
    · rename_i hc
      rw [if_pos hc, ih h]
      rfl
    · rename_i hopen
      rw [if_neg hopen]
      split at h
      · rename_i hc
        -- a closing brace within the body closes one of those that were opened in it
        obtain ⟨hdepth, h⟩ : depth ≠ 0 ∧ isBalanced (depth - 1) body = true := by simpa using h
        obtain ⟨n, rfl⟩ := Nat.exists_eq_succ_of_ne_zero hdepth
        rw [if_pos hc, if_neg (by omega), Nat.add_sub_cancel]
        have hrest : closing? (n + 1) (body ++ '\x7d' :: r) = some body.length := ih h
        rw [hrest]
        rfl
      · rename_i hc
        rw [if_neg hc, ih h]
        rfl

/-- A group with balanced braces in it ends with the brace behind it. -/
theorem splitGroup?_of_isBalanced {body : List Char} (h : isBalanced 0 body = true)
    (r : List Char) : splitGroup? (body ++ '\x7d' :: r) = some (body, r) := by
  simp [splitGroup?, closing?_of_isBalanced h]

end Braces

namespace Reference

variable {inner : List Char → Run (List Char)} {s : ScopeId} {text u v w body : List Char}
  {b : Option Char} {forms : List Form} {resolve : Reference → Run (List Char)}

/-! ## Texts without groups

Once the only group of a text has been replaced, no form has anything left to do. So it has to be
known of the text around it, and of the value in its place, that they open no group. -/

/-- Whether a `${` stands in a text. A `$` with a backslash before it is none. A text may open no
group and still hold names behind a `$`, which come after all forms. -/
def opensGroup : List Char → Bool
  | [] => false
  | '\\' :: '$' :: r => opensGroup r
  | '$' :: '\x7b' :: _ => true
  | _ :: r => opensGroup r

/-- A character opens no group if it does not with the one behind it. -/
theorem opensGroup_cons {c : Char} {r : List Char} (h : opensGroup r = false)
    (hc : c = '$' → r.head? ≠ some '\x7b') : opensGroup (c :: r) = false := by
  rw [opensGroup.eq_def]
  split
  · rfl
  · rename_i heq
    obtain ⟨rfl, rfl⟩ := List.cons.inj heq
    -- the `$` opened no group before it had a backslash
    rw [opensGroup.eq_def] at h
    split at h
    · rename_i heq
      cases heq
    · rename_i heq
      cases heq
    · cases h
    · rename_i heq
      cases heq
      exact h
  · rename_i heq
    obtain ⟨rfl, rfl⟩ := List.cons.inj heq
    exact absurd rfl (hc rfl)
  · rename_i heq
    obtain ⟨rfl, rfl⟩ := List.cons.inj heq
    exact h

/-- A text that opens no group has none. -/
theorem exists_literal_of_opensGroup (h : opensGroup text = false) :
    ∀ p ∈ segments text, ∃ t, p = .literal t := by
  fun_induction segments text with
  | case1 =>
    intro p hp
    cases hp
  | case2 r ih => exact List.forall_mem_cons.2 ⟨⟨_, rfl⟩, ih (by rwa [opensGroup] at h)⟩
  | case3 => simp [opensGroup] at h
  | case4 => simp [opensGroup] at h
  | case5 c r hescape hgroup ih =>
    rw [opensGroup] at h
    · exact List.forall_mem_cons.2 ⟨⟨_, rfl⟩, ih h⟩
    · exact hescape
    · exact hgroup

/-- Where no group is opened, there is none. -/
theorem not_mem_segments_of_opensGroup (h : opensGroup text = false) (body : List Char) :
    Segment.group body ∉ segments text := by
  intro hmem
  obtain ⟨t, ht⟩ := exists_literal_of_opensGroup h _ hmem
  cases ht

/-- An escaped text opens no group, and none is opened where it meets another one: if its last
character is a `$`, it has its backslash. -/
theorem opensGroup_escape_append (t : List Char) (hw : opensGroup w = false) :
    opensGroup (escape t ++ w) = false := by
  induction t with
  | nil => exact hw
  | cons c t ih =>
    by_cases hc : c = '$'
    · rw [escape_cons, if_pos hc]
      exact ih
    · rw [escape_cons, if_neg hc]
      exact opensGroup_cons ih fun h => absurd h hc

/-- What a text does not end in, its rest does not end in either. -/
theorem getLast?_ne_of_cons {c d : Char} {r : List Char} (h : (c :: r).getLast? ≠ some d) :
    r.getLast? ≠ some d := by
  intro hr
  rw [List.getLast?_cons, hr] at h
  exact h rfl

/-- Two texts open no group together if neither does alone, and the first one does not end in the
`$` of one. -/
theorem opensGroup_append (hu : opensGroup u = false) (hlast : u.getLast? ≠ some '$')
    (hv : opensGroup v = false) : opensGroup (u ++ v) = false := by
  fun_induction opensGroup u with
  | case1 => exact hv
  | case2 r ih => exact ih hu (getLast?_ne_of_cons (getLast?_ne_of_cons hlast))
  | case3 => cases hu
  | case4 c r hescape hgroup ih =>
    refine opensGroup_cons (ih hu (getLast?_ne_of_cons hlast)) fun hc => ?_
    cases r with
    | nil =>
      rw [hc] at hlast
      exact absurd rfl hlast
    | cons d r =>
      intro hd
      exact hgroup r hc (by rw [Option.some.inj hd])

/-- A text is cut into parts up to its end, if that neither escapes nor opens what follows. -/
theorem segments_append (hu : opensGroup u = false) (hdollar : u.getLast? ≠ some '$')
    (hescape : u.getLast? ≠ some '\\') (v : List Char) :
    segments (u ++ v) = segments u ++ segments v := by
  fun_induction segments u with
  | case1 => rfl
  | case2 r ih =>
    rw [opensGroup] at hu
    have hr := ih hu (getLast?_ne_of_cons (getLast?_ne_of_cons hdollar))
      (getLast?_ne_of_cons (getLast?_ne_of_cons hescape))
    rw [List.cons_append, List.cons_append, segments, hr]
    rfl
  | case3 => simp [opensGroup] at hu
  | case4 => simp [opensGroup] at hu
  | case5 c r hpair hgroup ih =>
    rw [opensGroup] at hu
    · have hr := ih hu (getLast?_ne_of_cons hdollar) (getLast?_ne_of_cons hescape)
      rw [List.cons_append, segments, hr]
      · rfl
      -- what makes the first character special stands in `u` if it stands in the whole text
      · intro r' hc hr'
        cases r with
        | nil =>
          rw [hc] at hescape
          exact hescape rfl
        | cons d r =>
          obtain ⟨rfl, -⟩ := List.cons.inj hr'
          exact hpair r hc rfl
      · intro r' hc hr'
        cases r with
        | nil =>
          rw [hc] at hdollar
          exact hdollar rfl
        | cons d r =>
          obtain ⟨rfl, -⟩ := List.cons.inj hr'
          exact hgroup r hc rfl
    · exact hpair
    · exact hgroup

/-! ## Other orders

Expansion is written out once more here with the forms as an argument, and it is shown to be the one
that the program has if they come in its order. -/

/-- Replaces the references of a text, those in braces form by form in the order of `forms`, given how
to expand the texts in them. -/
def expandStepIn (forms : List Form) (inner : List Char → Run (List Char)) (s : ScopeId)
    (text : List Char) : Run (List Char) :=
  if text.contains '$' then do
    let text ← expandForms (Reference.resolve inner s) forms text
    return unescape (← expandBare s (bareSegments text))
  else pure text

/-- Replaces the references of a text, in it and in all texts within it in the order of `forms`, if
they are not deeper within each other than the fuel. It is `expandFrom` but for the order. -/
def expandListedFrom (forms : List Form) : Nat → ScopeId → List Char → Run (List Char)
  | 0, _, _ => Run.outOfFuel
  | fuel + 1, s, text => expandStepIn forms (expandListedFrom forms fuel s) s text

/-- Replaces the references of a text, in it and in all texts within it in the order of `forms`. -/
def expandListed (forms : List Form) (s : ScopeId) (text : List Char) : Run (List Char) :=
  expandListedFrom forms (openDollars text + 1) s text

/-- In the order in which texts are searched, one step is a step of expansion. -/
theorem expandStepIn_all : expandStepIn Form.all = expandStep := rfl

/-- With the same fuel, it is expansion with that fuel. -/
theorem expandListedFrom_all (fuel : Nat) (s : ScopeId) :
    expandListedFrom Form.all fuel s = expandFrom fuel s := by
  funext text
  induction fuel generalizing text with
  | zero => rfl
  | succ fuel ih => rw [expandListedFrom, expandFrom, funext ih, expandStepIn_all]

/-- In the order in which texts are searched, it is expansion itself. -/
theorem expandListed_all : expandListed Form.all = expand := by
  funext s text
  rw [expandListed, expand, expandListedFrom_all]

/-- Only texts that have fewer open `$` are expanded on the way. -/
theorem expandStepIn_congr {inner' : List Char → Run (List Char)}
    (h : ∀ t, openAfter none t < openAfter none text → inner t = inner' t) :
    expandStepIn forms inner s text = expandStepIn forms inner' s text := by
  rw [expandStepIn, expandStepIn]
  split
  · funext c w
    exact Run.bind_congr (expandForms_congr h forms (Nat.le_refl _) w) fun _ _ _ => rfl
  · rfl

/-- Any fuel above the number of open `$` does the same, in whichever order the forms are. Every
text that is expanded on the way has fewer of them. -/
theorem expandListedFrom_congr {m n : Nat} (hm : openAfter none text < m)
    (hn : openAfter none text < n) :
    expandListedFrom forms m s text = expandListedFrom forms n s text := by
  induction m generalizing n text with
  | zero => cases hm
  | succ m ih =>
    cases n with
    | zero => cases hn
    | succ n =>
      apply expandStepIn_congr
      intro t ht
      exact ih (Nat.lt_of_lt_of_le ht (Nat.le_of_lt_succ hm))
        (Nat.lt_of_lt_of_le ht (Nat.le_of_lt_succ hn))

/-- The fuel is enough: the texts within a text are expanded as texts are. -/
theorem expandListed_eq_step (forms : List Form) (s : ScopeId) (text : List Char) :
    expandListed forms s text = expandStepIn forms (expandListed forms s) s text := by
  rw [expandListed, expandListedFrom]
  apply expandStepIn_congr
  intro t ht
  rw [expandListed]
  apply expandListedFrom_congr
  · rwa [openDollars_eq]
  · rw [openDollars_eq]
    exact Nat.lt_succ_self _

/-! ## A single reference -/

/-- Texts that may stand before and behind a group: neither opens another one, alone or with what
stands beside it. -/
structure Frame (u w : List Char) : Prop where
  opens_left : opensGroup u = false
  opens_right : opensGroup w = false
  not_dollar : u.getLast? ≠ some '$'
  not_escape : u.getLast? ≠ some '\\'

theorem Frame.nil : Frame [] [] := ⟨rfl, rfl, nofun, nofun⟩

/-- A group between two such texts is one part, and the texts are cut as they are alone. So a pass
has one group to look at. -/
theorem Frame.segments_eq (h : Frame u w) (hbody : Braces.isBalanced 0 body = true) :
    segments (u ++ ((Segment.group body).text ++ w)) =
      segments u ++ .group body :: segments w := by
  rw [segments_append h.opens_left h.not_dollar h.not_escape,
    segments_group_of_splitGroup? (Braces.splitGroup?_of_isBalanced hbody w)]

/-- What takes the place of a group opens none. -/
theorem Frame.opensGroup_escape (h : Frame u w) (t : List Char) :
    opensGroup (u ++ (escape t ++ w)) = false :=
  opensGroup_append h.opens_left h.not_dollar (opensGroup_escape_append t h.opens_right)

/-- A pass goes over one part after the other. -/
theorem expandGroups_append (form : Form) (ps qs : List Segment) :
    expandGroups resolve form (ps ++ qs) = do
      let t ← expandGroups resolve form ps
      return t ++ (← expandGroups resolve form qs) := by
  induction ps with
  | nil => simp [expandGroups]
  | cons p ps ih =>
    cases p with
    | group body =>
      cases hread : form.read? body with
      | none =>
        simp only [List.cons_append, expandGroups, hread, ih, bind_assoc, pure_bind,
          List.append_assoc]
      | some r =>
        simp only [List.cons_append, expandGroups, hread, ih, bind_assoc, pure_bind,
          List.append_assoc]
    | _ => simp only [List.cons_append, expandGroups, ih, bind_assoc, pure_bind, List.append_assoc]

/-- No form finds anything in a text that opens no group. -/
theorem expandForms_of_opensGroup (forms : List Form) (h : opensGroup text = false) :
    expandForms resolve forms text = pure text := by
  rw [← List.append_nil forms, expandForms_append_of_unread, expandForms]
  intro form _ body hbody
  exact absurd hbody (not_mem_segments_of_opensGroup h body)

/-- Replaces the reference of a group between two texts, if it is one. No order of the forms is
asked for here, only which of them reads the body. -/
def expandSingle (resolve : Reference → Run (List Char)) (u body w : List Char) :
    Run (List Char) :=
  match (Form.only body).read? body with
  | none => return u ++ ((Segment.group body).text ++ w)
  | some r => do
    let result ← resolve r
    Run.note .trace fun _ =>
      s!"expand pass={(Form.only body).name} body={Text.quote (String.ofList body)} " ++
        s!"result={Text.quote (String.ofList result)}"
    return u ++ (escape result ++ w)

/-- A form that does not read the only group of a text reads none. -/
theorem Frame.unread (h : Frame u w) (hbody : Braces.isBalanced 0 body = true) {form : Form}
    (hread : form.read? body = none) :
    ∀ body', .group body' ∈ segments (u ++ ((Segment.group body).text ++ w)) →
      form.read? body' = none := by
  intro body' hmem
  rw [h.segments_eq hbody] at hmem
  rcases List.mem_append.1 hmem with hmem | hmem
  · exact absurd hmem (not_mem_segments_of_opensGroup h.opens_left body')
  · rcases List.mem_cons.1 hmem with heq | hmem
    · cases heq
      exact hread
    · exact absurd hmem (not_mem_segments_of_opensGroup h.opens_right body')

/-- The pass of a form that reads the only group of a text. -/
theorem Frame.expandGroups_eq (h : Frame u w) (hbody : Braces.isBalanced 0 body = true) {form : Form}
    {r : Reference} (hread : form.read? body = some r) :
    expandGroups resolve form (segments (u ++ ((Segment.group body).text ++ w))) = do
      let result ← resolve r
      Run.note .trace fun _ =>
        s!"expand pass={form.name} body={Text.quote (String.ofList body)} " ++
          s!"result={Text.quote (String.ofList result)}"
      return u ++ (escape result ++ w) := by
  have hkept {t : List Char} (ht : opensGroup t = false) :
      expandGroups resolve form (segments t) = pure t := by
    rw [expandGroups_of_unread, flatMap_text_segments]
    intro body' hmem
    exact absurd hmem (not_mem_segments_of_opensGroup ht body')
  rw [h.segments_eq hbody, expandGroups_append, hkept h.opens_left, pure_bind]
  simp only [expandGroups, hread, hkept h.opens_right, bind_assoc, pure_bind]

/-- A single group is replaced as the only form says that can fit it, whenever that has its turn.
The forms before it do not read the group, and those behind it find no group any more. -/
theorem expandForms_group (h : Frame u w) (hbody : Braces.isBalanced 0 body = true)
    (hforms : ∀ form, form ∈ forms) :
    expandForms resolve forms (u ++ ((Segment.group body).text ++ w)) =
      expandSingle resolve u body w := by
  have hothers {form : Form} (hform : form ≠ Form.only body) : form.read? body = none := by
    refine Option.eq_none_iff_forall_ne_some.2 fun r hr => ?_
    exact hform (Form.only_of_read? hr).symm
  rw [expandSingle]
  cases hread : (Form.only body).read? body with
  | none =>
    rw [← List.append_nil forms, expandForms_append_of_unread, expandForms]
    intro form _
    refine h.unread hbody ?_
    by_cases hform : form = Form.only body
    · rw [hform, hread]
    · exact hothers hform
  | some r =>
    obtain ⟨before, after, rfl, hbefore⟩ := List.eq_append_cons_of_mem (hforms (Form.only body))
    rw [expandForms_append_of_unread, expandForms, h.expandGroups_eq hbody hread]
    · -- the forms that come later find nothing in what has taken its place
      simp only [bind_assoc, pure_bind, expandForms_of_opensGroup after (h.opensGroup_escape _)]
    · intro form hform
      exact h.unread hbody (hothers fun heq => hbefore (heq ▸ hform))

/-- A text with a single group. The order of the forms makes no difference, as only one of them
reads the group and what it puts there opens none. -/
theorem expandStepIn_group (inner : List Char → Run (List Char)) (s : ScopeId)
    (hforms : ∀ form, form ∈ forms) (h : Frame u w) (hbody : Braces.isBalanced 0 body = true) :
    expandStepIn forms inner s (u ++ ((Segment.group body).text ++ w)) = do
      let text ← expandSingle (Reference.resolve inner s) u body w
      return unescape (← expandBare s (bareSegments text)) := by
  have hdollar : (u ++ ((Segment.group body).text ++ w)).contains '$' = true := by
    simp [Segment.text]
  rw [expandStepIn, if_pos hdollar, expandForms_group h hbody hforms]

/-- Every form has its turn. -/
theorem mem_all (form : Form) : form ∈ Form.all := by
  cases form <;> decide

/-! ## References within each other

The texts in a reference are expanded with the same order of the forms, so the claim about a single
reference is carried from layer to layer. -/

/-- A text with at most one reference in braces, in which each text that is expanded is again such a
text. References without braces do not count. -/
inductive Nested : List Char → Prop
  /-- a text without groups -/
  | plain {text : List Char} (h : opensGroup text = false) : Nested text
  /-- a text with one group -/
  | group {u body w : List Char} (frame : Frame u w) (balanced : Braces.isBalanced 0 body = true)
    (inside : ∀ form r t, Form.read? form body = some r → t ∈ r.texts → Nested t) :
    Nested (u ++ ((Segment.group body).text ++ w))

/-- A group alone. -/
theorem Nested.single (balanced : Braces.isBalanced 0 body = true)
    (inside : ∀ form r t, Form.read? form body = some r → t ∈ r.texts → Nested t) :
    Nested (Segment.group body).text := by
  have h := Nested.group Frame.nil balanced inside
  rwa [List.nil_append, List.append_nil] at h

/-- A group alone is replaced in the same way if the texts in it are expanded in the same way. -/
theorem expandSingle_congr {inner' : List Char → Run (List Char)}
    (h : ∀ form r t, Form.read? form body = some r → t ∈ r.texts → inner t = inner' t) :
    expandSingle (Reference.resolve inner s) u body w =
      expandSingle (Reference.resolve inner' s) u body w := by
  rw [expandSingle, expandSingle]
  split
  · rfl
  · rename_i r hread
    rw [resolve_congr fun t ht => h _ r t hread ht]

/-- The order of the forms makes no difference to nested texts, by induction on how they are nested,
for any fuel. -/
theorem expandListedFrom_of_nested (hforms : ∀ form, form ∈ forms) (h : Nested text) (s : ScopeId)
    (fuel : Nat) : expandListedFrom forms fuel s text = expandFrom fuel s text := by
  induction h generalizing fuel with
  | plain h =>
    cases fuel with
    | zero => rfl
    | succ fuel =>
      rw [expandListedFrom, expandFrom, expandStepIn, expandStep, expandForms_of_opensGroup _ h,
        expandForms_of_opensGroup _ h]
  | group frame balanced inside ih =>
    cases fuel with
    | zero => rfl
    | succ fuel =>
      rw [expandListedFrom, expandFrom, ← expandStepIn_all,
        expandStepIn_group _ s hforms frame balanced, expandStepIn_group _ s mem_all frame balanced,
        expandSingle_congr fun form r t hr ht => ih form r t hr ht fuel]

/-- **Forms never compete for a reference.** Let `forms` be a list in which all forms stand, in any
order.

* No two forms read the same body.
* A text that is one `${…}` with balanced braces is replaced in the same way if it is searched for the
  forms in the order of `forms`, however the texts in it are expanded.
* If no text in it holds references beside each other, at any depth, then it is replaced in the same
  way if these texts, too, are searched in that order. -/
theorem expandListed_of_nested (hforms : ∀ form, form ∈ forms) :
    (∀ (body : List Char) (form form' : Form) (r r' : Reference),
      form.read? body = some r → form'.read? body = some r' → form = form') ∧
    (∀ (inner : List Char → Run (List Char)) (s : ScopeId) (body : List Char),
      Braces.isBalanced 0 body = true →
        expandStepIn forms inner s (Segment.group body).text =
          expandStep inner s (Segment.group body).text) ∧
    ∀ (s : ScopeId) (text : List Char), Nested text → expandListed forms s text = expand s text := by
  refine ⟨fun body form form' r r' h h' => Form.eq_of_read? h h', ?_, ?_⟩
  · intro inner s body hbody
    have hin := expandStepIn_group inner s hforms Frame.nil hbody
    have hall := expandStepIn_group inner s mem_all Frame.nil hbody
    rw [List.nil_append, List.append_nil] at hin hall
    rw [hin, ← expandStepIn_all, hall]
  · intro s text h
    exact expandListedFrom_of_nested hforms h s _

/-- The forms in reverse order, for a reference in a reference: `${x:-${a:=1}}`. -/
theorem expandListed_of_nested_reverse :
    let inside := (Segment.group "a:=1".toList).text
    let body := "x:-".toList ++ inside
    (∀ form, form ∈ Form.all.reverse) ∧ Braces.isBalanced 0 body = true ∧
      Nested (Segment.group body).text ∧
      ∀ s, expandListed Form.all.reverse s (Segment.group body).text =
        expand s (Segment.group body).text := by
  intro inside body
  have hforms : ∀ form, form ∈ Form.all.reverse := fun form => List.mem_reverse.2 (mem_all form)
  have htexts (form : Form) : ∀ t ∈ ((form.read? body).map Reference.texts).getD [], t = inside := by
    cases form <;> decide
  have hplain (form : Form) :
      ∀ t ∈ ((form.read? "a:=1".toList).map Reference.texts).getD [], opensGroup t = false := by
    cases form <;> decide
  have hinside : Nested inside := .single (by decide) fun form r t hr ht =>
    .plain (hplain form t (by rwa [hr]))
  have hnested : Nested (Segment.group body).text := .single (by decide) fun form r t hr ht => by
    rw [htexts form t (by rwa [hr])]
    exact hinside
  exact ⟨hforms, by decide, hnested, fun s =>
    (expandListed_of_nested hforms).2.2 s (Segment.group body).text hnested⟩

/-- References beside each other in a reference: `${x:-${a}${a:=1}}`. The second one assigns what the
first one reads, and the order of the forms tells which of them comes first. -/
theorem expand_reversed_ne :
    let inside := (Segment.group "a".toList).text ++ (Segment.group "a:=1".toList).text
    let body := "x:-".toList ++ inside
    Braces.isBalanced 0 body = true ∧
      (expand 0 (Segment.group body).text {} {}).1 = .value "11".toList ∧
      (expandListed Form.all.reverse 0 (Segment.group body).text {} {}).1 = .value "1".toList := by
  intro inside body
  exact ⟨by decide, Outcome.eq_value_of_isText (by decide +kernel),
    Outcome.eq_value_of_isText (by decide +kernel)⟩

end Reference

end CommandLanguage
