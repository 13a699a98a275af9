import CommandLanguage.Proofs.Source.Parts
import CommandLanguage.Proofs.Token.Joined

/-!
# The tokens of a normal form

A part of a script is read on its own (`IsPart`) if nothing that begins in it goes on behind it. If that
is so of all parts, the tokens of the normal form are those of the parts, but for the `;` between them
(`hasTokens_normalizeLines`). So are the tokens of the script itself, if no line has a comment and no
path at the beginning of a line is taken for a division (`hasTokens_lines`). Then both have the same
texts between quotes (`quotedTexts_normalize`).

A part need not be read on its own, since the normal form is about one line at a time: it closes and
trims a line that ends within a text between quotes like any other (`quotedTexts_normalize_ne`).
-/

namespace CommandLanguage

open Token (Alike)

/-! ## Texts between quotes -/

/-- The text of a lexeme that was written between quotes. -/
def Lexeme.quotedText? : Lexeme → Option (Quote × String)
  | .text v (.quoted q) => some (q, v)
  | .braces v | .parameter v => some (.double, v)
  | _ => none

namespace Token

mutual

/-- The texts between quotes in a token, with those of the items of an array literal. -/
def quotedTexts : Token → List (Quote × String)
  | .plain l _ => l.quotedText?.toList
  | .array items _ => quotedTextsList items

/-- The texts between quotes in tokens. -/
def quotedTextsList : List Token → List (Quote × String)
  | [] => []
  | t :: ts => t.quotedTexts ++ quotedTextsList ts

end

variable {ts us : List Token}

mutual

theorem quotedTexts_unplaced : ∀ t : Token, t.unplaced.quotedTexts = t.quotedTexts
  | .plain _ _ => rfl
  | .array items _ => quotedTextsList_unplaced items

theorem quotedTextsList_unplaced : ∀ ts, quotedTextsList (unplacedList ts) = quotedTextsList ts
  | [] => rfl
  | t :: ts => by
    rw [unplacedList, quotedTextsList, quotedTextsList, quotedTexts_unplaced t,
      quotedTextsList_unplaced ts]

end

theorem quotedTextsList_alike (h : Alike ts us) : quotedTextsList ts = quotedTextsList us := by
  rw [← quotedTextsList_unplaced ts, h, quotedTextsList_unplaced]

theorem quotedTextsList_filter (c : Char) (ts : List Token) :
    quotedTextsList (ts.filter (!·.isPunctuation c)) = quotedTextsList ts := by
  induction ts with
  | nil => rfl
  | cons t ts ih =>
    cases ht : t.isPunctuation c with
    | false =>
      rw [List.filter_cons_of_pos (by rw [ht]; rfl), quotedTextsList, quotedTextsList, ih]
    | true =>
      obtain ⟨p, rfl⟩ := isPunctuation_iff.1 ht
      rw [List.filter_cons_of_neg (by rw [ht]; exact Bool.false_ne_true), ih]
      rfl

end Token

namespace Lexer

open Source (parts scriptParts content normalizeLines normalizeLine EndsOpen dropBlankStatements
  dropBlankStatementsFrom)

variable {p r s u : List Char} {ts us : List Token}

/-! ## Tokens up to semicolons

A script and its normal form do not have the same tokens: there are `;` at the ends of lines in one
of them and not in the other. All other tokens are the same, and are at other places only. -/

/-- The tokens but for `;`. -/
def unended (ts : List Token) : List Token := ts.filter (!·.isPunctuation ';')

theorem unended_append (ts us : List Token) : unended (ts ++ us) = unended ts ++ unended us :=
  List.filter_append ts us

/-- A text is tokens to its end, which are given up to `;` and places. The `;` are left out because
the normal form puts some there and drops others, and neither changes a text between quotes. -/
def HasTokens (s : List Char) (us : List Token) : Prop :=
  ∃ ts, Completes false (.start s) ts ∧ Alike (unended ts) us

namespace HasTokens

theorem nil : HasTokens [] [] := ⟨[], Completes.nil_iff.2 rfl, .refl []⟩

/-- What is dropped before a token makes no difference. -/
theorem append_iff (hu : dropBlanks u = []) : HasTokens (u ++ s) us ↔ HasTokens s us := by
  have habreast := abreast_start_append hu s
  constructor
  · rintro ⟨ts, hts, halike⟩
    obtain ⟨ts', hts', halike'⟩ := hts.abreast habreast
    exact ⟨ts', hts', (halike'.filter_isPunctuation ';').trans halike⟩
  · rintro ⟨ts, hts, halike⟩
    obtain ⟨ts', hts', halike'⟩ := hts.abreast habreast.symm
    exact ⟨ts', hts', (halike'.filter_isPunctuation ';').trans halike⟩

/-- A `;` between two texts. It is a token of its own, and behind it the second text is read as if
it came first. -/
theorem semicolon (h : Completes false (.start p) ts) (hs : HasTokens s us) :
    HasTokens (p ++ ';' :: s) (unended ts ++ us) := by
  obtain ⟨us', hus', halike⟩ := hs
  obtain ⟨vs, hvs, halike'⟩ :=
    ReadsAs.semicolon (tokens?_eq_some_iff.2 h) (.of_tokens? (tokens?_eq_some_iff.2 hus'))
  have hunended : unended (ts ++ .of (.punctuation ';') :: us') = unended ts ++ unended us' :=
    unended_append ts _
  refine ⟨vs, tokens?_eq_some_iff.1 hvs, (halike'.filter_isPunctuation ';').trans ?_⟩
  rw [← unended, hunended]
  exact (Alike.refl _).append halike

/-- Blanks between two texts. Unlike behind a `;`, the first text may tell how the second one
begins: behind an operand a `/` divides, and an open parenthesis may be closed in the second
text. -/
theorem blank {b : List Char} {ao : Bool} {stop : Cursor} (h : Passes false (.start p) ts ao stop)
    (hstop : dropBlanks stop.rest = []) (hne : b ≠ []) (hb : Text.isBlankText b = true)
    (hp : Encloses false (.start p) (b ++ s))
    (hpath : ao = true → beginsPath (dropBlanks s) = false) (hs : HasTokens s us) :
    HasTokens (p ++ (b ++ s)) (unended ts ++ us) := by
  obtain ⟨us', hus', halike⟩ := hs
  obtain ⟨us'', hcompletes, halike'⟩ := h.join hstop hne hb (.inr hp) hus' hpath
  refine ⟨ts ++ us'', hcompletes, ?_⟩
  rw [unended_append]
  exact (Alike.refl _).append ((halike'.filter_isPunctuation ';').trans halike)

end HasTokens

/-- Blanks close no parenthesis. -/
theorem Encloses.of_isBlankText {b : List Char} {ao : Bool} {c : Cursor}
    (hb : Text.isBlankText b = true) : Encloses ao c b := by
  intro ts ao' d x hpasses hx hnone
  cases hb' : b with
  | nil => rw [List.append_nil, hnone]
  | cons a b' =>
    rw [← hb']
    cases hmore : splitArray? none (x ++ b) with
    | none => rfl
    | some y =>
      obtain ⟨v, r⟩ := y
      have hcut : isCut b = true := by
        rw [← List.append_nil b]
        exact isCut_of_isBlankText (by rw [hb']; exact List.cons_ne_nil _ _) hb []
      obtain ⟨u, rfl, -, -⟩ := exists_of_splitArray?_append hcut hnone hmore
      -- the parenthesis would have to be among the blanks
      have happend := Written.append_of_splitArray? hmore
      rw [List.append_assoc, List.append_cancel_left_eq] at happend
      have hclose := List.all_eq_true.1 hb ')' (by
        rw [← happend]
        exact List.mem_append_right u List.mem_cons_self)
      cases hclose

/-! ## Parts that are read on their own -/

/-- A text is read without a fault and without a `;`, and lines behind it do not make an array
literal of what begins in it. So it has its tokens wherever it stands. -/
structure IsPart (p : List Char) : Prop where
  /-- the tokens, of which none is a `;` -/
  reads : ∃ ts, tokens? p = some ts ∧ ∀ t ∈ ts, t.isPunctuation ';' = false
  /-- no `(` finds its closing parenthesis on a line behind it -/
  encloses : ∀ b s, Text.isBlankText b = true → '\n' ∈ b → Encloses false (.start p) (b ++ s)

/-- Whether every `(` in a text has a closing parenthesis, for the search for array literals. That
search does not see quotes as the lexer does, so the check asks about it and not about the
tokens. -/
def closesAll : List Char → Bool
  | [] => true
  | c :: r => (c != '(' || (splitArray? none r).isSome) && closesAll r

theorem isSome_of_closesAll {x : List Char} (h : closesAll p = true) (hx : '(' :: x <:+ p) :
    (splitArray? none x).isSome = true := by
  induction p with
  | nil => cases List.suffix_nil.1 hx
  | cons c r ih =>
    obtain ⟨hc, hr⟩ := Bool.and_eq_true_iff.1 h
    rcases List.suffix_cons_iff.1 hx with heq | hx
    · obtain ⟨rfl, rfl⟩ := List.cons.inj heq
      exact hc
    · exact ih hr hx

/-- Whether the last token of a text is one behind which a `/` divides. -/
def endsInOperand (p : List Char) : Bool := (scan p).tokens.getLast?.any isOperand

/-- What comes behind a line: blanks, and then nothing or other lines with their tokens. -/
def Follows (e : List Char) (us : List Token) : Prop :=
  ∃ b s, e = b ++ s ∧ Text.isBlankText b = true ∧ (s = [] ∨ '\n' ∈ b) ∧ HasTokens s us

theorem Follows.hasTokens {e : List Char} (h : Follows e us) : HasTokens e us := by
  obtain ⟨b, s, rfl, hb, -, hs⟩ := h
  exact (HasTokens.append_iff (dropBlanks_of_isBlankText hb)).2 hs

theorem dropBlanks_singleton {c : Char} (hc : Text.isBlank c = false) : dropBlanks [c] ≠ [] := by
  rw [dropBlanks, if_neg (by simp [hc])]
  · exact List.cons_ne_nil _ _
  · intro _ _ h
    cases h

theorem Passes.afterOperand {ao : Bool} {c stop : Cursor} (h : Passes false c ts ao stop) :
    ao = ts.getLast?.any isOperand := by
  cases ts with
  | nil =>
    cases h
    rfl
  | cons t ts =>
    obtain ⟨t', d, hlast, hao, -⟩ := h.exists_last (List.cons_ne_nil _ _)
    rw [hao, hlast]
    rfl

namespace IsPart

theorem completes (h : IsPart p) : Completes false (.start p) (scan p).tokens ∧
    unended (scan p).tokens = (scan p).tokens ∧
      ∀ t ∈ (scan p).tokens, t.isPunctuation ';' = false := by
  obtain ⟨ts, hts, hsemicolon⟩ := h.reads
  obtain ⟨q, hq⟩ := exists_scan_iff.2 (tokens?_eq_some_iff.1 hts)
  rw [hq]
  refine ⟨tokens?_eq_some_iff.1 hts, List.filter_eq_self.2 fun t ht => ?_, hsemicolon⟩
  rw [hsemicolon t ht]
  rfl

/-- A text in which parentheses are closed is enclosed. -/
theorem of_closesAll (hreads : (tokens? p).any (·.all (!·.isPunctuation ';')) = true)
    (hcloses : closesAll p = true) : IsPart p := by
  obtain ⟨ts, hts, hall⟩ := (Option.any_eq_true _ _).1 hreads
  refine ⟨⟨ts, hts, fun t ht => by simpa using List.all_eq_true.1 hall t ht⟩, ?_⟩
  intro b s _ _ ts ao d x hpasses hx hnone
  have hsuffix : '(' :: x <:+ p := by
    rw [← hx, rest_toToken]
    exact (dropBlanks_suffix d.rest).trans hpasses.suffix
  have hsome := isSome_of_closesAll hcloses hsuffix
  rw [hnone] at hsome
  cases hsome

/-- If a `;` behind a part ends nothing, the part is blank. The last character of a part that is not
blank is seen by the scan, and it is neither `;` nor an opening brace. -/
theorem isBlankText (h : IsPart p) (hbrace : '\x7b' ∉ p) {last last' : Option Char}
    (hlast : Source.LeavesLast last p last')
    (hends : last'.all (fun l => l == ';' || l == '\x7b') = true) : Text.isBlankText p = true := by
  rcases hlast with ⟨hblank, -⟩ | ⟨u, c, w, rfl, rfl, hw⟩
  · exact hblank
  · rcases Bool.or_eq_true_iff.1 hends with hc | hc
    · obtain rfl := eq_of_beq hc
      obtain ⟨⟨ao, stop, hpasses, hstop⟩, -, hsemicolon⟩ := h.completes
      obtain ⟨t, ht, -, hend, -⟩ := hpasses.exists_end hstop rfl (List.cons_ne_nil _ _) hw
      rw [hsemicolon t (List.mem_of_getLast? ht)] at hend
      cases hend rfl
    · obtain rfl := eq_of_beq hc
      exact absurd (List.mem_append_right u List.mem_cons_self) hbrace

theorem tokens_eq_nil (h : IsPart p) (hblank : Text.isBlankText p = true) : (scan p).tokens = [] :=
  h.completes.1.eq_nil (dropBlanks_of_isBlankText hblank)

/-- A part that ends as if it went on does not end in an operand. It ends in an operator, a comma,
an opening bracket or a reserved word, and none of those is one. -/
theorem endsInOperand_eq_false (h : IsPart p) (hopen : EndsOpen p) : endsInOperand p = false := by
  by_cases hne : p = []
  · rw [endsInOperand, h.tokens_eq_nil (by rw [hne]; rfl)]
    rfl
  obtain ⟨hblank, hdigit, hparenthesis⟩ := hopen _ (List.getLast?_eq_some_getLast hne)
  obtain ⟨⟨ao, stop, hpasses, hstop⟩, -⟩ := h.completes
  obtain ⟨t, ht, -, -, hoperand⟩ := hpasses.exists_end hstop
    (List.dropLast_concat_getLast hne).symm (dropBlanks_singleton hblank) nofun
  rw [endsInOperand, ht]
  refine Bool.eq_false_iff.2 fun hoperand' => ?_
  rcases hoperand hoperand' with h | h
  · rw [hdigit] at h
    cases h
  · exact hparenthesis h

/-- A part with a `;` behind it. -/
theorem hasTokens_semicolon (h : IsPart p) (hs : HasTokens s us) :
    HasTokens (p ++ ';' :: s) ((scan p).tokens ++ us) := by
  obtain ⟨hcompletes, hunended, -⟩ := h.completes
  rw [← hunended]
  exact .semicolon hcompletes hs

/-- A part with the end of its line behind it. A path on the next line is the only thing that would
be read in another way there. -/
theorem hasTokens (h : IsPart p) {e : List Char} (he : Follows e us)
    (hpath : endsInOperand p = true → beginsPath (dropBlanks e) = false) :
    HasTokens (p ++ e) ((scan p).tokens ++ us) := by
  obtain ⟨b, s, rfl, hb, hline, hs⟩ := he
  obtain ⟨⟨ao, stop, hpasses, hstop⟩, hunended, -⟩ := h.completes
  rw [dropBlanks_append_of_eq_nil (dropBlanks_of_isBlankText hb)] at hpath
  rw [← hunended]
  have hencloses : Encloses false (.start p) (b ++ s) := by
    rcases hline with rfl | hline
    · rw [List.append_nil]
      exact .of_isBlankText hb
    · exact h.encloses b s hb hline
  by_cases hne : b = []
  · obtain rfl := hline.resolve_right (by rw [hne]; exact List.not_mem_nil)
    obtain ⟨vs, hvs, halike⟩ := hs
    rw [hvs.eq_nil rfl] at halike
    rw [hne, halike.symm.eq_nil, List.append_nil, List.append_nil, List.append_nil]
    exact ⟨_, ⟨ao, stop, hpasses, hstop⟩, .refl _⟩
  · exact .blank hpasses hstop hne hb hencloses (fun hao => hpath (hpasses.afterOperand.symm.trans hao)) hs

end IsPart

/-! ## Lines -/

/-- The tokens of texts, one after the other. -/
def tokensOf (ps : List (List Char)) : List Token := ps.flatMap fun p => (scan p).tokens

theorem tokensOf_cons (p : List Char) (ps : List (List Char)) :
    tokensOf (p :: ps) = (scan p).tokens ++ tokensOf ps := rfl

/-- **The tokens of a line** are those of its parts, but for `;`. By induction on the length of the
line, from which the first part and its `;` are taken off. -/
theorem hasTokens_line {e : List Char} (hs : ∀ p ∈ parts s, IsPart p) (he : Follows e us)
    (hpath : (parts s).getLast?.any endsInOperand = true → beginsPath (dropBlanks e) = false) :
    HasTokens (s ++ e) (tokensOf (parts s) ++ us) := by
  induction hn : s.length using Nat.strongRecOn generalizing s with
  | _ n ih =>
    subst hn
    obtain ⟨p, q, -, ⟨rfl, hparts⟩ | ⟨r, rfl, rfl, hparts⟩⟩ := Source.exists_part {} s
    · rw [parts, hparts] at hs hpath ⊢
      rw [tokensOf_cons, tokensOf, List.flatMap_nil, List.append_nil]
      exact (hs s List.mem_cons_self).hasTokens he hpath
    · rw [parts, hparts] at hs hpath ⊢
      obtain ⟨hpart, hrest⟩ := List.forall_mem_cons.1 hs
      -- the part that the end of the line is about is the last of the others
      have hlast : (p :: parts r).getLast? = (parts r).getLast? := by
        obtain ⟨p', ps, hr⟩ := Source.exists_parts_eq_cons r
        rw [hr, List.getLast?_cons_cons]
      rw [List.append_assoc, List.cons_append, tokensOf_cons, List.append_assoc]
      refine hpart.hasTokens_semicolon (ih r.length ?_ hrest (fun h => hpath ?_) rfl)
      · simp only [List.length_append, List.length_cons]
        omega
      · rw [← hlast] at h
        exact h

/-- **The tokens of a line without its useless `;`** are those of its parts, but for `;`. A part
whose `;` is dropped is blank, and then it has no tokens to lose. -/
theorem hasTokens_dropBlankStatementsFrom {e f : List Char} (hs : ∀ p ∈ parts s, IsPart p)
    (hbrace : '\x7b' ∉ s) (hf : f = [';'] ∨ f = [] ∧ EndsOpen s) (he : Follows e us) (parens : Nat)
    (last : Option Char) :
    HasTokens (dropBlankStatementsFrom {} parens last (s ++ f) ++ e) (tokensOf (parts s) ++ us) := by
  induction hn : s.length using Nat.strongRecOn generalizing s parens last with
  | _ n ih =>
    subst hn
    -- up to its first `;` the line is one part, in which nothing is dropped
    obtain ⟨p, q, huncut, hparts⟩ := Source.exists_part {} s
    obtain ⟨parens', last', hlast, hdrop⟩ :=
      Source.exists_dropBlankStatementsFrom_of_isUncut huncut parens last
    rcases hparts with ⟨rfl, hparts⟩ | ⟨r, rfl, rfl, hparts⟩
    · rw [parts, hparts] at hs ⊢
      -- the last part: its `;`, if there is one, is that at the end of the line
      have hpart := hs s List.mem_cons_self
      have hopen (hoperand : endsInOperand s = false) := hpart.hasTokens he fun h => by
        rw [hoperand] at h
        cases h
      rw [tokensOf_cons, tokensOf, List.flatMap_nil, List.append_nil, hdrop, List.append_assoc]
      rcases hf with rfl | ⟨rfl, hends⟩
      · rcases Source.dropBlankStatementsFrom_semicolon q parens' last' with hkeep | ⟨hnil, hends⟩
        · rw [hkeep]
          exact hpart.hasTokens_semicolon he.hasTokens
        · -- the `;` at the end is dropped, so the part is blank
          rw [hnil]
          refine hopen ?_
          rw [endsInOperand, hpart.tokens_eq_nil (hpart.isBlankText hbrace hlast hends)]
          rfl
      · exact hopen (hpart.endsInOperand_eq_false hends)
    · rw [parts, hparts] at hs ⊢
      -- a part with others behind its `;`, for which the induction is used
      obtain ⟨hpart, hrest⟩ := List.forall_mem_cons.1 hs
      obtain ⟨hbrace_p, hbrace_r⟩ := not_or.1 (mt List.mem_append.2 hbrace)
      have hopen : f = [';'] ∨ f = [] ∧ EndsOpen r :=
        hf.imp_right (And.imp_right fun hends c hc => hends c (by
          rw [List.getLast?_append, List.getLast?_cons, hc]
          rfl))
      have hlt : r.length < (p ++ ';' :: r).length := by
        simp only [List.length_append, List.length_cons]
        omega
      have hmore (parens : Nat) (last : Option Char) :=
        ih r.length hlt hrest (fun h => hbrace_r (List.mem_cons_of_mem _ h)) hopen parens last rfl
      rw [tokensOf_cons, List.append_assoc, List.append_assoc, List.cons_append, hdrop,
        Source.dropBlankStatementsFrom_semicolon_cons, List.append_assoc]
      split
      · rename_i hends
        have hblank := hpart.isBlankText hbrace_p hlast (Bool.and_eq_true_iff.1 hends).2
        rw [hpart.tokens_eq_nil hblank]
        exact (HasTokens.append_iff (dropBlanks_of_isBlankText hblank)).2 (hmore _ _)
      · exact hpart.hasTokens_semicolon (hmore _ _)

/-! ## Scripts

The parts of all lines are put together, for the script with line ends between them and for its
normal form with `;` and line ends. -/

/-- What stands behind a line: the others, each of them behind a new line. -/
def behind (ls : List (List Char)) : List Char := ls.flatMap ('\n' :: ·)

theorem intercalate_cons (l : List Char) (ls : List (List Char)) :
    ['\n'].intercalate (l :: ls) = l ++ behind ls := by
  induction ls generalizing l with
  | nil => simp [List.intercalate, behind]
  | cons l' ls ih =>
    have hcons : ['\n'].intercalate (l :: l' :: ls) = l ++ '\n' :: ['\n'].intercalate (l' :: ls) := by
      simp [List.intercalate]
    rw [hcons, ih l']
    rfl

theorem exists_behind_eq (ls : List (List Char)) :
    ∃ b, behind ls = b ++ ['\n'].intercalate ls ∧ Text.isBlankText b = true ∧
      (['\n'].intercalate ls = [] ∨ '\n' ∈ b) := by
  cases ls with
  | nil => exact ⟨[], rfl, rfl, .inl rfl⟩
  | cons l ls =>
    refine ⟨['\n'], ?_, rfl, .inr List.mem_cons_self⟩
    rw [intercalate_cons]
    rfl

/-- Whether no line begins with a path of which the `/` would divide the operand at the end of the
line before it. In the normal form a `;` comes in between, so it would no longer divide. -/
def pathsApart : List (List Char) → Bool
  | [] => true
  | l :: ls =>
    !((parts (content l)).getLast?.any endsInOperand &&
      beginsPath (dropBlanks (['\n'].intercalate ls))) && pathsApart ls

/-- The tokens of lines without comments are those of their parts, but for `;`. By induction on the
lines, from the last one on: what is behind a line has its tokens already. -/
theorem hasTokens_lines {ls : List (List Char)} (hcomments : ∀ l ∈ ls, content l = Text.trimEnd l)
    (hparts : ∀ l ∈ ls, ∀ p ∈ parts (content l), IsPart p) (hpaths : pathsApart ls = true) :
    HasTokens (['\n'].intercalate ls) (tokensOf (ls.flatMap fun l => parts (content l))) := by
  induction ls with
  | nil => exact .nil
  | cons l ls ih =>
    obtain ⟨hcomment, hcomments⟩ := List.forall_mem_cons.1 hcomments
    obtain ⟨hlparts, hlsparts⟩ := List.forall_mem_cons.1 hparts
    obtain ⟨hpath, hpaths⟩ := Bool.and_eq_true_iff.1 hpaths
    obtain ⟨t, ht, hblank⟩ := Text.exists_trimEnd_append l
    obtain ⟨b, hbehind, hb, hline⟩ := exists_behind_eq ls
    rw [← hcomment] at ht
    have htb : Text.isBlankText (t ++ b) = true := by
      rw [Text.isBlankText, List.all_append, Bool.and_eq_true]
      exact ⟨List.all_eq_true.2 hblank, hb⟩
    -- behind the code of a line stand its last blanks, the end of the line and the other lines
    have hfollows : Follows (t ++ behind ls) (tokensOf (ls.flatMap fun l => parts (content l))) :=
      ⟨t ++ b, _, by rw [hbehind, List.append_assoc], htb, hline.imp_right (List.mem_append_right t),
        ih hcomments hlsparts hpaths⟩
    have hdrop : dropBlanks (t ++ behind ls) = dropBlanks (['\n'].intercalate ls) := by
      rw [hbehind, ← List.append_assoc]
      exact dropBlanks_append_of_eq_nil (dropBlanks_of_isBlankText htb) _
    have htext : ['\n'].intercalate (l :: ls) = content l ++ (t ++ behind ls) := by
      rw [intercalate_cons, ← List.append_assoc, ← ht]
    rw [htext, tokensOf, List.flatMap_cons, List.flatMap_append]
    refine hasTokens_line hlparts hfollows fun hoperand => ?_
    rw [hdrop]
    simpa [hoperand] using hpath

/-- The tokens of the normal forms of lines are those of their parts, but for `;`. Whether a line is
closed depends on the lines before it, but its tokens do not. -/
theorem hasTokens_normalizeLines {ls : List (List Char)} (hbrace : ∀ l ∈ ls, '\x7b' ∉ l)
    (hparts : ∀ l ∈ ls, ∀ p ∈ parts (content l), IsPart p) (wasOpen : Bool) :
    HasTokens (['\n'].intercalate (normalizeLines wasOpen ls))
      (tokensOf (ls.flatMap fun l => parts (content l))) := by
  induction ls generalizing wasOpen with
  | nil => exact .nil
  | cons l ls ih =>
    obtain ⟨hl, hls⟩ := List.forall_mem_cons.1 hbrace
    obtain ⟨hlparts, hlsparts⟩ := List.forall_mem_cons.1 hparts
    have hmore := ih hls hlsparts (normalizeLine wasOpen l).2
    rw [normalizeLines]
    dsimp only
    -- of the other lines only their tokens matter, and not whether the line is open
    generalize normalizeLines (normalizeLine wasOpen l).2 ls = ms at hmore
    obtain ⟨b, hbehind, hb, hline⟩ := exists_behind_eq ms
    obtain ⟨f, hf, hnormal⟩ := Source.exists_normalizeLine_eq hl wasOpen
    have htokens : HasTokens (dropBlankStatements (content l ++ f) ++ behind ms)
        (tokensOf ((l :: ls).flatMap fun l => parts (content l))) := by
      rw [tokensOf, List.flatMap_cons, List.flatMap_append]
      exact hasTokens_dropBlankStatementsFrom hlparts (Source.not_mem_content hl) hf
        ⟨b, _, hbehind, hb, hline, hmore⟩ 0 none
    rw [hnormal]
    split
    · -- a line that is blank is left out, and its tokens are none
      rename_i hblank
      rw [HasTokens.append_iff (dropBlanks_of_isBlankText hblank), hbehind,
        HasTokens.append_iff (dropBlanks_of_isBlankText hb)] at htokens
      exact htokens
    · rw [Option.toList_some, List.singleton_append, intercalate_cons]
      exact htokens

/-- A script of which every part is read on its own, and nothing is taken for a comment. Where the
normal form sees the end of a statement, or of a line, no token goes on, and no token begins there in
another way than it would behind a `;`. -/
structure IsReadByParts (s : String) : Prop where
  /-- there are no groups in braces -/
  braces : '\x7b' ∉ s.toList
  /-- no line has a comment -/
  comments : ∀ l ∈ Text.lines s.toList, content l = Text.trimEnd l
  /-- the parts are read on their own -/
  alone : ∀ p ∈ scriptParts s, IsPart p
  /-- no path could be taken for a division -/
  paths : pathsApart (Text.lines s.toList) = true

/-- **The tokens of a script and of its normal form** are those of the parts of the script, but for
`;`. -/
theorem IsReadByParts.hasTokens {s : String} (h : IsReadByParts s) :
    HasTokens s.toList (tokensOf (scriptParts s)) ∧
      HasTokens (Source.normalize s).toList (tokensOf (scriptParts s)) := by
  have hparts : ∀ l ∈ Text.lines s.toList, ∀ p ∈ parts (content l), IsPart p :=
    fun l hl p hp => h.alone p (List.mem_flatMap.2 ⟨l, hl, hp⟩)
  have hbrace : ∀ l ∈ Text.lines s.toList, '\x7b' ∉ l :=
    fun l hl hmem => h.braces (Text.mem_of_mem_pieces hl hmem)
  constructor
  · have hlines := hasTokens_lines h.comments hparts h.paths
    rw [Text.intercalate_lines] at hlines
    exact hlines
  · rw [Source.normalize, String.toList_ofList]
    exact hasTokens_normalizeLines hbrace hparts false

/-- **The quoted texts of a script are the same in its normal form** if it is read by parts. Both
have the tokens of the parts, but for `;` and places, and no `;` is a text between quotes. -/
theorem quotedTexts_normalize {s : String} (h : IsReadByParts s) :
    ∃ ts ts', tokens? s.toList = some ts ∧ tokens? (Source.normalize s).toList = some ts' ∧
      Token.quotedTextsList ts' = Token.quotedTextsList ts := by
  obtain ⟨⟨ts, hts, halike⟩, ts', hts', halike'⟩ := h.hasTokens
  refine ⟨ts, ts', tokens?_eq_some_iff.2 hts, tokens?_eq_some_iff.2 hts', ?_⟩
  calc Token.quotedTextsList ts'
      = Token.quotedTextsList (unended ts') := (Token.quotedTextsList_filter ';' ts').symm
    _ = Token.quotedTextsList (unended ts) := Token.quotedTextsList_alike (halike'.trans halike.symm)
    _ = Token.quotedTextsList ts := Token.quotedTextsList_filter ';' ts

theorem quotedTexts_normalize_lines :
    let s := "echo 'a; b' \"c \\\" # d\";;  \n\nif x then\nf(`e;`, 'g') &&\n  'h'"
    IsReadByParts s ∧ ∃ ts ts', tokens? s.toList = some ts ∧ tokens? (Source.normalize s).toList = some ts' ∧
      Token.quotedTextsList ts' = Token.quotedTextsList ts := by
  intro s
  have hparts : ((scriptParts s).all fun p => (tokens? p).any (·.all (!·.isPunctuation ';')) &&
      closesAll p) = true := by decide +kernel
  have h : IsReadByParts s := {
    braces := by decide +kernel
    comments := by decide +kernel
    alone := fun p hp => by
      obtain ⟨hreads, hcloses⟩ := Bool.and_eq_true_iff.1 (List.all_eq_true.1 hparts p hp)
      exact .of_closesAll hreads hcloses
    paths := by decide +kernel }
  exact ⟨h, quotedTexts_normalize h⟩

/-- A line that ends within a text between quotes is closed like any other, so that the text gets a
`;`. -/
theorem quotedTexts_normalize_ne : ¬∀ (s : String) (ts : List Token), '$' ∉ s.toList →
    '\x7b' ∉ s.toList → tokens? s.toList = some ts → ∃ ts', tokens? (Source.normalize s).toList = some ts' ∧
      Token.quotedTextsList ts' = Token.quotedTextsList ts := by
  intro h
  have hbefore : (tokens? "x = \"a\nb\"".toList).map Token.quotedTextsList =
      some [(.double, "a\nb")] := by decide +kernel
  have hafter : (tokens? (Source.normalize "x = \"a\nb\"").toList).map Token.quotedTextsList =
      some [(.double, "a;\nb")] := by decide +kernel
  obtain ⟨ts, hts, htexts⟩ := Option.map_eq_some_iff.1 hbefore
  obtain ⟨ts', hts', hsame⟩ := h "x = \"a\nb\"" ts (by decide +kernel) (by decide +kernel) hts
  rw [hts', Option.map_some, hsame, htexts] at hafter
  exact absurd hafter (by decide +kernel)

end Lexer

end CommandLanguage
