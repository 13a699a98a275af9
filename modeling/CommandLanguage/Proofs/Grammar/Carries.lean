import CommandLanguage.Proofs.Grammar.Gives
import CommandLanguage.Proofs.Grammar.Script

/-!
# Reading with more tokens behind

`Grammar.Carries P g R m m'` says that what `m` reads, `m'` reads as well, wherever the tokens stand
and whatever other tokens come behind them: if `m` comes to a result, then `m'` comes to one that `R`
relates to it, and the same tokens and the others behind them are left. A reader that comes to the
end of its tokens may go on if there are more; so with more of them, nothing is promised if none of
the first ones is left. `P` is what is known of the first token.

The grade `g` tells about the tokens that are taken whether the last of them can be a `;`. A rule for
each way in which readers are put together carries both along the grammar.
-/

namespace CommandLanguage.Grammar

open Token (Alike)

variable {α β γ δ : Type} {ts us : List Token} {s s' : Tokens} {X : List Token}

/-- A reader that comes to a result hands on to the next one, with the tokens it has left. -/
theorem bind_of_ok {m : Parse α} {f : α → Parse β} {a : α} (h : m s = .ok (a, s')) :
    (m >>= f) s = f a s' := by
  simp only [Bind.bind, StateT.bind, h, Except.bind]

/-- What two readers read, one after the other. -/
theorem exists_of_bind {m : Parse α} {f : α → Parse β} {b : β} (h : (m >>= f) s = .ok (b, s')) :
    ∃ a s₁, m s = .ok (a, s₁) ∧ f a s₁ = .ok (b, s') := by
  -- what stops the first reader stops both
  cases hm : m s with
  | error e => simp [Bind.bind, StateT.bind, hm, Except.bind] at h
  | ok x =>
    obtain ⟨a, s₁⟩ := x
    exact ⟨a, s₁, rfl, by rwa [bind_of_ok hm] at h⟩

/-- Two tokens alike are the same lexeme in two places, or arrays with items alike. -/
theorem plain_or_array {t t' : Token} (h : t.unplaced = t'.unplaced) :
    (∃ l p p', t = .plain l p ∧ t' = .plain l p') ∨
      ∃ items items' p p', t = .array items p ∧ t' = .array items' p' ∧ Alike items items' := by
  rcases t with ⟨l, p⟩ | ⟨items, p⟩ <;> rcases t' with ⟨l', p'⟩ | ⟨items', p'⟩
  · cases h
    exact .inl ⟨l, p, p', rfl, rfl⟩
  · cases h
  · cases h
  · exact .inr ⟨items, items', p, p', rfl, rfl, (Token.array.inj h).1⟩

/-! ## The tokens that are taken -/

/-- What is known of the last of the tokens that are taken. A script may be cut behind a `;` only,
so it is asked of every reader whether what it takes could end in one. -/
inductive Grade where
  /-- nothing -/
  | any
  /-- it is not a `;`, if any is taken -/
  | closed
  /-- there is one, and it is not a `;` -/
  | solid

namespace Grade

/-- The tokens are of the grade. -/
def Holds : Grade → List Token → Prop
  | any, _ => True
  | closed, ts => ∀ t, ts.getLast? = some t → t.isPunctuation ';' = false
  | solid, ts => ∃ t, ts.getLast? = some t ∧ t.isPunctuation ';' = false

variable {g : Grade}

/-- What is known of a tree or a statement, that its last token is no `;`, is the most that is
asked. -/
theorem Holds.of_solid (h : solid.Holds ts) : g.Holds ts := by
  cases g with
  | any => trivial
  | closed =>
    obtain ⟨t, hlast, ht⟩ := h
    intro u hu
    rw [hlast] at hu
    cases hu
    exact ht
  | solid => exact h

/-- Only the last of the tokens matters, so those in front may be any. -/
theorem Holds.append_solid (h : solid.Holds us) : g.Holds (ts ++ us) := by
  obtain ⟨t, hlast, ht⟩ := h
  exact Holds.of_solid ⟨t, by rw [List.getLast?_append, hlast, Option.some_or], ht⟩

/-- Where perhaps no tokens follow, the last one may be one of those in front, so those have to be
of the grade themselves. -/
theorem Holds.append_closed (h : g.Holds ts) (h' : closed.Holds us) : g.Holds (ts ++ us) := by
  -- either nothing follows, or what follows has a last token
  cases hlast : us.getLast? with
  | none =>
    obtain rfl := List.getLast?_eq_none_iff.1 hlast
    rwa [List.append_nil]
  | some t => exact append_solid ⟨t, hlast, h' t hlast⟩

end Grade

/-! ## More tokens -/

/-- The tokens behind the semicolons that come first. The parser passes these between statements,
any number of them, and they make no statement of their own. -/
def afterSeparators (ts : List Token) : List Token :=
  ts.drop (ts.takeWhile (·.isPunctuation ';')).length

/-- What is left is the end of the tokens, and has no more of them. -/
theorem afterSeparators_suffix (ts : List Token) : afterSeparators ts <:+ ts :=
  List.drop_suffix _ ts

/-- Semicolons are dropped one by one, as long as one comes next. -/
theorem afterSeparators_cons (t : Token) (ts : List Token) :
    afterSeparators (t :: ts) = if t.isPunctuation ';' then afterSeparators ts else t :: ts := by
  unfold afterSeparators
  rw [List.takeWhile_cons]
  split <;> rfl

/-- If there are only semicolons, then those of what follows are passed as well. -/
theorem afterSeparators_append (h : afterSeparators ts = []) (us : List Token) :
    afterSeparators (ts ++ us) = afterSeparators us := by
  induction ts with
  | nil => rfl
  | cons t ts ih =>
    rw [afterSeparators_cons] at h
    rw [List.cons_append, afterSeparators_cons]
    split
    · rename_i hsemicolon
      rw [if_pos hsemicolon] at h
      exact ih h
    · rename_i hsemicolon
      rw [if_neg hsemicolon] at h
      cases h

/-- With more tokens behind, the same are left, unless there were only semicolons. In that case,
others among the new ones would be passed, too, so there must be none. -/
theorem afterSeparators_alike (h : Alike us (ts ++ X)) (hX : X = [] ∨ afterSeparators ts ≠ []) :
    Alike (afterSeparators us) (afterSeparators ts ++ X) := by
  induction ts generalizing us with
  | nil =>
    obtain rfl : X = [] := hX.resolve_right fun hne => hne rfl
    rw [h.eq_nil]
    exact .refl []
  | cons t ts ih =>
    obtain ⟨u, us, rfl, ht, hus⟩ := h.exists_cons
    rw [afterSeparators_cons] at hX
    rw [afterSeparators_cons, afterSeparators_cons, Alike.isPunctuation_eq ht]
    split
    · rename_i hsemicolon
      rw [if_pos hsemicolon] at hX
      exact ih hus hX
    · exact .cons ht hus

/-- The same tokens are ahead, in places that may differ, and behind them others; nothing is wrong
behind those. -/
structure Longer (X : List Token) (s s' : Tokens) : Prop where
  /-- the tokens ahead -/
  ahead : Alike s'.ahead (s.ahead ++ X)
  /-- the end of all tokens -/
  ending : ∃ p, s'.ending = .ok p

/-- Without more tokens, what a reader does can be looked at on the tokens that it has, with nothing
wrong behind them. -/
theorem Longer.same (s : Tokens) : Longer [] s { s with ending := .ok .first } :=
  ⟨by rw [List.append_nil]; exact .refl _, _, rfl⟩

/-- Tokens of the grade are taken between the two. The one state is that before reading and the
other that behind it, and what is taken is a beginning of what was ahead. -/
def Grade.Leads (g : Grade) (s r : Tokens) : Prop :=
  r.ending = s.ending ∧ ∃ w, s.ahead = w ++ r.ahead ∧ g.Holds w

/-- What `m` reads, `m'` reads with more tokens behind. The premise that tokens are left over, or
that there are none behind, stands in the conclusion, so that the grade is known in any case. It is
what the grade is for: if all tokens end in a `;`, then a tree leaves one of them over. -/
def Carries (P : Option Token → Prop) (g : Grade) (R : α → β → Prop) (m : Parse α) (m' : Parse β) :
    Prop :=
  ∀ X s s' a r, Longer X s s' → P s.ahead.head? → m s = .ok (a, r) → g.Leads s r ∧
    (X = [] ∨ r.ahead ≠ [] → ∃ b r', m' s' = .ok (b, r') ∧ R a b ∧ Longer X r r')

theorem Grade.Leads.refl (s : Tokens) : closed.Leads s s := ⟨rfl, [], rfl, nofun⟩

namespace Carries

variable {P : Option Token → Prop} {g : Grade} {R : α → β → Prop} {S : γ → δ → Prop}
  {m n : Parse α} {m' n' : Parse β}

/-! ### Rules for all readers

These are the rules by which readers are put together, for whatever is said of their results and of
the tokens that they take. -/

/-- A reader that takes nothing is closed, but it is not solid: there is no last token of which
something could be known. -/
theorem pure {a : α} {b : β} (h : R a b) : Carries P .closed R (pure a) (pure b) := by
  intro X s s' a' r hlonger _ hread
  cases hread
  exact ⟨.refl s, fun _ => ⟨b, s', rfl, h, hlonger⟩⟩

/-- A reader that comes to no result. -/
theorem of_fails (h : ∀ s a r, m s ≠ .ok (a, r)) : Carries P g R m m' :=
  fun _ s _ a r _ _ hread => absurd hread (h s a r)

/-- What fails carries on everything, and in particular a reader without fuel does. So of two loops
only those steps are compared for which the first one has fuel. -/
theorem throw (e : Stop) : Carries P g R (MonadExcept.throw e : Parse α) m' :=
  of_fails fun _ _ _ => nofun

theorem unexpected (e : Expectation) : Carries P g R (Grammar.unexpected e : Parse α) m' := by
  refine of_fails fun s a r hread => ?_
  have h : Gives (fun _ => False) (Grammar.unexpected e : Parse α) := .unexpected e
  exact h s _ hread

/-- A branch that both readers take alike, as they know the same. What they know is the first token
ahead, and that is alike for both. -/
theorem ite {c : Prop} [Decidable c] (hm : Carries P g R m m') (hn : Carries P g R n n') :
    Carries P g R (if c then m else n) (if c then m' else n') := by
  split
  · exact hm
  · exact hn

/-- Nothing has to be known of the first token. -/
theorem anywhere (h : Carries (fun _ => True) g R m m') : Carries P g R m m' :=
  fun X s s' a r hlonger _ => h X s s' a r hlonger trivial

/-- A solid reader may be used wherever a grade is asked for. -/
theorem of_solid (h : Carries P .solid R m m') : Carries P g R m m' := by
  intro X s s' a r hlonger hP hread
  obtain ⟨⟨hending, w, hw, hsolid⟩, hcarry⟩ := h X s s' a r hlonger hP hread
  exact ⟨⟨hending, w, hw, hsolid.of_solid⟩, hcarry⟩

/-- Where the last token does not matter, a closed reader will do. -/
theorem of_closed (h : Carries P .closed R m m') : Carries P .any R m m' := by
  intro X s s' a r hlonger hP hread
  obtain ⟨⟨hending, w, hw, -⟩, hcarry⟩ := h X s s' a r hlonger hP hread
  exact ⟨⟨hending, w, hw, trivial⟩, hcarry⟩

/-- The tokens that two readers take, one after the other. The grade of the whole is asked for as a
condition here, and the lemmas below meet it for the cases that occur. -/
theorem bind_of {k k' : Grade} {f : α → Parse γ} {f' : β → Parse δ}
    (hm : Carries P k R m m') (hf : ∀ a b, R a b → Carries (fun _ => True) k' S (f a) (f' b))
    (hg : ∀ w w', k.Holds w → k'.Holds w' → g.Holds (w ++ w')) :
    Carries P g S (m >>= f) (m' >>= f') := by
  intro X s s' c r hlonger hP hread
  obtain ⟨a, s₁, hm₁, hf₁⟩ := exists_of_bind hread
  obtain ⟨⟨hending, w, hw, hk⟩, hcarry⟩ := hm X s s' a s₁ hlonger hP hm₁
  -- without other tokens there is a second result, whatever is left, that shows what is taken
  obtain ⟨-, hsame⟩ := hm [] s { s with ending := .ok .first } a s₁ (.same s) hP hm₁
  obtain ⟨b, s₂, -, hab, hlonger₂⟩ := hsame (.inl rfl)
  obtain ⟨⟨hending', w', hw', hk'⟩, -⟩ := hf a b hab [] s₁ s₂ c r hlonger₂ trivial hf₁
  -- the tokens that both readers take, in their order
  refine ⟨⟨hending'.trans hending, w ++ w', by rw [hw, hw', List.append_assoc], hg w w' hk hk'⟩,
    fun hX => ?_⟩
  -- if there are tokens left in the end, there were some left in between
  have hleft : X = [] ∨ s₁.ahead ≠ [] := by
    refine hX.imp_right fun hr hnil => hr ?_
    rw [hnil] at hw'
    exact (List.append_eq_nil_iff.1 hw'.symm).2
  obtain ⟨b, s₁', hm', hab, hlonger₁⟩ := hcarry hleft
  obtain ⟨-, hcarry'⟩ := hf a b hab X s₁ s₁' c r hlonger₁ trivial hf₁
  obtain ⟨d, r', hread', hcd, hlonger'⟩ := hcarry' hX
  refine ⟨d, r', ?_, hcd, hlonger'⟩
  rw [bind_of_ok hm', hread']

/-- Nothing is known of what is taken last. -/
theorem bind_any {k : Grade} {f : α → Parse γ} {f' : β → Parse δ} (hm : Carries P k R m m')
    (hf : ∀ a b, R a b → Carries (fun _ => True) .any S (f a) (f' b)) :
    Carries P .any S (m >>= f) (m' >>= f') :=
  bind_of hm hf fun _ _ _ _ => trivial

/-- What is taken last does not spoil it. -/
theorem bind {f : α → Parse γ} {f' : β → Parse δ} (hm : Carries P g R m m')
    (hf : ∀ a b, R a b → Carries (fun _ => True) .closed S (f a) (f' b)) :
    Carries P g S (m >>= f) (m' >>= f') :=
  bind_of hm hf fun _ _ => Grade.Holds.append_closed

/-- What is taken first does not matter. The second reader is sure to take a token, and the last of
these is the last of all. -/
theorem bind_solid {k : Grade} {f : α → Parse γ} {f' : β → Parse δ} (hm : Carries P k R m m')
    (hf : ∀ a b, R a b → Carries (fun _ => True) .solid S (f a) (f' b)) :
    Carries P g S (m >>= f) (m' >>= f') :=
  bind_of hm hf fun _ _ _ => Grade.Holds.append_solid

/-- The same is found, and what is taken after it does not spoil it. -/
theorem bind_eq {n n' : Parse α} {f : α → Parse γ} {f' : α → Parse δ} (hm : Carries P g Eq n n')
    (hf : ∀ a, Carries (fun _ => True) .closed S (f a) (f' a)) :
    Carries P g S (n >>= f) (n' >>= f') :=
  bind hm fun a _ hab => hab ▸ hf a

/-- The same is found, and what is taken first does not matter. -/
theorem bind_solid_eq {k : Grade} {n n' : Parse α} {f : α → Parse γ} {f' : α → Parse δ}
    (hm : Carries P k Eq n n') (hf : ∀ a, Carries (fun _ => True) .solid S (f a) (f' a)) :
    Carries P g S (n >>= f) (n' >>= f') :=
  bind_solid hm fun a _ hab => hab ▸ hf a

/-- What is found without reading tokens. -/
theorem lift {x : Except Stop α} {y : Except Stop β}
    (h : ∀ a, x = .ok a → ∃ b, y = .ok b ∧ R a b) : Carries P .closed R (x : Parse α) (y : Parse β) := by
  intro X s s' a r hlonger _ hread
  cases x with
  | error e => cases hread
  | ok a' =>
    obtain ⟨b, rfl, hab⟩ := h a' rfl
    cases hread
    exact ⟨.refl s, fun _ => ⟨b, s', rfl, hab, hlonger⟩⟩

/-- Running readers on tokens of their own. -/
theorem run (h : Carries P g R m m') (hlonger : Longer [] s s') (hP : P s.ahead.head?) {a : α}
    (hread : (m.run s).map Prod.fst = .ok a) : ∃ b, (m'.run s').map Prod.fst = .ok b ∧ R a b := by
  cases hm : m s with
  | error e =>
    rw [StateT.run, hm] at hread
    cases hread
  | ok x =>
    -- the tokens that are left are dropped, and the result is kept
    obtain ⟨a', r⟩ := x
    obtain rfl : a' = a := by
      rw [StateT.run, hm] at hread
      exact Except.ok.inj hread
    obtain ⟨-, hcarry⟩ := h [] s s' a' r hlonger hP hm
    obtain ⟨b, r', hread', hab, -⟩ := hcarry (.inl rfl)
    exact ⟨b, by rw [StateT.run, hread']; rfl, hab⟩

/-! ### Rules for single steps

The steps that look at a token or pass it. What one reader finds in its tokens the other one has to
find in those that are longer. -/

/-- The next token decides. If there is none in the first text, then there is none in the second, or
nothing is promised: some token has to be left over where others come behind. -/
theorem peek {f : Option Token → Parse α} {f' : Option Token → Parse β}
    (hnone : Carries (· = none) g R (f none) (f' none))
    (hsome : ∀ t t', t.unplaced = t'.unplaced →
      Carries (· = some t) g R (f (some t)) (f' (some t'))) :
    Carries P g R (Grammar.peek >>= f) (Grammar.peek >>= f') := by
  intro X s s' a r hlonger _ hread
  obtain ⟨ahead, ending, reached⟩ := s
  obtain ⟨ahead', ending', reached'⟩ := s'
  obtain ⟨p, rfl⟩ := hlonger.ending
  cases ahead with
  -- without tokens ahead there are none behind either, or nothing is promised
  | nil =>
    cases ending with
    | error e => cases hread
    | ok q =>
      obtain ⟨⟨hending, w, hw, hg⟩, hcarry⟩ := hnone X _ _ a r hlonger rfl hread
      refine ⟨⟨hending, w, hw, hg⟩, fun hX => ?_⟩
      have hr : r.ahead = [] := (List.append_eq_nil_iff.1 hw.symm).2
      obtain rfl : X = [] := hX.resolve_right fun h => h hr
      obtain rfl : ahead' = [] := hlonger.ahead.eq_nil
      exact hcarry hX
  | cons t ahead =>
    obtain ⟨t', ts', rfl, ht, -⟩ := hlonger.ahead.exists_cons
    exact hsome t t' ht.symm X _ _ a r hlonger rfl hread

/-- The first token is passed. -/
theorem advance_of {t : Token} (hg : g.Holds [t]) :
    Carries (· = some t) g (fun _ _ => True) Grammar.advance Grammar.advance := by
  intro X s s' a r hlonger hfirst hread
  obtain ⟨ts, hts⟩ := List.head?_eq_some_iff.1 hfirst
  obtain ⟨ahead, ending, reached⟩ := s
  obtain ⟨ahead', ending', reached'⟩ := s'
  obtain rfl : ahead = t :: ts := hts
  obtain ⟨t', ts', rfl, -, hts'⟩ := hlonger.ahead.exists_cons
  cases hread
  exact ⟨⟨rfl, [t], rfl, hg⟩, fun _ => ⟨(), _, rfl, trivial, hts', hlonger.ending⟩⟩

/-- A first token other than `;` is passed. -/
theorem advance {t : Token} (ht : t.isPunctuation ';' = false) :
    Carries (· = some t) .solid (fun _ _ => True) Grammar.advance Grammar.advance :=
  advance_of ⟨t, rfl, ht⟩

/-- The number of tokens ahead is no smaller with more of them. It is handed to loops as fuel, which
is why they are compared with different fuel throughout. -/
theorem budget : Carries P .closed (· ≤ ·) Grammar.budget Grammar.budget := by
  intro X s s' a r hlonger _ hread
  cases hread
  have hlength := hlonger.ahead.length_eq
  rw [List.length_append] at hlength
  exact ⟨.refl s, fun _ => ⟨_, s', rfl, by omega, hlonger⟩⟩

/-- The state may be asked for as long as nothing depends on where tokens stand. The two states are
not compared, so that what comes of them has to be the same for any two. -/
theorem get : Carries P .closed (fun _ _ => True) (MonadState.get : Parse Tokens) MonadState.get := by
  intro X s s' a r hlonger _ hread
  cases hread
  exact ⟨.refl s, fun _ => ⟨s', s', rfl, trivial, hlonger⟩⟩

/-! ### Rules for tokens of one kind -/

/-- The rule for a reader that asks for a character and then goes on in one of two ways. If the
character is there, the first token is known to the way that it goes on. -/
theorem atPunctuation {c : Char} {f : Bool → Parse α} {f' : Bool → Parse β}
    (htrue : ∀ t, t.isPunctuation c = true → Carries (· = some t) g R (f true) (f' true))
    (hfalse : Carries (fun _ => True) g R (f false) (f' false)) :
    Carries P g R (Grammar.atPunctuation c >>= f) (Grammar.atPunctuation c >>= f') := by
  simp only [Grammar.atPunctuation, bind_assoc, pure_bind]
  refine peek hfalse.anywhere fun t t' ht => ?_
  simp only [Option.any_some, ← Alike.isPunctuation_eq ht c]
  cases hc : t.isPunctuation c with
  | true => exact htrue t hc
  | false => exact hfalse.anywhere

/-- The same for a reserved word. -/
theorem atKeyword {w : String} {f : Bool → Parse α} {f' : Bool → Parse β}
    (htrue : ∀ t, t.isKeyword w = true → Carries (· = some t) g R (f true) (f' true))
    (hfalse : Carries (fun _ => True) g R (f false) (f' false)) :
    Carries P g R (Grammar.atKeyword w >>= f) (Grammar.atKeyword w >>= f') := by
  simp only [Grammar.atKeyword, bind_assoc, pure_bind]
  refine peek hfalse.anywhere fun t t' ht => ?_
  simp only [Option.any_some, ← Alike.isKeyword_eq ht w]
  cases hw : t.isKeyword w with
  | true => exact htrue t hw
  | false => exact hfalse.anywhere

/-- A token is one character only. -/
theorem isPunctuation_eq_false {t : Token} {c d : Char} (h : t.isPunctuation c = true) (hd : c ≠ d) :
    t.isPunctuation d = false := by
  obtain ⟨p, rfl⟩ := Token.isPunctuation_iff.1 h
  simpa [Token.isPunctuation] using Ne.symm hd

/-- A reserved word is no character. -/
theorem isPunctuation_of_isKeyword {t : Token} {w : String} (h : t.isKeyword w = true) (c : Char) :
    t.isPunctuation c = false := by
  rcases t with ⟨l, p⟩ | ⟨items, p⟩
  · cases l with
    | keyword => rfl
    | _ => cases h
  · rfl

/-- A character that has to come next is taken, and is not a `;`. -/
theorem expectPunctuation {c : Char} (hc : c ≠ ';') : Carries P .solid (fun _ _ => True)
    (Grammar.expectPunctuation c) (Grammar.expectPunctuation c) :=
  atPunctuation (fun _ ht => advance (isPunctuation_eq_false ht hc)) (unexpected _)

/-- A `;` is taken as well, and this is one of the two places where the grade is lost. The other is
`skipSeparators`. -/
theorem expectSemicolon : Carries P .any (fun _ _ => True)
    (Grammar.expectPunctuation ';') (Grammar.expectPunctuation ';') :=
  atPunctuation (fun _ _ => advance_of trivial) (unexpected _)

/-- A reserved word that has to come next is no `;`. -/
theorem expectKeyword (w : String) : Carries P .solid (fun _ _ => True)
    (Grammar.expectKeyword w) (Grammar.expectKeyword w) :=
  atKeyword (fun _ ht => advance (isPunctuation_of_isKeyword ht ';')) (unexpected _)

/-- Whether the character comes next is found alike. If it does not, no token is taken, so that the
reader is closed and not solid. -/
theorem acceptPunctuation {c : Char} (hc : c ≠ ';') : Carries P .closed Eq
    (Grammar.acceptPunctuation c) (Grammar.acceptPunctuation c) := by
  refine atPunctuation (fun t ht => ?_) (pure rfl)
  exact bind (of_solid (advance (isPunctuation_eq_false ht hc))) fun _ _ _ => pure rfl

/-- The same for a reserved word. -/
theorem acceptKeyword (w : String) : Carries P .closed Eq
    (Grammar.acceptKeyword w) (Grammar.acceptKeyword w) := by
  refine atKeyword (fun t ht => ?_) (pure rfl)
  exact bind (of_solid (advance (isPunctuation_of_isKeyword ht ';'))) fun _ _ _ => pure rfl

/-- The operator ahead decides. -/
theorem operator? {f : Option (Operator × Nat) → Parse α} {f' : Option (Operator × Nat) → Parse β}
    (hnone : Carries (fun _ => True) g R (f none) (f' none))
    (hsome : ∀ o p q, Carries (· = some (.plain (.operator o) q)) g R (f (some (o, p)))
      (f' (some (o, p)))) :
    Carries P g R (Grammar.operator? >>= f) (Grammar.operator? >>= f') := by
  simp only [Grammar.operator?, bind_assoc]
  refine peek hnone.anywhere fun t t' ht => ?_
  obtain ⟨l, p, p', rfl, rfl⟩ | ⟨items, items', p, p', rfl, rfl, -⟩ := plain_or_array ht
  · cases l with
    | operator o =>
      cases hp : o.precedence? with
      | none => simpa only [hp, Option.map_none, pure_bind] using hnone.anywhere
      | some q => simpa only [hp, Option.map_some, pure_bind] using hsome o q p
    | _ => exact hnone.anywhere
  · exact hnone.anywhere

/-- Semicolons are passed, which is the other place where the grade is lost. If only semicolons were
ahead, those behind them would be passed as well; but then nothing is promised. -/
theorem skipSeparators : Carries P .any (fun _ _ => True)
    Grammar.skipSeparators Grammar.skipSeparators := by
  intro X s s' a r hlonger _ hread
  cases hread
  obtain ⟨w, hw⟩ := afterSeparators_suffix s.ahead
  exact ⟨⟨rfl, w, hw.symm, trivial⟩, fun hX =>
    ⟨(), _, rfl, trivial, afterSeparators_alike hlonger.ahead hX, hlonger.ending⟩⟩

end Carries

end CommandLanguage.Grammar
