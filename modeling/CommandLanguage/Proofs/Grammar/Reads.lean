import CommandLanguage.Proofs.Grammar.Depth
import CommandLanguage.Proofs.Token.Place

/-!
# Reading given tokens

`Grammar.Reads Q m ts rest` says that `m` reads the tokens `ts` where `rest` follows them, wherever
all of them stand: it ends without a fault, its result meets `Q`, and exactly `rest` is left. Unlike
`Gives` it promises that there is a result.

There is a rule for each step of the grammar. Steps that only look ahead read no tokens, and
`Reads.bind` puts readers of consecutive tokens together.
-/

namespace CommandLanguage.Grammar

open Token (Alike)

variable {α β : Type} {P Q : α → Prop} {R : β → Prop} {m : Parse α} {ts us rest : List Token}

/-- From tokens like `ts` and then `rest`, with nothing wrong behind them, `m` reads those like `ts`
and comes to a result that meets `Q`. Both lists are meant up to the places of the tokens, as the
same script may be laid out in many ways. -/
def Reads (Q : α → Prop) (m : Parse α) (ts rest : List Token) : Prop :=
  ∀ ts' rest', Alike ts' ts → Alike rest' rest → ∀ stop reached, ∃ a reached',
    m ⟨ts' ++ rest', .ok stop, reached⟩ = .ok (a, ⟨rest', .ok stop, reached'⟩) ∧ Q a

namespace Reads

/-- What reads nothing leaves what follows as it is. -/
theorem pure {a : α} (h : Q a) : Reads Q (Pure.pure a) [] rest := by
  intro ts' rest' hts _ stop reached
  obtain rfl := hts.eq_nil
  exact ⟨a, reached, rfl, h⟩

/-- One reader after the other: what the second one reads is what follows for the first one. In this
way the tokens that are to come are known to each reader, which may have to look at them. -/
theorem bind {f : α → Parse β} (hm : Reads P m ts (us ++ rest))
    (hf : ∀ a, P a → Reads R (f a) us rest) : Reads R (m >>= f) (ts ++ us) rest := by
  intro ts' rest' hts hrest stop reached
  obtain ⟨ts₁, ts₂, rfl, h₁, h₂⟩ := hts.exists_append
  obtain ⟨a, reached₁, ha, hP⟩ := hm ts₁ (ts₂ ++ rest') h₁ (h₂.append hrest) stop reached
  obtain ⟨b, reached₂, hb, hR⟩ := hf a hP ts₂ rest' h₂ hrest stop reached₁
  refine ⟨b, reached₂, ?_, hR⟩
  rw [List.append_assoc]
  simp only [Bind.bind, StateT.bind, ha, Except.bind, hb]

/-- A reader of one token, and then another one. -/
theorem cons {t : Token} {f : α → Parse β} (hm : Reads P m [t] (us ++ rest))
    (hf : ∀ a, P a → Reads R (f a) us rest) : Reads R (m >>= f) (t :: us) rest :=
  bind hm hf

/-- A reader that looks ahead only, and then another one. What it has found is a fact about the
tokens that are still to be read. -/
theorem look {f : α → Parse β} (hm : Reads P m [] (us ++ rest))
    (hf : ∀ a, P a → Reads R (f a) us rest) : Reads R (m >>= f) us rest :=
  bind hm hf

/-- A reader after which there is nothing left to read. -/
theorem last {f : α → Parse β} (hm : Reads P m ts rest) (hf : ∀ a, P a → Reads R (f a) [] rest) :
    Reads R (m >>= f) ts rest := by
  have h : Reads R (m >>= f) (ts ++ []) rest := bind hm hf
  rwa [List.append_nil] at h

/-- A reader whose result does not matter. -/
theorem discard (hm : Reads P m ts rest) : Reads (fun _ => True) (discard m) ts rest :=
  have h : Reads (fun _ => True) (m >>= fun _ => Pure.pure ()) ts rest :=
    last hm fun _ _ => pure trivial
  h

/-- A result that is found without reading tokens. A token that is an operand is looked up in this
way when it was passed already. -/
theorem lift {x : Except Stop α} {a : α} (hx : x = .ok a) (h : Q a) :
    Reads Q (x : Parse α) [] rest := by
  rw [hx]
  exact pure h

/-- The next token is seen in its place. -/
theorem peek_head {t : Token} {f : Option Token → Parse β} (hhead : (ts ++ rest).head? = some t)
    (h : ∀ t', t'.unplaced = t.unplaced → Reads R (f (some t')) ts rest) :
    Reads R (peek >>= f) ts rest := by
  intro ts' rest' hts hrest stop reached
  obtain ⟨us, hus⟩ := List.head?_eq_some_iff.1 hhead
  have halike := hts.append hrest
  rw [hus] at halike
  obtain ⟨t', us', hus', ht, -⟩ := halike.exists_cons
  obtain ⟨b, reached', hb, hR⟩ := h t' ht ts' rest' hts hrest stop reached
  refine ⟨b, reached', ?_, hR⟩
  rw [hus'] at hb ⊢
  exact hb

/-- The next token is the first one of those to read. -/
theorem peek_cons {t : Token} {f : Option Token → Parse β}
    (h : ∀ t', t'.unplaced = t.unplaced → Reads R (f (some t')) (t :: ts) rest) :
    Reads R (peek >>= f) (t :: ts) rest :=
  peek_head rfl h

/-- The next token is the first one of what follows. -/
theorem peek_rest {t : Token} {f : Option Token → Parse β}
    (h : ∀ t', t'.unplaced = t.unplaced → Reads R (f (some t')) [] (t :: rest)) :
    Reads R (peek >>= f) [] (t :: rest) :=
  peek_head rfl h

/-- Nothing is left. -/
theorem peek_nil {f : Option Token → Parse β} (h : Reads R (f none) [] []) :
    Reads R (peek >>= f) [] [] := by
  intro ts' rest' hts hrest stop reached
  obtain rfl := hts.eq_nil
  obtain rfl := hrest.eq_nil
  exact h [] [] rfl rfl stop reached

/-- A reader that depends on the tokens ahead only through their number. It is started with one step
more than there are tokens, so a loop that takes a token at each step ends before its steps do. -/
theorem budget {f : Nat → Parse β}
    (h : Reads R (f (ts.length + rest.length + 1)) ts rest) : Reads R (budget >>= f) ts rest := by
  intro ts' rest' hts hrest stop reached
  obtain ⟨b, reached', hb, hR⟩ := h ts' rest' hts hrest stop reached
  refine ⟨b, reached', ?_, hR⟩
  rw [← hts.length_eq, ← hrest.length_eq, ← List.length_append] at hb
  exact hb

/-- A reader that depends on where it stands. It does so for the places in faults, and there is none
where all is read. -/
theorem get {f : Tokens → Parse β} (h : ∀ s, Reads R (f s) ts rest) :
    Reads R (MonadState.get >>= f) ts rest :=
  fun ts' rest' hts hrest stop reached => h _ ts' rest' hts hrest stop reached

/-- Passing a token. -/
theorem advance (t : Token) : Reads (fun _ => True) advance [t] rest := by
  intro ts' rest' hts _ stop reached
  obtain ⟨t', ts₁, rfl, -, hts₁⟩ := hts.exists_cons
  obtain rfl := hts₁.eq_nil
  exact ⟨(), t'.span.stop, rfl, trivial⟩

/-- Whether a punctuation character comes next. -/
theorem atPunctuation (c : Char) :
    Reads (· = rest.head?.any (·.isPunctuation c)) (atPunctuation c) [] rest := by
  unfold Grammar.atPunctuation
  cases rest with
  | nil => exact peek_nil (.pure rfl)
  | cons t rest => exact peek_rest fun t' ht => .pure (Alike.isPunctuation_eq ht c)

/-- Whether a reserved word comes next. -/
theorem atKeyword (w : String) :
    Reads (· = rest.head?.any (·.isKeyword w)) (atKeyword w) [] rest := by
  unfold Grammar.atKeyword
  cases rest with
  | nil => exact peek_nil (.pure rfl)
  | cons t rest => exact peek_rest fun t' ht => .pure (Alike.isKeyword_eq ht w)

/-- A punctuation character that has to come and does. -/
theorem expectPunctuation (c : Char) :
    Reads (fun _ => True) (expectPunctuation c) [.mark c] rest := by
  refine look (atPunctuation c) fun b hb => ?_
  obtain rfl : b = true := by simpa [Token.isPunctuation, Token.of] using hb
  exact advance _

/-- Semicolons are passed up to what is none. -/
theorem skipSeparators (n : Nat) (h : rest.head?.any (·.isPunctuation ';') = false) :
    Reads (fun _ => True) skipSeparators (.replicate n (.mark ';')) rest := by
  intro ts' rest' hts hrest stop reached
  -- all of the tokens are passed, and the next one is not
  have hall : ∀ t ∈ ts', t.isPunctuation ';' = true := by
    induction n generalizing ts' with
    | zero =>
      obtain rfl := hts.eq_nil
      exact List.forall_mem_nil _
    | succ n ih =>
      obtain ⟨t, ts, rfl, ht, hts⟩ := hts.exists_cons
      exact List.forall_mem_cons.2 ⟨(Alike.isPunctuation_eq ht ';').trans rfl, ih ts hts⟩
  have hnone : rest'.takeWhile (·.isPunctuation ';') = [] := by
    cases rest with
    | nil =>
      obtain rfl := hrest.eq_nil
      rfl
    | cons t rest =>
      obtain ⟨t', ts, rfl, ht, -⟩ := hrest.exists_cons
      exact List.takeWhile_cons_of_neg (by simpa [Alike.isPunctuation_eq ht] using h)
  have hseps : (ts' ++ rest').takeWhile (·.isPunctuation ';') = ts' := by
    rw [List.takeWhile_append_of_pos hall, hnone, List.append_nil]
  refine ⟨(), (ts'.getLast?.map (·.span.stop)).getD reached, ?_, trivial⟩
  have hleft : (ts' ++ rest').drop ts'.length = rest' := List.drop_left
  change Except.ok ((), (⟨(ts' ++ rest').drop _, _, _⟩ : Tokens)) = _
  rw [hseps, hleft]

/-- A reserved word that has to come and does. -/
theorem expectKeyword (w : String) :
    Reads (fun _ => True) (expectKeyword w) [.reserved w] rest := by
  refine look (atKeyword w) fun b hb => ?_
  obtain rfl : b = true := by simpa [Token.isKeyword, Token.of] using hb
  exact advance _

/-- A punctuation character that may come and does. -/
theorem acceptPunctuation (c : Char) : Reads (· = true) (acceptPunctuation c) [.mark c] rest := by
  refine look (atPunctuation c) fun b hb => ?_
  obtain rfl : b = true := by simpa [Token.isPunctuation, Token.of] using hb
  exact last (advance _) fun _ _ => .pure rfl

/-- A punctuation character that may come and does not. -/
theorem acceptPunctuation_none {c : Char} (h : rest.head?.any (·.isPunctuation c) = false) :
    Reads (· = false) (Grammar.acceptPunctuation c) [] rest := by
  refine look (atPunctuation c) fun b hb => ?_
  obtain rfl : b = false := hb.trans h
  exact .pure rfl

/-- A reserved word that may come and does. -/
theorem acceptKeyword (w : String) : Reads (· = true) (acceptKeyword w) [.reserved w] rest := by
  refine look (atKeyword w) fun b hb => ?_
  obtain rfl : b = true := by simpa [Token.isKeyword, Token.of] using hb
  exact last (advance _) fun _ _ => .pure rfl

/-- A reserved word that may come and does not. -/
theorem acceptKeyword_none {w : String} (h : rest.head?.any (·.isKeyword w) = false) :
    Reads (· = false) (Grammar.acceptKeyword w) [] rest := by
  refine look (atKeyword w) fun b hb => ?_
  obtain rfl : b = false := hb.trans h
  exact .pure rfl

end Reads

/-! ## Values

Tokens are given up to their places only, and so the value of a token must not depend on where it
stands. It does for an index that cannot be read, whose fault names the place; one that is read is
the same everywhere. -/

variable {self : Nat → Parse Expr}

/-- Where a token stands only matters to an index that cannot be read. Then the place is part of the
fault, and here there is none. -/
theorem index_place {raw : String} {p : Position} {e : Expr} (h : index self raw p = .ok e)
    (q : Position) : index self raw q = .ok e := by
  unfold index at h ⊢
  generalize Tokens.ofText raw.toList = s at h ⊢
  obtain ⟨ahead, ending, reached⟩ := s
  cases ahead with
  | nil => cases ending <;> cases h
  | cons t ts => exact h

mutual

/-- Tokens alike have the same value. An index in them is read from its own text, so that its tokens
are not only alike but the same. -/
theorem value_alike {e : Expr} : ∀ {t u : Token}, t.unplaced = u.unplaced →
    value self u = .ok e → value self t = .ok e
  | .plain l s, .plain l' s', h, hv => by
    cases h
    cases l with
    | «variable» n d raw =>
      cases raw with
      | none => exact hv
      | some raw =>
        -- the place of a token matters to the faults of its index only
        cases hi : index self raw s'.start with
        | error f => simp [value, hi, Except.map] at hv
        | ok i =>
          rw [value, hi] at hv
          rw [value, index_place hi]
          exact hv
    | keyword _ | operator _ | punctuation _ => cases hv
    | _ => exact hv
  | .array items s, .array items' s', h, hv => by
    cases hes : values self items' with
    | error f => simp [value, hes, Except.map] at hv
    | ok es =>
      rw [value, hes] at hv
      rw [value, values_alike (Token.array.inj h).1 hes]
      exact hv

/-- Lists of tokens that are alike have the same values. -/
theorem values_alike {es : List Expr} : ∀ {ts us : List Token}, Alike ts us →
    values self us = .ok es → values self ts = .ok es
  | [], [], _, hv => hv
  | t :: ts, u :: us, h, hv => by
    obtain ⟨ht, hts⟩ := List.cons.inj h
    cases he : value self u with
    | error f => simp [values, he, Bind.bind, Except.bind] at hv
    | ok e =>
      cases hes : values self us with
      | error f => simp [values, he, hes, Bind.bind, Except.bind] at hv
      | ok es' =>
        rw [values, he, hes] at hv
        rw [values, value_alike ht he, values_alike hts hes]
        exact hv

end

end CommandLanguage.Grammar
