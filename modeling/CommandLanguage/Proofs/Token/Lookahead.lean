import CommandLanguage.Proofs.Token.Passes

/-!
# Looking ahead

A `Lexer` gives the tokens of a text one by one and can be asked for the next one beforehand. So it
holds more than a place in the text: the token that was looked at and not yet given, and whether a `/`
divides, which is settled when a token is read and not when it is given. One invariant covers both:
what is still to be given is the buffered token and then all tokens from the cursor on (`Awaits`).
Each query keeps it, so that looking ahead changes no token (`after_next`).
-/

namespace CommandLanguage.Lexer

variable {l : Lexer} {s : List Char} {ts : List Token}

/-- Something that is asked of a reader of tokens. -/
inductive Query where
  /-- what the next token is -/
  | peek
  /-- to give the next token -/
  | next
  /-- whether no token is left -/
  | isAtEnd
  /-- where reading goes on -/
  | position
  deriving DecidableEq, Repr

/-- The reader after a query. -/
def query (l : Lexer) : Query → Lexer
  | .peek => l.peek.2
  | .next => l.next.2
  | .isAtEnd => l.isAtEnd.2
  | .position => l

/-- The reader after several queries. -/
def after (l : Lexer) (qs : List Query) : Lexer := qs.foldl query l

/-- The tokens that a reader is still to give. -/
structure Awaits (l : Lexer) (ts : List Token) : Prop where
  /-- as many array literals as the text ahead can hold may lie within each other -/
  room : l.cursor.rest.length ≤ l.depth
  /-- the buffered token comes before those from the cursor on -/
  tokens : ∃ us, ts = l.buffered.toList ++ us ∧ Completes l.afterOperand l.cursor us

/-! ## Single queries -/

/-- At the start of a text, all of its tokens are to be given. -/
theorem awaits_start (h : tokens? s = some ts) : Awaits (start s) ts :=
  ⟨Nat.le_refl _, ts, rfl, tokens?_eq_some_iff.1 h⟩

namespace Awaits

/-- A reader knows the tokens of all texts between parentheses that it can meet. -/
theorem readToken_eq (h : Awaits l ts) :
    readToken (innerTokens? l.depth) l.afterOperand l.cursor =
      readToken tokens? l.afterOperand l.cursor :=
  readToken_congr fun _ hv => innerTokens?_eq (Nat.lt_of_lt_of_le hv h.room)

/-- Without a buffered token the next one is read. -/
theorem exists_read (h : Awaits l ts) (hnone : l.buffered = none) :
    ∃ l', l.read = (.ok ts.head?, l') ∧ l'.buffered = none ∧ Awaits l' ts.tail := by
  obtain ⟨us, hts, hcompletes⟩ := h.tokens
  rw [hnone, Option.toList_none, List.nil_append] at hts
  subst hts
  unfold Lexer.read
  rw [h.readToken_eq]
  cases ts with
  | nil =>
    -- at the end the cursor passes the last blanks, and nothing is ahead any more
    have hrest : l.cursor.toToken.rest = [] :=
      dropBlanks_eq_nil_iff.2 (Completes.nil_iff.1 hcompletes)
    rw [readToken_of_nil hrest]
    have hend : dropBlanks l.cursor.toToken.rest = [] := by rw [hrest, dropBlanks]
    refine ⟨_, rfl, hnone, ?_, [], ?_, Completes.nil_iff.2 hend⟩
    · simp [hrest]
    · simp [hnone]
  | cons t ts =>
    obtain ⟨d, hfirst, hmore⟩ := Completes.cons_iff.1 hcompletes
    have hlt := (spans_of_readToken hfirst).length_lt
    rw [hfirst]
    refine ⟨_, rfl, hnone, Nat.le_of_lt (Nat.lt_of_lt_of_le hlt h.room), ts, ?_, hmore⟩
    simp [hnone]

/-- To look ahead gives the next token, which stays the next one. -/
theorem peek (h : Awaits l ts) : l.peek.1 = .ok ts.head? ∧ Awaits l.peek.2 ts := by
  -- the token was looked at before, or it is read now and kept
  cases hbuffered : l.buffered with
  | some t =>
    have hpeek : l.peek = (.ok (some t), l) := by rw [Lexer.peek, hbuffered]
    obtain ⟨us, hts, -⟩ := h.tokens
    rw [hbuffered] at hts
    rw [hpeek, hts]
    exact ⟨rfl, hts ▸ h⟩
  | none =>
    obtain ⟨l', hread, hnone, hroom, us, hus, hcompletes⟩ := h.exists_read hbuffered
    have hpeek : l.peek = (.ok ts.head?, { l' with buffered := ts.head? }) := by
      rw [Lexer.peek, hbuffered, hread]
    rw [hnone, Option.toList_none, List.nil_append] at hus
    rw [hpeek]
    refine ⟨rfl, hroom, us, ?_, hcompletes⟩
    rw [← hus]
    cases ts <;> rfl

/-- To take a token gives the next one, and the others stay. -/
theorem next (h : Awaits l ts) : l.next.1 = .ok ts.head? ∧ Awaits l.next.2 ts.tail := by
  -- the token was looked at before and is given away, or it is read now
  cases hbuffered : l.buffered with
  | some t =>
    have hnext : l.next = (.ok (some t), { l with buffered := none }) := by
      rw [Lexer.next, hbuffered]
    obtain ⟨us, hts, hcompletes⟩ := h.tokens
    rw [hbuffered] at hts
    rw [hnext, hts]
    exact ⟨rfl, h.room, us, rfl, hcompletes⟩
  | none =>
    obtain ⟨l', hread, -, hrest⟩ := h.exists_read hbuffered
    have hnext : l.next = (.ok ts.head?, l') := by rw [Lexer.next, hbuffered, hread]
    rw [hnext]
    exact ⟨rfl, hrest⟩

/-- A reader is at the end if it has no more tokens to give. -/
theorem isAtEnd (h : Awaits l ts) : l.isAtEnd.1 = .ok ts.isEmpty ∧ Awaits l.isAtEnd.2 ts := by
  obtain ⟨hpeek, hrest⟩ := h.peek
  unfold Lexer.isAtEnd
  refine ⟨?_, hrest⟩
  simp only [hpeek]
  cases ts <;> rfl

/-- Only taking a token changes what is still to be given. -/
theorem query (h : Awaits l ts) (q : Query) : Awaits (l.query q) (ts.drop ([q].count .next)) := by
  cases q with
  | peek => exact h.peek.2
  | next =>
    rw [List.count_singleton_self, List.drop_one]
    exact h.next.2
  | isAtEnd => exact h.isAtEnd.2
  | position => exact h

/-- After several queries, as many tokens are gone as were taken. -/
theorem after (h : Awaits l ts) (qs : List Query) :
    Awaits (l.after qs) (ts.drop (qs.count .next)) := by
  induction qs generalizing l ts with
  | nil => exact h
  | cons q qs ih =>
    have hrest := ih (h.query q)
    rw [List.drop_drop, ← List.count_append] at hrest
    exact hrest

end Awaits

/-- **Looking ahead changes no token.** Whatever has been asked of a reader before, the next token that
it gives is the one of the text behind those that it has given, and there is none for ever after the
last. To look ahead shows just that token, also if more is asked before it is given, and it is said
that no token is left if and only if all have been given. -/
theorem after_next (h : tokens? s = some ts) (qs : List Query) :
    let l := (start s).after qs
    let k := qs.count .next
    l.next.1 = .ok ts[k]? ∧ l.peek.1 = .ok ts[k]? ∧ l.isAtEnd.1 = .ok (decide (ts.length ≤ k)) ∧
      ∀ quiet, .next ∉ quiet → (l.after quiet).next.1 = l.peek.1 := by
  intro l k
  have hafter : Awaits l (ts.drop k) := (awaits_start h).after qs
  have hnext : ts[k]? = (ts.drop k).head? := List.head?_drop.symm
  rw [hnext]
  refine ⟨hafter.next.1, hafter.peek.1, ?_, fun quiet hquiet => ?_⟩
  · have hempty : (ts.drop k).isEmpty = decide (ts.length ≤ k) := by
      rw [Bool.eq_iff_iff]
      simp
    rw [hafter.isAtEnd.1, hempty]
  · -- without taking a token, the same ones are to be given
    have hlater := hafter.after quiet
    rw [List.count_eq_zero_of_not_mem hquiet, List.drop_zero] at hlater
    rw [hafter.peek.1, hlater.next.1]

/-- A division, with looks ahead before and behind the number. -/
theorem after_next_division : ∃ ts, tokens? "8 /2".toList = some ts ∧
    let l := (start "8 /2".toList).after [.peek, .isAtEnd, .next, .position, .peek]
    l.next.1 = .ok ts[1]? ∧ l.peek.1 = .ok ts[1]? ∧ l.isAtEnd.1 = .ok (decide (ts.length ≤ 1)) ∧
      .next ∉ [Query.isAtEnd, .peek] ∧ (l.after [.isAtEnd, .peek]).next.1 = l.peek.1 := by
  have hsome : (tokens? "8 /2".toList).isSome = true := by decide +kernel
  obtain ⟨ts, hts⟩ := Option.isSome_iff_exists.1 hsome
  obtain ⟨hnext, hpeek, hend, hquiet⟩ := after_next hts [.peek, .isAtEnd, .next, .position, .peek]
  exact ⟨ts, hts, hnext, hpeek, hend, by decide, hquiet _ (by decide)⟩

end CommandLanguage.Lexer
