import CommandLanguage.Expr.Parse

/-!
# What reading gives

`Grammar.Gives Q m` says that whatever `m` reads, from any tokens, meets `Q`. Nothing is said about
the tokens that are left, or about texts that cannot be read. There is a rule for each way in which
readers are put together, so that a property of trees is proved along the grammar.

`Grammar.Yields Q x` says the same of what is read without tokens.
-/

namespace CommandLanguage.Grammar

variable {α β : Type} {P Q : α → Prop} {R : β → Prop}

/-- If there is a result, it meets `Q`. -/
def Yields (Q : α → Prop) (x : Except Stop α) : Prop := ∀ a, x = .ok a → Q a

namespace Yields

/-- A result that meets `Q` is all that is asked for. -/
theorem ok {a : α} (h : Q a) : Yields Q (.ok a) := by
  intro b hb
  cases hb
  exact h

theorem error (e : Stop) : Yields Q (.error e) := fun _ h => nomatch h

/-- What is built on a result may rely on what it meets. -/
theorem bind {x : Except Stop α} {f : α → Except Stop β} (hx : Yields P x)
    (hf : ∀ a, P a → Yields R (f a)) : Yields R (x >>= f) := by
  cases x with
  | ok a => exact hf a (hx a rfl)
  | error e => exact error e

theorem map {x : Except Stop α} {f : α → β} (hx : Yields P x) (hf : ∀ a, P a → R (f a)) :
    Yields R (x.map f) := by
  cases x with
  | ok a => exact ok (hf a (hx a rfl))
  | error e => exact error e

end Yields

/-- If something is read, it meets `Q`. -/
def Gives (Q : α → Prop) (m : Parse α) : Prop := ∀ s, Yields (fun r => Q r.1) (m s)

namespace Gives

theorem pure {a : α} (h : Q a) : Gives Q (Pure.pure a) := fun _ => .ok h

theorem throw (e : Stop) : Gives Q (MonadExcept.throw e : Parse α) := fun _ => .error e

theorem bind {m : Parse α} {f : α → Parse β} (hm : Gives P m) (hf : ∀ a, P a → Gives R (f a)) :
    Gives R (m >>= f) :=
  fun s => .bind (hm s) fun r hr => hf r.1 hr r.2

/-- Reading something of which nothing is known. -/
theorem any (m : Parse α) : Gives (fun _ => True) m := fun _ _ _ => trivial

/-- Reading something and then, whatever it was, something else. -/
theorem after {m : Parse α} {f : α → Parse β} (hf : ∀ a, Gives R (f a)) : Gives R (m >>= f) :=
  bind (any m) fun a _ => hf a

/-- What is found without reading tokens. -/
theorem lift {x : Except Stop α} (h : Yields Q x) : Gives Q (x : Parse α) :=
  fun _ => .bind h fun _ ha => .ok ha

/-- A fault at the next token is no result. -/
theorem unexpected (e : Expectation) : Gives Q (Grammar.unexpected e : Parse α) := by
  refine after fun t => ?_
  cases t with
  | none => exact after fun _ => after fun _ => lift (.error _)
  | some t => exact lift (.error _)

/-- Running a reader on tokens of its own. -/
theorem run {m : Parse α} (h : Gives Q m) (s : Tokens) :
    Yields Q ((m.run s).map Prod.fst) :=
  .map (h s) fun _ hr => hr

end Gives

end CommandLanguage.Grammar
