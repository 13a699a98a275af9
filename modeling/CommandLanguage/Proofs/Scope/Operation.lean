import CommandLanguage.Proofs.Scope.Nearest
import CommandLanguage.Proofs.Run.Returns

/-!
# Operations on scopes

What adding, writing and removing do to scopes, one operation after the other (`Operation`, `Built`).
Scopes that are built by operations form a tree (`Built.isTree`), and an operation changes at most one
binding, its target (`bound?_apply`).

* To write to a name changes the binding in one scope only (`Same`), and is seen from all scopes from
  which that one is the nearest to bind the name (`Wrote`).
* To remove a name does the same, and from those scopes the next binding further out is seen
  (`Removed`).
* What was written stays what it is until the same binding is written or removed (`Since.bound?_eq`). That
  includes functions, which a scope stores without a hold on it if they were defined there.
-/

namespace CommandLanguage.Scopes

variable {σ τ ρ : Scopes} {name n m : String} {s t o : ScopeId} {v : Value}

/-! ## Bindings after an operation

What an operation does is said by what each scope binds to each name after it. No other property of
the scopes is needed to look a name up. -/

/-- A new scope stores nothing. -/
theorem stored_push (parent? : Option ScopeId) (t : ScopeId) :
    stored (σ.push { parent? }) t = σ.stored t := by
  simp only [stored, Array.getElem?_push]
  split
  · rename_i ht
    rw [ht, Array.getElem?_eq_none (Nat.le_refl _)]
    rfl
  · rfl

theorem stored_addRoot (t : ScopeId) : σ.addRoot.2.stored t = σ.stored t := stored_push none t

theorem stored_extend (s t : ScopeId) : (σ.extend s).2.stored t = σ.stored t := stored_push (some s) t

theorem bound?_of_stored (h : τ.stored t = σ.stored t) (m : String) : τ.bound? t m = σ.bound? t m := by
  rw [bound?, bindings, h, bound?, bindings]

theorem bound?_define_self (hs : s < σ.size) (n : String) (v : Value) :
    (σ.define s n v).bound? s n = some v := by
  rw [bound?, bindings_define_self n v hs, Dictionary.get?_insert_self]

theorem bound?_define_ne (h : ¬(t = s ∧ m = n)) : (σ.define s n v).bound? t m = σ.bound? t m := by
  rcases σ.bound?_define_cases s n v t m with heq | ⟨ht, hm, -⟩
  · exact heq
  · exact absurd ⟨ht, hm⟩ h

/-- The scopes without a binding. -/
def erase (σ : Scopes) (s : ScopeId) (n : String) : Scopes := σ.modifyStored s (·.erase n)

theorem bindings_erase (σ : Scopes) (s : ScopeId) (n : String) :
    (σ.erase s n).bindings s = (σ.bindings s).erase n := by
  by_cases hs : s < σ.size
  · exact bindings_erase_self n hs
  · have hsize : ¬s < (σ.erase s n).size := by rwa [erase, size_modifyStored]
    rw [bindings_eq_nil hsize, bindings_eq_nil hs]
    rfl

theorem bound?_erase_ne (h : ¬(t = s ∧ m = n)) : (σ.erase s n).bound? t m = σ.bound? t m := by
  by_cases ht : t = s
  · subst ht
    have hm : m ≠ n := fun hm => h ⟨rfl, hm⟩
    rw [bound?, bindings_erase, Dictionary.get?_eq_of_others_eq (Dictionary.others_erase n _) hm, bound?]
  · rw [bound?, erase, bindings_modifyStored_ne _ (Ne.symm ht), bound?]

theorem bound?_erase_self (hσ : σ.IsTree) (s : ScopeId) (n : String) :
    (σ.erase s n).bound? s n = none := by
  rw [bound?, bindings_erase, Dictionary.get?_erase_self (hσ.nodup s)]

/-- What is removed is the binding of the owner. -/
theorem remove_of_owner? (h : σ.owner? n s = some o) : σ.remove s n = (σ.bound? o n, σ.erase o n) := by
  rw [remove, h, bound?, get?_bindings]
  rfl

theorem remove_of_unowned (h : σ.owner? n s = none) : σ.remove s n = (none, σ) := by
  rw [remove, h]

/-! ## Trees -/

namespace IsTree

theorem define (hσ : σ.IsTree) (s : ScopeId) (n : String) (v : Value) : (σ.define s n v).IsTree where
  older hp := hσ.older ((parent?_modifyStored _).symm.trans hp)
  nodup t := by
    by_cases ht : t < σ.size
    · by_cases hst : s = t
      · rw [hst, bindings_define_self n v ht]
        exact Dictionary.nodup_names_insert (hσ.nodup t)
      · rw [Scopes.define, bindings_modifyStored_ne _ hst]
        exact hσ.nodup t
    · rw [bindings_eq_nil (by rwa [size_define])]
      exact List.nodup_nil

theorem erase (hσ : σ.IsTree) (s : ScopeId) (n : String) : (σ.erase s n).IsTree where
  older hp := hσ.older ((parent?_modifyStored _).symm.trans hp)
  nodup t := by
    by_cases hst : s = t
    · rw [hst, bindings_erase]
      exact Dictionary.nodup_names_erase (hσ.nodup t)
    · rw [Scopes.erase, bindings_modifyStored_ne _ hst]
      exact hσ.nodup t

theorem addRoot (hσ : σ.IsTree) : σ.addRoot.2.IsTree where
  older := by
    intro t p hp
    simp only [parent?, Scopes.addRoot, Array.getElem?_push] at hp
    split at hp
    · cases hp
    · exact hσ.older hp
  nodup t := by
    rw [bindings, stored_addRoot, ← bindings]
    exact hσ.nodup t

/-- A new scope is younger than its parent. -/
theorem extend (hσ : σ.IsTree) (hs : s < σ.size) : (σ.extend s).2.IsTree where
  older := by
    intro t p hp
    simp only [parent?, Scopes.extend, Array.getElem?_push] at hp
    split at hp
    · rename_i ht
      cases hp
      exact ht ▸ hs
    · exact hσ.older hp
  nodup t := by
    rw [bindings, stored_extend, ← bindings]
    exact hσ.nodup t

end IsTree

/-! ## Scopes that are built

Scopes that come from the root scope by operations are trees: each scope comes behind its parent. So
to look outwards from a scope comes to an end, and passes each scope once. -/

/-- An operation on scopes, with the scope that it is given. These are all the ways in which a
program can change scopes. -/
inductive Operation where
  /-- adds a root -/
  | addRoot
  /-- adds a child -/
  | extend (s : ScopeId)
  /-- binds a name in a scope -/
  | define (s : ScopeId) (name : String) (v : Value)
  /-- binds a name where it is bound, or else in the scope -/
  | assign (s : ScopeId) (name : String) (v : Value)
  /-- takes away the nearest binding of a name -/
  | remove (s : ScopeId) (name : String)

namespace Operation

/-- The scopes after an operation. -/
def apply (σ : Scopes) : Operation → Scopes
  | addRoot => σ.addRoot.2
  | extend s => (σ.extend s).2
  | define s n v => σ.define s n v
  | assign s n v => σ.assign s n v
  | remove s n => (σ.remove s n).2

/-- The scope that an operation is given is there. No other can be named by a script, which gets its
scopes from operations. -/
def IsOn (σ : Scopes) : Operation → Prop
  | addRoot => True
  | extend s | define s _ _ | assign s _ _ | remove s _ => s < σ.size

/-- The binding that an operation writes or removes. -/
def target? (σ : Scopes) : Operation → Option (ScopeId × String)
  | addRoot | extend _ => none
  | define s n _ => some (s, n)
  | assign s n _ => some ((σ.owner? n s).getD s, n)
  | remove s n => (σ.owner? n s).map (·, n)

variable {op : Operation}

/-- An operation changes no binding but its target. It may still be seen from other scopes, which is
what `Same` and `Wrote` are about. -/
theorem bound?_apply (h : op.target? σ ≠ some (t, m)) : (op.apply σ).bound? t m = σ.bound? t m := by
  have hne {u : ScopeId} {k : String} (hu : op.target? σ = some (u, k)) : ¬(t = u ∧ m = k) := by
    rintro ⟨rfl, rfl⟩
    exact h hu
  cases op with
  | addRoot => exact bound?_of_stored (stored_addRoot t) m
  | extend s => exact bound?_of_stored (stored_extend s t) m
  | define s n v => exact bound?_define_ne (hne rfl)
  | assign s n v => exact bound?_define_ne (hne rfl)
  | remove s n =>
    rw [apply]
    cases ho : σ.owner? n s with
    | none => rw [remove_of_unowned ho]
    | some o =>
      rw [remove_of_owner? ho]
      exact bound?_erase_ne (hne (by rw [target?, ho, Option.map_some]))

/-- Every operation keeps scopes a tree. -/
theorem isTree_apply (hσ : σ.IsTree) (hop : op.IsOn σ) : (op.apply σ).IsTree := by
  cases op with
  | addRoot => exact hσ.addRoot
  | extend s => exact hσ.extend hop
  | define s n v => exact hσ.define s n v
  | assign s n v => exact hσ.define _ n v
  | remove s n =>
    rw [apply]
    cases ho : σ.owner? n s with
    | none =>
      rw [remove_of_unowned ho]
      exact hσ
    | some o =>
      rw [remove_of_owner? ho]
      exact hσ.erase o n

end Operation

/-- Scopes that are built by operations, from none. Every state of a session is of this kind,
whatever its scripts do. -/
inductive Built : Scopes → Prop
  /-- no scopes -/
  | none : Built #[]
  /-- the scopes after one more operation -/
  | step {σ : Scopes} (h : Built σ) (op : Operation) (hop : op.IsOn σ) : Built (op.apply σ)

/-- **Built scopes form a tree.** -/
theorem Built.isTree (h : Built σ) : σ.IsTree := by
  induction h with
  | none =>
    refine ⟨fun {s p} hp => ?_, fun _ => List.nodup_nil⟩
    simp [parent?] at hp
  | step _ _ hop ih => exact Operation.isTree_apply ih hop

/-- The second scopes come out of the first ones by operations, none of which writes or removes the
binding of the name in `o`. Which binding an operation writes depends on the scopes at that time, so
it is asked at every step. -/
inductive Since (o : ScopeId) (n : String) (σ : Scopes) : Scopes → Prop
  /-- no operation -/
  | refl : Since o n σ σ
  /-- one more operation -/
  | step {τ : Scopes} (h : Since o n σ τ) {op : Operation} (hop : op.IsOn τ)
      (hne : op.target? τ ≠ some (o, n)) : Since o n σ (op.apply τ)

/-- What is bound stays bound until it is written or removed, by induction on the operations in
between. -/
theorem Since.bound?_eq (h : Since o n σ τ) : τ.bound? o n = σ.bound? o n := by
  induction h with
  | refl => rfl
  | step _ _ hne ih => rw [Operation.bound?_apply hne, ih]

theorem Since.built (h : Since o n σ τ) (hσ : Built σ) : Built τ := by
  induction h with
  | refl => exact hσ
  | step _ hop _ ih => exact .step ih _ hop

/-! ## One binding -/

/-- The same scopes in the same tree, with the same bindings but for that of `n` in `o`. It goes
both ways, so to write a binding and to remove it are looked at in one lemma. -/
structure Same (o : ScopeId) (n : String) (σ τ : Scopes) : Prop where
  /-- there are as many scopes -/
  size : τ.size = σ.size
  /-- each is in the same one -/
  parent? : ∀ t, τ.parent? t = σ.parent? t
  /-- all other bindings are the same -/
  bound? : ∀ t m, ¬(t = o ∧ m = n) → τ.bound? t m = σ.bound? t m

namespace Same

theorem symm (h : Same o n σ τ) : Same o n τ σ :=
  ⟨h.size.symm, fun t => (h.parent? t).symm, fun t m hne => (h.bound? t m hne).symm⟩

theorem define (σ : Scopes) (s : ScopeId) (n : String) (v : Value) : Same s n σ (σ.define s n v) :=
  ⟨size_define σ s n v, fun _ => parent?_modifyStored _, fun _ _ => bound?_define_ne⟩

theorem erase (σ : Scopes) (s : ScopeId) (n : String) : Same s n σ (σ.erase s n) :=
  ⟨size_modifyStored σ s _, fun _ => parent?_modifyStored _, fun _ _ => bound?_erase_ne⟩

/-- A binding that is there is seen only from where it is the nearest: elsewhere it makes no
difference. By induction on the scope that is looked from, since parents are older. -/
theorem get?_eq (h : Same o n σ τ) (hσ : σ.IsTree) (hτ : τ.IsTree) (ho : τ.bound? o n ≠ none)
    (hne : ¬(m = n ∧ Nearest τ n t o)) : τ.get? t m = σ.get? t m := by
  induction t using Nat.strongRecOn with
  | _ t ih =>
    -- the binding is not that of the scope itself, or it would be the nearest
    have hself : ¬(t = o ∧ m = n) := by
      rintro ⟨rfl, rfl⟩
      exact hne ⟨rfl, .here ho⟩
    rw [hτ.get?_eq_or, hσ.get?_eq_or, h.bound? t m hself, h.parent? t]
    cases hbound : σ.bound? t m with
    | some v => rfl
    | none =>
      cases hp : σ.parent? t with
      | none => rfl
      | some p =>
        refine ih p (hσ.older hp) fun ⟨hm, hnear⟩ => hne ⟨hm, ?_⟩
        subst hm
        exact .outer (by rw [h.bound? t m hself, hbound]) (by rw [h.parent?, hp]) hnear

end Same

/-- Where a name that is assigned to is bound: in the nearest scope that binds it, or else in the
scope itself. -/
def Owns (σ : Scopes) (n : String) (s o : ScopeId) : Prop :=
  Nearest σ n s o ∨ Unbound σ n s ∧ o = s

/-- The second scopes are the first ones with a value written to the binding of `n` in `o`. Every
other binding is as it was, in every scope, and no scope has another parent. -/
structure Wrote (o : ScopeId) (n : String) (v : Value) (σ τ : Scopes) : Prop where
  /-- nothing else is written -/
  same : Same o n σ τ
  /-- a function is stored without its hold on the scope that it is stored in -/
  stored : (τ.stored o).get? n = some (.detach o v)
  /-- it is handed out as it was -/
  bound? : τ.bound? o n = some v
  /-- it is read from every scope from which it is the nearest -/
  read : ∀ t, Nearest τ n t o → τ.get? t n = some v
  /-- all else is read as before -/
  others : ∀ t m, ¬(m = n ∧ Nearest τ n t o) → τ.get? t m = σ.get? t m

/-- The second scopes are the first ones without the binding of `n` in `o`. The name may still be
bound further out, and is then read from there. -/
structure Removed (o : ScopeId) (n : String) (σ τ : Scopes) : Prop where
  /-- nothing else is removed -/
  same : Same o n σ τ
  /-- it is gone -/
  bound? : τ.bound? o n = none
  /-- from every scope from which it was the nearest, what is further out is read -/
  next : ∀ t, Nearest σ n t o → τ.get? t n = (σ.parent? o).bind fun p => σ.get? p n
  /-- all else is read as before -/
  others : ∀ t m, ¬(m = n ∧ Nearest σ n t o) → τ.get? t m = σ.get? t m

theorem Owns.unique (h : Owns σ n s o) {o' : ScopeId} (h' : Owns σ n s o') : o = o' := by
  rcases h with h | ⟨hun, rfl⟩ <;> rcases h' with h' | ⟨hun', rfl⟩
  · exact h'.unique h
  · exact absurd h hun'.not_nearest
  · exact absurd h' hun.not_nearest
  · rfl

theorem IsTree.owns (hσ : σ.IsTree) (n : String) (s : ScopeId) :
    Owns σ n s ((σ.owner? n s).getD s) := by
  cases ho : σ.owner? n s with
  | none => exact .inr ⟨hσ.owner?_eq_none_iff.1 ho, rfl⟩
  | some o => exact .inl (hσ.owner?_eq_some_iff.1 ho)

theorem IsTree.owner_lt (hσ : σ.IsTree) (hs : s < σ.size) (h : Owns σ n s o) : o < σ.size := by
  rcases h with h | ⟨-, rfl⟩
  · exact Nat.lt_of_le_of_lt (hσ.le_of_nearest h) hs
  · exact hs

/-- What is defined is written to the given scope, and read from there and from all scopes from
which it is the nearest. -/
theorem IsTree.wrote_define (hσ : σ.IsTree) (hs : s < σ.size) (n : String) (v : Value) :
    Wrote s n v σ (σ.define s n v) := by
  have hτ := hσ.define s n v
  have hbound := bound?_define_self hs n v
  have hne : (σ.define s n v).bound? s n ≠ none := by
    rw [hbound]
    exact nofun
  refine ⟨.define σ s n v, ?_, hbound, fun t ht => ?_, fun t m => ?_⟩
  · rw [Scopes.define, stored_modifyStored_self _ hs, Dictionary.get?_insert_self]
  · rw [hτ.get?_of_nearest ht, hbound]
  · exact (Same.define σ s n v).get?_eq hσ hτ hne

/-- Without a binding, all is read as before from where it was not the nearest. -/
theorem IsTree.get?_erase_of_not_nearest (hσ : σ.IsTree) (ho : σ.bound? o n ≠ none)
    (hne : ¬(m = n ∧ Nearest σ n t o)) : (σ.erase o n).get? t m = σ.get? t m :=
  ((Same.erase σ o n).symm.get?_eq (hσ.erase o n) hσ ho hne).symm

/-- Without a binding, what is further out is read from where it was the nearest. From all other
scopes nothing changes. -/
theorem IsTree.get?_erase_of_nearest (hσ : σ.IsTree) (h : Nearest σ n t o) :
    (σ.erase o n).get? t n = (σ.parent? o).bind fun p => σ.get? p n := by
  have hsame := Same.erase σ o n
  induction h with
  | @here t ht =>
    rw [(hσ.erase t n).get?_eq_or, bound?_erase_self hσ, Option.none_or, hsame.parent?]
    cases hp : σ.parent? t with
    | none => rfl
    | some p =>
      rw [Option.bind_some, Option.bind_some, hσ.get?_erase_of_not_nearest ht]
      rintro ⟨-, hnear⟩
      exact Nat.lt_irrefl _ (Nat.lt_of_lt_of_le (hσ.older hp) (hσ.le_of_nearest hnear))
  | @outer t p o hnone hp hnear ih =>
    have hto : ¬(t = o ∧ n = n) := by
      rintro ⟨rfl, -⟩
      exact hnear.bound?_ne hnone
    rw [(hσ.erase o n).get?_eq_or, hsame.bound? t n hto, hnone, Option.none_or, hsame.parent?, hp,
      Option.bind_some]
    exact ih hsame

theorem IsTree.removed_erase (hσ : σ.IsTree) (ho : σ.bound? o n ≠ none) :
    Removed o n σ (σ.erase o n) :=
  ⟨.erase σ o n, bound?_erase_self hσ o n, fun _ => hσ.get?_erase_of_nearest,
    fun _ _ => hσ.get?_erase_of_not_nearest ho⟩

/-! ## Nearest bindings

The scope that a name is found in is the first one on the way outwards that binds it. An assignment
writes to that one, or to the scope itself if there is none. -/

/-- **A name is read, written and removed where it is bound nearest, and nowhere else.** In scopes
that are built by operations,

* a name has the value of its nearest binding, from whatever scope it is read;
* to assign to it writes that binding, or one in the scope itself if there is none, and no other: from
  where that binding is the nearest the new value is read, and all else is read as before;
* to remove it takes away the nearest binding and gives its value, and then what is further out is read;
  where it is not bound nothing happens;
* what was defined or assigned is read, and removed, as it was given until the binding is written or
  removed, whatever else happens to the scopes. A function so keeps the scope that it was defined in,
  also if that is the scope it is stored in. -/
theorem assign_remove_nearest (hσ : Built σ) (hs : s < σ.size) (hn : n ≠ Run.randomName) (v : Value) :
    (∀ c w t, Run.read t n c w = (.value (w.scopes.get? t n), w)) ∧
    (∀ t m u, σ.get? t m = some u ↔ ∃ o, Nearest σ m t o ∧ σ.bound? o m = some u) ∧
    (∃ o, Owns σ n s o ∧ Wrote o n v σ (σ.assign s n v)) ∧
    ((∃ o, Nearest σ n s o ∧ (σ.remove s n).1 = σ.bound? o n ∧ Removed o n σ (σ.remove s n).2) ∨
      Unbound σ n s ∧ σ.remove s n = (none, σ)) ∧
    ∀ τ o, (τ = σ.define s n v ∧ o = s ∨ τ = σ.assign s n v ∧ Owns σ n s o) → ∀ ρ, Since o n τ ρ →
      ∀ t, Nearest ρ n t o → ρ.get? t n = some v ∧ (ρ.remove t n).1 = some v := by
  have htree := hσ.isTree
  have howns := htree.owns n s
  have hwrote := htree.wrote_define (htree.owner_lt hs howns) n v
  refine ⟨fun _ _ _ => Run.read_of_ne hn, fun t m u => htree.get?_eq_some_iff,
    ⟨_, howns, hwrote⟩, ?_, ?_⟩
  · cases ho : σ.owner? n s with
    | some o =>
      have hnear := htree.owner?_eq_some_iff.1 ho
      rw [remove_of_owner? ho]
      exact .inl ⟨o, hnear, rfl, htree.removed_erase hnear.bound?_ne⟩
    | none => exact .inr ⟨htree.owner?_eq_none_iff.1 ho, remove_of_unowned ho⟩
  · intro τ o hτ ρ hsince t ht
    -- both write to a scope that is there, by an operation
    have hwritten : Built τ ∧ τ.bound? o n = some v := by
      rcases hτ with ⟨rfl, rfl⟩ | ⟨rfl, ho⟩
      · exact ⟨hσ.step (.define o n v) hs, bound?_define_self hs n v⟩
      · rw [ho.unique howns]
        exact ⟨hσ.step (.assign s n v) hs, hwrote.bound?⟩
    have hρ := (hsince.built hwritten.1).isTree
    have hbound : ρ.bound? o n = some v := hsince.bound?_eq.trans hwritten.2
    refine ⟨(hρ.get?_of_nearest ht).trans hbound, ?_⟩
    rw [remove_of_owner? (hρ.owner?_eq_some_iff.2 ht)]
    exact hbound

/-- A function that was defined in a root and is assigned, from a child, to a name of that root: it is
stored there without a hold on the root, and read from the child with the root as its scope. -/
theorem assign_remove_nearest_function :
    let c : Closure := ⟨0, some "f", [], .null, 0⟩
    let σ := (Scopes.root.extend 0).2.define 0 "f" (.number 1)
    Built σ ∧ 1 < σ.size ∧ "f" ≠ Run.randomName ∧
      ((σ.assign 1 "f" (.function c)).stored 0).get? "f" = some (.weak c) ∧
      (σ.assign 1 "f" (.function c)).get? 1 "f" = some (.function c) := by
  intro c σ
  have hσ : Built σ := by
    have hroot : Built Scopes.root := Built.none.step .addRoot trivial
    have hchild : Built (Scopes.root.extend 0).2 := hroot.step (.extend 0) Nat.zero_lt_one
    exact hchild.step (.define 0 "f" (.number 1)) Nat.zero_lt_two
  have hs : 1 < σ.size := Nat.one_lt_two
  have hne : "f" ≠ Run.randomName := by decide
  obtain ⟨-, -, ⟨o, ho, hwrote⟩, -, hback⟩ := assign_remove_nearest hσ hs hne (.function c)
  have hnear : Nearest σ "f" 1 0 := .outer rfl rfl (.here nofun)
  obtain rfl : o = 0 := ho.unique (.inl hnear)
  have hafter : Nearest (σ.assign 1 "f" (.function c)) "f" 1 0 := by
    refine .outer (hwrote.same.bound? 1 "f" (by decide)) (hwrote.same.parent? 1) (.here ?_)
    rw [hwrote.bound?]
    exact nofun
  exact ⟨hσ, hs, hne, hwrote.stored, (hback _ 0 (.inr ⟨rfl, ho⟩) _ .refl 1 hafter).1⟩

end CommandLanguage.Scopes
