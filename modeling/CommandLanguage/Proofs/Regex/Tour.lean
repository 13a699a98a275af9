import CommandLanguage.Proofs.Pattern.Engine
import CommandLanguage.Regex.Match
import Mathlib.Data.List.Perm.Subperm
import Mathlib.Tactic.Tauto

/-!
# Tours along a row of places

The tour of a repetition without bounds, when an iteration leads from a place to the next one or
nowhere. Each place that the tour starts from leads to a piece of the row, as far as the iterations
go on; what was visited before is left out. If the tour starts from places in ascending order and
stops before it goes on, or from places in descending order and goes on before it stops, then it
also finds places in this order, however the pieces overlap.

* `Walk` — what a tour adds from one place on;
* `Passes` — how far a tour comes with how much fuel;
* `tour_walk`, `tour_row` — a tour from one place, and from several ones;
* `endsUpTo_row` — the ends of the repetition: the fuel is enough.
-/

namespace CommandLanguage.Regex

open Engine (Before)

variable {place : Nat → Place} {iteration : Place → List Place} {goes : Nat → Bool} {greedy : Bool}

/-- Places by their offsets, of which iterations lead to the next one or to none. A star over a
single character is of this kind: it goes to the next place if the character there is one that it
takes. -/
structure Row (place : Nat → Place) (iteration : Place → List Place) (goes : Nat → Bool) : Prop where
  offset_place (n : Nat) : (place n).offset = n
  iteration_place (n : Nat) : iteration (place n) = if goes n then [place (n + 1)] else []

/-- Iterations lead from one place to another one. -/
structure Reaches (goes : Nat → Bool) (n m : Nat) : Prop where
  le : n ≤ m
  goes {k : Nat} : n ≤ k → k < m → goes k = true

/-- The places from `n` on that iterations lead to before they come to one that was seen. There is
one rule for each way to go on, so that a tour can be followed step by step. -/
inductive Walk (goes : Nat → Bool) (seen : Nat → Prop) : Nat → List Nat → Prop where
  /-- there is nothing new -/
  | seen {n : Nat} : seen n → Walk goes seen n []
  /-- there is no further iteration -/
  | last {n : Nat} : ¬ seen n → goes n = false → Walk goes seen n [n]
  /-- the walk goes on -/
  | next {n : Nat} {ms : List Nat} : ¬ seen n → goes n = true → Walk goes seen (n + 1) ms →
    Walk goes seen n (n :: ms)

/-! ## Walks

A star goes from a place to others by what it stands over, any number of times. The walk of its
choices is what the engine does; which places it can come to is what is asked here. -/

theorem Reaches.refl (n : Nat) : Reaches goes n n := ⟨Nat.le_refl n, fun h h' => by omega⟩

theorem Reaches.trans {n m l : Nat} (h : Reaches goes n m) (h' : Reaches goes m l) :
    Reaches goes n l :=
  ⟨Nat.le_trans h.le h'.le, fun {k} hk hk' =>
    (Nat.lt_or_ge k m).elim (h.goes hk) fun hm => h'.goes hm hk'⟩

/-- The places between two ends of a walk are on the walk. -/
theorem Reaches.between {n m k : Nat} (h : Reaches goes n m) (hn : n ≤ k) (hm : k ≤ m) :
    Reaches goes n k ∧ Reaches goes k m :=
  ⟨⟨hn, fun h₁ h₂ => h.goes h₁ (by omega)⟩, ⟨hm, fun h₁ h₂ => h.goes (by omega) h₂⟩⟩

namespace Walk

variable {seen : Nat → Prop}

/-- There is a walk from every place, as the row comes to an end. -/
theorem exists_of_bounded {limit : Nat} (hlimit : ∀ n, goes n = true → n < limit) (n : Nat) :
    ∃ ms, Walk goes seen n ms := by
  induction hrest : limit - n generalizing n with
  | zero =>
    by_cases hseen : seen n
    · exact ⟨[], .seen hseen⟩
    · refine ⟨[n], .last hseen ?_⟩
      cases hgoes : goes n with
      | false => rfl
      | true =>
        have := hlimit n hgoes
        omega
  | succ rest ih =>
    by_cases hseen : seen n
    · exact ⟨[], .seen hseen⟩
    · cases hgoes : goes n with
      | false => exact ⟨[n], .last hseen hgoes⟩
      | true =>
        obtain ⟨ms, hms⟩ := ih (n + 1) (by omega)
        exact ⟨n :: ms, .next hseen hgoes hms⟩

variable {n : Nat} {ms : List Nat}

/-- What is on a walk is reached, past nothing that was seen. So it is new, and it is a place that
the star can come to. -/
theorem reaches_of_mem (h : Walk goes seen n ms) {m : Nat} (hm : m ∈ ms) :
    Reaches goes n m ∧ ∀ k, n ≤ k → k ≤ m → ¬ seen k := by
  induction h with
  | seen _ => cases hm
  | last hseen _ =>
    obtain rfl := List.mem_singleton.1 hm
    exact ⟨.refl _, fun k h₁ h₂ => by rwa [Nat.le_antisymm h₂ h₁]⟩
  | next hseen hgoes _ ih =>
    rename_i n ms _
    have hfirst : ∀ k, n ≤ k → k < n + 1 → k = n := fun k h₁ h₂ => by omega
    rcases List.mem_cons.1 hm with rfl | hm
    · exact ⟨.refl _, fun k h₁ h₂ => by rwa [Nat.le_antisymm h₂ h₁]⟩
    · obtain ⟨hreach, hfree⟩ := ih hm
      have hstep : Reaches goes n (n + 1) :=
        ⟨Nat.le_succ n, fun {k} h₁ h₂ => by rw [hfirst k h₁ h₂]; exact hgoes⟩
      refine ⟨hstep.trans hreach, fun k h₁ h₂ => ?_⟩
      rcases Nat.lt_or_ge k (n + 1) with hk | hk
      · rwa [hfirst k h₁ hk]
      · exact hfree k hk h₂

/-- What can be reached is on the walk, or reached from something that was seen. So nothing is
missed by leaving out what was seen. -/
theorem mem_of_reaches (h : Walk goes seen n ms) {m : Nat} (hm : Reaches goes n m) :
    m ∈ ms ∨ ∃ k, seen k ∧ Reaches goes k m := by
  induction h with
  | seen hseen => exact .inr ⟨_, hseen, hm⟩
  | last hseen hgoes =>
    rename_i n
    refine .inl (List.mem_singleton.2 ?_)
    by_contra hne
    have hlt : n < m := Nat.lt_of_le_of_ne hm.le (Ne.symm hne)
    have := hm.goes (Nat.le_refl n) hlt
    rw [hgoes] at this
    cases this
  | next hseen hgoes _ ih =>
    rename_i n ms _
    rcases Nat.eq_or_lt_of_le hm.le with rfl | hlt
    · exact .inl List.mem_cons_self
    · exact (ih (hm.between (Nat.le_succ n) hlt).2).imp_left (List.mem_cons_of_mem n)

theorem ascending (h : Walk goes seen n ms) : ms.Pairwise (· < ·) := by
  induction h with
  | seen _ => exact .nil
  | last _ _ => exact List.pairwise_singleton _ _
  | next _ _ hwalk ih => exact List.pairwise_cons.2 ⟨fun m hm => (hwalk.reaches_of_mem hm).1.le, ih⟩

end Walk

/-! ## How far a tour comes -/

/-- The tour comes from some stages to others, and takes at most `most` stages from the list. That
number is counted because the tour is given fuel, and has to come to its end with it. -/
def Passes (iteration : Place → List Place) (greedy : Bool) (most : Nat) (stages : List Stage)
    (t : Tour) (stages' : List Stage) (t' : Tour) : Prop :=
  ∃ used, used ≤ most ∧
    ∀ fuel, tour iteration greedy (fuel + used) stages t = tour iteration greedy fuel stages' t'

/-- A tour with one more stage visited. -/
def Tour.visit (t : Tour) (more : Option Nat) (n : Nat) : Tour :=
  { t with visited := t.visited.insert (more, n) }

/-- A tour that has stopped at one more place. -/
def Tour.stop (t : Tour) (p : Place) : Tour :=
  { visited := t.visited.insert (some 0, p.offset), found := p :: t.found }

theorem Tour.contains_visit (t : Tour) (more more' : Option Nat) (n m : Nat) :
    (t.visit more n).visited.contains (more', m) = true ↔
      (more' = more ∧ m = n) ∨ t.visited.contains (more', m) = true := by
  rw [Tour.visit, Std.HashSet.contains_insert, Bool.or_eq_true, beq_iff_eq, Prod.mk.injEq,
    @eq_comm _ more, @eq_comm _ n]

theorem Tour.contains_stop (t : Tour) (p : Place) (more : Option Nat) (m : Nat) :
    (t.stop p).visited.contains (more, m) = true ↔
      (more = some 0 ∧ m = p.offset) ∨ t.visited.contains (more, m) = true := by
  rw [Tour.stop, Std.HashSet.contains_insert, Bool.or_eq_true, beq_iff_eq, Prod.mk.injEq,
    @eq_comm _ (some 0), @eq_comm _ p.offset]

namespace Passes

variable {t t' t'' : Tour} {s s' s'' : List Stage} {a b : Nat}

theorem trans (h : Passes iteration greedy a s t s' t')
    (h' : Passes iteration greedy b s' t' s'' t'') :
    Passes iteration greedy (a + b) s t s'' t'' := by
  obtain ⟨used, hused, heq⟩ := h
  obtain ⟨used', hused', heq'⟩ := h'
  refine ⟨used' + used, by omega, fun fuel => ?_⟩
  rw [← Nat.add_assoc, heq, heq']

theorem mono (h : Passes iteration greedy a s t s' t') (hab : a ≤ b) :
    Passes iteration greedy b s t s' t' := by
  obtain ⟨used, hused, heq⟩ := h
  exact ⟨used, Nat.le_trans hused hab, heq⟩

variable (hrow : Row place iteration goes) {n : Nat}

include hrow

/-- A stage that was visited is left out. -/
theorem visited {more : Option Nat} (h : t.visited.contains (more, n) = true) :
    Passes iteration greedy 1 ((more, place n) :: s) t s t := by
  rw [← hrow.offset_place n] at h
  exact ⟨1, Nat.le_refl 1, fun fuel => by rw [tour, if_pos h]⟩

/-- Where no iteration may follow, the tour stops. -/
theorem stop (h : ¬ t.visited.contains (some 0, n) = true) :
    Passes iteration greedy 1 ((some 0, place n) :: s) t s (t.stop (place n)) := by
  rw [← hrow.offset_place n] at h
  exact ⟨1, Nat.le_refl 1, fun fuel => by rw [tour, if_neg h]; rfl⟩

/-- Elsewhere the tour stops and goes on, in one order or the other. Which of the two comes first is
all that being greedy is about. -/
theorem go (h : ¬ t.visited.contains (none, n) = true) :
    Passes iteration greedy 1 ((none, place n) :: s) t
      (if greedy then (iteration (place n)).map (none, ·) ++ (some 0, place n) :: s
        else (some 0, place n) :: (iteration (place n)).map (none, ·) ++ s) (t.visit none n) := by
  have hplace := hrow.offset_place n
  refine ⟨1, Nat.le_refl 1, fun fuel => ?_⟩
  rw [tour, if_neg (by rwa [hplace])]
  simp only [hplace]
  rfl

/-- Where an iteration leads nowhere, all that is left is to stop. -/
theorem go_last (h : ¬ t.visited.contains (none, n) = true) (hgoes : goes n = false) :
    Passes iteration greedy 1 ((none, place n) :: s) t ((some 0, place n) :: s)
      (t.visit none n) := by
  have hgo : Passes iteration greedy _ _ _ _ _ := go hrow (s := s) h
  rw [hrow.iteration_place, hgoes] at hgo
  cases greedy <;> exact hgo

theorem go_greedy (h : ¬ t.visited.contains (none, n) = true) (hgoes : goes n = true) :
    Passes iteration true 1 ((none, place n) :: s) t
      ((none, place (n + 1)) :: (some 0, place n) :: s) (t.visit none n) := by
  have hgo : Passes iteration true _ _ _ _ _ := go hrow (s := s) h
  rw [hrow.iteration_place, hgoes] at hgo
  exact hgo

theorem go_reluctant (h : ¬ t.visited.contains (none, n) = true) (hgoes : goes n = true) :
    Passes iteration false 1 ((none, place n) :: s) t
      ((some 0, place n) :: (none, place (n + 1)) :: s) (t.visit none n) := by
  have hgo : Passes iteration false _ _ _ _ _ := go hrow (s := s) h
  rw [hrow.iteration_place, hgoes] at hgo
  exact hgo

end Passes

/-! ## A tour from one place -/

/-- What a tour has found and visited at some more places. A greedy tour finds them from the last
one back, the other one in their order, and the latest found stands first. -/
structure Adds (place : Nat → Place) (greedy : Bool) (ms : List Nat) (t t' : Tour) : Prop where
  found_eq : t'.found = (if greedy then ms else ms.reverse).map place ++ t.found
  contains_iff (more : Option Nat) (m : Nat) : t'.visited.contains (more, m) = true ↔
    ((more = none ∨ more = some 0) ∧ m ∈ ms) ∨ t.visited.contains (more, m) = true

/-- From `n` on, the tour has visited exactly the places that were seen. What was visited before `n`
is of no account, as a tour never turns back. -/
structure Saw (seen : Nat → Prop) (n : Nat) (t : Tour) : Prop where
  of_visited {more : Option Nat} {m : Nat} :
    n ≤ m → t.visited.contains (more, m) = true → seen m
  visited {m : Nat} : n ≤ m → seen m → t.visited.contains (none, m) = true

theorem Saw.not_visited {seen : Nat → Prop} {n : Nat} {t : Tour} (h : Saw seen n t)
    (hseen : ¬ seen n) (more : Option Nat) : ¬ t.visited.contains (more, n) = true :=
  fun hvisited => hseen (h.of_visited (Nat.le_refl n) hvisited)

/-- What is visited at a place makes no difference further on. -/
theorem Saw.next {seen : Nat → Prop} {n : Nat} {t : Tour} (h : Saw seen n t) :
    Saw seen (n + 1) (t.visit none n) where
  of_visited hm hvisited := by
    rcases (t.contains_visit _ _ _ _).1 hvisited with ⟨-, rfl⟩ | hvisited
    · omega
    · exact h.of_visited (by omega) hvisited
  visited hm hseen := (t.contains_visit _ _ _ _).2 (.inr (h.visited (by omega) hseen))

theorem Saw.stop {seen : Nat → Prop} {n : Nat} {t : Tour} (h : Saw seen (n + 1) t)
    (hplace : (place n).offset = n) : Saw seen (n + 1) (t.stop (place n)) where
  of_visited hm hvisited := by
    rcases (t.contains_stop _ _ _).1 hvisited with ⟨-, rfl⟩ | hvisited
    · omega
    · exact h.of_visited hm hvisited
  visited hm hseen := (t.contains_stop _ _ _).2 (.inr (h.visited hm hseen))

/-- To go on at a place is not to stop there. -/
theorem Tour.not_visited_visit {t : Tour} {n : Nat}
    (h : ¬ t.visited.contains (some 0, n) = true) :
    ¬ (t.visit none n).visited.contains (some 0, n) = true := by
  rw [Tour.contains_visit]
  simpa using h

/-- A tour that stops at a place before it goes on. What it finds further on comes behind that
place. -/
theorem Adds.cons_of_stop {n : Nat} {ms : List Nat} {t t' : Tour}
    (hplace : (place n).offset = n)
    (h : Adds place false ms ((t.visit none n).stop (place n)) t') :
    Adds place false (n :: ms) t t' where
  found_eq := by simp [h.found_eq, Tour.stop, Tour.visit]
  contains_iff more m := by
    rw [h.contains_iff, Tour.contains_stop, Tour.contains_visit, hplace, List.mem_cons]
    tauto

/-- A tour that stops at a place after it went on. What it finds further on comes before that
place. -/
theorem Adds.cons_stop {n : Nat} {ms : List Nat} {t t' : Tour} (hplace : (place n).offset = n)
    (h : Adds place true ms (t.visit none n) t') :
    Adds place true (n :: ms) t (t'.stop (place n)) where
  found_eq := by simp [h.found_eq, Tour.stop, Tour.visit]
  contains_iff more m := by
    rw [Tour.contains_stop, h.contains_iff, Tour.contains_visit, hplace, List.mem_cons]
    tauto

theorem Adds.nil (t : Tour) : Adds place greedy [] t t := ⟨by simp, by simp⟩

/-- The tour from a place follows the walk from there, by induction on the walk. At each place it
takes two stages from the list, one to go on and one to stop. -/
theorem tour_walk (hrow : Row place iteration goes) {seen : Nat → Prop} {n : Nat} {ms : List Nat}
    (hwalk : Walk goes seen n ms) {t : Tour} (hsaw : Saw seen n t) (s : List Stage) :
    ∃ t', Adds place greedy ms t t' ∧
      Passes iteration greedy (1 + 2 * ms.length) ((none, place n) :: s) t s t' := by
  induction hwalk generalizing t s with
  | seen hseen => exact ⟨t, .nil t, .visited hrow (hsaw.visited (Nat.le_refl _) hseen)⟩
  | last hseen hgoes =>
    rename_i n
    -- nothing was visited here: the tour goes on, finds that it cannot, and stops
    have hplace := hrow.offset_place n
    have hfresh := hsaw.not_visited hseen
    refine ⟨_, ?_, ((Passes.go_last hrow (hfresh _) hgoes).trans
      (.stop hrow (t.not_visited_visit (hfresh _)))).mono (by simp)⟩
    cases greedy with
    | false => exact .cons_of_stop hplace (.nil _)
    | true => exact .cons_stop hplace (.nil _)
  | next hseen hgoes hwalk ih =>
    rename_i n ms
    have hplace := hrow.offset_place n
    have hfresh := hsaw.not_visited hseen
    cases greedy with
    | false =>
      -- it stops first, and what it finds further on comes behind
      have hgo := (Passes.go_reluctant hrow (s := s) (hfresh _) hgoes).trans
        (.stop hrow (t.not_visited_visit (hfresh _)))
      obtain ⟨t', hadds, hpasses⟩ := ih (hsaw.next.stop hplace) s
      refine ⟨t', .cons_of_stop hplace hadds, (hgo.trans hpasses).mono ?_⟩
      rw [List.length_cons]
      omega
    | true =>
      -- it goes on first, and the stage at which it stops waits in the list meanwhile
      have hgo := Passes.go_greedy hrow (s := s) (hfresh _) hgoes
      obtain ⟨t', hadds, hpasses⟩ := ih hsaw.next ((some 0, place n) :: s)
      -- nothing that was found further on is this place
      have hstop : ¬ t'.visited.contains (some 0, n) = true := by
        rw [hadds.contains_iff]
        rintro (⟨-, hmem⟩ | hvisited)
        · exact absurd (hwalk.reaches_of_mem hmem).1.le (by omega)
        · exact t.not_visited_visit (hfresh _) hvisited
      refine ⟨_, .cons_stop hplace hadds, ((hgo.trans hpasses).trans (.stop hrow hstop)).mono ?_⟩
      rw [List.length_cons]
      omega

/-! ## A tour from several places

The places that were come to from an earlier one are not gone to again. So to start from several
places is to start from them one after the other, and to leave out what was passed before. -/

/-- What a tour from the places `ns` has come to: it has found `fs`, the latest of them first. The
order is the point: it is the same for all that was found, whichever place it was found from. -/
structure Covers (place : Nat → Place) (goes : Nat → Bool) (greedy : Bool) (ns fs : List Nat)
    (t : Tour) : Prop where
  found_eq : t.found = fs.map place
  contains_iff (more : Option Nat) (m : Nat) : t.visited.contains (more, m) = true ↔
    (more = none ∨ more = some 0) ∧ m ∈ fs
  mem_iff (m : Nat) : m ∈ fs ↔ ∃ n ∈ ns, Reaches goes n m
  ordered : fs.Pairwise fun n m => Before greedy m n

theorem Covers.nil : Covers place goes greedy [] [] {} where
  found_eq := rfl
  contains_iff _ _ := by simp
  mem_iff _ := by simp
  ordered := .nil

namespace Covers

variable {ns fs ms : List Nat} {n : Nat} {t t' : Tour}

theorem saw (h : Covers place goes greedy ns fs t) : Saw (· ∈ fs) n t where
  of_visited _ hvisited := ((h.contains_iff _ _).1 hvisited).2
  visited _ hseen := (h.contains_iff _ _).2 ⟨.inl rfl, hseen⟩

/-- What is found from a later place comes after all that was found before. Reluctant tours start
from ascending places, and a later walk that is not cut short is further on; greedy ones start from
descending places, and a later walk ends where the earlier one began at the latest. -/
theorem before_of_mem (h : Covers place goes greedy ns fs t) (hns : ∀ m ∈ ns, Before greedy m n)
    (hwalk : Walk goes (· ∈ fs) n ms) {m f : Nat} (hm : m ∈ ms) (hf : f ∈ fs) :
    Before greedy f m := by
  obtain ⟨hreach, hfree⟩ := hwalk.reaches_of_mem hm
  obtain ⟨n', hn', hreach'⟩ := (h.mem_iff f).1 hf
  have hbefore := hns n' hn'
  have hle := hreach.le
  have hle' := hreach'.le
  cases greedy with
  | false =>
    -- if it were found from the earlier place too, the walk would not have come so far
    simp only [Before, Bool.false_eq_true, if_false] at hbefore ⊢
    by_contra hlt
    have hseen : m ∈ fs := (h.mem_iff m).2 ⟨n', hn', (hreach'.between (by omega) (by omega)).1⟩
    exact hfree m hle (Nat.le_refl m) hseen
  | true =>
    -- the walk would have ended at what was found
    simp only [Before, if_true] at hbefore ⊢
    by_contra hlt
    exact hfree f (by omega) (by omega) hf

/-- One more place to start from. -/
theorem snoc (h : Covers place goes greedy ns fs t) (hns : ∀ m ∈ ns, Before greedy m n)
    (hwalk : Walk goes (· ∈ fs) n ms) (hadds : Adds place greedy ms t t') :
    Covers place goes greedy (ns ++ [n]) ((if greedy then ms else ms.reverse) ++ fs) t' where
  found_eq := by rw [hadds.found_eq, h.found_eq, List.map_append]
  contains_iff more m := by
    rw [hadds.contains_iff, h.contains_iff, ← and_or_left, List.mem_append]
    cases greedy <;> simp
  mem_iff m := by
    have hmem : m ∈ (if greedy then ms else ms.reverse) ++ fs ↔ m ∈ ms ∨ m ∈ fs := by
      cases greedy <;> simp
    rw [hmem]
    constructor
    · rintro (hm | hm)
      · exact ⟨n, by simp, (hwalk.reaches_of_mem hm).1⟩
      · obtain ⟨n', hn', hreach⟩ := (h.mem_iff m).1 hm
        exact ⟨n', by simp [hn'], hreach⟩
    · rintro ⟨n', hn', hreach⟩
      rcases List.mem_append.1 hn' with hn' | hn'
      · exact .inr ((h.mem_iff m).2 ⟨n', hn', hreach⟩)
      · rw [List.mem_singleton.1 hn'] at hreach
        -- the walk finds it, or was cut short at a place from which it was found before
        refine (hwalk.mem_of_reaches hreach).imp_right fun ⟨k, hk, hkm⟩ => ?_
        obtain ⟨n', hn', hreach'⟩ := (h.mem_iff k).1 hk
        exact (h.mem_iff m).2 ⟨n', hn', hreach'.trans hkm⟩
  ordered := by
    refine List.pairwise_append.2 ⟨?_, h.ordered, fun m hm f hf => ?_⟩
    · cases greedy with
      | false =>
        rw [if_neg Bool.false_ne_true, List.pairwise_reverse]
        exact hwalk.ascending
      | true =>
        rw [if_pos rfl]
        exact hwalk.ascending
    · refine h.before_of_mem hns hwalk ?_ hf
      cases greedy <;> simpa using hm

end Covers

variable {limit : Nat}

/-- The tour from several places finds all that they lead to, by induction on the places that it has
still to start from. The fuel that is used is counted by what is found. -/
theorem tour_row (hrow : Row place iteration goes) (hlimit : ∀ n, goes n = true → n < limit)
    {done fs : List Nat} (todo : List Nat) {t : Tour}
    (hordered : (done ++ todo).Pairwise (Before greedy))
    (hcovers : Covers place goes greedy done fs t) :
    ∃ fs' t', Covers place goes greedy (done ++ todo) fs' t' ∧ fs.length ≤ fs'.length ∧
      Passes iteration greedy (todo.length + 2 * (fs'.length - fs.length))
        (todo.map fun n => (none, place n)) t [] t' := by
  induction todo generalizing done fs t with
  | nil =>
    refine ⟨fs, t, by rwa [List.append_nil], Nat.le_refl _, 0, Nat.zero_le _, fun _ => rfl⟩
  | cons n todo ih =>
    -- a walk from the next place, up to what was found before
    obtain ⟨ms, hwalk⟩ : ∃ ms, Walk goes (· ∈ fs) n ms := Walk.exists_of_bounded hlimit n
    obtain ⟨t₁, hadds, hpasses⟩ : ∃ t₁, Adds place greedy ms t t₁ ∧ _ :=
      tour_walk hrow hwalk hcovers.saw (todo.map fun n => (none, place n))
    rw [List.append_cons] at hordered
    have hns : ∀ m ∈ done, Before greedy m n := fun m hm =>
      (List.pairwise_append.1 (List.pairwise_append.1 hordered).1).2.2 m hm n
        List.mem_cons_self
    obtain ⟨fs', t', hcovers', hle, hpasses'⟩ := ih hordered (hcovers.snoc hns hwalk hadds)
    have hlength : ((if greedy then ms else ms.reverse) ++ fs).length = ms.length + fs.length := by
      cases greedy <;> simp
    rw [hlength] at hle hpasses'
    refine ⟨fs', t', by rwa [List.append_cons], by omega, (hpasses.trans hpasses').mono ?_⟩
    rw [List.length_cons]
    omega

/-- A tour does not find more places than there are ahead, as it finds none of them twice. -/
theorem Covers.length_le {ns fs : List Nat} {t : Tour} (h : Covers place goes greedy ns fs t)
    (hlimit : ∀ n, goes n = true → n < limit) (hns : ∀ n ∈ ns, n ≤ limit) {ahead : Nat}
    (hahead : ∀ n ∈ ns, limit ≤ n + ahead) : fs.length ≤ ahead + 1 := by
  have hnodup : fs.Nodup := h.ordered.imp fun {n m} hbefore => by
    cases greedy <;> simp only [Before, if_true, Bool.false_eq_true, if_false] at hbefore <;> omega
  have hsubset : fs ⊆ List.range' (limit - ahead) (ahead + 1) := by
    intro m hm
    obtain ⟨n, hn, hreach⟩ := (h.mem_iff m).1 hm
    have hlow := hahead n hn
    have hle := hreach.le
    have hhigh : m ≤ limit := by
      rcases Nat.eq_or_lt_of_le hle with rfl | hlt
      · exact hns n hn
      · have := hlimit (m - 1) (hreach.goes (by omega) (by omega))
        omega
    exact List.mem_range'_1.2 ⟨by omega, by omega⟩
  have hlength := (List.subperm_of_subset hnodup hsubset).length_le
  rwa [List.length_range'] at hlength

/-- The ends of a repetition without bounds, from several places of a row: all that can be reached
from any of them, in order, each of them once. The fuel that the repetition is given is enough. -/
theorem endsUpTo_row (hrow : Row place iteration goes) (hlimit : ∀ n, goes n = true → n < limit)
    {ns : List Nat} (hordered : ns.Pairwise (Before greedy)) (hns : ∀ n ∈ ns, n ≤ limit)
    (hahead : ∀ n ∈ ns, limit ≤ n + Place.charactersAhead (ns.map place)) :
    ∃ ms : List Nat, endsUpTo iteration greedy none (ns.map place) = ms.map place ∧
      ms.Pairwise (Before greedy) ∧ ∀ m, m ∈ ms ↔ ∃ n ∈ ns, Reaches goes n m := by
  have hstart : ([] ++ ns).Pairwise (Before greedy) := hordered
  obtain ⟨fs, t, hcovers, -, used, hused, htour⟩ := tour_row hrow hlimit ns hstart .nil
  rw [List.nil_append] at hcovers
  have hlength := hcovers.length_le hlimit hns hahead
  refine ⟨fs.reverse, ?_, List.pairwise_reverse.2 hcovers.ordered, fun m => ?_⟩
  · -- each place is visited once, and leads to two more stages
    obtain ⟨left, hleft⟩ : ∃ left, ns.length +
        Nat.pow (Place.charactersAhead (ns.map place) + 2) 3 = left + used := by
      have hcube : 2 * (Place.charactersAhead (ns.map place) + 1) ≤
          Nat.pow (Place.charactersAhead (ns.map place) + 2) 3 := by
        generalize Place.charactersAhead (ns.map place) = ahead
        calc 2 * (ahead + 1) ≤ 2 ^ 2 * (ahead + 2) := by omega
          _ ≤ (ahead + 2) ^ 2 * (ahead + 2) :=
            Nat.mul_le_mul_right _ (Nat.pow_le_pow_left (by omega) 2)
          _ = (ahead + 2) ^ 3 := (Nat.pow_succ ..).symm
      rw [List.length_nil] at hused
      exact ⟨_, (Nat.sub_add_cancel (by omega)).symm⟩
    have hfound : tour iteration greedy left [] t = t := by cases left <;> rfl
    simp only [endsUpTo, List.length_map, List.map_map, Option.map_none]
    rw [hleft]
    rw [List.map_reverse, ← hcovers.found_eq]
    exact congrArg (fun t : Tour => t.found.reverse) ((htour left).trans hfound)
  · rw [List.mem_reverse]
    exact hcovers.mem_iff m

end CommandLanguage.Regex
