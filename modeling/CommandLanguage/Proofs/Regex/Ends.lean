import CommandLanguage.Proofs.Regex.Tour

/-!
# What expressions match, and in which order

The places where matches of an expression end are a list in order of preference. For some
expressions this order is simply that of the text: `Leads greedy text f P` says that from places in
order `f` leads to places in order, through exactly the texts that meet `P`. There is a rule for
characters, one for stars and one for sequences.

So the order in which each star makes its own choice comes down to one order of all places, the same
for all stars, and the first end of a match is the nearest or the farthest one. A search then begins
at the first place that has an end at all (`searches_matcher`).
-/

namespace CommandLanguage

open Engine (Before)

/-! ## Places of a text -/

namespace Place

variable (text : List Char)

/-- The place after the first `n` characters of a text. -/
def after (n : Nat) : Place := ⟨n, (text.take n).getLast?, text.drop n⟩

theorem offset_after (n : Nat) : (after text n).offset = n := rfl

/-- The place after one more character. -/
theorem advance?_after (ok : Char → Bool) (n : Nat) :
    (after text n).advance? ok = if text[n]?.any ok then some (after text (n + 1)) else none := by
  rcases Nat.lt_or_ge n text.length with hlt | hge
  · have hlast : (text.take (n + 1)).getLast? = some text[n] := by
      rw [List.take_add_one, List.getElem?_eq_getElem hlt, List.getLast?_append]
      rfl
    rw [after, List.drop_eq_getElem_cons hlt, advance?, List.getElem?_eq_getElem hlt, after, hlast]
    rfl
  · rw [after, List.drop_eq_nil_of_le hge, List.getElem?_eq_none hge]
    rfl

/-- The foremost of several places is what the characters ahead are counted from. So a star that
goes round as often as there are characters ahead has come to the end of the text from every one of
them. -/
theorem length_le_charactersAhead {ns : List Nat} {n : Nat} (hn : n ∈ ns) :
    text.length ≤ n + charactersAhead (ns.map (after text)) := by
  -- the place kept so far is not behind any of those passed
  have hkeep (ms : List Nat) (k : Nat) : ∃ l, (∀ m ∈ k :: ms, l ≤ m) ∧
      (ms.map (after text)).foldl (fun a b => if b.offset < a.offset then b else a)
        (after text k) = after text l := by
    induction ms generalizing k with
    | nil => exact ⟨k, by simp, rfl⟩
    | cons m ms ih =>
      rw [List.map_cons, List.foldl_cons, offset_after, offset_after]
      split
      · obtain ⟨l, hl, heq⟩ := ih m
        refine ⟨l, fun i hi => ?_, heq⟩
        rcases List.mem_cons.1 hi with rfl | hi
        · have := hl m List.mem_cons_self
          omega
        · exact hl i hi
      · obtain ⟨l, hl, heq⟩ := ih k
        refine ⟨l, fun i hi => ?_, heq⟩
        have := hl k List.mem_cons_self
        rcases List.mem_cons.1 hi with rfl | hi
        · exact this
        · rcases List.mem_cons.1 hi with rfl | hi
          · omega
          · exact hl i (List.mem_cons_of_mem k hi)
  cases ns with
  | nil => cases hn
  | cons k ms =>
    obtain ⟨l, hl, heq⟩ := hkeep ms k
    have := hl n hn
    rw [List.map_cons, charactersAhead, heq, after, List.length_drop]
    omega

end Place

namespace Regex

/-! ## Leading from places to others -/

/-- Places of a text in the order of preference, each of them once. Greedy stars prefer the places
further on, and the others the nearer ones. -/
structure Offsets (greedy : Bool) (text : List Char) (ns : List Nat) : Prop where
  ordered : ns.Pairwise (Before greedy)
  le_length {n : Nat} : n ∈ ns → n ≤ text.length

/-- From places in order, `f` leads to places in order, and these are the ones behind the texts that
meet `P`. Which of the places a match began at is forgotten, since it does not matter to what may
follow. -/
def Leads (greedy : Bool) (text : List Char) (f : List Place → List Place)
    (P : List Char → Prop) : Prop :=
  ∀ ns, Offsets greedy text ns → ∃ ms, Offsets greedy text ms ∧
    f (ns.map (Place.after text)) = ms.map (Place.after text) ∧
    ∀ m, m ∈ ms ↔ ∃ n ∈ ns, ∃ s, P s ∧ s <+: text.drop n ∧ m = n + s.length

section

variable {greedy : Bool} {text : List Char} {f g : List Place → List Place}
  {P Q : List Char → Prop}

theorem leads_id : Leads greedy text (fun ps => ps) (· = []) := by
  intro ns hns
  refine ⟨ns, hns, rfl, fun m => ?_⟩
  simp

theorem add_length_le {n : Nat} {s : List Char} (hn : n ≤ text.length)
    (hs : s <+: text.drop n) : n + s.length ≤ text.length := by
  have := hs.length_le
  rw [List.length_drop] at this
  omega

/-- One after the other. The second one starts from the places that the first one has led to, and
these are in order again. -/
theorem leads_comp (hf : Leads greedy text f P) (hg : Leads greedy text g Q) :
    Leads greedy text (fun ps => g (f ps)) fun u => ∃ s t, u = s ++ t ∧ P s ∧ Q t := by
  intro ns hns
  obtain ⟨ks, hks, hfeq, hmem⟩ := hf ns hns
  obtain ⟨ms, hms, hgeq, hmem'⟩ := hg ks hks
  refine ⟨ms, hms, (congrArg g hfeq).trans hgeq, fun m => ?_⟩
  have hsplit {n : Nat} {s t : List Char} (hs : s <+: text.drop n) :
      t <+: text.drop (n + s.length) ↔ s ++ t <+: text.drop n := by
    obtain ⟨r, hr⟩ := hs
    rw [← List.drop_drop, ← hr, List.drop_left, List.prefix_append_right_inj]
  rw [hmem']
  constructor
  · rintro ⟨k, hk, t, ht, hkt, rfl⟩
    obtain ⟨n, hn, s, hs, hns, rfl⟩ := (hmem k).1 hk
    exact ⟨n, hn, s ++ t, ⟨s, t, rfl, hs, ht⟩, (hsplit hns).1 hkt, by simp [Nat.add_assoc]⟩
  · rintro ⟨n, hn, _, ⟨s, t, rfl, hs, ht⟩, hnst, rfl⟩
    have hns : s <+: text.drop n := (List.prefix_append s t).trans hnst
    exact ⟨n + s.length, (hmem _).2 ⟨n, hn, s, hs, hns, rfl⟩, t, ht, (hsplit hns).2 hnst,
      by simp [Nat.add_assoc]⟩

theorem Leads.congr (h : Leads greedy text f P) (hf : ∀ ps, g ps = f ps)
    (hP : ∀ s, Q s ↔ P s) : Leads greedy text g Q := by
  intro ns hns
  obtain ⟨ms, hms, heq, hmem⟩ := h ns hns
  refine ⟨ms, hms, by rw [hf, heq], fun m => ?_⟩
  simp only [hmem, hP]

theorem singleton_prefix_drop {c : Char} {n : Nat} : [c] <+: text.drop n ↔ text[n]? = some c := by
  rw [← List.head?_drop]
  cases text.drop n <;> simp [eq_comm]

/-- One character. -/
theorem leads_advance (ok : Char → Bool) :
    Leads greedy text (fun ps => ps.filterMap (·.advance? ok)) fun s => ∃ c, ok c ∧ s = [c] := by
  intro ns hns
  -- the ends are those behind one character, at the places where it is of the kind
  have hmem (m : Nat) : m ∈ (ns.filter fun n => text[n]?.any ok).map (· + 1) ↔
      ∃ n ∈ ns, ∃ s, (∃ c, ok c ∧ s = [c]) ∧ s <+: text.drop n ∧ m = n + s.length := by
    rw [List.mem_map]
    constructor
    · rintro ⟨n, hn, rfl⟩
      obtain ⟨hn, hany⟩ := List.mem_filter.1 hn
      obtain ⟨c, hc, hok⟩ := (Option.any_eq_true _ _).1 hany
      exact ⟨n, hn, [c], ⟨c, hok, rfl⟩, singleton_prefix_drop.2 hc, rfl⟩
    · rintro ⟨n, hn, _, ⟨c, hok, rfl⟩, hc, rfl⟩
      refine ⟨n, List.mem_filter.2 ⟨hn, ?_⟩, rfl⟩
      rw [singleton_prefix_drop.1 hc]
      exact hok
  -- in order, none beyond the text, and found as the function finds them
  refine ⟨_, ⟨?_, ?_⟩, ?_, hmem⟩
  · refine List.pairwise_map.2 ((hns.ordered.filter _).imp fun {a b} h => ?_)
    cases greedy <;> simpa [Before] using h
  · intro m hm
    obtain ⟨n, hn, s, -, hs, rfl⟩ := (hmem m).1 hm
    exact add_length_le (hns.le_length hn) hs
  · dsimp only
    rw [List.filterMap_map, List.map_map, ← List.filterMap_eq_filter, List.map_filterMap]
    refine List.filterMap_congr fun n _ => ?_
    rw [Function.comp_apply, Place.advance?_after]
    cases h : text[n]?.any ok <;> simp [Option.guard, h]

/-- Iterations lead through texts of characters of one kind. -/
theorem reaches_iff {ok : Char → Bool} {n m : Nat} (hn : n ≤ text.length) :
    Reaches (fun k => text[k]?.any ok) n m ↔
      ∃ s, (∀ c ∈ s, ok c = true) ∧ s <+: text.drop n ∧ m = n + s.length := by
  constructor
  · intro h
    obtain ⟨i, rfl⟩ := Nat.exists_eq_add_of_le h.le
    have hlength : n + i ≤ text.length := by
      cases i with
      | zero => exact hn
      | succ i =>
        obtain ⟨c, hc, -⟩ := (Option.any_eq_true _ _).1 (h.goes (Nat.le_add_right n i) (by omega))
        exact (List.getElem?_eq_some_iff.1 hc).1
    -- what was passed on the way is the text between the two places
    refine ⟨(text.drop n).take i, fun c hc => ?_, List.take_prefix _ _, ?_⟩
    · obtain ⟨j, hj, hget⟩ := List.mem_take_iff_getElem.1 hc
      have hgoes := h.goes (Nat.le_add_right n j) (by omega)
      rw [List.getElem_drop] at hget
      rwa [List.getElem?_eq_getElem (by omega), hget] at hgoes
    · rw [List.length_take, List.length_drop]
      omega
  · rintro ⟨s, hs, ⟨r, hr⟩, rfl⟩
    refine ⟨Nat.le_add_right n _, fun {k} hk hk' => ?_⟩
    obtain ⟨j, rfl⟩ := Nat.exists_eq_add_of_le hk
    have hj : j < s.length := by omega
    rw [← List.getElem?_drop, ← hr, List.getElem?_append_left hj, List.getElem?_eq_getElem hj]
    exact hs _ (List.getElem_mem hj)

/-- A star: where its texts begin and end is no matter of which star came before. Of two places
that are both within what it can take, the one that comes first leads to all that the other one
leads to. -/
theorem leads_star (s : CharSet) :
    Leads greedy text (Regex.repetition 0 none greedy (.set s)).ends
      fun t => ∀ c ∈ t, s.contains c = true := by
  intro ns hns
  -- one more character of the set leads from each place to the next
  have hrow : Row (Place.after text) (fun p => (Regex.set s).ends [p])
      (fun n => text[n]?.any s.contains) := by
    refine ⟨Place.offset_after text, fun n => ?_⟩
    rw [ends, List.filterMap_cons, Place.advance?_after]
    cases text[n]?.any s.contains <;> rfl
  have hlimit : ∀ n, text[n]?.any s.contains = true → n < text.length := by
    intro n hn
    obtain ⟨c, hc, -⟩ := (Option.any_eq_true _ _).1 hn
    exact (List.getElem?_eq_some_iff.1 hc).1
  obtain ⟨ms, heq, hordered, hmem⟩ := endsUpTo_row hrow hlimit hns.ordered
    (fun n hn => hns.le_length hn) fun n hn => Place.length_le_charactersAhead text hn
  -- the places that can be reached are the ends of texts of such characters
  have hmem' (m : Nat) : m ∈ ms ↔
      ∃ n ∈ ns, ∃ t, (∀ c ∈ t, s.contains c = true) ∧ t <+: text.drop n ∧ m = n + t.length := by
    rw [hmem]
    exact exists_congr fun n => and_congr_right fun hn => reaches_iff (hns.le_length hn)
  refine ⟨ms, ⟨hordered, fun {m} hm => ?_⟩, heq, hmem'⟩
  obtain ⟨n, hn, t, -, ht, rfl⟩ := (hmem' m).1 hm
  exact add_length_le (hns.le_length hn) ht

/-- From nowhere nothing is reached. -/
theorem Leads.nil (h : Leads greedy text f P) : f [] = [] := by
  obtain ⟨ms, -, heq, hmem⟩ := h [] ⟨.nil, nofun⟩
  have hms : ms = [] := List.eq_nil_iff_forall_not_mem.2 fun m hm => by
    obtain ⟨n, hn, -⟩ := (hmem m).1 hm
    cases hn
  rw [hms] at heq
  exact heq

/-- What is reached from a single place, in order, with each place once. -/
theorem Leads.from_place (h : Leads greedy text f P) {n : Nat} (hn : n ≤ text.length) :
    ∃ ms : List Nat, ms.Pairwise (Before greedy) ∧
      f [.after text n] = ms.map (Place.after text) ∧
      ∀ m, m ∈ ms ↔ ∃ s, P s ∧ s <+: text.drop n ∧ m = n + s.length := by
  have hplace : Offsets greedy text [n] :=
    ⟨List.pairwise_singleton _ _, fun hm => by rwa [List.mem_singleton.1 hm]⟩
  obtain ⟨ms, hms, heq, hmem⟩ := h [n] hplace
  refine ⟨ms, hms.ordered, heq, fun m => ?_⟩
  simp [hmem]

end

theorem ends_ofSequence (rs : List Regex) (ps : List Place) :
    (ofSequence rs).ends ps = endsSequence rs ps := by
  match rs with
  | [] => rw [ofSequence, ends, endsSequence]
  | [r] => rw [ofSequence, endsSequence, endsSequence]
  | _ :: _ :: _ => rw [ofSequence, ends] <;> nofun

/-! ## Searching -/

section

variable {r : Regex} {found : List Char → Nat → List Nat} {text : List Char} {n : Nat}

/-- A search begins with what matches right there. -/
theorem findFrom?_cons (r : Regex) (n : Nat) (before? : Option Char) (c : Char) (s : List Char) :
    findFrom? r n before? (c :: s) =
      ((r.ends [⟨n, before?, c :: s⟩]).head?.map (⟨n, before?, c :: s⟩, ·)).or
        (findFrom? r (n + 1) (some c) s) := by
  rw [findFrom?]
  cases r.ends [⟨n, before?, c :: s⟩] <;> rfl

/-- The search from a place on is one place after the other. All that has to be known of the
expression are the first ends at each place. -/
theorem findFrom?_eq (h : ∀ n ≤ text.length,
      (r.ends [.after text n]).head? = (found text n).head?.map (.after text))
    (hn : n ≤ text.length) :
    findFrom? r n (text.take n).getLast? (text.drop n) =
      ((List.range' n (text.length + 1 - n)).findSome? fun m => (found text m).head?.map (m, ·)).map
        fun found => (.after text found.1, .after text found.2) := by
  obtain ⟨k, hk⟩ := Nat.exists_eq_add_of_le hn
  rw [show text.length + 1 - n = k + 1 by omega]
  induction k generalizing n with
  | zero =>
    -- at the end of the text there is one more place to try
    have hhead := h n hn
    have hrest : text.drop n = [] := List.drop_eq_nil_of_le (Nat.le_of_eq hk)
    have hplace : Place.after text n = ⟨n, (text.take n).getLast?, []⟩ := by rw [Place.after, hrest]
    rw [hplace] at hhead
    rw [List.range'_one, List.findSome?_singleton, hrest, findFrom?, hhead, ← hplace]
    cases (found text n).head? <;> rfl
  | succ k ih =>
    have hlt : n < text.length := by omega
    have hlast : (text.take (n + 1)).getLast? = some text[n] := by
      rw [List.take_add_one, List.getElem?_eq_getElem hlt, List.getLast?_append]
      rfl
    have hhead := h n hn
    have hrest := ih (n := n + 1) hlt (by omega)
    rw [hlast] at hrest
    -- a match here comes first, and otherwise the search goes on behind the next character
    rw [List.range'_succ, List.findSome?_cons, List.drop_eq_getElem_cons hlt, findFrom?_cons,
      ← List.drop_eq_getElem_cons hlt, hrest]
    rw [Place.after] at hhead
    rw [hhead]
    cases (found text n).head? <;> rfl

/-- An expression of which the first ends are known at all places finds the leftmost match, and of
those that begin there the first one. -/
theorem searches_matcher (h : ∀ text, ∀ n ≤ text.length,
      (r.ends [.after text n]).head? = (found text n).head?.map (.after text)) :
    r.matcher.Searches found := by
  have hfind (text : List Char) : r.find? (.start text) = (leftmost? found text).map
      fun found => (.after text found.1, .after text found.2) := by
    have hfrom := findFrom?_eq (h text) (Nat.zero_le text.length)
    rwa [Nat.sub_zero, ← List.range_eq_range'] at hfrom
  constructor
  · intro text
    rw [matcher]
    dsimp only
    rw [isMatch, hfind, Option.isSome_map]
  · intro replacement text
    rw [matcher]
    dsimp only
    rw [replaceFirst, hfind]
    cases leftmost? found text with
    | none => rfl
    | some m => simp [splice, Place.after, Place.start]

end

end Regex

end CommandLanguage
