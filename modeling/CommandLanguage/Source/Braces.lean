import CommandLanguage.Text.Blank

/-!
# Braces

Groups in braces and the words that hold them:

* `closing?` — where the brace that closes a group stands;
* `splitGroup?` — the body of a group and the text after it;
* `isParameterWord` — a word that is one `${…}`;
* `isBraceWord` — a word with a group that stands for several texts: a list with commas or a
  range with `..`.
-/

namespace CommandLanguage.Braces

/-- The number of characters before the brace that closes the innermost `depth` open groups. -/
def closing? (depth : Nat) : List Char → Option Nat
  | [] => none
  | c :: r =>
    if c == '\x7b' then (closing? (depth + 1) r).map (· + 1)
    else if c == '\x7d' then
      if depth ≤ 1 then some 0 else (closing? (depth - 1) r).map (· + 1)
    else (closing? depth r).map (· + 1)

/-- The index of the brace that matches the opening one at index `start`. -/
def matching? (s : List Char) (start : Nat) : Option Nat :=
  (closing? 1 (s.drop (start + 1))).map (start + 1 + ·)

/-- The body of a group and what follows it, given the text after the opening brace. -/
def splitGroup? (s : List Char) : Option (List Char × List Char) :=
  (closing? 1 s).map fun n => (s.take n, s.drop (n + 1))

theorem closing?_lt {depth : Nat} {s : List Char} {n : Nat} (h : closing? depth s = some n) :
    n < s.length := by
  induction s generalizing depth n with
  | nil => simp [closing?] at h
  | cons c r ih =>
    simp only [closing?] at h
    split at h
    · obtain ⟨m, hm, rfl⟩ := Option.map_eq_some_iff.1 h
      simpa using ih hm
    · split at h
      · split at h
        · cases h; simp
        · obtain ⟨m, hm, rfl⟩ := Option.map_eq_some_iff.1 h
          simpa using ih hm
      · obtain ⟨m, hm, rfl⟩ := Option.map_eq_some_iff.1 h
        simpa using ih hm

/-- The character found is a closing brace. -/
theorem getElem?_closing? {depth : Nat} {s : List Char} {n : Nat}
    (h : closing? depth s = some n) : s[n]? = some '\x7d' := by
  induction s generalizing depth n with
  | nil => simp [closing?] at h
  | cons c r ih =>
    simp only [closing?] at h
    split at h
    · obtain ⟨m, hm, rfl⟩ := Option.map_eq_some_iff.1 h
      simpa using ih hm
    · split at h
      · rename_i hc
        split at h
        · cases h
          simpa using hc
        · obtain ⟨m, hm, rfl⟩ := Option.map_eq_some_iff.1 h
          simpa using ih hm
      · obtain ⟨m, hm, rfl⟩ := Option.map_eq_some_iff.1 h
        simpa using ih hm

/-- A group, its closing brace and what follows make up the text. -/
theorem append_of_splitGroup? {s body rest : List Char} (h : splitGroup? s = some (body, rest)) :
    body ++ '\x7d' :: rest = s := by
  obtain ⟨n, hn, heq⟩ := Option.map_eq_some_iff.1 h
  obtain ⟨rfl, rfl⟩ := Prod.mk.inj heq
  obtain ⟨hlt, hc⟩ := List.getElem?_eq_some_iff.1 (getElem?_closing? hn)
  rw [← hc, List.getElem_cons_drop, List.take_append_drop]

/-- What follows a group is shorter than what follows its opening brace. -/
theorem length_of_splitGroup? {s body rest : List Char} (h : splitGroup? s = some (body, rest)) :
    body.length + rest.length < s.length := by
  obtain ⟨n, hn, heq⟩ := Option.map_eq_some_iff.1 h
  obtain ⟨rfl, rfl⟩ := Prod.mk.inj heq
  have := closing?_lt hn
  simp only [List.length_take, List.length_drop]
  omega

/-- Whether the text holds a `${…}` whose brace is closed. -/
def holdsParameter : List Char → Bool
  | [] => false
  | c :: r =>
    (match c, r with
      | '$', '\x7b' :: body => (closing? 1 body).isSome
      | _, _ => false) || holdsParameter r

/-- Whether the text is exactly one `${…}`. -/
def isParameterWord : List Char → Bool
  | '$' :: '\x7b' :: body => closing? 1 body == some (body.length - 1)
  | _ => false

/-- Whether the body of a group is a list or a range: a comma or two dots outside of inner
groups. -/
def isExpandable (depth : Nat) : List Char → Bool
  | [] => false
  | c :: r =>
    if c == '\x7b' then isExpandable (depth + 1) r
    else if c == '\x7d' then isExpandable (depth - 1) r
    else if depth == 0 && (c == ',' || (c == '.' && r.head? == some '.')) then true
    else isExpandable depth r

/-- Whether one of the outermost groups of a text is expandable. A group that is not closed ends
the search, and the groups of `${…}` do not count. `pass` characters lie in a group that was
found wanting, and `before` is the character before the text. -/
def holdsExpandable (pass : Nat) (before : Option Char) : List Char → Bool
  | [] => false
  | c :: r =>
    match pass with
    | n + 1 => holdsExpandable n (some c) r
    | 0 =>
      if c == '\x7b' then
        match closing? 1 r with
        | none => false
        | some n =>
          (before != some '$' && isExpandable 0 (r.take n)) || holdsExpandable (n + 1) (some c) r
      else holdsExpandable 0 (some c) r

/-- Whether a word stands for several texts: it has no blanks and an expandable group. -/
def isBraceWord (s : List Char) : Bool :=
  !s.isEmpty && !s.any Text.isBlank && holdsExpandable 0 none s

end CommandLanguage.Braces
