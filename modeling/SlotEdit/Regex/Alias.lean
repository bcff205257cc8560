import SlotEdit.Text.CharClass

/-!
# Regex/Alias — two spellings of named groups

A named group may be written `(?<name>…)` for `(?P<name>…)`, and a reference to it `\k<name>` for
`(?P=name)`.  `expandAliases` rewrites the short spellings from left to right; escaped characters
are passed over whole, and a look-behind is left as it is.
-/

namespace SlotEdit.Regex

/-- The word characters up to a closing angle bracket, and what follows it. -/
def bracketedName? (s : List Char) : Option (List Char × List Char) :=
  match s.takeWhile isWord, s.dropWhile isWord with
  | [], _ => none
  | name, '>' :: rest => some (name, rest)
  | _, _ => none

theorem length_lt_of_bracketedName? {s name rest : List Char}
    (h : bracketedName? s = some (name, rest)) : rest.length < s.length := by
  have hs := congrArg List.length (List.takeWhile_append_dropWhile (p := isWord) (l := s))
  rw [List.length_append] at hs
  unfold bracketedName? at h
  split at h
  · exact nomatch h
  · next hd _ =>
    obtain ⟨rfl, rfl⟩ := Prod.mk.inj (Option.some.inj h)
    rw [hd, List.length_cons] at hs
    omega
  · exact nomatch h

/-- **The long spelling of an expression.** -/
def expandAliases (s : List Char) : List Char :=
  match s with
  | [] => []
  | ['\\'] => ['\\']
  | '\\' :: c :: rest =>
    if c = 'k' then
      match rest with
      | '<' :: inner =>
        match h : bracketedName? inner with
        | some (name, after) =>
          have : after.length < inner.length := length_lt_of_bracketedName? h
          ['(', '?', 'P', '='] ++ name ++ ')' :: expandAliases after
        | none => '\\' :: 'k' :: '<' :: expandAliases inner
      | rest => '\\' :: 'k' :: expandAliases rest
    else '\\' :: c :: expandAliases rest
  | '(' :: '?' :: '<' :: rest =>
    if rest.head? = some '=' ∨ rest.head? = some '!' then
      '(' :: '?' :: '<' :: expandAliases rest
    else '(' :: '?' :: 'P' :: '<' :: expandAliases rest
  | c :: rest => c :: expandAliases rest
termination_by s.length
decreasing_by all_goals simp only [List.length_cons]; omega

end SlotEdit.Regex
