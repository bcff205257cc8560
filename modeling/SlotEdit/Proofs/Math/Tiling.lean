import SlotEdit.Proofs.Math.Writing
import SlotEdit.Proofs.Text.Offsets

/-!
# Proofs/Math/Tiling — tokens and blanks tile a text

Cutting a text into tokens goes on from one offset to the next, and stops at the end of the text or at the first place
where no rule takes a character (`tokenizeFrom_cases`).  What it has cut off by then is tiled by the tokens: each is
the longest lexeme of its kind at its place, and blanks stand between them.  A place where nothing can be cut off is
reached by one tiling at most (`Tiles.eq_of_isStuck`), so the tokens of a text and the place of a fault are determined
(`tokenize_tiles`).
-/

namespace SlotEdit

/-! ## Cutting a text -/

section

variable {rules : List TokenRule} {skip : List String} {s : List Char} {o n : Nat} {kind : String} {ts : List Token}

/-- What the rules take at an offset of a text. -/
def matchAt (rules : List TokenRule) (s : List Char) (o : Nat) : Option (String × Nat) :=
  firstMatch rules (s.take o).reverse (s.drop o)

/-- The token of a kind that stands on some characters of a text. -/
def Token.on (kind : String) (s : List Char) (start stop : Nat) : Token :=
  ⟨kind, String.ofList (sliceList s start stop), start, stop⟩

/-- **The tokens that are cut off** in front of an offset, by one match of the rules after another. -/
inductive Cuts (rules : List TokenRule) (skip : List String) (s : List Char) : Nat → List Token → Prop
  | start : Cuts rules skip s 0 []
  | skipped {o n : Nat} {kind : String} {ts : List Token} : Cuts rules skip s o ts →
      matchAt rules s o = some (kind, n) → kind ∈ skip → Cuts rules skip s (o + n) ts
  | kept {o n : Nat} {kind : String} {ts : List Token} : Cuts rules skip s o ts →
      matchAt rules s o = some (kind, n) → kind ∉ skip →
      Cuts rules skip s (o + n) (ts ++ [Token.on kind s o (o + n)])

/-- A match is not empty, and inside the text. -/
theorem matchAt_bounds (hrules : ∀ rule ∈ rules, rule.Fits) (h : matchAt rules s o = some (kind, n)) :
    0 < n ∧ o + n ≤ s.length := by
  obtain ⟨hpos, hle⟩ := firstMatch_le hrules h
  rw [List.length_drop] at hle
  omega

theorem Cuts.le_length (hrules : ∀ rule ∈ rules, rule.Fits) (h : Cuts rules skip s o ts) : o ≤ s.length := by
  cases h with
  | start => exact Nat.zero_le _
  | skipped _ hmatch _ => exact (matchAt_bounds hrules hmatch).2
  | kept _ hmatch _ => exact (matchAt_bounds hrules hmatch).2

/-- **Cutting goes on to the end of the text**, or to a place where no rule takes a character. -/
theorem tokenizeFrom_cases (hrules : ∀ rule ∈ rules, rule.Fits) (h : Cuts rules skip s o ts) :
    (∃ us, tokenizeFrom rules skip o (s.take o).reverse (s.drop o) = .ok (us ++ [Token.atEnd s.length]) ∧
      Cuts rules skip s s.length (ts ++ us)) ∨
    ∃ us c stop, tokenizeFrom rules skip o (s.take o).reverse (s.drop o) = .error ⟨c, stop⟩ ∧
      Cuts rules skip s stop (ts ++ us) ∧ s[stop]? = some c ∧ matchAt rules s stop = none := by
  generalize hbefore : (s.take o).reverse = before
  generalize hrest : s.drop o = rest
  induction o, before, rest using tokenizeFrom.induct rules generalizing ts with
  | case1 o before =>
    obtain rfl : o = s.length := Nat.le_antisymm (h.le_length hrules) (List.drop_eq_nil_iff.mp hrest)
    refine .inl ⟨[], ?_, (List.append_nil ts).symm ▸ h⟩
    rw [tokenizeFrom]
    rfl
  | case2 o before c tail hnone =>
    refine .inr ⟨[], c, o, ?_, (List.append_nil ts).symm ▸ h, ?_, ?_⟩
    · rw [tokenizeFrom, hnone]
    · rw [← List.head?_drop, hrest, List.head?_cons]
    · rw [matchAt, hbefore, hrest, hnone]
  | case3 o before c tail kind n hsome lexeme =>
    rename_i ih
    have hmatch : matchAt rules s o = some (kind, n) := by rw [matchAt, hbefore, hrest, hsome]
    obtain ⟨m, rfl⟩ := Nat.exists_eq_add_one.mpr (matchAt_bounds hrules hmatch).1
    have hlexeme : lexeme = sliceList s o (o + (m + 1)) := by
      rw [sliceList, hrest, Nat.add_sub_cancel_left]
      rfl
    have hbefore' : (s.take (o + (m + 1))).reverse = lexeme.reverse ++ before := by
      rw [hlexeme, ← hbefore, ← List.reverse_append, take_append_sliceList s (Nat.le_add_right _ _)]
    have hrest' : s.drop (o + (m + 1)) = tail.drop (m + 1 - 1) := by
      rw [← List.drop_drop, hrest]
      rfl
    rw [tokenizeFrom, hsome]
    dsimp only
    by_cases hskip : kind ∈ skip
    · rcases ih (h.skipped hmatch hskip) hbefore' hrest' with ⟨us, hmore, hcuts⟩ | ⟨us, c', stop, hmore, hcuts, hstuck⟩
      · refine .inl ⟨us, ?_, hcuts⟩
        rw [hmore]
        exact congrArg Except.ok (if_pos hskip)
      · refine .inr ⟨us, c', stop, ?_, hcuts, hstuck⟩
        rw [hmore]
        rfl
    · have hkept := h.kept hmatch hskip
      rcases ih hkept hbefore' hrest' with ⟨us, hmore, hcuts⟩ | ⟨us, c', stop, hmore, hcuts, hstuck⟩
      · refine .inl ⟨Token.on kind s o (o + (m + 1)) :: us, ?_, ?_⟩
        · rw [hmore, Token.on, ← hlexeme]
          exact congrArg Except.ok (if_neg hskip)
        · rwa [List.append_assoc] at hcuts
      · refine .inr ⟨Token.on kind s o (o + (m + 1)) :: us, c', stop, ?_, ?_, hstuck⟩
        · rw [hmore]
          rfl
        · rwa [List.append_assoc] at hcuts

end

namespace Math

/-! ## The rules take the longest lexemes -/

section

variable {s v : List Char} {kind : String}

theorem length_le_takeWhile {p : Char → Bool} (hv : ∀ c ∈ v, p c = true) (h : v <+: s) :
    v.length ≤ (s.takeWhile p).length := by
  obtain ⟨r, rfl⟩ := h
  rw [List.takeWhile_append_of_pos hv, List.length_append]
  exact Nat.le_add_right _ _

theorem length_le_significandLength (hv : Significand v) (h : v <+: s) : v.length ≤ significandLength s := by
  cases hv with
  | whole _ hd =>
    have hle := length_le_takeWhile hd h
    rw [significandLength]
    dsimp only
    split
    · split <;> omega
    · exact hle
  | @pointed d f hd hf hsome =>
    obtain ⟨r, rfl⟩ := h
    have hpoint : ∀ c ∈ ('.' :: (f ++ r)).head?, isDecimalDigit c = false := by
      rintro _ ⟨⟩
      decide
    have hle := length_le_takeWhile hf (List.prefix_append f r)
    rw [significandLength, List.append_assoc, List.cons_append, takeWhile_run hd hpoint, List.drop_left,
      List.length_append, List.length_cons]
    simp only [List.length_eq_zero_iff]
    rw [if_neg]
    · omega
    · rintro ⟨rfl, hnone⟩
      rw [hnone, List.length_nil, Nat.le_zero, List.length_eq_zero_iff] at hle
      exact hsome.elim (absurd rfl) (absurd hle)

theorem length_le_exponentLength (hv : Exponent v) (h : v <+: s) : v.length ≤ exponentLength s := by
  obtain ⟨r, rfl⟩ := h
  cases hv with
  | @mk letter sign d hletter hsign hne hd =>
    have hle := length_le_takeWhile hd (List.prefix_append d r)
    have hpos := List.length_pos_iff.mpr hne
    rw [List.cons_append, exponentLength, if_pos hletter, List.append_assoc]
    dsimp only
    rw [head?_sign_append hsign hne hd, List.drop_left, if_neg (by omega), List.length_cons, List.length_append]
    omega

theorem significandLength_le_numberLength (s : List Char) : significandLength s ≤ numberLength s := by
  rw [numberLength]
  split
  · next hzero => exact hzero.le
  · exact Nat.le_add_right _ _

/-- **The rule for numbers takes the longest one.** -/
theorem length_le_numberLength (hv : Number v) (h : v <+: s) : v.length ≤ numberLength s := by
  cases hv with
  | plain hm => exact (length_le_significandLength hm h).trans (significandLength_le_numberLength s)
  | @scaled m e hm he =>
    obtain ⟨r, rfl⟩ := h
    -- a significand does not go on with the letter of an exponent
    have hstart := Exponent.head? (.inr he) r fun hnil => absurd hnil he.ne_nil
    have hpos : 0 < m.length := by
      obtain ⟨c, t, rfl, -⟩ := hm.exists_cons
      exact Nat.zero_lt_succ _
    rw [numberLength, List.append_assoc, significandLength_append hm hstart]
    split
    · next hzero => omega
    · rw [List.drop_left, List.length_append]
      exact Nat.add_le_add_left (length_le_exponentLength he (List.prefix_append e r)) _

theorem not_number_of_start {c : Char} (h : (isAsciiLetter c || c == '_') = true) :
    isDecimalDigit c = false ∧ c ≠ '.' :=
  ⟨Bool.eq_false_iff.mpr fun hdigit => absurd h (Bool.eq_false_iff.mp
    (not_of_isDecimalDigit (p := fun c => isAsciiLetter c || c == '_') (by decide +kernel) hdigit)),
    fun hpoint => absurd h (hpoint ▸ by decide)⟩

/-- **The rule of its kind takes a lexeme**, or a longer one that starts with it. -/
theorem Lexeme.exists_firstMatch (hv : Lexeme kind v) (h : v <+: s) (before : List Char) :
    ∃ n, firstMatch tokenRules before s = some (kind, n) ∧ v.length ≤ n := by
  obtain ⟨r, rfl⟩ := h
  cases hv with
  | @number v hv =>
    have hle := length_le_numberLength hv (List.prefix_append v r)
    obtain ⟨c, t, rfl, hc⟩ := hv.exists_cons
    have hblank : isBlank c = false := hc.elim isBlank_eq_false_of_isDecimalDigit fun h => h ▸ by decide
    exact ⟨_, (firstMatch_cons_of_zero (length_blank_eq_zero hblank _) _).trans
      (firstMatch_cons_of_pos rfl ((Nat.zero_lt_succ _).trans_le hle) _), hle⟩
  | @identifier c v hstart hword =>
    have hc := isAsciiWord_of_start hstart
    have hnumber := not_number_of_start hstart
    have hle : (c :: v).length ≤ identifierLength (c :: v ++ r) := by
      rw [List.cons_append, identifierLength, if_pos hstart, List.length_cons, Nat.add_comm]
      exact Nat.add_le_add_left (length_le_takeWhile hword (List.prefix_append v r)) 1
    exact ⟨_, (firstMatch_cons_of_zero (length_blank_eq_zero (isBlank_eq_false_of_isAsciiWord hc) _) _).trans
      ((firstMatch_cons_of_zero (numberLength_eq_zero hnumber.1 hnumber.2 _) _).trans
        (firstMatch_cons_of_pos rfl ((Nat.zero_lt_succ _).trans_le hle) _)), hle⟩
  | operator hmark =>
    exact ⟨1, firstMatch_append (.operator hmark) (fun hword => absurd hword (by decide)) before, Nat.le_refl 1⟩
  | punctuation hmark =>
    exact ⟨1, firstMatch_append (.punctuation hmark) (fun hword => absurd hword (by decide)) before, Nat.le_refl 1⟩

end

/-! ## Tilings -/

/-- **Tokens that tile a text up to an offset.**  They are not empty, follow each other, and stand on their values;
each is a lexeme of its kind and the longest at its place, and all characters between them are blank. -/
structure Tiles (s : List Char) (stop : Nat) (ts : List Token) : Prop where
  le_length : stop ≤ s.length
  nonempty : ∀ t ∈ ts, t.start < t.stop
  inOrder : ts.Pairwise fun t u => t.stop ≤ u.start
  within : ∀ t ∈ ts, t.stop ≤ stop
  value : ∀ t ∈ ts, t.value.toList = sliceList s t.start t.stop
  lexeme : ∀ t ∈ ts, Lexeme t.kind t.value.toList
  longest : ∀ t ∈ ts, ∀ v, Lexeme t.kind v → v <+: s.drop t.start → t.start + v.length ≤ t.stop
  blank : ∀ o < stop, (∀ t ∈ ts, ¬(t.start ≤ o ∧ o < t.stop)) → ∃ c ∈ s[o]?, isBlank c = true

/-- **No pattern matches** at an offset of a text: no blank stands there and no lexeme starts there. -/
structure IsStuck (s : List Char) (o : Nat) : Prop where
  lt_length : o < s.length
  not_blank : ∀ c ∈ s[o]?, isBlank c = false
  not_lexeme : ∀ kind v, Lexeme kind v → ¬ v <+: s.drop o

section

variable {s : List Char} {o n : Nat} {kind : String} {ts : List Token}

/-- **Only blanks are skipped.** -/
theorem length_of_matchAt (h : matchAt tokenRules s o = some (kind, n)) (hskip : kind ∈ skippedKinds) :
    n = ((s.drop o).takeWhile isBlank).length := by
  rw [matchAt, tokenRules, firstMatch_cons] at h
  split at h
  · exact (Prod.mk.inj (Option.some.inj h)).2.symm
  · obtain ⟨rule, hrule, hmatch⟩ := List.exists_of_findSome?_eq_some h
    dsimp only at hmatch
    split at hmatch
    · obtain ⟨rfl, -⟩ := Prod.mk.inj (Option.some.inj hmatch)
      -- no other rule is of a kind that is skipped
      simp only [List.mem_cons, List.not_mem_nil, or_false] at hrule
      rcases hrule with rfl | rfl | rfl | rfl
      · exact absurd hskip (by decide)
      · exact absurd hskip (by decide)
      · exact absurd hskip (by decide)
      · exact absurd hskip (by decide)
    · cases hmatch

theorem blank_of_matchAt (h : matchAt tokenRules s o = some (kind, n)) (hskip : kind ∈ skippedKinds) {i : Nat}
    (hle : o ≤ i) (hlt : i < o + n) : ∃ c ∈ s[i]?, isBlank c = true := by
  obtain rfl := length_of_matchAt h hskip
  obtain ⟨j, rfl⟩ := Nat.exists_eq_add_of_le hle
  have hj := Nat.lt_of_add_lt_add_left hlt
  have hfront : ((s.drop o).takeWhile isBlank ++ (s.drop o).dropWhile isBlank)[j]? = some _ :=
    (List.getElem?_append_left hj).trans (List.getElem?_eq_getElem hj)
  rw [List.takeWhile_append_dropWhile, List.getElem?_drop] at hfront
  exact ⟨_, hfront, List.mem_takeWhile_imp (List.getElem_mem hj)⟩

/-- **What is kept is the longest lexeme** of its kind. -/
theorem longest_of_matchAt (h : matchAt tokenRules s o = some (kind, n)) {v : List Char} (hv : Lexeme kind v)
    (hfront : v <+: s.drop o) : v.length ≤ n := by
  obtain ⟨m, hm, hle⟩ := hv.exists_firstMatch hfront (s.take o).reverse
  obtain ⟨-, rfl⟩ := Prod.mk.inj (Option.some.inj (hm.symm.trans h))
  exact hle

/-- **The rules take nothing just where no pattern matches.** -/
theorem matchAt_eq_none_iff (ho : o < s.length) : matchAt tokenRules s o = none ↔ IsStuck s o := by
  constructor
  · refine fun h => ⟨ho, fun c hc => Bool.eq_false_iff.mpr fun hblank => ?_, fun kind v hv hfront => ?_⟩
    · have hpos : 0 < ((s.drop o).takeWhile isBlank).length := by
        rw [List.drop_eq_getElem_cons ho, (List.getElem_eq_iff ho).mpr hc, List.takeWhile_cons_of_pos hblank]
        exact Nat.zero_lt_succ _
      exact nomatch (firstMatch_cons_of_pos rfl hpos _).symm.trans h
    · obtain ⟨n, hn, -⟩ := hv.exists_firstMatch hfront (s.take o).reverse
      exact nomatch hn.symm.trans h
  · intro hstuck
    cases h : matchAt tokenRules s o with
    | none => rfl
    | some found =>
      obtain ⟨kind, n⟩ := found
      by_cases hskip : kind ∈ skippedKinds
      · have hpos := (matchAt_bounds fits_of_mem_tokenRules h).1
        obtain ⟨c, hc, hblank⟩ := blank_of_matchAt h hskip (Nat.le_refl o) (Nat.lt_add_of_pos_right hpos)
        exact absurd hblank (Bool.eq_false_iff.mp (hstuck.not_blank c hc))
      · exact absurd (List.take_prefix n _) (hstuck.not_lexeme kind _ (lexeme_of_firstMatch h hskip))

/-- Blanks behind the tokens. -/
theorem Tiles.widen (h : Tiles s o ts) {stop : Nat} (hle : o ≤ stop) (hlength : stop ≤ s.length)
    (hblank : ∀ i, o ≤ i → i < stop → ∃ c ∈ s[i]?, isBlank c = true) : Tiles s stop ts where
  le_length := hlength
  nonempty := h.nonempty
  inOrder := h.inOrder
  within t ht := (h.within t ht).trans hle
  value := h.value
  lexeme := h.lexeme
  longest := h.longest
  blank i hi houtside := (Nat.lt_or_ge i o).elim (fun hlt => h.blank i hlt houtside) fun hge => hblank i hge hi

/-- One more token. -/
theorem Tiles.concat (h : Tiles s o ts) {t : Token} (hstart : t.start = o) (hnonempty : t.start < t.stop)
    (hlength : t.stop ≤ s.length) (hvalue : t.value.toList = sliceList s t.start t.stop)
    (hlexeme : Lexeme t.kind t.value.toList)
    (hlongest : ∀ v, Lexeme t.kind v → v <+: s.drop t.start → t.start + v.length ≤ t.stop) :
    Tiles s t.stop (ts ++ [t]) where
  le_length := hlength
  nonempty := List.forall_mem_append.mpr ⟨h.nonempty, List.forall_mem_singleton.mpr hnonempty⟩
  inOrder := List.pairwise_append.mpr ⟨h.inOrder, List.pairwise_singleton _ t, fun u hu =>
    List.forall_mem_singleton.mpr (hstart.symm ▸ h.within u hu)⟩
  within := List.forall_mem_append.mpr ⟨fun u hu => (h.within u hu).trans (hstart ▸ hnonempty.le),
    List.forall_mem_singleton.mpr (Nat.le_refl _)⟩
  value := List.forall_mem_append.mpr ⟨h.value, List.forall_mem_singleton.mpr hvalue⟩
  lexeme := List.forall_mem_append.mpr ⟨h.lexeme, List.forall_mem_singleton.mpr hlexeme⟩
  longest := List.forall_mem_append.mpr ⟨h.longest, List.forall_mem_singleton.mpr hlongest⟩
  blank i hi houtside := by
    rw [List.forall_mem_append, List.forall_mem_singleton, hstart] at houtside
    exact h.blank i (Nat.lt_of_not_ge fun hge => houtside.2 ⟨hge, hi⟩) houtside.1

/-- **What is cut off is tiled.** -/
theorem tiles_of_cuts (h : Cuts tokenRules skippedKinds s o ts) : Tiles s o ts := by
  induction h with
  | start => exact ⟨Nat.zero_le _, nofun, .nil, nofun, nofun, nofun, nofun, nofun⟩
  | skipped _ hmatch hskip ih =>
    exact ih.widen (Nat.le_add_right _ _) (matchAt_bounds fits_of_mem_tokenRules hmatch).2 fun i =>
      blank_of_matchAt hmatch hskip
  | @kept o n kind ts _ hmatch hkept ih =>
    obtain ⟨hpos, hlength⟩ := matchAt_bounds fits_of_mem_tokenRules hmatch
    have hvalue : (Token.on kind s o (o + n)).value.toList = sliceList s o (o + n) := String.toList_ofList
    refine ih.concat (t := Token.on kind s o (o + n)) rfl (Nat.lt_add_of_pos_right hpos) hlength hvalue ?_
      fun v hv hfront => Nat.add_le_add_left (longest_of_matchAt hmatch hv hfront) o
    rw [hvalue, sliceList, Nat.add_sub_cancel_left]
    exact lexeme_of_firstMatch hmatch hkept

/-! ## One tiling reaches a place where no pattern matches -/

variable {stop : Nat} {us : List Token}

/-- No blank stands where a token starts. -/
theorem Tiles.not_blank_start (h : Tiles s stop us) {t : Token} (ht : t ∈ us) :
    ¬ ∃ c ∈ s[t.start]?, isBlank c = true := by
  rintro ⟨c, hc, hblank⟩
  obtain ⟨d, v, hcons, hd⟩ := (h.lexeme t ht).exists_cons
  have hhead := congrArg List.head? ((h.value t ht).symm.trans hcons)
  rw [sliceList, List.head?_take, if_neg (Nat.sub_ne_zero_of_lt (h.nonempty t ht)), List.head?_drop] at hhead
  obtain rfl := Option.some.inj (hc.symm.trans hhead)
  exact absurd hblank (Bool.eq_false_iff.mp hd)

/-- A place in front of the end that is not blank is inside a token. -/
theorem Tiles.exists_covers (h : Tiles s stop us) (ho : o < stop) (hblank : ¬ ∃ c ∈ s[o]?, isBlank c = true) :
    ∃ t ∈ us, t.start ≤ o ∧ o < t.stop := by
  by_contra hnone
  exact hblank (h.blank o ho fun t ht hcovers => hnone ⟨t, ht, hcovers⟩)

theorem Tiles.value_prefix (h : Tiles s stop us) {t : Token} (ht : t ∈ us) : t.value.toList <+: s.drop t.start :=
  h.value t ht ▸ List.take_prefix _ _

/-- **A token starts where a lexeme is cut off**, and is that lexeme. -/
theorem Tiles.eq_on (h : Tiles s stop us) {t : Token} (ht : t ∈ us)
    (hmatch : matchAt tokenRules s t.start = some (kind, n)) : t = Token.on kind s t.start (t.start + n) := by
  have hlexeme := h.lexeme t ht
  have hvalue := h.value t ht
  have hlength : (sliceList s t.start t.stop).length = t.stop - t.start :=
    length_sliceList s ((h.within t ht).trans h.le_length)
  have hbounds := matchAt_bounds fits_of_mem_tokenRules hmatch
  obtain ⟨m, hm, hle⟩ := hlexeme.exists_firstMatch (h.value_prefix ht) (s.take t.start).reverse
  obtain ⟨rfl, rfl⟩ := Prod.mk.inj (Option.some.inj (hm.symm.trans hmatch))
  have hlongest := h.longest t ht _ (lexeme_of_firstMatch hmatch hlexeme.kind_kept) (List.take_prefix _ _)
  rw [List.length_take, List.length_drop] at hlongest
  obtain hstop : t.start + m = t.stop := by
    rw [hvalue, hlength] at hle
    have hnonempty := h.nonempty t ht
    omega
  rw [Token.on, hstop, ← hvalue, String.ofList_toList]

/-- **Every tiling up to a place where no pattern matches** goes on behind all that is cut off. -/
theorem Tiles.exists_append (hus : Tiles s stop us) (hstuck : IsStuck s stop)
    (h : Cuts tokenRules skippedKinds s o ts) : o ≤ stop ∧ ∃ vs, us = ts ++ vs ∧ ∀ v ∈ vs, o ≤ v.start := by
  induction h with
  | start => exact ⟨Nat.zero_le _, us, rfl, fun _ _ => Nat.zero_le _⟩
  | @skipped o n kind ts hcuts hmatch hskip ih =>
    obtain ⟨hle, vs, rfl, hvs⟩ := ih
    refine ⟨Nat.le_of_not_lt fun hlt => ?_, vs, rfl, fun v hv => Nat.le_of_not_lt fun hlt => ?_⟩
    · obtain ⟨c, hc, hblank⟩ := blank_of_matchAt hmatch hskip hle hlt
      exact absurd hblank (Bool.eq_false_iff.mp (hstuck.not_blank c hc))
    · exact hus.not_blank_start (List.mem_append_right ts hv) (blank_of_matchAt hmatch hskip (hvs v hv) hlt)
  | @kept o n kind ts hcuts hmatch hkept ih =>
    obtain ⟨hle, vs, rfl, hvs⟩ := ih
    have hlt : o < stop := Nat.lt_of_le_of_ne hle fun heq => by
      subst heq
      exact nomatch ((matchAt_eq_none_iff hstuck.lt_length).mpr hstuck).symm.trans hmatch
    obtain ⟨t, ht, hstart, hstop⟩ := hus.exists_covers hlt
      ((tiles_of_cuts (hcuts.kept hmatch hkept)).not_blank_start (List.mem_append_right ts List.mem_cons_self))
    -- the token on that place is the one that is cut off: it is none of those in front
    replace ht : t ∈ vs := (List.mem_append.mp ht).resolve_left fun hmem =>
      absurd ((tiles_of_cuts hcuts).within t hmem) (Nat.not_le_of_lt hstop)
    obtain rfl : t.start = o := Nat.le_antisymm hstart (hvs t ht)
    have heq := hus.eq_on (List.mem_append_right ts ht) hmatch
    have hwithin := hus.within t (List.mem_append_right ts ht)
    obtain ⟨front, back, rfl⟩ := List.append_of_mem ht
    obtain ⟨-, hinOrder, -⟩ := List.pairwise_append.mp hus.inOrder
    obtain ⟨-, hback, hfront⟩ := List.pairwise_append.mp hinOrder
    -- nor does any of the others stand in front of it
    obtain rfl : front = [] := List.eq_nil_iff_forall_not_mem.mpr fun u hu => by
      have hstop := hfront u hu t List.mem_cons_self
      have hstart := hvs u (List.mem_append_left _ hu)
      have hnonempty := hus.nonempty u (List.mem_append_right ts (List.mem_append_left _ hu))
      omega
    have hend : t.start + n = t.stop := (congrArg Token.stop heq).symm
    refine ⟨hend ▸ hwithin, back, ?_, fun v hv => hend ▸ (List.pairwise_cons.mp hback).1 v hv⟩
    rw [← heq, List.append_assoc, List.nil_append, List.singleton_append]

/-- **One tiling at most reaches a place where no pattern matches**, and the rules cut it off. -/
theorem Tiles.eq_of_isStuck (hus : Tiles s stop us) (hstuck : IsStuck s stop) (h : Cuts tokenRules skippedKinds s o ts)
    (ho : matchAt tokenRules s o = none) : stop = o ∧ us = ts := by
  obtain ⟨hle, vs, rfl, hvs⟩ := hus.exists_append hstuck h
  obtain rfl : stop = o := by
    by_contra hne
    have hlt : o < stop := Nat.lt_of_le_of_ne hle (Ne.symm hne)
    have hstuck' : IsStuck s o := (matchAt_eq_none_iff (hlt.trans hstuck.lt_length)).mp ho
    obtain ⟨t, ht, hstart, hstop⟩ := hus.exists_covers hlt fun ⟨c, hc, hblank⟩ =>
      absurd hblank (Bool.eq_false_iff.mp (hstuck'.not_blank c hc))
    have hmem : t ∈ vs := (List.mem_append.mp ht).resolve_left fun hmem =>
      absurd ((tiles_of_cuts h).within t hmem) (Nat.not_le_of_lt hstop)
    obtain rfl : t.start = o := Nat.le_antisymm hstart (hvs t hmem)
    exact hstuck'.not_lexeme _ _ (hus.lexeme t ht) (hus.value_prefix ht)
  obtain rfl : vs = [] := List.eq_nil_iff_forall_not_mem.mpr fun v hv => by
    have hstart := hvs v hv
    have hnonempty := hus.nonempty v (List.mem_append_right ts hv)
    have hwithin := hus.within v (List.mem_append_right ts hv)
    omega
  exact ⟨rfl, List.append_nil ts⟩

end

/-- **The tokens of a text tile it**, with an end token behind them.  A text that is refused is tiled up to a place
where no pattern matches, and it is the only place of that kind that a tiling reaches. -/
theorem tokenize_tiles (text : String) :
    (∃ ts, tokenize tokenRules skippedKinds text = .ok (ts ++ [Token.atEnd text.length]) ∧
      Tiles text.toList text.length ts ∧ ∀ stop us, Tiles text.toList stop us → ¬ IsStuck text.toList stop) ∨
    ∃ ts fault, tokenize tokenRules skippedKinds text = .error fault ∧ Tiles text.toList fault.offset ts ∧
      IsStuck text.toList fault.offset ∧ text.toList[fault.offset]? = some fault.character ∧
      ∀ stop us, Tiles text.toList stop us → IsStuck text.toList stop → stop = fault.offset ∧ us = ts := by
  have hstart : Cuts tokenRules skippedKinds text.toList 0 [] := .start
  rcases tokenizeFrom_cases fits_of_mem_tokenRules hstart with
    ⟨ts, htokens, hcuts⟩ | ⟨ts, c, stop, herror, hcuts, hc, hnone⟩
  · rw [String.length_toList] at htokens hcuts
    refine .inl ⟨ts, htokens, tiles_of_cuts hcuts, fun stop us hus hstuck => ?_⟩
    have hle := (hus.exists_append hstuck hcuts).1
    have hlt := hstuck.lt_length
    rw [String.length_toList] at hlt
    omega
  · have hlt : stop < text.toList.length := (List.getElem?_eq_some_iff.mp hc).1
    exact .inr ⟨ts, ⟨c, stop⟩, herror, tiles_of_cuts hcuts, (matchAt_eq_none_iff hlt).mp hnone, hc,
      fun stop' us hus hstuck => hus.eq_of_isStuck hstuck hcuts hnone⟩

end Math

end SlotEdit
