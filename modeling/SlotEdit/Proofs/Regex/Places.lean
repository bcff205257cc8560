import Mathlib.Data.List.TakeWhile
import SlotEdit.Proofs.Decimal.Digits
import SlotEdit.Proofs.Regex.Lockstep
import SlotEdit.Proofs.Regex.Spellings

/-!
# Proofs/Regex/Places — expressions that are read alike, place by place

For two expressions that differ in their comments only (`Alike`) the readers of names, switches, sets and
comments keep up with each other: each ends in a place where what is left is read alike again.
-/

namespace SlotEdit.Regex

variable {s t s' t' : Reading} {p : Place} {groups : List Bool} {g : Glyph} {gs hs : List Glyph}

/-! ## What is next -/

namespace Place

/-- A place where pieces are read and none is passed over. -/
def IsRead (p : Place) : Prop := ∀ g, p.passes g = false

theorem next_outside {c : Char} (hset : c ≠ '[') (hopen : c ≠ '(') (hclose : c ≠ ')')
    (hline : c = '#' → groups.headD false = false) : Place.outside.next groups (.plain c) gs = (.outside, groups) := by
  by_cases hc : c = '#'
  · subst hc
    rw [next, if_neg (Bool.eq_false_iff.mp (hline rfl))]
  · rw [next] <;> simpa

theorem next_set {free : Nat} (hg : free = 0 → g ≠ .plain ']') :
    (Place.set free).next groups g gs = (.set (free - 1), groups) := by
  rw [next]
  exact fun h hfree => hg hfree h

end Place

theorem ne_of_isOrdinary {c d : Char} (hc : isOrdinary c = true) (hd : isOrdinary d = false) : c ≠ d :=
  fun h => Bool.false_ne_true (hd.symm.trans (h ▸ hc))

theorem Place.ne_lone_of_passes (h : p.passes g = true) : g ≠ .loneBackslash := by
  rintro rfl
  unfold passes at h
  split at h <;> exact nomatch h

namespace Alike

/-- **A piece that is read** stands in both expressions, unless the first one is invalid from here on. -/
theorem cons_inv (h : Alike p groups (g :: gs) hs) (hp : p.IsRead) : p.refuses (g :: gs) ∨
    ∃ hs', hs = g :: hs' ∧ Alike (p.next groups g gs).1 (p.next groups g gs).2 gs hs' := by
  cases h with
  | same h => exact .inr ⟨_, rfl, h⟩
  | inserted hg h => exact nomatch (hp _).symm.trans hg
  | removed hg _ h => exact nomatch (hp _).symm.trans hg
  | refused h hh => exact .inl h

theorem nil_inv (h : Alike p groups [] hs) (hp : p.IsRead) : hs = [] := by
  cases h with
  | nil => rfl
  | inserted hg h => exact nomatch (hp _).symm.trans hg
  | refused h hh => rcases h with ⟨-, h⟩ | ⟨-, h⟩ <;> exact nomatch h

theorem head?_of_ne (h : Alike p groups gs (g :: hs)) (hp : p.IsRead) (hg : g ≠ .plain '(') : gs.head? = some g := by
  cases h with
  | same h => rfl
  | inserted hg h => exact nomatch (hp _).symm.trans hg
  | removed hg _ h => exact nomatch (hp _).symm.trans hg
  | refused h hh => exact absurd (Option.some.inj hh) hg

theorem lone (h : Alike p groups gs hs) (hh : hs.head? = some .loneBackslash) : gs.head? = some .loneBackslash := by
  cases h with
  | nil => exact nomatch hh
  | same h => exact hh
  | inserted hg h => exact absurd (Option.some.inj hh) (Place.ne_lone_of_passes hg)
  | removed _ hlone _ => exact absurd hh hlone
  | refused _ hpar => exact nomatch hh.symm.trans hpar

end Alike

theorem Place.not_refuses {c : Char} (hc : c ≠ '(') : ¬p.refuses (.plain c :: gs) := by
  rintro (⟨-, h⟩ | ⟨-, h⟩)
  · unfold startsShortGroup at h
    split at h
    · next heq => exact hc (Glyph.plain.inj (List.cons.inj heq).1)
    · exact nomatch h
  · exact nomatch h

/-- **Readings of expressions that are read alike** from a place on, under fixed switches. -/
def readAlike (fl : Flags) (p : Place) (groups : List Bool) : Pairing := fun fl' gs hs => fl' = fl ∧ Alike p groups gs hs

variable {fl : Flags} {k l : Nat}

/-- A character that is no opening parenthesis leads on to the next place. -/
theorem shifts_readAlike {c : Char} {q : Place} {groups' : List Bool} (hp : p.IsRead) (hc : c ≠ '(')
    (hnext : ∀ gs, p.next groups (.plain c) gs = (q, groups')) :
    Shifts c (readAlike fl p groups) (readAlike fl q groups') where
  same h := by
    obtain ⟨hs', rfl, h'⟩ := (h.2.cons_inv hp).resolve_left (Place.not_refuses hc)
    rw [hnext] at h'
    exact ⟨hs', rfl, h.1, h'⟩
  lone h := h.2.lone

theorem isRead_of_steady (hp : p = .outside ∨ p = .set 0) : p.IsRead := by
  rcases hp with rfl | rfl <;> exact fun g => rfl

theorem steady_readAlike (hp : p = .outside ∨ p = .set 0) : Steady (readAlike fl p groups) where
  shifts {c} hc := by
    have hne : ∀ d, isOrdinary d = false → c ≠ d := fun d hd => ne_of_isOrdinary hc hd
    refine shifts_readAlike (isRead_of_steady hp) (hne _ rfl) fun gs => ?_
    rcases hp with rfl | rfl
    · exact Place.next_outside (hne _ rfl) (hne _ rfl) (hne _ rfl) fun h => absurd h (hne _ rfl)
    · exact Place.next_set fun _ h => hne _ rfl (Glyph.plain.inj h)
  back hc h := by
    exact h.2.head?_of_ne (isRead_of_steady hp) fun h => ne_of_isOrdinary hc rfl (Glyph.plain.inj h)

/-- What is left is read alike, inside groups that are open. -/
abbrev inGroups (fl : Flags) (groups : List Bool) (k l : Nat) : Pairing := (readAlike fl .outside groups).within k l

/-- What is left is read alike, inside a set. -/
abbrev inSet (fl : Flags) (free : Nat) (groups : List Bool) (k l : Nat) : Pairing :=
  (readAlike fl (.set free) groups).within k l

theorem steady_inGroups : Steady (inGroups fl groups k l) := (steady_readAlike (.inl rfl)).within k l

theorem steady_inSet : Steady (inSet fl 0 groups k l) := (steady_readAlike (.inr rfl)).within k l

theorem shifts_inGroups {v : Bool} : Shifts ')' (inGroups fl (v :: groups) k l) (inGroups fl groups k l) :=
  (shifts_readAlike (fun _ => rfl) (by decide) fun _ => rfl).within k l

theorem shifts_inSet : Shifts '^' (inSet fl 2 groups k l) (inSet fl 1 groups k l) :=
  (shifts_readAlike (fun _ => rfl) (by decide) fun _ => rfl).within k l

/-! ## Names -/

/-- The characters of an identifier, and none that could open or close anything. -/
theorem isOrdinary_of_isIdentifier {n : List Char} (h : isIdentifier n = true) :
    ∀ c ∈ n, isOrdinary c = true ∧ c ≠ '?' := by
  cases n with
  | nil => exact fun c hc => nomatch hc
  | cons d n =>
    obtain ⟨hd, hn⟩ := Bool.and_eq_true_iff.mp h
    refine List.forall_mem_cons.mpr ⟨⟨isOrdinary_of (by decide) hd, ?_⟩, fun c hc => ?_⟩
    · rintro rfl
      exact absurd hd (by decide)
    · have hc := List.all_eq_true.mp hn c hc
      exact ⟨isOrdinary_of (by decide) hc, fun h => by subst h; exact absurd hc (by decide)⟩

/-- The characters of an integer. -/
theorem isOrdinary_of_readInt {n : String} {i : Int} (h : readInt n = .ok i) :
    ∀ c ∈ n.toList, isOrdinary c = true ∧ c ≠ '?' := by
  intro c hc
  have hchar : (isBlank c || c == '-' || c == '+' || c == '_' || isDecimalDigit c) = true := by
    rcases mem_of_readInt h hc with h | rfl | rfl | rfl | h
    · rw [h]; rfl
    · decide
    · decide
    · decide
    · rw [h, Bool.or_true]
  refine ⟨isOrdinary_of (p := fun c => isBlank c || c == '-' || c == '+' || c == '_' || isDecimalDigit c) (by decide) hchar, ?_⟩
  rintro rfl
  exact absurd hchar (by decide)

/-! ## Switches -/

theorem refuseFlag_ne_ok {α : Type} {missing : Cause} {found : Option Glyph} {r : α × Reading} :
    refuseFlag missing found s ≠ .ok r := by
  unfold refuseFlag
  split <;> exact refuse_ne_ok

section

variable {A B : Pairing} (hA : Steady A)

include hA

/-- **Switches that are turned on** end with a parenthesis, a minus or a colon. -/
theorem agree_flagsOn (hAB : Shifts ')' A B) {turns turns' : Nat} (letter : Char) (on : Flags) (h : Twin A s t)
    (hs : s.glyphs.length < turns) (ht : t.glyphs.length < turns') :
    Agree (fun r => if r.2 = ')' then B else A) (flagsOn turns letter on) (flagsOn turns' letter on) s t := by
  induction turns generalizing s t turns' letter on with
  | zero => exact absurd hs (Nat.not_lt_zero _)
  | succ turns ih =>
    obtain ⟨k, rfl⟩ : ∃ k, turns' = k + 1 := ⟨turns' - 1, by omega⟩
    unfold flagsOn
    cases flagOf? letter with
    | none => exact .of_ne fun r => refuse_ne_ok
    | some flag =>
    dsimp only
    split
    · exact .of_ne fun r => refuse_ne_ok
    refine agree_take_bind h (fun c => isOrdinary c || c == ')') (fun c => if c = ')' then B else A) (fun c hc => ?_)
      (fun c s' t' hc h hs' ht' => ?_) fun x hx s' r => ?_
    · split
      · next hclose => exact hclose ▸ hAB
      · next hclose =>
        exact hA.shifts ((Bool.or_eq_true_iff.mp hc).resolve_right fun h => hclose (beq_iff_eq.mp h))
    · dsimp only
      split
      · exact .pure h
      · next hends =>
        rw [if_neg fun hclose => hends (.inl hclose)] at h
        split
        · exact ih c _ h (by omega) (by omega)
        · exact .of_ne fun r => refuseFlag_ne_ok
    · split
      · next c =>
        have hbad := hx c rfl
        split
        · next hends => rcases hends with rfl | rfl | rfl <;> exact nomatch hbad
        · split
          · next hletter =>
            rw [isOrdinary_of (by decide) hletter] at hbad
            exact nomatch hbad
          · exact refuseFlag_ne_ok
      · exact refuseFlag_ne_ok

/-- **Switches that are turned off** end with a colon. -/
theorem agree_flagsOff {turns turns' : Nat} (letter : Char) (off : Flags) (h : Twin A s t)
    (hs : s.glyphs.length < turns) (ht : t.glyphs.length < turns') :
    Agree (fun _ => A) (flagsOff turns letter off) (flagsOff turns' letter off) s t := by
  induction turns generalizing s t turns' letter off with
  | zero => exact absurd hs (Nat.not_lt_zero _)
  | succ turns ih =>
    obtain ⟨k, rfl⟩ : ∃ k, turns' = k + 1 := ⟨turns' - 1, by omega⟩
    unfold flagsOff
    cases flagOf? letter with
    | none => exact .of_ne fun r => refuse_ne_ok
    | some flag =>
    dsimp only
    split
    · exact .of_ne fun r => refuse_ne_ok
    refine agree_take_bind h isOrdinary (fun _ => A) (fun c hc => hA.shifts hc) (fun c s' t' hc h hs' ht' => ?_)
      fun x hx s' r => ?_
    · dsimp only
      split
      · exact .pure h
      · split
        · exact ih c _ h (by omega) (by omega)
        · exact .of_ne fun r => refuseFlag_ne_ok
    · split
      · next c =>
        have hbad := hx c rfl
        split
        · next hends =>
          subst hends
          exact nomatch hbad
        · split
          · next hletter => exact nomatch hbad.symm.trans (isOrdinary_of (by decide) hletter)
          · exact refuseFlag_ne_ok
      · exact refuseFlag_ne_ok

theorem agree_flagsRemoved (h : Twin A s t) : Agree (fun _ => A) flagsRemoved flagsRemoved s t := by
  refine agree_take_bind h isOrdinary (fun _ => A) (fun c hc => hA.shifts hc) (fun c s' t' hc h hs' ht' => ?_)
    fun x hx s' r => ?_
  · dsimp only
    split
    · refine .get_bind (agree_flagsOff hA c [] h ?_ ?_)
      · rw [s'.length_glyphs]
        exact Nat.lt_succ_self _
      · rw [t'.length_glyphs]
        exact Nat.lt_succ_self _
    · exact .of_ne fun r => refuseFlag_ne_ok
  · split
    · next c =>
      split
      · next hletter => exact nomatch (hx c rfl).symm.trans (isOrdinary_of (by decide) hletter)
      · exact refuseFlag_ne_ok
    · exact refuseFlag_ne_ok

end

/-! ### What the switches say -/

theorem eq_verbose_iff {c : Char} {flag : Flag} (h : flagOf? c = some flag) : flag = .verbose ↔ c = 'x' := by
  unfold flagOf? at h
  split at h <;> cases h <;> decide

theorem isFlagLetter_of_flagOf? {c : Char} {flag : Flag} (h : flagOf? c = some flag) : isFlagLetter c = true := by
  rw [isFlagLetter, h]
  exact Bool.or_true _

theorem verbose_mem_iff {c : Char} {flag : Flag} {cs : List Char} {added : Flags} (h : flagOf? c = some flag)
    (hcs : Flag.verbose ∈ added ↔ 'x' ∈ cs) : Flag.verbose ∈ flag :: added ↔ 'x' ∈ c :: cs := by
  rw [List.mem_cons, List.mem_cons, hcs, eq_comm, eq_verbose_iff h, eq_comm]

/-- Switches that are turned on are written one letter each. -/
theorem flagsOn_eq_ok {turns : Nat} {letter : Char} {on : Flags} {r : Flags × Char}
    (h : flagsOn turns letter on s = .ok (r, s')) :
    ∃ (cs : List Char) (added : Flags), s.glyphs = cs.map .plain ++ .plain r.2 :: s'.glyphs ∧ r.1 = on ++ added ∧
      (∀ c ∈ letter :: cs, isFlagLetter c = true) ∧ (r.2 = ')' ∨ r.2 = '-' ∨ r.2 = ':') ∧
      (Flag.verbose ∈ added ↔ 'x' ∈ letter :: cs) := by
  induction turns generalizing s letter on with
  | zero => exact absurd h refuse_ne_ok
  | succ turns ih =>
    unfold flagsOn at h
    cases hflag : flagOf? letter with
    | none =>
      rw [hflag] at h
      exact absurd h refuse_ne_ok
    | some flag =>
    rw [hflag] at h
    dsimp only at h
    split at h
    · exact absurd h refuse_ne_ok
    obtain ⟨x, s₁, htake, h⟩ := bind_eq_ok.mp h
    have hletter := isFlagLetter_of_flagOf? hflag
    split at h
    · next c =>
      split at h
      · next hends =>
        obtain ⟨rfl, rfl⟩ := Prod.mk.inj (Except.ok.inj h)
        exact ⟨[], [flag], glyphs_of_take htake, rfl, List.forall_mem_singleton.mpr hletter, hends,
          verbose_mem_iff hflag (iff_of_false (fun h => nomatch h) fun h => nomatch h)⟩
      · split at h
        · obtain ⟨cs, added, hcs, hon, hall, hends, hverbose⟩ := ih h
          refine ⟨c :: cs, flag :: added, ?_, ?_, List.forall_mem_cons.mpr ⟨hletter, hall⟩, hends, verbose_mem_iff hflag hverbose⟩
          · rw [glyphs_of_take htake, hcs]
            rfl
          · rw [hon, List.append_assoc]
            rfl
        · exact absurd h refuseFlag_ne_ok
    · exact absurd h refuseFlag_ne_ok

/-- Switches that are turned off are written one letter each. -/
theorem flagsOff_eq_ok {turns : Nat} {letter : Char} {off off' : Flags}
    (h : flagsOff turns letter off s = .ok (off', s')) :
    ∃ (cs : List Char) (removed : Flags), s.glyphs = cs.map .plain ++ .plain ':' :: s'.glyphs ∧ off' = off ++ removed ∧
      (∀ c ∈ letter :: cs, isFlagLetter c = true) ∧ (Flag.verbose ∈ removed ↔ 'x' ∈ letter :: cs) := by
  induction turns generalizing s letter off with
  | zero => exact absurd h refuse_ne_ok
  | succ turns ih =>
    unfold flagsOff at h
    cases hflag : flagOf? letter with
    | none =>
      rw [hflag] at h
      exact absurd h refuse_ne_ok
    | some flag =>
    rw [hflag] at h
    dsimp only at h
    split at h
    · exact absurd h refuse_ne_ok
    obtain ⟨x, s₁, htake, h⟩ := bind_eq_ok.mp h
    have hletter := isFlagLetter_of_flagOf? hflag
    split at h
    · next c =>
      split at h
      · next hends =>
        obtain ⟨rfl, rfl⟩ := Prod.mk.inj (Except.ok.inj h)
        exact ⟨[], [flag], hends ▸ glyphs_of_take htake, rfl, List.forall_mem_singleton.mpr hletter,
          verbose_mem_iff hflag (iff_of_false (fun h => nomatch h) fun h => nomatch h)⟩
      · split at h
        · obtain ⟨cs, removed, hcs, hoff, hall, hverbose⟩ := ih h
          refine ⟨c :: cs, flag :: removed, ?_, ?_, List.forall_mem_cons.mpr ⟨hletter, hall⟩, verbose_mem_iff hflag hverbose⟩
          · rw [glyphs_of_take htake, hcs]
            rfl
          · rw [hoff, List.append_assoc]
            rfl
        · exact absurd h refuseFlag_ne_ok
    · exact absurd h refuseFlag_ne_ok

theorem flagsRemoved_eq_ok {removed : Flags} (h : flagsRemoved s = .ok (removed, s')) :
    ∃ cs : List Char, s.glyphs = cs.map .plain ++ .plain ':' :: s'.glyphs ∧ (∀ c ∈ cs, isFlagLetter c = true) ∧
      (Flag.verbose ∈ removed ↔ 'x' ∈ cs) := by
  obtain ⟨x, s₁, htake, h⟩ := bind_eq_ok.mp h
  split at h
  · next c =>
    split at h
    · obtain ⟨cs, removed', hcs, rfl, hall, hverbose⟩ := flagsOff_eq_ok h
      refine ⟨c :: cs, ?_, hall, hverbose⟩
      rw [glyphs_of_take htake, hcs]
      rfl
    · exact absurd h refuseFlag_ne_ok
  · exact absurd h refuseFlag_ne_ok

/-- What switches in front of a parenthesis, a minus or a colon turn on. -/
theorem takeWhile_isFlagLetter {cs : List Char} {stop : Char} (hcs : ∀ c ∈ cs, isFlagLetter c = true)
    (hstop : isFlagLetter stop = false) (gs : List Glyph) :
    (cs.map Glyph.plain ++ .plain stop :: gs).takeWhile (Glyph.isPlain isFlagLetter) = cs.map .plain ∧
      (cs.map Glyph.plain ++ .plain stop :: gs).dropWhile (Glyph.isPlain isFlagLetter) = .plain stop :: gs := by
  have hall : ∀ g ∈ cs.map Glyph.plain, g.isPlain isFlagLetter = true := List.forall_mem_map.mpr hcs
  have hne : ¬Glyph.isPlain isFlagLetter (.plain stop) = true := Bool.eq_false_iff.mp hstop
  rw [List.takeWhile_append_of_pos hall, List.dropWhile_append_of_pos hall, List.takeWhile_cons_of_neg hne,
    List.dropWhile_cons_of_neg hne, List.append_nil]
  exact ⟨rfl, rfl⟩

/-- What is left behind switches, given whether blanks and comments are passed over inside the group and
behind it as the switches say. -/
def behindSwitches (fl : Flags) (verbose : Bool) (switches : Bool × Bool) (groups : List Bool) (k l : Nat) :
    InlineFlags → Pairing
  | .everywhere => fun fl' gs hs =>
    (∃ added, fl' = fl ++ added ∧ switches = (verbose, verbose || added.contains .verbose)) ∧
      inGroups fl' (switches.2 :: groups) k l fl' gs hs
  | .inGroup added removed => fun fl' gs hs =>
    switches = ((verbose || added.contains .verbose) && !removed.contains .verbose, verbose) ∧
      inGroups fl (switches.1 :: switches.2 :: groups) k l fl' gs hs

theorem contains_map_plain (cs : List Char) : (cs.map Glyph.plain).contains (.plain 'x') = cs.contains 'x' := by
  rw [Bool.eq_iff_iff, List.contains_iff_mem, List.contains_iff_mem, List.mem_map]
  exact ⟨fun ⟨c, hc, h⟩ => Glyph.plain.inj h ▸ hc, fun h => ⟨_, h, rfl⟩⟩

section

variable (cs : List Char) (hcs : ∀ c ∈ cs, isFlagLetter c = true) (verbose : Bool) (gs : List Glyph)

include hcs

/-- What the switches in front of a parenthesis say. -/
theorem verboseFrom_close : verboseFrom verbose (.plain '?' :: (cs.map .plain ++ .plain ')' :: gs))
    = (verbose, verbose || cs.contains 'x') := by
  have hsplit := takeWhile_isFlagLetter hcs (show isFlagLetter ')' = false from rfl) gs
  rw [verboseFrom, hsplit.1, hsplit.2, contains_map_plain]
  rfl

/-- What the switches in front of a colon say. -/
theorem verboseFrom_colon : verboseFrom verbose (.plain '?' :: (cs.map .plain ++ .plain ':' :: gs))
    = (verbose || cs.contains 'x', verbose) := by
  have hsplit := takeWhile_isFlagLetter hcs (show isFlagLetter ':' = false from rfl) gs
  rw [verboseFrom, hsplit.1, hsplit.2, contains_map_plain]
  rfl

/-- What the switches around a minus say. -/
theorem verboseFrom_minus {ds : List Char} (hds : ∀ c ∈ ds, isFlagLetter c = true) :
    verboseFrom verbose (.plain '?' :: (cs.map .plain ++ .plain '-' :: (ds.map .plain ++ .plain ':' :: gs)))
      = ((verbose || cs.contains 'x') && !ds.contains 'x', verbose) := by
  have hsplit := takeWhile_isFlagLetter hcs (show isFlagLetter '-' = false from rfl) (ds.map .plain ++ .plain ':' :: gs)
  rw [verboseFrom, hsplit.1, hsplit.2, contains_map_plain]
  change ((verbose || cs.contains 'x') &&
    !((ds.map Glyph.plain ++ .plain ':' :: gs).takeWhile (Glyph.isPlain isFlagLetter)).contains (.plain 'x'), verbose) = _
  rw [(takeWhile_isFlagLetter hds (show isFlagLetter ':' = false from rfl) gs).1, contains_map_plain]

end

theorem contains_verbose {cs : List Char} {on : Flags} (h : Flag.verbose ∈ on ↔ 'x' ∈ cs) : on.contains .verbose = cs.contains 'x' := by
  rw [Bool.eq_iff_iff, List.contains_iff_mem, List.contains_iff_mem, h]

theorem agree_inlineFlagsBefore (cs : List Char) {added : Flags} {stop : Char} {verbose : Bool} {switches : Bool × Bool}
    (hcs : ∀ c ∈ cs, isFlagLetter c = true) (hstop : stop = ')' ∨ stop = '-' ∨ stop = ':')
    (hadded : Flag.verbose ∈ added ↔ 'x' ∈ cs)
    (hswitches : switches = verboseFrom verbose (.plain '?' :: (cs.map .plain ++ .plain stop :: s.glyphs)))
    (h : Twin (if stop = ')' then inGroups fl (switches.2 :: groups) k l
      else inGroups fl (switches.1 :: switches.2 :: groups) k l) s t) :
    Agree (behindSwitches fl verbose switches groups k l) (inlineFlagsBefore added stop) (inlineFlagsBefore added stop) s t := by
  have hadded := contains_verbose hadded
  unfold inlineFlagsBefore
  have hgroup : ∀ (removed : Flags) {s t : Reading},
      switches = ((verbose || added.contains .verbose) && !removed.contains .verbose, verbose) →
      Twin (inGroups fl (switches.1 :: switches.2 :: groups) k l) s t →
      Agree (behindSwitches fl verbose switches groups k l)
        (if removed.any Flag.isGlobal then refuse .globalFlagOff 1
          else if added.any removed.contains then refuse .flagOnAndOff 1 else pure (.inGroup added removed))
        (if removed.any Flag.isGlobal then refuse .globalFlagOff 1
          else if added.any removed.contains then refuse .flagOnAndOff 1 else pure (.inGroup added removed)) s t := by
    intro removed s t hswitches h
    split
    · exact .of_ne fun r => refuse_ne_ok
    split
    · exact .of_ne fun r => refuse_ne_ok
    · exact .pure (h.mono fun h => ⟨hswitches, h⟩)
  rcases hstop with rfl | rfl | rfl
  · rw [verboseFrom_close _ hcs, ← hadded] at hswitches
    refine .modify_bind (.pure ⟨?_, h.names, h.widths, h.lookBehindGroups, h.references, ?_⟩)
    · exact congrArg (· ++ added) h.flags
    · obtain ⟨⟨hfl, halike⟩, hk, hl⟩ := h.glyphs
      exact ⟨⟨added, congrArg (· ++ added) hfl, hswitches⟩, ⟨rfl, halike⟩, hk, hl⟩
  · rw [if_neg (by decide)]
    split
    · exact .of_ne fun r => refuse_ne_ok
    refine .bind_of_eq (agree_flagsRemoved steady_inGroups h) fun removed s' t' hs' _ h => ?_
    obtain ⟨ds, hglyphs, hds, hremoved⟩ := flagsRemoved_eq_ok hs'
    rw [hglyphs, verboseFrom_minus _ hcs _ _ hds, ← hadded, ← contains_verbose hremoved] at hswitches
    exact hgroup removed hswitches h
  · rw [if_neg (by decide)]
    split
    · exact .of_ne fun r => refuse_ne_ok
    rw [verboseFrom_colon _ hcs, ← hadded] at hswitches
    refine hgroup [] ?_ h
    rw [hswitches, List.contains_nil, Bool.not_false, Bool.and_true]

/-- **Switches in an expression** end where what is left is read alike again. -/
theorem agree_inlineFlags {c : Char} {verbose : Bool} {switches : Bool × Bool}
    (hswitches : switches = verboseFrom verbose (.plain '?' :: .plain c :: s.glyphs))
    (h : Twin (inGroups fl (switches.1 :: switches.2 :: groups) k l) s t) :
    Agree (behindSwitches fl verbose switches groups k l) (inlineFlags c) (inlineFlags c) s t := by
  unfold inlineFlags
  split
  · next hminus =>
    subst hminus
    exact agree_inlineFlagsBefore [] (fun c hc => nomatch hc) (.inr (.inl rfl)) (iff_of_false (fun h => nomatch h) fun h => nomatch h)
      hswitches h
  · refine .get_bind (.bind_of_eq (agree_flagsOn steady_inGroups shifts_inGroups c [] h ?_ ?_) fun r s' t' hs' _ h => ?_)
    · rw [s.length_glyphs]
      exact Nat.lt_succ_self _
    · rw [t.length_glyphs]
      exact Nat.lt_succ_self _
    · obtain ⟨cs, added, hglyphs, hadded, hcs, hstop, hverbose⟩ := flagsOn_eq_ok hs'
      obtain ⟨on, stop⟩ := r
      rw [List.nil_append] at hadded
      subst hadded
      refine agree_inlineFlagsBefore (c :: cs) hcs hstop hverbose ?_ h
      rw [hswitches, hglyphs]
      rfl

/-! ## Character sets -/

theorem member_ne_ok [Interpreter] {r : Member × Reading} : member (.escaped 'k') s ≠ .ok r := fun h => nomatch h

/-- A piece that is read is taken from both expressions, if the first one is valid. -/
theorem agree_take_next {q : Place} {groups' : List Bool} (hp : p.IsRead)
    (h : Twin ((readAlike fl p groups).within k l) s t) (hgs : s.glyphs = g :: gs) (hvalid : ¬p.refuses (g :: gs))
    (hnext : p.next groups g gs = (q, groups')) :
    Agree (fun x fl' gs hs => x = some g ∧ (readAlike fl q groups').within k l fl' gs hs) take take s t := by
  obtain ⟨⟨hfl, halike⟩, hk, hl⟩ := h.glyphs
  rw [hgs] at halike
  obtain ⟨hs', hhs, h'⟩ := (halike.cons_inv hp).resolve_left hvalid
  rw [hnext] at h'
  rw [hgs] at hk
  rw [hhs] at hl
  exact agree_take_of_glyphs h hgs hhs ⟨⟨hfl, h'⟩, Nat.le_of_succ_le hk, Nat.le_of_succ_le hl⟩ h'.lone

theorem Place.refuses_set {free : Nat} : (Place.set free).refuses (g :: gs) ↔ g = .escaped 'k' := by
  refine ⟨fun h => ?_, fun h => .inr ⟨.inr ⟨free, rfl⟩, congrArg some h⟩⟩
  rcases h with ⟨h, -⟩ | ⟨-, h⟩
  · exact nomatch h
  · exact Option.some.inj h

/-- The place behind a piece of a set. -/
theorem Place.next_set_cases (free : Nat) (groups : List Bool) (g : Glyph) (gs : List Glyph) :
    (free = 0 ∧ g = .plain ']' ∧ (Place.set free).next groups g gs = (.outside, groups)) ∨
      (¬(free = 0 ∧ g = .plain ']') ∧ (Place.set free).next groups g gs = (.set (free - 1), groups)) := by
  by_cases h : free = 0 ∧ g = .plain ']'
  · obtain ⟨rfl, rfl⟩ := h
    exact .inl ⟨rfl, rfl, rfl⟩
  · exact .inr ⟨h, next_set fun hfree hg => h ⟨hfree, hg⟩⟩

/-- **A piece of a set** is taken from both expressions, where the first reader does not go on from what is
no escape. -/
theorem agree_take_set_bind {β : Type} {Y : β → Pairing} {f f' : Option Glyph → Reader β} {free : Nat}
    (h : Twin (inSet fl free groups k l) s t)
    (hclose : free = 0 → ∀ s' t' k' l', k' < k → l' < l → Twin (inGroups fl groups k' l') s' t' →
      Agree Y (f (some (.plain ']'))) (f' (some (.plain ']'))) s' t')
    (hf : ∀ g s' t' k' l', ¬(free = 0 ∧ g = .plain ']') → k' < k → l' < l →
      Twin (inSet fl (free - 1) groups k' l') s' t' → Agree Y (f (some g)) (f' (some g)) s' t')
    (hnone : ∀ s' r, f none s' ≠ .ok r) (hbad : ∀ s' r, f (some (.escaped 'k')) s' ≠ .ok r) :
    Agree Y (take >>= f) (take >>= f') s t := by
  cases hgs : s.glyphs with
  | nil =>
    refine .of_ne fun r hr => ?_
    obtain ⟨x, s₁, htake, hr⟩ := bind_eq_ok.mp hr
    rw [(take_eq_ok.mp htake).1, hgs] at hr
    exact hnone s₁ r hr
  | cons g gs =>
  by_cases hg : g = .escaped 'k'
  · refine .of_ne fun r hr => ?_
    obtain ⟨x, s₁, htake, hr⟩ := bind_eq_ok.mp hr
    rw [(take_eq_ok.mp htake).1, hgs, hg] at hr
    exact hbad s₁ r hr
  have hvalid : ¬(Place.set free).refuses (g :: gs) := fun h => hg (Place.refuses_set.mp h)
  obtain ⟨-, hk, hl⟩ := h.glyphs
  rcases Place.next_set_cases free groups g gs with ⟨hfree, rfl, hnext⟩ | ⟨hopen, hnext⟩
  · refine .bind_of_eq (agree_take_next (fun _ => rfl) h hgs hvalid hnext) fun x s' t' hs' ht' h => ?_
    obtain rfl := h.glyphs.1
    have hless := length_of_take hs'
    have hless' := length_of_take ht'
    exact hclose hfree s' t' _ _ (by omega) (by omega) (h.mono And.right).tight
  · refine .bind_of_eq (agree_take_next (fun _ => rfl) h hgs hvalid hnext) fun x s' t' hs' ht' h => ?_
    obtain rfl := h.glyphs.1
    have hless := length_of_take hs'
    have hless' := length_of_take ht'
    exact hf g s' t' _ _ hopen (by omega) (by omega) (h.mono And.right).tight

/-- **The members of a set** are read from both expressions, up to and over the closing bracket. -/
theorem agree_members [Interpreter] {free : Nat} {turns turns' : Nat} (here here' : Nat) (soFar : List Member)
    (hfree : free = if soFar.isEmpty then 1 else 0) (h : Twin (inSet fl free groups k l) s t)
    (hk : k < turns) (hl : l < turns') :
    Agree (fun _ => inGroups fl groups k l) (members here turns soFar) (members here' turns' soFar) s t := by
  induction turns generalizing s t turns' free soFar k l with
  | zero => exact absurd hk (Nat.not_lt_zero _)
  | succ turns ih =>
    obtain ⟨m, rfl⟩ : ∃ m, turns' = m + 1 := ⟨turns' - 1, by omega⟩
    -- what is read after a member, which is never the first one
    have hmore : ∀ {s t : Reading} {k' l' : Nat} (ms : List Member), ms ≠ [] → k' < k → l' < l →
        Twin (inSet fl 0 groups k' l') s t → Agree (fun _ => inGroups fl groups k l)
          (members here turns ms) (members here' m ms) s t := fun ms hms hk' hl' h =>
      (ih ms (by rw [if_neg]; simpa using hms) h (by omega) (by omega)).mono fun _ =>
        Pairing.within_mono (Nat.le_of_lt hk') (Nat.le_of_lt hl')
    unfold members
    refine agree_take_set_bind h (fun hzero s' t' k' l' hk' hl' h => ?_) (fun g s' t' k' l' hopen hk' hl' h => ?_)
      (fun s' r hr => nomatch hr) fun s' r hr => ?_
    · have hne : soFar.isEmpty = false := Bool.eq_false_iff.mpr fun he => by rw [hzero, if_pos he] at hfree; exact nomatch hfree
      have hends : (Glyph.plain ']' == Glyph.plain ']' && !soFar.isEmpty) = true := by rw [hne]; rfl
      dsimp only
      rw [if_pos hends, if_pos hends]
      exact .pure (h.mono (Pairing.within_mono (Nat.le_of_lt hk') (Nat.le_of_lt hl') _ _ _))
    · have hgoes : ¬(g == Glyph.plain ']' && !soFar.isEmpty) = true := fun hends => by
        obtain ⟨hg, hne⟩ := Bool.and_eq_true_iff.mp hends
        rw [Bool.not_eq_true'] at hne
        exact hopen ⟨by rw [hfree, hne]; rfl, beq_iff_eq.mp hg⟩
      have hzero : free - 1 = 0 := by rw [hfree]; split <;> rfl
      rw [hzero] at h
      dsimp only
      rw [if_neg hgoes, if_neg hgoes]
      refine .bind (agree_member h steady_inSet g) fun low s' t' h => .bind (agree_accept h steady_inSet (by decide)) fun b s' t' h => ?_
      split
      · refine agree_take_set_bind h (fun hzero s' t' k'' l'' hk'' hl'' h => ?_) (fun last s' t' k'' l'' hopen hk'' hl'' h => ?_)
          (fun s' r hr => nomatch hr) fun s' r hr => ?_
        · exact .pure (h.mono (Pairing.within_mono (by omega) (by omega) _ _ _))
        · split
          · next hlast => exact nomatch hlast
          · next hlast => exact absurd ⟨rfl, Option.some.inj hlast⟩ hopen
          · next hlast =>
            cases hlast
            refine .bind (agree_member h steady_inSet last) fun high s' t' h => .bind (agree_memberRange h g last low high) fun m s' t' h => ?_
            exact hmore _ (by simp) (by omega) (by omega) h
        · obtain ⟨m, s₁, hm, -⟩ := bind_eq_ok.mp hr
          exact member_ne_ok hm
      · exact hmore _ (by simp) hk' hl' h
    · obtain ⟨m, s₁, hm, -⟩ := bind_eq_ok.mp hr
      exact member_ne_ok hm

/-- **A character set** is read from both expressions, behind its opening bracket. -/
theorem agree_characterSet [Interpreter] (here here' : Nat)
    (h : Twin (inSet fl (if s.glyphs.head? = some (.plain '^') then 2 else 1) groups k l) s t) :
    Agree (fun _ => inGroups fl groups k l) (characterSet here) (characterSet here') s t := by
  have hmembers : ∀ {s t : Reading} (negated : Bool), Twin (inSet fl 1 groups k l) s t →
      Agree (fun _ => inGroups fl groups k l)
        (get >>= fun s => members here (s.pieces.length + 1) [] >>= fun ms => pure (Term.ofMembers negated ms))
        (get >>= fun s => members here' (s.pieces.length + 1) [] >>= fun ms => pure (Term.ofMembers negated ms)) s t := by
    intro s t negated h
    obtain ⟨-, hk, hl⟩ := h.glyphs
    refine .get_bind (.bind (agree_members here here' [] rfl h.tight ?_ ?_) fun ms s' t' h => ?_)
    · rw [s.length_glyphs]
      exact Nat.lt_succ_self _
    · rw [t.length_glyphs]
      exact Nat.lt_succ_self _
    · exact .pure (h.mono (Pairing.within_mono hk hl _ _ _))
  unfold characterSet
  by_cases hs : s.glyphs.head? = some (.plain '^')
  · rw [if_pos hs] at h
    exact .bind (agree_accept_of_shifts h shifts_inSet hs) fun b s' t' h => hmembers b (h.mono And.right)
  · rw [if_neg hs] at h
    refine .bind (X := fun _ => inSet fl 1 groups k l) (fun b s' hb => ?_) fun b s' t' h => hmembers b h
    obtain ⟨rfl, rfl⟩ := Prod.mk.inj (Except.ok.inj ((accept_of_ne hs).symm.trans hb))
    refine ⟨t, accept_of_ne fun ht => hs ?_, h⟩
    obtain ⟨hs', hhs⟩ := List.head?_eq_some_iff.mp ht
    exact (hhs ▸ h.glyphs.1.2).head?_of_ne (fun _ => rfl) fun h => nomatch h

/-! ## Comments -/

/-- The reading behind so many pieces. -/
def Reading.drop (s : Reading) (n : Nat) : Reading := { s with pieces := s.pieces.drop n }

theorem Reading.glyphs_drop (s : Reading) (n : Nat) : (s.drop n).glyphs = s.glyphs.drop n := by
  simp [glyphs, drop]

theorem Reading.drop_behind (s : Reading) (n : Nat) : s.behind.drop n = s.drop (n + 1) := by
  simp [behind, drop]

namespace Alike

/-- **What is passed over** may be left out of both expressions. -/
theorem dropWhile (h : Alike p groups gs hs) : Alike p groups (gs.dropWhile p.passes) (hs.dropWhile p.passes) := by
  induction h with
  | nil => exact .nil
  | @same p groups g gs hs h ih =>
    by_cases hg : p.passes g = true
    · rw [List.dropWhile_cons_of_pos hg, List.dropWhile_cons_of_pos hg]
      rwa [Place.next_of_passes hg] at ih
    · rw [List.dropWhile_cons_of_neg hg, List.dropWhile_cons_of_neg hg]
      exact .same h
  | inserted hg _ ih =>
    rw [List.dropWhile_cons_of_pos hg]
    exact ih
  | removed hg _ _ ih =>
    rw [List.dropWhile_cons_of_pos hg]
    exact ih
  | @refused p groups gs hs hp hh =>
    have hnone : p.passes = fun _ => false := by
      rcases hp with ⟨rfl, -⟩ | ⟨rfl | ⟨free, rfl⟩, -⟩ <;> rfl
    have hdrop : ∀ gs : List Glyph, gs.dropWhile p.passes = gs := fun gs => by
      rw [hnone]
      cases gs <;> rfl
    rw [hdrop, hdrop]
    exact .refused hp hh

/-- **The end of a comment** stands in both expressions, and what follows is read alike. -/
theorem stop {front : List Glyph} (h : Alike p groups (front ++ g :: gs) hs) (hp : ∀ gs, ¬p.refuses gs)
    (hfront : front.all p.passes = true) (hg : p.passes g = false) : ∃ front' hs', front'.all p.passes = true ∧
      hs = front' ++ g :: hs' ∧ Alike (p.next groups g gs).1 (p.next groups g gs).2 gs hs' := by
  have hdrop := h.dropWhile
  have hne : ¬p.passes g = true := Bool.eq_false_iff.mp hg
  rw [List.dropWhile_append_of_pos (List.all_eq_true.mp hfront), List.dropWhile_cons_of_neg hne] at hdrop
  have hsplit := List.takeWhile_append_dropWhile (p := p.passes) (l := hs)
  have hhead := List.head?_dropWhile_not p.passes hs
  generalize hs.dropWhile p.passes = hs' at hdrop hsplit hhead
  cases hdrop with
  | same h => exact ⟨_, _, List.all_takeWhile, hsplit.symm, h⟩
  | inserted hg' _ =>
    rw [List.head?_cons] at hhead
    exact nomatch hg'.symm.trans hhead
  | removed hg' _ _ => exact absurd hg' hne
  | refused hp' _ => exact absurd hp' (hp _)

/-- A comment without an end has none in the other expression. -/
theorem all_passes (h : Alike p groups gs hs) (hp : ∀ gs, ¬p.refuses gs) (hgs : gs.all p.passes = true) :
    hs.all p.passes = true := by
  have hdrop := h.dropWhile
  rw [List.dropWhile_eq_nil_iff.mpr (List.all_eq_true.mp hgs)] at hdrop
  have hhead := List.head?_dropWhile_not p.passes hs
  have hnil : hs.dropWhile p.passes = [] := by
    generalize hs.dropWhile p.passes = hs' at hdrop hhead
    cases hdrop with
    | nil => rfl
    | inserted hg' _ =>
      rw [List.head?_cons] at hhead
      exact nomatch hg'.symm.trans hhead
    | refused hp' _ => exact absurd hp' (hp _)
  exact List.all_eq_true.mpr (List.dropWhile_eq_nil_iff.mp hnil)

end Alike

theorem Place.not_refuses_comment (free : Nat) (gs : List Glyph) : ¬(Place.comment free).refuses gs := by
  rintro (⟨h, -⟩ | ⟨h | ⟨_, h⟩, -⟩) <;> exact nomatch h

theorem Place.not_refuses_line (gs : List Glyph) : ¬Place.line.refuses gs := by
  rintro (⟨h, -⟩ | ⟨h | ⟨_, h⟩, -⟩) <;> exact nomatch h

/-- No lone backslash is next where a comment goes on or ends. -/
theorem head?_ne_lone {front : List Glyph} (hfront : front.all p.passes = true) (hg : g ≠ .loneBackslash) :
    (front ++ g :: gs).head? ≠ some .loneBackslash := by
  cases front with
  | nil => exact fun h => hg (Option.some.inj h)
  | cons g' front =>
    obtain ⟨hg', -⟩ := Bool.and_eq_true_iff.mp hfront
    exact fun h => Place.ne_lone_of_passes hg' (Option.some.inj h)

theorem comment_of_glyphs {front : List Glyph} {start turns : Nat} (hfront : front.all (Place.comment 0).passes = true)
    (hs : s.glyphs = front ++ .plain ')' :: gs) (hgs : gs.head? ≠ some .loneBackslash) (hturns : front.length < turns) :
    comment start turns s = .ok ((), s.drop (front.length + 1)) := by
  induction front generalizing s turns with
  | nil =>
    obtain ⟨turns, rfl⟩ : ∃ n, turns = n + 1 := ⟨turns - 1, by omega⟩
    refine bind_eq_ok.mpr ⟨_, s, peek_eq s, ?_⟩
    rw [hs]
    exact bind_eq_ok.mpr ⟨_, s.behind, take_eq_ok.mpr ⟨rfl, rfl, by rw [hs]; exact hgs⟩, rfl⟩
  | cons g front ih =>
    obtain ⟨turns, rfl⟩ : ∃ n, turns = n + 1 := ⟨turns - 1, by omega⟩
    obtain ⟨hg, hfront⟩ := Bool.and_eq_true_iff.mp hfront
    have hgoes : ¬(g == Glyph.plain ')') = true := fun h => by rw [beq_iff_eq.mp h] at hg; exact nomatch hg
    have hnext : s.glyphs.tail.head? ≠ some .loneBackslash := by
      rw [hs]
      exact head?_ne_lone hfront fun h => nomatch h
    refine bind_eq_ok.mpr ⟨_, s, peek_eq s, ?_⟩
    rw [hs]
    refine bind_eq_ok.mpr ⟨_, s.behind, take_eq_ok.mpr ⟨rfl, rfl, hnext⟩, ?_⟩
    rw [if_neg hgoes, ih hfront (by rw [s.glyphs_behind, hs]; rfl) (by simpa using hturns), s.drop_behind]
    rfl

theorem comment_eq_ok {start turns : Nat} {u : Unit} (h : comment start turns s = .ok (u, s'))
    (hs : s.glyphs.head? ≠ some .loneBackslash) : ∃ front gs, front.all (Place.comment 0).passes = true ∧
      s.glyphs = front ++ .plain ')' :: gs ∧ gs.head? ≠ some .loneBackslash ∧ s' = s.drop (front.length + 1) := by
  induction turns generalizing s with
  | zero => exact absurd h throw_ne_ok
  | succ turns ih =>
    obtain ⟨x, s₁, hpeek, h⟩ := bind_eq_ok.mp h
    rw [peek_eq] at hpeek
    obtain ⟨rfl, rfl⟩ := Prod.mk.inj (Except.ok.inj hpeek)
    cases hhead : s.glyphs.head? with
    | none =>
      rw [hhead] at h
      exact absurd h throw_ne_ok
    | some g =>
      rw [hhead] at h
      obtain ⟨x, s₂, htake, h⟩ := bind_eq_ok.mp h
      obtain ⟨-, rfl, hnext⟩ := take_eq_ok.mp htake
      obtain ⟨gs, hgs⟩ := List.head?_eq_some_iff.mp hhead
      split at h
      · next hclose =>
        obtain ⟨-, rfl⟩ := Prod.mk.inj (Except.ok.inj h)
        refine ⟨[], gs, rfl, by rw [hgs, beq_iff_eq.mp hclose]; rfl, by rwa [hgs] at hnext, rfl⟩
      · next hgoes =>
        obtain ⟨front, rest, hfront, hrest, hlone, rfl⟩ := ih h (by rwa [s.glyphs_behind])
        have hg : (Place.comment 0).passes g = true := by
          rw [hhead] at hs
          simpa [Place.passes] using ⟨fun h => hgoes (beq_iff_eq.mpr h), fun h => hs (congrArg some h)⟩
        rw [s.glyphs_behind, hgs, List.tail_cons] at hrest
        exact ⟨g :: front, rest, Bool.and_eq_true_iff.mpr ⟨hg, hfront⟩, by rw [hgs, hrest]; rfl, hlone, s.drop_behind _⟩

/-- A line ends with the expression or with a newline. -/
def EndsLine (gs : List Glyph) : Prop := gs = [] ∨ (gs.head? = some (.plain '\n') ∧ gs.tail.head? ≠ some .loneBackslash)

theorem skipLine_of_glyphs {front : List Glyph} {turns : Nat} (hfront : front.all Place.line.passes = true)
    (hs : s.glyphs = front ++ gs) (hgs : EndsLine gs) (hturns : front.length < turns) :
    skipLine turns s = .ok ((), s.drop (front.length + 1)) := by
  induction front generalizing s turns with
  | nil =>
    obtain ⟨turns, rfl⟩ : ∃ n, turns = n + 1 := ⟨turns - 1, by omega⟩
    rw [List.nil_append] at hs
    rcases hgs with rfl | ⟨hhead, hlone⟩
    · refine bind_eq_ok.mpr ⟨none, s.behind, take_eq_ok.mpr ⟨by rw [hs]; rfl, rfl, by rw [hs]; exact fun h => nomatch h⟩, rfl⟩
    · exact bind_eq_ok.mpr ⟨_, s.behind, take_eq_ok.mpr ⟨(hs ▸ hhead).symm, rfl, by rwa [hs]⟩, rfl⟩
  | cons g front ih =>
    obtain ⟨turns, rfl⟩ : ∃ n, turns = n + 1 := ⟨turns - 1, by omega⟩
    obtain ⟨hg, hfront⟩ := Bool.and_eq_true_iff.mp hfront
    have hgoes : ¬(g == Glyph.plain '\n') = true := fun h => by rw [beq_iff_eq.mp h] at hg; exact nomatch hg
    have hnext : s.glyphs.tail.head? ≠ some .loneBackslash := by
      rw [hs]
      rcases hgs with rfl | ⟨hhead, -⟩
      · rw [List.append_nil]
        cases front with
        | nil => exact fun h => nomatch h
        | cons g' front =>
          obtain ⟨hg', -⟩ := Bool.and_eq_true_iff.mp hfront
          exact fun h => Place.ne_lone_of_passes hg' (Option.some.inj h)
      · obtain ⟨gs, rfl⟩ := List.head?_eq_some_iff.mp hhead
        exact head?_ne_lone hfront fun h => nomatch h
    refine bind_eq_ok.mpr ⟨some g, s.behind, take_eq_ok.mpr ⟨by rw [hs]; rfl, rfl, hnext⟩, ?_⟩
    dsimp only
    rw [if_neg hgoes, ih hfront (by rw [s.glyphs_behind, hs]; rfl) (by simpa using hturns), s.drop_behind]
    rfl

theorem skipLine_eq_ok {turns : Nat} {u : Unit} (h : skipLine turns s = .ok (u, s')) (hturns : s.glyphs.length < turns)
    (hs : s.glyphs.head? ≠ some .loneBackslash) : ∃ front gs, front.all Place.line.passes = true ∧
      s.glyphs = front ++ gs ∧ EndsLine gs ∧ s' = s.drop (front.length + 1) := by
  induction turns generalizing s with
  | zero => exact absurd hturns (Nat.not_lt_zero _)
  | succ turns ih =>
    obtain ⟨x, s₁, htake, h⟩ := bind_eq_ok.mp h
    obtain ⟨hx, rfl, hnext⟩ := take_eq_ok.mp htake
    split at h
    · obtain ⟨-, rfl⟩ := Prod.mk.inj (Except.ok.inj h)
      exact ⟨[], [], rfl, List.head?_eq_none_iff.mp hx.symm, .inl rfl, rfl⟩
    · next g =>
      obtain ⟨gs, hgs⟩ := List.head?_eq_some_iff.mp hx.symm
      split at h
      · next hends =>
        obtain ⟨-, rfl⟩ := Prod.mk.inj (Except.ok.inj h)
        exact ⟨[], s.glyphs, rfl, rfl, .inr ⟨by rw [← hx, beq_iff_eq.mp hends], hnext⟩, rfl⟩
      · next hgoes =>
        have hless := length_of_take htake
        obtain ⟨front, rest, hfront, hrest, hends, rfl⟩ := ih h (by omega) (by rwa [s.glyphs_behind])
        have hg : Place.line.passes g = true := by
          rw [← hx] at hs
          simpa [Place.passes] using ⟨fun h => hgoes (beq_iff_eq.mpr h), fun h => hs (congrArg some h)⟩
        rw [s.glyphs_behind, hgs, List.tail_cons] at hrest
        exact ⟨g :: front, rest, Bool.and_eq_true_iff.mpr ⟨hg, hfront⟩, by rw [hgs, hrest]; rfl, hends, s.drop_behind _⟩

/-- Readings behind so many pieces, where what is left is read alike. -/
theorem Twin.drop {n m : Nat} (h : Twin ((readAlike fl p groups).within k l) s t)
    (halike : Alike .outside groups (s.glyphs.drop n) (t.glyphs.drop m)) : Twin (inGroups fl groups k l) (s.drop n) (t.drop m) := by
  obtain ⟨⟨hfl, -⟩, hk, hl⟩ := h.glyphs
  refine ⟨h.flags, h.names, h.widths, h.lookBehindGroups, h.references, ⟨hfl, ?_⟩, ?_, ?_⟩
  · rwa [s.glyphs_drop, t.glyphs_drop]
  · rw [s.glyphs_drop, List.length_drop]
    omega
  · rw [t.glyphs_drop, List.length_drop]
    omega

theorem drop_front {front gs : List Glyph} : (front ++ g :: gs).drop (front.length + 1) = gs := by
  rw [List.drop_append, List.drop_eq_nil_of_le (by omega)]
  simp

/-- **A comment in parentheses** is passed over in both expressions. -/
theorem agree_comment {start start' turns turns' : Nat} (h : Twin ((readAlike fl (.comment 0) groups).within k l) s t)
    (hs : s.glyphs.head? ≠ some .loneBackslash) (hturns : t.glyphs.length < turns') :
    Agree (fun _ => inGroups fl groups k l) (comment start turns) (comment start' turns') s t := by
  intro u s' hcomment
  obtain ⟨front, gs, hfront, hgs, hlone, rfl⟩ := comment_eq_ok hcomment hs
  obtain ⟨front', hs', hfront', hhs, h'⟩ := (hgs ▸ h.glyphs.1.2).stop (Place.not_refuses_comment 0) hfront rfl
  refine ⟨_, comment_of_glyphs hfront' hhs (fun ht => hlone (h'.lone ht)) ?_, h.drop ?_⟩
  · rw [hhs, List.length_append, List.length_cons] at hturns
    omega
  · rw [hgs, hhs, drop_front, drop_front]
    exact h'

/-- **The rest of a line** is passed over in both expressions. -/
theorem agree_skipLine {turns turns' : Nat} (h : Twin ((readAlike fl .line groups).within k l) s t)
    (hs : s.glyphs.head? ≠ some .loneBackslash) (hturns : s.glyphs.length < turns) (hturns' : t.glyphs.length < turns') :
    Agree (fun _ => inGroups fl groups k l) (skipLine turns) (skipLine turns') s t := by
  intro u s' hskip
  obtain ⟨front, gs, hfront, hgs, hends, rfl⟩ := skipLine_eq_ok hskip hturns hs
  have halike := h.glyphs.1.2
  rcases hends with rfl | ⟨hhead, hlone⟩
  · rw [List.append_nil] at hgs
    have hall := halike.all_passes Place.not_refuses_line (hgs ▸ hfront)
    refine ⟨_, skipLine_of_glyphs hall (List.append_nil _).symm (.inl rfl) hturns', h.drop ?_⟩
    rw [hgs, List.drop_eq_nil_of_le (Nat.le_succ _), List.drop_eq_nil_of_le (Nat.le_succ _)]
    exact .nil
  · obtain ⟨gs, rfl⟩ := List.head?_eq_some_iff.mp hhead
    obtain ⟨front', hs', hfront', hhs, h'⟩ := (hgs ▸ halike).stop Place.not_refuses_line hfront rfl
    refine ⟨_, skipLine_of_glyphs hfront' hhs (.inr ⟨rfl, fun ht => hlone (h'.lone ht)⟩) ?_, h.drop ?_⟩
    · rw [hhs, List.length_append, List.length_cons] at hturns'
      omega
    · rw [hgs, hhs, drop_front, drop_front]
      exact h'

end SlotEdit.Regex
