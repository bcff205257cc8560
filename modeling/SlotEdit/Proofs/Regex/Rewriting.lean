import SlotEdit.Proofs.Regex.Places
import SlotEdit.Regex.Finder

/-!
# Proofs/Regex/Rewriting — the long spelling of an expression means the same

Groups, sequences and whole expressions that are read alike come to the same term.  So an expression that is
valid as it stands keeps its meaning in its long spelling, unless a short spelling stands inside a character
set or a comment that it would change (`ofPattern_of_ofText`).
-/

namespace SlotEdit.Regex

variable {s t s' t' : Reading} {p : Place} {groups : List Bool} {g : Glyph} {gs hs : List Glyph} {fl : Flags} {k l : Nat}
  {v : Bool} {start start' : Nat}

/-- **Readers of what is nested keep up** with themselves. -/
structure KeepUp (r : Readers) : Prop where
  branches : ∀ {fl v groups k l s t}, Twin (inGroups fl (v :: groups) k l) s t →
    Agree (fun _ => inGroups fl (v :: groups) k l) (r.branches v) (r.branches v) s t
  sequence : ∀ {fl v groups k l s t}, Twin (inGroups fl (v :: groups) k l) s t →
    Agree (fun _ => inGroups fl (v :: groups) k l) (r.sequence v) (r.sequence v) s t

/-! ## What is refused -/

theorem isIdentifier_of_checkName {n : String} {r : Unit × Reading} (h : checkName n s = .ok r) : isIdentifier n.toList = true := by
  unfold checkName at h
  split at h
  · next hn => exact hn
  · exact absurd h refuse_ne_ok

/-- A condition is on a group with an identifier or a number. -/
theorem isOrdinary_of_conditionGroup {n : String} {r : Nat × Reading} (h : conditionGroup n s = .ok r) :
    ∀ c ∈ n.toList, isOrdinary c = true ∧ c ≠ '?' := by
  unfold conditionGroup at h
  split at h
  · next hn => exact isOrdinary_of_isIdentifier hn
  · unfold numberedGroup at h
    cases hn : readInt n with
    | ok number => exact isOrdinary_of_readInt hn
    | error fault =>
      rw [hn] at h
      exact absurd h refuse_ne_ok

theorem conditionalGroup_ne_ok {inner : Readers} (hs : s.glyphs.head? = some (.plain '?')) {r : Term × Reading} :
    conditionalGroup inner v start s ≠ .ok r := by
  intro hr
  obtain ⟨n, s₁, hn, hr⟩ := bind_eq_ok.mp hr
  obtain ⟨index, s₂, hindex, -⟩ := bind_eq_ok.mp hr
  exact (isOrdinary_of_conditionGroup hindex _ (head?_of_name hn hs)).2 rfl

theorem extension_ne_ok {inner : Readers} (h : ∀ c, s.glyphs.head? = some (.plain c) → isOrdinary c = false ∧ c ≠ '(' ∧ c ≠ '#')
    {r : GroupResult × Reading} : extension inner v start s ≠ .ok r := by
  intro hr
  obtain ⟨x, s₁, htake, hr⟩ := bind_eq_ok.mp hr
  rw [← (take_eq_ok.mp htake).1] at h
  split at hr
  · exact refuse_ne_ok hr
  · exact nomatch (h _ rfl).1
  · exact nomatch (h _ rfl).1
  · exact (h _ rfl).2.2 rfl
  · exact nomatch (h _ rfl).1
  · exact nomatch (h _ rfl).1
  · exact nomatch (h _ rfl).1
  · exact (h _ rfl).2.1 rfl
  · exact nomatch (h _ rfl).1
  · split at hr
    · next c _ _ _ _ _ _ _ _ =>
      split at hr
      · next hletter =>
        have hc : isOrdinary c = true := isOrdinary_of (p := fun c => isFlagLetter c || c == '-') (by decide) hletter
        exact nomatch (h c rfl).1.symm.trans hc
      · exact refuse_ne_ok hr
    · exact refuse_ne_ok hr

theorem exists_of_startsShortGroup (h : startsShortGroup gs = true) :
    ∃ rest, gs = .plain '(' :: .plain '?' :: .plain '<' :: rest ∧ rest.head? ≠ some (.plain '=') ∧ rest.head? ≠ some (.plain '!') := by
  unfold startsShortGroup at h
  split at h
  · next rest =>
    obtain ⟨heq, hnot⟩ := Bool.and_eq_true_iff.mp h
    exact ⟨rest, rfl, bne_iff_ne.mp heq, bne_iff_ne.mp hnot⟩
  · exact nomatch h

theorem opening_ne_ok {inner : Readers} (h : startsShortGroup (.plain '(' :: s.glyphs) = true) {r : GroupResult × Reading} :
    opening inner v start s ≠ .ok r := by
  obtain ⟨rest, hgs, hahead, hnot⟩ := exists_of_startsShortGroup h
  have hgs := (List.cons.inj hgs).2
  intro hr
  obtain ⟨b, s₁, hmark, hr⟩ := bind_eq_ok.mp hr
  have hb : b = true := by
    rcases accept_eq_ok hmark with ⟨hb, -⟩ | ⟨-, hne, -⟩
    · exact hb
    · exact absurd (by rw [hgs]; rfl) hne
  subst hb
  have hgs₁ := (List.cons.inj ((glyphs_of_accept hmark).symm.trans hgs)).2
  obtain ⟨x, s₂, hangle, hr⟩ := bind_eq_ok.mp hr
  obtain ⟨hx, -⟩ := take_eq_ok.mp hangle
  rw [hgs₁] at hx
  subst hx
  have hgs₂ := (List.cons.inj ((glyphs_of_take hangle).symm.trans hgs₁)).2
  obtain ⟨x, s₃, hsign, hr⟩ := bind_eq_ok.mp hr
  rw [← hgs₂, ← (take_eq_ok.mp hsign).1] at hahead hnot
  split at hr
  · exact refuse_ne_ok hr
  · exact hahead rfl
  · exact hnot rfl
  · exact refuse_ne_ok hr

theorem expressionEscape_ne_ok [Interpreter] {r : Term × Reading} : expressionEscape 'k' s ≠ .ok r := fun h => nomatch h

/-- **A short spelling outside sets and comments is refused.** -/
theorem itemsBehind_ne_ok [Interpreter] {inner : Readers} {outermost : Bool} {here : Nat} {soFar : List Term}
    (h : Place.outside.refuses (g :: s.glyphs)) {r : (Bool × List Term) × Reading} :
    itemsBehind inner outermost v here soFar g s ≠ .ok r := by
  intro hr
  rcases h with ⟨-, h⟩ | ⟨-, h⟩
  · obtain ⟨rest, hgs, -⟩ := exists_of_startsShortGroup h
    obtain rfl := (List.cons.inj hgs).1
    unfold itemsBehind at hr
    dsimp only at hr
    have hblank : isVerboseBlank '(' = false := rfl
    rw [hblank, Bool.and_false, if_neg Bool.false_ne_true] at hr
    rw [if_neg (by simp), if_neg (by decide), if_pos rfl] at hr
    obtain ⟨t, s₁, hopening, -⟩ := bind_eq_ok.mp hr
    exact opening_ne_ok h hopening
  · obtain rfl := Option.some.inj h
    obtain ⟨t, s₁, hescape, -⟩ := bind_eq_ok.mp hr
    exact expressionEscape_ne_ok hescape

/-! ## What is left -/

theorem verboseFrom_of_head?_ne (h : gs.head? ≠ some (.plain '?')) (verbose : Bool) : verboseFrom verbose gs = (verbose, verbose) := by
  unfold verboseFrom
  split
  · exact absurd rfl h
  · rfl

/-- The pieces behind a parenthesis that opens no comment. -/
theorem next_open (h : gs.take 2 ≠ [.plain '?', .plain '#']) : Place.outside.next groups (.plain '(') gs
    = (.outside, (verboseFrom (groups.headD false) gs).1 :: (verboseFrom (groups.headD false) gs).2 :: groups.tail) := by
  rw [Place.next, if_neg h]

/-- What is left behind the opening of a group; switches for the whole expression take effect there. -/
def behindOpening (fl : Flags) (verbose : Bool) (groups : List Bool) (k l : Nat) : GroupResult → Pairing
  | .switches => fun fl' gs hs =>
    ∃ added, fl' = fl ++ added ∧ inGroups fl' ((verbose || added.contains .verbose) :: groups) k l fl' gs hs
  | _ => inGroups fl (verbose :: groups) k l

/-- What is left behind an item: on the outermost level it is the switches that say whether blanks and comments
are passed over, and there only they may change. -/
def behindItem (fl : Flags) (outermost verbose : Bool) (groups : List Bool) (k l : Nat) (now : Bool) : Pairing := fun fl' gs hs =>
  (if outermost then now = fl'.contains .verbose else fl' = fl ∧ now = verbose) ∧ inGroups fl' (now :: groups) k l fl' gs hs

theorem Twin.behindItem {outermost : Bool} (hv : outermost = true → v = fl.contains .verbose)
    (h : Twin (inGroups fl (v :: groups) k l) s t) : Twin (behindItem fl outermost v groups k l v) s t := by
  refine h.mono fun h => ⟨?_, ⟨rfl, h.1.2⟩, h.2⟩
  split
  · next houter => rw [hv houter, h.1.1]
  · exact ⟨h.1.1, rfl⟩

theorem behindItem_and {outermost first now : Bool} {fl' : Flags} (hv : outermost = true → v = fl.contains .verbose)
    (h : behindItem fl (outermost && first) v groups k l now fl' gs hs) : behindItem fl outermost v groups k l now fl' gs hs := by
  refine ⟨?_, h.2⟩
  have hnow := h.1
  cases houter : outermost with
  | false => rwa [houter] at hnow
  | true =>
    cases hfirst : first with
    | true => rwa [houter, hfirst] at hnow
    | false =>
      rw [houter, hfirst] at hnow
      exact hnow.2.trans (hnow.1 ▸ hv houter)

/-- What holds behind two items holds behind the later one. -/
theorem behindItem_trans {outermost now now' : Bool} {fl' fl'' : Flags} {gs' hs' : List Glyph} {k' l' : Nat} (hk : k' ≤ k) (hl : l' ≤ l)
    (h : behindItem fl outermost v groups k l now fl' gs hs) (h' : behindItem fl' outermost now groups k' l' now' fl'' gs' hs') :
    behindItem fl outermost v groups k l now' fl'' gs' hs' := by
  refine ⟨?_, Pairing.within_mono hk hl _ _ _ h'.2⟩
  have hnow := h.1
  have hnow' := h'.1
  split
  · next houter => rwa [if_pos houter] at hnow'
  · next hinside =>
    rw [if_neg hinside] at hnow hnow'
    exact ⟨hnow'.1.trans hnow.1, hnow'.2.trans hnow.2⟩

/-! ## Groups -/

theorem Twin.looking {A : Pairing} (h : Twin A s t) {m n : Option Nat} (hmn : m = n) :
    Twin A { s with lookBehindGroups := m } { t with lookBehindGroups := n } :=
  ⟨h.flags, h.names, h.widths, hmn, h.references, h.glyphs⟩

theorem agree_closing (h : Twin (inGroups fl (v :: groups) k l) s t) :
    Agree (fun _ => inGroups fl groups k l) (closing start) (closing start') s t := by
  by_cases hs : s.glyphs.head? = some (.plain ')')
  · refine .bind (agree_accept_of_shifts h shifts_inGroups hs) fun b s' t' h => ?_
    rw [if_pos h.glyphs.1, if_pos h.glyphs.1]
    exact .pure (h.mono And.right)
  · refine .of_ne fun r hr => ?_
    obtain ⟨b, s₁, hb, hr⟩ := bind_eq_ok.mp hr
    rw [accept_of_ne hs] at hb
    obtain ⟨rfl, rfl⟩ := Prod.mk.inj (Except.ok.inj hb)
    exact nomatch hr

theorem agree_conditionGroup {A : Pairing} (n : String) (h : Twin A s t) :
    Agree (fun _ => A) (conditionGroup n) (conditionGroup n) s t := by
  unfold conditionGroup
  split
  · exact agree_namedGroup h n
  · exact agree_numberedGroup h n

theorem agree_namedReference (h : Twin (inGroups fl (v :: groups) k l) s t) :
    Agree (fun _ => inGroups fl groups k l) namedReference namedReference s t := by
  refine agree_name h steady_inGroups shifts_inGroups (fun n s₁ r hn hr => ?_) fun n s' t' h => ?_
  · obtain ⟨u, s₂, hcheck, -⟩ := bind_eq_ok.mp hr
    exact fun c hc => (isOrdinary_of_isIdentifier (isIdentifier_of_checkName hcheck) c hc).1
  · refine .bind (agree_checkName h n) fun _ s' t' h => .bind (agree_namedGroup h n) fun index s' t' h => ?_
    refine .bind (agree_isClosed h index) fun b s' t' h => ?_
    split
    · exact .bind (agree_checkLookBehind h index) fun _ s' t' h => .pure h
    · exact .of_ne fun r => refuse_ne_ok

theorem agree_extension_comment {inner : Readers} (hgs : s.glyphs = .plain '#' :: gs)
    (h : Twin ((readAlike fl (.comment 1) (v :: groups)).within k l) s t) :
    Agree (behindOpening fl v groups k l) (extension inner v start) (extension inner v start') s t := by
  have hopens : Shifts '#' (readAlike fl (.comment 1) (v :: groups)) (readAlike fl (.comment 0) (v :: groups)) :=
    shifts_readAlike (fun _ => rfl) (by decide) fun _ => rfl
  refine .bind_of_eq (agree_take_of_shifts h (hopens.within k l) (by rw [hgs]; rfl)) fun x s' t' hs' _ h => ?_
  obtain rfl := h.glyphs.1
  replace h := h.mono And.right
  refine .get_bind (.bind (agree_comment h (head?_ne_lone_of_take hs') ?_) fun _ s' t' h => .pure h)
  rw [t'.length_glyphs]
  exact Nat.lt_succ_self _

section

variable {inner : Readers} (hinner : KeepUp inner)

include hinner

theorem agree_groupBody {inside : Bool} (index : Option Nat) (added removed : Flags)
    (hinside : inside = ((v || added.contains .verbose) && !removed.contains .verbose))
    (h : Twin (inGroups fl (inside :: groups) k l) s t) :
    Agree (fun _ => inGroups fl groups k l) (groupBody inner v start index added removed)
      (groupBody inner v start' index added removed) s t := by
  unfold groupBody
  dsimp only
  rw [← hinside]
  refine .bind (hinner.branches h) fun body s' t' h => .bind (agree_closing h) fun _ s' t' h => ?_
  split
  · exact .bind (agree_closeGroup h _ _) fun _ s' t' h => .pure h
  · exact .pure h

theorem agree_capturing (name : Option String) (h : Twin (inGroups fl (v :: groups) k l) s t) :
    Agree (fun _ => inGroups fl groups k l) (capturing inner v start name) (capturing inner v start' name) s t := by
  refine .bind (agree_openGroup h name) fun index s' t' h => ?_
  exact agree_groupBody hinner (some index) [] [] (by simp) h

theorem agree_lookAround (behind negated : Bool) (h : Twin (inGroups fl (v :: groups) k l) s t) :
    Agree (fun _ => inGroups fl groups k l) (lookAround inner v start behind negated)
      (lookAround inner v start' behind negated) s t := by
  unfold lookAround
  refine .get_bind ?_
  rw [h.lookBehindGroups]
  by_cases houter : (behind && t.lookBehindGroups.isNone) = true
  · dsimp only
    rw [if_pos houter, if_pos houter]
    refine .modify_bind (.bind (hinner.branches (h.looking (congrArg (fun ws => some ws.size) h.widths)))
      fun body s' t' h => ?_)
    rw [if_pos houter, if_pos houter]
    exact .modify_bind (.bind (agree_closing (h.looking rfl)) fun _ s' t' h => .pure h)
  · dsimp only
    rw [if_neg houter, if_neg houter]
    refine .bind (hinner.branches h) fun body s' t' h => ?_
    rw [if_neg houter, if_neg houter]
    exact .bind (agree_closing h) fun _ s' t' h => .pure h

theorem agree_absentBranch (h : Twin (inGroups fl (v :: groups) k l) s t) :
    Agree (fun _ => inGroups fl (v :: groups) k l) (absentBranch inner v) (absentBranch inner v) s t := by
  refine .bind (agree_accept h steady_inGroups (by decide)) fun b s' t' h => ?_
  split
  · refine .bind (hinner.sequence h) fun absent s' t' h => .bind (agree_isNext h steady_inGroups (by decide)) fun b s' t' h => ?_
    split
    · exact .of_ne fun r => refuse_ne_ok
    · exact .pure h
  · exact .pure h

/-- **A condition** is read from both expressions, behind its opening parenthesis. -/
theorem agree_conditionalGroup (h : Twin (inGroups fl ((verboseFrom v s.glyphs).1 :: (verboseFrom v s.glyphs).2 :: groups) k l) s t) :
    Agree (fun _ => inGroups fl groups k l) (conditionalGroup inner v start) (conditionalGroup inner v start') s t := by
  unfold conditionalGroup
  by_cases hs : s.glyphs.head? = some (.plain '?')
  · refine .of_ne fun r hr => ?_
    obtain ⟨n, s₁, hn, hr⟩ := bind_eq_ok.mp hr
    obtain ⟨index, s₂, hindex, -⟩ := bind_eq_ok.mp hr
    exact (isOrdinary_of_conditionGroup hindex _ (head?_of_name hn hs)).2 rfl
  · rw [verboseFrom_of_head?_ne hs] at h
    refine agree_name h steady_inGroups shifts_inGroups (fun n s₁ r hn hr => ?_) fun n s' t' h => ?_
    · obtain ⟨index, s₂, hindex, -⟩ := bind_eq_ok.mp hr
      exact fun c hc => (isOrdinary_of_conditionGroup hindex c hc).1
    · refine .bind (agree_conditionGroup n h) fun index s' t' h => .bind (agree_checkLookBehind h index) fun _ s' t' h => ?_
      refine .bind (hinner.sequence h) fun present s' t' h => .bind (agree_absentBranch hinner h) fun absent s' t' h => ?_
      exact .bind (agree_closing h) fun _ s' t' h => .pure h

theorem agree_namedForm (h : Twin (inGroups fl (v :: v :: groups) k l) s t) :
    Agree (behindOpening fl v groups k l) (namedForm inner v start) (namedForm inner v start') s t := by
  unfold namedForm
  refine .bind (agree_accept h steady_inGroups (by decide)) fun b s' t' h => ?_
  split
  · refine agree_name h steady_inGroups (steady_inGroups.shifts (by decide)) (fun n s₁ r hn hr => ?_) fun n s' t' h => ?_
    · obtain ⟨u, s₂, hcheck, -⟩ := bind_eq_ok.mp hr
      exact fun c hc => (isOrdinary_of_isIdentifier (isIdentifier_of_checkName hcheck) c hc).1
    · refine .bind (agree_checkName h n) fun _ s' t' h => ?_
      exact .map (agree_capturing hinner (some n) h) fun _ _ _ h => h
  · refine .bind (agree_accept h steady_inGroups (by decide)) fun b s' t' h => ?_
    split
    · exact .map (agree_namedReference h) fun _ _ _ h => h
    · refine .of_ne fun r hr => ?_
      obtain ⟨x, s₁, -, hr⟩ := bind_eq_ok.mp hr
      split at hr <;> exact refuse_ne_ok hr

theorem agree_lookBehindForm (h : Twin (inGroups fl (v :: v :: groups) k l) s t) :
    Agree (behindOpening fl v groups k l) (lookBehindForm inner v start) (lookBehindForm inner v start') s t := by
  refine agree_take_bind h isOrdinary (fun _ => inGroups fl (v :: v :: groups) k l) (fun c hc => steady_inGroups.shifts hc)
    (fun c s' t' hc h _ _ => ?_) fun x hx s' r hr => ?_
  · split
    · exact .of_ne fun r => refuse_ne_ok
    · exact .map (agree_lookAround hinner true false h) fun _ _ _ h => h
    · exact .map (agree_lookAround hinner true true h) fun _ _ _ h => h
    · exact .of_ne fun r => refuse_ne_ok
  · split at hr
    · exact refuse_ne_ok hr
    · exact nomatch hx _ rfl
    · exact nomatch hx _ rfl
    · exact refuse_ne_ok hr

/-- **A condition** is read from both expressions, behind its question mark. -/
theorem agree_extension_condition (hgs : s.glyphs = .plain '(' :: gs) (h : Twin (inGroups fl (v :: v :: groups) k l) s t) :
    Agree (behindOpening fl v groups k l) (extension inner v start) (extension inner v start') s t := by
  unfold extension
  by_cases hquestion : gs.head? = some (.plain '?')
  · refine .of_ne fun r hr => ?_
    obtain ⟨x, s₁, htake, hr⟩ := bind_eq_ok.mp hr
    rw [(take_eq_ok.mp htake).1, hgs] at hr
    change (conditionalGroup inner v start >>= fun t => pure (GroupResult.item t)) s₁ = _ at hr
    obtain ⟨r', s₂, hr', -⟩ := bind_eq_ok.mp hr
    exact conditionalGroup_ne_ok (by rwa [(take_eq_ok.mp htake).2.1, s.glyphs_behind, hgs]) hr'
  · have hvalid : ¬Place.outside.refuses (.plain '(' :: gs) := by
      rintro (⟨-, h⟩ | ⟨-, h⟩)
      · obtain ⟨rest, heq, -⟩ := exists_of_startsShortGroup h
        exact hquestion (by rw [(List.cons.inj heq).2]; rfl)
      · exact nomatch h
    have hcomment : gs.take 2 ≠ [.plain '?', .plain '#'] := fun h => by
      cases gs with
      | nil => exact nomatch h
      | cons g gs => exact hquestion (congrArg some (List.cons.inj h).1)
    refine .bind_of_eq (agree_take_next (fun _ => rfl) h hgs hvalid (next_open hcomment)) fun x s' t' hs' _ h => ?_
    obtain ⟨rfl, -⟩ := h.glyphs
    have hgs' := List.cons.inj (hgs.symm.trans (glyphs_of_take hs'))
    rw [hgs'.2] at h
    exact .map (agree_conditionalGroup hinner (h.mono And.right)) fun _ _ _ h => h

/-- **An opening that is no comment** is read from both expressions, behind its question mark. -/
theorem agree_extension (hs : s.glyphs.head? ≠ some (.plain '#'))
    (h : Twin (inGroups fl ((verboseFrom v (.plain '?' :: s.glyphs)).1 :: (verboseFrom v (.plain '?' :: s.glyphs)).2 :: groups) k l) s t) :
    Agree (behindOpening fl v groups k l) (extension inner v start) (extension inner v start') s t := by
  by_cases hopen : s.glyphs.head? = some (.plain '(')
  · obtain ⟨gs, hgs⟩ := List.head?_eq_some_iff.mp hopen
    have hfrom : verboseFrom v (.plain '?' :: s.glyphs) = (v, v) := by rw [hgs]; rfl
    rw [hfrom] at h
    exact agree_extension_condition hinner hgs h
  by_cases hord : ∃ c, s.glyphs.head? = some (.plain c) ∧ isOrdinary c = true
  · obtain ⟨c, hhead, hc⟩ := hord
    unfold extension
    refine .bind_of_eq (agree_take h steady_inGroups hc hhead) fun x s' t' hs' _ h => ?_
    obtain ⟨rfl, -⟩ := h.glyphs
    have h := h.mono And.right
    rw [glyphs_of_take hs'] at h
    -- all openings but switches leave it as it is whether blanks and comments are passed over
    have hsame : verboseFrom v (.plain '?' :: .plain c :: s'.glyphs) = (v, v) →
        Twin (inGroups fl (v :: v :: groups) k l) s' t' := fun hfrom => by rwa [hfrom] at h
    split
    · exact .of_ne fun r => refuse_ne_ok
    · next hx =>
      cases hx
      exact agree_namedForm hinner (hsame rfl)
    · next hx =>
      cases hx
      have hcolon := verboseFrom_colon [] (fun c hc => nomatch hc) v s'.glyphs
      rw [List.contains_nil, Bool.or_false] at hcolon
      exact .map (agree_groupBody hinner none [] [] (by simp) (hsame hcolon)) fun _ _ _ h => h
    · next hx =>
      cases hx
      exact nomatch hc
    · next hx =>
      cases hx
      exact .map (agree_lookAround hinner false false (hsame rfl)) fun _ _ _ h => h
    · next hx =>
      cases hx
      exact .map (agree_lookAround hinner false true (hsame rfl)) fun _ _ _ h => h
    · next hx =>
      cases hx
      exact agree_lookBehindForm hinner (hsame rfl)
    · next hx =>
      cases hx
      exact nomatch hc
    · next hx =>
      cases hx
      exact .bind (hinner.branches (hsame rfl)) fun body s' t' h => .bind (agree_closing h) fun _ s' t' h => .pure h
    · next hx =>
      cases hx
      dsimp only
      split
      · refine .bind (agree_inlineFlags rfl h) fun r s' t' h => ?_
        cases r with
        | everywhere =>
          refine .pure (h.mono fun ⟨⟨added, hfl, hswitches⟩, h⟩ => ⟨added, hfl, ?_⟩)
          rwa [hswitches] at h
        | inGroup added removed =>
          have hswitches := h.glyphs.1
          have h := h.mono And.right
          rw [hswitches] at h
          exact .map (agree_groupBody hinner none added removed rfl h) fun _ _ _ h => h
      · exact .of_ne fun r => refuse_ne_ok
  · refine .of_ne fun r => extension_ne_ok fun c hhead => ⟨?_, fun hc => hopen (hc ▸ hhead), fun hc => hs (hc ▸ hhead)⟩
    exact Bool.eq_false_iff.mpr fun hc => hord ⟨c, hhead, hc⟩

/-- **What a parenthesis opens** is read from both expressions. -/
theorem agree_opening (h : Twin ((readAlike fl (Place.outside.next (v :: groups) (.plain '(') s.glyphs).1
      (Place.outside.next (v :: groups) (.plain '(') s.glyphs).2).within k l) s t) :
    Agree (behindOpening fl v groups k l) (opening inner v start) (opening inner v start') s t := by
  unfold opening
  by_cases hcomment : s.glyphs.take 2 = [.plain '?', .plain '#']
  · obtain ⟨gs, hgs⟩ : ∃ gs, s.glyphs = .plain '?' :: .plain '#' :: gs :=
      ⟨s.glyphs.drop 2, by rw [← List.take_append_drop 2 s.glyphs, hcomment]; rfl⟩
    rw [Place.next, if_pos hcomment] at h
    have hmark : Shifts '?' (readAlike fl (.comment 2) (v :: groups)) (readAlike fl (.comment 1) (v :: groups)) :=
      shifts_readAlike (fun _ => rfl) (by decide) fun _ => rfl
    refine .bind_of_eq (agree_accept_of_shifts h (hmark.within k l) (by rw [hgs]; rfl)) fun b s' t' hs' _ h => ?_
    obtain rfl := h.glyphs.1
    replace h := h.mono And.right
    exact agree_extension_comment (List.cons.inj ((glyphs_of_accept hs').symm.trans hgs)).2 h
  · rw [next_open hcomment] at h
    by_cases hquestion : s.glyphs.head? = some (.plain '?')
    · obtain ⟨gs, hgs⟩ := List.head?_eq_some_iff.mp hquestion
      refine .bind_of_eq (agree_accept_of_shifts h (steady_inGroups.shifts (by decide)) hquestion) fun b s' t' hs' _ h => ?_
      obtain rfl := h.glyphs.1
      replace h := h.mono And.right
      have hs' := glyphs_of_accept hs'
      refine agree_extension hinner (fun hhead => hcomment ?_) (hs' ▸ h)
      obtain ⟨gs, hgs⟩ := List.head?_eq_some_iff.mp hhead
      rw [hs', hgs]
      rfl
    · rw [verboseFrom_of_head?_ne hquestion] at h
      refine .bind (X := fun b fl' gs hs => b = false ∧ inGroups fl (v :: v :: groups) k l fl' gs hs) (fun b s' hb => ?_) ?_
      · obtain ⟨rfl, rfl⟩ := Prod.mk.inj (Except.ok.inj ((accept_of_ne hquestion).symm.trans hb))
        refine ⟨t, accept_of_ne fun ht => hquestion ?_, h.mono fun h => ⟨rfl, h⟩⟩
        exact (Steady.head?_iff h steady_inGroups (by decide)).mpr ht
      · rintro b s' t' h
        obtain rfl := h.glyphs.1
        replace h := h.mono And.right
        exact .map (agree_capturing hinner none h) fun _ _ _ h => h

/-! ## Sequences -/

/-- **One item** is read from both expressions, behind its first piece. -/
theorem agree_itemsBehind [Interpreter] {outermost : Bool} (soFar : List Term) {here here' : Nat}
    (hv : outermost = true → v = fl.contains .verbose)
    (hg : g ≠ .plain ')') (hlone : s.glyphs.head? ≠ some .loneBackslash)
    (h : Twin ((readAlike fl (Place.outside.next (v :: groups) g s.glyphs).1
      (Place.outside.next (v :: groups) g s.glyphs).2).within k l) s t) :
    Agree (fun r => behindItem fl outermost v groups k l r.1) (itemsBehind inner outermost v here soFar g)
      (itemsBehind inner outermost v here' soFar g) s t := by
  have hpure : ∀ {s t : Reading} (ts : List Term), Twin (inGroups fl (v :: groups) k l) s t →
      Agree (fun r : Bool × List Term => behindItem fl outermost v groups k l r.1) (pure (v, ts)) (pure (v, ts)) s t :=
    fun ts h => .pure (h.behindItem hv)
  have hplain : ∀ {c : Char}, g = .plain c → c ≠ '[' → c ≠ '(' → (c = '#' → v = false) →
      Twin (inGroups fl (v :: groups) k l) s t := by
    rintro c rfl hset hopen hline
    have hnext : Place.outside.next (v :: groups) (.plain c) s.glyphs = (.outside, v :: groups) :=
      Place.next_outside hset hopen (fun hc => hg (congrArg _ hc)) hline
    rwa [hnext] at h
  unfold itemsBehind
  cases g with
  | escaped c => exact .bind (agree_expressionEscape h steady_inGroups c) fun t s' t' h => hpure _ h
  | loneBackslash => exact hpure _ h
  | plain c =>
    dsimp only
    split
    · next hblank =>
      have hblank := (Bool.and_eq_true_iff.mp hblank).2
      exact hpure _ (hplain rfl (fun hc => by subst hc; exact nomatch hblank) (fun hc => by subst hc; exact nomatch hblank)
        fun hc => by subst hc; exact nomatch hblank)
    split
    · next hline =>
      obtain ⟨hv, hc⟩ := Bool.and_eq_true_iff.mp hline
      obtain rfl := beq_iff_eq.mp hc
      subst hv
      refine .get_bind (.bind (agree_skipLine h hlone ?_ ?_) fun _ s' t' h => hpure _ h)
      · rw [s.length_glyphs]
        exact Nat.lt_succ_self _
      · rw [t.length_glyphs]
        exact Nat.lt_succ_self _
    next hline =>
    have hline : c = '#' → v = false := by
      rintro rfl
      simpa using hline
    split
    · next hset =>
      subst hset
      exact .bind (agree_characterSet here here' h) fun t s' t' h => hpure _ h
    next hset =>
    split
    · next hopen =>
      subst hopen
      refine .bind (agree_opening hinner h) fun r s' t' h => ?_
      cases r with
      | item t => exact hpure _ h
      | nothing => exact hpure _ h
      | switches =>
        dsimp only
        split
        · exact .of_ne fun r => throw_ne_ok
        · next hfirst =>
          have houter : outermost = true := by
            cases outermost
            · exact absurd rfl hfirst
            · rfl
          refine .get_bind ?_
          rw [← h.flags]
          refine .pure (h.mono fun ⟨added, hfl, h⟩ => ?_)
          have hnow : (v || added.contains .verbose) = s'.flags.contains .verbose := by
            rw [hv houter, hfl, List.contains_append]
          rw [hnow] at h
          exact ⟨by rw [if_pos houter], h⟩
    next hopen =>
    have h := hplain rfl hset hopen hline
    split
    · exact hpure _ h
    split
    · exact hpure _ h
    split
    · exact hpure _ h
    refine .bind (agree_counts? h steady_inGroups c) fun counts s' t' h => ?_
    split
    · exact .bind (agree_repetition h steady_inGroups _ _ _ _ _) fun t s' t' h => hpure _ h
    · exact hpure _ h

/-- **The items of a sequence** are read from both expressions. -/
theorem agree_items [Interpreter] {outermost : Bool} {turns turns' : Nat} (soFar : List Term) (hk : k < turns)
    (hl : l < turns')
    (hv : outermost = true → v = fl.contains .verbose) (h : Twin (inGroups fl (v :: groups) k l) s t) :
    Agree (fun _ fl' gs hs => ∃ now, behindItem fl outermost v groups k l now fl' gs hs) (items inner outermost turns v soFar)
      (items inner outermost turns' v soFar) s t := by
  induction turns generalizing s t turns' soFar k l fl v with
  | zero => exact absurd hk (Nat.not_lt_zero _)
  | succ turns ih =>
    obtain ⟨m, rfl⟩ : ∃ m, turns' = m + 1 := ⟨turns' - 1, by omega⟩
    have hends : Twin (fun fl' gs hs => ∃ now, behindItem fl outermost v groups k l now fl' gs hs) s t :=
      (h.behindItem hv).mono fun h => ⟨v, h⟩
    obtain ⟨-, hks, hlt⟩ := h.glyphs
    unfold items
    refine .peek_bind ?_
    cases hgs : s.glyphs with
    | nil =>
      have hhs : t.glyphs = [] := (hgs ▸ h.glyphs.1.2).nil_inv fun _ => rfl
      rw [hhs]
      exact .pure hends
    | cons g gs =>
    by_cases hvalid : Place.outside.refuses (g :: gs)
    · have hgoes : ¬(g == .plain '|' || g == .plain ')') = true := fun hstop => by
        rcases Bool.or_eq_true_iff.mp hstop with hg | hg <;> rw [beq_iff_eq.mp hg] at hvalid <;>
          exact Place.not_refuses (by decide) hvalid
      refine .of_ne fun r hr => ?_
      dsimp only [List.head?_cons] at hr
      rw [if_neg hgoes] at hr
      obtain ⟨here, s₁, htell, hr⟩ := bind_eq_ok.mp hr
      obtain ⟨-, rfl⟩ := Prod.mk.inj (Except.ok.inj htell)
      obtain ⟨x, s₂, htake, hr⟩ := bind_eq_ok.mp hr
      obtain ⟨r', s₃, hitem, -⟩ := bind_eq_ok.mp hr
      obtain ⟨-, rfl, -⟩ := take_eq_ok.mp htake
      exact itemsBehind_ne_ok (by rwa [s.glyphs_behind, hgs]) hitem
    obtain ⟨hs, hhs, -⟩ := ((hgs ▸ h.glyphs.1.2).cons_inv fun _ => rfl).resolve_left hvalid
    rw [hhs]
    dsimp only [List.head?_cons]
    split
    · exact .pure hends
    next hstop =>
    have hclose : g ≠ .plain ')' := fun hg => hstop (by rw [hg]; rfl)
    refine .tell_bind fun here here' => .bind_of_eq (agree_take_next (fun _ => rfl) h hgs hvalid rfl) fun x s' t' hs' ht' h => ?_
    obtain rfl := h.glyphs.1
    replace h := h.mono And.right
    have hless := length_of_take hs'
    have hless' := length_of_take ht'
    rw [← (List.cons.inj ((glyphs_of_take hs').symm.trans hgs)).2] at h
    refine .bind (agree_itemsBehind hinner soFar hv hclose (head?_ne_lone_of_take hs') h.tight) fun r s₂ t₂ h => ?_
    obtain ⟨hnow, ⟨-, halike⟩, hlengths⟩ := h.glyphs
    have hafter : outermost = true → r.1 = s₂.flags.contains .verbose := fun houter => by rwa [if_pos houter] at hnow
    refine (ih r.2 (by omega) (by omega) hafter (h.mono fun _ => ⟨⟨rfl, halike⟩, hlengths⟩)).mono ?_
    rintro ts fl' gs hs ⟨now, hleft⟩
    exact ⟨now, behindItem_trans (by omega) (by omega) ⟨hnow, ⟨rfl, halike⟩, by omega, by omega⟩ hleft⟩

/-! ## Branches -/

theorem agree_sequence [Interpreter] {outermost : Bool} (hv : outermost = true → v = fl.contains .verbose)
    (h : Twin (inGroups fl (v :: groups) k l) s t) :
    Agree (fun _ fl' gs hs => ∃ now, behindItem fl outermost v groups k l now fl' gs hs) (sequence inner outermost v)
      (sequence inner outermost v) s t := by
  obtain ⟨-, hk, hl⟩ := h.glyphs
  refine .get_bind (.bind (agree_items hinner [] ?_ ?_ hv h.tight) fun ts s' t' h => .pure (h.mono fun ⟨now, hnow, h⟩ => ?_))
  · rw [s.length_glyphs]
    exact Nat.lt_succ_self _
  · rw [t.length_glyphs]
    exact Nat.lt_succ_self _
  · exact ⟨now, hnow, Pairing.within_mono hk hl _ _ _ h⟩

/-- **The branches between bars** are read from both expressions. -/
theorem agree_branches [Interpreter] {outermost first : Bool} {turns turns' : Nat} (hk : k ≤ turns) (hl : l ≤ turns')
    (hv : outermost = true → v = fl.contains .verbose) (h : Twin (inGroups fl (v :: groups) k l) s t) :
    Agree (fun _ fl' gs hs => ∃ now, behindItem fl outermost v groups k l now fl' gs hs)
      (branches inner outermost turns v first) (branches inner outermost turns' v first) s t := by
  induction k using Nat.strongRecOn generalizing s t turns turns' l fl v first with
  | ind k ih =>
    unfold branches
    refine .bind (agree_sequence hinner (fun houter => hv (Bool.and_eq_true_iff.mp houter).1) h) fun term s₁ t₁ h => ?_
    obtain ⟨now, hnow⟩ := h.glyphs
    replace hnow := behindItem_and hv hnow
    refine .bind_of_eq (agree_accept (h.mono fun _ => hnow.2) steady_inGroups (by decide)) fun b s₂ t₂ hs₂ ht₂ h => ?_
    obtain ⟨⟨hfl, halike⟩, -⟩ := h.glyphs
    cases b with
    | false =>
      refine .pure (h.mono fun h => ⟨now, ?_, ⟨rfl, halike⟩, h.2⟩)
      rw [hfl]
      exact hnow.1
    | true =>
      have hless := congrArg List.length (glyphs_of_accept hs₂)
      have hless' := congrArg List.length (glyphs_of_accept ht₂)
      obtain ⟨-, hks, hlt⟩ := hnow.2
      rw [List.length_cons] at hless hless'
      obtain ⟨n, rfl⟩ : ∃ n, turns = n + 1 := ⟨turns - 1, by omega⟩
      obtain ⟨m, rfl⟩ : ∃ m, turns' = m + 1 := ⟨turns' - 1, by omega⟩
      have hverbose : (if outermost then s₂.flags.contains .verbose else v) = now := by
        have hnow := hnow.1
        rw [hfl]
        split
        · next houter => rw [if_pos houter] at hnow; exact hnow.symm
        · next hinside => rw [if_neg hinside] at hnow; exact hnow.2.symm
      have hafter : outermost = true → now = s₁.flags.contains .verbose := fun houter => by
        have hnow := hnow.1
        rwa [if_pos houter] at hnow
      refine .get_bind ?_
      rw [← h.flags]
      dsimp only
      rw [hverbose]
      refine .bind (ih s₂.glyphs.length (by omega) (by omega) (show t₂.glyphs.length ≤ m by omega) hafter h.tight) fun ts s₃ t₃ h => ?_
      exact .pure (h.mono fun ⟨now', hleft⟩ => ⟨now', behindItem_trans (by omega) (by omega) hnow hleft⟩)

/-- **A choice between sequences** is read from both expressions. -/
theorem agree_choice [Interpreter] {outermost : Bool} (hv : outermost = true → v = fl.contains .verbose)
    (h : Twin (inGroups fl (v :: groups) k l) s t) :
    Agree (fun _ fl' gs hs => ∃ now, behindItem fl outermost v groups k l now fl' gs hs) (choice inner outermost v)
      (choice inner outermost v) s t := by
  obtain ⟨-, hk, hl⟩ := h.glyphs
  refine .get_bind (.bind (agree_branches hinner (Nat.le_of_eq s.length_glyphs) (Nat.le_of_eq t.length_glyphs) hv h.tight)
    fun ts s' t' h => .pure (h.mono fun ⟨now, hnow, h⟩ => ⟨now, hnow, Pairing.within_mono hk hl _ _ _ h⟩))

end

/-- **The readers of what is nested keep up**, however deep. -/
theorem keepUp_readersTo [Interpreter] (depth : Nat) : KeepUp (readersTo depth) := by
  induction depth with
  | zero => exact ⟨fun _ => .of_ne fun r => throw_ne_ok, fun _ => .of_ne fun r => throw_ne_ok⟩
  | succ depth ih =>
    have hinside : ∀ (fl v groups k l) (t : Term) (fl' : Flags) (gs hs : List Glyph),
        (∃ now, behindItem fl false v groups k l now fl' gs hs) → inGroups fl (v :: groups) k l fl' gs hs := by
      rintro fl v groups k l t fl' gs hs ⟨now, ⟨rfl, rfl⟩, h⟩
      exact h
    refine ⟨fun {fl v groups k l s t} h => ?_, fun {fl v groups k l s t} h => ?_⟩
    · have hchoice : Agree (fun _ fl' gs hs => ∃ now, behindItem fl false v groups k l now fl' gs hs)
          (choice (readersTo depth) false v) (choice (readersTo depth) false v) s t := agree_choice ih (fun h => nomatch h) h
      exact hchoice.mono (hinside fl v groups k l)
    · have hsequence : Agree (fun _ fl' gs hs => ∃ now, behindItem fl false v groups k l now fl' gs hs)
          (sequence (readersTo depth) false v) (sequence (readersTo depth) false v) s t := agree_sequence ih (fun h => nomatch h) h
      exact hsequence.mono (hinside fl v groups k l)

/-! ## Whole expressions -/

theorem agree_expressionOf (term : Term) (h : Twin (readAlike fl .outside groups) s t) :
    Agree (fun _ _ _ _ => True) (expressionOf term) (expressionOf term) s t := by
  unfold expressionOf
  refine .get_bind ?_
  rw [← h.flags, ← h.names, ← h.widths]
  split
  · exact .of_ne fun r => throw_ne_ok
  refine .peek_bind ?_
  cases hgs : s.glyphs with
  | cons g gs => exact .of_ne fun r => refuse_ne_ok
  | nil =>
    have hhs : t.glyphs = [] := (hgs ▸ h.glyphs.2).nil_inv fun _ => rfl
    rw [hhs]
    have hknown : s.references.find? (fun r => r.1 ≥ s.widths.size) = none →
        t.references.find? (fun r => r.1 ≥ s.widths.size) = none := by
      intro hnone
      rw [List.find?_eq_none] at hnone ⊢
      intro r hr
      obtain ⟨r', hr', heq⟩ := List.mem_map.mp (h.references ▸ List.mem_map_of_mem hr : r.1 ∈ s.references.map Prod.fst)
      rw [← heq]
      exact hnone r' hr'
    have hend : ¬(List.head? ([] : List Glyph)).isSome = true := Bool.false_ne_true
    rw [if_neg hend, if_neg hend]
    split
    · exact .of_ne fun r => throw_ne_ok
    · next hnone =>
      rw [hknown hnone]
      exact .pure (h.mono fun _ => trivial)

/-- **A whole expression** is read from both texts. -/
theorem agree_wholeExpression [Interpreter] (h : Twin (inGroups fl [fl.contains .verbose] k l) s t) :
    Agree (fun _ _ _ _ => True) wholeExpression wholeExpression s t := by
  have hcheck : Agree (fun _ => inGroups fl [fl.contains .verbose] k l) checkNext checkNext s t := by
    intro u s' hs
    obtain ⟨hlone, rfl⟩ := checkNext_eq_ok hs
    exact ⟨t, checkNext_of_ne fun ht => hlone (h.glyphs.1.2.lone ht), h⟩
  refine .bind hcheck fun _ s' t' h => .get_bind ?_
  rw [← h.flags, h.glyphs.1.1]
  refine .bind (agree_choice (keepUp_readersTo nestingLimit) (fun _ => rfl) h) fun term s' t' h => ?_
  obtain ⟨now, -, ⟨-, halike⟩, -⟩ := h.glyphs
  exact agree_expressionOf term (h.mono fun _ => ⟨rfl, halike⟩)

theorem glyphs_start (cs : List Char) (flags : Flags) : (Reading.start cs flags).glyphs = glyphs cs := map_glyph_piecesFrom 0 cs

theorem ofText_eq [Interpreter] (text : String) (flags : Flags) : Expression.ofText text flags =
    (wholeExpression (Reading.start text.toList flags)).bind fun r =>
      match obstacle? r.1.widthOf (r.1.flags.contains .template) r.1.term with
      | some cause => throw (.malformed cause none)
      | none => pure r.1 := rfl

theorem ofText_eq_ok [Interpreter] {text : String} {flags : Flags} {e : Expression} :
    Expression.ofText text flags = .ok e ↔
    (∃ s, wholeExpression (Reading.start text.toList flags) = .ok (e, s)) ∧
      obstacle? e.widthOf (e.flags.contains .template) e.term = none := by
  rw [ofText_eq]
  cases wholeExpression (Reading.start text.toList flags) with
  | error fault =>
    constructor
    · rintro ⟨⟩
    · rintro ⟨⟨s, ⟨⟩⟩, -⟩
  | ok r =>
    rw [Except.bind]
    constructor
    · intro h
      split at h
      · cases h
      · next hnone =>
        obtain rfl := Except.ok.inj h
        exact ⟨⟨r.2, rfl⟩, hnone⟩
    · rintro ⟨⟨s, h⟩, hnone⟩
      obtain rfl := Except.ok.inj h
      rw [hnone]
      rfl

theorem twin_start {cs ds : List Char} {flags : Flags} (h : Alike .outside [flags.contains .verbose] (glyphs cs) (glyphs ds)) :
    Twin (inGroups flags [flags.contains .verbose] (glyphs cs).length (glyphs ds).length) (Reading.start cs flags)
      (Reading.start ds flags) where
  flags := rfl
  names := rfl
  widths := rfl
  lookBehindGroups := rfl
  references := rfl
  glyphs := by
    rw [glyphs_start, glyphs_start]
    exact ⟨⟨rfl, h⟩, Nat.le_refl _, Nat.le_refl _⟩

/-- **A harmless expression is read as its long spelling is.** -/
theorem ofText_expandAliases [Interpreter] {pattern : String} {flags : Flags} {e : Expression}
    (he : Expression.ofText pattern flags = .ok e)
    (h : harmless .outside [flags.contains .verbose] (glyphs pattern.toList) = true) :
    Expression.ofText (String.ofList (expandAliases pattern.toList)) flags = .ok e := by
  obtain ⟨⟨s, hs⟩, hobstacle⟩ := ofText_eq_ok.mp he
  have halike := alike_expandAliases pattern.toList .outside [flags.contains .verbose] (fun _ h => nomatch h) h
  obtain ⟨t, ht, -⟩ := agree_wholeExpression (twin_start halike) e s hs
  refine ofText_eq_ok.mpr ⟨⟨t, ?_⟩, hobstacle⟩
  rwa [String.toList_ofList]

/-- **The long spelling of an expression means the same**: a pattern that is a regular expression as it stands
is one as a finder takes it, and finds the same matches with the same groups in every text, unless a short
group stands in one of its character sets or a short reference in one of its comments. -/
theorem ofPattern_of_ofText [Interpreter] {pattern : String} {flags : Flags} {e : Expression}
    (he : Expression.ofText pattern flags = .ok e)
    (h : harmless .outside [flags.contains .verbose] (glyphs pattern.toList) = true) :
    ∃ f, Finder.ofPattern pattern flags = .ok f ∧ ∀ text, f.findAll text = e.findAll text := by
  refine ⟨⟨pattern, flags, e⟩, ?_, fun text => rfl⟩
  have hcompile : Finder.compile pattern flags = .ok e := by
    rw [Finder.compile, ofText_expandAliases he h]
  rw [Finder.ofPattern, hcompile]
  rfl

/-- A line comment that speaks of short spellings is rewritten, and passed over all the same. -/
theorem ofPattern_of_ofText_lineComment : ∃ e f, Expression.ofText "\\N\x7bBULLET\x7d # (?<a>\\k<a>" [.verbose] = .ok e ∧
    harmless .outside [true] (glyphs "\\N\x7bBULLET\x7d # (?<a>\\k<a>".toList) = true ∧
    Finder.ofPattern "\\N\x7bBULLET\x7d # (?<a>\\k<a>" [.verbose] = .ok f ∧ ∀ text, f.findAll text = e.findAll text := by
  have hvalid : (Expression.ofText "\\N\x7bBULLET\x7d # (?<a>\\k<a>" [.verbose]).isOk = true := by decide +kernel
  cases he : Expression.ofText "\\N\x7bBULLET\x7d # (?<a>\\k<a>" [.verbose] with
  | error fault =>
    rw [he] at hvalid
    exact nomatch hvalid
  | ok e =>
    have hharmless : harmless .outside [true] (glyphs "\\N\x7bBULLET\x7d # (?<a>\\k<a>".toList) = true := by decide
    obtain ⟨f, hf, hsame⟩ := ofPattern_of_ofText he hharmless
    exact ⟨e, f, rfl, hharmless, hf, hsame⟩

end SlotEdit.Regex
