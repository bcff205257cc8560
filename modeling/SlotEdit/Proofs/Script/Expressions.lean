import SlotEdit.Script.Expression
import SlotEdit.Proofs.Script.WellNested

/-!
# Proofs/Script/Expressions — the constructs of an expression are laid in order

A reader of expressions lays its tree between the cursor it is given and the one it gives (`Lays`).
Words and marks do since they move along the text; every reader of a construct does when the readers
it is put together of do, so readers that nest to any depth do (`lays_readersTo`).
-/

namespace SlotEdit.Script

open Cursor
open Option (bind_eq_some_iff map_eq_some_iff or_eq_some_iff)

/-- **A reader that lays its tree** between where it starts and the cursor it gives. -/
def Lays (read : ExpressionReader) : Prop :=
  ∀ ⦃p c t c'⦄, read p c = some (t, c') → LaidOut c [t] c'

variable {p : Place} {a b c c' : Cursor} {t : GrammarTree} {ts us : List GrammarTree}

/-! ## Between tokens -/

/-- Where a gap ends. -/
def Gap.place : Gap → Cursor
  | .lineEnd c | .blockStart _ c | .blockEnd c | .token c => c

theorem place_layoutToken? {e : Expected} {m : Measure} {g : Gap} (h : layoutToken? p e m c = some g) :
    g.place = c := by
  rw [layoutToken?] at h
  grind [Gap.place]

/-- **A gap ends further along.** -/
theorem reaches_gapFrom (p : Place) (e : Expected) (turns : Nat) (c : Cursor) :
    c.Reaches (gapFrom p e turns c).place := by
  fun_induction gapFrom p e turns c with
  | case1 turns c overComments found h =>
    obtain ⟨m, -, hfound⟩ := bind_eq_some_iff.mp h
    rw [place_layoutToken? hfound]
    exact Reaches.refl c
  | case2 => exact reaches_skipWhile _ _
  | case3 => grind
  | case4 => grind
  | case5 => grind
  | case6 => exact reaches_skipWhile _ _

theorem reaches_of_gap {e : Expected} {g : Gap} (h : gap p e c = g) : c.Reaches g.place :=
  h ▸ reaches_gapFrom p e c.rest.length c

theorem reaches_of_operandAt? {closing : Bool} (h : operandAt? p closing c = some c') : c.Reaches c' := by
  rw [operandAt?] at h
  split at h
  · next hgap => exact Option.some.inj h ▸ reaches_of_gap hgap
  · cases h

theorem reaches_of_onward? (h : onward? p c = some c') : c.Reaches c' := by
  rw [onward?] at h
  split at h
  · next hgap => exact Option.some.inj h ▸ reaches_of_gap hgap
  · cases h

theorem reaches_of_onwardString? (h : onwardString? p c = some c') : c.Reaches c' := by
  rw [onwardString?] at h
  split at h
  · next hgap => exact Option.some.inj h ▸ reaches_of_gap hgap
  · cases h

/-! ## Words and marks -/

theorem reaches_of_keyword? {expected : String} (h : keyword? expected c = some c') : c.Reaches c' := by
  rw [keyword?] at h
  split at h
  · exact Option.some.inj h ▸ reaches_drop _ c
  · cases h

theorem reaches_of_mark? {expected : String} (h : mark? expected c = some c') : c.Reaches c' :=
  reaches_of_accept? h

theorem reaches_of_markBare? {expected : String} (h : markBare? expected c = some c') : c.Reaches c' := by
  obtain ⟨after, hafter, h⟩ := bind_eq_some_iff.mp h
  split at h
  · cases h
  · exact Option.some.inj h ▸ reaches_of_accept? hafter

theorem reaches_of_equals? (h : equals? c = some c') : c.Reaches c' := reaches_of_markBare? h

theorem reaches_of_colon? (h : colon? c = some c') : c.Reaches c' := reaches_of_markBare? h

theorem reaches_of_name? (h : name? c = some c') : c.Reaches c' := by
  rw [name?] at h
  split at h
  · cases h
  · exact Option.some.inj h ▸ reaches_drop _ c

theorem reaches_of_arithmeticOperator? {strength : Nat} (h : arithmeticOperator? c = some (strength, c')) :
    c.Reaches c' := by
  rw [arithmeticOperator?] at h
  split at h
  · obtain ⟨after, hafter, heq⟩ := map_eq_some_iff.mp h
    exact (Prod.mk.inj heq).2 ▸ reaches_of_markBare? hafter
  · cases h

theorem reaches_of_findSome? {marks : List String} (h : (marks.findSome? fun text => c.accept? text) = some c') :
    c.Reaches c' := by
  obtain ⟨text, -, htext⟩ := List.exists_of_findSome?_eq_some h
  exact reaches_of_accept? htext

theorem reaches_of_augmentedMark? (h : augmentedMark? c = some c') : c.Reaches c' := reaches_of_findSome? h

theorem reaches_of_comparisonMark? (h : comparisonMark? c = some c') : c.Reaches c' := by
  rw [comparisonMark?] at h
  split at h
  · cases h
  · exact reaches_of_findSome? h

theorem reaches_of_or {first second : Option Cursor} (hfirst : first = some c' → c.Reaches c')
    (hsecond : second = some c' → c.Reaches c') (h : first.or second = some c') : c.Reaches c' := by
  rcases or_eq_some_iff.mp h with h | ⟨-, h⟩
  · exact hfirst h
  · exact hsecond h

theorem reaches_of_markAhead? {expected : String} (h : (onward? p c).bind (mark? expected) = some c') :
    c.Reaches c' := by
  obtain ⟨next, hnext, h⟩ := bind_eq_some_iff.mp h
  exact (reaches_of_onward? hnext).trans (reaches_of_mark? h)

theorem reaches_of_keywordAhead? {expected : String} (h : (onward? p c).bind (keyword? expected) = some c') :
    c.Reaches c' := by
  obtain ⟨next, hnext, h⟩ := bind_eq_some_iff.mp h
  exact (reaches_of_onward? hnext).trans (reaches_of_keyword? h)

theorem reaches_of_equalsAhead? (h : (onward? p c).bind equals? = some c') : c.Reaches c' := by
  obtain ⟨next, hnext, h⟩ := bind_eq_some_iff.mp h
  exact (reaches_of_onward? hnext).trans (reaches_of_equals? h)

/-! ## Nodes -/

/-- A construct that any children may have over all that is laid. -/
theorem laid_over {construct : String} (hc : isOpen construct = true) (h : LaidOut a ts b) :
    LaidOut a [nodeOver construct a b ts] b := laid_nodeOver h.toLaid (.of_isOpen hc h.role)

theorem laid_leaf {construct : String} (hc : standsAlone construct = true) (h : a.Reaches b) :
    LaidOut a [nodeOver construct a b []] b := laid_nodeOver (.nil h) (.of_standsAlone hc)

/-- A tree that plays a part is laid as well. -/
theorem laid_withRole {role : String} (h : LaidOut a [t] b) : Laid Regular a [t.withRole role] b := by
  obtain ⟨construct, named, role', span, children⟩ := t
  obtain ⟨⟨horder, hregular⟩, hchildren⟩ :=
    GrammarTree.wellNested_node.mp (List.forall_mem_singleton.mp h.wellNested)
  exact ⟨h.reaches, h.inOrder,
    List.forall_mem_singleton.mpr (GrammarTree.wellNested_node.mpr ⟨⟨horder, hregular.withRole role⟩, hchildren⟩)⟩

theorem laid_identifier? (h : identifier? c = some (t, c')) : LaidOut c [t] c' := by
  obtain ⟨after, hafter, heq⟩ := map_eq_some_iff.mp h
  obtain ⟨rfl, rfl⟩ := Prod.mk.inj heq
  exact laid_leaf (by decide) (reaches_of_name? hafter)

theorem laid_identifierAhead? (h : (onward? p c).bind identifier? = some (t, c')) : LaidOut c [t] c' := by
  obtain ⟨next, hnext, h⟩ := bind_eq_some_iff.mp h
  exact (laid_identifier? h).behind (reaches_of_onward? hnext)

theorem construct_of_identifier? (h : identifier? c = some (t, c')) : t.construct = "identifier" := by
  obtain ⟨after, -, heq⟩ := map_eq_some_iff.mp h
  cases heq
  rfl

theorem construct_of_identifierAhead? (h : (onward? p c).bind identifier? = some (t, c')) :
    t.construct = "identifier" := by
  obtain ⟨next, -, h⟩ := bind_eq_some_iff.mp h
  exact construct_of_identifier? h

/-- A construct whose name comes first, and all that is laid behind the name. -/
theorem laid_named {construct : String} (hc : isNamedConstruct construct = true) {name : GrammarTree}
    (hname : LaidOut a [name] b) (hidentifier : name.construct = "identifier") (hts : LaidOut b ts c) :
    LaidOut a [nodeOver construct a c (name.withRole "name" :: ts)] c := by
  obtain ⟨hbare, hspoken, hplain⟩ := standsApart_of_isNamedConstruct hc
  have hfront : Laid Regular a [name.withRole "name"] b := laid_withRole hname
  have hlaid := hfront.cons hts.toLaid
  refine laid_nodeOver hlaid ⟨rfl, hspoken, fun h => ?_, fun _ => ⟨_, ts, rfl, ?_, ?_, hts.role⟩,
    fun h => absurd h hplain, fun h => ?_⟩
  · exact absurd h (Bool.eq_false_iff.mp hbare)
  · exact GrammarTree.role_withRole "name" name
  · rw [GrammarTree.construct_withRole, hidentifier]
  · exact absurd h (Bool.eq_false_iff.mp (isOpen_eq_false_of_isNamedConstruct hc))

theorem lays_identifier? : Lays fun _ c => identifier? c := fun _ _ _ _ h => laid_identifier? h

/-! ## Numbers -/

theorem digitsLength_le (isDigit : Char → Bool) (s : List Char) : digitsLength isDigit s ≤ s.length := by
  fun_induction digitsLength isDigit s with grind

theorem basedLength_le (isDigit : Char → Bool) (s : List Char) : basedLength isDigit s ≤ s.length := by
  fun_induction basedLength isDigit s with grind

theorem letterLength_le (letters s : List Char) : letterLength letters s ≤ s.length := by
  fun_cases letterLength letters s with grind

grind_pattern digitsLength_le => digitsLength isDigit s
grind_pattern basedLength_le => basedLength isDigit s
grind_pattern letterLength_le => letterLength letters s

theorem exponentLength_le (s : List Char) : exponentLength s ≤ s.length := by
  grind [exponentLength]

grind_pattern exponentLength_le => exponentLength s

theorem basedNumberLength_le (s : List Char) : basedNumberLength s ≤ s.length := by
  rw [basedNumberLength.eq_def]
  split
  · grind
  · exact Nat.zero_le _

theorem wholeLength_le (s : List Char) : wholeLength s ≤ s.length := by
  grind [wholeLength]

theorem fractionalLength_le (s : List Char) : fractionalLength s ≤ s.length := by
  grind [fractionalLength]

theorem laid_number? (h : number? c = some (t, c')) : LaidOut c [t] c' := by
  have hnode {construct : String} (hc : standsAlone construct = true) {n : Nat} (hn : n ≤ c.rest.length) :
      LaidOut c [.named construct ⟨c.offset, c.offset + n⟩ []] (c.drop n) := by
    have hleaf := laid_leaf hc (reaches_drop n c)
    rwa [nodeOver, show (c.drop n).offset = c.offset + n by rw [drop, Nat.min_eq_left hn]] at hleaf
  rw [number?] at h
  dsimp only at h
  split at h
  · obtain ⟨rfl, rfl⟩ := Prod.mk.inj (Option.some.inj h)
    exact hnode (by decide) (fractionalLength_le _)
  · split at h
    · cases h
    · obtain ⟨rfl, rfl⟩ := Prod.mk.inj (Option.some.inj h)
      exact hnode (by decide) (Nat.max_le.mpr ⟨basedNumberLength_le _, wholeLength_le _⟩)

/-! ## String literals -/

theorem reaches_of_quoting? {kind : Quoting} (h : quoting? c = some (kind, c')) : c.Reaches c' := by
  rw [quoting?] at h
  dsimp only at h
  split at h
  · split at h
    · exact (Prod.mk.inj (Option.some.inj h)).2 ▸ reaches_drop _ c
    · cases h
  · cases h

section

variable {interpolation : Cursor → Reading} (hi : ∀ ⦃c t c'⦄, interpolation c = some (t, c') → LaidOut c [t] c')

include hi

theorem laid_stringBody {kind : Quoting} {turns : Nat} {started : Bool}
    (h : stringBody kind interpolation turns started c = some (ts, c')) : LaidOut c ts c' := by
  induction turns generalizing started c ts with
  | zero => cases h
  | succ turns ih =>
    have hgo {started : Bool} {n : Nat} (h : stringBody kind interpolation turns started (c.drop n) = some (ts, c')) :
        LaidOut c ts c' := (ih h).behind (reaches_drop n c)
    have hend {n : Nat} (h : some ([], c.drop n) = some (ts, c')) : LaidOut c ts c' := by
      obtain ⟨rfl, rfl⟩ := Prod.mk.inj (Option.some.inj h)
      exact .nil (reaches_drop n c)
    rw [stringBody.eq_def] at h
    split at h
    · next first rest heq _ =>
      cases heq
      dsimp only at h
      split at h
      · cases h
      · split at h
        · split at h
          · exact hgo h
          · split at h
            · obtain ⟨⟨t, after⟩, ht, h⟩ := bind_eq_some_iff.mp h
              obtain ⟨⟨more, last⟩, hmore, h⟩ := bind_eq_some_iff.mp h
              obtain ⟨rfl, rfl⟩ := Prod.mk.inj (Option.some.inj h)
              exact (hi ht).cons (ih hmore)
            · cases h
        · split at h
          · split at h
            · exact hgo h
            · split at h <;> exact hgo h
          · split at h
            · split at h
              · exact hend h
              · split at h
                · split at h
                  · split at h
                    · exact hend h
                    · exact hgo h
                  · exact hgo h
                · cases h
            · split at h
              · cases h
              · exact hgo h
    · cases h

theorem laid_formatSpecifier {turns : Nat} (h : formatSpecifier interpolation turns c = some (ts, c')) :
    LaidOut c ts c' := by
  fun_induction formatSpecifier interpolation turns c generalizing ts with
  | case1 =>
    obtain ⟨rfl, rfl⟩ := Prod.mk.inj (Option.some.inj h)
    exact .nil (.refl _)
  | case2 c turns rest hrest hne ih =>
    obtain ⟨⟨t, after⟩, ht, h⟩ := bind_eq_some_iff.mp h
    obtain ⟨⟨more, last⟩, hmore, h⟩ := bind_eq_some_iff.mp h
    obtain ⟨rfl, rfl⟩ := Prod.mk.inj (Option.some.inj h)
    exact (hi ht).cons (ih _ hmore)
  | case3 _ _ _ _ _ _ _ ih => exact (ih h).behind (reaches_drop 1 _)
  | case4 => cases h

theorem laid_stringLiteral (h : stringLiteral interpolation c = some (t, c')) : LaidOut c [t] c' := by
  obtain ⟨⟨kind, inside⟩, hquoting, h⟩ := bind_eq_some_iff.mp h
  obtain ⟨⟨pieces, last⟩, hpieces, h⟩ := bind_eq_some_iff.mp h
  obtain ⟨rfl, rfl⟩ := Prod.mk.inj (Option.some.inj h)
  have hstart : LaidOut c [nodeOver "string_start" c inside []] inside :=
    laid_leaf (by decide) (reaches_of_quoting? hquoting)
  exact laid_over (by decide) (hstart.cons (laid_stringBody hi hpieces))

end

/-! ## Targets and several expressions -/

/-- Trees that stand where others do and play the same parts, and are well nested when those are. -/
structure Restates (ts us : List GrammarTree) : Prop where
  spans : us.map GrammarTree.span = ts.map GrammarTree.span
  roles : us.map GrammarTree.role = ts.map GrammarTree.role
  wellNested : (∀ t ∈ ts, t.WellNested Regular) → ∀ u ∈ us, u.WellNested Regular

theorem Restates.refl (ts : List GrammarTree) : Restates ts ts := ⟨rfl, rfl, id⟩

/-- They play no part when those do not. -/
theorem Restates.role (h : Restates ts us) (hts : ∀ t ∈ ts, t.role = "") : ∀ u ∈ us, u.role = "" := by
  rw [← List.forall_mem_map (f := GrammarTree.role) (P := (· = "")), h.roles, List.forall_mem_map]
  exact hts

theorem Restates.laid (h : Restates ts us) (hts : LaidOut a ts b) : LaidOut a us b :=
  ⟨⟨hts.reaches, h.spans ▸ hts.inOrder, h.wellNested hts.wellNested⟩, h.role hts.role⟩

/-- The same node over other children in the same places. -/
theorem Restates.node (h : Restates ts us) {construct pattern role : String} {named : Bool} {span : Span}
    (hopen : isOpen construct = true) (hc : isOpen pattern = true) :
    Restates [.node construct named role span ts] [.node pattern named role span us] where
  spans := rfl
  roles := rfl
  wellNested hnested := by
    obtain ⟨⟨horder, hregular⟩, hchildren⟩ := GrammarTree.wellNested_node.mp (List.forall_mem_singleton.mp hnested)
    obtain rfl : named = true := hregular.named
    have hroles := h.role (hregular.others hopen)
    exact List.forall_mem_singleton.mpr (GrammarTree.wellNested_node.mpr
      ⟨⟨h.spans ▸ horder, .of_isOpen hc hroles⟩, h.wellNested hchildren⟩)

theorem restates_targetsOf?_of_forall (ih : ∀ t ∈ ts, ∀ ⦃t'⦄, targetOf? t = some t' → Restates [t] [t'])
    (h : targetsOf? ts = some us) : Restates ts us := by
  induction ts generalizing us with
  | nil =>
    obtain rfl := Option.some.inj (h.symm.trans (by rw [targetsOf?]))
    exact .refl []
  | cons t ts ihs =>
    rw [targetsOf?] at h
    obtain ⟨t', ht', h⟩ := bind_eq_some_iff.mp h
    obtain ⟨us', hus', h⟩ := bind_eq_some_iff.mp h
    obtain rfl := Option.some.inj h
    obtain ⟨iht, ihts⟩ := List.forall_mem_cons.mp ih
    have hfirst := iht ht'
    have hmore := ihs ihts hus'
    refine ⟨?_, ?_, fun hnested => ?_⟩
    · rw [List.map_cons, List.map_cons, hmore.spans, (List.cons.inj hfirst.spans).1]
    · rw [List.map_cons, List.map_cons, hmore.roles, (List.cons.inj hfirst.roles).1]
    · obtain ⟨ht, hts⟩ := List.forall_mem_cons.mp hnested
      exact List.forall_mem_cons.mpr
        ⟨List.forall_mem_singleton.mp (hfirst.wellNested (List.forall_mem_singleton.mpr ht)), hmore.wellNested hts⟩

/-- **A target stands where the expression does**, and so do the targets inside it. -/
theorem restates_targetOf? {t' : GrammarTree} (h : targetOf? t = some t') : Restates [t] [t'] := by
  induction t using GrammarTree.induct generalizing t' with
  | node construct named role span children ih =>
    have hall {pattern : String} (hopen : isOpen construct = true) (hc : isOpen pattern = true)
        (h : (targetsOf? children).map (.node pattern named role span ·) = some t') :
        Restates [.node construct named role span children] [t'] := by
      obtain ⟨targets, htargets, rfl⟩ := map_eq_some_iff.mp h
      exact (restates_targetsOf?_of_forall (fun t ht _ => ih t ht) htargets).node hopen hc
    rw [targetOf?.eq_def] at h
    dsimp only at h
    split at h
    · exact Option.some.inj h ▸ .refl _
    · exact Option.some.inj h ▸ .refl _
    · exact Option.some.inj h ▸ .refl _
    · exact hall (by decide) (by decide) h
    · exact hall (by decide) (by decide) h
    · exact hall (by decide) (by decide) h
    · split at h
      · exact Option.some.inj h ▸ (Restates.refl children).node (by decide) (by decide)
      · cases h
    · cases h

theorem laid_targetsOf? (h : targetsOf? ts = some us) (hts : LaidOut a ts b) :
    LaidOut a us b :=
  (restates_targetsOf?_of_forall (fun _ _ _ => restates_targetOf?) h).laid hts

theorem laid_targetOf? {t' : GrammarTree} (h : targetOf? t = some t') (ht : LaidOut a [t] b) :
    LaidOut a [t'] b := (restates_targetOf? h).laid ht

theorem laid_node {s : Several} (hs : LaidOut c s.trees s.last) {construct : String}
    (hc : isOpen construct = true) (h : s.node construct c = some t) : LaidOut c [t] s.last := by
  rw [Several.node] at h
  split at h
  · next only honly _ => exact Option.some.inj h ▸ honly ▸ hs
  · cases h
  · exact Option.some.inj h ▸ laid_over hc hs

theorem laid_target? {s : Several} (hs : LaidOut c s.trees s.last) (h : s.target? c = some t) :
    LaidOut c [t] s.last := by
  obtain ⟨targets, htargets, h⟩ := bind_eq_some_iff.mp h
  exact laid_node (s := { s with trees := targets }) (laid_targetsOf? htargets hs) (by decide) h

theorem several_eq (read : ExpressionReader) (p : Place) (turns : Nat) (c : Cursor) :
    several read p turns c = (read p c).bind fun (first, after) =>
      match turns, (onward? p after).bind (mark? ",") with
      | turns + 1, some behind =>
        match (onwardString? p behind).bind (several read p turns) with
        | some more => some ⟨first :: more.trees, true, more.trailing, more.last⟩
        | none => some ⟨[first], true, true, behind⟩
      | _, _ => some ⟨[first], false, false, after⟩ := by
  cases turns with
  | zero => rfl
  | succ turns =>
    delta several
    refine congrArg (Option.bind (read p c)) (funext fun (first, after) => ?_)
    dsimp only
    cases (onward? p after).bind (mark? ",") <;> rfl

section

variable {read : ExpressionReader} (hread : Lays read)

include hread

theorem laid_several {turns : Nat} {s : Several} (h : several read p turns c = some s) :
    LaidOut c s.trees s.last := by
  induction turns generalizing c s with
  | zero =>
    obtain ⟨⟨t, after⟩, ht, h⟩ := bind_eq_some_iff.mp h
    exact Option.some.inj h ▸ hread ht
  | succ turns ih =>
    rw [several_eq] at h
    obtain ⟨⟨t, after⟩, ht, h⟩ := bind_eq_some_iff.mp h
    dsimp only at h
    split at h
    · next heq hcomma =>
      cases heq
      split at h
      · next hmore =>
        obtain ⟨next, hnext, hmore⟩ := bind_eq_some_iff.mp hmore
        exact Option.some.inj h ▸ (hread ht).cons
          ((ih hmore).behind ((reaches_of_markAhead? hcomma).trans (reaches_of_onwardString? hnext)))
      · exact Option.some.inj h ▸ (hread ht).upTo (reaches_of_markAhead? hcomma)
    · exact Option.some.inj h ▸ hread ht

theorem laid_operand (h : operand read p c = some (t, c')) : LaidOut c [t] c' := by
  obtain ⟨start, hstart, h⟩ := bind_eq_some_iff.mp h
  exact (hread h).behind (reaches_of_operandAt? hstart)

end

/-! ## Types -/

theorem typeArguments_eq (read : ExpressionReader) (p : Place) (turns : Nat) (c : Cursor) :
    typeArguments read p turns c = (read p.bracketed c).bind fun (first, after) =>
      (onward? p.bracketed after).bind fun next =>
        match mark? "]" next, turns with
        | some last, _ => some ([first], last)
        | none, 0 => none
        | none, turns + 1 => (mark? "," next).bind fun behind => (operandAt? p true behind).bind fun start =>
          match mark? "]" start with
          | some last => some ([first], last)
          | none => (typeArguments read p turns start).bind fun (more, last) => some (first :: more, last) := by
  delta typeArguments
  cases turns <;>
  · refine congrArg (Option.bind (read p.bracketed c)) (funext fun (first, after) => ?_)
    refine congrArg (Option.bind (onward? p.bracketed after)) (funext fun next => ?_)
    cases mark? "]" next <;> rfl

section

variable {read : ExpressionReader} (hread : Lays read)

include hread

theorem laid_typeArguments {p : Place} {turns : Nat} {c c' : Cursor} {ts : List GrammarTree}
    (h : typeArguments read p turns c = some (ts, c')) : LaidOut c ts c' := by
  rw [typeArguments_eq] at h
  obtain ⟨⟨t, after⟩, ht, h⟩ := bind_eq_some_iff.mp h
  obtain ⟨next, hnext, h⟩ := bind_eq_some_iff.mp h
  have hnext := reaches_of_onward? hnext
  dsimp only at h
  split at h
  · cases h
    exact (hread ht).upTo (hnext.trans (reaches_of_mark? ‹_›))
  · cases h
  · obtain ⟨behind, hbehind, h⟩ := bind_eq_some_iff.mp h
    obtain ⟨start, hstart, h⟩ := bind_eq_some_iff.mp h
    have hstart := hnext.trans ((reaches_of_mark? hbehind).trans (reaches_of_operandAt? hstart))
    split at h
    · next hlast =>
      cases h
      exact (hread ht).upTo (hstart.trans (reaches_of_mark? hlast))
    · obtain ⟨⟨more, last⟩, hmore, h⟩ := bind_eq_some_iff.mp h
      cases h
      exact (hread ht).cons ((laid_typeArguments hmore).behind hstart)

theorem lays_typeParameter : Lays (typeParameter read) := by
  intro p c t c' h
  obtain ⟨inside, hinside, h⟩ := bind_eq_some_iff.mp h
  obtain ⟨start, hstart, h⟩ := bind_eq_some_iff.mp h
  obtain ⟨⟨types, last⟩, htypes, h⟩ := bind_eq_some_iff.mp h
  cases h
  exact laid_over (by decide)
    ((laid_typeArguments hread htypes).behind ((reaches_of_mark? hinside).trans (reaches_of_operandAt? hstart)))

theorem laid_typeRest {bounded : Bool} {turns : Nat} {type : GrammarTree} {after : Cursor}
    (htype : LaidOut c [type] after) (h : typeRest read bounded p turns c type after = some (t, c')) :
    LaidOut c [t] c' := by
  induction turns generalizing type after with
  | zero =>
    cases h
    exact htype
  | succ turns ih =>
    have hwrapped {construct : String} (hc : isOpen construct = true) {right : GrammarTree} {last : Cursor}
        (hright : LaidOut after [right] last)
        (h : typeRest read bounded p turns c
          (nodeOver "type" c last [nodeOver construct c last [type, right]]) last = some (t, c')) :
        LaidOut c [t] c' :=
      ih (laid_over (by decide) (laid_over hc (htype.cons hright))) h
    rw [typeRest.eq_def] at h
    split at h
    · next next heq hnext =>
      cases heq
      have hbehind : after.Reaches (next.drop 1) := (reaches_of_onward? hnext).trans (reaches_drop 1 next)
      dsimp only at h
      split at h
      · obtain ⟨⟨right, last⟩, hright, h⟩ := bind_eq_some_iff.mp h
        exact hwrapped (by decide) ((laid_operand hread hright).behind hbehind) h
      · split at h
        · obtain ⟨⟨name, last⟩, hname, h⟩ := bind_eq_some_iff.mp h
          exact hwrapped (by decide) ((laid_identifierAhead? hname).behind hbehind) h
        · split at h
          · split at h
            · next hright => exact hwrapped (by decide) ((laid_operand hread hright).behind hbehind) h
            · cases h
              exact htype
          · cases h
            exact htype
    · cases h
      exact htype

theorem laid_typeContent {typeReader : ExpressionReader} (htype : Lays typeReader)
    (h : typeContent read typeReader p c = some (t, c')) : LaidOut c [t] c' := by
  rw [typeContent] at h
  split at h
  · next behind hstars =>
    obtain ⟨⟨name, last⟩, hname, h⟩ := bind_eq_some_iff.mp h
    cases h
    exact laid_over (by decide)
      ((laid_operand lays_identifier? (p := p) hname).behind (reaches_of_or reaches_of_mark? reaches_of_mark? hstars))
  · dsimp only at h
    split at h
    · next hgeneric =>
      obtain ⟨⟨name, after⟩, hname, hgeneric⟩ := bind_eq_some_iff.mp hgeneric
      obtain ⟨bracket, hbracket, hgeneric⟩ := bind_eq_some_iff.mp hgeneric
      obtain ⟨⟨parameter, last⟩, hparameter, hgeneric⟩ := bind_eq_some_iff.mp hgeneric
      cases hgeneric
      cases h
      exact laid_over (by decide) ((laid_identifier? hname).cons
        ((lays_typeParameter htype hparameter).behind (reaches_of_onward? hbracket)))
    · cases h
    · exact hread h

theorem lays_typeReaderFrom {bounded : Bool} {turns : Nat} : Lays (typeReaderFrom read bounded turns) := by
  induction turns generalizing bounded with
  | zero => exact fun _ _ _ _ h => nomatch h
  | succ turns ih =>
    intro p c t c' h
    obtain ⟨⟨content, after⟩, hcontent, h⟩ := bind_eq_some_iff.mp h
    exact laid_typeRest ih (laid_over (by decide) (laid_typeContent hread ih hcontent)) h

theorem lays_typeReader {bounded : Bool} : Lays (typeReader read bounded) := fun _ _ _ _ h =>
  lays_typeReaderFrom hread h

end

/-! ## Parameters -/

theorem parameterList_eq (read : ExpressionReader) (typed : Bool) (p : Place) (turns : Nat) (c : Cursor) :
    parameterList read typed p turns c = (parameter read typed p c).bind fun (first, after) =>
      match turns, (onward? p after).bind (mark? ",") with
      | turns + 1, some behind =>
        match (onward? p behind).bind (parameterList read typed p turns) with
        | some (more, last) => some (first :: more, last)
        | none => some ([first], behind)
      | _, _ => some ([first], after) := by
  delta parameterList
  cases turns <;>
  · refine congrArg (Option.bind (parameter read typed p c)) (funext fun (first, after) => ?_)
    dsimp only
    cases (onward? p after).bind (mark? ",") <;> rfl

section

variable {read : ExpressionReader} (hread : Lays read)

include hread

theorem laid_defaultValue? (h : defaultValue? read p c = some (t, c')) : LaidOut c [t] c' := by
  obtain ⟨behind, hbehind, h⟩ := bind_eq_some_iff.mp h
  exact (laid_operand hread h).behind (reaches_of_equalsAhead? hbehind)

/-- The type behind a colon, where types may stand. -/
theorem laid_colonType {typed : Bool}
    (h : (if typed then (do
        let behind ← (onward? p c).bind (mark? ":")
        (operandAt? p false behind).bind (typeReader read true p)) else none : Reading) = some (t, c')) :
    LaidOut c [t] c' := by
  split at h
  · obtain ⟨behind, hbehind, h⟩ := bind_eq_some_iff.mp h
    exact (laid_operand (lays_typeReader hread) h).behind (reaches_of_markAhead? hbehind)
  · cases h

theorem laid_plainParameter {typed : Bool} {name : GrammarTree} {after : Cursor}
    (hname : LaidOut c [name] after) (h : plainParameter read typed p c name after = some (t, c')) :
    LaidOut c [t] c' := by
  rw [plainParameter] at h
  split at h
  · next htype =>
    have htype := laid_colonType hread htype
    split at h
    · next hvalue =>
      cases h
      exact laid_over (by decide) (hname.cons (htype.cons (laid_defaultValue? hread hvalue)))
    · cases h
      exact laid_over (by decide) (hname.cons htype)
  · split at h
    · next hvalue =>
      cases h
      exact laid_over (by decide) (hname.cons (laid_defaultValue? hread hvalue))
    · cases h
      exact hname

theorem laid_starredParameter {typed : Bool} {pattern : String} (hc : isOpen pattern = true) {stars : Nat}
    (h : starredParameter read typed p c pattern stars = some (t, c')) : LaidOut c [t] c' := by
  obtain ⟨⟨name, after⟩, hname, h⟩ := bind_eq_some_iff.mp h
  have hstarred : LaidOut c [nodeOver pattern c after [name]] after :=
    laid_over hc ((laid_identifierAhead? hname).behind (reaches_drop stars c))
  dsimp only at h
  split at h
  · next htype =>
    cases h
    exact laid_over (by decide) (hstarred.cons (laid_colonType hread htype))
  · cases h
    exact hstarred

theorem laid_parameter {typed : Bool} (h : parameter read typed p c = some (t, c')) : LaidOut c [t] c' := by
  rw [parameter] at h
  split at h
  · exact laid_starredParameter hread (by decide) h
  · split at h
    · rcases or_eq_some_iff.mp h with h | ⟨-, h⟩
      · exact laid_starredParameter hread (by decide) h
      · cases h
        exact laid_leaf (by decide) (reaches_drop 1 c)
    · split at h
      · cases h
        exact laid_leaf (by decide) (reaches_drop 1 c)
      · split at h
        · obtain ⟨⟨tuple, after⟩, htuple, h⟩ := bind_eq_some_iff.mp h
          obtain ⟨target, htarget, h⟩ := bind_eq_some_iff.mp h
          exact laid_plainParameter hread (laid_targetOf? htarget (hread htuple)) h
        · obtain ⟨⟨name, after⟩, hname, h⟩ := bind_eq_some_iff.mp h
          exact laid_plainParameter hread (laid_identifier? hname) h

theorem laid_parameterList {typed : Bool} {turns : Nat} (h : parameterList read typed p turns c = some (ts, c')) :
    LaidOut c ts c' := by
  induction turns generalizing c ts with
  | zero =>
    obtain ⟨⟨t, after⟩, ht, h⟩ := bind_eq_some_iff.mp h
    cases h
    exact laid_parameter hread ht
  | succ turns ih =>
    rw [parameterList_eq] at h
    obtain ⟨⟨t, after⟩, ht, h⟩ := bind_eq_some_iff.mp h
    have ht := laid_parameter hread ht
    dsimp only at h
    split at h
    · next heq hcomma =>
      cases heq
      have hcomma := reaches_of_markAhead? hcomma
      split at h
      · next hmore =>
        cases h
        obtain ⟨next, hnext, hmore⟩ := bind_eq_some_iff.mp hmore
        exact ht.cons ((ih hmore).behind (hcomma.trans (reaches_of_onward? hnext)))
      · cases h
        exact ht.upTo hcomma
    · cases h
      exact ht

end

/-! ## Readers that nest -/

/-- **Readers that lay what they read.** -/
structure Readers.Lay (r : Readers) : Prop where
  expression : ∀ tier, Lays (r.expression tier)
  arithmetic : ∀ strength, Lays (r.arithmetic strength)

section

variable {r : Readers} (hr : r.Lay)

include hr

theorem Readers.Lay.whole : Lays r.whole := hr.expression 0

theorem Readers.Lay.laid_list {s : Several} (h : r.list p c = some s) : LaidOut c s.trees s.last :=
  laid_several hr.whole h

theorem Readers.Lay.listNode : Lays r.listNode := by
  intro p c t c' h
  obtain ⟨s, hs, h⟩ := bind_eq_some_iff.mp h
  obtain ⟨tree, htree, h⟩ := bind_eq_some_iff.mp h
  cases h
  exact laid_node (hr.laid_list hs) (by decide) htree

/-! ## Words in front of expressions -/

theorem lays_yieldExpression : Lays (yieldExpression r) := by
  intro p c t c' h
  obtain ⟨behind, hbehind, h⟩ := bind_eq_some_iff.mp h
  have hbehind := reaches_of_keyword? hbehind
  dsimp only at h
  split at h
  · next hfrom =>
    obtain ⟨next, hnext, hfrom⟩ := bind_eq_some_iff.mp hfrom
    obtain ⟨⟨value, last⟩, hvalue, h⟩ := bind_eq_some_iff.mp h
    cases h
    exact laid_over (by decide) ((laid_operand hr.whole hvalue).behind
      (hbehind.trans ((reaches_of_onwardString? hnext).trans (reaches_of_keyword? hfrom))))
  · split at h
    · next hvalue =>
      cases h
      obtain ⟨next, hnext, hvalue⟩ := bind_eq_some_iff.mp hvalue
      exact laid_over (by decide) ((hr.listNode hvalue).behind (hbehind.trans (reaches_of_onwardString? hnext)))
    · cases h
      exact laid_leaf (by decide) hbehind

theorem lays_lambdaExpression : Lays (lambdaExpression r) := by
  intro p c t c' h
  obtain ⟨behind, hbehind, h⟩ := bind_eq_some_iff.mp h
  obtain ⟨next, hnext, h⟩ := bind_eq_some_iff.mp h
  have hnext : c.Reaches next := (reaches_of_keyword? hbehind).trans (reaches_of_onward? hnext)
  dsimp only at h
  split at h
  · next hcolon =>
    obtain ⟨⟨body, last⟩, hbody, h⟩ := bind_eq_some_iff.mp h
    cases h
    exact laid_over (by decide) ((laid_operand hr.whole hbody).behind (hnext.trans (reaches_of_mark? hcolon)))
  · obtain ⟨⟨parameters, after⟩, hparameters, h⟩ := bind_eq_some_iff.mp h
    obtain ⟨colon, hcolon, h⟩ := bind_eq_some_iff.mp h
    obtain ⟨⟨body, last⟩, hbody, h⟩ := bind_eq_some_iff.mp h
    cases h
    have hbody := (laid_operand hr.whole hbody).behind (reaches_of_markAhead? hcolon)
    exact laid_over (by decide)
      (((laid_over (by decide) (laid_parameterList hr.whole hparameters)).cons hbody).behind hnext)

theorem lays_namedExpression : Lays (namedExpression r) := by
  intro p c t c' h
  obtain ⟨⟨name, after⟩, hname, h⟩ := bind_eq_some_iff.mp h
  obtain ⟨behind, hbehind, h⟩ := bind_eq_some_iff.mp h
  obtain ⟨⟨value, last⟩, hvalue, h⟩ := bind_eq_some_iff.mp h
  cases h
  exact laid_over (by decide) ((laid_identifier? hname).cons
    ((laid_operand (hr.expression 1) hvalue).behind (reaches_of_markAhead? hbehind)))

end

/-! ## Items in brackets -/

theorem reaches_of_closing? {bracket : String} (h : closing? p bracket c = some c') : c.Reaches c' :=
  reaches_of_markAhead? h

/-- The items behind one are laid up to the closing bracket. -/
theorem laid_itemsBehind {item : ExpressionReader} (hitem : Lays item) {bracket : String} {p : Place} {turns : Nat}
    {comma : Bool} {c c' : Cursor} {ts : List GrammarTree}
    (h : itemsBehind item bracket p turns c = some (ts, comma, c')) : LaidOut c ts c' := by
  rw [itemsBehind.eq_def] at h
  split at h
  · next hlast =>
    cases h
    exact .nil (reaches_of_closing? hlast)
  · cases h
  · obtain ⟨behind, hbehind, h⟩ := bind_eq_some_iff.mp h
    obtain ⟨next, hnext, h⟩ := bind_eq_some_iff.mp h
    have hnext := (reaches_of_markAhead? hbehind).trans (reaches_of_operandAt? hnext)
    dsimp only at h
    split at h
    · next hlast =>
      cases h
      exact .nil (hnext.trans (reaches_of_mark? hlast))
    · obtain ⟨⟨first, behind⟩, hfirst, h⟩ := bind_eq_some_iff.mp h
      obtain ⟨⟨more, comma, last⟩, hmore, h⟩ := bind_eq_some_iff.mp h
      cases h
      exact ((hitem hfirst).cons (laid_itemsBehind hitem hmore)).behind hnext

section

variable {r : Readers} (hr : r.Lay)

include hr

theorem laid_unpacked {construct : String} (hc : isOpen construct = true) {stars : Nat}
    (h : unpacked r construct stars p c = some (t, c')) : LaidOut c [t] c' := by
  obtain ⟨⟨value, last⟩, hvalue, h⟩ := bind_eq_some_iff.mp h
  cases h
  exact laid_over hc ((laid_operand hr.whole hvalue).behind (reaches_drop stars c))

theorem lays_element : Lays (element r) := by
  intro p c t c' h
  rw [element] at h
  split at h
  · exact lays_yieldExpression hr h
  · split at h
    · exact laid_unpacked hr (by decide) h
    · exact hr.whole h

/-! ## Comprehensions -/

theorem lays_loopTarget : Lays (loopTarget r) := by
  intro p c t c' h
  obtain ⟨targets, htargets, h⟩ := bind_eq_some_iff.mp h
  obtain ⟨tree, htree, h⟩ := bind_eq_some_iff.mp h
  cases h
  exact laid_target? (laid_several (hr.arithmetic 100) htargets) htree

theorem lays_forClause : Lays (forClause r) := by
  intro p c t c' h
  have hloop {loop : Cursor} (hloop : c.Reaches loop)
      (h : (do
        let behind ← keyword? "for" loop
        let (target, after) ← operand (loopTarget r) p.inner behind
        let in_ ← (onward? p.inner after).bind (keyword? "in")
        let start ← operandAt? p false in_
        let values ← several (r.expression 1) p start.rest.length start
        pure (nodeOver "for_in_clause" c values.last (target :: values.trees), values.last)) = some (t, c')) :
      LaidOut c [t] c' := by
    obtain ⟨behind, hbehind, h⟩ := bind_eq_some_iff.mp h
    obtain ⟨⟨target, after⟩, htarget, h⟩ := bind_eq_some_iff.mp h
    obtain ⟨in_, hin, h⟩ := bind_eq_some_iff.mp h
    obtain ⟨start, hstart, h⟩ := bind_eq_some_iff.mp h
    obtain ⟨values, hvalues, h⟩ := bind_eq_some_iff.mp h
    cases h
    have hvalues := (laid_several (hr.expression 1) hvalues).behind
      ((reaches_of_keywordAhead? hin).trans (reaches_of_operandAt? hstart))
    exact laid_over (by decide) (((laid_operand (lays_loopTarget hr) htarget).cons hvalues).behind
      (hloop.trans (reaches_of_keyword? hbehind)))
  rw [forClause] at h
  split at h
  · next hasync =>
    obtain ⟨loop, hnext, h⟩ := bind_eq_some_iff.mp h
    exact hloop ((reaches_of_keyword? hasync).trans (reaches_of_onward? hnext)) h
  · exact hloop (.refl c) h

theorem lays_ifClause : Lays (ifClause r) := by
  intro p c t c' h
  obtain ⟨behind, hbehind, h⟩ := bind_eq_some_iff.mp h
  obtain ⟨⟨condition, last⟩, hcondition, h⟩ := bind_eq_some_iff.mp h
  cases h
  exact laid_over (by decide) ((laid_operand (hr.expression 1) hcondition).behind (reaches_of_keyword? hbehind))

theorem laid_moreClauses (p : Place) (turns : Nat) (c : Cursor) :
    LaidOut c (moreClauses r p turns c).1 (moreClauses r p turns c).2 := by
  induction turns generalizing c with
  | zero => exact .nil (.refl c)
  | succ turns ih =>
    rw [moreClauses.eq_def]
    split
    · next clause behind heq hclause =>
      cases heq
      obtain ⟨next, hnext, hclause⟩ := bind_eq_some_iff.mp hclause
      have hclause : LaidOut next [clause] behind := by
        rcases or_eq_some_iff.mp hclause with hclause | ⟨-, hclause⟩
        · exact lays_forClause hr hclause
        · exact lays_ifClause hr hclause
      exact (hclause.behind (reaches_of_onward? hnext)).cons (ih behind)
    · exact .nil (.refl c)

theorem laid_clausesUntil? {bracket : String} (h : clausesUntil? r bracket p c = some (ts, c')) :
    LaidOut c ts c' := by
  obtain ⟨next, hnext, h⟩ := bind_eq_some_iff.mp h
  obtain ⟨⟨first, behind⟩, hfirst, h⟩ := bind_eq_some_iff.mp h
  obtain ⟨last, hlast, h⟩ := bind_eq_some_iff.mp h
  cases h
  exact ((lays_forClause hr hfirst).cons ((laid_moreClauses hr _ _ behind).upTo (reaches_of_closing? hlast))).behind
    (reaches_of_onward? hnext)

/-! ## Brackets -/

theorem laid_bracketed {b : Bracketing} (hcomprehension : isOpen b.comprehension = true)
    (hsequence : isOpen b.sequence = true) {item : ExpressionReader} (hitem : Lays item)
    {first : GrammarTree} {after : Cursor} (hfirst : LaidOut c [first] after)
    (h : bracketed r b item p c first after = some (t, c')) : LaidOut c [t] c' := by
  rw [bracketed] at h
  split at h
  · next hclauses =>
    split at h
    · cases h
      exact laid_over hcomprehension (hfirst.cons (laid_clausesUntil? hr hclauses))
    · cases h
  · obtain ⟨⟨items, comma, last⟩, hitems, h⟩ := bind_eq_some_iff.mp h
    cases h
    refine laid_over ?_ (hfirst.cons (laid_itemsBehind hitem hitems))
    split
    · decide
    · exact hsequence

theorem lays_parenthesis : Lays (parenthesis r) := by
  intro p c t c' h
  obtain ⟨start, hstart, h⟩ := bind_eq_some_iff.mp h
  have hstart : c.Reaches start := (reaches_drop 1 c).trans (reaches_of_operandAt? hstart)
  dsimp only at h
  split at h
  · next hlast =>
    cases h
    exact laid_leaf (by decide) (hstart.trans (reaches_of_mark? hlast))
  · obtain ⟨⟨first, after⟩, hfirst, h⟩ := bind_eq_some_iff.mp h
    exact laid_bracketed hr (by decide) (by decide) (lays_element hr) ((lays_element hr hfirst).behind hstart) h

theorem lays_bracket : Lays (bracket r) := by
  intro p c t c' h
  obtain ⟨start, hstart, h⟩ := bind_eq_some_iff.mp h
  have hstart : c.Reaches start := (reaches_drop 1 c).trans (reaches_of_operandAt? hstart)
  dsimp only at h
  split at h
  · next hlast =>
    cases h
    exact laid_leaf (by decide) (hstart.trans (reaches_of_mark? hlast))
  · obtain ⟨⟨first, after⟩, hfirst, h⟩ := bind_eq_some_iff.mp h
    exact laid_bracketed hr (by decide) (by decide) (lays_element hr) ((lays_element hr hfirst).behind hstart) h

theorem laid_pairValue {key : GrammarTree} {after : Cursor} (hkey : LaidOut c [key] after)
    (h : pairValue r p c key after = some (t, c')) : LaidOut c [t] c' := by
  obtain ⟨colon, hcolon, h⟩ := bind_eq_some_iff.mp h
  obtain ⟨⟨value, last⟩, hvalue, h⟩ := bind_eq_some_iff.mp h
  cases h
  exact laid_over (by decide) (hkey.cons ((laid_operand hr.whole hvalue).behind (reaches_of_markAhead? hcolon)))

theorem lays_entry : Lays (entry r) := by
  intro p c t c' h
  rw [entry] at h
  split at h
  · exact laid_unpacked hr (by decide) h
  · obtain ⟨⟨key, after⟩, hkey, h⟩ := bind_eq_some_iff.mp h
    exact laid_pairValue hr (hr.whole hkey) h

omit hr in
theorem reaches_of_bareClosing? {bracket : String} (h : bareClosing? p bracket c = some c') : c.Reaches c' := by
  rw [bareClosing?] at h
  split at h
  · next hcomma => exact (reaches_of_mark? hcomma).trans (reaches_of_closing? h)
  · exact reaches_of_mark? h

theorem lays_brace : Lays (brace r) := by
  intro p c t c' h
  obtain ⟨start, hstart, h⟩ := bind_eq_some_iff.mp h
  have hstart : c.Reaches start := (reaches_drop 1 c).trans (reaches_of_operandAt? hstart)
  dsimp only at h
  split at h
  · next hlast =>
    cases h
    exact laid_leaf (by decide) (hstart.trans (reaches_of_bareClosing? hlast))
  · split at h
    · obtain ⟨⟨first, after⟩, hfirst, h⟩ := bind_eq_some_iff.mp h
      exact laid_bracketed hr (by decide) (by decide) (lays_entry hr) ((lays_entry hr hfirst).behind hstart) h
    · obtain ⟨⟨first, after⟩, hfirst, h⟩ := bind_eq_some_iff.mp h
      have hfirst := lays_element hr hfirst
      dsimp only at h
      split at h
      · obtain ⟨⟨pair, after⟩, hpair, h⟩ := bind_eq_some_iff.mp h
        exact laid_bracketed hr (by decide) (by decide) (lays_entry hr)
          ((laid_pairValue hr hfirst hpair).behind hstart) h
      · exact laid_bracketed hr (by decide) (by decide) (lays_element hr) (hfirst.behind hstart) h

/-! ## Calls and subscripts -/

theorem lays_argument : Lays (argument r) := by
  intro p c t c' h
  rw [argument] at h
  split at h
  · exact laid_unpacked hr (by decide) h
  · split at h
    · exact laid_unpacked hr (by decide) h
    · dsimp only at h
      split at h
      · next hkeyword =>
        obtain ⟨⟨name, after⟩, hname, hkeyword⟩ := bind_eq_some_iff.mp hkeyword
        obtain ⟨equals, hequals, hkeyword⟩ := bind_eq_some_iff.mp hkeyword
        cases hkeyword
        obtain ⟨⟨value, last⟩, hvalue, h⟩ := bind_eq_some_iff.mp h
        cases h
        exact laid_named (by decide) (laid_identifier? hname) (construct_of_identifier? hname)
          ((laid_operand hr.whole hvalue).behind (reaches_of_equalsAhead? hequals))
      · exact hr.whole h

theorem lays_argumentList {generator : Bool} : Lays (argumentList r generator) := by
  intro p c t c' h
  obtain ⟨start, hstart, h⟩ := bind_eq_some_iff.mp h
  have hstart : c.Reaches start := (reaches_drop 1 c).trans (reaches_of_operandAt? hstart)
  dsimp only at h
  split at h
  · next hlast =>
    cases h
    exact laid_leaf (by decide) (hstart.trans (reaches_of_bareClosing? hlast))
  · obtain ⟨⟨first, after⟩, hfirst, h⟩ := bind_eq_some_iff.mp h
    have hfirst := (lays_argument hr hfirst).behind hstart
    dsimp only at h
    split at h
    · next hclauses =>
      split at hclauses
      · split at h
        · cases h
          exact laid_over (by decide) (hfirst.cons (laid_clausesUntil? hr hclauses))
        · cases h
      · cases hclauses
    · obtain ⟨⟨items, comma, last⟩, hitems, h⟩ := bind_eq_some_iff.mp h
      cases h
      exact laid_over (by decide) (hfirst.cons (laid_itemsBehind (lays_argument hr) hitems))

theorem laid_sliceBound (p : Place) (c : Cursor) :
    LaidOut c (sliceBound r p c).1 (sliceBound r p c).2 := by
  rw [sliceBound]
  split
  · next hbound =>
    obtain ⟨start, hstart, hbound⟩ := bind_eq_some_iff.mp hbound
    exact (hr.whole hbound).behind (reaches_of_operandAt? hstart)
  · exact .nil (.refl c)

theorem lays_subscriptItem : Lays (subscriptItem r) := by
  intro p c t c' h
  rw [subscriptItem] at h
  dsimp only at h
  split at h
  · cases h
  · next lower after hfound =>
    have hlower : LaidOut c lower after ∧ (lower = [] → after = c) := by
      split at hfound
      · cases hfound
        exact ⟨.nil (.refl c), fun _ => rfl⟩
      · obtain ⟨⟨bound, after⟩, hbound, heq⟩ := map_eq_some_iff.mp hfound
        cases heq
        exact ⟨hr.whole hbound, nofun⟩
    split at h
    · obtain ⟨only, honly, heq⟩ := map_eq_some_iff.mp h
      cases heq
      exact hlower.1.sublist (List.singleton_sublist.mpr (List.mem_of_mem_head? honly))
    · next colon hcolon =>
      have hcolon : after.Reaches colon := by
        split at hcolon
        · next hempty =>
          rw [hlower.2 (List.isEmpty_iff.mp hempty)]
          exact reaches_of_mark? hcolon
        · exact reaches_of_markAhead? hcolon
      have hupper := hlower.1.append ((laid_sliceBound hr p colon).behind hcolon)
      split at h
      · cases h
        exact laid_over (by decide) hupper
      · next second hsecond =>
        cases h
        exact laid_over (by decide)
          (hupper.append ((laid_sliceBound hr p second).behind (reaches_of_markAhead? hsecond)))

/-- Accesses are laid behind the operand. -/
theorem laid_accesses {turns : Nat} {tree : GrammarTree} {after : Cursor} (htree : LaidOut c [tree] after)
    (h : accesses r p turns c tree after = some (t, c')) : LaidOut c [t] c' := by
  induction turns generalizing tree after with
  | zero =>
    cases h
    exact htree
  | succ turns ih =>
    rw [accesses.eq_def] at h
    split at h
    · next next heq hnext =>
      cases heq
      have hnext := reaches_of_onward? hnext
      split at h
      · obtain ⟨⟨name, last⟩, hname, h⟩ := bind_eq_some_iff.mp h
        have hname := (laid_identifierAhead? hname).behind (hnext.trans (reaches_drop 1 next))
        exact ih (laid_over (by decide) (htree.cons hname)) h
      · obtain ⟨start, hstart, h⟩ := bind_eq_some_iff.mp h
        obtain ⟨⟨item, behind⟩, hitem, h⟩ := bind_eq_some_iff.mp h
        obtain ⟨⟨items, comma, last⟩, hitems, h⟩ := bind_eq_some_iff.mp h
        have hitems := (lays_subscriptItem hr hitem).cons (laid_itemsBehind (lays_subscriptItem hr) hitems)
        exact ih (laid_over (by decide) (htree.cons (hitems.behind
          ((hnext.trans (reaches_drop 1 next)).trans (reaches_of_operandAt? hstart))))) h
      · obtain ⟨⟨arguments, last⟩, harguments, h⟩ := bind_eq_some_iff.mp h
        exact ih (laid_over (by decide) (htree.cons ((lays_argumentList hr harguments).behind hnext))) h
      · cases h
        exact htree
    · cases h
      exact htree

/-! ## Operands -/

omit hr in
/-- A conversion of an interpolated value is passed. -/
theorem exists_of_conversion {α : Type} {q : Place} {next : Cursor} {rest : Cursor → Option α} {x : α}
    (h : (do
      let next ← match next.rest with
        | '!' :: letter :: _ => if 'a' ≤ letter ∧ letter ≤ 'z' then onward? q (next.drop 2) else none
        | _ => some next
      rest next) = some x) : ∃ behind, next.Reaches behind ∧ rest behind = some x := by
  split at h
  · split at h
    · obtain ⟨behind, hbehind, h⟩ := bind_eq_some_iff.mp h
      exact ⟨behind, (reaches_drop 2 next).trans (reaches_of_onward? hbehind), h⟩
    · cases h
  · exact ⟨next, .refl next, h⟩

theorem laid_interpolation {turns : Nat} (h : interpolation r p turns c = some (t, c')) :
    LaidOut c [t] c' := by
  induction turns generalizing c t c' with
  | zero => cases h
  | succ turns ih =>
    obtain ⟨start, hstart, h⟩ := bind_eq_some_iff.mp h
    obtain ⟨⟨value, after⟩, hvalue, h⟩ := bind_eq_some_iff.mp h
    obtain ⟨next, hnext, h⟩ := bind_eq_some_iff.mp h
    have hvalue : LaidOut start [value] after := by
      rcases or_eq_some_iff.mp hvalue with hvalue | ⟨-, hvalue⟩
      · exact lays_yieldExpression hr hvalue
      · exact hr.listNode hvalue
    -- What may follow the value is passed from the last part to the first.
    have hbrace {nested : List GrammarTree} {brace : Cursor} (hnested : LaidOut after nested brace)
        (h : (do
          let last ← mark? "\x7d" brace
          pure (nodeOver "interpolation" c last (value :: nested), last)) = some (t, c')) :
        LaidOut c [t] c' := by
      obtain ⟨last, hlast, h⟩ := bind_eq_some_iff.mp h
      cases h
      exact laid_over (by decide) ((hvalue.cons (hnested.upTo (reaches_of_mark? hlast))).behind
        ((reaches_drop 1 c).trans (reaches_of_operandAt? hstart)))
    have hformat {next : Cursor} (hnext : after.Reaches next)
        (h : (do
          let (nested, brace) ← match mark? ":" next with
            | some format => formatSpecifier (interpolation r p turns) format.rest.length format
            | none => some ([], next)
          let last ← mark? "\x7d" brace
          pure (nodeOver "interpolation" c last (value :: nested), last)) = some (t, c')) :
        LaidOut c [t] c' := by
      split at h
      · next hcolon =>
        obtain ⟨⟨nested, brace⟩, hnested, h⟩ := bind_eq_some_iff.mp h
        exact hbrace ((laid_formatSpecifier (fun _ _ _ => ih) hnested).behind (hnext.trans (reaches_of_mark? hcolon))) h
      · exact hbrace (.nil hnext) h
    have hnext := reaches_of_onward? hnext
    dsimp only at h
    split at h
    · next hequals =>
      obtain ⟨behind, hbehind, h⟩ := bind_eq_some_iff.mp h
      obtain ⟨start, hstart, h⟩ := exists_of_conversion h
      exact hformat ((hnext.trans ((reaches_of_equals? hequals).trans (reaches_of_onward? hbehind))).trans hstart) h
    · obtain ⟨start, hstart, h⟩ := exists_of_conversion h
      exact hformat (hnext.trans hstart) h

theorem laid_moreStrings (p : Place) (turns : Nat) (c : Cursor) :
    LaidOut c (moreStrings r p turns c).1 (moreStrings r p turns c).2 := by
  induction turns generalizing c with
  | zero => exact .nil (.refl c)
  | succ turns ih =>
    rw [moreStrings.eq_def]
    dsimp only
    split
    · next string behind heq hstring =>
      cases heq
      obtain ⟨next, hnext, hstring⟩ := bind_eq_some_iff.mp hstring
      have hstring := laid_stringLiteral (fun _ _ _ => laid_interpolation hr) hstring
      exact (hstring.behind (reaches_of_onwardString? hnext)).cons (ih behind)
    · exact .nil (.refl c)

theorem lays_strings : Lays (strings r) := by
  intro p c t c' h
  obtain ⟨⟨first, after⟩, hfirst, h⟩ := bind_eq_some_iff.mp h
  have hfirst := laid_stringLiteral (fun _ _ _ => laid_interpolation hr) hfirst
  have hmore := laid_moreStrings hr p after.rest.length after
  dsimp only at h
  split at h
  · next hempty =>
    cases h
    exact hfirst.upTo hmore.reaches
  · cases h
    exact laid_over (by decide) (hfirst.cons hmore)

omit hr in
theorem laid_wordOperand (h : wordOperand c = some (t, c')) : LaidOut c [t] c' := by
  have hconstant {text construct : String} (hc : standsAlone construct = true)
      (h : ((keyword? text c).map fun last => (nodeOver construct c last [], last)) = some (t, c')) :
      LaidOut c [t] c' := by
    obtain ⟨last, hlast, heq⟩ := map_eq_some_iff.mp h
    cases heq
    exact laid_leaf hc (reaches_of_keyword? hlast)
  rcases or_eq_some_iff.mp h with h | ⟨-, h⟩
  · exact hconstant (by decide) h
  · rcases or_eq_some_iff.mp h with h | ⟨-, h⟩
    · exact hconstant (by decide) h
    · rcases or_eq_some_iff.mp h with h | ⟨-, h⟩
      · exact hconstant (by decide) h
      · exact laid_identifier? h

theorem lays_atom : Lays (atom r) := by
  intro p c t c' h
  rw [atom] at h
  split at h
  · exact lays_parenthesis hr h
  · exact lays_bracket hr h
  · exact lays_brace hr h
  · split at h
    · cases h
      exact laid_leaf (by decide) (reaches_drop 3 c)
    · split at h
      · exact lays_strings hr h
      · rcases or_eq_some_iff.mp h with h | ⟨-, h⟩
        · exact laid_number? h
        · exact laid_wordOperand h

theorem lays_primary : Lays (primary r) := by
  intro p c t c' h
  rw [primary] at h
  split at h
  · obtain ⟨⟨place, last⟩, hplace, h⟩ := bind_eq_some_iff.mp h
    dsimp only at h
    split at h
    · cases h
      exact laid_over (by decide) ((laid_operand (hr.arithmetic 100) hplace).behind (reaches_drop 1 c))
    · cases h
  · obtain ⟨⟨tree, after⟩, htree, h⟩ := bind_eq_some_iff.mp h
    exact laid_accesses hr (lays_atom hr htree) h

theorem lays_signed : Lays (signed r) := by
  intro p c t c' h
  rw [signed] at h
  split at h
  · obtain ⟨⟨value, last⟩, hvalue, h⟩ := bind_eq_some_iff.mp h
    cases h
    exact laid_over (by decide) ((laid_operand (hr.arithmetic _) hvalue).behind (reaches_drop 1 c))
  · rcases or_eq_some_iff.mp h with h | ⟨-, h⟩
    · obtain ⟨behind, hbehind, h⟩ := bind_eq_some_iff.mp h
      obtain ⟨⟨value, last⟩, hvalue, h⟩ := bind_eq_some_iff.mp h
      cases h
      exact laid_over (by decide) ((laid_operand (hr.arithmetic _) hvalue).behind (reaches_of_keyword? hbehind))
    · exact lays_primary hr h

theorem laid_operations {strength turns : Nat} {tree : GrammarTree} {after : Cursor}
    (htree : LaidOut c [tree] after) (h : operations r strength p turns c tree after = some (t, c')) :
    LaidOut c [t] c' := by
  induction turns generalizing tree after with
  | zero =>
    cases h
    exact htree
  | succ turns ih =>
    rw [operations.eq_def] at h
    split at h
    · next heq hfound =>
      cases heq
      obtain ⟨next, hnext, hfound⟩ := bind_eq_some_iff.mp hfound
      split at h
      · cases h
        exact htree
      · obtain ⟨⟨right, last⟩, hright, h⟩ := bind_eq_some_iff.mp h
        exact ih (laid_over (by decide) (htree.cons ((laid_operand (hr.arithmetic _) hright).behind
          ((reaches_of_onward? hnext).trans (reaches_of_arithmeticOperator? hfound))))) h
    · cases h
      exact htree

theorem lays_arithmetic {strength : Nat} : Lays (arithmetic r strength) := by
  intro p c t c' h
  rw [arithmetic] at h
  split at h
  · exact lays_primary hr h
  · obtain ⟨⟨tree, after⟩, htree, h⟩ := bind_eq_some_iff.mp h
    exact laid_operations hr (lays_signed hr htree) h

/-! ## Comparisons and joining words -/

omit hr in
theorem reaches_of_comparisonOperator? (h : comparisonOperator? p c = some c') : c.Reaches c' := by
  rw [comparisonOperator?] at h
  split at h
  · next hmark => exact Option.some.inj h ▸ reaches_of_comparisonMark? hmark
  · split at h
    · next hin => exact Option.some.inj h ▸ reaches_of_keyword? hin
    · split at h
      · next hnot => exact (reaches_of_keyword? hnot).trans (reaches_of_keywordAhead? h)
      · obtain ⟨behind, hbehind, rfl⟩ := map_eq_some_iff.mp h
        cases hnot : (operandAt? p false behind).bind (keyword? "not") with
        | none => exact reaches_of_keyword? hbehind
        | some after =>
          obtain ⟨next, hnext, hnot⟩ := bind_eq_some_iff.mp hnot
          exact (reaches_of_keyword? hbehind).trans ((reaches_of_operandAt? hnext).trans (reaches_of_keyword? hnot))

theorem laid_comparands {turns : Nat} (h : comparands r p turns c = some (ts, c')) : LaidOut c ts c' := by
  induction turns generalizing c ts with
  | zero =>
    cases h
    exact .nil (.refl _)
  | succ turns ih =>
    rw [comparands.eq_def] at h
    split at h
    · next heq hbehind =>
      cases heq
      obtain ⟨next, hnext, hbehind⟩ := bind_eq_some_iff.mp hbehind
      obtain ⟨⟨right, middle⟩, hright, h⟩ := bind_eq_some_iff.mp h
      obtain ⟨⟨more, last⟩, hmore, h⟩ := bind_eq_some_iff.mp h
      cases h
      exact ((laid_operand (hr.arithmetic _) hright).cons (ih hmore)).behind
        ((reaches_of_onward? hnext).trans (reaches_of_comparisonOperator? hbehind))
    · cases h
      exact .nil (.refl _)

theorem lays_comparison : Lays (comparison r) := by
  intro p c t c' h
  obtain ⟨⟨first, after⟩, hfirst, h⟩ := bind_eq_some_iff.mp h
  obtain ⟨⟨more, last⟩, hmore, h⟩ := bind_eq_some_iff.mp h
  have hfirst := lays_arithmetic hr hfirst
  have hmore := laid_comparands hr hmore
  dsimp only at h
  split at h
  · cases h
    exact hfirst.upTo hmore.reaches
  · cases h
    exact laid_over (by decide) (hfirst.cons hmore)

theorem lays_prefixed : Lays (prefixed r) := by
  intro p c t c' h
  rw [prefixed] at h
  split at h
  · next hnot =>
    obtain ⟨⟨value, last⟩, hvalue, h⟩ := bind_eq_some_iff.mp h
    cases h
    exact laid_over (by decide) ((laid_operand (hr.expression 4) hvalue).behind (reaches_of_keyword? hnot))
  · rcases or_eq_some_iff.mp h with h | ⟨-, h⟩
    · exact lays_lambdaExpression hr h
    · rcases or_eq_some_iff.mp h with h | ⟨-, h⟩
      · exact lays_namedExpression hr h
      · exact lays_comparison hr h

/-- Joining words and what they join are laid behind the expression. -/
theorem laid_joinedRest {tier turns : Nat} {tree : GrammarTree} {after : Cursor}
    (htree : LaidOut c [tree] after) (h : joinedRest r tier p turns c tree after = some (t, c')) :
    LaidOut c [t] c' := by
  induction turns generalizing tree after with
  | zero =>
    cases h
    exact htree
  | succ turns ih =>
    have hbinary {behind : Cursor} (hbehind : after.Reaches behind) {tier' : Nat}
        (h : (do
          let (right, last) ← operand (r.expression tier') p behind
          joinedRest r tier p turns c (nodeOver "boolean_operator" c last [tree, right]) last) = some (t, c')) :
        LaidOut c [t] c' := by
      obtain ⟨⟨right, last⟩, hright, h⟩ := bind_eq_some_iff.mp h
      exact ih (laid_over (by decide) (htree.cons ((laid_operand (hr.expression _) hright).behind hbehind))) h
    have hnone (h : some (tree, after) = some (t, c')) : LaidOut c [t] c' := by
      cases h
      exact htree
    rw [joinedRest.eq_def] at h
    split at h
    · next next heq hnext =>
      cases heq
      have hnext := reaches_of_onward? hnext
      dsimp only at h
      split at h
      · next hand =>
        split at h
        · exact hbinary (hnext.trans (reaches_of_keyword? hand)) h
        · exact hnone h
      · next hor _ =>
        split at h
        · exact hbinary (hnext.trans (reaches_of_keyword? hor)) h
        · exact hnone h
      · next has _ _ =>
        split at h
        · obtain ⟨start, hstart, h⟩ := bind_eq_some_iff.mp h
          obtain ⟨⟨target, last⟩, htarget, h⟩ := bind_eq_some_iff.mp h
          have htarget : LaidOut after [nodeOver "as_pattern_target" start last [target]] last :=
            (laid_over (by decide) (hr.expression 2 htarget)).behind
              ((hnext.trans (reaches_of_keyword? has)).trans (reaches_of_operandAt? hstart))
          exact ih (laid_over (by decide) (htree.cons htarget)) h
        · exact hnone h
      · next hif _ _ _ =>
        split at h
        · obtain ⟨⟨condition, middle⟩, hcondition, h⟩ := bind_eq_some_iff.mp h
          obtain ⟨else_, helse, h⟩ := bind_eq_some_iff.mp h
          obtain ⟨⟨otherwise, last⟩, hotherwise, h⟩ := bind_eq_some_iff.mp h
          have hcondition := (laid_operand hr.whole hcondition).behind (hnext.trans (reaches_of_keyword? hif))
          have hotherwise := (laid_operand hr.whole hotherwise).behind (reaches_of_keywordAhead? helse)
          exact ih (laid_over (by decide) (htree.cons (hcondition.cons hotherwise))) h
        · exact hnone h
      · exact hnone h
    · exact hnone h

theorem lays_expression {tier : Nat} : Lays (expression r tier) := by
  intro p c t c' h
  obtain ⟨⟨tree, after⟩, htree, h⟩ := bind_eq_some_iff.mp h
  exact laid_joinedRest hr (lays_prefixed hr htree) h

end

/-- **Readers that nest to any depth lay what they read.** -/
theorem lays_readersTo (depth : Nat) : (readersTo depth).Lay := by
  induction depth with
  | zero => exact ⟨fun _ _ _ _ _ h => (nomatch h), fun _ _ _ _ _ h => (nomatch h)⟩
  | succ depth ih => exact ⟨fun _ => lays_expression ih, fun _ => lays_arithmetic ih⟩

end SlotEdit.Script
