import SlotEdit.Regex.Reading

/-!
# Proofs/Regex/Lockstep — two expressions read side by side

Two readings are twins when all they know is the same and what is left of them is related (`Twin`).  A
reader keeps up with another one when it succeeds wherever the other does, with the same result, and leaves
twins (`Agree`).  What this file shows of the basic readers holds for every relation that the ordinary
characters respect (`Steady`).
-/

namespace SlotEdit.Regex

/-! ## Pieces that are left -/

namespace Reading

/-- The pieces that are left, without their offsets. -/
def glyphs (s : Reading) : List Glyph := s.pieces.map Piece.glyph

/-- The reading behind the next piece. -/
def behind (s : Reading) : Reading := { s with pieces := s.pieces.drop 1 }

theorem glyphs_behind (s : Reading) : s.behind.glyphs = s.glyphs.tail := by
  simp [glyphs, behind]

theorem length_glyphs (s : Reading) : s.glyphs.length = s.pieces.length := List.length_map _

end Reading

variable {α β : Type} {s t s' t' : Reading}

theorem bind_eq_ok {m : Reader α} {f : α → Reader β} {b : β} :
    (m >>= f) s = .ok (b, s') ↔ ∃ a s₁, m s = .ok (a, s₁) ∧ f a s₁ = .ok (b, s') := by
  constructor
  · intro h
    change (m s >>= fun r => f r.1 r.2) = _ at h
    cases hm : m s with
    | error e => rw [hm] at h; exact nomatch h
    | ok r => exact ⟨r.1, r.2, rfl, by rw [hm] at h; exact h⟩
  · rintro ⟨a, s₁, hm, hf⟩
    change (m s >>= fun r => f r.1 r.2) = _
    rw [hm]
    exact hf

theorem refuse_ne_ok {cause : Cause} {back : Nat} {r : α × Reading} : refuse cause back s ≠ .ok r := fun h => nomatch h

theorem checkNext_of_ne (h : s.glyphs.head? ≠ some .loneBackslash) : checkNext s = .ok ((), s) := by
  match s with
  | ⟨[], _, _, _, _, _, _⟩ => rfl
  | ⟨⟨_, .plain _⟩ :: _, _, _, _, _, _, _⟩ => rfl
  | ⟨⟨_, .escaped _⟩ :: _, _, _, _, _, _, _⟩ => rfl
  | ⟨⟨_, .loneBackslash⟩ :: _, _, _, _, _, _, _⟩ => exact absurd rfl h

theorem checkNext_ne_ok (h : s.glyphs.head? = some .loneBackslash) {r : Unit × Reading} : checkNext s ≠ .ok r := by
  match s with
  | ⟨[], _, _, _, _, _, _⟩ => exact nomatch h
  | ⟨⟨_, .plain _⟩ :: _, _, _, _, _, _, _⟩ => exact nomatch h
  | ⟨⟨_, .escaped _⟩ :: _, _, _, _, _, _, _⟩ => exact nomatch h
  | ⟨⟨_, .loneBackslash⟩ :: _, _, _, _, _, _, _⟩ => exact fun h => nomatch h

theorem checkNext_eq_ok {u : Unit} (h : checkNext s = .ok (u, s')) : s.glyphs.head? ≠ some .loneBackslash ∧ s' = s := by
  by_cases hlone : s.glyphs.head? = some .loneBackslash
  · exact absurd h (checkNext_ne_ok hlone)
  · exact ⟨hlone, (Prod.mk.inj (Except.ok.inj ((checkNext_of_ne hlone).symm.trans h))).2.symm⟩

theorem take_eq (s : Reading) : take s = (checkNext s.behind).map fun r => (s.glyphs.head?, r.2) := by
  rw [Reading.glyphs, List.head?_map]
  change (checkNext s.behind >>= fun r => _) = _
  cases checkNext s.behind <;> rfl

/-- **A piece is taken** unless a backslash ends the expression behind it. -/
theorem take_eq_ok {g : Option Glyph} : take s = .ok (g, s') ↔
    g = s.glyphs.head? ∧ s' = s.behind ∧ s.glyphs.tail.head? ≠ some .loneBackslash := by
  rw [take_eq, ← s.glyphs_behind]
  by_cases hlone : s.behind.glyphs.head? = some .loneBackslash
  · refine iff_of_false (fun h => ?_) fun h => h.2.2 hlone
    cases hcheck : checkNext s.behind with
    | error e => rw [hcheck] at h; exact nomatch h
    | ok r => exact checkNext_ne_ok hlone hcheck
  · rw [checkNext_of_ne hlone]
    constructor
    · rintro h
      obtain ⟨rfl, rfl⟩ := Prod.mk.inj (Except.ok.inj h)
      exact ⟨rfl, rfl, hlone⟩
    · rintro ⟨rfl, rfl, -⟩
      rfl

theorem glyphs_of_take {g : Glyph} (h : take s = .ok (some g, s')) : s.glyphs = g :: s'.glyphs := by
  obtain ⟨hhead, rfl, -⟩ := take_eq_ok.mp h
  obtain ⟨gs, hgs⟩ := List.head?_eq_some_iff.mp hhead.symm
  rw [s.glyphs_behind, hgs]
  rfl

theorem length_of_take {g : Glyph} (h : take s = .ok (some g, s')) : s'.glyphs.length + 1 = s.glyphs.length :=
  (congrArg List.length (glyphs_of_take h)).symm

/-- No backslash ends the expression behind a piece that is taken. -/
theorem head?_ne_lone_of_take {g : Option Glyph} (h : take s = .ok (g, s')) : s'.glyphs.head? ≠ some .loneBackslash := by
  obtain ⟨-, rfl, hlone⟩ := take_eq_ok.mp h
  rwa [s.glyphs_behind]

theorem peek_eq (s : Reading) : peek s = .ok (s.glyphs.head?, s) := by
  rw [Reading.glyphs, List.head?_map]
  rfl

theorem isNext_eq (c : Char) (s : Reading) : isNext c s = .ok (s.glyphs.head? == some (.plain c), s) := by
  rw [Reading.glyphs, List.head?_map]
  rfl

theorem accept_of_eq {c : Char} (h : s.glyphs.head? = some (.plain c)) (hlone : s.glyphs.tail.head? ≠ some .loneBackslash) :
    accept c s = .ok (true, s.behind) := by
  refine bind_eq_ok.mpr ⟨true, s, by rw [isNext_eq, h, beq_self_eq_true], ?_⟩
  exact bind_eq_ok.mpr ⟨_, s.behind, take_eq_ok.mpr ⟨rfl, rfl, hlone⟩, rfl⟩

theorem accept_of_ne {c : Char} (h : s.glyphs.head? ≠ some (.plain c)) : accept c s = .ok (false, s) :=
  bind_eq_ok.mpr ⟨false, s, by rw [isNext_eq, beq_eq_false_iff_ne.mpr h], rfl⟩

/-- **A character is accepted** where it is next. -/
theorem accept_eq_ok {c : Char} {b : Bool} (h : accept c s = .ok (b, s')) :
    (b = true ∧ s.glyphs.head? = some (.plain c) ∧ s' = s.behind ∧ s.glyphs.tail.head? ≠ some .loneBackslash) ∨
      (b = false ∧ s.glyphs.head? ≠ some (.plain c) ∧ s' = s) := by
  by_cases hhead : s.glyphs.head? = some (.plain c)
  · obtain ⟨_, _, hnext, htake⟩ := bind_eq_ok.mp h
    rw [isNext_eq, hhead, beq_self_eq_true] at hnext
    obtain ⟨rfl, rfl⟩ := Prod.mk.inj (Except.ok.inj hnext)
    obtain ⟨_, _, htake, -⟩ := bind_eq_ok.mp htake
    have hlone := (take_eq_ok.mp htake).2.2
    obtain ⟨rfl, rfl⟩ := Prod.mk.inj (Except.ok.inj ((accept_of_eq hhead hlone).symm.trans h))
    exact .inl ⟨rfl, hhead, rfl, hlone⟩
  · obtain ⟨rfl, rfl⟩ := Prod.mk.inj (Except.ok.inj ((accept_of_ne hhead).symm.trans h))
    exact .inr ⟨rfl, hhead, rfl⟩

theorem glyphs_of_accept {c : Char} (h : accept c s = .ok (true, s')) : s.glyphs = .plain c :: s'.glyphs := by
  rcases accept_eq_ok h with ⟨-, hhead, rfl, -⟩ | ⟨hb, -⟩
  · obtain ⟨gs, hgs⟩ := List.head?_eq_some_iff.mp hhead
    rw [s.glyphs_behind, hgs]
    rfl
  · exact nomatch hb

/-! ## Twins -/

/-- How what is left of one expression and what is left of another may be related, under the switches. -/
abbrev Pairing := Flags → List Glyph → List Glyph → Prop

/-- **Two readings that know the same** and whose pieces are related; the places of their references may
differ. -/
structure Twin (A : Pairing) (s t : Reading) : Prop where
  flags : s.flags = t.flags
  names : s.names = t.names
  widths : s.widths = t.widths
  lookBehindGroups : s.lookBehindGroups = t.lookBehindGroups
  references : s.references.map Prod.fst = t.references.map Prod.fst
  glyphs : A s.flags s.glyphs t.glyphs

/-- **A reader keeps up with another one**: where the first succeeds, the second one does with the same
result, and their readings are twins again. -/
def Agree (B : α → Pairing) (m n : Reader α) (s t : Reading) : Prop :=
  ∀ a s', m s = .ok (a, s') → ∃ t', n t = .ok (a, t') ∧ Twin (B a) s' t'

section

variable {A B C : Pairing} {X : α → Pairing} {Y : β → Pairing} {m n : Reader α} {f g : α → Reader β}

theorem Twin.mono (h : Twin A s t) (hAB : A s.flags s.glyphs t.glyphs → B s.flags s.glyphs t.glyphs) : Twin B s t :=
  ⟨h.flags, h.names, h.widths, h.lookBehindGroups, h.references, hAB h.glyphs⟩

theorem Twin.behind (h : Twin A s t) (hB : B s.flags s.glyphs.tail t.glyphs.tail) : Twin B s.behind t.behind :=
  ⟨h.flags, h.names, h.widths, h.lookBehindGroups, h.references, by rwa [s.glyphs_behind, t.glyphs_behind]⟩

namespace Agree

theorem of_ne (h : ∀ r, m s ≠ .ok r) : Agree X m n s t := fun a s' hm => absurd hm (h (a, s'))

theorem mono {Z : α → Pairing} (hm : Agree X m n s t) (hXZ : ∀ a fl gs hs, X a fl gs hs → Z a fl gs hs) : Agree Z m n s t := by
  intro a s' h
  obtain ⟨t', hn, htwin⟩ := hm a s' h
  exact ⟨t', hn, htwin.mono (hXZ a _ _ _)⟩

theorem pure {a : α} (h : Twin (X a) s t) : Agree X (Pure.pure a) (Pure.pure a) s t := by
  intro a' s' hm
  obtain ⟨rfl, rfl⟩ := Prod.mk.inj (Except.ok.inj hm)
  exact ⟨t, rfl, h⟩

theorem bind_of_eq (hm : Agree X m n s t)
    (hf : ∀ a s' t', m s = .ok (a, s') → n t = .ok (a, t') → Twin (X a) s' t' → Agree Y (f a) (g a) s' t') :
    Agree Y (m >>= f) (n >>= g) s t := by
  intro b s' h
  obtain ⟨a, s₁, ha, hb⟩ := bind_eq_ok.mp h
  obtain ⟨t₁, hn, htwin⟩ := hm a s₁ ha
  obtain ⟨t', hg, htwin⟩ := hf a s₁ t₁ ha hn htwin b s' hb
  exact ⟨t', bind_eq_ok.mpr ⟨a, t₁, hn, hg⟩, htwin⟩

theorem bind (hm : Agree X m n s t) (hf : ∀ a s' t', Twin (X a) s' t' → Agree Y (f a) (g a) s' t') :
    Agree Y (m >>= f) (n >>= g) s t :=
  bind_of_eq hm fun a s' t' _ _ h => hf a s' t' h

theorem map {h : α → β} (hm : Agree X m n s t) (hXY : ∀ a s' t', Twin (X a) s' t' → Twin (Y (h a)) s' t') :
    Agree Y (h <$> m) (h <$> n) s t :=
  bind hm fun a s' t' htwin => pure (hXY a s' t' htwin)

theorem get_bind {f g : Reading → Reader β} (h : Agree Y (f s) (g t) s t) : Agree Y (get >>= f) (get >>= g) s t := h

theorem tell_bind {f g : Nat → Reader β} (h : ∀ m n, Agree Y (f m) (g n) s t) : Agree Y (tell >>= f) (tell >>= g) s t := h _ _

theorem peek_bind {f g : Option Glyph → Reader β} (h : Agree Y (f s.glyphs.head?) (g t.glyphs.head?) s t) :
    Agree Y (peek >>= f) (peek >>= g) s t := by
  intro b s' hb
  obtain ⟨x, s₁, hpeek, hb⟩ := bind_eq_ok.mp hb
  obtain ⟨rfl, rfl⟩ := Prod.mk.inj (Except.ok.inj ((peek_eq s).symm.trans hpeek))
  obtain ⟨t', ht', htwin⟩ := h b s' hb
  exact ⟨t', bind_eq_ok.mpr ⟨_, t, peek_eq t, ht'⟩, htwin⟩

theorem set_bind {s₁ t₁ : Reading} {f g : PUnit → Reader β} (h : Agree Y (f ⟨⟩) (g ⟨⟩) s₁ t₁) :
    Agree Y (set s₁ >>= f) (set t₁ >>= g) s t := h

theorem modify_bind {φ ψ : Reading → Reading} {f g : PUnit → Reader β} (h : Agree Y (f ⟨⟩) (g ⟨⟩) (φ s) (ψ t)) :
    Agree Y (modify φ >>= f) (modify ψ >>= g) s t := h

end Agree

end

/-! ## Ordinary characters -/

/-- The characters that neither open nor close anything. -/
def isOrdinary (c : Char) : Bool := !(['(', ')', '[', ']', '#', '\\'].contains c)

/-- **A relation that a character carries over into another one**: if it is next in the first expression, it
is in the second, and what follows is related by the other one. -/
structure Shifts (c : Char) (A B : Pairing) : Prop where
  same : ∀ {fl gs hs}, A fl (.plain c :: gs) hs → ∃ hs', hs = .plain c :: hs' ∧ B fl gs hs'
  lone : ∀ {fl gs hs}, B fl gs hs → hs.head? = some .loneBackslash → gs.head? = some .loneBackslash

/-- **A relation that ordinary characters respect.** -/
structure Steady (A : Pairing) : Prop where
  shifts : ∀ {c}, isOrdinary c = true → Shifts c A A
  back : ∀ {fl c gs hs}, isOrdinary c = true → A fl gs (.plain c :: hs) → gs.head? = some (.plain c)

/-- The pieces left are at most so many. -/
def Pairing.within (A : Pairing) (k l : Nat) : Pairing := fun fl gs hs => A fl gs hs ∧ gs.length ≤ k ∧ hs.length ≤ l

theorem Pairing.within_mono {A : Pairing} {k l k' l' : Nat} (hk : k ≤ k') (hl : l ≤ l') (fl : Flags) (gs hs : List Glyph)
    (h : A.within k l fl gs hs) : A.within k' l' fl gs hs :=
  ⟨h.1, Nat.le_trans h.2.1 hk, Nat.le_trans h.2.2 hl⟩

theorem Twin.tight {A : Pairing} {k l : Nat} (h : Twin (A.within k l) s t) :
    Twin (A.within s.glyphs.length t.glyphs.length) s t :=
  h.mono fun h => ⟨h.1, Nat.le_refl _, Nat.le_refl _⟩

theorem Shifts.within {A B : Pairing} {c : Char} (hAB : Shifts c A B) (k l : Nat) : Shifts c (A.within k l) (B.within k l) where
  same h := by
    obtain ⟨hs', rfl, h'⟩ := hAB.same h.1
    exact ⟨hs', rfl, h', Nat.le_of_succ_le h.2.1, Nat.le_of_succ_le h.2.2⟩
  lone h := hAB.lone h.1

theorem Steady.within {A : Pairing} (hA : Steady A) (k l : Nat) : Steady (A.within k l) where
  shifts hc := (hA.shifts hc).within k l
  back hc h := hA.back hc h.1

section

variable {A B : Pairing} {X : α → Pairing} {c : Char} (h : Twin A s t)

include h

/-- **A piece that both expressions have** is taken from both. -/
theorem agree_take_of_glyphs {g : Glyph} {gs hs : List Glyph} (hgs : s.glyphs = g :: gs) (hhs : t.glyphs = g :: hs)
    (hB : B s.flags gs hs) (hlone : hs.head? = some .loneBackslash → gs.head? = some .loneBackslash) :
    Agree (fun x fl gs hs => x = some g ∧ B fl gs hs) take take s t := by
  intro x s' htake
  obtain ⟨rfl, rfl, hne⟩ := take_eq_ok.mp htake
  refine ⟨t.behind, take_eq_ok.mpr ⟨by rw [hgs, hhs]; rfl, rfl, fun ht => hne ?_⟩, h.behind ⟨by rw [hgs]; rfl, ?_⟩⟩
  · rw [hgs]
    exact hlone (by rwa [hhs] at ht)
  · rw [hgs, hhs]
    exact hB

/-- **A character is taken** from both expressions. -/
theorem agree_take_of_shifts (hAB : Shifts c A B) (hs : s.glyphs.head? = some (.plain c)) :
    Agree (fun x fl gs hs => x = some (.plain c) ∧ B fl gs hs) take take s t := by
  obtain ⟨gs, hgs⟩ := List.head?_eq_some_iff.mp hs
  obtain ⟨hs', hhs, hB⟩ := hAB.same (hgs ▸ h.glyphs)
  exact agree_take_of_glyphs h hgs hhs hB (hAB.lone hB)

/-- **Taking a piece and going on**, where the first reader only goes on from certain characters. -/
theorem agree_take_bind {β : Type} {Y : β → Pairing} {f g : Option Glyph → Reader β} (good : Char → Bool) (D : Char → Pairing)
    (hshifts : ∀ c, good c = true → Shifts c A (D c))
    (hf : ∀ c s' t', good c = true → Twin (D c) s' t' → s'.glyphs.length + 1 = s.glyphs.length →
      t'.glyphs.length + 1 = t.glyphs.length → Agree Y (f (some (.plain c))) (g (some (.plain c))) s' t')
    (hbad : ∀ x, (∀ c, x = some (.plain c) → good c = false) → ∀ s' r, f x s' ≠ .ok r) :
    Agree Y (take >>= f) (take >>= g) s t := by
  by_cases hs : ∃ c, s.glyphs.head? = some (.plain c) ∧ good c = true
  · obtain ⟨c, hs, hc⟩ := hs
    refine .bind_of_eq (agree_take_of_shifts h (hshifts c hc) hs) fun x s' t' htake htake' htwin => ?_
    obtain rfl := htwin.glyphs.1
    exact hf c s' t' hc (htwin.mono And.right) (length_of_take htake) (length_of_take htake')
  · refine .of_ne fun r hr => ?_
    obtain ⟨x, s₁, htake, hr⟩ := bind_eq_ok.mp hr
    refine hbad x (fun c hc => Bool.eq_false_iff.mpr fun hgood => hs ⟨c, ?_, hgood⟩) s₁ r hr
    rw [← hc, (take_eq_ok.mp htake).1]

theorem agree_accept_of_shifts (hAB : Shifts c A B) (hs : s.glyphs.head? = some (.plain c)) :
    Agree (fun b fl gs hs => b = true ∧ B fl gs hs) (accept c) (accept c) s t := by
  intro b s' haccept
  rcases accept_eq_ok haccept with ⟨rfl, -, rfl, hlone⟩ | ⟨-, hne, -⟩
  · obtain ⟨t', ht, htwin⟩ := agree_take_of_shifts h hAB hs _ _ (take_eq_ok.mpr ⟨rfl, rfl, hlone⟩)
    obtain ⟨hhead, rfl, hlone⟩ := take_eq_ok.mp ht
    exact ⟨_, accept_of_eq (hhead.symm.trans hs) hlone, htwin.mono fun hB => ⟨rfl, hB.2⟩⟩
  · exact absurd hs hne

variable (hA : Steady A)

include hA

theorem Steady.head?_iff (hc : isOrdinary c = true) :
    s.glyphs.head? = some (.plain c) ↔ t.glyphs.head? = some (.plain c) := by
  constructor
  · intro hs
    obtain ⟨gs, hgs⟩ := List.head?_eq_some_iff.mp hs
    obtain ⟨hs', hhs, -⟩ := (hA.shifts hc).same (hgs ▸ h.glyphs)
    rw [hhs]
    rfl
  · intro ht
    obtain ⟨hs, hhs⟩ := List.head?_eq_some_iff.mp ht
    exact hA.back hc (hhs ▸ h.glyphs)

theorem agree_take (hc : isOrdinary c = true) (hs : s.glyphs.head? = some (.plain c)) :
    Agree (fun x fl gs hs => x = some (.plain c) ∧ A fl gs hs) take take s t :=
  agree_take_of_shifts h (hA.shifts hc) hs

theorem agree_accept (hc : isOrdinary c = true) : Agree (fun _ => A) (accept c) (accept c) s t := by
  by_cases hs : s.glyphs.head? = some (.plain c)
  · intro b s' haccept
    obtain ⟨t', ht, htwin⟩ := agree_accept_of_shifts h (hA.shifts hc) hs b s' haccept
    exact ⟨t', ht, htwin.mono And.right⟩
  · intro b s' haccept
    obtain ⟨rfl, rfl⟩ := Prod.mk.inj (Except.ok.inj ((accept_of_ne hs).symm.trans haccept))
    exact ⟨t, accept_of_ne fun ht => hs ((Steady.head?_iff h hA hc).mpr ht), h⟩

end

/-! ## Runs of ordinary characters -/

section

variable {p : Char → Bool}

theorem takeWhile_of_ne (turns : Nat) (h : ∀ c, s.glyphs.head? = some (.plain c) → p c = false) :
    takeWhile p turns s = .ok ([], s) := by
  cases turns with
  | zero => rfl
  | succ turns =>
    refine bind_eq_ok.mpr ⟨_, s, peek_eq s, ?_⟩
    generalize s.glyphs.head? = x at h
    split
    · next c =>
      rw [h c rfl]
      rfl
    · rfl

theorem takeWhile_eq (turns : Nat) (s : Reading) : takeWhile p (turns + 1) s = (match s.glyphs.head? with
    | some (.plain c) => if p c then take >>= fun _ => takeWhile p turns >>= fun cs => pure (c :: cs) else pure []
    | _ => pure [] : Reader _) s := by
  rw [Reading.glyphs, List.head?_map]
  rfl

theorem takeWhile_succ {c : Char} {s : Reading} (turns : Nat) (h : s.glyphs.head? = some (.plain c)) (hp : p c = true) :
    takeWhile p (turns + 1) s = (take >>= fun _ => takeWhile p turns >>= fun cs => pure (c :: cs)) s := by
  rw [takeWhile_eq, h]
  exact congrFun (if_pos hp) s

theorem Agree.of_takeWhile_ne {A : Pairing} (hA : Steady A) (h : Twin A s t) (hp : ∀ c, p c = true → isOrdinary c = true)
    (turns turns' : Nat) (hs : ∀ c, s.glyphs.head? = some (.plain c) → p c = false) :
    Agree (fun _ => A) (takeWhile p turns) (takeWhile p turns') s t := by
  intro cs s' htake
  obtain ⟨rfl, rfl⟩ := Prod.mk.inj (Except.ok.inj ((takeWhile_of_ne turns hs).symm.trans htake))
  refine ⟨t, takeWhile_of_ne turns' fun c ht => Bool.eq_false_iff.mpr fun hc => ?_, h⟩
  exact Bool.eq_false_iff.mp (hs c ((Steady.head?_iff h hA (hp c hc)).mpr ht)) hc

/-- **A run of ordinary characters is read** from both expressions, given turns enough or as many turns for
both. -/
theorem agree_takeWhile {A : Pairing} (h : Twin A s t) (hA : Steady A) (hp : ∀ c, p c = true → isOrdinary c = true)
    (turns turns' : Nat) (hturns : turns = turns' ∨ (s.glyphs.length ≤ turns ∧ t.glyphs.length ≤ turns')) :
    Agree (fun _ => A) (takeWhile p turns) (takeWhile p turns') s t := by
  induction turns generalizing s t turns' with
  | zero =>
    rcases hturns with rfl | ⟨hs, -⟩
    · exact .pure h
    · have hne : ∀ c, s.glyphs.head? = some (.plain c) → p c = false := fun c hc => by
        rw [List.length_eq_zero_iff.mp (Nat.le_zero.mp hs)] at hc
        exact nomatch hc
      exact .of_takeWhile_ne hA h hp _ _ hne
  | succ turns ih =>
    by_cases hs : ∃ c, s.glyphs.head? = some (.plain c) ∧ p c = true
    · obtain ⟨c, hs, hc⟩ := hs
      have ht := (Steady.head?_iff h hA (hp c hc)).mp hs
      have hpos : 0 < t.glyphs.length := List.length_pos_iff.mpr fun hnil => by rw [hnil] at ht; exact nomatch ht
      obtain ⟨k, rfl⟩ : ∃ k, turns' = k + 1 := ⟨turns' - 1, by omega⟩
      unfold Agree
      rw [takeWhile_succ turns hs hc, takeWhile_succ k ht hc]
      refine Agree.bind_of_eq (agree_take h hA (hp c hc) hs) fun x s' t' hs' ht' htwin => ?_
      refine Agree.bind (ih (htwin.mono And.right) k ?_) fun cs s' t' htwin => .pure htwin
      rw [(take_eq_ok.mp hs').2.1, (take_eq_ok.mp ht').2.1, s.glyphs_behind, t.glyphs_behind, List.length_tail, List.length_tail]
      omega
    · exact .of_takeWhile_ne hA h hp _ _ fun c hc => Bool.eq_false_iff.mpr fun hpc => hs ⟨c, hc, hpc⟩

end

/-! ## Names -/

theorem refuseName_ne_ok {terminator : Char} {what soFar : String} {r : String × Reading} :
    refuseName terminator what soFar s ≠ .ok r := by
  unfold refuseName
  split <;> exact refuse_ne_ok

theorem exists_of_nameUntil {terminator : Char} {what soFar n : String} {turns : Nat}
    (h : nameUntil terminator what turns soFar s = .ok (n, s')) : ∃ rest, n = soFar ++ rest := by
  induction turns generalizing s soFar with
  | zero => exact absurd h refuseName_ne_ok
  | succ turns ih =>
    rw [nameUntil] at h
    obtain ⟨x, s₁, -, h⟩ := bind_eq_ok.mp h
    split at h
    · exact absurd h refuseName_ne_ok
    · split at h
      · split at h
        · exact absurd h refuse_ne_ok
        · exact ⟨"", by rw [String.append_empty]; exact (Prod.mk.inj (Except.ok.inj h)).1.symm⟩
      · obtain ⟨rest, rfl⟩ := ih h
        exact ⟨_, String.append_assoc⟩

theorem head?_of_name {terminator c : Char} {what n : String} (h : name terminator what s = .ok (n, s'))
    (hs : s.glyphs.head? = some (.plain c)) : c ∈ n.toList := by
  unfold name at h
  change nameUntil terminator what s.pieces.length "" s = _ at h
  cases hturns : s.pieces.length with
  | zero =>
    rw [hturns] at h
    exact absurd h refuseName_ne_ok
  | succ turns =>
    rw [hturns, nameUntil] at h
    obtain ⟨x, s₁, htake, h⟩ := bind_eq_ok.mp h
    rw [(take_eq_ok.mp htake).1, hs] at h
    dsimp only at h
    split at h
    · exact absurd h refuse_ne_ok
    · obtain ⟨rest, rfl⟩ := exists_of_nameUntil h
      simp [Glyph.text]

/-- A piece of a name of ordinary characters is an ordinary character. -/
theorem exists_of_text {g : Glyph} {soFar n : String} (hn : ∃ rest, n = soFar ++ g.text ++ rest) (hord : ∀ c ∈ n.toList, isOrdinary c = true) :
    ∃ c, g = .plain c ∧ isOrdinary c = true := by
  obtain ⟨rest, rfl⟩ := hn
  have hback : '\\' ∉ (soFar ++ g.text ++ rest).toList := fun h => nomatch hord _ h
  cases g with
  | plain c => exact ⟨c, rfl, hord c (by simp [Glyph.text])⟩
  | escaped c => exact absurd (by simp [Glyph.text]) hback
  | loneBackslash => exact absurd (by simp [Glyph.text]) hback

theorem agree_nameUntil {A B : Pairing} {terminator : Char} {what n : String} (hA : Steady A) (hAB : Shifts terminator A B)
    {turns turns' : Nat} {soFar : String} (h : Twin A s t) (hs : s.glyphs.length ≤ turns) (ht : t.glyphs.length ≤ turns')
    (hn : nameUntil terminator what turns soFar s = .ok (n, s')) (hord : ∀ c ∈ n.toList, isOrdinary c = true) :
    ∃ t', nameUntil terminator what turns' soFar t = .ok (n, t') ∧ Twin B s' t' := by
  induction turns generalizing s t turns' soFar with
  | zero => exact absurd hn refuseName_ne_ok
  | succ turns ih =>
    rw [nameUntil] at hn
    obtain ⟨x, s₁, htake, hn⟩ := bind_eq_ok.mp hn
    cases x with
    | none => exact absurd hn refuseName_ne_ok
    | some g =>
    have hhead := (take_eq_ok.mp htake).1.symm
    have hless := length_of_take htake
    dsimp only at hn
    split at hn
    · next hterm =>
      obtain rfl := beq_iff_eq.mp hterm
      obtain ⟨t₁, ht₁, htwin⟩ := agree_take_of_shifts h hAB hhead _ _ htake
      have hless' := length_of_take ht₁
      obtain ⟨k, rfl⟩ : ∃ k, turns' = k + 1 := ⟨turns' - 1, by omega⟩
      split at hn
      · exact absurd hn refuse_ne_ok
      · next hne =>
        obtain ⟨rfl, rfl⟩ := Prod.mk.inj (Except.ok.inj hn)
        refine ⟨t₁, ?_, htwin.mono And.right⟩
        rw [nameUntil]
        refine bind_eq_ok.mpr ⟨_, t₁, ht₁, ?_⟩
        dsimp only
        rw [if_pos hterm, if_neg hne]
        rfl
    · next hterm =>
      obtain ⟨c, rfl, hc⟩ := exists_of_text (exists_of_nameUntil hn) hord
      obtain ⟨t₁, ht₁, htwin⟩ := agree_take h hA hc hhead _ _ htake
      have hless' := length_of_take ht₁
      obtain ⟨k, rfl⟩ : ∃ k, turns' = k + 1 := ⟨turns' - 1, by omega⟩
      obtain ⟨t', hn', htwin⟩ := ih (htwin.mono And.right) (by omega) (show t₁.glyphs.length ≤ k by omega) hn
      refine ⟨t', ?_, htwin⟩
      rw [nameUntil]
      refine bind_eq_ok.mpr ⟨_, t₁, ht₁, ?_⟩
      dsimp only
      rw [if_neg hterm]
      exact hn'

/-- **A name of ordinary characters** is read from both expressions, up to and over what ends it. -/
theorem agree_name {β : Type} {A B : Pairing} {Y : β → Pairing} {f g : String → Reader β} {terminator : Char} {what : String}
    (h : Twin A s t) (hA : Steady A) (hAB : Shifts terminator A B)
    (hord : ∀ n s₁ r, name terminator what s = .ok (n, s₁) → f n s₁ = .ok r → ∀ c ∈ n.toList, isOrdinary c = true)
    (hf : ∀ n s' t', Twin B s' t' → Agree Y (f n) (g n) s' t') :
    Agree Y (name terminator what >>= f) (name terminator what >>= g) s t := by
  intro b s' hb
  obtain ⟨n, s₁, hn, hb⟩ := bind_eq_ok.mp hb
  obtain ⟨t₁, hn', htwin⟩ := agree_nameUntil hA hAB h (Nat.le_of_eq s.length_glyphs) (Nat.le_of_eq t.length_glyphs) hn
    (hord n s₁ _ hn hb)
  obtain ⟨t', hb', htwin⟩ := hf n s₁ t₁ htwin b s' hb
  exact ⟨t', bind_eq_ok.mpr ⟨n, t₁, hn', hb'⟩, htwin⟩

/-! ## Escapes -/

theorem isOrdinary_of {p : Char → Bool} (h : ['(', ')', '[', ']', '#', '\\'].any p = false) {c : Char} (hc : p c = true) :
    isOrdinary c = true := by
  refine Bool.not_eq_true' _ ▸ Bool.eq_false_iff.mpr fun hmem => ?_
  exact List.any_eq_false.mp h c (List.contains_iff_mem.mp hmem) hc

section

variable {A : Pairing} (h : Twin A s t)

include h

theorem agree_octalCode (digits : List Char) : Agree (fun _ => A) (octalCode digits) (octalCode digits) s t := by
  unfold octalCode
  dsimp only
  split
  · exact .of_ne fun r => refuse_ne_ok
  · exact .pure h

theorem agree_itself (c : Char) : Agree (fun _ => A) (itself c) (itself c) s t := by
  unfold itself
  split
  · exact .of_ne fun r => refuse_ne_ok
  · exact .pure h

theorem agree_groupCount : Agree (fun _ => A) groupCount groupCount s t := by
  intro n s' hn
  obtain ⟨rfl, rfl⟩ := Prod.mk.inj (Except.ok.inj hn)
  exact ⟨t, by rw [h.widths]; rfl, h⟩

theorem agree_isClosed (index : Nat) : Agree (fun _ => A) (isClosed index) (isClosed index) s t := by
  intro b s' hb
  obtain ⟨rfl, rfl⟩ := Prod.mk.inj (Except.ok.inj hb)
  exact ⟨t, by rw [h.widths]; rfl, h⟩

theorem agree_checkLookBehind (index : Nat) : Agree (fun _ => A) (checkLookBehind index) (checkLookBehind index) s t := by
  unfold checkLookBehind
  refine .get_bind ?_
  rw [h.lookBehindGroups]
  split
  · exact .pure h
  · refine .bind (agree_isClosed h index) fun b s' t' h => ?_
    split
    · exact .of_ne fun r => refuse_ne_ok
    · split
      · exact .of_ne fun r => refuse_ne_ok
      · exact .pure h

theorem agree_reference (digits : List Char) : Agree (fun _ => A) (reference digits) (reference digits) s t := by
  unfold reference
  refine .bind (agree_groupCount h) fun n s' t' h => ?_
  split
  · refine .bind (agree_isClosed h _) fun b s' t' h => ?_
    split
    · exact .bind (agree_checkLookBehind h _) fun _ s' t' h => .pure h
    · exact .of_ne fun r => refuse_ne_ok
  · exact .of_ne fun r => refuse_ne_ok

end

section

variable {A : Pairing} (h : Twin A s t) (hA : Steady A)

include h hA

theorem agree_hexEscape (letter : Char) (count : Nat) : Agree (fun _ => A) (hexEscape letter count) (hexEscape letter count) s t := by
  refine .bind (agree_takeWhile h hA (fun c => isOrdinary_of (by decide)) _ _ (.inl rfl)) fun digits s' t' h => ?_
  dsimp only
  split
  · exact .of_ne fun r => refuse_ne_ok
  · split
    · exact .pure h
    · exact .of_ne fun r => refuse_ne_ok

/-- The letters of the names of characters neither open nor close anything. -/
theorem agree_namedEscape [Interpreter] : Agree (fun _ => A) namedEscape namedEscape s t := by
  unfold namedEscape
  refine .bind (agree_accept h hA (by decide)) fun b s' t' h => ?_
  split
  · refine agree_name h hA (hA.shifts (by decide)) (fun n s₁ r hn hr => ?_) fun n s' t' h => ?_
    · cases hplain : Interpreter.charNamed? n with
      | none =>
        rw [hplain] at hr
        exact absurd hr refuse_ne_ok
      | some c => exact fun d hd => isOrdinary_of (by decide) (Interpreter.isNameLetter_of_charNamed? hplain d hd)
    · split
      · exact .pure h
      · exact .of_ne fun r => refuse_ne_ok
  · exact .of_ne fun r => refuse_ne_ok

theorem agree_numericEscape? [Interpreter] (c : Char) : Agree (fun _ => A) (numericEscape? c)
    (numericEscape? c) s t := by
  unfold numericEscape?
  split
  iterate 3 exact .map (agree_hexEscape h hA _ _) fun _ _ _ h => h
  · exact .map (agree_namedEscape h hA) fun _ _ _ h => h
  · exact .pure h

theorem agree_memberEscape [Interpreter] (c : Char) : Agree (fun _ => A) (memberEscape c) (memberEscape c) s t := by
  unfold memberEscape
  split
  · exact .pure h
  · exact .pure h
  · refine .bind (agree_numericEscape? h hA c) fun code s' t' h => ?_
    split
    · exact .pure h
    · split
      · refine .bind (agree_takeWhile h hA (fun c => isOrdinary_of (by decide)) _ _ (.inl rfl)) fun digits s' t' h => ?_
        exact .bind (agree_octalCode h _) fun code s' t' h => .pure h
      · exact .bind (agree_itself h c) fun code s' t' h => .pure h

theorem agree_digitEscape (c : Char) : Agree (fun _ => A) (digitEscape c) (digitEscape c) s t := by
  unfold digitEscape
  refine .bind (agree_takeWhile h hA (fun c => isOrdinary_of (by decide)) _ _ (.inl rfl)) fun second s' t' h => ?_
  have hafter : ∀ {third : List Char} {s t : Reading}, Twin A s t →
      Agree (fun _ => A) (if third.isEmpty = true then reference (c :: second ++ third)
        else do pure (.code (← octalCode (c :: second ++ third)) false))
       (if third.isEmpty = true then reference (c :: second ++ third)
        else do pure (.code (← octalCode (c :: second ++ third)) false)) s t := fun h => by
    split
    · exact agree_reference h _
    · exact .bind (agree_octalCode h _) fun code s' t' h => .pure h
  dsimp only
  split
  · exact .bind (agree_takeWhile h hA (fun c => isOrdinary_of (by decide)) _ _ (.inl rfl)) fun third s' t' h => hafter h
  · exact .bind (X := fun _ => A) (.pure h) fun third s' t' h => hafter h

theorem agree_expressionEscape [Interpreter] (c : Char) : Agree (fun _ => A) (expressionEscape c)
    (expressionEscape c) s t := by
  unfold expressionEscape
  split
  iterate 3 exact .pure h
  · refine .bind (agree_numericEscape? h hA c) fun code s' t' h => ?_
    split
    · exact .pure h
    · split
      · refine .bind (agree_takeWhile h hA (fun c => isOrdinary_of (by decide)) _ _ (.inl rfl)) fun digits s' t' h => .pure h
      · split
        · exact agree_digitEscape h hA c
        · exact .bind (agree_itself h c) fun code s' t' h => .pure h

end

/-! ## Counts -/

theorem throw_ne_ok {α : Type} {e : Fault} {r : α × Reading} : (throw e : Reader α) s ≠ .ok r := fun h => nomatch h

section

variable {A : Pairing} (h : Twin A s t)

include h

theorem agree_count (digits : List Char) : Agree (fun _ => A) (count digits) (count digits) s t := by
  unfold count
  split
  · split
    · exact .of_ne fun r => throw_ne_ok
    · exact .pure h
  · exact .of_ne fun r => throw_ne_ok

theorem agree_countsOf (here here' : Nat) (low high : List Char) :
    Agree (fun _ => A) (countsOf here low high) (countsOf here' low high) s t := by
  have hmost : ∀ (least : Nat) {s t : Reading}, Twin A s t → Agree (fun _ => A)
      (if high.isEmpty then pure (least, none)
        else count high >>= fun most => if most < least then refuseAt .leastAboveMost here else pure (least, some most))
      (if high.isEmpty then pure (least, none)
        else count high >>= fun most => if most < least then refuseAt .leastAboveMost here' else pure (least, some most)) s t := by
    intro least s t h
    split
    · exact .pure h
    · refine .bind (agree_count h high) fun most s' t' h => ?_
      split
      · exact .of_ne fun r => throw_ne_ok
      · exact .pure h
  unfold countsOf
  dsimp only
  split
  · exact .bind (X := fun _ => A) (.pure h) fun least s' t' h => hmost least h
  · exact .bind (agree_count h low) fun least s' t' h => hmost least h

variable (hA : Steady A)

include hA

theorem agree_isNext {c : Char} (hc : isOrdinary c = true) : Agree (fun _ => A) (isNext c) (isNext c) s t := by
  intro b s' hb
  rw [isNext_eq] at hb
  obtain ⟨rfl, rfl⟩ := Prod.mk.inj (Except.ok.inj hb)
  refine ⟨t, ?_, h⟩
  rw [isNext_eq, Bool.eq_iff_iff.mpr (beq_iff_eq.trans ((Steady.head?_iff h hA hc).trans beq_iff_eq.symm))]

theorem agree_bracedCounts : Agree (fun _ => A) bracedCounts bracedCounts s t := by
  have hB := hA.within s.glyphs.length t.glyphs.length
  have hdigits : ∀ {s' t'}, Twin (A.within s.glyphs.length t.glyphs.length) s' t' →
      Agree (fun _ => A.within s.glyphs.length t.glyphs.length) (takeWhile isAsciiDigit s.pieces.length)
        (takeWhile isAsciiDigit t.pieces.length) s' t' := fun h =>
    agree_takeWhile h hB (fun c => isOrdinary_of (by decide)) _ _
      (.inr (by rw [← s.length_glyphs, ← t.length_glyphs]; exact h.glyphs.2))
  have hwithin := h.mono (B := A.within s.glyphs.length t.glyphs.length) fun h => ⟨h, Nat.le_refl _, Nat.le_refl _⟩
  unfold bracedCounts
  refine .get_bind (.tell_bind fun m n => .bind (agree_isNext hwithin hB (by decide)) fun b s' t' h' => ?_)
  split
  · exact .pure (h'.mono And.left)
  refine .bind (hdigits h') fun low s' t' h' => ?_
  have hmost : Agree (fun _ => A.within s.glyphs.length t.glyphs.length) (digitsOfMost low s.pieces.length)
      (digitsOfMost low t.pieces.length) s' t' := by
    refine .bind (agree_accept h' hB (by decide)) fun b s' t' h' => ?_
    split
    · exact hdigits h'
    · exact .pure h'
  refine .bind hmost fun high s' t' h' => .bind (agree_accept h' hB (by decide)) fun b s' t' h' => ?_
  split
  · exact .map (agree_countsOf (h'.mono And.left) m n low high) fun _ _ _ h => h
  · -- what follows is no count: both readings go back to where they were
    intro counts s'' hset
    obtain ⟨rfl, rfl⟩ := Prod.mk.inj (Except.ok.inj hset)
    exact ⟨t, rfl, h⟩

theorem agree_counts? (c : Char) : Agree (fun _ => A) (counts? c) (counts? c) s t := by
  unfold counts?
  split
  iterate 3 exact .pure h
  · exact agree_bracedCounts h hA
  · exact .pure h

theorem agree_eagernessMark : Agree (fun _ => A) eagernessMark eagernessMark s t := by
  unfold eagernessMark
  refine .bind (agree_accept h hA (by decide)) fun b s' t' h => ?_
  split
  · exact .pure h
  · refine .bind (agree_accept h hA (by decide)) fun b s' t' h => ?_
    split
    · exact .pure h
    · exact .pure h

theorem agree_repetition (here here' : Nat) (item : Option Term) (least : Nat) (most : Option Nat) :
    Agree (fun _ => A) (repetition here item least most) (repetition here' item least most) s t := by
  unfold repetition
  split
  iterate 3 exact .of_ne fun r => throw_ne_ok
  · exact .bind (agree_eagernessMark h hA) fun mark s' t' h => .pure h

end

/-! ## Members of sets -/

section

variable {A : Pairing} (h : Twin A s t)

include h

theorem agree_member [Interpreter] (hA : Steady A) (glyph : Glyph) : Agree (fun _ => A) (member glyph)
    (member glyph) s t := by
  cases glyph with
  | plain c => exact .pure h
  | escaped c => exact agree_memberEscape h hA c
  | loneBackslash => exact .pure h

theorem agree_memberRange (first last : Glyph) (low high : Member) :
    Agree (fun _ => A) (memberRange first last low high) (memberRange first last low high) s t := by
  unfold memberRange
  dsimp only
  split
  · split
    · exact .of_ne fun r => refuse_ne_ok
    · exact .pure h
  · exact .of_ne fun r => refuse_ne_ok

end

/-! ## Groups and references -/

theorem isSome_lookup (k : Nat) (rs : List (Nat × Nat)) : (rs.lookup k).isSome = (rs.map Prod.fst).contains k := by
  induction rs with
  | nil => rfl
  | cons r rs ih =>
    rw [List.lookup_cons, List.map_cons, List.contains_cons, ← ih]
    cases k == r.1 <;> rfl

section

variable {A : Pairing} (h : Twin A s t)

include h

theorem agree_checkName (n : String) : Agree (fun _ => A) (checkName n) (checkName n) s t := by
  unfold checkName
  split
  · exact .pure h
  · exact .of_ne fun r => refuse_ne_ok

theorem agree_openGroup (name : Option String) : Agree (fun _ => A) (openGroup name) (openGroup name) s t := by
  have hopened : ∀ names, Twin A { s with widths := t.widths.push none, names := names }
      { t with widths := t.widths.push none, names := names } := fun names =>
    ⟨h.flags, rfl, rfl, h.lookBehindGroups, h.references, h.glyphs⟩
  unfold openGroup
  refine .get_bind ?_
  rw [h.names, h.widths]
  cases name with
  | none => exact .set_bind (.pure (hopened t.names))
  | some n =>
    dsimp only
    split
    · exact .of_ne fun r => refuse_ne_ok
    · exact .set_bind (.pure (hopened _))

theorem agree_closeGroup (index : Nat) (body : Term) :
    Agree (fun _ => A) (closeGroup index body) (closeGroup index body) s t := by
  intro u s' hclose
  obtain ⟨-, rfl⟩ := Prod.mk.inj (Except.ok.inj hclose)
  refine ⟨_, rfl, h.flags, h.names, ?_, h.lookBehindGroups, h.references, h.glyphs⟩
  have hwidthOf : s.widthOf = t.widthOf := by
    funext i
    rw [Reading.widthOf, Reading.widthOf, h.widths]
  simp only [h.widths, hwidthOf]

theorem agree_namedGroup (n : String) : Agree (fun _ => A) (namedGroup n) (namedGroup n) s t := by
  unfold namedGroup
  refine .get_bind ?_
  rw [h.names]
  split
  · exact .pure h
  · exact .of_ne fun r => refuse_ne_ok

theorem agree_numberedGroup (n : String) : Agree (fun _ => A) (numberedGroup n) (numberedGroup n) s t := by
  unfold numberedGroup
  split
  · split
    · exact .of_ne fun r => refuse_ne_ok
    split
    · exact .of_ne fun r => refuse_ne_ok
    dsimp only
    split
    · exact .of_ne fun r => refuse_ne_ok
    · refine .tell_bind fun place place' => .modify_bind (.pure ?_)
      rw [isSome_lookup, h.references, ← isSome_lookup]
      split
      · exact h
      · exact ⟨h.flags, h.names, h.widths, h.lookBehindGroups, by simp [h.references], h.glyphs⟩
  · exact .of_ne fun r => refuse_ne_ok

end

end SlotEdit.Regex
