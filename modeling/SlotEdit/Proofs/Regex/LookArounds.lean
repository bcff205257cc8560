import SlotEdit.Proofs.Regex.Scanning

/-!
# Proofs/Regex/LookArounds — only a look-around sees past a match

A look-around tries its body ahead of the match or behind it and then goes on where it was, so a group in
it may capture characters that the match does not stand on.  A term changes the captures of its own
groups only (`keeps_captured`), and progress outside of look-arounds never goes back.  So a group that
stands in no look-around lies inside the match (`inside_of_mem_findAll`).
-/

namespace SlotEdit.Regex

namespace Term

mutual
/-- The groups of a term, those in its look-arounds included. -/
def groups : Term → List Nat
  | .sequence ts => groupsOfAll ts
  | .choice ts => groupsOfAll ts
  | .group index _ _ body => index.toList ++ body.groups
  | .atomic body => body.groups
  | .look _ _ body => body.groups
  | .conditional _ present absent => present.groups ++ absent.groups
  | .repeated _ _ _ body => body.groups
  | _ => []

/-- The groups of several terms. -/
def groupsOfAll : List Term → List Nat
  | [] => []
  | t :: ts => t.groups ++ groupsOfAll ts
end

mutual
/-- What the look-arounds of a term look at; those inside another one are left out. -/
def looks : Term → List Term
  | .sequence ts => looksOfAll ts
  | .choice ts => looksOfAll ts
  | .group _ _ _ body => body.looks
  | .atomic body => body.looks
  | .look _ _ body => [body]
  | .conditional _ present absent => present.looks ++ absent.looks
  | .repeated _ _ _ body => body.looks
  | _ => []

/-- What the look-arounds of several terms look at. -/
def looksOfAll : List Term → List Term
  | [] => []
  | t :: ts => t.looks ++ looksOfAll ts
end

/-- The groups that stand in a look-around. -/
def looked (t : Term) : List Nat := t.looks.flatMap groups

end Term

/-- A group of this name stands in a look-around. -/
def Expression.Looked (e : Expression) (name : String) : Prop := ∃ i ∈ e.term.looked, (name, i) ∈ e.names

instance (e : Expression) (name : String) : Decidable (e.Looked name) :=
  inferInstanceAs (Decidable (∃ i ∈ e.term.looked, (name, i) ∈ e.names))

/-! ## What a term keeps -/

/-- A property of progress that is kept further along, by the groups `mine` when they open or close, and by
what look-arounds look at when they are done. -/
structure Settled (g : Setting) (mine : Nat → Prop) (bodies : List Term) (P : Progress → Prop) : Prop where
  forward : ∀ {s o}, P s → s.offset ≤ o → P { s with offset := o }
  opened : ∀ {s i}, mine i → P s → P (s.opened i)
  closed : ∀ {s i}, mine i → P s → P (s.closed i)
  looked : ∀ {body}, body ∈ bodies → ∀ {flags s o r}, P s → run g flags body { s with offset := o } some = some r →
    P { r with offset := s.offset }

namespace Settled

variable {g : Setting} {mine : Nat → Prop} {bodies bodies' : List Term} {P : Progress → Prop}

theorem mono (h : Settled g mine bodies P) (hsub : bodies' ⊆ bodies) : Settled g mine bodies' P :=
  ⟨h.forward, h.opened, h.closed, fun hbody => h.looked (hsub hbody)⟩

theorem one (h : Settled g mine bodies P) (test : Char → Bool) : (g.one test).Keeps P := by
  intro s k r hs hr
  rw [Setting.one] at hr
  split at hr
  · split at hr
    · exact ⟨_, h.forward hs (Nat.le_succ _), hr⟩
    · cases hr
  · cases hr

theorem charTurns (h : Settled g mine bodies P) (eagerness : Eagerness) (least : Nat) (most : Option Nat)
    (test : Char → Bool) : (charTurns g eagerness least most test).Keeps P := by
  intro s k r hs hr
  have hforward (n : Nat) : P { s with offset := s.offset + n } := h.forward hs (Nat.le_add_right _ n)
  obtain ⟨run, -, heq⟩ := charTurns_eq (g := g) eagerness least most test k (s := s)
  rw [heq] at hr
  split at hr
  · cases hr
  · cases eagerness with
    | greedy => exact exists_of_givingBack (fun n _ => hforward n) hr
    | lazy => exact exists_of_takingMore (fun n _ => hforward n) hr
    | possessive => exact ⟨_, hforward _, hr⟩

end Settled

mutual
/-- **A term keeps** what is kept along the text, by its groups, and by its look-arounds. -/
theorem Settled.run {g : Setting} {mine : Nat → Prop} {P : Progress → Prop} (flags : Flags) (t : Term)
    (h : Settled g mine t.looks P) (hmine : ∀ i ∈ t.groups, mine i) : (run g flags t).Keeps P := by
  match t with
  | .code n negated => rw [Regex.run]; exact h.one _
  | .any => rw [Regex.run]; exact h.one _
  | .oneOf negated ms => rw [Regex.run]; exact h.one _
  | .anchor place =>
    intro s k r hs hr
    rw [Regex.run] at hr
    dsimp only at hr
    split at hr
    · exact ⟨s, hs, hr⟩
    · cases hr
  | .sequence ts =>
    rw [Regex.run]
    rw [Term.looks] at h
    exact h.runAll flags ts (by rwa [Term.groups] at hmine)
  | .choice ts =>
    rw [Regex.run]
    rw [Term.looks] at h
    exact h.runAny flags ts (by rwa [Term.groups] at hmine)
  | .group (some index) added removed body =>
    rw [Term.looks] at h
    rw [Term.groups, Option.toList_some, List.singleton_append, List.forall_mem_cons] at hmine
    intro s k r hs hr
    rw [Regex.run] at hr
    obtain ⟨s', hs', hr⟩ := h.run _ body hmine.2 _ _ r (h.opened hmine.1 hs) hr
    exact ⟨_, h.closed hmine.1 hs', hr⟩
  | .group none added removed body =>
    rw [Term.looks] at h
    rw [Regex.run]
    exact h.run _ body (by rwa [Term.groups] at hmine)
  | .atomic body =>
    rw [Term.looks] at h
    rw [Term.groups] at hmine
    intro s k r hs hr
    rw [Regex.run] at hr
    obtain ⟨s', hsettled, hr⟩ := Option.bind_eq_some_iff.mp hr
    exact ⟨s', (h.run flags body hmine).settled hs hsettled, hr⟩
  | .look behind negated body =>
    intro s k r hs hr
    rw [Regex.run] at hr
    dsimp only at hr
    generalize (if behind = true then (width g.widths body).least else 0) = back at hr
    split at hr
    · split at hr
      · exact ⟨s, hs, hr⟩
      · cases hr
    · split at hr
      · next hbody =>
        split at hr
        · cases hr
        · exact ⟨_, h.looked (by rw [Term.looks]; exact List.mem_singleton_self _) hs hbody, hr⟩
      · split at hr
        · exact ⟨s, hs, hr⟩
        · cases hr
  | .backReference index =>
    intro s k r hs hr
    rw [Regex.run] at hr
    dsimp only at hr
    split at hr
    · split at hr
      · exact ⟨_, h.forward hs (Nat.le_add_right _ _), hr⟩
      · cases hr
    · cases hr
  | .conditional index present absent =>
    rw [Term.looks] at h
    rw [Term.groups, List.forall_mem_append] at hmine
    intro s k r hs hr
    rw [Regex.run] at hr
    dsimp only at hr
    split at hr
    · exact (h.mono (List.subset_append_left ..)).run flags present hmine.1 s k r hs hr
    · exact (h.mono (List.subset_append_right ..)).run flags absent hmine.2 s k r hs hr
  | .repeated eagerness least most body =>
    rw [Term.looks] at h
    rw [Term.groups] at hmine
    rw [Regex.run]
    split
    · exact h.charTurns eagerness least most _
    · exact (h.run flags body hmine).turnsOf g eagerness least most

theorem Settled.runAll {g : Setting} {mine : Nat → Prop} {P : Progress → Prop} (flags : Flags) (ts : List Term)
    (h : Settled g mine (Term.looksOfAll ts) P) (hmine : ∀ i ∈ Term.groupsOfAll ts, mine i) :
    (runAll g flags ts).Keeps P := by
  match ts with
  | [] => rw [Regex.runAll]; exact .pass
  | t :: ts =>
    rw [Term.looksOfAll] at h
    rw [Term.groupsOfAll, List.forall_mem_append] at hmine
    rw [Regex.runAll]
    exact ((h.mono (List.subset_append_left ..)).run flags t hmine.1).bind
      ((h.mono (List.subset_append_right ..)).runAll flags ts hmine.2)

theorem Settled.runAny {g : Setting} {mine : Nat → Prop} {P : Progress → Prop} (flags : Flags) (ts : List Term)
    (h : Settled g mine (Term.looksOfAll ts) P) (hmine : ∀ i ∈ Term.groupsOfAll ts, mine i) :
    (runAny g flags ts).Keeps P := by
  match ts with
  | [] => rw [Regex.runAny]; exact .fail
  | t :: ts =>
    rw [Term.looksOfAll] at h
    rw [Term.groupsOfAll, List.forall_mem_append] at hmine
    rw [Regex.runAny]
    exact ((h.mono (List.subset_append_left ..)).run flags t hmine.1).orElse
      ((h.mono (List.subset_append_right ..)).runAny flags ts hmine.2)
end

/-! ## Groups of a look-around -/

namespace Term

mutual
/-- What a look-around looks at is a part of the term. -/
theorem of_mem_looks {body : Term} : (t : Term) → body ∈ t.looks → sizeOf body < sizeOf t ∧ body.groups ⊆ t.groups
  | .sequence ts, h | .choice ts, h => by
    rw [looks] at h
    obtain ⟨hsize, hgroups⟩ := of_mem_looksOfAll ts h
    simp only [sequence.sizeOf_spec, choice.sizeOf_spec, groups]
    exact ⟨by omega, hgroups⟩
  | .group index added removed inner, h => by
    rw [looks] at h
    obtain ⟨hsize, hgroups⟩ := of_mem_looks inner h
    simp only [group.sizeOf_spec, groups]
    exact ⟨by omega, List.subset_append_of_subset_right _ hgroups⟩
  | .atomic inner, h => by
    rw [looks] at h
    obtain ⟨hsize, hgroups⟩ := of_mem_looks inner h
    simp only [atomic.sizeOf_spec, groups]
    exact ⟨by omega, hgroups⟩
  | .look behind negated inner, h => by
    rw [looks] at h
    obtain rfl := List.mem_singleton.mp h
    simp only [look.sizeOf_spec, groups]
    exact ⟨by omega, List.Subset.refl _⟩
  | .conditional index present absent, h => by
    rw [looks] at h
    simp only [conditional.sizeOf_spec, groups]
    rcases List.mem_append.mp h with h | h
    · obtain ⟨hsize, hgroups⟩ := of_mem_looks present h
      exact ⟨by omega, List.subset_append_of_subset_left _ hgroups⟩
    · obtain ⟨hsize, hgroups⟩ := of_mem_looks absent h
      exact ⟨by omega, List.subset_append_of_subset_right _ hgroups⟩
  | .repeated eagerness least most inner, h => by
    rw [looks] at h
    obtain ⟨hsize, hgroups⟩ := of_mem_looks inner h
    simp only [repeated.sizeOf_spec, groups]
    exact ⟨by omega, hgroups⟩
  | .code .., h | .any, h | .oneOf .., h | .anchor _, h | .backReference _, h => nomatch h

theorem of_mem_looksOfAll {body : Term} : (ts : List Term) → body ∈ looksOfAll ts →
    sizeOf body < sizeOf ts ∧ body.groups ⊆ groupsOfAll ts
  | [], h => nomatch h
  | t :: ts, h => by
    rw [looksOfAll] at h
    rw [groupsOfAll]
    simp only [List.cons.sizeOf_spec]
    rcases List.mem_append.mp h with h | h
    · obtain ⟨hsize, hgroups⟩ := of_mem_looks t h
      exact ⟨by omega, List.subset_append_of_subset_left _ hgroups⟩
    · obtain ⟨hsize, hgroups⟩ := of_mem_looksOfAll ts h
      exact ⟨by omega, List.subset_append_of_subset_right _ hgroups⟩
end

end Term

namespace Progress

variable {s : Progress} {i j : Nat}

theorem capture_opened (s : Progress) (i j : Nat) :
    (s.opened j).capture i = s.capture i ∨ (s.opened j).capture i = ⟨some s.offset, (s.capture i).closed⟩ :=
  capture_modify s.captures s.offset i j fun c => { c with opened := some s.offset }

theorem capture_closed (s : Progress) (i j : Nat) :
    (s.closed j).capture i = s.capture i ∨ (s.closed j).capture i = ⟨(s.capture i).opened, some s.offset⟩ :=
  capture_modify s.captures s.offset i j fun c => { c with closed := some s.offset }

theorem capture_opened_of_ne (h : i ≠ j) : (s.opened j).capture i = s.capture i := by
  simp only [opened, capture, Array.getD_eq_getD_getElem?, Array.getElem?_modify, if_neg h.symm]

theorem capture_closed_of_ne (h : i ≠ j) : (s.closed j).capture i = s.capture i := by
  simp only [closed, capture, Array.getD_eq_getD_getElem?, Array.getElem?_modify, if_neg h.symm]

end Progress

/-- **A term changes the captures of its own groups only**, in its look-arounds as well. -/
theorem keeps_captured (g : Setting) (flags : Flags) (t : Term) (mine : Nat → Prop) (hmine : ∀ i ∈ t.groups, mine i)
    (captured : Nat → Capture) : (run g flags t).Keeps fun s => ∀ i, ¬mine i → s.capture i = captured i := by
  refine @Settled.run g mine _ flags t ⟨fun hs _ => hs, fun {s j} hj hs i hi => ?_, fun {s j} hj hs i hi => ?_,
    fun {body} hbody flags s o r hs hr => ?_⟩ hmine
  · have hne : i ≠ j := fun heq => hi (heq.symm ▸ hj)
    rw [Progress.capture_opened_of_ne hne, hs i hi]
  · have hne : i ≠ j := fun heq => hi (heq.symm ▸ hj)
    rw [Progress.capture_closed_of_ne hne, hs i hi]
  · have hsize := (Term.of_mem_looks t hbody).1
    have hgroups := (Term.of_mem_looks t hbody).2
    have hkeeps := keeps_captured g flags body mine (fun i hi => hmine i (hgroups hi)) captured
    have hdone : ∀ i, ¬mine i → r.capture i = captured i := hkeeps.settled (s := { s with offset := o }) hs hr
    exact hdone
termination_by sizeOf t

/-! ## Groups of a match -/

/-- **Progress from a place on** in which some groups have captured nothing in front of that place and
nothing ahead. -/
structure Progress.Inside (start : Nat) (looked : List Nat) (s : Progress) : Prop where
  start_le : start ≤ s.offset
  opened : ∀ i ∉ looked, ∀ n ∈ (s.capture i).opened, start ≤ n ∧ n ≤ s.offset
  closed : ∀ i ∉ looked, ∀ n ∈ (s.capture i).closed, start ≤ n ∧ n ≤ s.offset

/-- **A term keeps its groups inside what it matches**, unless they stand in a look-around. -/
theorem keeps_inside (g : Setting) (flags : Flags) (t : Term) (start : Nat) :
    (run g flags t).Keeps (Progress.Inside start t.looked) := by
  refine @Settled.run g (fun _ => True) _ flags t ⟨fun {s o} hs ho => ?_, fun {s j} _ hs => ?_, fun {s j} _ hs => ?_,
    fun {body} hbody flags s o r hs hr => ?_⟩ fun _ _ => trivial
  · exact ⟨hs.start_le.trans ho, fun i hi n hn => ⟨(hs.opened i hi n hn).1, (hs.opened i hi n hn).2.trans ho⟩,
      fun i hi n hn => ⟨(hs.closed i hi n hn).1, (hs.closed i hi n hn).2.trans ho⟩⟩
  · have hhere : start ≤ s.offset ∧ s.offset ≤ s.offset := ⟨hs.start_le, Nat.le_refl _⟩
    refine ⟨hs.start_le, fun i hi n hn => ?_, fun i hi n hn => ?_⟩ <;>
      rcases Progress.capture_opened s i j with hc | hc <;> rw [hc] at hn
    · exact hs.opened i hi n hn
    · exact Option.some.inj hn ▸ hhere
    · exact hs.closed i hi n hn
    · exact hs.closed i hi n hn
  · have hhere : start ≤ s.offset ∧ s.offset ≤ s.offset := ⟨hs.start_le, Nat.le_refl _⟩
    refine ⟨hs.start_le, fun i hi n hn => ?_, fun i hi n hn => ?_⟩ <;>
      rcases Progress.capture_closed s i j with hc | hc <;> rw [hc] at hn
    · exact hs.opened i hi n hn
    · exact hs.opened i hi n hn
    · exact hs.closed i hi n hn
    · exact Option.some.inj hn ▸ hhere
  · -- what is looked at leaves the other groups as they are, wherever it goes
    have hsame (i : Nat) (hi : i ∉ t.looked) : r.capture i = s.capture i := by
      refine (keeps_captured g flags body (fun i => i ∈ body.groups) (fun _ hi => hi) s.capture).settled
        (s := { s with offset := o }) (fun _ _ => rfl) hr i fun hmem => hi ?_
      exact List.mem_flatMap.mpr ⟨body, hbody, hmem⟩
    exact ⟨hs.start_le, fun i hi n hn => hs.opened i hi n (hsame i hi ▸ hn), fun i hi n hn => hs.closed i hi n (hsame i hi ▸ hn)⟩

theorem inside_of_matchAt {e : Expression} {text : Array Char} {offset : Nat} {r : Progress}
    (h : e.matchAt text offset = some r) : r.Inside offset e.term.looked := by
  have hnone (i : Nat) : (Progress.mk offset (Array.replicate (e.groups + 1) ⟨none, none⟩)).capture i = ⟨none, none⟩ := by
    rw [Progress.capture, Array.getD_eq_getD_getElem?, Array.getElem?_replicate]
    split <;> rfl
  refine (keeps_inside (e.setting text) e.flags e.term offset).settled ⟨Nat.le_refl _, fun i _ n hn => ?_, fun i _ n hn => ?_⟩ h
  · rw [hnone i] at hn
    cases hn
  · rw [hnone i] at hn
    cases hn

/-- **A group that stands in no look-around lies inside the match.** -/
theorem inside_of_mem_findAll {e : Expression} {text : String} {m : Found} (h : m ∈ e.findAll text)
    {group : FoundGroup} (hgroup : group ∈ m.groups) (hlooked : ¬e.Looked group.name) :
    m.span.start ≤ group.span.start ∧ group.span.stop ≤ m.span.stop := by
  obtain ⟨r, hmatch, hm⟩ := ((findAll_scans e text).2.2.2.1 m h).1
  have hinside := inside_of_matchAt hmatch
  rw [hm] at hgroup ⊢
  obtain ⟨⟨name, index⟩, hname, hfound⟩ := List.mem_filterMap.mp hgroup
  obtain ⟨⟨a, b⟩, hspan, rfl⟩ := Option.map_eq_some_iff.mp hfound
  have hindex : index ∉ e.term.looked := fun hmem => hlooked ⟨index, hmem, hname⟩
  rw [Capture.span?] at hspan
  split at hspan
  · next hopened hclosed =>
    split at hspan
    · obtain ⟨rfl, rfl⟩ := Prod.mk.inj (Option.some.inj hspan)
      exact ⟨(hinside.opened index hindex _ hopened).1, (hinside.closed index hindex _ hclosed).2⟩
    · cases hspan
  · cases hspan

end SlotEdit.Regex
