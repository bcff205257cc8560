import SlotEdit.Regex.Finder

/-!
# Proofs/Regex/Captures — matches and groups lie in the text

A matcher only ever hands on progress that stays in the text and never goes back (`keeps_run`), so
that every match that is found, and every group that took part in it, is a piece of the text that was
searched (`within_of_searchFrom`, `within_of_mem_findAll`).
-/

namespace SlotEdit.Regex

/-- A place that has been noted, if any, lies in a text of some size. -/
def Noted (size : Nat) (o : Option Nat) : Prop := ∀ n ∈ o, n ≤ size

/-- **Progress that stays in a text** of some size, from an offset on. -/
structure Progress.Within (start size : Nat) (s : Progress) : Prop where
  start_le : start ≤ s.offset
  offset : s.offset ≤ size
  opened : ∀ i, Noted size (s.capture i).opened
  closed : ∀ i, Noted size (s.capture i).closed

/-- **A matcher keeps a property** if all progress it hands on has it. -/
def Matcher.Keeps (P : Progress → Prop) (m : Matcher) : Prop :=
  ∀ s k r, P s → m s k = some r → ∃ s', P s' ∧ k s' = some r

namespace Progress

variable {start size : Nat} {s : Progress}

/-- Changing the captures of a group changes what it and no other group has captured. -/
theorem capture_modify (captures : Array Capture) (offset i j : Nat) (f : Capture → Capture) :
    (Progress.mk offset (captures.modify j f)).capture i = (Progress.mk offset captures).capture i ∨
      (Progress.mk offset (captures.modify j f)).capture i = f ((Progress.mk offset captures).capture i) := by
  simp only [capture, Array.getD_eq_getD_getElem?, Array.getElem?_modify]
  cases captures[i]? with
  | none => exact .inl (by split <;> rfl)
  | some c =>
    split
    · exact .inr rfl
    · exact .inl rfl

theorem Within.opens (h : s.Within start size) (index : Nat) : (s.opened index).Within start size := by
  refine ⟨h.start_le, h.offset, fun i => ?_, fun i => ?_⟩
  · rcases capture_modify s.captures s.offset i index fun c => { c with opened := some s.offset } with hc | hc
    · exact hc ▸ h.opened i
    · exact fun n hn => (Option.some.inj (hc ▸ hn)) ▸ h.offset
  · rcases capture_modify s.captures s.offset i index fun c => { c with opened := some s.offset } with hc | hc
    · exact hc ▸ h.closed i
    · exact hc ▸ h.closed i

theorem Within.closes (h : s.Within start size) (index : Nat) : (s.closed index).Within start size := by
  refine ⟨h.start_le, h.offset, fun i => ?_, fun i => ?_⟩
  · rcases capture_modify s.captures s.offset i index fun c => { c with closed := some s.offset } with hc | hc
    · exact hc ▸ h.opened i
    · exact hc ▸ h.opened i
  · rcases capture_modify s.captures s.offset i index fun c => { c with closed := some s.offset } with hc | hc
    · exact hc ▸ h.closed i
    · exact fun n hn => (Option.some.inj (hc ▸ hn)) ▸ h.offset

/-- Going elsewhere in the text. -/
theorem Within.moved (h : s.Within start size) {start' o : Nat} (hstart : start' ≤ o) (ho : o ≤ size) :
    Within start' size { s with offset := o } :=
  ⟨hstart, ho, h.opened, h.closed⟩

/-- What a group stands on is a piece of the text. -/
theorem Within.span? (h : s.Within start size) {i a b : Nat} (hspan : (s.capture i).span? = some (a, b)) :
    a ≤ b ∧ b ≤ size := by
  rw [Capture.span?] at hspan
  split at hspan
  · next hopened hclosed =>
    split at hspan
    · next hle =>
      obtain ⟨rfl, rfl⟩ := Prod.mk.inj (Option.some.inj hspan)
      exact ⟨hle, h.closed i _ hclosed⟩
    · cases hspan
  · cases hspan

end Progress

/-! ## Matchers -/

namespace Matcher.Keeps

variable {P : Progress → Prop} {body : Matcher}

theorem pass : Keeps P fun s k => k s := fun s _ _ hs hr => ⟨s, hs, hr⟩

theorem fail : Keeps P fun _ _ => none := fun _ _ _ _ hr => nomatch hr

theorem bind {next : Matcher} (h : Keeps P body) (hnext : Keeps P next) :
    Keeps P fun s k => body s fun s' => next s' k := by
  intro s k r hs hr
  obtain ⟨s', hs', hr⟩ := h s _ r hs hr
  exact hnext s' k r hs' hr

theorem orElse {other : Matcher} (h : Keeps P body) (hother : Keeps P other) :
    Keeps P fun s k => match body s k with
      | some r => some r
      | none => other s k := by
  intro s k r hs hr
  dsimp only at hr
  split at hr
  · next r' hbody => exact h s k r hs (hbody.trans hr)
  · exact hother s k r hs hr

/-- What a matcher settles on has the property. -/
theorem settled (h : Keeps P body) {s r : Progress} (hs : P s) (hr : body s some = some r) : P r := by
  obtain ⟨s', hs', hr⟩ := h s some r hs hr
  exact Option.some.inj hr ▸ hs'

theorem greedyTurns (h : Keeps P body) (least : Nat) (most : Option Nat) (turns count : Nat) (last : Option Nat) :
    Keeps P (greedyTurns body least most turns count last) := by
  induction turns generalizing count last with
  | zero => exact pass
  | succ turns ih =>
    intro s k r hs hr
    rw [Regex.greedyTurns] at hr
    split at hr
    · exact h.bind (ih _ _) s k r hs hr
    · split at hr
      · exact (h.bind (ih (count + 1) (some s.offset))).orElse pass s k r hs hr
      · exact ⟨s, hs, hr⟩

theorem lazyTurns (h : Keeps P body) (least : Nat) (most : Option Nat) (turns count : Nat) (last : Option Nat) :
    Keeps P (lazyTurns body least most turns count last) := by
  induction turns generalizing count last with
  | zero => exact pass
  | succ turns ih =>
    intro s k r hs hr
    rw [Regex.lazyTurns] at hr
    split at hr
    · exact h.bind (ih _ _) s k r hs hr
    · split at hr
      · next hk => exact ⟨s, hs, hk.trans hr⟩
      · split at hr
        · exact h.bind (ih (count + 1) (some s.offset)) s k r hs hr
        · cases hr

theorem settledTurns (h : Keeps P body) (least : Nat) (most : Option Nat) (turns count : Nat) (last : Option Nat)
    {s r : Progress} (hs : P s) (hr : settledTurns body least most turns count last s = some r) : P r := by
  induction turns generalizing count last s with
  | zero => exact Option.some.inj hr ▸ hs
  | succ turns ih =>
    rw [Regex.settledTurns] at hr
    split at hr
    · split at hr
      · next hbody => exact ih _ _ (h.settled hs hbody) hr
      · cases hr
    · split at hr
      · split at hr
        · next hbody => exact ih _ _ (h.settled hs hbody) hr
        · exact Option.some.inj hr ▸ hs
      · exact Option.some.inj hr ▸ hs

theorem turnsOf (h : Keeps P body) (g : Setting) (eagerness : Eagerness) (least : Nat) (most : Option Nat) :
    Keeps P (turnsOf g eagerness least most body) := by
  intro s k r hs hr
  cases eagerness with
  | greedy => exact h.greedyTurns least most _ 0 none s k r hs hr
  | lazy => exact h.lazyTurns least most _ 0 none s k r hs hr
  | possessive =>
    obtain ⟨s', hsettled, hr⟩ := Option.bind_eq_some_iff.mp hr
    exact ⟨s', h.settledTurns least most _ 0 none hs hsettled, hr⟩

end Matcher.Keeps

section Setting

variable {g : Setting}

theorem keeps_one (test : Char → Bool) (start : Nat) : (g.one test).Keeps (Progress.Within start g.text.size) := by
  intro s k r hs hr
  rw [Setting.one] at hr
  split at hr
  · next c hc =>
    split at hr
    · have hlt : s.offset < g.text.size := (Array.getElem?_eq_some_iff.mp hc).1
      exact ⟨_, hs.moved (Nat.le_succ_of_le hs.start_le) hlt, hr⟩
    · cases hr
  · cases hr

theorem runLength_le (test : Char → Bool) (turns offset : Nat) (h : offset ≤ g.text.size) :
    offset + g.runLength test turns offset ≤ g.text.size := by
  induction turns generalizing offset with
  | zero => exact h
  | succ turns ih =>
    rw [Setting.runLength.eq_def]
    cases hc : g.text[offset]? with
    | none => exact h
    | some c =>
      have hlt : offset < g.text.size := (Array.getElem?_eq_some_iff.mp hc).1
      dsimp only
      split
      · have := ih (offset + 1) hlt
        omega
      · exact h

theorem exists_of_givingBack {P : Progress → Prop} {s r : Progress} {k : Progress → Option Progress} {least extra : Nat}
    (hP : ∀ n ≤ least + extra, P { s with offset := s.offset + n }) (hr : givingBack s k least extra = some r) :
    ∃ s', P s' ∧ k s' = some r := by
  induction extra with
  | zero =>
    rw [givingBack] at hr
    split at hr
    · next hk => exact ⟨_, hP _ (Nat.le_refl _), hk.trans hr⟩
    · cases hr
  | succ extra ih =>
    rw [givingBack] at hr
    split at hr
    · next hk => exact ⟨_, hP _ (Nat.le_refl _), hk.trans hr⟩
    · exact ih (fun n hn => hP n (Nat.le_succ_of_le hn)) hr

theorem exists_of_takingMore {P : Progress → Prop} {s r : Progress} {k : Progress → Option Progress} {taken extra : Nat}
    (hP : ∀ n ≤ taken + extra, P { s with offset := s.offset + n }) (hr : takingMore s k taken extra = some r) :
    ∃ s', P s' ∧ k s' = some r := by
  induction extra generalizing taken with
  | zero =>
    rw [takingMore] at hr
    split at hr
    · next hk => exact ⟨_, hP _ (Nat.le_refl _), hk.trans hr⟩
    · cases hr
  | succ extra ih =>
    rw [takingMore] at hr
    split at hr
    · next hk => exact ⟨_, hP _ (Nat.le_add_right _ _), hk.trans hr⟩
    · exact ih (fun n hn => hP n (by omega)) hr

theorem charTurns_eq (eagerness : Eagerness) (least : Nat) (most : Option Nat) (test : Char → Bool) {s : Progress}
    (k : Progress → Option Progress) : ∃ run, (s.offset ≤ g.text.size → s.offset + run ≤ g.text.size) ∧
      charTurns g eagerness least most test s k = if run < least then none
        else match eagerness with
          | .greedy => givingBack s k least (run - least)
          | .lazy => takingMore s k least (run - least)
          | .possessive => k { s with offset := s.offset + run } :=
  ⟨_, runLength_le test _ s.offset, rfl⟩

theorem keeps_charTurns (eagerness : Eagerness) (least : Nat) (most : Option Nat) (test : Char → Bool)
    (start : Nat) : (charTurns g eagerness least most test).Keeps (Progress.Within start g.text.size) := by
  intro s k r hs hr
  obtain ⟨run, hrun, heq⟩ := charTurns_eq (g := g) eagerness least most test k (s := s)
  replace hrun := hrun hs.offset
  rw [heq] at hr
  split at hr
  · cases hr
  · have hwithin : ∀ n ≤ least + (run - least), Progress.Within start g.text.size { s with offset := s.offset + n } :=
      fun n hn => hs.moved (Nat.le_add_right_of_le hs.start_le) (by omega)
    cases eagerness with
    | greedy => exact exists_of_givingBack hwithin hr
    | lazy => exact exists_of_takingMore hwithin hr
    | possessive => exact ⟨_, hs.moved (Nat.le_add_right_of_le hs.start_le) hrun, hr⟩

/-- Characters that stand again stand in the text. -/
theorem le_of_repeats {flags : Flags} {first last offset : Nat} (h : g.repeats flags first last offset = true)
    (hoffset : offset ≤ g.text.size) : offset + (last - first) ≤ g.text.size := by
  cases hlength : last - first with
  | zero => exact hoffset
  | succ n =>
    -- the last of the characters is there
    have hlast := List.all_eq_true.mp h n (List.mem_range.mpr (hlength ▸ Nat.lt_succ_self n))
    split at hlast
    · next hd => exact (Array.getElem?_eq_some_iff.mp hd).1
    · cases hlast

end Setting

mutual
/-- **Terms stay in the text** and never go back. -/
theorem keeps_run (g : Setting) (flags : Flags) (t : Term) (start : Nat) :
    (run g flags t).Keeps (Progress.Within start g.text.size) := by
  match t with
  | .code n negated => rw [run]; exact keeps_one _ start
  | .any => rw [run]; exact keeps_one _ start
  | .oneOf negated ms => rw [run]; exact keeps_one _ start
  | .anchor place =>
    intro s k r hs hr
    rw [run] at hr
    dsimp only at hr
    split at hr
    · exact ⟨s, hs, hr⟩
    · cases hr
  | .sequence ts => rw [run]; exact keeps_runAll g flags ts start
  | .choice ts => rw [run]; exact keeps_runAny g flags ts start
  | .group (some index) added removed body =>
    intro s k r hs hr
    rw [run] at hr
    obtain ⟨s', hs', hr⟩ := keeps_run g _ body start _ _ r (hs.opens index) hr
    exact ⟨_, hs'.closes index, hr⟩
  | .group none added removed body => rw [run]; exact keeps_run g _ body start
  | .atomic body =>
    intro s k r hs hr
    rw [run] at hr
    obtain ⟨s', hsettled, hr⟩ := Option.bind_eq_some_iff.mp hr
    exact ⟨s', (keeps_run g flags body start).settled hs hsettled, hr⟩
  | .look behind negated body =>
    intro s k r hs hr
    rw [run] at hr
    dsimp only at hr
    have hback : s.offset - (if behind = true then (width g.widths body).least else 0) ≤ g.text.size :=
      Nat.le_trans (Nat.sub_le _ _) hs.offset
    generalize (if behind = true then (width g.widths body).least else 0) = back at hr hback
    split at hr
    · split at hr
      · exact ⟨s, hs, hr⟩
      · cases hr
    · split at hr
      · next hbody =>
        split at hr
        · cases hr
        · -- what is looked at may lie before the start, but the match goes on where it was
          have hlook := (keeps_run g flags body (s.offset - back)).settled (hs.moved (Nat.le_refl _) hback) hbody
          exact ⟨_, hlook.moved hs.start_le hs.offset, hr⟩
      · split at hr
        · exact ⟨s, hs, hr⟩
        · cases hr
  | .backReference index =>
    intro s k r hs hr
    rw [run] at hr
    dsimp only at hr
    split at hr
    · next a b hspan =>
      split at hr
      · next hrepeats => exact ⟨_, hs.moved (Nat.le_add_right_of_le hs.start_le) (le_of_repeats hrepeats hs.offset), hr⟩
      · cases hr
    · cases hr
  | .conditional index present absent =>
    intro s k r hs hr
    rw [run] at hr
    dsimp only at hr
    split at hr
    · exact keeps_run g flags present start s k r hs hr
    · exact keeps_run g flags absent start s k r hs hr
  | .repeated eagerness least most body =>
    rw [run]
    split
    · exact keeps_charTurns eagerness least most _ start
    · exact (keeps_run g flags body start).turnsOf g eagerness least most

theorem keeps_runAll (g : Setting) (flags : Flags) (ts : List Term) (start : Nat) :
    (runAll g flags ts).Keeps (Progress.Within start g.text.size) := by
  match ts with
  | [] => rw [runAll]; exact .pass
  | t :: ts => rw [runAll]; exact (keeps_run g flags t start).bind (keeps_runAll g flags ts start)

theorem keeps_runAny (g : Setting) (flags : Flags) (ts : List Term) (start : Nat) :
    (runAny g flags ts).Keeps (Progress.Within start g.text.size) := by
  match ts with
  | [] => rw [runAny]; exact .fail
  | t :: ts => rw [runAny]; exact (keeps_run g flags t start).orElse (keeps_runAny g flags ts start)
end

/-! ## Matches -/

theorem within_of_matchAt {e : Expression} {text : Array Char} {offset : Nat} {r : Progress}
    (h : e.matchAt text offset = some r) (hoffset : offset ≤ text.size) : r.Within offset text.size := by
  have hstart : Progress.Within offset text.size ⟨offset, Array.replicate (e.groups + 1) ⟨none, none⟩⟩ := by
    have hnone (i : Nat) : (Progress.mk offset (Array.replicate (e.groups + 1) ⟨none, none⟩)).capture i = ⟨none, none⟩ := by
      rw [Progress.capture, Array.getD_eq_getD_getElem?, Array.getElem?_replicate]
      split <;> rfl
    exact ⟨Nat.le_refl _, hoffset, fun i n hn => (nomatch (hnone i ▸ hn : _ ∈ (none : Option Nat))),
      fun i n hn => (nomatch (hnone i ▸ hn : _ ∈ (none : Option Nat)))⟩
  exact (keeps_run (e.setting text) e.flags e.term offset).settled hstart h

theorem within_of_searchFrom {e : Expression} {text : Array Char} {turns offset start : Nat} {r : Progress}
    (h : e.searchFrom text turns offset = some (start, r)) (hturns : offset + turns ≤ text.size + 1) :
    r.Within start text.size := by
  induction turns generalizing offset with
  | zero => cases h
  | succ turns ih =>
    rw [Expression.searchFrom] at h
    split at h
    · next hmatch =>
      obtain ⟨rfl, rfl⟩ := Prod.mk.inj (Option.some.inj h)
      exact within_of_matchAt hmatch (by omega)
    · exact ih h (by omega)

/-- The groups of a match in the text. -/
theorem within_of_mem_foundGroups {e : Expression} {start size : Nat} {r : Progress} (hr : r.Within start size)
    {group : FoundGroup} (h : group ∈ e.foundGroups r) :
    group.span.start ≤ group.span.stop ∧ group.span.stop ≤ size := by
  obtain ⟨⟨name, index⟩, -, hgroup⟩ := List.mem_filterMap.mp h
  obtain ⟨⟨a, b⟩, hspan, rfl⟩ := Option.map_eq_some_iff.mp hgroup
  exact hr.span? hspan

theorem within_of_mem_findAllFrom {e : Expression} {text : Array Char} {turns offset : Nat} {m : Found}
    (h : m ∈ e.findAllFrom text turns offset) {group : FoundGroup} (hgroup : group ∈ m.groups) :
    group.span.start ≤ group.span.stop ∧ group.span.stop ≤ text.size := by
  induction turns generalizing offset with
  | zero => cases h
  | succ turns ih =>
    rw [Expression.findAllFrom] at h
    split at h
    · next hoffset =>
      split at h
      · cases h
      · next start r hsearch =>
        rcases List.mem_cons.mp h with rfl | h
        · exact within_of_mem_foundGroups (within_of_searchFrom hsearch (by omega)) hgroup
        · exact ih h
    · cases h

/-- **Every group that took part in a match is a piece of the text.** -/
theorem within_of_mem_findAll {e : Expression} {text : String} {m : Found} (h : m ∈ e.findAll text)
    {group : FoundGroup} (hgroup : group ∈ m.groups) :
    group.span.start ≤ group.span.stop ∧ group.span.stop ≤ text.toList.length :=
  within_of_mem_findAllFrom h hgroup

end SlotEdit.Regex
