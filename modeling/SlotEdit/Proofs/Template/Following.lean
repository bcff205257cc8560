import SlotEdit.Template.Binding
import SlotEdit.Proofs.Edit.Runs
import SlotEdit.Proofs.Results

/-!
# Proofs/Template/Following — a template that follows an editor

A pass of a template that is made for matches, for assigned objects or for rules never fails
(`Subject.Made.exists_bound`).  So whatever the editor of a bound template is asked for, the template
stands at its document (`bind_follows`): it has found what a template that never saw another document
finds there, and the handles of every pass before are refused.
-/

namespace SlotEdit

/-! ## What is found has the shape that is asked for -/

namespace TreePattern

variable {p : TreePattern} {source : String} {m : Node}

mutual
theorem holds_of_mem_findIn : (n : Node) → m ∈ p.findIn source n → p.holds source m = true
  | .mk form span children, h => by
    rw [findIn] at h
    split at h
    · next hholds =>
      split at h
      · rcases List.mem_cons.mp h with rfl | h
        · exact hholds
        · exact holds_of_mem_findInAll children h
      · rw [List.mem_singleton.mp h]
        exact hholds
    · exact holds_of_mem_findInAll children h

theorem holds_of_mem_findInAll : (ns : List Node) → m ∈ p.findInAll source ns → p.holds source m = true
  | [], h => nomatch h
  | n :: rest, h => by
    rw [findInAll, List.mem_append] at h
    exact h.elim (holds_of_mem_findIn n) (holds_of_mem_findInAll rest)
end

/-- A fragment that is found is a node of which the pattern holds. -/
theorem exists_of_mem_fragments [Interpreter] {d : Document} {f : Fragment} (h : f ∈ p.fragments d) :
    ∃ source n, p.holds source n = true ∧ f = .ofNode d d.lines n := by
  rw [fragments_eq] at h
  split at h
  · cases h
  · split at h
    · cases h
    · obtain ⟨n, hn, rfl⟩ := List.mem_map.mp h
      exact ⟨_, n, holds_of_mem_findIn _ hn, rfl⟩

end TreePattern

namespace Subject

/-- **The subjects that templates are made for**: the matches of a pattern, the objects assigned to a
key, the rules of a selector. -/
inductive Made : Subject → Prop
  | groups (finder : Regex.Finder) : Made (.groups finder)
  | objects (key : String) : Made (Template.objectsOf key)
  | rules (selector : String) : Made (Template.rulesOf selector)

variable {d : Document} {spec : SlotSpecification}

/-- What a pattern finds can be held to a shape that all its nodes have. -/
theorem exists_held [Interpreter] {shape : Shape} {p : TreePattern}
    (h : ∀ source n, p.holds source n = true → ∃ held, shape.of? (.ofNode d d.lines n) = some held) :
    ∃ found, held shape (.tree p) d = .ok found := by
  have hcheck (f : Fragment) (hf : f ∈ p.fragments d) :
      ∃ found, (do pure (f, ← shape.check f) : Except ShapeFault (Fragment × Node)) = .ok found := by
    obtain ⟨source, n, hholds, rfl⟩ := TreePattern.exists_of_mem_fragments hf
    obtain ⟨held, hheld⟩ := h source n hholds
    exact ⟨(_, held), by rw [Shape.check, hheld]; rfl⟩
  exact exists_mapM_eq_ok hcheck

theorem exists_object {key : String} {n : Node} (h : Template.isObjectAssignment key n = true) :
    ∃ object, (Fragment.ofNode d d.lines n).object? = some object := by
  obtain ⟨-, hassigned⟩ := Bool.and_eq_true_iff.mp h
  cases hvalue : Json.propertyValue? n with
  | none => rw [hvalue] at hassigned; cases hassigned
  | some object =>
    rw [hvalue] at hassigned
    refine ⟨object, ?_⟩
    show (if Json.isObject ((Json.propertyValue? n).getD n) then _ else none) = some object
    rw [hvalue]
    exact if_pos hassigned

theorem exists_block {source selector : String} {n : Node}
    (h : (Css.normalizedSelector? source n == some selector) = true) :
    ∃ block, (Fragment.ofNode d d.lines n).block? = some block := by
  obtain ⟨head, hhead, -⟩ := Option.map_eq_some_iff.mp (beq_iff_eq.mp h)
  unfold Css.selectorOf? at hhead
  split at hhead
  · exact ⟨_, rfl⟩
  · cases hhead

/-- **A pass never fails.** -/
theorem Made.exists_bound [Interpreter] {s : Subject} (h : s.Made) (spec : SlotSpecification) (d : Document) :
    ∃ bound, s.bound spec d = .ok bound := by
  cases h with
  | groups finder => exact ⟨_, rfl⟩
  | objects key =>
    obtain ⟨found, hfound⟩ : ∃ found, held .jsonObject
        (.tree ⟨fun _ n => Template.isObjectAssignment key n, fun _ _ => .skip⟩) d = .ok found :=
      exists_held fun _ _ hn => exists_object hn
    exact ⟨_, bind_eq_ok.mpr ⟨found, hfound, rfl⟩⟩
  | rules selector =>
    obtain ⟨found, hfound⟩ : ∃ found, held .cssRule
        (.tree ⟨fun source n => Css.normalizedSelector? source n == some (Node.collapseBlanks selector),
          fun _ _ => .skip⟩) d = .ok found :=
      exists_held fun _ _ hn => exists_block hn
    exact ⟨_, bind_eq_ok.mpr ⟨found, hfound, rfl⟩⟩

end Subject

/-! ## One pass -/

/-- The keys of slots that are given to keys of a specification come from there, in order. -/
theorem keys_sublist_of_filterMap {spec : SlotSpecification} {slot? : String × Valuator → Option Slot}
    (h : ∀ e s, slot? e = some s → s.key = e.1) :
    ((spec.filterMap slot?).map Slot.key).Sublist (spec.map Prod.fst) := by
  induction spec with
  | nil => exact .slnil
  | cons e spec ih =>
    rw [List.filterMap_cons]
    cases hslot : slot? e with
    | none => exact ih.cons _
    | some s =>
      rw [List.map_cons, h e s hslot]
      exact ih.cons_cons _

theorem keys_slotsOfNodes_sublist (d : Document) (lines : LineTable) (spec : SlotSpecification)
    (node? : String → Option Node) :
    ((slotsOfNodes d lines spec node?).map Slot.key).Sublist (spec.map Prod.fst) := by
  refine keys_sublist_of_filterMap fun e s hs => ?_
  obtain ⟨n, -, rfl⟩ := Option.map_eq_some_iff.mp hs
  rfl

/-- **The slots of a fragment** are those of some keys of the specification, in its order. -/
theorem Subject.keys_sublist [Interpreter] {s : Subject} {spec : SlotSpecification} {d : Document} {bound : List Bound}
    (h : s.bound spec d = .ok bound) : ∀ b ∈ bound, (b.slots.map Slot.key).Sublist (spec.map Prod.fst) := by
  intro b hb
  cases s with
  | groups finder =>
    rw [← Except.ok.inj h] at hb
    obtain ⟨f, -, rfl⟩ := List.mem_map.mp hb
    refine keys_sublist_of_filterMap fun e s hs => ?_
    obtain ⟨g, -, rfl⟩ := Option.map_eq_some_iff.mp hs
    rfl
  | properties provider | declarations provider =>
    obtain ⟨found, -, h⟩ := bind_eq_ok.mp h
    rw [← pure_eq_ok.mp h] at hb
    obtain ⟨⟨f, held⟩, -, rfl⟩ := List.mem_map.mp hb
    dsimp only
    exact keys_slotsOfNodes_sublist ..

namespace Template

variable {t t' : Template} {d : Document} {h : Handle}

/-- The template is made for the same thing as another, under the same settings. -/
structure Kin (t t' : Template) : Prop where
  subject : t'.subject = t.subject
  specification : t'.specification = t.specification
  settings : t'.settings = t.settings

theorem Kin.refl (t : Template) : Kin t t := ⟨rfl, rfl, rfl⟩

theorem Kin.trans {t'' : Template} (h : Kin t t') (h' : Kin t' t'') : Kin t t'' :=
  ⟨h'.subject.trans h.subject, h'.specification.trans h.specification, h'.settings.trans h.settings⟩

/-- The last pass of the template was over a document, and it holds what that pass found. -/
structure StandsAt [Interpreter] (t : Template) (d : Document) : Prop where
  document : t.document = some d
  bound : t.subject.bound t.specification d = .ok t.bound

/-- **A pass** leaves a template of the same kind at the document, one pass further. -/
theorem exists_compute [Interpreter] (h : ∃ bound, t.subject.bound t.specification d = .ok bound) :
    ∃ t', t.compute d = .ok t' ∧ Kin t t' ∧ t'.StandsAt d ∧ t'.pass = t.pass + 1 := by
  obtain ⟨bound, hbound⟩ := h
  refine ⟨{ t with pass := t.pass + 1, document := some d, bound := bound }, ?_, ⟨rfl, rfl, rfl⟩, ⟨rfl, hbound⟩, rfl⟩
  rw [compute, hbound]

/-- What a template holds at a document is what a template that has seen no other finds there. -/
theorem StandsAt.exists_fresh [Interpreter] (h : t'.StandsAt d) (hkin : Kin t t') :
    ∃ fresh, (ofSubject t.subject t.specification t.settings).compute d = .ok fresh ∧
      t'.bound = fresh.bound := by
  have hbound : t.subject.bound t.specification d = .ok t'.bound := by
    rw [← hkin.subject, ← hkin.specification]
    exact h.bound
  refine ⟨⟨t.subject, t.specification, t.settings, 1, some d, t'.bound⟩, ?_, rfl⟩
  rw [compute, ofSubject, hbound]

/-! ## Handles -/

theorem mem_handles : h ∈ t.handles ↔ h.pass = t.pass ∧ h.index < t.bound.length := by
  rw [handles, List.mem_map]
  constructor
  · rintro ⟨i, hi, rfl⟩
    exact ⟨rfl, List.mem_range.mp hi⟩
  · rintro ⟨hpass, hindex⟩
    exact ⟨h.index, List.mem_range.mpr hindex, congrArg (Handle.mk · h.index) hpass.symm⟩

/-- A handle of another pass is refused. -/
theorem slotsOf_of_pass_ne (hpass : h.pass ≠ t.pass) :
    t.slotsOf h = .error (.staleFragment t.settings.name) := by
  rw [slotsOf, boundOf, if_neg hpass]
  rfl

/-- **A fragment has slots** just when its handle is one of the last pass. -/
theorem exists_slotsOf_iff : (∃ slots, t.slotsOf h = .ok slots) ↔ h ∈ t.handles := by
  rw [mem_handles]
  by_cases hpass : h.pass = t.pass
  · rw [slotsOf, boundOf, if_pos hpass, and_iff_right hpass]
    cases hbound : t.bound[h.index]? with
    | none =>
      have hle : t.bound.length ≤ h.index := List.getElem?_eq_none_iff.mp hbound
      exact ⟨fun ⟨_, h⟩ => (nomatch h), fun hlt => absurd hlt (Nat.not_lt.mpr hle)⟩
    | some b => exact ⟨fun _ => (List.getElem?_eq_some_iff.mp hbound).1, fun _ => ⟨b.slots, rfl⟩⟩
  · rw [slotsOf_of_pass_ne hpass]
    exact ⟨fun ⟨_, h⟩ => (nomatch h), fun h => absurd h.1 hpass⟩

theorem StandsAt.keys_sublist [Interpreter] {slots : List Slot} (ht : t.StandsAt d) (h : t.slotsOf h = .ok slots) :
    (slots.map Slot.key).Sublist (t.specification.map Prod.fst) := by
  obtain ⟨b, hb, rfl⟩ := map_eq_ok.mp h
  refine Subject.keys_sublist ht.bound b ?_
  rw [boundOf] at hb
  split at hb
  · next hfound =>
    cases hb
    split at hfound
    · exact List.mem_of_getElem? hfound
    · cases hfound
  · cases hb

end Template

/-! ## Being told of a document -/

namespace Binding

variable {t : Template} {b : Binding}

/-- **What a list of observers makes of a document** over which the template can make a pass: it goes one
pass further for each of its entries, and stands at the document if it has any. -/
theorem exists_notify [Interpreter] {d : Document} (h : ∃ bound, t.subject.bound t.specification d = .ok bound)
    (followers : List Follower) :
    ∃ t', notify d followers t = (t', none) ∧ t.Kin t' ∧
      t'.pass = t.pass + followers.count .template ∧
      (Follower.template ∈ followers → t'.StandsAt d) ∧ (Follower.template ∉ followers → t' = t) := by
  induction followers generalizing t with
  | nil => exact ⟨t, rfl, .refl t, rfl, fun h => (nomatch h), fun _ => rfl⟩
  | cons follower rest ih =>
    cases follower with
    | other name =>
      obtain ⟨t', hnotify, hkin, hpass, hstands, hsame⟩ := ih h
      refine ⟨t', hnotify, hkin, ?_, fun h => hstands ?_, fun h => hsame ?_⟩
      · rw [hpass, List.count_cons_of_ne Follower.noConfusion]
      · exact (List.mem_cons.mp h).resolve_left Follower.noConfusion
      · exact fun hmem => h (List.mem_cons_of_mem _ hmem)
    | template =>
      obtain ⟨t₁, hcompute, hkin₁, hstands₁, hpass₁⟩ := Template.exists_compute h
      obtain ⟨t', hnotify, hkin, hpass, hstands, hsame⟩ := ih (t := t₁) ⟨_, hstands₁.bound⟩
      refine ⟨t', ?_, hkin₁.trans hkin, ?_, fun _ => ?_, fun h => absurd List.mem_cons_self h⟩
      · rw [notify, hcompute]
        exact hnotify
      · rw [hpass, hpass₁, List.count_cons_self]
        omega
      · by_cases hmem : Follower.template ∈ rest
        · exact hstands hmem
        · rw [hsame hmem]
          exact hstands₁

/-! ## Runs -/

/-- What a request makes of an editor and its template: an applied batch is heard of, and any other
request is for the editor alone. -/
def step [Interpreter] (b : Binding) : Editor.Request Follower → Binding
  | .apply => b.apply.1
  | r => { b with editor := (b.editor.ask r).editor }

/-- An editor and its template behind requests, one after another. -/
def run [Interpreter] (b : Binding) (requests : List (Editor.Request Follower)) : Binding := requests.foldl step b

/-- The template is among the observers all along a run. -/
def StaysBound [Interpreter] (b : Binding) (requests : List (Editor.Request Follower)) : Prop :=
  ∀ front back, requests = front ++ back → Follower.template ∈ (b.run front).editor.observers

variable {r : Editor.Request Follower} {requests front back : List (Editor.Request Follower)}

theorem run_append [Interpreter] (b : Binding) (front back : List (Editor.Request Follower)) :
    b.run (front ++ back) = (b.run front).run back := List.foldl_append

/-- The template has no say in what becomes of the editor. -/
theorem editor_step [Interpreter] (b : Binding) (r : Editor.Request Follower) :
    (b.step r).editor = (b.editor.ask r).editor := by
  cases r with
  | apply =>
    rw [step, apply, Editor.ask]
    cases b.editor.apply <;> rfl
  | _ => rfl

theorem editor_run [Interpreter] (b : Binding) (requests : List (Editor.Request Follower)) :
    (b.run requests).editor = b.editor.run requests := by
  induction requests generalizing b with
  | nil => rfl
  | cons r rest ih =>
    show ((b.step r).run rest).editor = _
    rw [ih, editor_step]
    rfl

/-- The template hears of nothing but a batch that is applied. -/
theorem template_step_of_not_commits [Interpreter] (h : ¬ b.editor.Commits r) : (b.step r).template = b.template := by
  cases r with
  | apply =>
    have htold := (Editor.ask_of_not_commits h).2
    rw [Editor.ask] at htold
    rw [step, apply]
    cases happly : b.editor.apply with
    | error fault => rfl
    | ok done =>
      rw [happly] at htold
      have hnotified : done.2.notified = [] := List.map_eq_nil_iff.mp htold
      dsimp only
      rw [hnotified]
      rfl
  | _ => rfl

/-- **A batch that is applied** is heard of by each observer. -/
theorem step_of_commits [Interpreter] (h : b.editor.Commits r) :
    (b.step r).template = (notify (b.step r).editor.document b.editor.observers b.template).1 := by
  obtain ⟨content, -, hask⟩ := Editor.ask_of_commits h
  rw [editor_step, hask]
  obtain ⟨rfl, -⟩ := h
  rw [Editor.ask] at hask
  rw [step, apply]
  cases happly : b.editor.apply with
  | error fault => rw [happly] at hask; cases (Editor.Outcome.mk.inj hask).2.1
  | ok done =>
    rw [happly] at hask
    obtain ⟨heditor, -, htold⟩ := Editor.Outcome.mk.inj hask
    change done.1 = _ at heditor
    have hnotified : done.2.notified = b.editor.observers := by
      have hfirst := congrArg (List.map Prod.fst) htold
      simpa only [List.map_map, Function.comp_def, List.map_id'] using hfirst
    dsimp only
    rw [heditor, hnotified]

/-- **The template is not stale**: made for the same thing as when it was bound, it stands at the
document of the editor. -/
structure Follows [Interpreter] (t : Template) (b : Binding) : Prop where
  kin : t.Kin b.template
  stands : b.template.StandsAt b.editor.document

/-- **One request** leaves the template at the document of the editor; a batch that is applied takes it
to another pass. -/
theorem Follows.step [Interpreter] (ht : t.subject.Made) (h : b.Follows t)
    (hmem : Follower.template ∈ b.editor.observers)
    (r : Editor.Request Follower) :
    (b.step r).Follows t ∧ b.template.pass ≤ (b.step r).template.pass ∧
      (b.editor.Commits r → b.template.pass < (b.step r).template.pass) := by
  by_cases hcommits : b.editor.Commits r
  · have hmade : b.template.subject.Made := h.kin.subject ▸ ht
    obtain ⟨t', hnotify, hkin, hpass, hstands, -⟩ :=
      exists_notify (hmade.exists_bound _ (b.step r).editor.document) b.editor.observers
    have htemplate : (b.step r).template = t' := by rw [step_of_commits hcommits, hnotify]
    have hcount : 0 < b.editor.observers.count .template := List.count_pos_iff.mpr hmem
    have hlt : b.template.pass < (b.step r).template.pass := by rw [htemplate, hpass]; omega
    exact ⟨⟨htemplate ▸ h.kin.trans hkin, htemplate ▸ hstands hmem⟩, Nat.le_of_lt hlt, fun _ => hlt⟩
  · have htemplate := template_step_of_not_commits hcommits
    have hdocument : (b.step r).editor.document = b.editor.document := by
      rw [editor_step, (Editor.ask_of_not_commits hcommits).1]
    refine ⟨⟨htemplate ▸ h.kin, ?_⟩, htemplate ▸ Nat.le_refl _, fun h => absurd h hcommits⟩
    rw [htemplate, hdocument]
    exact h.stands

theorem StaysBound.left [Interpreter] (h : b.StaysBound (front ++ back)) : b.StaysBound front :=
  fun front' back' heq => h front' (back' ++ back) (by rw [heq, List.append_assoc])

theorem StaysBound.right [Interpreter] (h : b.StaysBound (front ++ back)) : (b.run front).StaysBound back := by
  intro front' back' heq
  rw [← run_append]
  exact h (front ++ front') back' (by rw [heq, List.append_assoc])

/-- **A run** leaves the template at the document of the editor, and never takes it back to a pass. -/
theorem Follows.run [Interpreter] (ht : t.subject.Made) (h : b.Follows t) (hbound : b.StaysBound requests) :
    (b.run requests).Follows t ∧ b.template.pass ≤ (b.run requests).template.pass := by
  induction requests generalizing b with
  | nil => exact ⟨h, Nat.le_refl _⟩
  | cons r rest ih =>
    obtain ⟨hfollows, hle, -⟩ := h.step ht (hbound [] (r :: rest) rfl) r
    obtain ⟨hrun, hmore⟩ := ih hfollows (show b.StaysBound ([r] ++ rest) from hbound).right
    exact ⟨hrun, Nat.le_trans hle hmore⟩

/-- A batch applied in a run leaves every handle of before behind. -/
theorem Follows.pass_lt [Interpreter] (ht : t.subject.Made) (h : b.Follows t)
    (hbound : b.StaysBound (front ++ r :: back)) (hcommits : (b.run front).editor.Commits r) :
    (b.run front).template.pass < (b.run (front ++ r :: back)).template.pass := by
  have hrest : (b.run front).StaysBound (r :: back) := hbound.right
  obtain ⟨hfollows, -, hlt⟩ := (h.run ht hbound.left).1.step ht (hrest [] (r :: back) rfl) r
  have hmore := (hfollows.run ht (show (b.run front).StaysBound ([r] ++ back) from hrest).right).2
  rw [run_append]
  exact Nat.lt_of_lt_of_le (hlt hcommits) hmore

/-- A template stays bound when nobody takes it out. -/
theorem staysBound_of_not_mem [Interpreter] (hmem : Follower.template ∈ b.editor.observers)
    (h : .removeObserver .template ∉ requests) : b.StaysBound requests := by
  rintro front back rfl
  have hfront : .removeObserver .template ∉ front := fun hf => h (List.mem_append_left back hf)
  clear h
  induction front generalizing b with
  | nil => exact hmem
  | cons r rest ih =>
    rw [List.mem_cons, not_or] at hfront
    refine ih (b := b.step r) ?_ hfront.2
    rw [editor_step]
    exact Editor.mem_observers_ask hmem (Ne.symm hfront.1)

/-- **A bound template is never stale.**  The binding makes a pass and does not fail; and behind any
run along which the template stays among the observers, the editor is as it would be without it, and
the template stands at the document of the editor: it holds the fragments and slots that a template
which saw no other document finds there.  Slots are had for the handles of the last pass and for no
others: those of the passes before the binding, and those of every point of the run behind which a
batch was applied, are refused by the name of the template.  The keys of the slots of a fragment are
keys of the specification, in its order. -/
theorem bind_follows [Interpreter] (start : Binding) (hmade : start.template.subject.Made)
    (requests : List (Editor.Request Follower)) (hbound : start.bind.1.StaysBound requests) :
    let t := start.template
    let bound := start.bind.1
    let b := bound.run requests
    start.bind.2 = none ∧ b.editor = (start.editor.addObserver .template).run requests ∧
    b.template.document = some b.editor.document ∧
    (∃ fresh, (Template.ofSubject t.subject t.specification t.settings).compute b.editor.document = .ok fresh ∧
      b.template.bound = fresh.bound) ∧
    (∀ h, (∃ slots, b.template.slotsOf h = .ok slots) ↔ h ∈ b.template.handles) ∧
    (∀ h, h.pass ≤ t.pass → b.template.slotsOf h = .error (.staleFragment t.settings.name)) ∧
    (∀ front r back, requests = front ++ r :: back → (bound.run front).editor.Commits r →
      ∀ h ∈ (bound.run front).template.handles,
        b.template.slotsOf h = .error (.staleFragment t.settings.name)) ∧
    (∀ h slots, b.template.slotsOf h = .ok slots →
      (slots.map Slot.key).Sublist (t.specification.map Prod.fst)) := by
  intro t bound b
  obtain ⟨t₁, hcompute, hkin, hstands, hpass⟩ := Template.exists_compute (hmade.exists_bound _ start.editor.document)
  have hbind : start.bind = (⟨start.editor.addObserver .template, t₁⟩, none) := by rw [bind, hcompute]
  have hfirst : bound.Follows t := by
    rw [show bound = _ from congrArg Prod.fst hbind]
    exact ⟨hkin, hstands⟩
  obtain ⟨hfollows, hle⟩ := hfirst.run hmade hbound
  have hname : b.template.settings.name = t.settings.name := congrArg Settings.name hfollows.kin.settings
  have hstale (h : Handle) (hlt : h.pass < b.template.pass) :
      b.template.slotsOf h = .error (.staleFragment t.settings.name) := by
    rw [Template.slotsOf_of_pass_ne (Nat.ne_of_lt hlt), hname]
  refine ⟨by rw [hbind], ?editor, hfollows.stands.document, hfollows.stands.exists_fresh hfollows.kin,
    fun h => Template.exists_slotsOf_iff, ?older, ?past, ?keys⟩
  case editor =>
    rw [editor_run, show bound = _ from congrArg Prod.fst hbind]
  case older =>
    intro h hold
    have hnew : bound.template.pass = t.pass + 1 := by
      rw [show bound = _ from congrArg Prod.fst hbind]
      exact hpass
    exact hstale h (Nat.lt_of_lt_of_le (Nat.lt_of_le_of_lt hold (by rw [hnew]; exact Nat.lt_succ_self _)) hle)
  case past =>
    rintro front r back rfl hcommits h hh
    refine hstale h ?_
    rw [(Template.mem_handles.mp hh).1]
    exact hfirst.pass_lt hmade hbound hcommits
  case keys =>
    intro h slots hslots
    rw [← hfollows.kin.specification]
    exact hfollows.stands.keys_sublist hslots

/-- A blank put in front leaves the handles of the first pass behind; one that is discarded does not
move the template from its document. -/
theorem bind_follows_objects :
    let d : Document := ⟨"\x7b\"m\": \x7b\"a\": 1\x7d\x7d", ⟨"JSON", "json", "json", some .json⟩⟩
    let start : Binding := ⟨.ofDocument d, .ofSubject (Template.objectsOf "m") [("a", .json)] (.named "marks")⟩
    let b := start.bind.1.run
      [.addObserver (.other "log"), .insert ⟨0, 0⟩ (.str " "), .apply, .insert ⟨0, 0⟩ (.str " "), .discard]
    start.bind.2 = none ∧ b.template.document = some (d.withContent (" " ++ d.content)) ∧
    ∀ h ∈ start.bind.1.template.handles, b.template.slotsOf h = .error (.staleFragment "marks") := by
  intro d start b
  have hmade : start.template.subject.Made := .objects "m"
  obtain ⟨t, hcompute, -⟩ := Template.exists_compute (hmade.exists_bound _ d)
  have hbind : start.bind = (⟨start.editor.addObserver .template, t⟩, none) := by
    rw [bind, show start.template.compute start.editor.document = _ from hcompute]
  have hmem : Follower.template ∈ start.bind.1.editor.observers := by
    rw [hbind]
    exact List.mem_singleton_self _
  have hbound : start.bind.1.StaysBound
      [.addObserver (.other "log"), .insert ⟨0, 0⟩ (.str " "), .apply, .insert ⟨0, 0⟩ (.str " "), .discard] :=
    staysBound_of_not_mem hmem (by simp)
  obtain ⟨hnone, heditor, hdocument, -, -, -, hstale, -⟩ := bind_follows start hmade _ hbound
  have hcommits : (start.bind.1.run [.addObserver (.other "log"), .insert ⟨0, 0⟩ (.str " ")]).editor.Commits
      .apply := by
    rw [editor_run, hbind]
    exact ⟨rfl, by cbv; decide, .document (d.withContent (" " ++ d.content)), by cbv⟩
  have hsame (b : Binding) :
      (b.run [.addObserver (.other "log"), .insert ⟨0, 0⟩ (.str " ")]).template = b.template := rfl
  refine ⟨hnone, ?_, fun h hh => hstale _ .apply [.insert ⟨0, 0⟩ (.str " "), .discard] rfl hcommits h ?_⟩
  · rw [hdocument, heditor]
    exact congrArg some (by cbv)
  · rw [hsame]
    exact hh

end Binding

end SlotEdit
