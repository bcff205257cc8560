import SlotEdit.Proofs.Template.Faithful
import SlotEdit.Proofs.Template.Following

/-!
# Proofs/Template/Failures — what is left when a pass fails

A pass fails when a fragment does not hold what it has to (`Subject.unshaped_of_error`).  Whatever an
editor and its template are asked for, the template holds what its last successful pass found
(`Binding.passes_run`), so a call that fails leaves it there.  The one thing that a failing call leaves
behind is the entry of a template that could not be bound (`Binding.failed_call_keeps_pass`).
-/

namespace SlotEdit

variable {d : Document}

/-! ## Why a pass fails -/

/-- A fragment of the document that does not hold what it has to. -/
structure ShapeFault.Unshaped (d : Document) (fault : ShapeFault) : Prop where
  fragment : fault.fragment.Faithful d
  shape : fault.expected.of? fault.fragment = none

theorem Shape.unshaped_of_check {shape : Shape} {f : Fragment} {fault : ShapeFault} (hf : f.Faithful d)
    (h : shape.check f = .error fault) : fault.Unshaped d := by
  rw [check] at h
  split at h
  · cases h
  · next hnone =>
    obtain rfl := Except.error.inj h
    exact ⟨hf, hnone⟩

mutual
/-- **A provider fails** on a fragment that does not hold what it has to. -/
theorem Provider.unshaped_of_error [Interpreter] {fault : ShapeFault} : (p : Provider) → p.fragments d = .error fault →
    fault.Unshaped d
  | .regex finder, h => by rw [fragments] at h; cases h
  | .tree pattern, h => by rw [fragments] at h; cases h
  | .composite providers, h => by
    rw [fragments] at h
    rcases bind_eq_error.mp h with h | ⟨all, -, h⟩
    · exact unshaped_of_fragmentsOfAll providers h
    · cases h
  | .holding shape provider, h => by
    rw [fragments] at h
    rcases bind_eq_error.mp h with h | ⟨fs, hfs, h⟩
    · exact unshaped_of_error provider h
    · rcases bind_eq_error.mp h with h | ⟨nodes, -, h⟩
      · obtain ⟨f, hf, hcheck⟩ := exists_of_mapM_eq_error h
        exact Shape.unshaped_of_check (provider.faithful_of_mem_fragments hfs f hf) hcheck
      · cases h

theorem Provider.unshaped_of_fragmentsOfAll [Interpreter] {fault : ShapeFault} : (ps : List Provider) →
    Provider.fragmentsOfAll d ps = .error fault → fault.Unshaped d
  | [], h => by rw [fragmentsOfAll] at h; cases h
  | p :: rest, h => by
    rw [fragmentsOfAll] at h
    rcases bind_eq_error.mp h with h | ⟨fs, -, h⟩
    · exact unshaped_of_error p h
    · rcases bind_eq_error.mp h with h | ⟨more, -, h⟩
      · exact unshaped_of_fragmentsOfAll rest h
      · cases h
end

namespace Subject

variable {s : Subject} {spec : SlotSpecification} {fault : ShapeFault}

theorem unshaped_of_held [Interpreter] {shape : Shape} {provider : Provider}
    (h : held shape provider d = .error fault) :
    fault.Unshaped d := by
  rcases bind_eq_error.mp h with h | ⟨fs, hfs, h⟩
  · exact provider.unshaped_of_error h
  · obtain ⟨f, hf, h⟩ := exists_of_mapM_eq_error h
    rcases bind_eq_error.mp h with hcheck | ⟨n, -, h⟩
    · exact Shape.unshaped_of_check (provider.faithful_of_mem_fragments hfs f hf) hcheck
    · cases h

/-- **A pass fails** on a fragment that does not hold what it has to. -/
theorem unshaped_of_error [Interpreter] (h : s.bound spec d = .error fault) : fault.Unshaped d := by
  cases s with
  | groups finder => cases h
  | properties provider | declarations provider =>
    rcases bind_eq_error.mp h with h | ⟨found, -, h⟩
    · exact unshaped_of_held h
    · cases h

end Subject

namespace Editor

variable {ω : Type} [DecidableEq ω]

/-- The document of an editor and the edits that wait, without the observers. -/
def unobserved (e : Editor ω) : Editor ω := { e with observers := [] }

/-- Observers have no say in what becomes of a text. -/
theorem unobserved_ask (e : Editor ω) (r : Request ω) :
    (e.ask r).editor.unobserved = (e.unobserved.ask r).editor.unobserved := by
  have hremove (e : Editor ω) (o : ω) : (e.ask (.removeObserver o)).editor.unobserved = e.unobserved := by
    rw [ask, removeObserver]
    by_cases h : e.observers.contains o = true
    · rw [if_pos h]
      rfl
    · rw [if_neg h]
      rfl
  cases r with
  | preview context =>
    rw [ask, ask, show e.unobserved.preview context = e.preview context from rfl]
    cases e.preview context <;> rfl
  | apply =>
    rw [ask, ask, apply, apply, show e.unobserved.pending = e.pending from rfl,
      show e.unobserved.edited = e.edited from rfl]
    cases e.pending.isEmpty with
    | true => rfl
    | false => cases e.edited <;> rfl
  | removeObserver o => rw [hremove, hremove]; rfl
  | _ => rfl

theorem unobserved_run (e : Editor ω) (requests : List (Request ω)) :
    (e.run requests).unobserved = (e.unobserved.run requests).unobserved := by
  induction requests generalizing e with
  | nil => rfl
  | cons r rest ih =>
    show ((e.ask r).editor.run rest).unobserved = ((e.unobserved.ask r).editor.run rest).unobserved
    rw [ih, unobserved_ask, ← ih]

/-- An observer more or fewer changes no text of a run. -/
theorem unobserved_run_addObserver (e : Editor ω) (o : ω) (requests : List (Request ω)) :
    ((e.addObserver o).run requests).unobserved = (e.run requests).unobserved := by
  rw [unobserved_run, show (e.addObserver o).unobserved = e.unobserved from rfl, ← unobserved_run]

end Editor

/-! ## Passes -/

namespace Template

variable {t t' t'' : Template} {passes passes' : List Document}

/-- **What passes make of a template**: one after another they take it on, and it holds what the last one
found. -/
structure Passes [Interpreter] (t : Template) (passes : List Document) (t' : Template) : Prop where
  kin : t.Kin t'
  pass : t'.pass = t.pass + passes.length
  last : ∀ d ∈ passes.getLast?, t'.StandsAt d
  none : passes = [] → t' = t

theorem Passes.refl [Interpreter] (t : Template) : t.Passes [] t := ⟨.refl t, rfl, nofun, fun _ => rfl⟩

theorem Passes.trans [Interpreter] (h : t.Passes passes t') (h' : t'.Passes passes' t'') :
    t.Passes (passes ++ passes') t'' := by
  refine ⟨h.kin.trans h'.kin, ?_, fun d hd => ?_, fun hnil => ?_⟩
  · rw [h'.pass, h.pass, List.length_append, Nat.add_assoc]
  · rw [List.getLast?_append] at hd
    cases hlast : passes'.getLast? with
    | some d' =>
      rw [hlast] at hd
      obtain rfl := Option.some.inj hd
      exact h'.last _ hlast
    | none =>
      rw [hlast] at hd
      rw [h'.none (List.getLast?_eq_none_iff.mp hlast)]
      exact h.last d hd
  · obtain ⟨hnil, hnil'⟩ := List.append_eq_nil_iff.mp hnil
    rw [h'.none hnil', h.none hnil]

theorem Passes.one [Interpreter] (h : t.compute d = .ok t') : t.Passes [d] t' := by
  obtain ⟨bound, hbound, rfl⟩ := compute_eq_ok_iff.mp h
  refine ⟨⟨rfl, rfl, rfl⟩, rfl, fun d' hd => ?_, nofun⟩
  obtain rfl := Option.some.inj hd
  exact ⟨rfl, hbound⟩

theorem unshaped_of_compute [Interpreter] {fault : TemplateFault} (h : t.compute d = .error fault) :
    ∃ unshaped, fault = .shape unshaped ∧ unshaped.Unshaped d := by
  rw [compute] at h
  split at h
  · cases h
  · next hbound => exact ⟨_, (Except.error.inj h).symm, Subject.unshaped_of_error hbound⟩

end Template

namespace Binding

/-! ## Calls -/

/-- What an editor and its template are asked for: the template is bound, makes a pass over any document,
or the editor is asked. -/
inductive Call
  | bind
  | compute (d : Document)
  | ask (r : Editor.Request Follower)

/-- Why a call fails: the template cannot make its pass, or the editor refuses. -/
inductive CallFault
  | template (fault : TemplateFault)
  | editor (fault : Editor.RequestFault)

/-- A fault of an applied batch is one of the editor, or of the template that hears of it. -/
def CallFault.ofApply : ApplyFault → CallFault
  | .batch fault => .editor (.batch fault)
  | .template fault => .template fault

/-- The fault of a request that the editor refuses. -/
def CallFault.ofAnswer? : Except Editor.RequestFault Editor.Answer → Option CallFault
  | .ok _ => none
  | .error fault => some (.editor fault)

/-- **What a call leaves**, and why it fails, if it does. -/
def call [Interpreter] (b : Binding) : Call → Binding × Option CallFault
  | .bind => (b.bind.1, b.bind.2.map .template)
  | .compute d => ((b.compute d).1, (b.compute d).2.map .template)
  | .ask .apply => (b.apply.1, b.apply.2.map .ofApply)
  | .ask r => (b.step r, CallFault.ofAnswer? (b.editor.ask r).answer)

/-- The passes that a call makes: none if it fails. -/
def passes [Interpreter] (b : Binding) (c : Call) : List Document :=
  let out := b.call c
  match out.2, c with
  | some _, _ => []
  | none, .bind => [b.editor.document]
  | none, .compute d => [d]
  | none, .ask .apply =>
    if b.editor.pending.isEmpty then []
    else List.replicate (b.editor.observers.count .template) out.1.editor.document
  | none, .ask _ => []

variable {b : Binding} {c : Call} {t : Template}

/-- **The calls** that an editor and its template can meet, and what comes of each. -/
inductive Called [Interpreter] (b : Binding) : Call → Binding × Option CallFault → Prop
  | bound {t : Template} (h : b.template.compute b.editor.document = .ok t) :
      Called b .bind (⟨b.editor.addObserver .template, t⟩, none)
  | bindFailed {fault : TemplateFault} (h : b.template.compute b.editor.document = .error fault) :
      Called b .bind (⟨b.editor.addObserver .template, b.template⟩, some (.template fault))
  | computed {d : Document} {t : Template} (h : b.template.compute d = .ok t) :
      Called b (.compute d) (⟨b.editor, t⟩, none)
  | computeFailed {d : Document} {fault : TemplateFault} (h : b.template.compute d = .error fault) :
      Called b (.compute d) (b, some (.template fault))
  | heard {content : String} {t : Template} (hpending : b.editor.pending ≠ []) (hcontent : b.editor.edited = .ok content)
      (h : b.template.Passes
        (.replicate (b.editor.observers.count .template) (b.editor.document.withContent content)) t) :
      Called b (.ask .apply) (⟨⟨b.editor.document.withContent content, [], b.editor.observers⟩, t⟩, none)
  | hearingFailed {content : String} {fault : TemplateFault} (hpending : b.editor.pending ≠ [])
      (hcontent : b.editor.edited = .ok content) (hmem : Follower.template ∈ b.editor.observers)
      (h : b.template.compute (b.editor.document.withContent content) = .error fault) :
      Called b (.ask .apply) (⟨⟨b.editor.document.withContent content, [], b.editor.observers⟩, b.template⟩,
        some (.template fault))
  | asked {r : Editor.Request Follower} (h : ¬b.editor.Commits r) :
      Called b (.ask r) (⟨(b.editor.ask r).editor, b.template⟩, CallFault.ofAnswer? (b.editor.ask r).answer)

/-- **Being told of a document**: the template makes a pass for each of its entries, or it fails at once. -/
theorem notify_cases [Interpreter] (t : Template) (d : Document) (followers : List Follower) :
    (∃ t', notify d followers t = (t', none) ∧ t.Passes (.replicate (followers.count .template) d) t') ∨
    ∃ fault, Follower.template ∈ followers ∧ t.compute d = .error fault ∧ notify d followers t = (t, some fault) := by
  cases hbound : t.subject.bound t.specification d with
  | ok bound =>
    obtain ⟨t', hnotify, hkin, hpass, hstands, hsame⟩ := exists_notify ⟨bound, hbound⟩ followers
    refine .inl ⟨t', hnotify, hkin, by rw [hpass, List.length_replicate], fun d' hd => ?_, fun hnil => hsame ?_⟩
    · rw [List.getLast?_replicate] at hd
      split at hd
      · cases hd
      · next hcount =>
        obtain rfl := Option.some.inj hd
        exact hstands (List.count_pos_iff.mp (Nat.pos_of_ne_zero hcount))
    · exact List.count_eq_zero.mp (List.length_replicate.symm.trans (congrArg List.length hnil))
  | error fault =>
    have hcompute : t.compute d = .error (.shape fault) := by rw [Template.compute, hbound]
    induction followers with
    | nil => exact .inl ⟨t, rfl, .refl t⟩
    | cons follower rest ih =>
      cases follower with
      | template =>
        refine .inr ⟨_, List.mem_cons_self, hcompute, ?_⟩
        rw [notify, hcompute]
      | other name =>
        rw [notify, List.count_cons_of_ne Follower.noConfusion]
        exact ih.imp_right fun h => h.imp fun _ hfault => ⟨List.mem_cons_of_mem _ hfault.1, hfault.2⟩

theorem step_of_not_commits [Interpreter] {r : Editor.Request Follower} (h : ¬b.editor.Commits r) :
    b.step r = ⟨(b.editor.ask r).editor, b.template⟩ := by
  rw [← editor_step, ← template_step_of_not_commits h]

theorem called_apply [Interpreter] (b : Binding) : Called b (.ask .apply) (b.call (.ask .apply)) := by
  by_cases hcommits : b.editor.Commits .apply
  · obtain ⟨content, hcontent, hask⟩ := Editor.ask_of_commits hcommits
    obtain ⟨-, hpending, -⟩ := hcommits
    have happly : b.editor.apply = .ok (⟨b.editor.document.withContent content, [], b.editor.observers⟩,
        ⟨b.editor.pending.length, b.editor.observers⟩) := by
      rw [Editor.apply, List.isEmpty_eq_false_iff.mpr hpending, hcontent]
      rfl
    rw [call, apply, happly]
    dsimp only
    rcases notify_cases b.template (b.editor.document.withContent content) b.editor.observers with
      ⟨t, hnotify, ht⟩ | ⟨fault, hmem, hfault, hnotify⟩
    · rw [hnotify]
      exact .heard hpending hcontent ht
    · rw [hnotify]
      exact .hearingFailed hpending hcontent hmem hfault
  · have hfault : b.apply.2.map .ofApply = CallFault.ofAnswer? (b.editor.ask .apply).answer := by
      have htold := (Editor.ask_of_not_commits hcommits).2
      rw [Editor.ask] at htold ⊢
      rw [apply]
      cases happly : b.editor.apply with
      | error fault => rfl
      | ok done =>
        rw [happly] at htold
        have hnotified : done.2.notified = [] := List.map_eq_nil_iff.mp htold
        dsimp only
        rw [hnotified]
        rfl
    rw [call, hfault, show b.apply.1 = b.step .apply from rfl, step_of_not_commits hcommits]
    exact .asked hcommits

/-- **What comes of a call** is what is said of it. -/
theorem called [Interpreter] (b : Binding) (c : Call) : Called b c (b.call c) := by
  cases c with
  | bind =>
    rw [call, bind]
    cases h : b.template.compute b.editor.document with
    | ok t => exact .bound h
    | error fault => exact .bindFailed h
  | compute d =>
    rw [call, compute]
    cases h : b.template.compute d with
    | ok t => exact .computed h
    | error fault => exact .computeFailed h
  | ask r =>
    by_cases hr : r = .apply
    · subst hr
      exact called_apply b
    · have hcommits : ¬b.editor.Commits r := fun h => hr h.1
      have hcall : b.call (.ask r) = (b.step r, CallFault.ofAnswer? (b.editor.ask r).answer) := by
        cases r with
        | apply => exact absurd rfl hr
        | _ => rfl
      rw [hcall, step_of_not_commits hcommits]
      exact .asked hcommits

/-- **A call takes the template one pass further for each pass it makes**, and leaves it alone if it fails. -/
theorem passes_call [Interpreter] (b : Binding) (c : Call) : b.template.Passes (b.passes c) (b.call c).1.template := by
  have hcalled := b.called c
  unfold passes
  generalize b.call c = out at hcalled ⊢
  cases hcalled with
  | bound h | computed h => exact .one h
  | bindFailed | computeFailed | hearingFailed => exact .refl b.template
  | heard hpending _ h =>
    dsimp only
    rw [List.isEmpty_eq_false_iff.mpr hpending]
    exact h
  | @asked r hcommits =>
    cases hanswer : (b.editor.ask r).answer with
    | error fault => exact .refl b.template
    | ok answer =>
      cases r with
      | apply =>
        have hnone : b.editor.pending = [] := by_contra fun h => hcommits ⟨rfl, h, answer, hanswer⟩
        dsimp only [CallFault.ofAnswer?]
        rw [hnone]
        exact .refl b.template
      | _ => exact .refl b.template

/-- The document that a call has the template look at. -/
def Call.target (c : Call) (b : Binding) : Document :=
  match c with
  | .compute d => d
  | _ => b.editor.document

/-- What a call that fails makes of the editor, and why a pass of it failed. -/
theorem Called.of_failed [Interpreter] {out : Binding × Option CallFault} {fault : CallFault} (h : Called b c out)
    (hfault : out.2 = some fault) :
    (∀ d, c = .compute d → out.1 = b) ∧ (c = .bind → out.1.editor = b.editor.addObserver .template) ∧
    (∀ r, c = .ask r → out.1.editor = (b.editor.ask r).editor) ∧
    ∀ failed, fault = .template failed → ∃ unshaped, failed = .shape unshaped ∧
      unshaped.Unshaped (c.target out.1) := by
  have hfailed {d : Document} {fault' failed : TemplateFault} (h : b.template.compute d = .error fault')
      (hsome : some (CallFault.template fault') = some fault) (heq : fault = .template failed) :
      ∃ unshaped, failed = .shape unshaped ∧ unshaped.Unshaped d := by
    obtain rfl : fault' = failed := CallFault.template.inj (Option.some.inj (hsome.trans (congrArg some heq)))
    exact Template.unshaped_of_compute h
  cases h with
  | bound | computed | heard => cases hfault
  | bindFailed h => exact ⟨by rintro _ ⟨⟩, fun _ => rfl, by rintro _ ⟨⟩, fun _ => hfailed h hfault⟩
  | computeFailed h => exact ⟨fun _ _ => rfl, by rintro ⟨⟩, by rintro _ ⟨⟩, fun _ => hfailed h hfault⟩
  | hearingFailed hpending hcontent hmem h =>
    refine ⟨by rintro _ ⟨⟩, by rintro ⟨⟩, fun r hr => ?_, fun _ => hfailed h hfault⟩
    obtain rfl := Call.ask.inj hr
    rw [Editor.ask, Editor.apply, List.isEmpty_eq_false_iff.mpr hpending, hcontent]
    rfl
  | @asked r hcommits =>
    refine ⟨by rintro _ ⟨⟩, by rintro ⟨⟩, fun r' hr => ?_, fun failed hfailed => ?_⟩
    · obtain rfl := Call.ask.inj hr
      rfl
    · cases hanswer : (b.editor.ask r).answer with
      | ok answer => rw [hanswer] at hfault; cases hfault
      | error refused => rw [hanswer, hfailed] at hfault; cases hfault

/-! ## Calls one after another -/

/-- An editor and its template behind calls. -/
def runCalls [Interpreter] (b : Binding) (calls : List Call) : Binding := calls.foldl (fun b c => (b.call c).1) b

/-- The passes that are made along calls. -/
def passesAlong [Interpreter] (b : Binding) : List Call → List Document
  | [] => []
  | c :: rest => b.passes c ++ (b.call c).1.passesAlong rest

/-- **The template holds what its last successful pass found**, whatever failed since. -/
theorem passes_run [Interpreter] (b : Binding) (calls : List Call) :
    b.template.Passes (b.passesAlong calls) (b.runCalls calls).template := by
  induction calls generalizing b with
  | nil => exact .refl b.template
  | cons c rest ih => exact (b.passes_call c).trans (ih (b.call c).1)

/-- **A call that fails leaves the template at its last successful pass**: it stands at the document of that
pass, or is what it was at the start if there was none.  A pass over any document that fails changes nothing at
all, and one over a new document of the editor changes what the editor alone would.  A template that cannot be
bound stays among the observers; the document and the waiting edits are what they were, and will be what they
would have been.  The passes that fail do so on a fragment that does not hold what it has to. -/
theorem failed_call_keeps_pass [Interpreter] (start : Binding) (calls : List Call) {c : Call} {fault : CallFault} :
    let b := start.runCalls calls
    let b' := (b.call c).1
    (b.call c).2 = some fault →
      b'.template = b.template ∧ start.template.Kin b'.template ∧
      (start.passesAlong calls = [] → b'.template = start.template) ∧
      (∀ d ∈ (start.passesAlong calls).getLast?, b'.template.StandsAt d) ∧
      (∀ d, c = .compute d → b' = b) ∧
      (c = .bind → b'.editor = b.editor.addObserver .template ∧
        ∀ requests, (b'.editor.run requests).unobserved = (b.editor.run requests).unobserved) ∧
      (∀ r, c = .ask r → b'.editor = (b.editor.ask r).editor) ∧
      ∀ failed, fault = .template failed → ∃ unshaped, failed = .shape unshaped ∧
        unshaped.Unshaped (c.target b') := by
  intro b b' hfault
  have hpasses : start.template.Passes (start.passesAlong calls) b.template := start.passes_run calls
  have htemplate : b'.template = b.template := by
    refine (b.passes_call c).none ?_
    unfold passes
    dsimp only
    rw [hfault]
  obtain ⟨hcompute, hbind, hask, hunshaped⟩ := (b.called c).of_failed hfault
  refine ⟨htemplate, htemplate ▸ hpasses.kin, fun hnone => htemplate.trans (hpasses.none hnone),
    fun d hd => htemplate ▸ hpasses.last d hd, hcompute, fun hc => ⟨hbind hc, ?_⟩, hask, hunshaped⟩
  rw [show b'.editor = _ from hbind hc]
  exact b.editor.unobserved_run_addObserver .template

/-- A template of all objects and numbers of a text makes a pass over one without numbers, and cannot be bound
to one with a number. -/
theorem failed_call_keeps_pass_bind :
    let json : Language := ⟨"JSON", "json", "json", some .json⟩
    let first : Document := ⟨"\x7b\"a\": \"x\"\x7d", json⟩
    let start : Binding := ⟨.ofDocument ⟨"\x7b\"a\": 1\x7d", json⟩, .ofSubject (.properties (.tree
      ⟨fun _ n => n.typeName == "Object" || n.typeName == "Number", fun _ _ => .below⟩)) [("a", .json)] (.named "all")⟩
    let b := (start.call (.compute first)).1
    (b.call .bind).2.isSome = true ∧ (b.call .bind).1.template.StandsAt first ∧
    (b.call .bind).1.template.fragments.map Fragment.text = ["\x7b\"a\": \"x\"\x7d"] ∧
    (b.call .bind).1.editor.observers = [.template] := by
  intro json first start b
  have hfails : (b.call .bind).2.isSome = true := by decide +kernel
  obtain ⟨fault, hfault⟩ := Option.isSome_iff_exists.mp hfails
  have hpasses : start.passesAlong [.compute first] = [first] := by
    have hfirst : (start.call (.compute first)).2 = none := Option.isNone_iff_eq_none.mp (by decide +kernel)
    rw [passesAlong, passesAlong, List.append_nil]
    unfold passes
    dsimp only
    rw [hfirst]
  obtain ⟨-, -, -, hlast, -, hbind, -⟩ := failed_call_keeps_pass start [.compute first] hfault
  refine ⟨hfails, hlast first (by rw [hpasses]; rfl), by decide +kernel, ?_⟩
  have heditor : (b.call .bind).1.editor = b.editor.addObserver .template := (hbind rfl).1
  have hnone : b.editor.observers = [] := by decide +kernel
  rw [heditor]
  exact congrArg (· ++ [Follower.template]) hnone

end Binding

end SlotEdit
