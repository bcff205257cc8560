import Mathlib
import SlotEdit.Edit.Editor

/-!
# Proofs/Edit/Runs — an editor under any requests

A `Request` is one thing that an editor can be asked for, and `ask` says what comes of it.  A run is
requests one after another.  `run_follows_batches` describes any request behind any run: it meets the
observers that the run has registered and the edits asked for since the batch began, the document is
the one the batch began with, and only a batch that is applied changes it and is heard of.
-/

namespace SlotEdit.Editor

/-- What an editor can be asked for. -/
inductive Request (ω : Type)
  | replace (range : TextRange) (text : Value)
  | insert (position : Position) (text : Value)
  | delete (range : TextRange)
  | add (edit : TextEdit)
  | discard
  | preview (context : Nat)
  | apply
  | addObserver (o : ω)
  | removeObserver (o : ω)

/-- Why a request is refused. -/
inductive RequestFault
  | batch (fault : BatchFault)
  | observer (fault : ObserverFault)

/-- What a request gives: the text of a diff, a document, or nothing. -/
inductive Answer
  | nothing
  | diff (text : String)
  | document (d : Document)

/-- What comes of a request: the editor behind it, the answer, and who was told of which document, in
order. -/
structure Outcome (ω : Type) where
  editor : Editor ω
  answer : Except RequestFault Answer
  told : List (ω × Document)

variable {ω : Type}

/-- The edit that a request puts to those that wait. -/
def Request.edit? : Request ω → Option TextEdit
  | .replace range text => some (.replace range text)
  | .insert position text => some (.insert position text)
  | .delete range => some (.delete range)
  | .add edit => some edit
  | _ => none

/-- Nothing is answered and nobody is told. -/
def Outcome.quiet (e : Editor ω) : Outcome ω := ⟨e, .ok .nothing, []⟩

/-- The request is refused and the editor stays. -/
def Outcome.refused (e : Editor ω) (fault : RequestFault) : Outcome ω := ⟨e, .error fault, []⟩

/-- The observers that requests have registered: each registration adds an entry, and each removal
takes the first entry of its observer out. -/
def registered [BEq ω] (requests : List (Request ω)) : List ω :=
  requests.foldl (fun os r => match r with
    | .addObserver o => os ++ [o]
    | .removeObserver o => os.erase o
    | _ => os) []

variable [DecidableEq ω]

/-- **What comes of a request.** -/
def ask (e : Editor ω) : Request ω → Outcome ω
  | .replace range text => .quiet (e.add (.replace range text))
  | .insert position text => .quiet (e.add (.insert position text))
  | .delete range => .quiet (e.add (.delete range))
  | .add edit => .quiet (e.add edit)
  | .discard => .quiet e.discard
  | .preview context =>
    match e.preview context with
    | .ok diff => ⟨e, .ok (.diff diff), []⟩
    | .error fault => .refused e (.batch fault)
  | .apply =>
    match e.apply with
    | .ok (e', done) => ⟨e', .ok (.document e'.document), done.notified.map (·, e'.document)⟩
    | .error fault => .refused e (.batch fault)
  | .addObserver o => .quiet (e.addObserver o)
  | .removeObserver o =>
    match e.removeObserver o with
    | .ok e' => .quiet e'
    | .error fault => .refused e (.observer fault)

/-- The editor behind requests, one after another. -/
def run (e : Editor ω) (requests : List (Request ω)) : Editor ω :=
  requests.foldl (fun e r => (e.ask r).editor) e

variable {e e' : Editor ω} {r : Request ω}

theorem run_concat (e : Editor ω) (past : List (Request ω)) (r : Request ω) :
    e.run (past ++ [r]) = ((e.run past).ask r).editor := by
  rw [run, List.foldl_append]
  rfl

/-! ## One request -/

/-- **The transitions of an editor**: the requests that it can meet, and what comes of each. -/
inductive Asked (e : Editor ω) : Request ω → Outcome ω → Prop
  | queued {r : Request ω} {edit : TextEdit} (h : r.edit? = some edit) : Asked e r (.quiet (e.add edit))
  | discarded : Asked e .discard (.quiet e.discard)
  | previewed {context : Nat} {diff : String} (h : e.preview context = .ok diff) :
      Asked e (.preview context) ⟨e, .ok (.diff diff), []⟩
  | previewRefused {context : Nat} {fault : BatchFault} (h : e.preview context = .error fault) :
      Asked e (.preview context) (.refused e (.batch fault))
  | idle (h : e.pending = []) : Asked e .apply ⟨e, .ok (.document e.document), []⟩
  | applied {content : String} (hpending : e.pending ≠ []) (h : e.edited = .ok content) :
      Asked e .apply ⟨⟨e.document.withContent content, [], e.observers⟩,
        .ok (.document (e.document.withContent content)), e.observers.map (·, e.document.withContent content)⟩
  | applyRefused {fault : BatchFault} (hpending : e.pending ≠ []) (h : e.edited = .error fault) :
      Asked e .apply (.refused e (.batch fault))
  | observed (o : ω) : Asked e (.addObserver o) (.quiet (e.addObserver o))
  | removed {o : ω} (h : o ∈ e.observers) :
      Asked e (.removeObserver o) (.quiet { e with observers := e.observers.erase o })
  | removeRefused {o : ω} (h : o ∉ e.observers) :
      Asked e (.removeObserver o) (.refused e (.observer .notRegistered))

theorem asked_preview (e : Editor ω) (context : Nat) : Asked e (.preview context) (e.ask (.preview context)) := by
  rw [ask]
  cases h : e.preview context with
  | ok diff => exact .previewed h
  | error fault => exact .previewRefused h

theorem asked_apply (e : Editor ω) : Asked e .apply (e.ask .apply) := by
  rw [ask, apply]
  by_cases hpending : e.pending = []
  · rw [hpending]
    exact .idle hpending
  · rw [List.isEmpty_eq_false_iff.mpr hpending]
    cases h : e.edited with
    | ok content => exact .applied hpending h
    | error fault => exact .applyRefused hpending h

theorem asked_removeObserver (e : Editor ω) (o : ω) : Asked e (.removeObserver o) (e.ask (.removeObserver o)) := by
  rw [ask, removeObserver]
  by_cases h : o ∈ e.observers
  · rw [if_pos (List.contains_iff_mem.mpr h)]
    exact .removed h
  · rw [if_neg (mt List.contains_iff_mem.mp h)]
    exact .removeRefused h

/-- **What comes of a request** is what a transition says. -/
theorem asked (e : Editor ω) (r : Request ω) : Asked e r (e.ask r) := by
  cases r with
  | replace _ _ | insert _ _ | delete _ | add _ => exact .queued rfl
  | discard => exact .discarded
  | preview context => exact asked_preview e context
  | apply => exact asked_apply e
  | addObserver o => exact .observed o
  | removeObserver o => exact asked_removeObserver e o

/-- A request that is refused changes nothing. -/
theorem ask_of_error {fault : RequestFault} (h : (e.ask r).answer = .error fault) :
    e.ask r = .refused e fault := by
  have hasked := asked e r
  generalize e.ask r = out at h hasked
  cases hasked with
  | queued | discarded | previewed | idle | applied | observed | removed => cases h
  | previewRefused | applyRefused | removeRefused => cases h; rfl

/-- An observer stays registered unless it is taken out. -/
theorem mem_observers_ask {o : ω} (hmem : o ∈ e.observers) (h : r ≠ .removeObserver o) :
    o ∈ (e.ask r).editor.observers := by
  have hasked := asked e r
  generalize e.ask r = out at hasked
  cases hasked with
  | observed _ => exact List.mem_append_left _ hmem
  | removed _ => exact (List.mem_erase_of_ne fun heq => h (congrArg Request.removeObserver heq.symm)).mpr hmem
  | _ => exact hmem

/-- The request applies a batch: edits wait, and it is not refused. -/
def Commits (e : Editor ω) (r : Request ω) : Prop :=
  r = .apply ∧ e.pending ≠ [] ∧ ∃ answer, (e.ask r).answer = .ok answer

/-- **Only a batch that is applied** changes the document or is heard of. -/
theorem ask_of_not_commits (h : ¬ e.Commits r) :
    (e.ask r).editor.document = e.document ∧ (e.ask r).told = [] := by
  rw [Commits] at h
  have hasked := asked e r
  generalize e.ask r = out at h hasked
  cases hasked with
  | applied hpending => exact absurd ⟨rfl, hpending, _, rfl⟩ h
  | _ => exact ⟨rfl, rfl⟩

/-- **A batch that is applied** leaves the document of its text and no edit, and each entry of the
observers hears of that document. -/
theorem ask_of_commits (h : e.Commits r) :
    ∃ content, e.edited = .ok content ∧
      e.ask r = ⟨⟨e.document.withContent content, [], e.observers⟩,
        .ok (.document (e.document.withContent content)),
        e.observers.map (·, e.document.withContent content)⟩ := by
  obtain ⟨rfl, hpending, answer, hanswer⟩ := h
  have hasked := asked e .apply
  generalize e.ask .apply = out at hasked hanswer
  cases hasked with
  | queued hedit => cases hedit
  | idle hnone => exact absurd hnone hpending
  | applied _ hcontent => exact ⟨_, hcontent, rfl⟩
  | applyRefused => cases hanswer

/-! ## Runs -/

theorem registered_concat (past : List (Request ω)) (r : Request ω) :
    registered (past ++ [r]) = match r with
      | .addObserver o => registered past ++ [o]
      | .removeObserver o => (registered past).erase o
      | _ => registered past := by
  rw [registered, List.foldl_append]
  rfl

/-- **The observers of an editor** are those that its run has registered. -/
theorem observers_run (d : Document) (past : List (Request ω)) :
    ((ofDocument d).run past).observers = registered past := by
  induction past using List.reverseRecOn with
  | nil => rfl
  | append_singleton past r ih =>
    rw [run_concat, registered_concat]
    generalize (ofDocument d).run past = e at ih ⊢
    have hasked := asked e r
    generalize e.ask r = out at hasked
    cases hasked with
    | queued hedit => cases r <;> cases hedit <;> exact ih
    | observed o => exact congrArg (· ++ [o]) ih
    | @removed o => exact congrArg (List.erase · o) ih
    | @removeRefused o ho => exact (List.erase_of_not_mem ho).symm.trans (congrArg (List.erase · o) ih)
    | _ => exact ih

/-- **A batch**: the edits that wait are those asked for since the batch began, when none did, and the
document is still the one of then. -/
theorem exists_batch (d : Document) (past : List (Request ω)) :
    ∃ front back, past = front ++ back ∧ ((ofDocument d).run front).pending = [] ∧
      ((ofDocument d).run past).document = ((ofDocument d).run front).document ∧
      ((ofDocument d).run past).pending = back.filterMap Request.edit? := by
  induction past using List.reverseRecOn with
  | nil => exact ⟨[], [], rfl, rfl, rfl, rfl⟩
  | append_singleton past r ih =>
    obtain ⟨front, back, hpast, hfront, hdocument, hpending⟩ := ih
    -- a request that leaves the document goes on with the batch
    have hgoes (hsame : ((ofDocument d).run (past ++ [r])).document = ((ofDocument d).run past).document)
        (hqueue : ((ofDocument d).run (past ++ [r])).pending
          = ((ofDocument d).run past).pending ++ [r].filterMap Request.edit?) :
        ∃ front back, past ++ [r] = front ++ back ∧ ((ofDocument d).run front).pending = [] ∧
          ((ofDocument d).run (past ++ [r])).document = ((ofDocument d).run front).document ∧
          ((ofDocument d).run (past ++ [r])).pending = back.filterMap Request.edit? :=
      ⟨front, back ++ [r], by rw [hpast, List.append_assoc], hfront, hsame.trans hdocument,
        by rw [hqueue, hpending, List.filterMap_append]⟩
    -- one that leaves no edit begins another
    have hbegins (hnone : ((ofDocument d).run (past ++ [r])).pending = []) :
        ∃ front back, past ++ [r] = front ++ back ∧ ((ofDocument d).run front).pending = [] ∧
          ((ofDocument d).run (past ++ [r])).document = ((ofDocument d).run front).document ∧
          ((ofDocument d).run (past ++ [r])).pending = back.filterMap Request.edit? :=
      ⟨past ++ [r], [], (List.append_nil _).symm, hnone, rfl, hnone⟩
    rw [run_concat] at hgoes hbegins ⊢
    generalize (ofDocument d).run past = e at hgoes hbegins ⊢
    have hasked := asked e r
    generalize e.ask r = out at hasked hgoes hbegins ⊢
    cases hasked with
    | queued hedit => exact hgoes rfl (by rw [List.filterMap_cons_some hedit]; rfl)
    | discarded | applied => exact hbegins rfl
    | idle hpending => exact hbegins hpending
    | _ => exact hgoes rfl (List.append_nil _).symm

/-- **Runs follow batches.**  Any request behind any run meets the observers that the run has
registered, a document that no request has changed since the batch began, and the edits asked for
since, in order.  Unless it applies a batch, it leaves the document and is heard of by nobody; if it
does, the new document has the text of the batch, no edit waits, and each registration hears of it, in
order.  A request that is refused leaves the editor as it is. -/
theorem run_follows_batches (d : Document) (past : List (Request ω)) (r : Request ω) :
    let e := (ofDocument d).run past
    e.observers = registered past ∧
    (∃ front back, past = front ++ back ∧ ((ofDocument d).run front).pending = [] ∧
      e.document = ((ofDocument d).run front).document ∧ e.pending = back.filterMap Request.edit?) ∧
    (¬ e.Commits r → (e.ask r).editor.document = e.document ∧ (e.ask r).told = []) ∧
    (e.Commits r → ∃ content, e.edited = .ok content ∧
      (e.ask r).editor = ⟨e.document.withContent content, [], registered past⟩ ∧
      (e.ask r).answer = .ok (.document (e.document.withContent content)) ∧
      (e.ask r).told = (registered past).map (·, e.document.withContent content)) ∧
    (∀ fault, (e.ask r).answer = .error fault → (e.ask r).editor = e ∧ (e.ask r).told = []) := by
  intro e
  have hobservers : e.observers = registered past := observers_run d past
  refine ⟨hobservers, exists_batch d past, ?quiet, ?applied, ?refused⟩
  case quiet => exact ask_of_not_commits
  case applied =>
    intro h
    obtain ⟨content, hcontent, hask⟩ := ask_of_commits h
    rw [hask, ← hobservers]
    exact ⟨content, hcontent, rfl, rfl, rfl⟩
  case refused =>
    intro fault h
    rw [ask_of_error h]
    exact ⟨rfl, rfl⟩

/-- A batch that overlaps is refused and discarded; the one after it is heard of by the registrations
that are left. -/
theorem run_tells_registered :
    let d : Document := ⟨"abc", ⟨"Text", "text", "txt", none⟩⟩
    let e := (ofDocument d).run [.addObserver "a", .addObserver "b", .addObserver "a",
      .replace (.between ⟨0, 0⟩ ⟨0, 2⟩) (.str "x"), .delete (.between ⟨0, 1⟩ ⟨0, 3⟩), .apply, .discard,
      .removeObserver "a", .insert ⟨0, 3⟩ (.str "d")]
    e.Commits .apply ∧ (e.ask .apply).told = [("b", d.withContent "abcd"), ("a", d.withContent "abcd")] := by
  intro d e
  have hcommits : e.Commits .apply := ⟨rfl, by cbv; decide, .document (d.withContent "abcd"), by cbv⟩
  obtain ⟨content, hcontent, -, -, htold⟩ := (run_follows_batches d _ .apply).2.2.2.1 hcommits
  have hedited : e.edited = .ok "abcd" := by cbv
  obtain rfl := Except.ok.inj (hedited.symm.trans hcontent)
  exact ⟨hcommits, htold.trans (by cbv)⟩

end SlotEdit.Editor
