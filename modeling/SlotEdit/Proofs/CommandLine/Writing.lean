import Mathlib.Data.List.Forall2
import SlotEdit.Proofs.CommandLine.Running
import SlotEdit.Proofs.Storage.Overwriting
import SlotEdit.Proofs.Template.Committing
import SlotEdit.Proofs.Template.Groups
import SlotEdit.Proofs.Results

/-!
# Proofs/CommandLine/Writing — how commands that edit a file come to write it

The two commands that edit a file read everything first and then apply one edit.  They end badly
with the files as they were, or come as far as that edit (`setSlot_cases`, `setProperty_cases`).
-/

namespace SlotEdit

/-- **What is written for a value that was read** is a text without halves, unless the slot is JSON. -/
theorem Valuator.written_cases [Interpreter] {valuator : Valuator} {text : String} {v written : Value}
    (hread : valuator.deserialize text = .ok v) (hwrite : valuator.serialize v = .ok written) :
    (∃ s, written = .str s) ∨
      ∃ t, Json.decode text = .ok v ∧ Json.encode v = .ok t ∧ written = .ofText t := by
  cases valuator with
  | text =>
    obtain rfl := Except.ok.inj hread
    exact .inl ⟨text, (Except.ok.inj hwrite).symm⟩
  | number =>
    rw [Valuator.serialize.eq_def] at hwrite
    dsimp only at hwrite
    split at hwrite
    · cases hwrite
    · obtain ⟨s, -, rfl⟩ := map_eq_ok.mp (mapError_eq_ok.mp hwrite)
      exact .inl ⟨s, rfl⟩
  | json =>
    obtain ⟨t, ht, rfl⟩ := Template.serialize_json_eq_ok.mp hwrite
    exact .inr ⟨t, mapError_eq_ok.mp hread, ht, rfl⟩

namespace Run

variable {s s' : Session}

/-! ## What has been read -/

theorem require_eq_ok {condition : Bool} {markup : String}
    (h : (require condition markup).resultIn s = (.ok (), s')) : condition = true := by
  cases condition with
  | true => rfl
  | false => exact absurd h resultIn_fail_ne_ok

/-- A document holds the text of its file as it is read, in the language that is asked for. -/
theorem document_eq_ok {p : Path} {asked : Option String} {c : Configuration} {d : Document}
    (h : (document p asked c).resultIn s = (.ok d, s')) : s.files.readText p = .ok d.content ∧
      ∃ id, languageId asked c p = .text id ∧ Registry.builtin.get? id = some d.language := by
  rw [document, resultIn_get_bind, resultIn_bind_eq_ok] at h
  obtain ⟨_, s₁, hrequire, h⟩ := h
  split at h
  · next id hid =>
    split at h
    · next language hlanguage =>
      rw [resultIn_bind_eq_ok] at h
      obtain ⟨text, s₂, hread, h⟩ := h
      obtain rfl : (⟨text, language⟩ : Document) = d := Except.ok.inj (congrArg Prod.fst h)
      exact ⟨orCrash_eq_ok hread, id, hid, hlanguage⟩
    · simp only [resultIn_bind_eq_ok] at h
      obtain ⟨_, _, _, _, _, _, h⟩ := h
      cases h
  · cases h

/-- The slot that options declare for a key: that of the last option with it. -/
def declared? (options : List String) (key : String) : Option Valuator :=
  (options.reverse.find? fun o => (slotOption o).1 == key).bind fun o => slotKinds.lookup (slotOption o).2

theorem lookup_insert (spec : SlotSpecification) (k key : String) (v : Valuator) :
    (spec.insert k v).lookup key = if key = k then some v else spec.lookup key := by
  induction spec with
  | nil =>
    rw [SlotSpecification.insert, List.lookup_cons]
    cases hkey : key == k with
    | true => rw [if_pos (beq_iff_eq.mp hkey)]
    | false => rw [if_neg (beq_eq_false_iff_ne.mp hkey)]
  | cons e rest ih =>
    obtain ⟨other, w⟩ := e
    rw [SlotSpecification.insert]
    split
    · next heq =>
      subst heq
      rw [List.lookup_cons, List.lookup_cons]
      cases hkey : key == other with
      | true => rw [if_pos (beq_iff_eq.mp hkey)]
      | false => rw [if_neg (beq_eq_false_iff_ne.mp hkey)]
    · next hne =>
      rw [List.lookup_cons, List.lookup_cons, ih]
      cases hkey : key == other with
      | true =>
        have hne' : key ≠ k := fun heq => hne ((beq_iff_eq.mp hkey).symm.trans heq)
        exact (if_neg hne').symm
      | false => rfl

/-- A key has the slot of the last entry with it. -/
theorem lookup_foldl_insert {options : List String} {entries : List (String × Valuator)} (key : String)
    (h : List.Forall₂ (fun o e => (slotOption o).1 = e.1 ∧ slotKinds.lookup (slotOption o).2 = some e.2)
      options entries) (spec : SlotSpecification) :
    (entries.foldl (fun spec e => spec.insert e.1 e.2) spec).lookup key =
      match options.reverse.find? fun o => (slotOption o).1 == key with
      | some o => slotKinds.lookup (slotOption o).2
      | none => spec.lookup key := by
  induction h generalizing spec with
  | nil => rfl
  | @cons o e options entries he _ ih =>
    rw [List.foldl_cons, ih, List.reverse_cons, List.find?_append]
    cases options.reverse.find? fun o => (slotOption o).1 == key with
    | some found => rfl
    | none =>
      rw [Option.none_or, List.find?_singleton, he.1]
      dsimp only
      rw [lookup_insert]
      by_cases hkey : key = e.1
      · rw [if_pos hkey, if_pos (beq_iff_eq.mpr hkey.symm)]
        exact he.2.symm
      · rw [if_neg hkey, if_neg fun heq => hkey (beq_iff_eq.mp heq).symm]

theorem mapM_eq_ok {α β : Type} {f : α → Run β} {as : List α} {bs : List β}
    (h : (as.mapM f).resultIn s = (.ok bs, s')) :
    List.Forall₂ (fun a b => ∃ s s', (f a).resultIn s = (.ok b, s')) as bs := by
  induction as generalizing s s' bs with
  | nil =>
    rw [List.mapM_nil, resultIn_pure] at h
    obtain rfl := Except.ok.inj (congrArg Prod.fst h)
    exact .nil
  | cons a as ih =>
    simp only [List.mapM_cons, resultIn_bind_eq_ok, resultIn_pure] at h
    obtain ⟨b, s₁, hb, rest, s₂, hrest, h⟩ := h
    obtain rfl := Except.ok.inj (congrArg Prod.fst h)
    exact .cons ⟨s, s₁, hb⟩ (ih hrest)

/-- A specification gives each key the slot that the options declare for it. -/
theorem slotSpecification_eq_ok {options : List String} {spec : SlotSpecification}
    (h : (slotSpecification options).resultIn s = (.ok spec, s')) (key : String) :
    spec.lookup key = declared? options key := by
  rw [slotSpecification, resultIn_bind_eq_ok] at h
  obtain ⟨entries, s₁, hentries, h⟩ := h
  obtain rfl := Except.ok.inj (congrArg Prod.fst h)
  have hdeclared : List.Forall₂ (fun o e => (slotOption o).1 = e.1 ∧ slotKinds.lookup (slotOption o).2 = some e.2)
      options entries := by
    refine (mapM_eq_ok hentries).imp fun o e ⟨t, t', he⟩ => ?_
    dsimp only at he
    split at he
    · next valuator hkind =>
      obtain rfl := Except.ok.inj (congrArg Prod.fst he)
      exact ⟨rfl, hkind⟩
    · exact absurd he resultIn_fail_ne_ok
  rw [SlotSpecification.ofEntries, lookup_foldl_insert key hdeclared, declared?]
  cases options.reverse.find? fun o => (slotOption o).1 == key <;> rfl

theorem finderForEdit_eq_ok [Interpreter] {pattern : String} {f : Regex.Finder}
    (h : (finderForEdit pattern).resultIn s = (.ok f, s')) : Regex.Finder.ofPattern pattern [] = .ok f := by
  rw [finderForEdit] at h
  split at h
  · next g hg => rw [hg, Except.ok.inj (congrArg Prod.fst h)]
  · split at h
    · cases h
    · cases h
    · exact absurd h resultIn_fail_ne_ok

theorem compute_eq_ok [Interpreter] {t t' : Template} {d : Document} (h : (compute t d).resultIn s = (.ok t', s')) :
    t.compute d = .ok t' := by
  rw [compute, resultIn_bind_eq_ok] at h
  obtain ⟨t₁, s₁, hcompute, h⟩ := h
  have ht : t₁ = t' := by
    split at h <;>
      · simp only [resultIn_bind_eq_ok, resultIn_pure] at h
        obtain ⟨_, _, _, _, _, _, h⟩ := h
        exact Except.ok.inj (congrArg Prod.fst h)
  exact ht ▸ orCrash_eq_ok hcompute

theorem fragmentAt_eq_ok {t : Template} {index : Int} {h : Handle}
    (hat : (fragmentAt t index).resultIn s = (.ok h, s')) : 0 ≤ index ∧ t.handles[index.toNat]? = some h := by
  rw [fragmentAt] at hat
  split at hat
  · next h' hsome =>
    split at hsome
    · cases hsome
    · next hneg => exact ⟨Int.not_lt.mp hneg, Except.ok.inj (congrArg Prod.fst hat) ▸ hsome⟩
  · exact absurd hat resultIn_fail_ne_ok

/-- A handle of a pass is its place in the list. -/
theorem handle_eq {t : Template} {i : Nat} {h : Handle} (hi : t.handles[i]? = some h) :
    i < t.handles.length ∧ h = ⟨t.pass, i⟩ := by
  rw [Template.handles, List.getElem?_map] at hi
  obtain ⟨j, hj, rfl⟩ := Option.map_eq_some_iff.mp hi
  obtain ⟨hlt, rfl⟩ := List.getElem?_eq_some_iff.mp hj
  rw [Template.handles, List.length_map, List.getElem_range]
  exact ⟨hlt, rfl⟩

/-- A tree that is made without a message is that of the text. -/
theorem syntaxTree_eq_ok [Interpreter] {g : Grammar} {d : Document} {tree : SyntaxTree}
    (h : (syntaxTree g d).resultIn s = (.ok tree, s')) : tree = .ofText g d.content := by
  rw [syntaxTree] at h
  dsimp only at h
  split at h
  · rw [resultIn_bind_eq_ok] at h
    obtain ⟨_, _, _, h⟩ := h
    exact (Except.ok.inj (congrArg Prod.fst h)).symm
  · exact (Except.ok.inj (congrArg Prod.fst h)).symm

/-- A text whose tree has no fault fits the grammar. -/
theorem exists_root_of_fault? [Interpreter] {text : String} (h : (SyntaxTree.ofText .json text).fault? = none) :
    ∃ root, Json.ofText text = .ok root := by
  rw [SyntaxTree.ofText, SyntaxTree.ofTextBy, Grammar.rootNodeBy_json] at h
  cases hroot : Json.ofText text with
  | ok root => exact ⟨root, rfl⟩
  | error fault =>
    rw [hroot] at h
    cases h

theorem orReport_eq_ok {α : Type} {words : String → String} {r : Except TemplateFault α} {a : α}
    (h : (orReport words r).resultIn s = (.ok a, s')) : r = .ok a := by
  cases r with
  | ok b => exact congrArg Except.ok (Except.ok.inj (congrArg Prod.fst h))
  | error fault =>
    rw [orReport.eq_def] at h
    dsimp only at h
    split at h
    · exact absurd h resultIn_fail_ne_ok
    · cases h

/-! ## What is written -/

/-- **Overwriting a file that is there** changes it; the command crashes when the text cannot be
encoded. -/
theorem overwrite_of_content? {p : Path} {old : Content} (h : s.files.content? p = some old) (text : LooseText) :
    ∃ s', s.files.Overwritten p (text.toString?.getD "") s'.files ∧ s'.console = s.console ∧
      (overwrite p text).resultIn s =
        (if text.toString?.isSome then .ok () else .error (.crash .notEncodable), s') := by
  obtain ⟨written, hwrite, hover⟩ := Files.writeText_of_content? h (text.toString?.getD "")
  refine ⟨{ s with files := written }, hover, rfl, ?_⟩
  have hcrash : orCrash .file (s.files.overwrite p text) =
      (pure (written, text.toString?.isSome) : Run (Files × Bool)) := by
    rw [Files.overwrite, hwrite]
    rfl
  rw [overwrite, resultIn_get_bind, hcrash]
  cases text.toString?.isSome <;> rfl

/-- What comes of telling of an edit once its text is written, or of half of it. -/
def toldOf (console : Console) (p : Path) (edit : TextEdit) (text : LooseText) : Except Ending Unit :=
  match text.toString? with
  | none => .error (.crash .notEncodable)
  | some _ => if console.refuses (updated p edit) then .error (.crash (.notShown (updated p edit))) else .ok ()

/-- **An edit of a file that is there** is written to it, unless the command ends badly before. -/
theorem applyEdit_cases {p : Path} {old : Content} (h : s.files.content? p = some old) (d : Document)
    (edit : TextEdit) :
    Stopped s.files ((applyEdit d edit p false).resultIn s) ∨
      ∃ text s', editedText d [edit] = .ok text ∧ s.files.Overwritten p (text.toString?.getD "") s'.files ∧
        (applyEdit d edit p false).resultIn s = (toldOf s.console p edit text, s') := by
  let editor : Editor Unit := (Editor.ofDocument d).add edit
  -- everything behind the text that is made
  let write (text : LooseText) : Run Unit := do
    log .info ("Applied " ++ toString editor.pending.length ++ " edit(s) to " ++ d.language.id ++ " document")
    overwrite p text
    emit (updated p edit)
  have hreads : Reads (orCrash .batch editor.editedText) := .orCrash (fun _ => by nofun) _
  rcases hreads.bind_cases write s with hstop | ⟨text, s₁, htext, hs₁, heq⟩
  · exact .inl hstop
  rcases (reads_log _ _).bind_cases _ s₁ with hstop | ⟨_, s₂, -, hs₂, heq₂⟩
  · exact .inl (hstop.of_eq heq hs₁)
  have hs₂ := hs₂.trans hs₁
  obtain ⟨s₃, hover, hs₃, hresult⟩ := overwrite_of_content? (hs₂.files ▸ h) text
  rw [hs₂.files] at hover
  have hwhole : (applyEdit d edit p false).resultIn s = _ := heq.trans heq₂
  rw [resultIn_bind, hresult] at hwhole
  refine .inr ⟨text, ?_⟩
  rw [hwhole, toldOf]
  cases hnew : text.toString? with
  | none => exact ⟨s₃, orCrash_eq_ok htext, hnew ▸ hover, rfl⟩
  | some new =>
    rw [hnew] at hover
    show ∃ s', _ ∧ _ ∧ (emit (updated p edit)).resultIn s₃ = _
    rw [resultIn_emit, hs₃.trans hs₂.console]
    split
    · exact ⟨s₃, orCrash_eq_ok htext, hover, rfl⟩
    · refine ⟨_, orCrash_eq_ok htext, ?_, rfl⟩
      exact hover

/-! ## Coming as far as an edit -/

/-- **What a slot of a match is to become**: the slot is the group of the key in the match at an index,
and the new text is what the kind that the options declare writes for the value it reads. -/
structure SlotTarget [Interpreter] (content regex : String) (options : List String) (key value : String)
    (fragment : Int)
    (group : Regex.FoundGroup) (written : Value) : Prop where
  index : 0 ≤ fragment
  nonempty : content ≠ ""
  found : ∃ f m, Regex.Finder.ofPattern regex [] = .ok f ∧ (f.findAll content)[fragment.toNat]? = some m ∧
    (m.groups.find? fun g => g.name == key) = some group
  wrote : ∃ valuator v, declared? options key = some valuator ∧ valuator.deserialize value = .ok v ∧
    valuator.serialize v = .ok written

/-- **Giving a slot another value** ends badly with the files as they were, or comes as far as the
edit that replaces the group of the slot. -/
theorem setSlot_cases [Interpreter] (file : Path) (regex : String) (options : List String) (key value : String)
    (fragment : Int)
    (dryRun : Bool) (language : Option String) (c : Configuration) (s : Session) :
    Stopped s.files ((setSlot file regex options key value fragment dryRun language c).resultIn s) ∨
      ∃ (d : Document) (group : Regex.FoundGroup) (written : Value) (s' : Session),
        s.files.readText file = .ok d.content ∧ SlotTarget d.content regex options key value fragment group written ∧
        s'.Keeps s ∧ (setSlot file regex options key value fragment dryRun language c).resultIn s =
          (applyEdit d (.replace (d.lines.rangeOf group.span.start group.span.stop) written) file dryRun).resultIn s' := by
  rw [setSlot]
  rcases (reads_document _ _ _).bind_cases _ s with hstop | ⟨d, s₁, hd, hs₁, heq₁⟩
  · exact .inl hstop
  rcases (reads_slotSpecification _).bind_cases _ s₁ with hstop | ⟨spec, s₂, hspec, hs₂, heq₂⟩
  · exact .inl (hstop.of_eq heq₁ hs₁)
  have hread := (document_eq_ok hd).1
  have hdeclared := slotSpecification_eq_ok hspec key
  rw [heq₁, heq₂]
  have hs₂ := hs₂.trans hs₁
  split
  · exact .inl ((stopped_fail _ _).of_eq rfl hs₂)
  next valuator hlookup =>
  rcases (reads_finderForEdit _).bind_cases _ s₂ with hstop | ⟨f, s₃, hf, hs₃, heq₃⟩
  · exact .inl (hstop.of_eq rfl hs₂)
  have hs₃ := hs₃.trans hs₂
  rcases (reads_compute _ _).bind_cases _ s₃ with hstop | ⟨t, s₄, ht, hs₄, heq₄⟩
  · exact .inl (hstop.of_eq heq₃ hs₃)
  have heq₄ := heq₃.trans heq₄
  have hs₄ := hs₄.trans hs₃
  rcases (reads_fragmentAt _ _).bind_cases _ s₄ with hstop | ⟨h, s₅, hh, hs₅, heq₅⟩
  · exact .inl (hstop.of_eq heq₄ hs₄)
  have heq₅ := heq₄.trans heq₅
  have hs₅ := hs₅.trans hs₄
  rcases (reads_orReport _ _).bind_cases _ s₅ with hstop | ⟨edit, s₆, hedit, hs₆, heq₆⟩
  · exact .inl (hstop.of_eq heq₅ hs₅)
  obtain ⟨v, hv, hcommit⟩ := bind_eq_ok.mp (orReport_eq_ok hedit)
  obtain ⟨hindex, hi⟩ := fragmentAt_eq_ok hh
  obtain ⟨hcontent, m, group, valuator', written, hm, hgroup, hvaluator, hwritten, rfl⟩ :=
    Template.commit_groups (compute_eq_ok ht) hi hcommit
  obtain rfl := Option.some.inj (hlookup.symm.trans hvaluator)
  exact .inr ⟨d, group, written, s₆, hread, ⟨hindex, hcontent, ⟨f, m, finderForEdit_eq_ok hf, hm, hgroup⟩,
    ⟨valuator, v, hdeclared ▸ hlookup, mapError_eq_ok.mp hv, hwritten⟩⟩, hs₆.trans hs₅, heq₅.trans heq₆⟩

/-- **What a property of an object is to become**: the object is the one at an index among those
assigned to a key of a JSON text, and the edit gives it the value that another JSON text stands for. -/
structure PropertyTarget [Interpreter] (d : Document) (objectKey key value : String) (fragment : Int)
    (c : Configuration)
    (v : Value) (edit : TextEdit) : Prop where
  index : 0 ≤ fragment
  grammar : d.language.grammar = some .json
  valid : ∃ root, Json.ofText d.content = .ok root
  decoded : Json.decode value = .ok v
  committed : ∃ pass, (objectTemplate objectKey key c).compute d = .ok pass ∧
    fragment.toNat < pass.handles.length ∧ pass.commit ⟨pass.pass, fragment.toNat⟩ key v = .ok edit

theorem ofObjects_objectTemplate (objectKey key : String) (c : Configuration) :
    (objectTemplate objectKey key c).OfObjects objectKey :=
  ⟨rfl, List.pairwise_singleton _ _, List.forall_mem_singleton.mpr rfl⟩

/-- The pass in which an object is found, and the member that assigns it. -/
theorem PropertyTarget.exists_pass [Interpreter] {d : Document} {objectKey key value : String} {fragment : Int}
    {c : Configuration} {v : Value} {edit : TextEdit}
    (h : PropertyTarget d objectKey key value fragment c v edit) :
    ∃ (w : Json.Whole) (found : Nat × Json.Phrase) (pass : Template), w.Sound ∧ d.content.toList = w.text ∧
      (Json.Phrase.assignments objectKey w.phrase w.start)[fragment.toNat]? = some found ∧
      pass = (objectTemplate objectKey key c).after d (Json.Phrase.assignments objectKey w.phrase w.start) ∧
      pass.OfObjects objectKey ∧ pass.Saw objectKey d w ∧
      pass.commit ⟨pass.pass, fragment.toNat⟩ key v = .ok edit := by
  obtain ⟨root, hroot⟩ := h.valid
  obtain ⟨w, hw, htext, -⟩ := Json.ofText_eq_ok.mp hroot
  obtain ⟨pass, hpass, hlt, hcommit⟩ := h.committed
  have hobjects := ofObjects_objectTemplate objectKey key c
  obtain rfl := Except.ok.inj (hpass.symm.trans (Template.compute_eq hobjects.subject h.grammar hw htext))
  have hsaw : (Template.after (objectTemplate objectKey key c) d
      (Json.Phrase.assignments objectKey w.phrase w.start)).Saw objectKey d w := ⟨hw.toShaped, htext, rfl⟩
  rw [hsaw.length_handles, Template.assigned, List.length_map] at hlt
  exact ⟨w, _, _, hw, htext, List.getElem?_eq_getElem hlt, rfl, ⟨hobjects.subject, hobjects.distinct, hobjects.json⟩,
    hsaw, hcommit⟩

/-- **Setting a property** ends badly with the files as they were, or comes as far as the edit that
gives the slot of the property its value. -/
theorem setProperty_cases [Interpreter] (file : Path) (objectKey key value : String) (fragment : Int) (dryRun : Bool)
    (c : Configuration) (s : Session) :
    Stopped s.files ((setProperty file objectKey key value fragment dryRun c).resultIn s) ∨
      ∃ (d : Document) (v : Value) (edit : TextEdit) (s' : Session),
        s.files.readText file = .ok d.content ∧ PropertyTarget d objectKey key value fragment c v edit ∧
        s'.Keeps s ∧ (setProperty file objectKey key value fragment dryRun c).resultIn s =
          (applyEdit d edit file dryRun).resultIn s' := by
  rw [setProperty]
  rcases (reads_document _ _ _).bind_cases _ s with hstop | ⟨d, s₁, hd, hs₁, heq₁⟩
  · exact .inl hstop
  rcases (reads_syntaxTree _ _).bind_cases _ s₁ with hstop | ⟨tree, s₂, htree, hs₂, heq₂⟩
  · exact .inl (hstop.of_eq heq₁ hs₁)
  have heq₂ := heq₁.trans heq₂
  have hs₂ := hs₂.trans hs₁
  rcases (reads_require _ _).bind_cases _ s₂ with hstop | ⟨_, s₃, hvalid, hs₃, heq₃⟩
  · exact .inl (hstop.of_eq heq₂ hs₂)
  have heq₃ := heq₂.trans heq₃
  have hs₃ := hs₃.trans hs₂
  rcases (reads_compute _ _).bind_cases _ s₃ with hstop | ⟨t, s₄, ht, hs₄, heq₄⟩
  · exact .inl (hstop.of_eq heq₃ hs₃)
  have heq₄ := heq₃.trans heq₄
  have hs₄ := hs₄.trans hs₃
  rcases (reads_fragmentAt _ _).bind_cases _ s₄ with hstop | ⟨h, s₅, hh, hs₅, heq₅⟩
  · exact .inl (hstop.of_eq heq₄ hs₄)
  have heq₅ := heq₄.trans heq₅
  have hs₅ := hs₅.trans hs₄
  rcases (reads_orReport _ _).bind_cases _ s₅ with hstop | ⟨edit, s₆, hedit, hs₆, heq₆⟩
  · exact .inl (hstop.of_eq heq₅ hs₅)
  obtain ⟨hread, id, hid, hlanguage⟩ := document_eq_ok hd
  obtain rfl : "json" = id := Value.str.inj (Yaml.Loaded.scalar.inj hid)
  obtain rfl := syntaxTree_eq_ok htree
  obtain ⟨v, hv, hcommit⟩ := bind_eq_ok.mp (orReport_eq_ok hedit)
  obtain ⟨hindex, hi⟩ := fragmentAt_eq_ok hh
  obtain ⟨hlt, rfl⟩ := handle_eq hi
  refine .inr ⟨d, v, edit, s₆, hread, ⟨hindex, ?_, ?_, ?_, t, compute_eq_ok ht, hlt, hcommit⟩, hs₆.trans hs₅,
    heq₅.trans heq₆⟩
  · exact Option.some.inj hlanguage ▸ rfl
  · exact exists_root_of_fault? (Option.isNone_iff_eq_none.mp (require_eq_ok hvalid))
  · exact mapError_eq_ok.mp (mapError_eq_ok.mp hv)

end Run

end SlotEdit
