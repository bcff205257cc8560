import SlotEdit.Proofs.CommandLine.Lines
import SlotEdit.Proofs.Json.Decoded
import SlotEdit.Proofs.Template.Committing

/-!
# Proofs/CommandLine/SettingProperties — what giving a property another value does to a file

The value is read with the numbers that decoding knows and written with those that the grammar may
not know: the file keeps having a tree just when the grammar has a form for each number of the value,
and then the property has the value in it (`execute_setProperty`).
-/

namespace SlotEdit

open Json Json.Phrase Run

namespace Run.PropertyTarget

variable {d : Document} {objectKey key value : String} {fragment : Int} {c : Configuration} {v : Value} {edit : TextEdit}

/-- A value that is written without halves of surrogate pairs is a plain one. -/
theorem isPlain [Interpreter] (h : PropertyTarget d objectKey key value fragment c v edit) {new : String}
    (hmade : editedText d [edit] = .ok new) :
    v.IsPlain ∧ v.Fits ∧ Valuator.json.serialize v = .ok (.str (String.ofList (ofValue v).render)) := by
  obtain ⟨w, found, pass, -, -, hfound, -, hobjects, hsaw, hcommit⟩ := h.exists_pass
  obtain ⟨text, front, hencode, hfront, -⟩ := Template.exists_of_commit_eq_ok hobjects hsaw hfound hcommit
  obtain ⟨t, ht, hnew⟩ := editedText_singleton.mp hmade
  rw [hfront, Value.text?_ofText] at ht
  obtain rfl := Option.some.inj ht
  have hwhole : NoHalf text := by
    have hall := noHalf_ofString new
    rw [hnew, noHalf_append, noHalf_append, noHalf_append] at hall
    exact hall.1.2.2
  have hplain := isPlain_of_encode (decoded_of_decode h.decoded) hencode hwhole
  obtain ⟨hfits, rfl⟩ := (encode_eq_ok_text hplain).mp hencode
  exact ⟨hplain, hfits.1, Template.serialize_json_eq_ok.mpr ⟨_, hencode, (Value.ofText_ofString _).symm⟩⟩

end Run.PropertyTarget

/-- **A property given another value**: the file then holds a text that, unless it nests too deep, has a tree
just when the grammar has a form for each number of the value.  Then the property list of the object is the old
one with the value set, and all other objects that are assigned to the key have the properties they had. -/
theorem execute_setProperty [Interpreter] {console : Console} {home file : Path} {env : Environment} {files : Files}
    {words : List String}
    {objectKey key value : String} {fragment : Int}
    (hasks : Asks words (.setProperty file objectKey key value fragment false))
    (hexit : (execute console home env files words).exitCode = 0)
    (hblank : ∀ c, ((ConfigurationStore.ofDirectory (configurationDirectory home)).load files env).1 = .ok c →
      ∀ t ∈ c.indentation, BlankText t) :
    ∃ (c : Configuration) (s : String) (d : Document) (pass : Template) (v : Value) (edit : TextEdit) (new : String),
      ((ConfigurationStore.ofDirectory (configurationDirectory home)).load files env).1 = .ok c ∧
      files.content? file = some (.text s) ∧ d.content = unifyNewlines s ∧
      PropertyTarget d objectKey key value fragment c v edit ∧ (objectTemplate objectKey key c).compute d = .ok pass ∧
      files.Overwritten file new (execute console home env files words).files ∧
      (nesting new.toList ≤ treeFrames →
        ((∃ root, Json.ofText new = .ok root) ↔ v.Strict) ∧
        (v.Strict → ∃ next es es', pass.compute (d.withContent new) = .ok next ∧
          next.handles.length = pass.handles.length ∧ pass.properties? fragment.toNat = some es ∧
          next.properties? fragment.toNat = some es' ∧ Put (.str key) v es es' ∧
          ∀ j ≠ fragment.toNat, next.properties? j = pass.properties? j)) := by
  rcases execute_of_asks hasks console home env files with ⟨-, hfails, -⟩ | ⟨c, s₀, hload, hs₀, heq⟩
  · exact absurd hexit hfails
  rw [heq] at hexit ⊢
  rcases setProperty_cases file objectKey key value fragment false c s₀ with
    hstop | ⟨d, v, edit, s₁, hread, htarget, hs₁, hedit⟩
  · exact absurd hexit (Outcome.of_stopped hstop).2.1
  rw [Command.run, hedit] at hexit ⊢
  obtain ⟨s, hcontent, htext⟩ := Files.content?_of_readText hread
  have hold := hcontent
  rw [← hs₁.files] at hold
  obtain ⟨new, hmade, hover⟩ := Outcome.exists_of_applyEdit hold hexit
  rw [hs₁.files, hs₀] at hover
  obtain ⟨hplain, hfits, hserialize⟩ := htarget.isPlain hmade
  obtain ⟨w, found, pass, hw, htext', hfound, hpass, hobjects, hsaw, hcommit⟩ := htarget.exists_pass
  have hcompute := Template.compute_eq (ofObjects_objectTemplate objectKey key c).subject htarget.grammar hw htext'
  rw [← hpass] at hcompute
  have hblanks : pass.InsertsBlanks := hpass ▸ ⟨hblank c hload, List.all_eq_true.mp (show "\n".toList.all isSpace = true from rfl)⟩
  have hk : key ∈ pass.specification.map Prod.fst := hpass ▸ List.mem_cons_self
  obtain ⟨edit', w', hcommit', hset, hedited⟩ := Template.exists_commit hobjects hblanks hsaw hfound hk hserialize
  obtain rfl := Except.ok.inj (hcommit.symm.trans hcommit')
  obtain rfl := LooseText.ofString_inj.mp (Except.ok.inj ((editedText_of_edited hedited).symm.trans hmade))
  have hnew : (String.ofList w'.text).toList = w'.text := String.toList_ofList
  refine ⟨c, s, d, pass, v, edit, _, hload, hs₀ ▸ hcontent, htext, htarget, hcompute, hover, fun hdepth => ?_⟩
  rw [hnew] at hdepth
  refine ⟨⟨fun ⟨root, hroot⟩ => hset.strict_of_ofText hw hplain hfits hnew hroot, fun hstrict => ?_⟩, fun hstrict => ?_⟩
  · exact ⟨_, ofText_eq_ok.mpr ⟨w', hset.sound_of_strict hw hplain hfits hstrict hdepth, hnew, rfl⟩⟩
  · have hsound := hset.sound_of_strict hw hplain hfits hstrict hdepth
    obtain ⟨next, hnext, -, -, hsaw'⟩ := Template.exists_recompute hobjects.subject htarget.grammar hsound hnew
    obtain ⟨m, m', hm, hlist, hm', hsets⟩ := hset.exists_object
    refine ⟨next, _, _, hnext, ?_, hsaw.properties?_eq hm, hsaw'.properties?_eq hm', ?_, fun j hj => ?_⟩
    · rw [hsaw'.length_handles, hsaw.length_handles, hlist, List.length_set]
    · exact value_of_strict hplain hfits hstrict ▸ hsets.put
    · rw [hsaw'.properties?_eq_map, hsaw.properties?_eq_map, hlist, List.getElem?_set_ne hj.symm]

/-- A number too large to be written without an exponent: the file has no tree any more. -/
theorem execute_setProperty_plus :
    ∃ (console : Console) (home file : Path) (env : Environment) (files : Files) (words : List String) (v : Value) (new : String),
      Asks words (.setProperty file "m" "a" "1e16" 0 false) ∧
      (execute console home env files words).exitCode = 0 ∧
      (∀ c, ((ConfigurationStore.ofDirectory (configurationDirectory home)).load files env).1 = .ok c →
        ∀ t ∈ c.indentation, BlankText t) ∧
      Json.decode "1e16" = .ok v ∧
      files.content? file = some (.text "\x7b\"m\": \x7b\"a\": 1\x7d\x7d") ∧
      files.Overwritten file new (execute console home env files words).files ∧
      new = "\x7b\"m\": \x7b\"a\": 1e+16\x7d\x7d" ∧
      ((∃ root, Json.ofText new = .ok root) ↔ v.Strict) ∧ ¬ v.Strict := by
  let home : Path := ⟨false, ["home"]⟩
  let files : Files := ⟨[(["t"], .text "\x7b\"m\": \x7b\"a\": 1\x7d\x7d")], []⟩
  let words : List String := ["json-set", "t", "-o", "m", "-k", "a", "-v", "1e16"]
  have hasks : Asks words (.setProperty ⟨false, ["t"]⟩ "m" "a" "1e16" 0 false) :=
    ⟨⟨none, .jsonSet, words.tail⟩, rfl, rfl⟩
  have hexit : (execute .plain home [] files words).exitCode = 0 := by decide +kernel
  have hload : (((ConfigurationStore.ofDirectory (configurationDirectory home)).load files []).1.toOption.map
      Configuration.indentation) = some none := by decide +kernel
  have hblank : ∀ c, ((ConfigurationStore.ofDirectory (configurationDirectory home)).load files []).1 = .ok c →
      ∀ t ∈ c.indentation, BlankText t := fun c hc s hs => by
    rw [hc] at hload
    rw [Option.some.inj hload] at hs
    exact nomatch hs
  have hcontent : (execute .plain home [] files words).files.content? ⟨false, ["t"]⟩ =
      some (.text "\x7b\"m\": \x7b\"a\": 1e+16\x7d\x7d") := by decide +kernel
  obtain ⟨c, s, d, pass, v, edit, new, -, -, -, htarget, -, hover, htree⟩ := execute_setProperty hasks hexit hblank
  have hnew : new = "\x7b\"m\": \x7b\"a\": 1e+16\x7d\x7d" :=
    Content.text.inj (Option.some.inj (hover.content.symm.trans hcontent))
  have hdepth : nesting new.toList ≤ treeFrames := by rw [hnew]; decide +kernel
  -- the number is read back from the text it is written as, whose exponent has a plus
  have hfloats : ((Json.decode "1e16").toOption.map fun v => v.floats.any fun x => x.chars.contains '+') = some true := by
    decide +kernel
  have hstrict : ¬ v.Strict := fun h => by
    rw [htarget.decoded] at hfloats
    obtain ⟨x, hx, hplus⟩ := List.any_eq_true.mp (Option.some.inj hfloats)
    exact (h x hx).2 (List.contains_iff_mem.mp hplus)
  exact ⟨_, home, _, [], files, words, v, new, hasks, hexit, hblank, htarget.decoded, rfl, hover, hnew,
    (htree hdepth).1, hstrict⟩

end SlotEdit
