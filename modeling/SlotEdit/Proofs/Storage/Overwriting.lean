import SlotEdit.Storage.Files

/-!
# Proofs/Storage/Overwriting — what writing to a file changes

A text written to a file that is there is what the file holds afterwards, and every other path
names what it named before (`overwritten_of_writeText`).
-/

namespace SlotEdit.Files

/-- **A file holds a text, and all else is as it was.** -/
structure Overwritten (fs : Files) (p : Path) (text : String) (fs' : Files) : Prop where
  content : fs'.content? p = some (.text text)
  others : ∀ q, fs.locate q ≠ fs.locate p → fs'.find? q = fs.find? q

variable {fs : Files} {p : Path} {parts : List String} {content : Content}

/-- The names of files that are there stay. -/
theorem map_fst_put {files : List (List String × Content)} (h : (files.lookup parts).isSome = true) :
    (put files parts content).map Prod.fst = files.map Prod.fst := by
  induction files with
  | nil => cases h
  | cons f rest ih =>
    obtain ⟨name, old⟩ := f
    rw [put]
    split
    · next heq => rw [heq]; rfl
    · next hne =>
      have hbeq : (parts == name) = false := beq_eq_false_iff_ne.mpr fun heq => hne heq.symm
      rw [List.lookup_cons, hbeq] at h
      rw [List.map_cons, List.map_cons, ih h]

/-- The files with what one of them holds replaced. -/
def replaced (fs : Files) (parts : List String) (content : Content) : Files :=
  { fs with files := put fs.files parts content }

theorem hasDirectory_eq (fs : Files) (here : List String) : fs.hasDirectory here =
    (leadsUp here || here == rootParts || fs.directories.any (here.isPrefixOf ·)
      || (fs.files.map Prod.fst).any fun name => name.length > here.length && here.isPrefixOf name) := by
  rw [hasDirectory, List.any_map]
  rfl

theorem hasDirectory_replaced (h : (fs.files.lookup parts).isSome = true) (here : List String) :
    (fs.replaced parts content).hasDirectory here = fs.hasDirectory here := by
  rw [hasDirectory_eq, hasDirectory_eq, replaced, map_fst_put h]

theorem follow_replaced (h : (fs.files.lookup parts).isSome = true) (here rest : List String) :
    (fs.replaced parts content).follow here rest = fs.follow here rest := by
  induction rest generalizing here with
  | nil => rfl
  | cons part rest ih => rw [follow, follow, hasDirectory_replaced h, ih]

theorem locate_replaced (h : (fs.files.lookup parts).isSome = true) (q : Path) :
    (fs.replaced parts content).locate q = fs.locate q := follow_replaced h _ _

theorem entry?_replaced (fs : Files) (parts : List String) (content : Content) :
    entry? (fs.replaced parts content) parts = some (.file content) := by
  rw [ entry?, replaced, lookup_put]

theorem entry?_replaced_of_ne (h : (fs.files.lookup parts).isSome = true) {other : List String} (hne : other ≠ parts) :
    entry? (fs.replaced parts content) other = fs.entry? other := by
  rw [ entry?, entry?, hasDirectory_replaced h, replaced, lookup_put_of_ne hne]

/-- A file is in a directory. -/
theorem hasDirectory_dropLast (h : (fs.files.lookup parts).isSome = true) : fs.hasDirectory parts.dropLast = true := by
  cases parts with
  | nil => rfl
  | cons part rest =>
    obtain ⟨content, hlookup⟩ := Option.isSome_iff_exists.mp h
    obtain ⟨front, back, hfiles, -⟩ := List.lookup_eq_some_iff.mp hlookup
    have hmem : ((part :: rest), content) ∈ fs.files := hfiles ▸ List.mem_append_right front List.mem_cons_self
    rw [hasDirectory, Bool.or_eq_true]
    refine Or.inr (List.any_eq_true.mpr ⟨_, hmem, ?_⟩)
    rw [Bool.and_eq_true, decide_eq_true_eq, List.isPrefixOf_iff_prefix]
    exact ⟨by rw [List.length_dropLast]; exact Nat.lt_succ_self _, List.dropLast_prefix _⟩

theorem exists_of_content? {old : Content} (h : fs.content? p = some old) :
    ∃ parts, fs.locate p = some parts ∧ fs.files.lookup parts = some old := by
  rw [content?] at h
  split at h
  · next content hfind =>
    obtain ⟨parts, hlocate, hentry⟩ := Option.bind_eq_some_iff.mp hfind
    refine ⟨parts, hlocate, ?_⟩
    rw [ entry?] at hentry
    split at hentry
    · next hlookup =>
      obtain rfl := Entry.file.inj (Option.some.inj hentry)
      rw [hlookup, ← Option.some.inj h]
    · split at hentry <;> cases hentry
  · cases h

/-- **Writing to a file that is there** succeeds, and changes that file only. -/
theorem writeText_of_content? {old : Content} (h : fs.content? p = some old) (text : String) :
    ∃ fs', fs.writeText p text = .ok fs' ∧ fs.Overwritten p text fs' := by
  obtain ⟨parts, hlocate, hlookup⟩ := exists_of_content? h
  have hthere : (fs.files.lookup parts).isSome = true := hlookup ▸ rfl
  refine ⟨fs.replaced parts (.text text), ?_, ?_, fun q hq => ?_⟩
  · rw [writeText, hlocate]
    dsimp only
    rw [ entry?, hlookup]
    exact if_pos (hasDirectory_dropLast hthere)
  · rw [content?, find?, locate_replaced hthere, hlocate, Option.bind_some, entry?_replaced]
  · rw [find?, find?, locate_replaced hthere]
    cases hother : fs.locate q with
    | none => rfl
    | some other =>
      refine entry?_replaced_of_ne hthere fun heq => hq ?_
      rw [hother, hlocate, heq]

theorem content?_of_readText {text : String} (h : fs.readText p = .ok text) :
    ∃ s, fs.content? p = some (.text s) ∧ text = unifyNewlines s := by
  rw [readText] at h
  split at h
  · cases h
  · cases h
  · cases h
  · next s hfind =>
    refine ⟨s, ?_, (Except.ok.inj h).symm⟩
    rw [content?, hfind]

end SlotEdit.Files
