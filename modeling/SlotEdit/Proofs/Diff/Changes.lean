import SlotEdit.Diff.Unified
import SlotEdit.Proofs.Diff.Blocks

/-!
# Proofs/Diff/Changes — changes and hunks keep to both sides

The changes between two lists cover both sides from end to end (`covers_changes`), and what hunks leave
out is the same on either side (`hunked_hunks`).  A line that only the last of a side can be — one
without a line break — stands in the last change alone, and cutting equal stretches does not move it
(`settled_hunks`).
-/

namespace SlotEdit.Diff

variable {α : Type} {old new : List α} {i j k i' j' i'' j'' : Nat} {c : Change} {cs cs' : List Change}

/-! ## Changes -/

/-- **A change that holds of two lists**: its window is inside both, and what its kind says is so. -/
structure Change.Holds (old new : List α) (c : Change) : Prop where
  oldLe : c.window.oldStart ≤ c.window.oldStop
  oldStop : c.window.oldStop ≤ old.length
  newLe : c.window.newStart ≤ c.window.newStop
  newStop : c.window.newStop ≤ new.length
  equal : c.kind = .equal → ∃ k, c.window.oldStop = c.window.oldStart + k ∧ c.window.newStop = c.window.newStart + k ∧
    Alike old new c.window.oldStart c.window.newStart k
  delete : c.kind = .delete → c.window.newStop = c.window.newStart
  insert : c.kind = .insert → c.window.oldStop = c.window.oldStart
  replace : c.kind = .replace → c.window.oldStart < c.window.oldStop ∧ c.window.newStart < c.window.newStop

theorem Change.Holds.of_equal (hkind : c.kind = .equal) (hold : c.window.oldStop = c.window.oldStart + k)
    (hnew : c.window.newStop = c.window.newStart + k) (holdStop : c.window.oldStop ≤ old.length)
    (hnewStop : c.window.newStop ≤ new.length) (h : Alike old new c.window.oldStart c.window.newStart k) :
    c.Holds old new where
  oldLe := hold ▸ Nat.le_add_right _ _
  oldStop := holdStop
  newLe := hnew ▸ Nat.le_add_right _ _
  newStop := hnewStop
  equal _ := ⟨k, hold, hnew, h⟩
  delete hdelete := absurd (hkind.symm.trans hdelete) (by decide)
  insert hinsert := absurd (hkind.symm.trans hinsert) (by decide)
  replace hreplace := absurd (hkind.symm.trans hreplace) (by decide)

/-- **Changes that cover both sides**, each right behind the one before. -/
def Covers (old new : List α) (i j i' j' : Nat) : List Change → Prop
  | [] => i = i' ∧ j = j'
  | c :: rest => c.window.oldStart = i ∧ c.window.newStart = j ∧ c.Holds old new ∧
      Covers old new c.window.oldStop c.window.newStop i' j' rest

namespace Covers

theorem single (h : c.Holds old new) :
    Covers old new c.window.oldStart c.window.newStart c.window.oldStop c.window.newStop [c] :=
  ⟨rfl, rfl, h, rfl, rfl⟩

theorem append (h : Covers old new i j i' j' cs) (h' : Covers old new i' j' i'' j'' cs') :
    Covers old new i j i'' j'' (cs ++ cs') := by
  induction cs generalizing i j with
  | nil =>
    obtain ⟨rfl, rfl⟩ := h
    exact h'
  | cons c cs ih => exact ⟨h.1, h.2.1, h.2.2.1, ih h.2.2.2⟩

theorem holds (h : Covers old new i j i' j' cs) : ∀ c ∈ cs, c.Holds old new := by
  induction cs generalizing i j with
  | nil => nofun
  | cons c cs ih => exact List.forall_mem_cons.mpr ⟨h.2.2.1, ih h.2.2.2⟩

/-- What is split off at the end covers the end. -/
theorem of_append (h : Covers old new i j i' j' (cs ++ cs')) :
    ∃ i₁ j₁, Covers old new i j i₁ j₁ cs ∧ Covers old new i₁ j₁ i' j' cs' := by
  induction cs generalizing i j with
  | nil => exact ⟨i, j, ⟨rfl, rfl⟩, h⟩
  | cons c cs ih =>
    obtain ⟨i₁, j₁, hcs, hcs'⟩ := ih h.2.2.2
    exact ⟨i₁, j₁, ⟨h.1, h.2.1, h.2.2.1, hcs⟩, hcs'⟩

/-- Equal stretches are one. -/
theorem alike (h : Covers old new i j i' j' cs) (hequal : ∀ c ∈ cs, c.kind = .equal) :
    ∃ k, i' = i + k ∧ j' = j + k ∧ Alike old new i j k := by
  induction cs generalizing i j with
  | nil =>
    obtain ⟨rfl, rfl⟩ := h
    exact ⟨0, rfl, rfl, .zero⟩
  | cons c cs ih =>
    rw [List.forall_mem_cons] at hequal
    obtain ⟨rfl, rfl, hc, hcs⟩ := h
    obtain ⟨k, hold, hnew, halike⟩ := hc.equal hequal.1
    obtain ⟨l, rfl, rfl, halike'⟩ := ih hcs hequal.2
    rw [hold, hnew] at halike' ⊢
    exact ⟨k + l, Nat.add_assoc _ _ _, Nat.add_assoc _ _ _, halike.append halike'⟩

end Covers

/-- What stands between two stretches is covered. -/
theorem covers_gapChange? {w : Window} (hold : w.oldStart ≤ w.oldStop) (hnew : w.newStart ≤ w.newStop)
    (holdStop : w.oldStop ≤ old.length) (hnewStop : w.newStop ≤ new.length) :
    Covers old new w.oldStart w.newStart w.oldStop w.newStop (gapChange? w).toList := by
  rw [gapChange?]
  split
  · next hlt =>
    split
    · next hlt' => exact .single ⟨hold, holdStop, hnew, hnewStop, nofun, nofun, nofun, fun _ => ⟨hlt, hlt'⟩⟩
    · next hge =>
      have heq := Nat.le_antisymm (Nat.not_lt.mp hge) hnew
      exact .single ⟨hold, holdStop, hnew, hnewStop, nofun, fun _ => heq, nofun, nofun⟩
  · next hge =>
    have heq := Nat.le_antisymm (Nat.not_lt.mp hge) hold
    split
    · exact .single ⟨hold, holdStop, hnew, hnewStop, nofun, nofun, fun _ => heq, nofun⟩
    · next hge' => exact ⟨heq.symm, Nat.le_antisymm hnew (Nat.not_lt.mp hge')⟩

/-- The change of a stretch that is the same on either side. -/
theorem holds_equal {b : Block} (hpos : 0 < b.length) (h : Alike old new b.old b.new b.length) :
    Change.Holds old new ⟨.equal, b.old, b.old + b.length, b.new, b.new + b.length⟩ :=
  .of_equal rfl rfl rfl (h.le hpos).1 (h.le hpos).2 h

theorem covers_changesFrom {bs : List Block} (hold : i ≤ old.length) (hnew : j ≤ new.length)
    (h : Shared old new i j old.length new.length bs) :
    Covers old new i j old.length new.length (changesFrom i j old.length new.length bs) := by
  induction bs generalizing i j with
  | nil =>
    exact covers_gapChange? (w := ⟨i, old.length, j, new.length⟩) hold hnew (Nat.le_refl _) (Nat.le_refl _)
  | cons b bs ih =>
    obtain ⟨hi, hj, hpos, halike, hrest⟩ := h
    obtain ⟨holdStop, hnewStop⟩ := halike.le hpos
    have hold' : b.old ≤ old.length := by omega
    have hnew' : b.new ≤ new.length := by omega
    exact (covers_gapChange? (w := ⟨i, b.old, j, b.new⟩) hi hj hold' hnew').append
      ⟨rfl, rfl, holds_equal hpos halike, ih holdStop hnewStop hrest⟩

/-! ## Lines that only the last can be -/

/-- The lines from one offset up to another have a property. -/
def AllIn (P : α → Prop) (lines : List α) (start stop : Nat) : Prop :=
  ∀ i, start ≤ i → i < stop → ∀ a, lines[i]? = some a → P a

/-- **All lines of a change** have a property. -/
def Change.All (P : α → Prop) (old new : List α) (c : Change) : Prop :=
  AllIn P old c.window.oldStart c.window.oldStop ∧ AllIn P new c.window.newStart c.window.newStop

/-- **Changes whose lines have a property**, but for those of the last one; and what a replacement takes
away has another. -/
structure Settled (P Q : α → Prop) (old new : List α) (cs : List Change) : Prop where
  all : ∀ c ∈ cs.dropLast, c.All P old new
  replace : ∀ c ∈ cs, c.kind = .replace → AllIn Q old c.window.oldStart c.window.oldStop

theorem AllIn.mono {P : α → Prop} {a b a' b' : Nat} {lines : List α} (h : AllIn P lines a b) (ha : a ≤ a') (hb : b' ≤ b) :
    AllIn P lines a' b' :=
  fun i hi hi' => h i (Nat.le_trans ha hi) (Nat.lt_of_lt_of_le hi' hb)

theorem AllIn.of_alike {P : α → Prop} (h : Alike old new i j k) : AllIn P old i (i + k) ↔ AllIn P new j (j + k) := by
  constructor
  · intro hall d hd hd' a ha
    obtain ⟨b, hold, hnew⟩ := h (d - j) (by omega)
    rw [Nat.add_sub_cancel' hd, ha] at hnew
    exact hall _ (by omega) (by omega) a (hnew ▸ hold)
  · intro hall d hd hd' a ha
    obtain ⟨b, hold, hnew⟩ := h (d - i) (by omega)
    rw [Nat.add_sub_cancel' hd, ha] at hold
    exact hall _ (by omega) (by omega) a (hold ▸ hnew)

theorem window_of_gapChange? {w : Window} (h : gapChange? w = some c) : c.window = w := by
  rw [gapChange?] at h
  grind

/-- Behind a stretch that is not at the end of both sides there is a change. -/
theorem lt_of_changesFrom_ne_nil {bs : List Block} (h : Shared old new i j old.length new.length bs)
    (hne : changesFrom i j old.length new.length bs ≠ []) : i < old.length ∨ j < new.length := by
  cases bs with
  | nil =>
    refine Decidable.byContradiction fun hend => hne ?_
    rw [not_or] at hend
    rw [changesFrom, gapChange?, if_neg hend.1, if_neg hend.2]
    rfl
  | cons b bs =>
    obtain ⟨hi, -, hpos, halike, -⟩ := h
    have hstop := (halike.le hpos).1
    exact .inl (by omega)

/-- **A line that only the last of a side can be** stands in the last change alone: behind every other
change there are lines of both sides, or the same lines stand on a side that goes on. -/
theorem all_changesFrom {P : α → Prop} {bs : List Block} (hold : AllIn P old 0 (old.length - 1))
    (hnew : AllIn P new 0 (new.length - 1)) (h : Shared old new i j old.length new.length bs) :
    ∀ c ∈ (changesFrom i j old.length new.length bs).dropLast, c.All P old new := by
  induction bs generalizing i j with
  | nil =>
    rw [changesFrom]
    cases gapChange? ⟨i, old.length, j, new.length⟩ <;> exact nofun
  | cons b bs ih =>
    obtain ⟨hi, hj, hpos, halike, hrest⟩ := h
    obtain ⟨holdStop, hnewStop⟩ := halike.le hpos
    rw [changesFrom, List.dropLast_append_cons]
    intro c hc
    rcases List.mem_append.mp hc with hc | hc
    · rw [Change.All, window_of_gapChange? (Option.mem_toList.mp hc)]
      exact ⟨hold.mono (Nat.zero_le _) (by dsimp only; omega), hnew.mono (Nat.zero_le _) (by dsimp only; omega)⟩
    · have hne : changesFrom (b.old + b.length) (b.new + b.length) old.length new.length bs ≠ [] := by
        intro hnil
        rw [hnil] at hc
        cases hc
      rw [List.dropLast_cons_of_ne_nil hne] at hc
      rcases List.mem_cons.mp hc with rfl | hc
      · rcases lt_of_changesFrom_ne_nil hrest hne with hlt | hlt
        · have hall : AllIn P old b.old (b.old + b.length) := hold.mono (Nat.zero_le _) (by omega)
          exact ⟨hall, (AllIn.of_alike halike).mp hall⟩
        · have hall : AllIn P new b.new (b.new + b.length) := hnew.mono (Nat.zero_le _) (by omega)
          exact ⟨(AllIn.of_alike halike).mpr hall, hall⟩
      · exact ih hrest c hc

/-! ## Cutting equal stretches -/

/-- **A change inside another** of the same kind. -/
structure Change.Inside (c' c : Change) : Prop where
  kind : c'.kind = c.kind
  old : c.window.oldStart ≤ c'.window.oldStart ∧ c'.window.oldStop ≤ c.window.oldStop
  new : c.window.newStart ≤ c'.window.newStart ∧ c'.window.newStop ≤ c.window.newStop

namespace Change

theorem inside_lastLines (c : Change) (n : Nat) : (c.lastLines n).Inside c :=
  ⟨rfl, ⟨Nat.le_max_left _ _, Nat.le_refl _⟩, Nat.le_max_left _ _, Nat.le_refl _⟩

theorem inside_firstLines (c : Change) (n : Nat) : (c.firstLines n).Inside c :=
  ⟨rfl, ⟨Nat.le_refl _, Nat.min_le_left _ _⟩, Nat.le_refl _, Nat.min_le_left _ _⟩

theorem inside_trim {cut : Change → Change} (hcut : ∀ c, (cut c).Inside c) (c : Change) : (c.trim cut).Inside c := by
  rw [trim]
  split
  · exact hcut c
  · exact ⟨rfl, ⟨Nat.le_refl _, Nat.le_refl _⟩, Nat.le_refl _, Nat.le_refl _⟩

theorem All.inside {P : α → Prop} {c' : Change} (h : c.All P old new) (hc : c'.Inside c) : c'.All P old new :=
  ⟨h.1.mono hc.old.1 hc.old.2, h.2.mono hc.new.1 hc.new.2⟩

/-- The last lines of an equal stretch are all but the first `k - n`. -/
theorem Holds.lastLines (h : c.Holds old new) (hequal : c.kind = .equal) (hold : c.window.oldStop = c.window.oldStart + k)
    (hnew : c.window.newStop = c.window.newStart + k) (halike : Alike old new c.window.oldStart c.window.newStart k)
    (n : Nat) : Covers old new (c.window.oldStart + (k - n)) (c.window.newStart + (k - n)) c.window.oldStop
      c.window.newStop [c.lastLines n] := by
  have holdStart : (c.lastLines n).window.oldStart = c.window.oldStart + (k - n) := by
    dsimp only [Change.lastLines]
    omega
  have hnewStart : (c.lastLines n).window.newStart = c.window.newStart + (k - n) := by
    dsimp only [Change.lastLines]
    omega
  refine ⟨holdStart, hnewStart, .of_equal (k := min n k) hequal ?_ ?_ h.oldStop h.newStop ?_, rfl, rfl⟩
  · rw [holdStart]
    exact hold.trans (by omega)
  · rw [hnewStart]
    exact hnew.trans (by omega)
  · rw [holdStart, hnewStart]
    exact halike.part (by omega)

/-- The first lines of an equal stretch are `n` of them, or all. -/
theorem Holds.firstLines (h : c.Holds old new) (hequal : c.kind = .equal) (hold : c.window.oldStop = c.window.oldStart + k)
    (hnew : c.window.newStop = c.window.newStart + k) (halike : Alike old new c.window.oldStart c.window.newStart k)
    (n : Nat) : Covers old new c.window.oldStart c.window.newStart (c.window.oldStart + min k n)
      (c.window.newStart + min k n) [c.firstLines n] := by
  have holdStop : (c.firstLines n).window.oldStop = c.window.oldStart + min k n := by
    dsimp only [Change.firstLines]
    omega
  have hnewStop : (c.firstLines n).window.newStop = c.window.newStart + min k n := by
    dsimp only [Change.firstLines]
    omega
  have holdLe := h.oldStop
  have hnewLe := h.newStop
  exact ⟨rfl, rfl, .of_equal hequal holdStop hnewStop (by omega) (by omega) (halike.part (d := 0) (by omega)), holdStop,
    hnewStop⟩

/-- What stands in front of a change that is cut at its start, and the change. -/
theorem Holds.trimStart (h : c.Holds old new) (n : Nat) : ∃ k, Alike old new c.window.oldStart c.window.newStart k ∧
    Covers old new (c.window.oldStart + k) (c.window.newStart + k) c.window.oldStop c.window.newStop
      [c.trim (·.lastLines n)] := by
  rw [trim]
  split
  · next hequal =>
    obtain ⟨k, hold, hnew, halike⟩ := h.equal hequal
    exact ⟨k - n, halike.part (d := 0) (by omega), h.lastLines hequal hold hnew halike n⟩
  · exact ⟨0, .zero, .single h⟩

/-- A change that is cut at its end, and what stands behind it. -/
theorem Holds.trimStop (h : c.Holds old new) (n : Nat) : ∃ p q k, c.window.oldStop = p + k ∧ c.window.newStop = q + k ∧
    Covers old new c.window.oldStart c.window.newStart p q [c.trim (·.firstLines n)] ∧ Alike old new p q k := by
  rw [trim]
  split
  · next hequal =>
    obtain ⟨k, hold, hnew, halike⟩ := h.equal hequal
    exact ⟨_, _, k - min k n, hold.trans (by omega), hnew.trans (by omega), h.firstLines hequal hold hnew halike n,
      halike.part (by omega)⟩
  · exact ⟨_, _, 0, rfl, rfl, .single h, .zero⟩

end Change

/-! ## Hunks -/

theorem trimEnds_cons (n : Nat) (first : Change) (rest : List Change) :
    ∃ front last, first.trim (·.lastLines n) :: rest = front ++ [last] ∧
      trimEnds n (first :: rest) = front ++ [last.trim (·.firstLines n)] := by
  have hne : first.trim (·.lastLines n) :: rest ≠ [] := List.cons_ne_nil _ _
  refine ⟨_, _, (List.dropLast_concat_getLast hne).symm, ?_⟩
  rw [trimEnds, List.getLast?_eq_some_getLast hne]

/-- **What the trimmed changes leave out** at either end is the same on both sides. -/
theorem covers_trimEnds (n : Nat) (h : Covers old new i j i' j' cs) : ∃ k p q l, Alike old new i j k ∧
    Covers old new (i + k) (j + k) p q (trimEnds n cs) ∧ i' = p + l ∧ j' = q + l ∧ Alike old new p q l := by
  cases cs with
  | nil =>
    obtain ⟨rfl, rfl⟩ := h
    exact ⟨0, i, j, 0, .zero, ⟨rfl, rfl⟩, rfl, rfl, .zero⟩
  | cons first rest =>
    obtain ⟨front, last, hsplit, htrim⟩ := trimEnds_cons n first rest
    obtain ⟨rfl, rfl, hfirst, hrest⟩ := h
    obtain ⟨k, halike, hstart⟩ := hfirst.trimStart n
    have hall := hstart.append hrest
    rw [List.singleton_append, hsplit] at hall
    obtain ⟨i₁, j₁, hfront, rfl, rfl, hlast, rfl, rfl⟩ := hall.of_append
    obtain ⟨p, q, l, hold, hnew, hstop, halike'⟩ := hlast.trimStop n
    exact ⟨k, p, q, l, halike, htrim ▸ hfront.append hstop, hold, hnew, halike'⟩

/-- **Hunks with equal lines around them**: those between two hunks, in front of the first and behind
the last. -/
def Hunked (old new : List α) (i j : Nat) : List Hunk → Prop
  | [] => ∃ k, old.length = i + k ∧ new.length = j + k ∧ Alike old new i j k
  | h :: rest => h ≠ [] ∧ ∃ k i' j', Alike old new i j k ∧ Covers old new (i + k) (j + k) i' j' h ∧
      Hunked old new i' j' rest

/-- **The hunks of changes that follow some others** cover both sides with what they leave out. -/
theorem hunked_hunksFrom {n p q k l : Nat} {soFar : Hunk} (hlead : Alike old new p q k)
    (hsoFar : Covers old new (p + k) (q + k) i j soFar) (hcs : Covers old new i j i' j' cs)
    (hold : old.length = i' + l) (hnew : new.length = j' + l) (htail : Alike old new i' j' l) :
    Hunked old new p q (hunksFrom n soFar cs) := by
  induction cs generalizing p q k i j soFar with
  | nil =>
    obtain ⟨rfl, rfl⟩ := hcs
    rw [hunksFrom]
    split
    · next hequal =>
      obtain ⟨m, rfl, rfl, halike⟩ := hsoFar.alike fun c hc => of_decide_eq_true (List.all_eq_true.mp hequal c hc)
      rw [Nat.add_assoc, Nat.add_assoc] at hold hnew
      refine ⟨k + (m + l), hold, hnew, hlead.append (halike.append htail)⟩
    · next hchanged =>
      refine ⟨?_, k, i, j, hlead, hsoFar, l, hold, hnew, htail⟩
      rintro rfl
      exact hchanged rfl
  | cons c cs ih =>
    obtain ⟨rfl, rfl, hc, hcs⟩ := hcs
    rw [hunksFrom]
    split
    · next hlong =>
      obtain ⟨hequal, hlong⟩ := hlong
      obtain ⟨m, holdStop, hnewStop, halike⟩ := hc.equal hequal
      have hfirst := hc.firstLines hequal holdStop hnewStop halike n
      have hlast := hc.lastLines hequal holdStop hnewStop halike n
      rw [Nat.min_eq_right (by omega)] at hfirst
      rw [show m - n = n + (m - 2 * n) by omega, ← Nat.add_assoc, ← Nat.add_assoc] at hlast
      refine ⟨List.append_ne_nil_of_right_ne_nil soFar (List.cons_ne_nil _ _), k, _, _, hlead, hsoFar.append hfirst, ?_⟩
      exact ih (halike.part (d := n) (by omega)) hlast hcs
    · exact ih hlead (hsoFar.append (.single hc)) hcs

/-! ## Which change is the last -/

namespace Settled

variable {P Q : α → Prop} {c' : Change}

/-- The first of some changes may give way to one inside it. -/
theorem cons (h : Settled P Q old new (c :: cs)) (hc : c'.Inside c) : Settled P Q old new (c' :: cs) := by
  refine ⟨fun d hd => ?_, List.forall_mem_cons.mpr ⟨fun hkind => ?_, fun d hd => h.replace d (List.mem_cons_of_mem c hd)⟩⟩
  · cases cs with
    | nil => cases hd
    | cons e cs =>
      rw [List.dropLast_cons_cons] at hd
      rcases List.mem_cons.mp hd with rfl | hd
      · exact (h.all c List.mem_cons_self).inside hc
      · exact h.all d (List.mem_cons_of_mem c hd)
  · exact (h.replace c List.mem_cons_self (hc.kind ▸ hkind)).mono hc.old.1 hc.old.2

/-- And so may the last. -/
theorem concat (h : Settled P Q old new (cs ++ [c])) (hc : c'.Inside c) : Settled P Q old new (cs ++ [c']) := by
  have hall := h.all
  rw [List.dropLast_concat] at hall
  refine ⟨by rwa [List.dropLast_concat], fun d hd hkind => ?_⟩
  rcases List.mem_append.mp hd with hd | hd
  · exact h.replace d (List.mem_append_left _ hd) hkind
  · obtain rfl := List.mem_singleton.mp hd
    exact (h.replace c (List.mem_append_right _ List.mem_cons_self) (hc.kind ▸ hkind)).mono hc.old.1 hc.old.2

theorem trimEnds (h : Settled P Q old new cs) (n : Nat) : Settled P Q old new (trimEnds n cs) := by
  cases cs with
  | nil => exact h
  | cons first rest =>
    obtain ⟨front, last, hsplit, htrim⟩ := trimEnds_cons n first rest
    have hfirst := h.cons (Change.inside_trim (fun c => c.inside_lastLines n) first)
    rw [hsplit] at hfirst
    exact htrim ▸ hfirst.concat (Change.inside_trim (fun c => c.inside_firstLines n) last)

/-- Changes whose lines all have the property may stand in front. -/
theorem behind {front : List Change} (hfront : ∀ c ∈ front, c.All P old new)
    (hreplace : ∀ c ∈ front, c.kind = .replace → AllIn Q old c.window.oldStart c.window.oldStop)
    (h : Settled P Q old new cs) : Settled P Q old new (front ++ cs) := by
  refine ⟨fun c hc => ?_, fun c hc hkind => ?_⟩
  · cases cs with
    | nil =>
      rw [List.append_nil] at hc
      exact hfront c (List.dropLast_subset front hc)
    | cons d cs =>
      rw [List.dropLast_append_cons] at hc
      exact (List.mem_append.mp hc).elim (hfront c) (h.all c)
  · exact (List.mem_append.mp hc).elim (fun hc => hreplace c hc hkind) fun hc => h.replace c hc hkind

theorem of_append (h : Settled P Q old new (cs ++ cs')) : Settled P Q old new cs' := by
  refine ⟨fun c hc => h.all c ?_, fun c hc => h.replace c (List.mem_append_right cs hc)⟩
  cases cs' with
  | nil => cases hc
  | cons d cs' =>
    rw [List.dropLast_append_cons]
    exact List.mem_append_right cs hc

/-- The changes of the hunks are those that the hunks are made of, or parts of these. -/
theorem hunksFrom {n : Nat} {soFar : Hunk} (h : Settled P Q old new (soFar ++ cs)) :
    Settled P Q old new (hunksFrom n soFar cs).flatten := by
  induction cs generalizing soFar with
  | nil =>
    rw [List.append_nil] at h
    rw [Diff.hunksFrom]
    split
    · exact ⟨nofun, nofun⟩
    · rwa [List.flatten_singleton]
  | cons c cs ih =>
    rw [Diff.hunksFrom]
    split
    · next hlong =>
      have hfirst := c.inside_firstLines n
      rw [List.flatten_cons]
      cases cs with
      | nil =>
        -- the rest of the last stretch is no hunk
        rw [Diff.hunksFrom, if_pos (by rw [List.all_cons, (c.inside_lastLines n).kind, hlong.1]; rfl), List.flatten_nil,
          List.append_nil]
        exact h.concat hfirst
      | cons d cs =>
        have hall := h.all
        rw [List.dropLast_append_cons, List.dropLast_cons_cons] at hall
        refine .behind (List.forall_mem_append.mpr ⟨fun e he => hall e (List.mem_append_left _ he), ?_⟩)
          (List.forall_mem_append.mpr ⟨fun e he => h.replace e (List.mem_append_left _ he), ?_⟩)
          (ih (h.of_append.cons (c.inside_lastLines n)))
        · exact List.forall_mem_singleton.mpr ((hall c (List.mem_append_right _ List.mem_cons_self)).inside hfirst)
        · refine List.forall_mem_singleton.mpr fun hreplace => ?_
          exact absurd (hlong.1.symm.trans (hfirst.kind.symm.trans hreplace)) (by decide)
    · exact ih (by rwa [List.append_assoc, List.singleton_append])

end Settled

/-- A last change that is no equal stretch stays the last as it is. -/
theorem trimEnds_concat (n : Nat) (cs : List Change) (hc : c.kind ≠ .equal) :
    ∃ cs', trimEnds n (cs ++ [c]) = cs' ++ [c] := by
  have htrim (cut : Change → Change) : c.trim cut = c := if_neg hc
  have hends {first last : Change} {front rest : List Change}
      (heq : trimEnds n (first :: rest) = front ++ [last.trim (·.firstLines n)]) (hlast : last = c) :
      ∃ cs', trimEnds n (first :: rest) = cs' ++ [c] := ⟨front, by rw [heq, hlast, htrim]⟩
  cases cs with
  | nil =>
    obtain ⟨front, last, hsplit, heq⟩ := trimEnds_cons n c []
    have hlast := Option.some.inj ((congrArg List.getLast? hsplit).trans List.getLast?_concat)
    exact hends heq (hlast.symm.trans (htrim _))
  | cons first rest =>
    obtain ⟨front, last, hsplit, heq⟩ := trimEnds_cons n first (rest ++ [c])
    rw [← List.cons_append] at hsplit
    have hlast := congrArg List.getLast? hsplit
    rw [List.getLast?_concat, List.getLast?_concat] at hlast
    exact hends heq (Option.some.inj hlast).symm

theorem hunksFrom_concat (n : Nat) (soFar : Hunk) (cs : List Change) (hc : c.kind ≠ .equal) :
    ∃ hs h, hunksFrom n soFar (cs ++ [c]) = hs ++ [h ++ [c]] := by
  induction cs generalizing soFar with
  | nil =>
    refine ⟨[], soFar, ?_⟩
    rw [List.nil_append, hunksFrom, if_neg fun h => hc h.1, hunksFrom, if_neg, List.nil_append]
    rw [List.all_append, List.all_cons, decide_eq_false hc, Bool.false_and, Bool.and_false]
    decide
  | cons d cs ih =>
    rw [List.cons_append, hunksFrom]
    split
    · obtain ⟨hs, h, heq⟩ := ih [d.lastLines n]
      exact ⟨_ :: hs, h, by rw [heq, List.cons_append]⟩
    · exact ih (soFar ++ [d])

/-! ## The hunks of two lists -/

section

variable [BEq α] [LawfulBEq α]

/-- **The changes between two lists cover them.** -/
theorem covers_changes (old new : List α) : Covers old new 0 0 old.length new.length (changes old new) :=
  covers_changesFrom (Nat.zero_le _) (Nat.zero_le _) (shared_blocks old new)

/-- **The hunks of two lists** cover them, with what they leave out. -/
theorem hunked_hunks (n : Nat) (old new : List α) : Hunked old new 0 0 (hunks n old new) := by
  obtain ⟨k, p, q, l, hlead, hcovers, hold, hnew, htail⟩ := covers_trimEnds n (covers_changes old new)
  exact hunked_hunksFrom hlead ⟨rfl, rfl⟩ hcovers hold hnew htail

/-- **A property of all lines but the last of a side** is one of all changes but the last. -/
theorem settled_changes {P Q : α → Prop} (hPQ : ∀ a, P a → Q a) (hold : AllIn P old 0 (old.length - 1))
    (hnew : AllIn P new 0 (new.length - 1))
    (hlast : ∀ c ∈ (changes old new).getLast?, c.kind = .replace → AllIn Q old c.window.oldStart c.window.oldStop) :
    Settled P Q old new (changes old new) := by
  have hall : ∀ c ∈ (changes old new).dropLast, c.All P old new := all_changesFrom hold hnew (shared_blocks old new)
  refine ⟨hall, fun c hc hkind => ?_⟩
  rcases List.eq_nil_or_concat (changes old new) with hnil | ⟨front, last, hconcat⟩
  · rw [hnil] at hc
    cases hc
  · rw [hconcat, List.concat_eq_append] at hall hc hlast
    rw [List.dropLast_concat] at hall
    rcases List.mem_append.mp hc with hc | hc
    · exact fun i hi hi' a ha => hPQ a ((hall c hc).1 i hi hi' a ha)
    · obtain rfl := List.mem_singleton.mp hc
      exact hlast c List.getLast?_concat hkind

omit [LawfulBEq α] in
/-- And so it is of the hunks. -/
theorem settled_hunks {P Q : α → Prop} (n : Nat) (h : Settled P Q old new (changes old new)) :
    Settled P Q old new (hunks n old new).flatten := by
  have htrim : Settled P Q old new ([] ++ trimEnds n (changes old new)) := h.trimEnds n
  exact htrim.hunksFrom

omit [LawfulBEq α] in
/-- A last change that is no equal stretch ends the last hunk. -/
theorem hunks_concat (n : Nat) (hc : c.kind ≠ .equal) (h : (changes old new).getLast? = some c) :
    ∃ hs h, hunks n old new = hs ++ [h ++ [c]] := by
  obtain ⟨cs, hcs⟩ := List.getLast?_eq_some_iff.mp h
  obtain ⟨cs', htrim⟩ := trimEnds_concat n cs hc
  obtain ⟨hs, last, hlast⟩ := hunksFrom_concat n [] cs' hc
  exact ⟨hs, last, by rw [hunks, hcs, htrim, hlast]⟩

end

end SlotEdit.Diff
