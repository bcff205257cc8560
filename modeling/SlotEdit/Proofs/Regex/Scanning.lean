import Mathlib.Data.List.Perm.Subperm
import SlotEdit.Proofs.Regex.Captures
import SlotEdit.Proofs.Text.Offsets

/-!
# Proofs/Regex/Scanning — all matches of an expression, from left to right

The search gives the first offset where an expression matches (`search_eq_some`).  A scan goes on behind
each match, one character further behind an empty one: its matches stand apart, and an offset where the
expression matches is passed over only inside a match (`Scan`).  It ends by itself, after at most one
match more than the text has characters (`findAll_scans`).
-/

namespace SlotEdit.Regex

variable {e : Expression} {text : Array Char} {turns offset start : Nat} {r : Progress}

/-! ## The first match -/

theorem searchFrom_eq_none : e.searchFrom text turns offset = none ↔
    ∀ p, offset ≤ p → p < offset + turns → e.matchAt text p = none := by
  induction turns generalizing offset with
  | zero => exact iff_of_true rfl fun p hle hlt => absurd hlt (Nat.not_lt.mpr hle)
  | succ turns ih =>
    rw [Expression.searchFrom]
    cases hmatch : e.matchAt text offset with
    | some r =>
      refine iff_of_false (Option.some_ne_none _) fun h => ?_
      rw [h offset (Nat.le_refl _) (by omega)] at hmatch
      cases hmatch
    | none =>
      refine ih.trans ⟨fun h p hle hlt => ?_, fun h p hle hlt => h p (by omega) (by omega)⟩
      rcases Nat.eq_or_lt_of_le hle with rfl | hle
      · exact hmatch
      · exact h p hle (by omega)

theorem searchFrom_eq_some : e.searchFrom text turns offset = some (start, r) ↔
    (offset ≤ start ∧ start < offset + turns) ∧ e.matchAt text start = some r ∧
      ∀ p, offset ≤ p → p < start → e.matchAt text p = none := by
  induction turns generalizing offset with
  | zero => exact iff_of_false (Option.some_ne_none _).symm fun h => absurd h.1.2 (Nat.not_lt.mpr h.1.1)
  | succ turns ih =>
    rw [Expression.searchFrom]
    cases hmatch : e.matchAt text offset with
    | some r' =>
      constructor
      · rintro h
        obtain ⟨rfl, rfl⟩ := Prod.mk.inj (Option.some.inj h)
        exact ⟨⟨Nat.le_refl _, by omega⟩, hmatch, fun p hle hlt => absurd hlt (Nat.not_lt.mpr hle)⟩
      · rintro ⟨⟨hle, -⟩, hstart, hbefore⟩
        rcases Nat.eq_or_lt_of_le hle with rfl | hlt
        · exact congrArg some (Prod.ext rfl (Option.some.inj (hmatch.symm.trans hstart)))
        · rw [hbefore offset (Nat.le_refl _) hlt] at hmatch
          cases hmatch
    | none =>
      refine ih.trans (Iff.intro ?_ ?_)
      · rintro ⟨hin, hstart, hbefore⟩
        refine ⟨by omega, hstart, fun p hle hlt => ?_⟩
        rcases Nat.eq_or_lt_of_le hle with rfl | hle
        · exact hmatch
        · exact hbefore p hle hlt
      · rintro ⟨hin, hstart, hbefore⟩
        refine ⟨⟨?_, by omega⟩, hstart, fun p hle hlt => hbefore p (by omega) hlt⟩
        rcases Nat.eq_or_lt_of_le hin.1 with rfl | hlt
        · rw [hmatch] at hstart
          cases hstart
        · exact hlt

/-- **The search finds nothing** when there is no match from the offset on. -/
theorem search_eq_none (h : offset ≤ text.size) : e.search text offset = none ↔
    ∀ p, offset ≤ p → p ≤ text.size → e.matchAt text p = none := by
  rw [Expression.search, searchFrom_eq_none, Nat.add_sub_cancel' (Nat.le_succ_of_le h)]
  simp only [Nat.lt_succ_iff]

/-- **The search finds the first match** from the offset on. -/
theorem search_eq_some (h : offset ≤ text.size) : e.search text offset = some (start, r) ↔
    (offset ≤ start ∧ start ≤ text.size) ∧ e.matchAt text start = some r ∧
      ∀ p, offset ≤ p → p < start → e.matchAt text p = none := by
  rw [Expression.search, searchFrom_eq_some, Nat.add_sub_cancel' (Nat.le_succ_of_le h), Nat.lt_succ_iff]

/-! ## The scan -/

/-- **What a scan of a text reports** from an offset on: matches that stand apart, each a piece of the
text, and between them none is missed. -/
structure Scan (e : Expression) (text : Array Char) (offset : Nat) (ms : List Found) : Prop where
  apart : ms.Pairwise fun a b => a.span.start < b.span.start ∧ a.span.stop ≤ b.span.start
  matched : ∀ m ∈ ms, ∃ r, e.matchAt text m.span.start = some r ∧ m = ⟨⟨m.span.start, r.offset⟩, e.foundGroups r⟩
  inside : ∀ m ∈ ms, offset ≤ m.span.start ∧ m.span.start ≤ m.span.stop ∧ m.span.stop ≤ text.size
  complete : ∀ p, offset ≤ p → p ≤ text.size → (e.matchAt text p).isSome = true →
    ∃ m ∈ ms, p = m.span.start ∨ (m.span.start < p ∧ p < m.span.stop)

namespace Scan

variable {ms : List Found}

theorem nil (h : ∀ p, offset ≤ p → p ≤ text.size → e.matchAt text p = none) : Scan e text offset [] where
  apart := .nil
  matched _ hm := nomatch hm
  inside _ hm := nomatch hm
  complete p hle hsize hp := nomatch h p hle hsize ▸ hp

/-- Where a scan goes on behind a match. -/
def next (start : Nat) (r : Progress) : Nat := if start < r.offset then r.offset else r.offset + 1

/-- **A scan goes on behind its first match.** -/
theorem cons (hstart : offset ≤ start) (hmatch : e.matchAt text start = some r) (hin : start ≤ r.offset ∧ r.offset ≤ text.size)
    (hbefore : ∀ p, offset ≤ p → p < start → e.matchAt text p = none) (h : Scan e text (next start r) ms) :
    Scan e text offset (⟨⟨start, r.offset⟩, e.foundGroups r⟩ :: ms) where
  apart := List.pairwise_cons.mpr ⟨fun m hm => by
    have hm := (h.inside m hm).1
    rw [next] at hm
    split at hm
    · exact ⟨by dsimp only; omega, hm⟩
    · exact ⟨by dsimp only; omega, by dsimp only; omega⟩, h.apart⟩
  matched := List.forall_mem_cons.mpr ⟨⟨r, hmatch, rfl⟩, h.matched⟩
  inside := List.forall_mem_cons.mpr ⟨⟨hstart, hin⟩, fun m hm => by
    have hm := h.inside m hm
    rw [next] at hm
    split at hm <;> exact ⟨by omega, hm.2⟩⟩
  complete p hle hsize hp := by
    rcases Nat.lt_trichotomy p start with hlt | rfl | hlt
    · exact nomatch hbefore p hle hlt ▸ hp
    · exact ⟨_, List.mem_cons_self, .inl rfl⟩
    rcases Nat.lt_or_ge p r.offset with hbehind | hbehind
    · exact ⟨_, List.mem_cons_self, .inr ⟨hlt, hbehind⟩⟩
    · have hnext : next start r ≤ p := by
        rw [next]
        split <;> omega
      obtain ⟨m, hm, hcovers⟩ := h.complete p hnext hsize hp
      exact ⟨m, List.mem_cons_of_mem _ hm, hcovers⟩

/-- **A scan has at most one match more than there are characters**: no two of them start together. -/
theorem length_le (h : Scan e text offset ms) : ms.length ≤ text.size + 1 := by
  have hnodup : (ms.map fun m => m.span.start).Nodup := List.pairwise_map.mpr (h.apart.imp fun h => h.1.ne)
  have hsubset : (ms.map fun m => m.span.start) ⊆ List.range (text.size + 1) := by
    intro p hp
    obtain ⟨m, hm, rfl⟩ := List.mem_map.mp hp
    have := h.inside m hm
    exact List.mem_range.mpr (by omega)
  have hle := (hnodup.subperm hsubset).length_le
  rwa [List.length_map, List.length_range] at hle

end Scan

theorem lt_next (h : offset ≤ start) (hin : start ≤ r.offset) : offset < Scan.next start r := by
  rw [Scan.next]
  split <;> omega

/-- **As many turns as there are places left are enough for a scan.** -/
theorem scan_findAllFrom (h : text.size + 1 ≤ offset + turns) : Scan e text offset (e.findAllFrom text turns offset) := by
  induction turns generalizing offset with
  | zero => exact .nil fun p hle hsize => absurd hle (by omega)
  | succ turns ih =>
    rw [Expression.findAllFrom]
    split
    · next hoffset =>
      cases hsearch : e.search text offset with
      | none => exact .nil ((search_eq_none hoffset).mp hsearch)
      | some found =>
        obtain ⟨start, r⟩ := found
        obtain ⟨⟨hle, hsize⟩, hmatch, hbefore⟩ := (search_eq_some hoffset).mp hsearch
        have hin := within_of_matchAt hmatch hsize
        have hnext := lt_next hle hin.start_le
        exact .cons hle hmatch ⟨hin.start_le, hin.offset⟩ hbefore (ih (by omega))
    · exact .nil fun p hle hsize => absurd hle (by omega)

/-- **A scan ends by itself**: more turns find nothing more. -/
theorem findAllFrom_eq {turns' : Nat} (h : text.size + 1 ≤ offset + turns) (h' : text.size + 1 ≤ offset + turns') :
    e.findAllFrom text turns offset = e.findAllFrom text turns' offset := by
  induction turns generalizing offset turns' with
  | zero =>
    cases turns' with
    | zero => rfl
    | succ turns' => rw [Expression.findAllFrom, Expression.findAllFrom, if_neg (by omega)]
  | succ turns ih =>
    cases turns' with
    | zero => rw [Expression.findAllFrom, Expression.findAllFrom, if_neg (by omega)]
    | succ turns' =>
      rw [Expression.findAllFrom, Expression.findAllFrom]
      split
      · next hoffset =>
        cases hsearch : e.search text offset with
        | none => rfl
        | some found =>
          obtain ⟨start, r⟩ := found
          obtain ⟨⟨hle, hsize⟩, hmatch, -⟩ := (search_eq_some hoffset).mp hsearch
          have hnext := lt_next hle (within_of_matchAt hmatch hsize).start_le
          have hrest : e.findAllFrom text turns (Scan.next start r) = e.findAllFrom text turns' (Scan.next start r) :=
            ih (by omega) (by omega)
          exact congrArg _ hrest
      · rfl

/-! ## All matches -/

/-- **All matches of an expression in a text.**  There is at most one match more than there are characters,
and the search ends by itself.  Each match starts behind where the one before it starts and ends, and is the
piece of the text on which the expression matches there.  Wherever in the text the expression matches, a match
starts, or the place lies strictly inside one. -/
theorem findAll_scans (e : Expression) (text : String) :
    (e.findAll text).length ≤ text.length + 1 ∧
    (∀ turns, text.length + 1 ≤ turns → e.findAllFrom text.toList.toArray turns 0 = e.findAll text) ∧
    ((e.findAll text).Pairwise fun a b => a.span.start < b.span.start ∧ a.span.stop ≤ b.span.start) ∧
    (∀ m ∈ e.findAll text,
      (∃ r, e.matchAt text.toList.toArray m.span.start = some r ∧ m = ⟨⟨m.span.start, r.offset⟩, e.foundGroups r⟩) ∧
      ∃ before behind, text = before ++ slice text m.span.start m.span.stop ++ behind ∧
        before.length = m.span.start ∧ before.length + (slice text m.span.start m.span.stop).length = m.span.stop) ∧
    (∀ p ≤ text.length, (e.matchAt text.toList.toArray p).isSome = true →
      ∃ m ∈ e.findAll text, p = m.span.start ∨ (m.span.start < p ∧ p < m.span.stop)) := by
  have hsize : text.toList.toArray.size = text.length := List.size_toArray.trans String.length_toList
  have hscan : Scan e text.toList.toArray 0 (e.findAll text) := scan_findAllFrom (by omega)
  refine ⟨hsize ▸ hscan.length_le, fun turns h => findAllFrom_eq (by omega) (by omega), hscan.apart,
    fun m hm => ⟨hscan.matched m hm, ?_⟩, fun p hp => hscan.complete p (Nat.zero_le p) (hsize ▸ hp)⟩
  obtain ⟨-, hle, hstop⟩ := hscan.inside m hm
  rw [hsize, ← String.length_toList] at hstop
  refine ⟨.ofList (text.toList.take m.span.start), .ofList (text.toList.drop m.span.stop), ?_, ?_, ?_⟩
  · rw [← String.toList_inj, String.toList_append, String.toList_append, toList_slice, String.toList_ofList,
      String.toList_ofList, take_append_sliceList text.toList hle, List.take_append_drop]
  · rw [String.length_ofList, List.length_take_of_le (hle.trans hstop)]
  · rw [String.length_ofList, List.length_take_of_le (hle.trans hstop), slice, String.length_ofList,
      length_sliceList text.toList hstop, Nat.add_sub_cancel' hle]

end SlotEdit.Regex
