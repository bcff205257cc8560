import Mathlib.Data.List.Perm.Basic

/-!
# Proofs/Sorting — sorted lists are told by their groups

A stable sort keeps the order of items that compare as equal (`filter_mergeSort`), and a sorted list is
told by what it holds of each key, in order (`eq_of_forall_filter`).
-/

namespace SlotEdit

variable {α κ : Type}

/-- **A stable sort keeps the order of items** that may stand in any order, and of those among them that
pass a test. -/
theorem filter_mergeSort {le : α → α → Bool} (trans : ∀ a b c, le a b → le b c → le a c)
    (total : ∀ a b, le a b || le b a) {P : α → Bool} {xs : List α}
    (h : ∀ a ∈ xs, ∀ b ∈ xs, P a = true → P b = true → le a b = true) :
    (xs.mergeSort le).filter P = xs.filter P := by
  have hsorted : (xs.filter P).Pairwise fun a b => le a b = true := by
    refine List.pairwise_of_forall_mem_list fun a ha b hb => ?_
    obtain ⟨ha, hPa⟩ := List.mem_filter.mp ha
    obtain ⟨hb, hPb⟩ := List.mem_filter.mp hb
    exact h a ha b hb hPa hPb
  have hsub := (List.sublist_mergeSort trans total hsorted List.filter_sublist).filter P
  rw [List.filter_filter] at hsub
  simp only [Bool.and_self] at hsub
  exact (hsub.eq_of_length ((List.mergeSort_perm xs le).filter _).length_eq.symm).symm

/-- **Two sorted lists are equal** when they hold the same items, in the same order, of each key. -/
theorem eq_of_forall_filter [DecidableEq κ] (key : α → κ) {r : α → α → Prop}
    (hkey : ∀ a b, r a b → r b a → key a = key b) {xs ys : List α} (hxs : xs.Pairwise r) (hys : ys.Pairwise r)
    (h : ∀ k, xs.filter (fun a => key a = k) = ys.filter fun a => key a = k) : xs = ys := by
  have hmem {a : α} : a ∈ xs ↔ a ∈ ys := by
    have := congrArg (a ∈ ·) (h (key a))
    simpa using this
  induction xs generalizing ys with
  | nil => exact (List.eq_nil_iff_forall_not_mem.mpr fun a ha => nomatch hmem.mpr ha).symm
  | cons a xs ih =>
    cases ys with
    | nil => exact nomatch hmem.mp List.mem_cons_self
    | cons b ys =>
      -- the first of each list comes before all of the other, so both have one key
      have heq : key a = key b := by
        rcases List.mem_cons.mp (hmem.mp List.mem_cons_self) with rfl | ha
        · rfl
        rcases List.mem_cons.mp (hmem.mpr List.mem_cons_self) with rfl | hb
        · rfl
        exact hkey a b (List.rel_of_pairwise_cons hxs hb) (List.rel_of_pairwise_cons hys ha)
      have hfirst := h (key a)
      rw [List.filter_cons_of_pos (by simp), List.filter_cons_of_pos (by simp [heq])] at hfirst
      obtain ⟨rfl, -⟩ := List.cons.inj hfirst
      have hrest (k : κ) : xs.filter (fun a => key a = k) = ys.filter fun a => key a = k := by
        have hk := h k
        by_cases ha : key a = k
        · rw [List.filter_cons_of_pos (by simpa using ha), List.filter_cons_of_pos (by simpa using ha)] at hk
          exact (List.cons.inj hk).2
        · rwa [List.filter_cons_of_neg (by simpa using ha), List.filter_cons_of_neg (by simpa using ha)] at hk
      refine congrArg (a :: ·) (ih hxs.of_cons hys.of_cons hrest fun {c} => ?_)
      have := congrArg (c ∈ ·) (hrest (key c))
      simpa using this

/-- In a list in strict order, one item stands in front of every item it comes before. -/
theorem pair_sublist_of_pairwise {r : α → α → Prop} (hr : ∀ a b, r a b → ¬ r b a) {xs : List α} {a b : α}
    (h : xs.Pairwise r) (ha : a ∈ xs) (hb : b ∈ xs) (hab : r a b) : [a, b].Sublist xs := by
  obtain ⟨front, back, rfl⟩ := List.append_of_mem ha
  obtain ⟨-, hback, hfront⟩ := List.pairwise_append.mp h
  rcases List.mem_append.mp hb with hb | hb
  · exact absurd (hfront b hb a List.mem_cons_self) (hr a b hab)
  · rcases List.mem_cons.mp hb with rfl | hb
    · exact absurd hab (hr b b hab)
    · exact ((List.singleton_sublist.mpr hb).cons_cons a).trans (List.sublist_append_right front (a :: back))

end SlotEdit
