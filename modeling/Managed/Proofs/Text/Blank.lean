import Mathlib.Data.List.TakeWhile
import Managed.Text.Blank

/-!
# Texts among white space

Dropping the white space around a text finds the text again, if it has no white space of its own
(`trim_of_inBlanks`).
-/

namespace Managed.Text

/-- A text with white space around it. -/
inductive InBlanks (core : List Char) : List Char → Prop where
  | mk {before after : List Char} : (∀ c ∈ before, isBlank c = true) →
    (∀ c ∈ after, isBlank c = true) → InBlanks core (before ++ core ++ after)

theorem inBlanks_trim (text : List Char) : InBlanks (trim text) text := by
  have hblank : ∀ text : List Char, ∀ c ∈ text.takeWhile isBlank, isBlank c = true :=
    fun text c hc => List.all_eq_true.mp List.all_takeWhile c hc
  have hrest : trim text ++ ((text.dropWhile isBlank).reverse.takeWhile isBlank).reverse =
      text.dropWhile isBlank := by
    rw [trim, ← List.reverse_append, List.takeWhile_append_dropWhile, List.reverse_reverse]
  have h : InBlanks (trim text) (text.takeWhile isBlank ++ trim text ++
      ((text.dropWhile isBlank).reverse.takeWhile isBlank).reverse) :=
    .mk (hblank text) fun c hc => hblank _ c (List.mem_reverse.mp hc)
  rwa [List.append_assoc, hrest, List.takeWhile_append_dropWhile] at h

theorem dropWhile_isBlank_append {before core : List Char} (hbefore : ∀ c ∈ before, isBlank c = true)
    (hcore : ∀ c ∈ core.head?, isBlank c = false) : (before ++ core).dropWhile isBlank = core := by
  rw [List.dropWhile_append_of_pos hbefore]
  cases core with
  | nil => rfl
  | cons c core => rw [List.dropWhile_cons_of_neg (by simp [hcore c rfl])]

theorem trim_of_inBlanks {core text : List Char} (hcore : ∀ c ∈ core, isBlank c = false)
    (h : InBlanks core text) : trim text = core := by
  obtain ⟨hbefore, hafter⟩ := h
  rename_i before after
  by_cases hne : core = []
  · subst hne
    have hall : ∀ c ∈ before ++ after, isBlank c = true := by
      intro c hc
      exact (List.mem_append.mp hc).elim (hbefore c) (hafter c)
    rw [List.append_nil, trim, List.dropWhile_eq_nil_iff.mpr hall]
    rfl
  · have hhead : ∀ c ∈ (core ++ after).head?, isBlank c = false := by
      obtain ⟨d, core, rfl⟩ := List.exists_cons_of_ne_nil hne
      intro c hc
      cases hc
      exact hcore _ List.mem_cons_self
    rw [trim, List.append_assoc, dropWhile_isBlank_append hbefore hhead, List.reverse_append,
      dropWhile_isBlank_append (by simpa using hafter), List.reverse_reverse]
    intro c hc
    exact hcore c (List.mem_reverse.mp (List.mem_of_mem_head? hc))

end Managed.Text
