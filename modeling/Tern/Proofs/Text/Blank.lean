import Mathlib.Data.List.TakeWhile
import Tern.Text.Blank

/-!
# Cutting blanks off

Cutting the blanks off the ends of a text takes nothing but blanks, and all of those that are there:
it does not matter how many there are, and a text without blanks stays as it is.

* `Text.exists_trimChars`: only blanks are cut off;
* `Text.trimChars_append`: more of them at the ends change nothing;
* `Text.trim_eq_empty`: nothing is left of blanks alone.
-/

namespace Tern.Text

variable {before after cs : List Char} {s : String}

/-- Only blanks are cut off. -/
theorem exists_trimChars (cs : List Char) : ∃ before after, cs = before ++ trimChars cs ++ after ∧
    (∀ c ∈ before, isBlank c = true) ∧ ∀ c ∈ after, isBlank c = true := by
  have hBlank : ∀ ds : List Char, ∀ c ∈ ds.takeWhile isBlank, isBlank c = true :=
    fun ds => List.all_eq_true.mp List.all_takeWhile
  refine ⟨cs.takeWhile isBlank, ((cs.dropWhile isBlank).reverse.takeWhile isBlank).reverse, ?_,
    hBlank cs, fun c hc => hBlank _ c (List.mem_reverse.mp hc)⟩
  rw [trimChars, List.append_assoc, ← List.reverse_append, List.takeWhile_append_dropWhile,
    List.reverse_reverse, List.takeWhile_append_dropWhile]

/-- Blanks at the ends of a text are cut off with those that are there. -/
theorem trimChars_append (hBefore : ∀ c ∈ before, isBlank c = true)
    (hAfter : ∀ c ∈ after, isBlank c = true) :
    trimChars (before ++ cs ++ after) = trimChars cs := by
  have hReversed : ∀ c ∈ after.reverse, isBlank c = true :=
    fun c hc => hAfter c (List.mem_reverse.mp hc)
  unfold trimChars
  rw [List.append_assoc, List.dropWhile_append_of_pos hBefore, List.dropWhile_append]
  cases hRest : cs.dropWhile isBlank with
  | nil => rw [List.isEmpty_nil, if_pos rfl, List.dropWhile_eq_nil_iff.mpr hAfter]
  | cons c rest =>
    rw [List.isEmpty_cons, if_neg Bool.false_ne_true, List.reverse_append,
      List.dropWhile_append_of_pos hReversed]

/-- A text without blanks stays as it is. -/
theorem trimChars_of_notBlank (h : ∀ c ∈ cs, isBlank c = false) : trimChars cs = cs := by
  have hKeep : ∀ {ds : List Char}, (∀ c ∈ ds, isBlank c = false) → ds.dropWhile isBlank = ds := by
    intro ds hDs
    refine List.dropWhile_eq_self_iff.mpr fun hPos => ?_
    rw [hDs _ (List.getElem_mem hPos)]
    exact Bool.false_ne_true
  unfold trimChars
  rw [hKeep h, hKeep fun c hc => h c (List.mem_reverse.mp hc), List.reverse_reverse]

/-- Trimming leaves nothing of a text if and only if all of it is blank. -/
theorem trim_eq_empty : trim s = "" ↔ ∀ c ∈ s.toList, isBlank c = true := by
  rw [trim, String.ofList_eq_empty_iff]
  constructor
  · intro hEmpty
    obtain ⟨before, after, hSame, hBefore, hAfter⟩ := exists_trimChars s.toList
    rw [hSame, hEmpty, List.append_nil]
    exact List.forall_mem_append.mpr ⟨hBefore, hAfter⟩
  · intro hBlank
    have hNone : trimChars (s.toList ++ [] ++ []) = trimChars [] :=
      trimChars_append hBlank (List.forall_mem_nil _)
    rwa [List.append_nil, List.append_nil] at hNone

/-- What is behind a text that is not blank does not make it blank. -/
theorem trim_append_ne (h : trim s ≠ "") (t : String) : trim (s ++ t) ≠ "" := by
  intro hBlank
  refine h (trim_eq_empty.mpr fun c hc => trim_eq_empty.mp hBlank c ?_)
  rw [String.toList_append]
  exact List.mem_append_left _ hc

end Tern.Text
