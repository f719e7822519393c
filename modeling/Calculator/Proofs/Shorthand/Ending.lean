import Calculator.Shorthand
import Mathlib.Data.List.TakeWhile

/-!
Expanding operator signs and percents neither makes nor breaks a degree mark at the end of a text:
what they replace, and what they put there, is neither blank nor a letter of the mark.
-/

namespace Calculator
namespace Shorthand

/-- Neither blank nor a letter of the degree mark. -/
def Inert (c : Char) : Prop :=
  isBlank c = false ∧ c ∉ degreeMark

instance (c : Char) : Decidable (Inert c) :=
  inferInstanceAs (Decidable (_ ∧ _))

/-- Neither of two texts begins with the other. -/
def Unlike (text other : List Char) : Prop :=
  ¬ text <+: other ∧ ¬ other <+: text

instance (text other : List Char) : Decidable (Unlike text other) :=
  inferInstanceAs (Decidable (_ ∧ _))

/-- An expansion, written backwards, that leaves blanks and the letters of the mark alone. -/
def Respects (expansion : Char → List Char) : Prop :=
  ∀ c, expansion c = [c] ∨ Inert c ∧ ∃ last before, expansion c = last :: before ∧ Inert last

variable {expansion : Char → List Char}

theorem dropWhile_expanded (respects : Respects expansion) (text : List Char) :
    (text.flatMap expansion).dropWhile isBlank = (text.dropWhile isBlank).flatMap expansion := by
  induction text with
  | nil => rfl
  | cons c rest ih =>
      rcases respects c with hsame | ⟨hc, last, before, hnew, hlast⟩
      · by_cases hblank : isBlank c = true <;> simp [hsame, hblank, ih]
      · simp [hnew, hlast.1, hc.1]

theorem not_prefix_of_unlike {word text : List Char} (h : Unlike word text) (rest : List Char) :
    ¬ word <+: text ++ rest := by
  intro hprefix
  rcases List.prefix_or_prefix_of_prefix hprefix (List.prefix_append text rest) with hword | htext
  · exact h.1 hword
  · exact h.2 htext

/-- A word is at the front of an expanded text only where it was before, if no part of it is begun
or continued by an expansion. -/
theorem prefix_flatMap {word : List Char}
    (h : ∀ c, expansion c = [c] ∨
      c ∉ word ∧ ∀ part, part <:+ word → part ≠ [] → Unlike part (expansion c))
    (text : List Char) :
    word <+: text.flatMap expansion ↔ word <+: text := by
  induction word generalizing text with
  | nil => simp
  | cons d word ih =>
      cases text with
      | nil => simp
      | cons c rest =>
          have hword : ∀ c, expansion c = [c] ∨
              c ∉ word ∧ ∀ part, part <:+ word → part ≠ [] → Unlike part (expansion c) := by
            intro c
            refine (h c).imp_right fun ⟨hc, hparts⟩ =>
              ⟨fun hmem => hc (List.mem_cons_of_mem d hmem),
              fun part hpart => hparts part (hpart.trans (List.suffix_cons d word))⟩
          rcases h c with hsame | ⟨hc, hparts⟩
          · simp [hsame, List.cons_prefix_cons, ih hword]
          · have hne : d ≠ c := fun heq => hc (heq ▸ List.mem_cons_self)
            have hunlike := hparts (d :: word) (List.suffix_refl _) (List.cons_ne_nil d word)
            simp [List.flatMap_cons, not_prefix_of_unlike hunlike, List.cons_prefix_cons, hne]

theorem prefix_expanded (respects : Respects expansion) {word : List Char}
    (letters : ∀ c ∈ word, c ∈ degreeMark) (text : List Char) :
    word <+: text.flatMap expansion ↔ word <+: text := by
  refine prefix_flatMap (fun c => (respects c).imp_right ?_) text
  rintro ⟨hc, last, before, hnew, hlast⟩
  refine ⟨fun hmem => hc.2 (letters c hmem), fun part hpart hne => ?_⟩
  obtain ⟨d, part, rfl⟩ := List.exists_cons_of_ne_nil hne
  have hd : d ≠ last := fun heq =>
    hlast.2 (heq ▸ letters d (hpart.subset List.mem_cons_self))
  simp [Unlike, hnew, List.cons_prefix_cons, hd, hd.symm]

theorem endsInDegreeMark_iff {text : List Char} :
    endsInDegreeMark text = true ↔
      degreeMark.reverse <+: text.reverse.dropWhile isBlank := by
  rw [endsInDegreeMark, List.isSuffixOf_iff_suffix, trimEnd, ← List.reverse_prefix,
    List.reverse_reverse]

theorem endsInDegreeMark_expanded (respects : Respects fun c => (expansion c).reverse)
    (text : List Char) : endsInDegreeMark (text.flatMap expansion) = endsInDegreeMark text := by
  rw [Bool.eq_iff_iff, endsInDegreeMark_iff, endsInDegreeMark_iff, List.reverse_flatMap]
  have letters : ∀ c ∈ degreeMark.reverse, c ∈ degreeMark := fun _ => List.mem_reverse.mp
  exact (dropWhile_expanded respects _).symm ▸ prefix_expanded respects letters _

theorem endsInDegreeMark_expandPercents (text : List Char) :
    endsInDegreeMark (expandPercents text) = endsInDegreeMark text := by
  refine endsInDegreeMark_expanded (fun c => ?_) text
  by_cases hpercent : c = '%'
  · subst hpercent
    exact .inr ⟨by decide, '0', ['0', '1', '/'], rfl, by decide⟩
  · simp [percentDivision, hpercent]

theorem endsInDegreeMark_expandOperators (text : List Char) :
    endsInDegreeMark (expandOperators text) = endsInDegreeMark text := by
  rw [expandOperators, List.map_eq_flatMap]
  refine endsInDegreeMark_expanded (fun c => ?_) text
  simp only [operatorSign]
  split
  · rename_i hdivision
    subst hdivision
    exact .inr ⟨by decide, '/', [], rfl, by decide⟩
  · split
    · rename_i htimes
      subst htimes
      exact .inr ⟨by decide, '*', [], rfl, by decide⟩
    · exact .inl rfl

theorem expandConstants_expandOperators (text : List Char) :
    expandConstants (expandOperators text) = expandOperators (expandConstants text) := by
  rw [expandConstants, expandOperators, expandOperators, expandConstants, List.flatMap_map,
    List.map_flatMap]
  congr 1
  funext c
  by_cases hpi : c = 'π'
  · subst hpi
    decide
  · by_cases he : c = 'ℯ'
    · subst he
      decide
    · by_cases hdivision : c = '÷'
      · subst hdivision
        decide
      · by_cases htimes : c = '×'
        · subst htimes
          decide
        · simp [constantName, operatorSign, hpi, he, hdivision, htimes]

end Shorthand
end Calculator
