import Calculator.Proofs.Shorthand.Spacing

/-!
Texts without shorthands.

A text is settled when none of the replaced symbols is in it and every flat call of it has a mark.
No kind of shorthand is left in such a text, so expanding it changes nothing. What expanding gives
is settled: percents are expanded behind the marks, but this neither ends a flat call nor takes the
mark from its end.
-/

namespace Calculator
namespace Shorthand

structure Settled (text : List Char) : Prop where
  symbols : ∀ c ∈ text, c ∉ keys
  calls : ∀ before call behind, text = before ++ (FlatCall.text call ++ behind) →
    call.head ∈ trigHeads → call.argument ≠ [] → (∀ c ∈ call.argument, isParenthesis c = false) →
    endsInDegreeMark call.argument = true

/-- No closing parenthesis of the text wants a mark. -/
def WantsNoMark (text : List Char) : Prop :=
  ∀ before behind, text = before ++ ')' :: behind → wantsMark before = false

section Marked

variable {text rest : List Char}

theorem WantsNoMark.markDegrees_eq (h : WantsNoMark text) : markDegrees text = text := by
  induction text using List.reverseRecOn with
  | nil => exact markDegrees_nil
  | append_singleton text c ih =>
      have hfront : WantsNoMark text := by
        rintro before behind rfl
        exact h before (behind ++ [c]) (by simp)
      have hmark : markBehind text c = [] := by
        rw [markBehind, if_neg]
        rintro ⟨rfl, hwants⟩
        simp [h text [] rfl] at hwants
      rw [markDegrees_concat, ih hfront, hmark, List.nil_append]

theorem WantsNoMark.append_unclosed (h : WantsNoMark text) (unclosed : ')' ∉ rest) :
    WantsNoMark (text ++ rest) := by
  intro before behind htext
  rcases List.append_eq_append_iff.mp htext with ⟨front, rfl, hrest⟩ | ⟨back, rfl, hback⟩
  · exact absurd (hrest ▸ List.mem_append_right _ List.mem_cons_self) unclosed
  · cases back with
    | nil =>
        rw [List.nil_append] at hback
        exact absurd (hback ▸ List.mem_cons_self) unclosed
    | cons c back =>
        obtain ⟨rfl, -⟩ := List.cons.inj hback
        exact h before back rfl

theorem WantsNoMark.concat_closing (h : WantsNoMark text) (unwanted : wantsMark text = false) :
    WantsNoMark (text ++ [')']) := by
  intro before behind htext
  rcases List.eq_nil_or_concat behind with rfl | ⟨behind, last, rfl⟩
  · rw [(List.append_inj' htext rfl).1] at unwanted
    exact unwanted
  · rw [List.concat_eq_append, ← List.cons_append, ← List.append_assoc] at htext
    exact h before behind (List.append_inj' htext rfl).1

/-- Marks in front of closing parentheses do not show behind them. -/
theorem wantsMark_markDegrees_append (text : List Char) {rest : List Char} (unclosed : ')' ∉ rest) :
    wantsMark (markDegrees text ++ rest) = wantsMark (text ++ rest) := by
  induction text using List.reverseRecOn generalizing rest with
  | nil => rw [markDegrees_nil]
  | append_singleton text c ih =>
      rw [markDegrees_concat]
      by_cases hc : c = ')'
      · subst hc
        simp only [List.append_assoc, List.singleton_append]
        rw [← List.append_assoc, wantsMark_closed, wantsMark_closed]
      · have hmore : ')' ∉ c :: rest := by
          simpa [unclosed] using Ne.symm hc
        rw [markBehind_eq_nil hc, List.nil_append, List.append_assoc, List.append_assoc,
          List.singleton_append]
        exact ih hmore

end Marked

theorem unobtrusively_percentDivision : Unobtrusively percentDivision where
  plain c hc := by
    have hpercent : c ≠ '%' := fun heq => hc (heq ▸ by decide)
    rw [percentDivision, if_neg hpercent]
  key c hc := by
    rcases eq_of_mem_keys hc with rfl | rfl | rfl | rfl | rfl <;>
      exact ⟨by decide, by decide, by decide, by decide⟩

section Symbols

variable {text : List Char} {c : Char}

theorem mem_markBehind (h : c ∈ markBehind text ')') : c ∈ ' ' :: degreeMark := by
  rw [markBehind] at h
  split at h
  · exact h
  · simp at h

theorem mem_markDegrees (h : c ∈ markDegrees text) : c ∈ text ∨ c ∈ ' ' :: degreeMark := by
  induction text using List.reverseRecOn with
  | nil => simp [markDegrees_nil] at h
  | append_singleton text d ih =>
      rw [markDegrees_concat, List.mem_append, List.mem_append] at h
      rcases h with hfront | hmark | hlast
      · exact (ih hfront).imp_left (List.mem_append_left _)
      · by_cases hd : d = ')'
        · exact .inr (mem_markBehind (hd ▸ hmark))
        · simp [markBehind_eq_nil hd] at hmark
      · exact .inl (List.mem_append_right _ hlast)

theorem replacement_of_notMem_keys (h : c ∉ keys) : replacement c = [c] := by
  rw [replacement, expandSymbols_of_notMem_keys h]
  simp [expandPercents, unobtrusively_percentDivision.plain c h]

theorem notMem_keys_of_replacement {d : Char} (h : d ∈ replacement c) : d ∉ keys := by
  by_cases hc : c ∈ keys
  · have hall : keys.all (fun key => (replacement key).all (· ∉ keys)) = true := by decide
    have hkey := List.all_eq_true.mp (List.all_eq_true.mp hall c hc) d h
    simpa using hkey
  · rw [replacement_of_notMem_keys hc, List.mem_singleton] at h
    exact h ▸ hc

theorem notMem_expandSymbols : 'ℯ' ∉ expandSymbols text := by
  rw [expandSymbols_eq_flatMap, List.mem_flatMap]
  rintro ⟨c, -, hmem⟩
  by_cases hc : c ∈ keys
  · rcases eq_of_mem_keys hc with rfl | rfl | rfl | rfl | rfl <;> exact absurd hmem (by decide)
  · rw [expandSymbols_of_notMem_keys hc, List.mem_singleton] at hmem
    exact hc (hmem ▸ by decide)

end Symbols

section Expanded

variable (text : List Char)

/-- The marks and the percents of a text do not change what a closing parenthesis behind it
wants. -/
theorem wantsMark_expandAll : wantsMark (expandAll text) = wantsMark (expandSymbols text) := by
  have hmarks : wantsMark (markDegrees (expandSymbols text)) = wantsMark (expandSymbols text) := by
    simpa using @wantsMark_markDegrees_append (expandSymbols text) [] List.not_mem_nil
  have hseparate : ¬ ['ℯ', 'g'] <:+: markDegrees (expandSymbols text) := by
    intro hfound
    rcases mem_markDegrees (hfound.subset List.mem_cons_self) with hsymbol | hmark
    · exact notMem_expandSymbols hsymbol
    · exact absurd hmark (by decide)
  rw [expandAll_eq, expandPercents, unobtrusively_percentDivision.wantsMark_flatMap hseparate,
    hmarks]

theorem notMem_keys_expandAll : ∀ c ∈ expandAll text, c ∉ keys := by
  induction text using List.reverseRecOn with
  | nil => simp [expandAll_nil]
  | append_singleton text last ih =>
      intro c hc
      rw [expandAll_concat, List.mem_append, List.mem_append] at hc
      rcases hc with hfront | hmark | hnew
      · exact ih c hfront
      · by_cases hlast : last = ')'
        · subst hlast
          have hkept := List.all_eq_true.mp
            (show (' ' :: degreeMark).all (· ∉ keys) = true by decide) c (mem_markBehind hmark)
          simpa using hkept
        · simp [markBehind_eq_nil hlast] at hmark
      · exact notMem_keys_of_replacement hnew

theorem closing_notMem_replacement {c : Char} (h : c ≠ ')') : ')' ∉ replacement c := by
  intro hmem
  have hfilter : ')' ∈ (replacement c).filter isParenthesis := List.mem_filter.mpr ⟨hmem, rfl⟩
  rw [replacement, filter_expandPercents, filter_expandSymbols] at hfilter
  exact h (List.mem_singleton.mp (List.mem_of_mem_filter hfilter)).symm

theorem lastArgument_append_flat {rest : List Char} (h : ∀ c ∈ rest, isParenthesis c = false) :
    lastArgument (text ++ rest) = lastArgument text ++ rest := by
  have hrest : ∀ c ∈ rest.reverse, (!isParenthesis c) = true := by simpa using h
  rw [lastArgument, List.rtakeWhile, List.reverse_append, List.takeWhile_append_of_pos hrest,
    List.reverse_append, List.reverse_reverse]
  rfl

/-- Behind a mark there is no other one to put. -/
theorem wantsMark_marked : wantsMark (text ++ ' ' :: degreeMark) = false := by
  have hflat : ∀ c ∈ ' ' :: degreeMark, isParenthesis c = false := by
    simp [degreeMark, isParenthesis]
  have hmarked : endsInDegreeMark (lastArgument text ++ ' ' :: degreeMark) = true := by
    rw [endsInDegreeMark_iff, List.reverse_append]
    exact ⟨' ' :: (lastArgument text).reverse, rfl⟩
  rw [wantsMark, lastArgument_append_flat text hflat, hmarked, Bool.not_true, Bool.and_false]

theorem wantsNoMark_expandAll : WantsNoMark (expandAll text) := by
  induction text using List.reverseRecOn with
  | nil => rw [expandAll_nil]; exact fun before behind h => by simp at h
  | append_singleton text c ih =>
      rw [expandAll_concat]
      by_cases hc : c = ')'
      · subst hc
        have hclosing : replacement ')' = [')'] := by decide
        rw [hclosing, markBehind, ← wantsMark_expandAll]
        cases hwants : wantsMark (expandAll text) with
        | false => simpa using ih.concat_closing hwants
        | true =>
            rw [if_pos ⟨rfl, rfl⟩, ← List.append_assoc]
            exact (ih.append_unclosed (by decide)).concat_closing (wantsMark_marked _)
      · rw [markBehind_eq_nil hc, List.nil_append]
        exact ih.append_unclosed (closing_notMem_replacement hc)

theorem settled_expandAll : Settled (expandAll text) where
  symbols := notMem_keys_expandAll text
  calls before call behind htext hhead hargument hflat := by
    have hclosing : expandAll text = before ++ (call.head ++ call.argument) ++ ')' :: behind := by
      rw [htext, FlatCall.text]
      simp
    have hwants := wantsNoMark_expandAll text _ behind hclosing
    rw [wantsMark_call hhead hargument hflat] at hwants
    simpa using hwants

end Expanded

section Settled

variable {text : List Char} (h : Settled text)
include h

theorem Settled.wantsNoMark : WantsNoMark text := by
  rintro before behind rfl
  by_contra hwants
  obtain ⟨front, call, rfl, hhead, hargument, hflat, hunmarked⟩ :=
    wantsMark_iff_call.mp (by simpa using hwants)
  have hmarked := h.calls front call behind (by simp [FlatCall.text]) hhead hargument hflat
  simp [hmarked] at hunmarked

theorem Settled.expandIn_eq (shorthand : Shorthand) : shorthand.expandIn text = text := by
  have hsymbol : ∀ c ∈ text, c ≠ '÷' ∧ c ≠ '×' ∧ c ≠ 'π' ∧ c ≠ 'ℯ' ∧ c ≠ '%' := by
    intro c hc
    simpa [keys] using h.symbols c hc
  cases shorthand with
  | operators =>
      rw [expandIn, expandOperators, List.map_eq_flatMap]
      exact flatMap_eq_self fun c hc => by simp [operatorSign, hsymbol c hc]
  | constants => exact flatMap_eq_self fun c hc => by simp [constantName, hsymbol c hc]
  | degrees => exact h.wantsNoMark.markDegrees_eq
  | percents => exact flatMap_eq_self fun c hc => by simp [percentDivision, hsymbol c hc]

theorem Settled.expandAll_eq : expandAll text = text := by
  simp [expandAll, all, h.expandIn_eq]

end Settled

/-- Expanding leaves no shorthand of any kind: there is none of the symbols in the expanded text,
each flat call in it has its mark, and so expanding it again, be it all kinds of shorthand or a
single one, changes nothing. -/
theorem expansion_is_final (text : String) :
    Settled (expand text).toList ∧ (∀ shorthand : Shorthand,
      shorthand.expandIn (expand text).toList = (expand text).toList) ∧
      expand (expand text) = expand text := by
  have hsettled : Settled (expand text).toList := by
    rw [expand, String.toList_ofList]
    exact settled_expandAll text.toList
  refine ⟨hsettled, hsettled.expandIn_eq, ?_⟩
  rw [expand, hsettled.expandAll_eq, String.ofList_toList]

/-- The argument of the call ends in a mark only once its constant is a letter of one. -/
example : expand "2×sin(3 dℯg)+tan(50%)" = "2*sin(3 deg)+tan(50/100 deg)" := by
  decide +kernel

end Shorthand
end Calculator
