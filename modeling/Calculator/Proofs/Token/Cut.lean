import Calculator.Proofs.Token.Content

/-!
Texts that are cut behind a lexeme.

A lexeme is as long as it can be, so to read it the text behind it is looked at too. But less text
behind it never makes it longer: if a scan leaves a text behind and some of that is cut off, the
scan takes the same piece and leaves what is kept. So all the text in front of a character that
begins no lexeme has tokens, and they are the ones that were read when this character was found.
-/

namespace Calculator

section Spans

variable {p : Char → Bool} {text kept cut : List Char}

theorem stops_of_dropWhile (h : text.dropWhile p = kept ++ cut) :
    ∀ c ∈ kept.head?, p c = false := by
  cases kept with
  | nil => nofun
  | cons d rest =>
      rintro c ⟨⟩
      have hhead := List.head?_dropWhile_not p text
      rw [h] at hhead
      simpa using hhead

theorem takeWhile_cut (h : text.dropWhile p = kept ++ cut) :
    (text.takeWhile p ++ kept).takeWhile p = text.takeWhile p := by
  rw [takeWhile_append_stop (stops_of_dropWhile h)]
  exact List.takeWhile_eq_self_iff.mpr fun c hc => List.mem_takeWhile_imp hc

theorem dropWhile_cut (h : text.dropWhile p = kept ++ cut) :
    (text.takeWhile p ++ kept).dropWhile p = kept := by
  rw [dropWhile_append_stop (stops_of_dropWhile h),
    List.dropWhile_eq_nil_iff.mpr fun c hc => List.mem_takeWhile_imp hc, List.nil_append]

theorem takeWhile_eq_nil_of_append (h : (text ++ cut).takeWhile p = []) :
    text.takeWhile p = [] := by
  cases text with
  | nil => rfl
  | cons c rest => by_cases hc : p c = true <;> simp_all

end Spans

variable {text kept cut : List Char}

theorem spanDigits_cut {digits : List Char} (h : spanDigits text = (digits, kept ++ cut)) :
    spanDigits (digits ++ kept) = (digits, kept) := by
  obtain ⟨rfl, hrest⟩ := Prod.mk.inj h
  rw [spanDigits, takeWhile_cut hrest, dropWhile_cut hrest]

theorem splitSign_cut {sign : Option Char} (h : splitSign text = (sign, kept ++ cut)) :
    splitSign (sign.toList ++ kept) = (sign, kept) := by
  cases text with
  | nil =>
      obtain ⟨rfl, hrest⟩ := Prod.mk.inj h
      obtain ⟨rfl, -⟩ := List.append_eq_nil_iff.mp hrest.symm
      rfl
  | cons c rest =>
      simp only [splitSign] at h
      split at h
      · rename_i hsign
        obtain ⟨rfl, -⟩ := Prod.mk.inj h
        simp [splitSign, hsign]
      · rename_i hother
        obtain ⟨rfl, hrest⟩ := Prod.mk.inj h
        cases kept with
        | nil => rfl
        | cons d kept =>
            obtain ⟨rfl, -⟩ := List.cons.inj hrest
            simp [splitSign, hother]

theorem scanPower_cut {power : PowerOfTen}
    (h : PowerOfTen.scan? text = some (power, kept ++ cut)) :
    PowerOfTen.scan? (power.text ++ kept) = some (power, kept) := by
  cases text with
  | nil => simp [PowerOfTen.scan?] at h
  | cons mark afterMark =>
      simp only [PowerOfTen.scan?] at h
      split at h
      · rename_i hmark
        split at h
        · simp at h
        · rename_i hdigits
          obtain ⟨rfl, hrest⟩ := Prod.mk.inj (Option.some.inj h)
          have hspan := spanDigits_cut (Prod.ext rfl hrest)
          have hsign : splitSign afterMark = ((splitSign afterMark).1,
              (spanDigits (splitSign afterMark).2).1 ++ kept ++ cut) := by
            rw [List.append_assoc, ← hrest, Numeral.text_append_spanDigits]
          simp only [PowerOfTen.text, List.cons_append, List.append_assoc, PowerOfTen.scan?,
            if_pos hmark, splitSign_cut hsign, hspan, if_neg hdigits]
      · simp at h

theorem exponentDigits_eq_nil_of_append (h : (spanDigits (splitSign (kept ++ cut)).2).1 = []) :
    (spanDigits (splitSign kept).2).1 = [] := by
  cases kept with
  | nil => rfl
  | cons c rest =>
      simp only [List.cons_append, splitSign] at h ⊢
      split at h <;> rename_i hsign
      · rw [if_pos hsign]
        exact takeWhile_eq_nil_of_append h
      · rw [if_neg hsign]
        exact @takeWhile_eq_nil_of_append _ (c :: rest) cut h

theorem scanPower_eq_none_of_append (h : PowerOfTen.scan? (kept ++ cut) = none) :
    PowerOfTen.scan? kept = none := by
  cases kept with
  | nil => rfl
  | cons mark afterMark =>
      simp only [List.cons_append, PowerOfTen.scan?] at h ⊢
      split at h <;> rename_i hmark
      · split at h
        · rename_i hdigits
          rw [if_pos hmark, if_pos (exponentDigits_eq_nil_of_append hdigits)]
        · simp at h
      · rw [if_neg hmark]

theorem splitFraction_cut {fraction : Option (List Char)}
    (h : Numeral.splitFraction text = (fraction, kept ++ cut)) :
    Numeral.splitFraction (fraction.elim [] ('.' :: ·) ++ kept) = (fraction, kept) := by
  cases text with
  | nil =>
      obtain ⟨rfl, hrest⟩ := Prod.mk.inj h
      obtain ⟨rfl, -⟩ := List.append_eq_nil_iff.mp hrest.symm
      rfl
  | cons c rest =>
      simp only [Numeral.splitFraction] at h
      split at h
      · obtain ⟨rfl, hrest⟩ := Prod.mk.inj h
        have hspan := spanDigits_cut (Prod.ext rfl hrest)
        simp [Numeral.splitFraction, hspan]
      · rename_i hother
        obtain ⟨rfl, hrest⟩ := Prod.mk.inj h
        cases kept with
        | nil => rfl
        | cons d kept =>
            obtain ⟨rfl, -⟩ := List.cons.inj hrest
            simp [Numeral.splitFraction, hother]

theorem splitPower_cut {power : Option PowerOfTen}
    (h : Numeral.splitPower text = (power, kept ++ cut)) :
    Numeral.splitPower (power.elim [] PowerOfTen.text ++ kept) = (power, kept) := by
  simp only [Numeral.splitPower] at h
  split at h
  · rename_i hscan
    obtain ⟨rfl, rfl⟩ := Prod.mk.inj h
    simp [Numeral.splitPower, scanPower_cut hscan]
  · rename_i hnone
    obtain ⟨rfl, rfl⟩ := Prod.mk.inj h
    simp [Numeral.splitPower, scanPower_eq_none_of_append hnone]

theorem scanNumeral_cut {numeral : Numeral}
    (h : Numeral.scan? text = some (numeral, kept ++ cut)) :
    Numeral.scan? (numeral.text ++ kept) = some (numeral, kept) := by
  rcases hwhole : spanDigits text with ⟨whole, afterWhole⟩
  rcases hfraction : Numeral.splitFraction afterWhole with ⟨fraction, afterFraction⟩
  rcases hpower : Numeral.splitPower afterFraction with ⟨power, rest⟩
  simp only [Numeral.scan?, hwhole, hfraction, hpower] at h
  split at h
  · simp at h
  · rename_i hdigits
    obtain ⟨rfl, rfl⟩ := Prod.mk.inj (Option.some.inj h)
    -- What a piece leaves behind begins with the next piece.
    have hafterFraction := Numeral.text_append_splitPower afterFraction
    rw [hpower, ← List.append_assoc] at hafterFraction
    have hafterWhole := Numeral.text_append_splitFraction afterWhole
    rw [hfraction, ← hafterFraction, ← List.append_assoc] at hafterWhole
    rw [← hafterFraction] at hfraction
    rw [← hafterWhole] at hwhole
    simp only [Numeral.text, List.append_assoc, Numeral.scan?, spanDigits_cut hwhole,
      splitFraction_cut hfraction, splitPower_cut hpower, if_neg hdigits]

theorem scanNumeral_eq_none_iff :
    Numeral.scan? text = none ↔
      (spanDigits text).1 = [] ∧ (Numeral.splitFraction text).1.getD [] = [] := by
  have hwhole : (spanDigits text).1 = [] → (spanDigits text).2 = text := by
    intro h
    have happend := Numeral.text_append_spanDigits text
    rwa [h, List.nil_append] at happend
  simp only [Numeral.scan?]
  split
  · rename_i h
    exact iff_of_true rfl (by rwa [hwhole h.1] at h)
  · rename_i h
    exact iff_of_false (Option.some_ne_none _) fun hnone => h (by rwa [hwhole hnone.1])

theorem scanNumeral_eq_none_of_append (h : Numeral.scan? (text ++ cut) = none) :
    Numeral.scan? text = none := by
  obtain ⟨hwhole, hfraction⟩ := scanNumeral_eq_none_iff.mp h
  refine scanNumeral_eq_none_iff.mpr ⟨takeWhile_eq_nil_of_append hwhole, ?_⟩
  cases text with
  | nil => rfl
  | cons c rest =>
      simp only [List.cons_append, Numeral.splitFraction] at hfraction ⊢
      split at hfraction <;> rename_i hpoint
      · rw [if_pos hpoint]
        exact takeWhile_eq_nil_of_append hfraction
      · rw [if_neg hpoint]
        rfl

namespace Lexeme

theorem scan_cut {lexeme : Lexeme} (h : scan? text = some (lexeme, kept ++ cut)) :
    scan? (lexeme.text ++ kept) = some (lexeme, kept) := by
  cases text with
  | nil => simp [scan?] at h
  | cons c rest =>
      simp only [scan?] at h
      split at h
      · rename_i symbol hsymbol
        obtain ⟨rfl, -⟩ := Prod.mk.inj (Option.some.inj h)
        simp only [List.singleton_append, scan?, hsymbol]
      · rename_i hsymbol
        split at h
        · rename_i hstart
          obtain ⟨rfl, hrest⟩ := Prod.mk.inj (Option.some.inj h)
          simp only [List.cons_append, scan?, hsymbol, if_pos hstart, takeWhile_cut hrest,
            dropWhile_cut hrest]
        · rename_i hstart
          obtain ⟨⟨numeral, after⟩, hscan, heq⟩ := Option.map_eq_some_iff.mp h
          obtain ⟨rfl, rfl⟩ := Prod.mk.inj heq
          have hcut := scanNumeral_cut hscan
          have hhead := Numeral.text_append_of_scan hscan
          cases hnumeral : numeral.text with
          | nil => exact absurd hnumeral (Numeral.text_ne_nil_of_scan hscan)
          | cons d more =>
              rw [hnumeral] at hcut hhead
              obtain ⟨rfl, -⟩ := List.cons.inj hhead
              simp only [List.cons_append] at hcut ⊢
              simp only [scan?, hsymbol, if_neg hstart, hcut, Option.map_some, hnumeral]

end Lexeme

/-- An error in reading a text is a character that begins no lexeme, and all the text in front of
this character has tokens. -/
theorem error_of_tokensFrom {position : Nat} {error : SyntaxError}
    (h : tokensFrom position text = .error error) :
    ∃ before c after, text = before ++ c :: after ∧
      error = .unexpectedCharacter c (position + byteCount before) ∧
      ∃ tokens, tokensFrom position before = .ok tokens := by
  fun_induction tokensFrom position text with
  | case1 => simp at h
  | case2 position c text hblank ih =>
      obtain ⟨before, d, after, rfl, rfl, hbefore⟩ := ih h
      refine ⟨c :: before, d, after, rfl, ?_, ?_⟩
      · rw [byteCount_cons, Nat.add_assoc]
      · rwa [tokensFrom_blank hblank]
  | case3 position c text =>
      obtain rfl := Except.error.inj h
      exact ⟨[], c, text, rfl, rfl, [], tokensFrom_nil⟩
  | case4 position c text hblank lexeme rest hscan ih =>
      rcases Grammar.bind_eq_error.mp h with hrest | ⟨_, _, h⟩
      · obtain ⟨before, d, after, rfl, rfl, tokens, htokens⟩ := ih hrest
        have hcut := Lexeme.scan_cut hscan
        have htext := Lexeme.text_append_of_scan hscan
        refine ⟨lexeme.text ++ before, d, after, ?_, ?_, ⟨position, lexeme.token⟩ :: tokens, ?_⟩
        · rw [← htext, List.append_assoc]
        · rw [byteCount_append, Nat.add_assoc]
        · rw [← List.append_assoc] at htext
          cases hpiece : lexeme.text ++ before with
          | nil => simp [hpiece, Lexeme.scan?] at hcut
          | cons e more =>
              rw [hpiece] at hcut htext
              obtain ⟨rfl, -⟩ := List.cons.inj htext
              rw [tokensFrom_lexeme (by simpa using hblank) hcut, htokens]
              rfl
      · simp [pure, Except.pure] at h

end Calculator
