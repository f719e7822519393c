import Calculator.Proofs.Float.Defined
import Calculator.Proofs.Number.Written
import Calculator.Proofs.Token.Joint

/-!
Tokens that are written out with blanks between them.

What is written for a token of a text spells it: a number that is not infinite is written as digits
with an optional point, which read as the same double, and a name and a symbol are written as they
stood in the text. So the tokens are read back from what is written for them, as long as blanks keep
them apart, and each begins where its own text does.
-/

namespace Calculator

open Magnitude

section Texts

variable {piece : List Char} {token : Token}

/-- What is written for a token that a text spells, spells it too. -/
theorem Spells.written (h : Spells piece token)
    (finite : ∀ value, token = .number value → value.isInf = false) :
    Spells token.text.toList token := by
  cases token with
  | number value =>
      obtain ⟨unsigned, hnumber⟩ : _ ∧ _ := h.isWord
      have hfinite : value.isFinite = true := by
        by_contra hother
        have hinfinite := isInf_of_not_isFinite hnumber (Bool.eq_false_iff.mpr hother)
        simp [finite value rfl] at hinfinite
      obtain ⟨numeral, hwell, htext, rfl⟩ :=
        Number.exists_numeral_of_plain hfinite unsigned
      rw [Token.text, ← htext]
      exact spells_numeral hwell
  | identifier name =>
      obtain rfl : name = String.ofList piece := h.means
      rw [Token.text, String.toList_ofList]
      exact h
  | symbol sign =>
      rw [Token.text, Char.toString, String.toList_singleton]
      exact ⟨rfl, trivial⟩
  | blank => exact h.means.elim

end Texts

/-- The texts of tokens, each with its blanks in front. -/
def spread : List (List Char × Token) → List Char
  | [] => []
  | (gap, token) :: words => gap ++ (token.text.toList ++ spread words)

/-- The tokens of a spread text that starts at a position. -/
def spreadTokens (position : Nat) : List (List Char × Token) → List PlacedToken
  | [] => []
  | (gap, token) :: words =>
    ⟨position + byteCount gap, token⟩ ::
      spreadTokens (position + byteCount gap + byteCount token.text.toList) words

section Spread

variable {words : List (List Char × Token)} {last : List Char}

theorem map_spreadTokens (position : Nat) :
    (spreadTokens position words).map (·.token) = words.map Prod.snd := by
  induction words generalizing position with
  | nil => rfl
  | cons word words ih => exact congrArg (word.2 :: ·) (ih _)

/-- A token is placed behind the bytes of all that is in front of its text. -/
theorem getElem?_spreadTokens {gap : List Char} {token : Token}
    {before after : List (List Char × Token)} (position : Nat) :
    (spreadTokens position (before ++ (gap, token) :: after))[before.length]? =
      some ⟨position + byteCount (spread before ++ gap), token⟩ := by
  induction before generalizing position with
  | nil => rfl
  | cons word before ih =>
      rw [List.cons_append, spreadTokens, List.length_cons, List.getElem?_cons_succ, ih]
      simp only [spread, byteCount_append, Nat.add_assoc]

theorem apart_of_isBlank {text : List Char} (h : ∀ c ∈ text.head?, isBlank c = true) :
    Apart text := by
  intro c hc
  have hblank := h c hc
  refine ⟨?_, ?_, ?_, ?_⟩
  · by_contra hpart
    simp [isBlank_of_isNamePart (Bool.not_eq_false _ ▸ hpart)] at hblank
  all_goals
    rintro rfl
    exact absurd hblank (by decide)

theorem tokensFrom_blanks {gap : List Char} (blank : ∀ c ∈ gap, isBlank c = true)
    (position : Nat) (rest : List Char) :
    tokensFrom position (gap ++ rest) = tokensFrom (position + byteCount gap) rest := by
  induction gap generalizing position with
  | nil => rfl
  | cons c gap ih =>
      obtain ⟨hc, hgap⟩ := List.forall_mem_cons.mp blank
      rw [List.cons_append, tokensFrom_blank hc, ih hgap, byteCount_cons, Nat.add_assoc]

/-- Blanks, and gaps that are not empty, keep a text apart from what is in front. -/
theorem apart_spread (blank : ∀ word ∈ words, ∀ c ∈ word.1, isBlank c = true)
    (apart : ∀ word ∈ words, word.1 ≠ []) (hlast : ∀ c ∈ last, isBlank c = true) :
    Apart (spread words ++ last) := by
  refine apart_of_isBlank fun c hc => ?_
  cases words with
  | nil => exact hlast c (List.mem_of_mem_head? hc)
  | cons word words =>
      obtain ⟨d, gap, hgap⟩ := List.exists_cons_of_ne_nil (apart word List.mem_cons_self)
      refine blank word List.mem_cons_self c ?_
      rw [spread, hgap] at hc
      obtain rfl : d = c := by simpa using hc
      rw [hgap]
      exact List.mem_cons_self

theorem tokensFrom_spread (spells : ∀ word ∈ words, Spells word.2.text.toList word.2)
    (blank : ∀ word ∈ words, ∀ c ∈ word.1, isBlank c = true)
    (apart : ∀ word ∈ words.tail, word.1 ≠ []) (hlast : ∀ c ∈ last, isBlank c = true)
    (position : Nat) :
    tokensFrom position (spread words ++ last) = .ok (spreadTokens position words) := by
  induction words generalizing position with
  | nil =>
      have hread := tokensFrom_blanks hlast position []
      rwa [List.append_nil, tokensFrom_nil] at hread
  | cons word words ih =>
      obtain ⟨gap, token⟩ := word
      obtain ⟨hword, hwords⟩ := List.forall_mem_cons.mp spells
      obtain ⟨hgap, hgaps⟩ := List.forall_mem_cons.mp blank
      have hrest := ih hwords hgaps (fun other hother => apart other (List.mem_of_mem_tail hother))
      have hone : ∀ place, tokensFrom place token.text.toList = .ok [⟨place, token⟩] := by
        intro place
        have hlongest : Longest token.text.toList token [] :=
          Lexeme.longest_of_scan (Lexeme.scan?_of_spells hword)
        have hread := tokensFrom_longest hlongest place
        rwa [List.append_nil, tokensFrom_nil] at hread
      rw [spread, List.append_assoc, List.append_assoc, tokensFrom_blanks hgap,
        tokensFrom_append (apart_spread hgaps apart hlast), hone, hrest]
      rfl

end Spread

/-- The tokens of a text without infinite numbers are read back from their own texts, with any
blanks in front, between and behind, and each is placed where its text begins. -/
theorem tokenize_spread {text : String} {tokens : List PlacedToken}
    (h : tokenize text = .ok tokens)
    (finite : ∀ placed ∈ tokens, ∀ value, placed.token = .number value → value.isInf = false)
    {words : List (List Char × Token)} {last : List Char}
    (same : words.map Prod.snd = tokens.map (·.token))
    (blank : ∀ word ∈ words, ∀ c ∈ word.1, isBlank c = true)
    (apart : ∀ word ∈ words.tail, word.1 ≠ []) (hlast : ∀ c ∈ last, isBlank c = true) :
    ∃ read, tokenize (String.ofList (spread words ++ last)) = .ok read ∧
      read.map (·.token) = tokens.map (·.token) ∧
      ∀ before gap token after, words = before ++ (gap, token) :: after →
        read[before.length]? = some ⟨byteCount (spread before ++ gap), token⟩ := by
  have spells : ∀ word ∈ words, Spells word.2.text.toList word.2 := by
    intro word hword
    have htoken : word.2 ∈ tokens.map (·.token) := same ▸ List.mem_map_of_mem hword
    obtain ⟨placed, hplaced, htoken⟩ := List.mem_map.mp htoken
    obtain ⟨_, piece, _, -, -, longest⟩ := (munches_of_tokensFrom h).spells hplaced
    rw [← htoken]
    exact longest.spells.written (finite placed hplaced)
  refine ⟨spreadTokens 0 words, ?_, ?_, ?_⟩
  · rw [tokenize, String.toList_ofList]
    exact tokensFrom_spread spells blank apart hlast 0
  · rw [map_spreadTokens, same]
  · rintro before gap token after rfl
    rw [getElem?_spreadTokens, Nat.zero_add]

/-- The gap in front of the minus is one character of three bytes. -/
def wideGaps : List (List Char × Token) :=
  [([], .number 1000), (['\u3000'], .symbol .minus), (['\n', ' '], .number 0.5)]

theorem tokenize_spread_wideGaps :
    tokenize "1e3-.5" = .ok [⟨0, .number 1000⟩, ⟨3, .symbol .minus⟩, ⟨4, .number 0.5⟩] ∧
    ∃ read, tokenize (String.ofList (spread wideGaps ++ [' '])) = .ok read ∧
      read[0]? = some ⟨0, .number 1000⟩ ∧ read[1]? = some ⟨7, .symbol .minus⟩ ∧
      read[2]? = some ⟨10, .number 0.5⟩ := by
  have htokens : tokenize "1e3-.5" =
      .ok [⟨0, .number 1000⟩, ⟨3, .symbol .minus⟩, ⟨4, .number 0.5⟩] := by decide +kernel
  have finite : (1000 : Float).isInf = false ∧ (0.5 : Float).isInf = false := by decide +kernel
  have same : wideGaps.map Prod.snd = [.number 1000, .symbol .minus, .number 0.5] := rfl
  have blank : ∀ word ∈ wideGaps, ∀ c ∈ word.1, isBlank c = true := by
    simp [wideGaps, isBlank, blankRanges]
  have apart : ∀ word ∈ wideGaps.tail, word.1 ≠ [] := by simp [wideGaps]
  have hlast : ∀ c ∈ [' '], isBlank c = true := by simp [isBlank, blankRanges]
  obtain ⟨read, hread, -, hplaced⟩ :=
    tokenize_spread htokens (by simpa using finite) same blank apart hlast
  refine ⟨htokens, read, hread, ?_, ?_, ?_⟩
  · exact (hplaced [] _ _ _ rfl).trans (by decide +kernel)
  · exact (hplaced [_] _ _ _ rfl).trans (by decide +kernel)
  · exact (hplaced [_, _] _ _ _ rfl).trans (by decide +kernel)

end Calculator
