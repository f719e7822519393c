import Calculator.Proofs.Token.Edge

/-!
What a word or a number is continued by.

A text that begins with a letter continues a name in front of it, and a number in front of it if it
begins with a power of ten. Behind a name every letter, digit or underscore goes on with it, and
behind digits a digit, a point or a power of ten does. Nothing else joins two texts.
-/

namespace Calculator

open Relation (ReflTransGen)

/-- The last lexeme of a text is a name. -/
def EndsInName (text : List Char) : Prop :=
  ∃ name ∈ Pattern.name, Reaches text name

/-- The last lexeme of a text is a number without a power of ten. -/
def EndsInMantissa (text : List Char) : Prop :=
  ∃ numeral : Numeral, numeral.WellFormed ∧ numeral.power = none ∧ Reaches text numeral.text

def BeginsPower (text : List Char) : Prop :=
  ∃ piece ∈ Pattern.power, piece <+: text

theorem beginsPower_iff {text : List Char} :
    BeginsPower text ↔ PowerOfTen.scan? text ≠ none := by
  constructor
  · rintro ⟨_, hpower, rest, rfl⟩ hnone
    obtain ⟨power, hwell, rfl⟩ := (Pattern.mem_power _).mp hpower
    have hscan := PowerOfTen.scan?_text hwell endsNumeral_nil
    rw [List.append_nil, scanPower_eq_none_of_append hnone] at hscan
    simp at hscan
  · intro h
    obtain ⟨⟨power, rest⟩, hscan⟩ := Option.ne_none_iff_exists'.mp h
    exact ⟨power.text, (Pattern.mem_power _).mpr ⟨power, PowerOfTen.wellFormed_of_scan hscan, rfl⟩,
      rest, Numeral.text_append_of_power hscan⟩

section Spelling

variable {piece more : List Char} {c : Char}

theorem spells_name (h : piece ∈ Pattern.name) :
    Spells piece (.identifier (String.ofList piece)) :=
  ⟨h, rfl⟩

theorem spells_numeral {numeral : Numeral} (h : numeral.WellFormed) :
    Spells numeral.text (.number numeral.value) :=
  ⟨Pattern.mem_number.mpr ⟨numeral, h, rfl⟩, numeral, h, rfl, numeral.decimal.isRounded_toFloat⟩

theorem name_append (h : piece ∈ Pattern.name) (parts : ∀ d ∈ more, isNamePart d = true) :
    piece ++ more ∈ Pattern.name := by
  obtain ⟨c, rest, hstart, hrest, rfl⟩ := Pattern.mem_name.mp h
  refine Pattern.mem_name.mpr ⟨c, rest ++ more, hstart, ?_, rfl⟩
  intro d hd
  exact (List.mem_append.mp hd).elim (hrest d) (parts d)

theorem name_of_append (h : piece ++ more ∈ Pattern.name) (hne : piece ≠ []) :
    piece ∈ Pattern.name := by
  obtain ⟨c, rest, hstart, hrest, htext⟩ := Pattern.mem_name.mp h
  cases piece with
  | nil => exact absurd rfl hne
  | cons d piece =>
      obtain ⟨rfl, rfl⟩ := List.cons.inj htext
      exact Pattern.mem_name.mpr ⟨c, piece, hstart,
        fun e he => hrest e (List.mem_append_left _ he), rfl⟩

/-- A symbol has a single character. -/
theorem not_spells_symbol {sign : Symbol} (hpiece : piece ≠ []) (hmore : more ≠ []) :
    ¬ Spells (piece ++ more) (.symbol sign) := by
  intro h
  have hlength : (piece ++ more).length = 1 := congrArg List.length
    (show piece ++ more = [sign.char] from h.inPattern)
  have hpos := List.length_pos_iff.mpr hpiece
  have hpos' := List.length_pos_iff.mpr hmore
  rw [List.length_append] at hlength
  omega

/-- The text of a numeral up to its power of ten. -/
def mantissaText (numeral : Numeral) : List Char :=
  numeral.whole ++ numeral.fraction.elim [] ('.' :: ·)

theorem digit_or_point_of_mantissa {numeral : Numeral} (h : numeral.WellFormed)
    (hmem : c ∈ mantissaText numeral) : c.isDigit = true ∨ c = '.' := by
  obtain ⟨whole, fraction, power⟩ := numeral
  rcases List.mem_append.mp hmem with hwhole | hfraction
  · exact .inl (h.whole c hwhole)
  · cases fraction with
    | none => simp at hfraction
    | some digits => exact (List.mem_cons.mp hfraction).symm.imp_left (h.fraction digits rfl c)

theorem letter_notMem_mantissa {numeral : Numeral} (h : numeral.WellFormed)
    (letter : isNameStart c = true) : c ∉ mantissaText numeral := by
  intro hmem
  simp [isNameStart_of_numeralStart (digit_or_point_of_mantissa h hmem)] at letter

theorem letter_notMem_exponent {power : PowerOfTen} (h : power.WellFormed)
    (letter : isNameStart c = true) : c ∉ power.sign.toList ++ power.digits := by
  intro hmem
  rcases List.mem_append.mp hmem with hsign | hdigit
  · rcases h.sign c (by simpa using hsign) with rfl | rfl <;> exact absurd letter (by decide)
  · simp [isNameStart_of_numeralStart (.inl (h.digits c hdigit))] at letter

/-- The only letter in a numeral is the mark of its power. -/
theorem power_of_letter {numeral : Numeral} (h : numeral.WellFormed)
    (letter : isNameStart c = true) (htext : numeral.text = piece ++ c :: more) :
    ∃ power, numeral.power = some power ∧ power.text = c :: more ∧
      mantissaText numeral = piece := by
  obtain ⟨whole, fraction, power⟩ := numeral
  have hmantissa := letter_notMem_mantissa h letter
  rw [Numeral.text, ← mantissaText] at htext
  rcases List.append_eq_append_iff.mp htext with ⟨rest, rfl, hpower⟩ | ⟨rest, hrest, hmore⟩
  · cases power with
    | none => simp at hpower
    | some power =>
        refine ⟨power, rfl, ?_⟩
        cases rest with
        | nil => exact ⟨hpower, (List.append_nil _).symm⟩
        | cons mark rest =>
            -- The letter would stand behind the mark.
            refine absurd ?_ (letter_notMem_exponent (h.power power rfl) letter)
            rw [(List.cons.inj hpower).2]
            exact List.mem_append_right _ List.mem_cons_self
  · cases rest with
    | nil =>
        rw [List.nil_append] at hmore
        cases power with
        | none => simp at hmore
        | some power => exact ⟨power, rfl, hmore.symm, by simpa using hrest⟩
    | cons d rest =>
        obtain ⟨rfl, -⟩ := List.cons.inj hmore
        exact absurd (hrest ▸ List.mem_append_right _ List.mem_cons_self) hmantissa

end Spelling

section Continued

variable {first rest digits : List Char} {c : Char}

theorem text_of_mantissa {numeral : Numeral} (hpower : numeral.power = none) :
    numeral.text = mantissaText numeral := by
  rw [Numeral.text, hpower, mantissaText]
  exact List.append_nil _

/-- A letter continues a name, or a number as the mark of a power of ten. -/
theorem continued_letter_iff (letter : isNameStart c = true) :
    Continued first (c :: rest) ↔
      EndsInName first ∨ EndsInMantissa first ∧ BeginsPower (c :: rest) := by
  constructor
  · rintro ⟨piece, more, token, hreaches, hpiece, hmore, hprefix, hspells⟩
    obtain ⟨d, more, rfl⟩ := List.exists_cons_of_ne_nil hmore
    obtain ⟨rfl, -⟩ := List.cons_prefix_cons.mp hprefix
    cases token with
    | number value =>
        obtain ⟨numeral, hwell, htext, -⟩ := hspells.means
        obtain ⟨power, hpower, hmark, hmantissa⟩ := power_of_letter hwell letter htext
        refine .inr ⟨⟨{ numeral with power := none }, ?_, rfl, ?_⟩, power.text, ?_, ?_⟩
        · exact ⟨hwell.whole, hwell.fraction, nofun, hwell.nonempty⟩
        · rw [text_of_mantissa rfl]
          exact hmantissa ▸ hreaches
        · exact (Pattern.mem_power _).mpr ⟨power, hwell.power power hpower, rfl⟩
        · rwa [hmark]
    | identifier name => exact .inl ⟨piece, name_of_append hspells.inPattern hpiece, hreaches⟩
    | symbol => exact absurd hspells (not_spells_symbol hpiece hmore)
    | blank => exact hspells.means.elim
  · rintro (⟨name, hname, hreaches⟩ | ⟨⟨numeral, hwell, hnone, hreaches⟩, _, hpower, hprefix⟩)
    · have hlonger : name ++ [c] ∈ Pattern.name := name_append hname
        (by simpa using isNamePart_of_isNameStart letter)
      exact ⟨name, [c], _, hreaches, (spells_name hname).ne_nil, List.cons_ne_nil c [],
        ⟨rest, rfl⟩, spells_name hlonger⟩
    · obtain ⟨power, hfits, rfl⟩ := (Pattern.mem_power _).mp hpower
      have hlonger : Numeral.WellFormed { numeral with power := some power } :=
        ⟨hwell.whole, hwell.fraction, fun _ heq => Option.some.inj heq ▸ hfits, hwell.nonempty⟩
      have htext : Numeral.text { numeral with power := some power } =
          numeral.text ++ power.text := by
        rw [text_of_mantissa hnone]
        rfl
      have hspells := spells_numeral hlonger
      rw [htext] at hspells
      exact ⟨numeral.text, power.text, _, hreaches, (spells_numeral hwell).ne_nil,
        List.cons_ne_nil _ _, hprefix, hspells⟩

/-- A character that is no part of a name or a number continues nothing. -/
theorem not_continued (hname : isNamePart c = false) (hnumeral : isNumeralPart c = false) :
    ¬ Continued first (c :: rest) := by
  rintro ⟨piece, more, token, -, hpiece, hmore, hprefix, hspells⟩
  obtain ⟨d, more, rfl⟩ := List.exists_cons_of_ne_nil hmore
  obtain ⟨rfl, -⟩ := List.cons_prefix_cons.mp hprefix
  have hmem : d ∈ piece ++ d :: more := List.mem_append_right _ List.mem_cons_self
  cases token with
  | number value =>
      obtain ⟨numeral, hwell, htext, -⟩ := hspells.means
      rw [← htext] at hmem
      simp [hwell.parts d hmem] at hnumeral
  | identifier name =>
      obtain ⟨e, word, hstart, hparts, htext⟩ := Pattern.mem_name.mp hspells.inPattern
      rw [← htext] at hmem
      simp [Lexeme.isNamePart_of_name hstart hparts d hmem] at hname
  | symbol => exact absurd hspells (not_spells_symbol hpiece hmore)
  | blank => exact hspells.means.elim

/-- Tokenizing stops behind a name exactly if no letter, digit or underscore follows. -/
theorem edge_name_iff {name : List Char} (hname : name ∈ Pattern.name) :
    Edge name rest ↔ ∀ c ∈ rest.head?, isNamePart c = false := by
  constructor
  · rintro edge c hc
    by_contra hpart
    obtain ⟨tail, rfl⟩ := List.head?_eq_some_iff.mp hc
    have hlonger : name ++ [c] ∈ Pattern.name := name_append hname (by simpa using hpart)
    exact not_edge_of_spells (spells_name hname).ne_nil (List.cons_ne_nil c []) ⟨tail, rfl⟩
      (spells_name hlonger) edge
  · intro hstop
    obtain ⟨c, word, hstart, hparts, rfl⟩ := Pattern.mem_name.mp hname
    exact .single (.lexeme (Lexeme.longest_of_scan (Lexeme.scan?_name hstart hparts hstop)))

theorem wellFormed_digits (hdigits : ∀ c ∈ digits, c.isDigit = true) (hne : digits ≠ []) :
    Numeral.WellFormed ⟨digits, none, none⟩ :=
  ⟨hdigits, nofun, nofun, fun h => hne h.1⟩

theorem text_digits : Numeral.text ⟨digits, none, none⟩ = digits := by
  simp [Numeral.text]

theorem scan?_digits (hdigits : ∀ c ∈ digits, c.isDigit = true) (hne : digits ≠ [])
    (hstop : ∀ c ∈ rest.head?, c.isDigit = false ∧ c ≠ '.') (hpower : ¬ BeginsPower rest) :
    Lexeme.scan? (digits ++ rest) =
      some (⟨.number (Numeral.value ⟨digits, none, none⟩), digits⟩, rest) := by
  have hspan := spanDigits_of_digits hdigits fun c hc => (hstop c hc).1
  have hfraction : Numeral.splitFraction rest = (none, rest) :=
    @Numeral.splitFraction_text none rest nofun hstop
  have hnone : PowerOfTen.scan? rest = none := by simpa [beginsPower_iff] using hpower
  have hscan : Numeral.scan? (digits ++ rest) = some (⟨digits, none, none⟩, rest) := by
    simp [Numeral.scan?, hspan, hfraction, Numeral.splitPower, hnone, hne]
  obtain ⟨c, tail, rfl⟩ := List.exists_cons_of_ne_nil hne
  have hdigit : c.isDigit = true ∨ c = '.' := .inl (hdigits c List.mem_cons_self)
  rw [List.cons_append] at hscan ⊢
  simp only [Lexeme.scan?, numeralStart_eq_none hdigit, isNameStart_of_numeralStart hdigit, hscan,
    Option.map_some, text_digits]
  rfl

/-- Tokenizing stops behind digits exactly if no digit, point or power of ten follows. -/
theorem edge_digits_iff (hdigits : ∀ c ∈ digits, c.isDigit = true) (hne : digits ≠ []) :
    Edge digits rest ↔
      (∀ c ∈ rest.head?, c.isDigit = false ∧ c ≠ '.') ∧ ¬ BeginsPower rest := by
  constructor
  · intro edge
    have hstop : ∀ more ≠ [], ∀ {numeral : Numeral}, numeral.WellFormed →
        numeral.text = digits ++ more → ¬ more <+: rest := by
      intro more hmore numeral hwell htext hprefix
      exact not_edge_of_spells hne hmore hprefix (htext ▸ spells_numeral hwell) edge
    refine ⟨fun c hc => ⟨?_, ?_⟩, ?_⟩
    · by_contra hdigit
      obtain ⟨tail, rfl⟩ := List.head?_eq_some_iff.mp hc
      have hlonger : ∀ d ∈ digits ++ [c], d.isDigit = true := by
        intro d hd
        rcases List.mem_append.mp hd with hd | hd
        · exact hdigits d hd
        · simpa [List.mem_singleton.mp hd] using hdigit
      exact hstop [c] (List.cons_ne_nil c []) (wellFormed_digits hlonger (by simp)) text_digits
        ⟨tail, rfl⟩
    · rintro rfl
      obtain ⟨tail, rfl⟩ := List.head?_eq_some_iff.mp hc
      have hpoint : Numeral.WellFormed ⟨digits, some [], none⟩ :=
        ⟨hdigits, fun _ heq => Option.some.inj heq ▸ nofun, nofun, fun h => hne h.1⟩
      exact hstop ['.'] (List.cons_ne_nil _ _) hpoint (by simp [Numeral.text]) ⟨tail, rfl⟩
    · rintro ⟨_, hpower, hprefix⟩
      obtain ⟨power, hfits, rfl⟩ := (Pattern.mem_power _).mp hpower
      have hlonger : Numeral.WellFormed ⟨digits, none, some power⟩ :=
        ⟨hdigits, by simp, fun _ heq => Option.some.inj heq ▸ hfits, fun h => hne h.1⟩
      exact hstop power.text (List.cons_ne_nil _ _) hlonger (by simp [Numeral.text]) hprefix
  · rintro ⟨hstop, hpower⟩
    have hscan := scan?_digits hdigits hne hstop hpower
    exact .single (.lexeme (Lexeme.longest_of_scan hscan))

/-- Tokenizing stops behind a symbol. -/
theorem edge_symbol (sign : Symbol) (rest : List Char) : Edge [sign.char] rest :=
  .single (.lexeme (Lexeme.longest_of_scan (Lexeme.scan?_symbol sign rest)))

end Continued

end Calculator
