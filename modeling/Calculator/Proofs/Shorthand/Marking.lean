import Calculator.Proofs.Token.Content
import Calculator.Shorthand

/-!
Degree marks in a text that has been put together from pieces.

A flat call has an opening parenthesis and then a closing one, and nothing in between. So it does
not reach out of a text whose last parenthesis is a closing one, nor over an opening parenthesis
that another one follows, and such pieces are marked on their own.
-/

namespace Calculator
namespace Shorthand

/-- The names that a flat call can have. -/
def trigNames : List (List Char) :=
  [['s', 'i', 'n'], ['c', 'o', 's'], ['t', 'a', 'n']]

theorem mem_trigHeads_iff {head : List Char} :
    head ∈ trigHeads ↔ ∃ name ∈ trigNames, head = name ++ ['('] := by
  simp [trigHeads, trigNames]

theorem length_trigHead {head : List Char} (h : head ∈ trigHeads) : head.length = 4 := by
  simp only [trigHeads, List.mem_cons, List.not_mem_nil, or_false] at h
  rcases h with rfl | rfl | rfl <;> rfl

theorem flatCall?_of_head {head body : List Char} (h : head ∈ trigHeads) :
    flatCall? (head ++ body) =
      match body.dropWhile (!isParenthesis ·) with
      | ')' :: rest =>
        if body.takeWhile (!isParenthesis ·) = [] then none
        else some (⟨head, body.takeWhile (!isParenthesis ·)⟩, rest)
      | _ => none := by
  rw [flatCall?, List.take_left' (length_trigHead h), List.drop_left' (length_trigHead h)]
  exact if_pos h

theorem flatCall?_eq_some {text rest : List Char} {call : FlatCall} :
    flatCall? text = some (call, rest) ↔
      call.head ∈ trigHeads ∧ call.argument ≠ [] ∧
        (∀ c ∈ call.argument, isParenthesis c = false) ∧ text = call.text ++ rest := by
  constructor
  · intro h
    have htext := text_append_of_flatCall h
    simp only [flatCall?] at h
    split at h
    · rename_i hhead
      split at h
      · split at h
        · simp at h
        · rename_i hargument
          obtain ⟨rfl, rfl⟩ := Prod.mk.inj (Option.some.inj h)
          exact ⟨hhead, hargument, fun c hc => by simpa using List.mem_takeWhile_imp hc, htext.symm⟩
      · simp at h
    · simp at h
  · obtain ⟨head, argument⟩ := call
    rintro ⟨hhead, hargument, hflat, htext⟩
    have hbody : text = head ++ (argument ++ ')' :: rest) := by simp [htext, FlatCall.text]
    have hstop : ∀ c ∈ (')' :: rest).head?, (!isParenthesis c) = false := by
      rintro c ⟨⟩
      rfl
    have htake : argument.takeWhile (!isParenthesis ·) = argument := by
      simpa [List.takeWhile_eq_self_iff] using hflat
    have hdrop : argument.dropWhile (!isParenthesis ·) = [] := by
      simpa [List.dropWhile_eq_nil_iff] using hflat
    rw [hbody, flatCall?_of_head hhead]
    simp only [takeWhile_append_stop hstop, dropWhile_append_stop hstop, htake, hdrop,
      List.nil_append]
    rw [if_neg hargument]

theorem filter_trigHead {head : List Char} (h : head ∈ trigHeads) :
    head.filter isParenthesis = ['('] := by
  simp only [trigHeads, List.mem_cons, List.not_mem_nil, or_false] at h
  rcases h with rfl | rfl | rfl <;> rfl

theorem mem_trigHead {head : List Char} (h : head ∈ trigHeads) {c : Char} (hc : c ∈ head) :
    isNamePart c = true ∨ c = '(' := by
  have hletters : head.all (fun c => isNamePart c || c = '(') = true := by
    simp only [trigHeads, List.mem_cons, List.not_mem_nil, or_false] at h
    rcases h with rfl | rfl | rfl <;> decide
  simpa using List.all_eq_true.mp hletters c hc

theorem parentheses_of_flatCall {text rest : List Char} {call : FlatCall}
    (h : flatCall? text = some (call, rest)) :
    text.filter isParenthesis = '(' :: ')' :: rest.filter isParenthesis := by
  obtain ⟨hhead, -, hflat, rfl⟩ := flatCall?_eq_some.mp h
  simp only [FlatCall.text, List.filter_append, filter_trigHead hhead,
    filter_isParenthesis_eq_nil hflat]
  rfl

theorem markDegrees_nil : markDegrees [] = [] := by
  rw [markDegrees]

theorem markDegrees_of_call {text rest : List Char} {call : FlatCall}
    (h : flatCall? text = some (call, rest)) :
    markDegrees text = call.marked ++ markDegrees rest := by
  cases text with
  | nil => simp [flatCall?, trigHeads] at h
  | cons c tail =>
      rw [markDegrees]
      split
      · rename_i hother
        rw [h] at hother
        obtain ⟨rfl, rfl⟩ := Prod.mk.inj (Option.some.inj hother)
        rfl
      · simp_all

theorem markDegrees_of_none {c : Char} {rest : List Char} (h : flatCall? (c :: rest) = none) :
    markDegrees (c :: rest) = c :: markDegrees rest := by
  rw [markDegrees]
  split
  · simp_all
  · rfl

/-- No flat call begins with a character that cannot be in its name. -/
theorem flatCall?_eq_none {c : Char} {rest : List Char} (h : isNamePart c = false ∧ c ≠ '(') :
    flatCall? (c :: rest) = none := by
  cases hcall : flatCall? (c :: rest) with
  | none => rfl
  | some found =>
      obtain ⟨hhead, -, -, htext⟩ := flatCall?_eq_some.mp hcall
      have hmem : c ∈ found.1.head := by
        cases hname : found.1.head with
        | nil => rw [hname] at hhead; simp [trigHeads] at hhead
        | cons d name =>
            simp only [FlatCall.text, hname, List.cons_append, List.cons.injEq] at htext
            rw [htext.1]
            exact List.mem_cons_self
      cases mem_trigHead hhead hmem with
      | inl hpart => simp [h.1] at hpart
      | inr hopening => exact absurd hopening h.2

theorem filter_markDegrees (text : List Char) :
    (markDegrees text).filter isParenthesis = text.filter isParenthesis := by
  fun_induction markDegrees text with
  | case1 => rfl
  | case2 c rest call after h ih =>
      rw [List.filter_append, ih, parentheses_of_flatCall h]
      obtain ⟨hhead, -, hflat, -⟩ := flatCall?_eq_some.mp h
      have hmarked : call.marked.filter isParenthesis = ['(', ')'] := by
        simp only [FlatCall.marked, FlatCall.text]
        split <;>
          simp only [List.filter_append, filter_trigHead hhead,
            filter_isParenthesis_eq_nil hflat] <;> rfl
      rw [hmarked]
      rfl
  | case3 c rest h ih => rw [List.filter_cons, List.filter_cons, ih]

theorem filter_flatMap {expansion : Char → List Char}
    (h : ∀ c, (expansion c).filter isParenthesis = [c].filter isParenthesis) (text : List Char) :
    (text.flatMap expansion).filter isParenthesis = text.filter isParenthesis := by
  induction text with
  | nil => rfl
  | cons c rest ih =>
      rw [List.flatMap_cons, List.filter_append, h, ih, ← List.filter_append]
      rfl

theorem filter_expandOperators (text : List Char) :
    (expandOperators text).filter isParenthesis = text.filter isParenthesis := by
  rw [expandOperators, List.map_eq_flatMap]
  refine filter_flatMap (fun c => ?_) text
  simp only [operatorSign]
  split
  · rename_i hdivision
    subst hdivision
    decide
  · split
    · rename_i htimes
      subst htimes
      decide
    · rfl

theorem filter_expandConstants (text : List Char) :
    (expandConstants text).filter isParenthesis = text.filter isParenthesis := by
  refine filter_flatMap (fun c => ?_) text
  simp only [constantName]
  split
  · rename_i hpi
    subst hpi
    decide
  · split
    · rename_i he
      subst he
      decide
    · rfl

theorem filter_expandPercents (text : List Char) :
    (expandPercents text).filter isParenthesis = text.filter isParenthesis := by
  refine filter_flatMap (fun c => ?_) text
  simp only [percentDivision]
  split
  · rename_i hpercent
    subst hpercent
    decide
  · rfl

theorem markDegrees_flat {text : List Char} (h : ∀ c ∈ text, isParenthesis c = false) :
    markDegrees text = text := by
  induction text with
  | nil => exact markDegrees_nil
  | cons c rest ih =>
      have hnone : flatCall? (c :: rest) = none := by
        cases hcall : flatCall? (c :: rest) with
        | none => rfl
        | some call =>
            have := parentheses_of_flatCall hcall
            rw [filter_isParenthesis_eq_nil h] at this
            simp at this
      rw [markDegrees_of_none hnone, ih fun d hd => h d (List.mem_cons_of_mem c hd)]

/-- A parenthesis is copied with the characters in front of it, if no flat call begins at any of
them. -/
theorem markDegrees_uncalled {name text : List Char}
    (h : ∀ suffix, suffix <:+ name → flatCall? (suffix ++ '(' :: text) = none) :
    markDegrees (name ++ '(' :: text) = name ++ '(' :: markDegrees text := by
  induction name with
  | nil => exact markDegrees_of_none (h [] (List.suffix_refl []))
  | cons c name ih =>
      have hcons := h (c :: name) (List.suffix_refl _)
      have hname := ih fun suffix hsuffix => h suffix (hsuffix.trans (List.suffix_cons c name))
      rw [List.cons_append] at hcons ⊢
      rw [markDegrees_of_none hcons, hname]
      rfl

/-- In front of an opening parenthesis whose next parenthesis does not close it there is nothing
to mark. -/
theorem markDegrees_opening {name text : List Char} (hname : ∀ c ∈ name, isParenthesis c = false)
    (next : (text.filter isParenthesis).head? ≠ some ')') :
    markDegrees (name ++ '(' :: text) = name ++ '(' :: markDegrees text := by
  refine markDegrees_uncalled fun suffix hsuffix => ?_
  have hflat : ∀ c ∈ suffix, isParenthesis c = false := fun c hc => hname c (hsuffix.subset hc)
  cases hcall : flatCall? (suffix ++ '(' :: text) with
  | none => rfl
  | some call =>
      have hparentheses := parentheses_of_flatCall hcall
      rw [List.filter_append, filter_isParenthesis_eq_nil hflat, List.nil_append,
        List.filter_cons_of_pos rfl] at hparentheses
      rw [(List.cons.inj hparentheses).2] at next
      exact absurd rfl next

theorem trigHead_eq_concat {head : List Char} (h : head ∈ trigHeads) :
    ∃ word, head = word ++ ['('] ∧ ∀ c ∈ word, isParenthesis c = false := by
  have hletters : head.dropLast.all (!isParenthesis ·) = true ∧ head = head.dropLast ++ ['('] := by
    simp only [trigHeads, List.mem_cons, List.not_mem_nil, or_false] at h
    rcases h with rfl | rfl | rfl <;> decide
  exact ⟨_, hletters.2, by simpa using hletters.1⟩

theorem takeWhile_before_parenthesis {word rest : List Char}
    (h : ∀ c ∈ word, isParenthesis c = false) :
    (word ++ '(' :: rest).takeWhile (!isParenthesis ·) = word := by
  rw [takeWhile_append_stop (by simp [isParenthesis])]
  simpa [List.takeWhile_eq_self_iff] using h

/-- A parenthesis behind a name that does not end in a trigonometric one opens no flat call. -/
theorem markDegrees_name {name text : List Char} (hname : ∀ c ∈ name, isParenthesis c = false)
    (other : ∀ head ∈ trigHeads, ¬ head <:+ name ++ ['(']) :
    markDegrees (name ++ '(' :: text) = name ++ '(' :: markDegrees text := by
  refine markDegrees_uncalled fun suffix hsuffix => ?_
  have hflat : ∀ c ∈ suffix, isParenthesis c = false := fun c hc => hname c (hsuffix.subset hc)
  cases hcall : flatCall? (suffix ++ '(' :: text) with
  | none => rfl
  | some found =>
      obtain ⟨hhead, -, -, htext⟩ := flatCall?_eq_some.mp hcall
      obtain ⟨word, hword, hletters⟩ := trigHead_eq_concat hhead
      have hsame := congrArg (List.takeWhile (!isParenthesis ·)) htext
      rw [takeWhile_before_parenthesis hflat, FlatCall.text, hword] at hsame
      simp only [List.append_assoc, List.cons_append] at hsame
      rw [takeWhile_before_parenthesis hletters] at hsame
      subst hsame
      refine absurd ?_ (other _ hhead)
      rw [hword]
      exact List.suffix_append_self_iff.mpr hsuffix

/-- No parenthesis of the text is closed behind it without another one in between. -/
def Closed (text : List Char) : Prop :=
  (text.filter isParenthesis).getLast? ≠ some '('

theorem Closed.of_append {text rest : List Char} (h : Closed (text ++ rest)) : Closed rest := by
  intro hlast
  rw [Closed, List.filter_append, List.getLast?_append, hlast] at h
  exact h rfl

theorem closed_of_flat {text : List Char} (h : ∀ c ∈ text, isParenthesis c = false) :
    Closed text := by
  simp [Closed, filter_isParenthesis_eq_nil h]

/-- Where a flat call is cut behind a closed text, it is cut within its name. -/
theorem mem_head_of_closed {call : FlatCall} {text missing : List Char} {d : Char}
    (hhead : call.head ∈ trigHeads) (hflat : ∀ c ∈ call.argument, isParenthesis c = false)
    (hcut : call.text = text ++ d :: missing) (closed : Closed text) : d ∈ call.head := by
  rw [FlatCall.text, List.append_assoc] at hcut
  rcases List.append_eq_append_iff.mp hcut with ⟨inside, rfl, hbehind⟩ | ⟨inside, hinside, hbehind⟩
  · have hsplit := congrArg List.dropLast hbehind
    rw [List.dropLast_concat, List.dropLast_append_cons] at hsplit
    have hparentheses : inside.filter isParenthesis = [] := by
      refine filter_isParenthesis_eq_nil fun e he => hflat e ?_
      rw [hsplit]
      exact List.mem_append_left _ he
    rw [Closed, List.filter_append, filter_trigHead hhead, hparentheses] at closed
    exact absurd rfl closed
  · cases inside with
    | nil =>
        rw [List.append_nil] at hinside
        rw [Closed, ← hinside, filter_trigHead hhead] at closed
        exact absurd rfl closed
    | cons e inside =>
        obtain ⟨rfl, -⟩ := List.cons.inj hbehind
        rw [hinside]
        exact List.mem_append_right _ List.mem_cons_self

theorem flatCall?_append_none {c : Char} {text rest : List Char} (closed : Closed (c :: text))
    (apart : ∀ d ∈ rest.head?, isNamePart d = false ∧ d ≠ '(')
    (h : flatCall? (c :: text) = none) : flatCall? (c :: (text ++ rest)) = none := by
  cases hcall : flatCall? (c :: (text ++ rest)) with
  | none => rfl
  | some found =>
      obtain ⟨call, after⟩ := found
      obtain ⟨hhead, hargument, hflat, htext⟩ := flatCall?_eq_some.mp hcall
      rw [← List.cons_append] at htext
      have hwhole : ∀ {extra}, c :: text ≠ call.text ++ extra := by
        intro extra hextra
        rw [flatCall?_eq_some.mpr ⟨hhead, hargument, hflat, hextra⟩] at h
        simp at h
      rcases List.append_eq_append_iff.mp htext with
        ⟨missing, hmissing, hrest⟩ | ⟨extra, hextra, -⟩
      · cases missing with
        | nil => exact absurd hmissing.symm (by simpa using @hwhole [])
        | cons d missing =>
            have hd := apart d (by simp [hrest])
            rcases mem_trigHead hhead (mem_head_of_closed hhead hflat hmissing closed) with
              hpart | rfl
            · exact absurd hpart (by simp [hd.1])
            · exact absurd rfl hd.2
      · exact absurd hextra hwhole

theorem markDegrees_append {text rest : List Char} (closed : Closed text)
    (apart : ∀ d ∈ rest.head?, isNamePart d = false ∧ d ≠ '(') :
    markDegrees (text ++ rest) = markDegrees text ++ markDegrees rest := by
  fun_induction markDegrees text with
  | case1 => rfl
  | case2 c text call after h ih =>
      obtain ⟨hhead, hargument, hflat, htext⟩ := flatCall?_eq_some.mp h
      rw [htext] at closed
      have hmore : flatCall? (c :: text ++ rest) = some (call, after ++ rest) :=
        flatCall?_eq_some.mpr ⟨hhead, hargument, hflat, by rw [htext, List.append_assoc]⟩
      rw [markDegrees_of_call hmore, ih closed.of_append, List.append_assoc]
  | case3 c text h ih =>
      have hmore := flatCall?_append_none closed apart h
      rw [List.cons_append, markDegrees_of_none hmore,
        ih (Closed.of_append (show Closed ([c] ++ text) from closed)), List.cons_append]

/-- A text with its signs and symbols replaced, before marks and percents. -/
def expandSymbols (text : List Char) : List Char :=
  expandConstants (expandOperators text)

theorem expandAll_eq (text : List Char) :
    expandAll text = expandPercents (markDegrees (expandSymbols text)) := rfl

theorem filter_expandSymbols (text : List Char) :
    (expandSymbols text).filter isParenthesis = text.filter isParenthesis := by
  rw [expandSymbols, filter_expandConstants, filter_expandOperators]

theorem filter_expandAll (text : List Char) :
    (expandAll text).filter isParenthesis = text.filter isParenthesis := by
  rw [expandAll_eq, filter_expandPercents, filter_markDegrees, filter_expandSymbols]

theorem expandSymbols_append (text rest : List Char) :
    expandSymbols (text ++ rest) = expandSymbols text ++ expandSymbols rest := by
  rw [expandSymbols, expandOperators, List.map_append, expandConstants, List.flatMap_append]
  rfl

/-- Shorthands are expanded separately in a closed text and in one that no name reaches into. -/
theorem expandAll_append {text rest : List Char} (closed : Closed text)
    (apart : ∀ d ∈ (expandSymbols rest).head?, isNamePart d = false ∧ d ≠ '(') :
    expandAll (text ++ rest) = expandAll text ++ expandAll rest := by
  have hclosed : Closed (expandSymbols text) := by
    rw [Closed, filter_expandSymbols]
    exact closed
  rw [expandAll_eq, expandSymbols_append, markDegrees_append hclosed apart, expandPercents,
    List.flatMap_append]
  rfl

theorem expandAll_cons {c d : Char} (symbol : expandSymbols [c] = [d])
    (outside : isNamePart d = false ∧ d ≠ '(') (rest : List Char) :
    expandAll (c :: rest) = percentDivision d ++ expandAll rest := by
  have hsymbols : expandSymbols (c :: rest) = d :: expandSymbols rest := by
    rw [← List.singleton_append, expandSymbols_append, symbol, List.singleton_append]
  rw [expandAll_eq, hsymbols, markDegrees_of_none (flatCall?_eq_none outside), expandPercents,
    List.flatMap_cons]
  rfl

/-- The characters that no shorthand is about. -/
def isPlain (c : Char) : Bool :=
  c ∉ ['÷', '×', 'π', 'ℯ', '%', '(', ')']

theorem flatMap_eq_self {expansion : Char → List Char} {text : List Char}
    (h : ∀ c ∈ text, expansion c = [c]) : text.flatMap expansion = text := by
  induction text with
  | nil => rfl
  | cons c rest ih =>
      rw [List.flatMap_cons, h c List.mem_cons_self, ih fun d hd => h d (List.mem_cons_of_mem c hd)]
      rfl

theorem isParenthesis_of_isPlain {c : Char} (h : isPlain c = true) : isParenthesis c = false := by
  simp_all [isPlain, isParenthesis]

section Plain

variable {text : List Char} (h : ∀ c ∈ text, isPlain c = true)
include h

theorem expandSymbols_plain : expandSymbols text = text := by
  have hoperators : expandOperators text = text := by
    rw [expandOperators, List.map_eq_flatMap]
    refine flatMap_eq_self fun c hc => ?_
    have := h c hc
    simp_all [isPlain, operatorSign]
  rw [expandSymbols, hoperators]
  refine flatMap_eq_self fun c hc => ?_
  have := h c hc
  simp_all [isPlain, constantName]

theorem expandPercents_plain : expandPercents text = text := by
  refine flatMap_eq_self fun c hc => ?_
  have := h c hc
  simp_all [isPlain, percentDivision]

theorem expandAll_plain : expandAll text = text := by
  rw [expandAll_eq, expandSymbols_plain h,
    markDegrees_flat fun c hc => isParenthesis_of_isPlain (h c hc), expandPercents_plain h]

end Plain

theorem expandAll_nil : expandAll [] = [] :=
  expandAll_plain nofun

section Parentheses

variable {name text : List Char}

/-- An opening parenthesis is kept with a plain name in front of it, and what stands behind it is
expanded on its own, unless the name ends in a trigonometric one. -/
theorem expandAll_opening (plain : ∀ c ∈ name, isPlain c = true)
    (other : ∀ head ∈ trigHeads, ¬ head <:+ name ++ ['(']) (text : List Char) :
    expandAll (name ++ '(' :: text) = name ++ '(' :: expandAll text := by
  have hname : ∀ c ∈ name, isParenthesis c = false := fun c hc =>
    isParenthesis_of_isPlain (plain c hc)
  have hsymbols : expandSymbols (name ++ '(' :: text) = name ++ '(' :: expandSymbols text := by
    rw [expandSymbols_append, expandSymbols_plain plain]
    rfl
  rw [expandAll_eq, hsymbols, markDegrees_name hname other, expandPercents, List.flatMap_append,
    ← expandPercents, expandPercents_plain plain]
  rfl

/-- A closing parenthesis is kept, and the closed text in front of it and the text behind it are
expanded on their own. -/
theorem expandAll_closing (closed : Closed text) (rest : List Char) :
    expandAll (text ++ ')' :: rest) = expandAll text ++ ')' :: expandAll rest := by
  have hsymbol : expandSymbols [')'] = [')'] := by decide
  have happart : ∀ d ∈ (expandSymbols (')' :: rest)).head?, isNamePart d = false ∧ d ≠ '(' := by
    rw [← List.singleton_append, expandSymbols_append, hsymbol]
    rintro d ⟨⟩
    decide
  rw [expandAll_append closed happart, expandAll_cons hsymbol (by decide)]
  rfl

end Parentheses

end Shorthand
end Calculator
