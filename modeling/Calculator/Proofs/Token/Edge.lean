import Calculator.Proofs.Token.Munch

/-!
Edges that no lexeme reaches over.

Two texts that stand one behind the other have an edge between them. If tokenizing the whole comes
to the edge, the tokens are those of the two texts. It does not come there if the first text ends in
a piece that the second one continues to a lexeme, and, where the whole has tokens, only then.
-/

namespace Calculator

open Relation (ReflTransGen)

/-- One step through a text passes over a blank or over the longest lexeme at its front. -/
inductive Passes : List Char → List Char → Prop
  | blank {c : Char} {rest : List Char} (blank : isBlank c = true) : Passes (c :: rest) rest
  | lexeme {piece rest : List Char} {token : Token} (longest : Longest piece token rest) :
      Passes (piece ++ rest) rest

/-- Tokenizing a text comes to this rest of it. -/
def Reaches : List Char → List Char → Prop :=
  ReflTransGen Passes

/-- Tokenizing the two texts as one stops between them. -/
def Edge (first second : List Char) : Prop :=
  Reaches (first ++ second) second

/-- A lexeme of the two texts as one begins in the first of them and ends in the second. -/
def Spanned (first second : List Char) : Prop :=
  ∃ piece more rest token, second = more ++ rest ∧ piece ≠ [] ∧ more ≠ [] ∧
    Reaches (first ++ second) (piece ++ second) ∧ Longest (piece ++ more) token rest

/-- The first text ends in a piece that the second one continues to a lexeme. -/
def Continued (first second : List Char) : Prop :=
  ∃ piece more token, Reaches first piece ∧ piece ≠ [] ∧ more ≠ [] ∧ more <+: second ∧
    Spells (piece ++ more) token

section Steps

variable {text first second rest rest' left : List Char}

theorem Passes.exists_append (h : Passes text rest) :
    ∃ piece, piece ≠ [] ∧ text = piece ++ rest := by
  cases h with
  | @blank c rest => exact ⟨[c], List.cons_ne_nil c [], rfl⟩
  | @lexeme piece rest token longest => exact ⟨piece, longest.spells.ne_nil, rfl⟩

theorem Longest.head {piece rest text : List Char} {token : Token} {c : Char}
    (h : Longest piece token rest) (htext : piece ++ rest = c :: text) : isBlank c = false := by
  have hscan := Lexeme.scan?_of_longest h
  rw [htext] at hscan
  exact isBlank_of_scan hscan

theorem Longest.unique {piece piece' rest rest' : List Char} {token token' : Token}
    (h : Longest piece token rest) (h' : Longest piece' token' rest')
    (htext : piece ++ rest = piece' ++ rest') : rest = rest' := by
  have hscan := Lexeme.scan?_of_longest h
  rw [htext, Lexeme.scan?_of_longest h'] at hscan
  exact (Prod.mk.inj (Option.some.inj hscan)).2.symm

theorem passes_unique : Relator.RightUnique Passes := by
  intro text rest rest' h h'
  generalize htext : text = same at h'
  cases h with
  | blank hblank =>
      cases h' with
      | blank => exact (List.cons.inj htext).2
      | lexeme longest => simp [longest.head htext.symm] at hblank
  | lexeme longest =>
      cases h' with
      | blank hblank => simp [longest.head htext] at hblank
      | lexeme longest' => exact longest.unique longest' htext

theorem Longest.cut {piece kept cut : List Char} {token : Token}
    (h : Longest piece token (kept ++ cut)) : Longest piece token kept where
  spells := h.spells
  longest other token' hother hspells := by
    refine h.longest other token' (hother.trans ?_) hspells
    rw [← List.append_assoc]
    exact List.prefix_append _ _

/-- A step is the same if the end of the text is cut off behind it. -/
theorem Passes.cut (h : Passes (first ++ second) (left ++ second)) : Passes first left := by
  generalize htext : first ++ second = text at h
  generalize hleft : left ++ second = rest at h
  cases h with
  | @blank c rest hblank =>
      obtain rfl : first = c :: left :=
        List.append_cancel_right (htext.trans (congrArg (c :: ·) hleft.symm))
      exact .blank hblank
  | @lexeme piece rest token longest =>
      subst hleft
      obtain rfl : first = piece ++ left := by
        refine List.append_cancel_right (htext.trans ?_)
        rw [List.append_assoc]
      exact .lexeme longest.cut

theorem Reaches.suffix (h : Reaches text left) : left <:+ text := by
  induction h with
  | refl => exact List.suffix_refl _
  | tail _ step ih =>
      obtain ⟨piece, -, rfl⟩ := step.exists_append
      exact (List.suffix_append piece _).trans ih

/-- Where something is left to pass, there is a first step. -/
theorem Edge.first_step (h : Edge first second) (hne : first ≠ []) :
    ∃ left, Passes (first ++ second) (left ++ second) ∧ Edge left second := by
  rcases ReflTransGen.cases_head h with hsame | ⟨rest, step, hrest⟩
  · exact absurd (List.append_left_eq_self.mp hsame) hne
  · obtain ⟨left, rfl⟩ := Reaches.suffix hrest
    exact ⟨left, step, hrest⟩

/-- What is reached is also reached if the end of the text is cut off behind it. -/
theorem Reaches.cut (h : Reaches (first ++ second) (left ++ second)) : Reaches first left := by
  generalize htext : first ++ second = text at h
  induction h using ReflTransGen.head_induction_on generalizing first with
  | refl =>
      obtain rfl := List.append_cancel_right htext
      exact .refl
  | @head text rest step hrest ih =>
      obtain ⟨before, hbefore⟩ := Reaches.suffix hrest
      rw [← List.append_assoc] at hbefore
      subst htext hbefore
      exact .head step.cut (ih rfl)

/-- If tokenizing comes to the edge, it comes on its way to everything that it comes to in the first
text alone. -/
theorem Edge.extend (edge : Edge first second) (h : Reaches first left) :
    Reaches (first ++ second) (left ++ second) := by
  induction h using ReflTransGen.head_induction_on with
  | refl => exact .refl
  | @head first rest step _ ih =>
      have hne : first ≠ [] := by
        rintro rfl
        obtain ⟨_, hne, hnil⟩ := step.exists_append
        exact hne (List.append_eq_nil_iff.mp hnil.symm).1
      obtain ⟨next, hstep, hedge⟩ := edge.first_step hne
      obtain rfl := passes_unique step hstep.cut
      exact .head hstep (ih hedge)

end Steps

section Edges

variable {first second : List Char}

/-- A piece that the text behind it continues is not passed over on its own. -/
theorem not_edge_of_spells {piece more : List Char} {token : Token} (hpiece : piece ≠ [])
    (hmore : more ≠ []) (hbegins : more <+: second) (hspells : Spells (piece ++ more) token) :
    ¬ Edge piece second := by
  intro edge
  obtain ⟨rest, rfl⟩ := hbegins
  obtain ⟨left, step, -⟩ := edge.first_step hpiece
  generalize htext : piece ++ (more ++ rest) = text at step
  generalize hleft : left ++ (more ++ rest) = after at step
  have hlonger : piece ++ more <+: text := by
    rw [← htext, ← List.append_assoc]
    exact List.prefix_append _ _
  cases step with
  | @blank c tail hblank =>
      obtain ⟨d, word, hword⟩ := hspells.eq_cons
      rw [hword] at hspells hlonger
      obtain ⟨rfl, -⟩ := List.cons_prefix_cons.mp hlonger
      simp [isBlank_of_scan (Lexeme.scan?_of_spells hspells)] at hblank
  | @lexeme shorter tail token' longest =>
      have hlength := longest.longest _ _ hlonger hspells
      have hlengths := congrArg List.length htext
      have hlengths' := congrArg List.length hleft
      have hpos := List.length_pos_iff.mpr hmore
      simp only [List.length_append] at hlength hlengths hlengths'
      omega

theorem not_edge_of_continued (h : Continued first second) : ¬ Edge first second := by
  rintro edge
  obtain ⟨piece, more, token, hreaches, hpiece, hmore, hprefix, hspells⟩ := h
  rcases ReflTransGen.total_of_right_unique passes_unique (edge.extend hreaches) edge with
    hpassed | hback
  · exact not_edge_of_spells hpiece hmore hprefix hspells hpassed
  · have hlength := (Reaches.suffix hback).length_le
    have hpos := List.length_pos_iff.mpr hpiece
    simp only [List.length_append] at hlength
    omega

theorem Spanned.continued (h : Spanned first second) : Continued first second := by
  obtain ⟨piece, more, rest, token, rfl, hpiece, hmore, hreaches, longest⟩ := h
  exact ⟨piece, more, token, hreaches.cut, hpiece, hmore, List.prefix_append more rest,
    longest.spells⟩

theorem spanned_of_passes {more rest : List Char} (hfirst : first ≠ []) (hmore : more ≠ [])
    (hsecond : more ++ rest = second) (step : Passes (first ++ second) rest) :
    Spanned first second := by
  subst hsecond
  generalize htext : first ++ (more ++ rest) = text at step
  have hlengths := congrArg List.length htext
  have hpos := List.length_pos_iff.mpr hfirst
  have hpos' := List.length_pos_iff.mpr hmore
  cases step with
  | blank =>
      simp only [List.length_append, List.length_cons] at hlengths
      omega
  | @lexeme piece _ token longest =>
      rw [← List.append_assoc] at htext
      obtain rfl := List.append_cancel_right htext
      exact ⟨first, more, rest, token, rfl, hfirst, hmore, .refl, longest⟩

theorem edge_or_spanned (h : Reaches (first ++ second) []) :
    Edge first second ∨ Spanned first second := by
  generalize htext : first ++ second = text at h
  induction h using ReflTransGen.head_induction_on generalizing first with
  | refl =>
      obtain ⟨rfl, rfl⟩ := List.append_eq_nil_iff.mp htext
      exact .inl .refl
  | @head text rest step hrest ih =>
      subst htext
      have hsuffix : rest <:+ first ++ second := by
        obtain ⟨passed, -, hpassed⟩ := step.exists_append
        exact ⟨passed, hpassed.symm⟩
      rcases List.suffix_or_suffix_of_suffix hsuffix (List.suffix_append first second) with
        ⟨more, hmore⟩ | ⟨left, rfl⟩
      · by_cases hfirst : first = []
        · subst hfirst
          exact .inl .refl
        · by_cases hnil : more = []
          · subst hnil hmore
            exact .inl (.single step)
          · exact .inr (spanned_of_passes hfirst hnil hmore step)
      · rcases ih rfl with hedge | ⟨piece, more, rest, token, hsecond, hpiece, hmore, hreaches, hl⟩
        · exact .inl (.head step hedge)
        · exact .inr ⟨piece, more, rest, token, hsecond, hpiece, hmore, .head step hreaches, hl⟩

theorem edge_or_continued (h : Reaches (first ++ second) []) :
    Edge first second ∨ Continued first second :=
  (edge_or_spanned h).imp_right Spanned.continued

/-- An edge stays one if the end of the text behind it is cut off. -/
theorem Edge.cut {third : List Char} (h : Edge first (second ++ third)) : Edge first second := by
  unfold Edge at h
  rw [← List.append_assoc] at h
  exact Reaches.cut h

/-- Behind an edge the next one is found by going on from there. -/
theorem Edge.behind_iff {third : List Char} (start : Edge first (second ++ third)) :
    Edge (first ++ second) third ↔ Edge second third := by
  unfold Edge at start ⊢
  rw [List.append_assoc]
  constructor
  · intro stop
    rcases ReflTransGen.total_of_right_unique passes_unique start stop with hgo | hback
    · exact hgo
    · have hlength := (Reaches.suffix hback).length_le
      obtain rfl : second = [] := by simpa using hlength
      exact .refl
  · exact start.trans

end Edges

section Tokens

variable {first second text left : List Char} {position : Nat} {tokens : List PlacedToken}

/-- The tokens are what is found on the way. -/
theorem reaches_iff_munches (position : Nat) :
    Reaches text left ↔ ∃ tokens, Munches position text tokens left := by
  constructor
  · intro h
    induction h using ReflTransGen.head_induction_on generalizing position with
    | refl => exact ⟨[], .stop position left⟩
    | head step _ ih =>
        cases step with
        | @blank c rest hblank =>
            obtain ⟨tokens, hmunches⟩ := ih (position + c.utf8Size)
            exact ⟨tokens, .blank hblank hmunches⟩
        | @lexeme piece rest token longest =>
            obtain ⟨tokens, hmunches⟩ := ih (position + byteCount piece)
            exact ⟨_, .lexeme longest hmunches⟩
  · rintro ⟨tokens, h⟩
    induction h with
    | stop => exact .refl
    | blank hblank _ ih => exact .head (.blank hblank) ih
    | lexeme longest _ ih => exact .head (.lexeme longest) ih

/-- The tokens of a text that tokenizing comes to are the last ones. -/
theorem tokens_of_reaches (h : Reaches text left)
    (htokens : tokensFrom position text = .ok tokens) :
    ∃ front behind place, tokensFrom place left = .ok behind ∧ tokens = front ++ behind := by
  obtain ⟨front, hmunches⟩ := (reaches_iff_munches position).mp h
  obtain ⟨before, -, hread⟩ := hmunches.tokensFrom_eq
  rw [hread] at htokens
  obtain ⟨behind, hbehind, htokens⟩ := Grammar.bind_eq_ok.mp htokens
  exact ⟨front, behind, _, hbehind, (Except.ok.inj htokens).symm⟩

/-- Where there are tokens, tokenizing stops at an edge exactly if nothing is continued over it. -/
theorem edge_iff_not_continued (h : tokensFrom position (first ++ second) = .ok tokens) :
    Edge first second ↔ ¬ Continued first second := by
  refine ⟨fun edge continued => not_edge_of_continued continued edge, fun hnot => ?_⟩
  have hreaches := (reaches_iff_munches position).mpr ⟨tokens, munches_of_tokensFrom h⟩
  exact (edge_or_continued hreaches).resolve_right hnot

/-- The tokens of two texts with an edge between them are those of the one and of the other. -/
theorem Edge.tokensFrom_append (edge : Edge first second) (position : Nat) :
    tokensFrom position (first ++ second) = (do
      let before ← tokensFrom position first
      let after ← tokensFrom (position + byteCount first) second
      return before ++ after) := by
  unfold Edge Reaches at edge
  generalize htext : first ++ second = text at edge
  induction edge using ReflTransGen.head_induction_on generalizing first position with
  | refl =>
      obtain rfl := List.append_left_eq_self.mp htext
      rw [tokensFrom_nil, byteCount, Nat.add_zero]
      cases tokensFrom position second <;> rfl
  | @head text rest step hrest ih =>
      obtain ⟨left, hleft⟩ := Reaches.suffix hrest
      subst hleft
      generalize hrest : left ++ second = rest at step
      cases step with
      | @blank c rest hblank =>
          obtain rfl : first = c :: left := by
            refine List.append_cancel_right (htext.trans ?_)
            rw [List.cons_append, hrest]
          rw [tokensFrom_blank hblank, tokensFrom_blank hblank, ← hrest, ih _ rfl, byteCount_cons,
            Nat.add_assoc]
      | @lexeme piece rest token longest =>
          subst hrest
          obtain rfl : first = piece ++ left := by
            refine List.append_cancel_right (htext.trans ?_)
            rw [List.append_assoc]
          rw [tokensFrom_longest longest, tokensFrom_longest longest.cut, ih _ rfl,
            byteCount_append, Nat.add_assoc]
          simp only [bind_assoc, pure_bind, List.cons_append]

end Tokens

end Calculator
