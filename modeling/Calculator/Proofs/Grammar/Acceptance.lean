import Calculator.Proofs.Grammar.Completeness
import Calculator.Proofs.Grammar.Soundness

/-!
Which lists of tokens spell an expression, and which expression it is.

The reader accepts the derivations of the grammar that keep both limits and no others, and the tree
is the one that the derivation gives. A derivation that breaks a limit is reported as too deep.
-/

namespace Calculator
namespace Grammar

theorem ofTokens_within {tokens : List PlacedToken} {node : Expression} {nesting : Nat}
    (h : Derives .expression tokens node nesting) :
    Within (nesting ≤ depthLimit ∧ node.height ≤ heightLimit) (Expression.ofTokens tokens)
      (.ok node) := by
  have read := h.readBefore (depthLimit + 1) [] (by simp [Phrase.Before])
  obtain ⟨next, tail, rfl, -⟩ := h.first
  rw [List.append_nil] at read
  have whole : Within _ (Expression.ofTokens (next :: tail)) _ := read.through rfl
  refine Within.congr whole ?_
  omega

theorem derives_of_ofTokens {tokens : List PlacedToken} {node : Expression}
    (h : Expression.ofTokens tokens = .ok node) :
    ∃ nesting, Derives .expression tokens node nesting := by
  cases tokens with
  | nil => simp [Expression.ofTokens] at h
  | cons first tail =>
      obtain ⟨⟨tree, rest⟩, hread, hrest⟩ := bind_eq_ok.mp h
      obtain ⟨used, nesting, htokens, hnode⟩ := sound_expression (sound_operand _) hread
      cases rest with
      | nil =>
          cases hrest
          exact ⟨nesting, by simpa [htokens] using hnode⟩
      | cons next rest => simp at hrest

theorem ofTokens_eq_ok {tokens : List PlacedToken} {node : Expression} :
    Expression.ofTokens tokens = .ok node ↔
      ∃ nesting, Derives .expression tokens node nesting ∧
        nesting ≤ depthLimit ∧ node.height ≤ heightLimit := by
  constructor
  · intro h
    obtain ⟨nesting, derives⟩ := derives_of_ofTokens h
    obtain ⟨hfits, -⟩ | ⟨-, position, deep⟩ := ofTokens_within derives
    · exact ⟨nesting, derives, hfits⟩
    · simp [h] at deep
  · rintro ⟨nesting, derives, hfits⟩
    obtain ⟨-, hok⟩ | ⟨hunfit, -⟩ := ofTokens_within derives
    · exact hok
    · exact absurd hfits hunfit

/-- Tokens that derive an expression within the limits derive no other one. -/
theorem node_eq_of_limits {tokens : List PlacedToken} {node node' : Expression}
    {nesting nesting' : Nat} (h : Derives .expression tokens node nesting)
    (hnesting : nesting ≤ depthLimit) (hheight : node.height ≤ heightLimit)
    (h' : Derives .expression tokens node' nesting') : node' = node := by
  have hread := ofTokens_eq_ok.mpr ⟨nesting, h, hnesting, hheight⟩
  rcases ofTokens_within h' with ⟨-, hok⟩ | ⟨-, position, deep⟩
  · exact Except.ok.inj (hok.symm.trans hread)
  · simp [hread] at deep

theorem isTooDeep_of_derives {tokens : List PlacedToken} {node : Expression} {nesting : Nat}
    (h : Derives .expression tokens node nesting)
    (hlimits : depthLimit < nesting ∨ heightLimit < node.height) :
    IsTooDeep (Expression.ofTokens tokens) := by
  obtain ⟨hfits, -⟩ | ⟨-, deep⟩ := ofTokens_within h
  · omega
  · exact deep

/-- The reader accepts exactly the derivations that keep both limits, and gives their tree; a
derivation that does not keep them is too deep. -/
theorem reads_exactly_the_grammar (tokens : List PlacedToken) :
    (∀ node, Expression.ofTokens tokens = .ok node ↔
      ∃ nesting, Derives .expression tokens node nesting ∧
        nesting ≤ depthLimit ∧ node.height ≤ heightLimit) ∧
    ∀ node nesting, Derives .expression tokens node nesting →
      depthLimit < nesting ∨ heightLimit < node.height →
        ∃ position, Expression.ofTokens tokens = .error (.tooDeep position) :=
  ⟨fun _ => ofTokens_eq_ok, fun _ _ => isTooDeep_of_derives⟩

/-- The name of the degree mark can be a reference, and a mark can follow it. -/
example : Expression.ofTokens [⟨0, .identifier "deg"⟩, ⟨4, .identifier "deg"⟩] =
    .ok (.unary .degrees (.reference "deg" 0) 4) := by
  cbv

end Grammar
end Calculator
