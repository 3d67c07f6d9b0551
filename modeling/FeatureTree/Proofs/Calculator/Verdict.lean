import FeatureTree.Proofs.Calculator.Scaffold

/-!
# Verdict — which texts are read, and what is blamed in the others

One scan from left to right decides whether a text is read.  It remembers where the open brackets
start, and stops at the first token that closes nothing or that lies too deep.

`read_verdict` says that reading succeeds and fails as this scan does, for every text and every limit.
A number is never rejected.
-/

namespace FeatureTree
namespace Calculator

open Reading

/-- What is wrong with a token behind the given open brackets, if anything is. -/
def offence? (text : SourceText) (maxDepth : Nat) (opens : List Nat) (token : Token) :
    Option Error :=
  if token.kind = .closing then
    if opens.isEmpty then some (.rejected "unmatched closing bracket" (text.point token.start))
    else none
  else if maxDepth ≤ opens.length then some (.violation (.depthExceeded maxDepth))
  else none

/-- The open brackets behind a token, by the offsets at which they start, the innermost first. -/
def opensAfter (opens : List Nat) (token : Token) : List Nat :=
  match token.kind with
  | .opening => token.start :: opens
  | .closing => opens.tail
  | _ => opens

theorem opensAfter_opening {opens : List Nat} {token : Token} (h : token.kind = .opening) :
    opensAfter opens token = token.start :: opens := by
  rw [opensAfter, h]

theorem opensAfter_closing {opens : List Nat} {token : Token} (h : token.kind = .closing) :
    opensAfter opens token = opens.tail := by
  rw [opensAfter, h]

theorem opensAfter_leaf {opens : List Nat} {token : Token} (hopening : token.kind ≠ .opening)
    (hclosing : token.kind ≠ .closing) : opensAfter opens token = opens := by
  unfold opensAfter
  split
  · next heq => exact absurd heq hopening
  · next heq => exact absurd heq hclosing
  · rfl

/-- The scan over tokens: the first offence, or else the innermost bracket that is left open. -/
def verdict (text : SourceText) (maxDepth : Nat) (opens : List Nat) : List Token → Except Error Unit
  | [] =>
      match opens with
      | [] => .ok ()
      | start :: _ => .error (.rejected "unclosed bracket" (text.point start))
  | token :: rest =>
      match offence? text maxDepth opens token with
      | some e => .error e
      | none => verdict text maxDepth (opensAfter opens token) rest

namespace Scaffold

variable {text : SourceText} {maxDepth : Nat}

/-- Where the open brackets start, the innermost first. -/
def starts (s : Scaffold) : List Nat := s.opens.map Opening.start

theorem starts_addNumber (s : Scaffold) (token : Token) :
    (s.addNumber text token).starts = s.starts := by
  unfold addNumber
  dsimp only
  split <;> rfl

theorem starts_add {s : Scaffold} {token : Token} (hkind : token.kind ≠ .closing) :
    (s.add text token).starts = opensAfter s.starts token := by
  unfold add opensAfter
  cases hk : token.kind with
  | number => exact starts_addNumber s token
  | name => rfl
  | operator op => rfl
  | opening => rfl
  | closing => exact absurd hk hkind

/-- A token is taken unless it is an offence. -/
theorem take_eq (text : SourceText) (maxDepth : Nat) (s : Scaffold) (token : Token) :
    match offence? text maxDepth s.starts token with
    | some e => s.take text maxDepth token = .error e
    | none => ∃ next, s.take text maxDepth token = .ok next ∧
        next.starts = opensAfter s.starts token := by
  unfold offence? take
  by_cases hkind : token.kind = .closing
  · rw [if_pos hkind, if_pos hkind]
    rcases s with ⟨tree, _ | ⟨o, opens⟩⟩
    · rfl
    · exact ⟨_, rfl, by simp [opensAfter, hkind, starts]⟩
  · rw [if_neg hkind, if_neg hkind]
    have hlength : s.starts.length = s.opens.length := List.length_map _
    rw [hlength]
    by_cases hfull : maxDepth ≤ s.opens.length
    · rw [if_pos hfull, if_pos hfull]
    · rw [if_neg hfull, if_neg hfull]
      exact ⟨_, rfl, starts_add hkind⟩

theorem foldlM_verdict (tokens : List Token) (s : Scaffold) :
    (((tokens.foldlM (take text maxDepth) s).bind (finish text)).map fun _ => ()) =
      verdict text maxDepth s.starts tokens := by
  -- The scan sees of a scaffold only where its open brackets start.
  induction tokens generalizing s with
  | nil =>
      rcases s with ⟨tree, _ | ⟨o, opens⟩⟩
      · rfl
      · rfl
  | cons token tokens ih =>
      have htake := take_eq text maxDepth s token
      rw [List.foldlM_cons, verdict]
      cases hoffence : offence? text maxDepth s.starts token with
      | some e =>
          rw [hoffence] at htake
          rw [htake]
          rfl
      | none =>
          rw [hoffence] at htake
          rcases htake with ⟨next, hnext, hstarts⟩
          rw [hnext, ← hstarts]
          exact ih next

end Scaffold

/-- Reading succeeds on the texts that the scan accepts, and otherwise fails with the scan's error. -/
theorem read_verdict (text : SourceText) (limits : Limits) :
    ((read text limits).map fun _ => ()) = verdict text limits.maxDepth [] (tokens text) := by
  rw [read_eq_foldlM]
  exact Scaffold.foldlM_verdict (tokens text) (Scaffold.blank text)

end Calculator
end FeatureTree
