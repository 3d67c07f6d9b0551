import FeatureTree.Proofs.Calculator.Drafts
import FeatureTree.Proofs.Reading.Rounds

/-!
# Following — the machine follows the draft

`Draft.Rests` ties a state of the machine to a draft: on the stack lie the open brackets and the leaf,
if there is one, and nothing waits.  From such a state a character takes the machine to a state that
rests on the next draft, or to the draft's error; a character may take several rounds, because a leaf
leaves in a round of its own and an open bracket sends the character on.

`read_eq_readOn` is the result: reading a text is a fold of `Draft.next` over its characters.
-/

namespace FeatureTree
namespace Calculator

open Reading

/-- A state of the machine that reads arithmetic text. -/
abbrev TextMachine : Type := Machine Lexeme SyntaxKind Literal NoEntry Unit

namespace Draft

/-- Features of the open brackets, each with the node around it. -/
def outline : List Opening → List (Lexeme × NodeId)
  | [] => []
  | o :: rest => (.opened o.node o.start, home rest) :: outline rest

theorem length_outline (opens : List Opening) : (outline opens).length = opens.length := by
  induction opens with
  | nil => rfl
  | cons o rest ih => simp [outline, ih]

/-- What a draft says of a frame. -/
def sketch (entry : FrameId × Frame Lexeme NoEntry) : Lexeme × NodeId :=
  (entry.2.feature, entry.2.ancestor)

/-- The machine holds what the draft says, and is about to ask its innermost feature. -/
structure Rests (maxDepth : Nat) (m : TextMachine) (d : Draft) : Prop where
  tree : m.tree = d.tree
  offset : m.offset = d.offset
  idle : m.waiting = none
  limit : m.stack.maxDepth = maxDepth
  frames : m.stack.frames.map sketch =
    (d.leaf.map fun leaf => (leaf.lexeme, home d.opens)).toList ++ outline d.opens
  known : ∀ o ∈ d.opens, o.node < d.tree.size

variable {text : SourceText} {maxDepth : Nat} {m : TextMachine} {d : Draft} {c : Char}

/-- A run that goes on as the draft says, or fails as the draft says. -/
def Follows (text : SourceText) (maxDepth : Nat) (r : EStateM.Result Error TextMachine Unit) :
    Except Error Draft → Prop
  | .ok d => ∃ m, r = m.run Lexeme.grammar text .expression ∧ Rests maxDepth m d
  | .error e => ∃ m, r = .error e m

theorem Rests.of_leaf {leaf : Leaf} (h : Rests maxDepth m d) (hleaf : d.leaf = some leaf) :
    ∃ id bag rest, m.stack.frames = (id, ⟨leaf.lexeme, home d.opens, bag⟩) :: rest ∧
      rest.map sketch = outline d.opens := by
  have hframes := h.frames
  rw [hleaf] at hframes
  rcases List.map_eq_cons_iff.1 hframes with ⟨⟨id, feature, ancestor, bag⟩, rest, hcons, htop, hrest⟩
  rcases Prod.mk.inj htop with ⟨rfl, rfl⟩
  exact ⟨id, bag, rest, hcons, hrest⟩

theorem Rests.of_opens {o : Opening} {rest : List Opening} (h : Rests maxDepth m d)
    (hleaf : d.leaf = none) (hopens : d.opens = o :: rest) :
    ∃ id bag frames, m.stack.frames = (id, ⟨.opened o.node o.start, home rest, bag⟩) :: frames ∧
      frames.map sketch = outline rest := by
  have hframes := h.frames
  rw [hleaf, hopens] at hframes
  rcases List.map_eq_cons_iff.1 hframes with ⟨⟨id, feature, ancestor, bag⟩, rest, hcons, htop, hrest⟩
  rcases Prod.mk.inj htop with ⟨rfl, rfl⟩
  exact ⟨id, bag, rest, hcons, hrest⟩

theorem Rests.depth (h : Rests maxDepth m d) (hleaf : d.leaf = none) :
    m.stack.depth = d.opens.length := by
  have hlength := congrArg List.length h.frames
  simpa [hleaf, length_outline, Stack.depth] using hlength

/-- The leaf takes the character. -/
theorem Rests.run_extend {leaf longer : Leaf} (h : Rests maxDepth m d) (hleaf : d.leaf = some leaf)
    (hc : text.char? d.offset = some c) (hlonger : leaf.extend? c = some longer) :
    Follows text maxDepth (m.run Lexeme.grammar text .expression)
      (.ok { d with leaf := some longer, offset := d.offset + 1 }) := by
  rcases h.of_leaf hleaf with ⟨id, bag, rest, hframes, hrest⟩
  have hround : Machine.advance Lexeme.grammar text .expression c m = _ :=
    Machine.advance_proceed h.idle hframes (Leaf.handle_of_extend? hlonger _ _)
  refine ⟨_, Machine.run_of_round (h.offset ▸ hc) hround, ?_⟩
  exact {
    tree := h.tree
    offset := congrArg (· + 1) h.offset
    idle := h.idle
    limit := h.limit
    frames := congrArg (_ :: ·) hrest
    known := h.known }

/-- The leaf refuses the character, and ends in front of it. -/
theorem Rests.run_settle {leaf : Leaf} (h : Rests maxDepth m d) (hleaf : d.leaf = some leaf)
    (hc : text.char? d.offset = some c) (hextend : leaf.extend? c = none) :
    Follows text maxDepth (m.run Lexeme.grammar text .expression) (d.settled text) := by
  rcases h.of_leaf hleaf with ⟨id, bag, rest, hframes, hrest⟩
  have hat : text.char? m.offset = some c := h.offset ▸ hc
  have hhandle := Leaf.handle_of_extend?_none hextend ⟨text, home d.opens, m.offset⟩
    ⟨m.tree, bag, m.world⟩
  rw [settled_of_leaf hleaf, ← h.offset, ← h.tree]
  cases hsettle : leaf.settle text (home d.opens) m.offset m.tree with
  | error e =>
      have hround : ∃ m', Machine.advance Lexeme.grammar text .expression c m = .error e m' :=
        Machine.advance_decline_failure h.idle hframes hhandle (Leaf.exit_of_settle_error hsettle)
      exact hround.imp fun m' => Machine.run_of_failure hat
  | ok tree =>
      have hround : Machine.advance Lexeme.grammar text .expression c m = _ :=
        Machine.advance_decline h.idle hframes hhandle (Leaf.exit_of_settle hsettle)
      refine ⟨_, Machine.run_of_round hat hround, ?_⟩
      exact {
        tree := rfl
        offset := rfl
        idle := h.idle
        limit := h.limit
        frames := hrest
        known := fun o ho => Nat.lt_of_lt_of_le (h.known o ho)
          (h.tree ▸ Leaf.size_le_of_settle hsettle) }

/-! ### A character that no leaf takes -/

/-- The innermost bracket closes. -/
theorem Rests.run_close {o : Opening} {rest : List Opening} (h : Rests maxDepth m d)
    (hleaf : d.leaf = none) (hopens : d.opens = o :: rest) (hc : text.char? d.offset = some ')') :
    Follows text maxDepth (m.run Lexeme.grammar text .expression)
      (.ok { d with
        opens := rest, leaf := some (.closed o.node o.start), offset := d.offset + 1 }) := by
  rcases h.of_opens hleaf hopens with ⟨id, bag, frames, hframes, hrest⟩
  have hhandle : Lexeme.grammar.handle (.opened o.node o.start) ⟨text, home rest, m.offset⟩ ')'
      ⟨m.tree, bag, m.world⟩ = .ok (.closed o.node o.start, .proceed) ⟨m.tree, bag, m.world⟩ := rfl
  have hround : Machine.advance Lexeme.grammar text .expression ')' m = _ :=
    Machine.advance_proceed h.idle hframes hhandle
  refine ⟨_, Machine.run_of_round (h.offset ▸ hc) hround, ?_⟩
  exact {
    tree := h.tree
    offset := congrArg (· + 1) h.offset
    idle := h.idle
    limit := h.limit
    frames := congrArg (_ :: ·) hrest
    known := fun p hp => h.known p (hopens ▸ List.mem_cons_of_mem _ hp) }

/-- The candidates for the character are asked under the innermost bracket. -/
theorem Rests.run_offer (h : Rests maxDepth m d) (hleaf : d.leaf = none)
    (hc : text.char? d.offset = some c) (hopen : c ≠ ')' ∨ d.opens = []) :
    ∃ between bag, Rests maxDepth between d ∧ m.run Lexeme.grammar text .expression =
      Machine.goOn Lexeme.grammar text .expression
        (Machine.offer Lexeme.grammar text c (home d.opens) (Lexeme.candidates c) bag between) := by
  have hat : text.char? m.offset = some c := h.offset ▸ hc
  cases hopens : d.opens with
  | nil =>
      -- Nothing is active, and the start rule proposes in this round.
      have hframes : m.stack.frames = [] := by
        have hsketch := h.frames
        rw [hleaf, hopens] at hsketch
        exact List.map_eq_nil_iff.1 hsketch
      have hdispatch : ∀ bag, Lexeme.grammar.dispatch .expression ⟨text, Tree.root, m.offset⟩
          ⟨m.tree, bag, m.world⟩ = (Lexeme.candidates c, bag, m.world) := by
        intro bag
        simp [Lexeme.grammar, Context.char?, hat]
      refine ⟨{ m with bags := m.bags + 1 }, Bag.empty m.bags, ?_, ?_⟩
      · exact ⟨h.tree, h.offset, h.idle, h.limit, h.frames, h.known⟩
      · exact (Machine.run_of_char hat).trans
          (congrArg _ (Machine.advance_start h.idle hframes (hdispatch _)))
  | cons o rest =>
      -- The innermost bracket sends the character on, and the candidates are asked a round later.
      rcases h.of_opens hleaf hopens with ⟨id, bag, frames, hframes, hrest⟩
      have hne : c ≠ ')' := hopen.resolve_right (by simp [hopens])
      have hhandle : Lexeme.grammar.handle (.opened o.node o.start) ⟨text, home rest, m.offset⟩ c
          ⟨m.tree, bag, m.world⟩ =
            .ok (.opened o.node o.start, .redirect ⟨.expression, some o.node⟩)
              ⟨m.tree, bag, m.world⟩ := by
        simp [Lexeme.grammar, Lexeme.handle, hne, pure, EStateM.pure]
      have hknown : m.tree.contains o.node = true := by
        have hlt := h.known o (hopens ▸ List.mem_cons_self)
        rw [h.tree]
        exact decide_eq_true hlt
      have hdispatch : Lexeme.grammar.dispatch .expression ⟨text, o.node, m.offset⟩
          ⟨m.tree, Bag.empty m.bags, m.world⟩ =
            (Lexeme.candidates c, Bag.empty m.bags, m.world) := by
        simp [Lexeme.grammar, Context.char?, hat]
      have hround : Machine.advance Lexeme.grammar text .expression c m = _ :=
        Machine.advance_redirect h.idle hframes hhandle rfl hknown hdispatch
      refine ⟨⟨m.tree, m.world, ⟨(id, ⟨.opened o.node o.start, home rest, bag⟩) :: frames,
        m.stack.pushed, m.stack.maxDepth⟩, none, m.offset, m.bags + 1⟩, Bag.empty m.bags, ?_, ?_⟩
      · exact ⟨h.tree, h.offset, rfl, h.limit, hframes ▸ h.frames, h.known⟩
      · refine (Machine.run_of_round hat hround).trans ?_
        refine (Machine.run_of_char (c := c) ?_).trans ?_
        · exact hat
        · rfl

/-- What a candidate does at its first character: it becomes the feature `next`, and the draft changes
to `d'`. -/
structure Claims (text : SourceText) (c : Char) (d : Draft) (feature next : Lexeme) (d' : Draft) :
    Prop where
  handle : ∀ bag world, Lexeme.handle feature ⟨text, home d.opens, d.offset⟩ c ⟨d.tree, bag, world⟩ =
    .ok (next, .proceed) ⟨d'.tree, bag, world⟩
  frames : (d'.leaf.map fun leaf => (leaf.lexeme, home d'.opens)).toList ++ outline d'.opens =
    (next, home d.opens) :: outline d.opens
  known : (∀ o ∈ d.opens, o.node < d.tree.size) → ∀ o ∈ d'.opens, o.node < d'.tree.size

theorem firstDigits?_of_isNumeric (h : Lexeme.isNumeric c = true) :
    ∃ digits, Lexeme.firstDigits? c = some digits := by
  unfold Lexeme.firstDigits?
  by_cases hpoint : c = '.'
  · simp [hpoint]
  · have hdigit : c.isDigit = true := by simpa [Lexeme.isNumeric, hpoint] using h
    simp [hpoint, hdigit]

theorem claims_number {digits : String} (hdigits : Lexeme.firstDigits? c = some digits) :
    ∃ next, Claims text c d .number next (d.claim text c .number) := by
  cases hsign : Lexeme.sign? d.tree (home d.opens) with
  | none =>
      refine ⟨.numeral ⟨d.offset, digits, c == '.', false⟩, ?_, ?_, ?_⟩
      · intro bag world
        simp [Lexeme.handle, Lexeme.startNumber, hdigits, bind, EStateM.bind, Scene.run_get, hsign,
          pure, EStateM.pure, claim]
      · simp [claim, hsign, hdigits, Leaf.lexeme]
      · simp [claim, hsign]
  | some sign =>
      refine ⟨.numeral ⟨((d.tree.position? sign).map fun p => p.start.offset).getD d.offset, digits,
        c == '.', true⟩, ?_, ?_, ?_⟩
      · intro bag world
        simp [Lexeme.handle, Lexeme.startNumber, hdigits, bind, EStateM.bind, Scene.run_get,
          Scene.run_editTree, hsign, pure, EStateM.pure, claim]
      · simp [claim, hsign, hdigits, Leaf.lexeme]
      · simp [claim, hsign, Tree.popChild]

theorem claims_bracket (hleaf : d.leaf = none) :
    ∃ next, Claims text '(' d .bracket next (d.claim text '(' .bracket) := by
  refine ⟨.opened d.tree.size d.offset, ?_, ?_, ?_⟩
  · intro bag world
    rfl
  · simp [claim, hleaf, outline]
  · intro hknown o ho
    rcases List.mem_cons.1 ho with rfl | hold
    · simp [claim]
    · exact Nat.lt_of_lt_of_le (hknown o hold) (by simp [claim])

theorem claims_operator {op : Operator} (hop : Operator.ofChar? c = some op) :
    ∃ next, Claims text c d .operator next (d.claim text c .operator) := by
  refine ⟨.written, ?_, ?_, ?_⟩
  · intro bag world
    simp only [Lexeme.handle, hop, claim]
    rfl
  · rfl
  · intro hknown o ho
    exact Nat.lt_of_lt_of_le (hknown o ho) (by simp [claim])

theorem claims_name (hletter : Lexeme.isLetter c = true) :
    ∃ next, Claims text c d .name next (d.claim text c .name) := by
  refine ⟨.letters d.offset c.toString, ?_, ?_, ?_⟩
  · intro bag world
    simp only [Lexeme.handle, hletter, if_true]
    rfl
  · rfl
  · exact id

/-- Each candidate claims the character that it was proposed for, a closing bracket apart. -/
theorem claims_of_candidates (text : SourceText) {feature : Lexeme} {rest : List Lexeme}
    (hleaf : d.leaf = none) (hne : c ≠ ')') (hcandidates : Lexeme.candidates c = feature :: rest) :
    ∃ next, Claims text c d feature next (d.claim text c feature) := by
  -- The kinds of characters are told apart in the order in which candidates are proposed.
  unfold Lexeme.candidates at hcandidates
  rw [if_neg hne] at hcandidates
  split at hcandidates
  · next hopening =>
      rcases List.cons.inj hcandidates with ⟨rfl, -⟩
      exact hopening ▸ claims_bracket hleaf
  · split at hcandidates
    · next hoperator =>
        rcases List.cons.inj hcandidates with ⟨rfl, -⟩
        rcases Option.isSome_iff_exists.1 hoperator with ⟨op, hop⟩
        exact claims_operator hop
    · split at hcandidates
      · next hnumeric =>
          rcases List.cons.inj hcandidates with ⟨rfl, -⟩
          rcases firstDigits?_of_isNumeric hnumeric with ⟨digits, hdigits⟩
          exact claims_number hdigits
      · split at hcandidates
        · next hletter =>
            rcases List.cons.inj hcandidates with ⟨rfl, -⟩
            exact claims_name hletter
        · cases hcandidates

/-- A closing bracket that no bracket is open for is offered and rejected. -/
theorem Rests.run_stray (h : Rests maxDepth m d) (hleaf : d.leaf = none) (hopens : d.opens = [])
    (hc : text.char? d.offset = some ')') :
    ∃ m', m.run Lexeme.grammar text .expression =
      .error (.rejected "unmatched closing bracket" (text.point d.offset)) m' ∧
        m'.tree = d.tree := by
  rcases h.run_offer hleaf hc (.inr hopens) with ⟨between, bag, hrests, hrun⟩
  have hstray : Lexeme.grammar.handle .stray ⟨text, home d.opens, between.offset⟩ ')'
      ⟨between.tree, bag, between.world⟩ =
        .error (.rejected "unmatched closing bracket" (text.point d.offset))
          ⟨between.tree, bag, between.world⟩ := by
    rw [hrests.offset]
    rfl
  rcases Machine.offer_failure [] hstray with ⟨m', hoffer, htree⟩
  exact ⟨m', hrun.trans (congrArg _ hoffer), htree.trans hrests.tree⟩

/-- A candidate that claims its character has no room. -/
theorem Rests.run_overflow {feature : Lexeme} {rest : List Lexeme} (h : Rests maxDepth m d)
    (hleaf : d.leaf = none) (hc : text.char? d.offset = some c) (hne : c ≠ ')')
    (hcandidates : Lexeme.candidates c = feature :: rest) (hfull : maxDepth ≤ d.opens.length) :
    ∃ m', m.run Lexeme.grammar text .expression =
      .error (.violation (.depthExceeded maxDepth)) m' ∧
        m'.tree = (d.claim text c feature).tree := by
  rcases h.run_offer hleaf hc (.inl hne) with ⟨between, bag, hrests, hrun⟩
  rw [hcandidates] at hrun
  rcases claims_of_candidates text hleaf hne hcandidates with ⟨next, hclaims⟩
  have hhandle := hclaims.handle bag between.world
  rw [← hrests.tree, ← hrests.offset] at hhandle
  have hdepth := hrests.depth hleaf
  rcases Machine.offer_overflow (g := Lexeme.grammar) rest hhandle
    (by rw [hrests.limit, hdepth]; exact hfull) with ⟨m', hoffer, htree⟩
  exact ⟨m', hrun.trans ((congrArg _ hoffer).trans (by rw [hrests.limit]; rfl)), htree⟩

theorem Rests.run_begin (h : Rests maxDepth m d) (hleaf : d.leaf = none)
    (hc : text.char? d.offset = some c) :
    Follows text maxDepth (m.run Lexeme.grammar text .expression) (d.begin text maxDepth c) := by
  unfold begin
  split
  · next hclosing =>
      subst hclosing
      cases hopens : d.opens with
      | cons o rest => exact h.run_close hleaf hopens hc
      | nil =>
          rcases h.run_stray hleaf hopens hc with ⟨m', hrun, -⟩
          exact ⟨m', hrun⟩
  · next hne =>
      cases hcandidates : Lexeme.candidates c with
      -- Nobody wants the character, and it is skipped.
      | nil =>
          rcases h.run_offer hleaf hc (.inl hne) with ⟨between, bag, hrests, hrun⟩
          rw [hcandidates] at hrun
          refine ⟨_, hrun, ?_⟩
          exact ⟨hrests.tree, congrArg (· + 1) hrests.offset, hrests.idle, hrests.limit,
            hrests.frames, hrests.known⟩
      | cons feature rest =>
          -- The candidate claims; whether its frame has room decides.
          by_cases hfull : maxDepth ≤ d.opens.length
          · rcases h.run_overflow hleaf hc hne hcandidates hfull with ⟨m', hrun, -⟩
            simp only [hfull, if_true]
            exact ⟨m', hrun⟩
          · rcases h.run_offer hleaf hc (.inl hne) with ⟨between, bag, hrests, hrun⟩
            rw [hcandidates] at hrun
            rcases claims_of_candidates text hleaf hne hcandidates with ⟨next, hclaims⟩
            have hhandle := hclaims.handle bag between.world
            rw [← hrests.tree, ← hrests.offset] at hhandle
            have hdepth := hrests.depth hleaf
            have hoffer := Machine.offer_proceed (g := Lexeme.grammar) rest hhandle
              (by rw [hrests.limit, hdepth]; omega)
            simp only [hfull, if_false]
            refine ⟨_, hrun.trans (congrArg _ hoffer), ?_⟩
            exact {
              tree := rfl
              offset := congrArg (· + 1) hrests.offset
              idle := hrests.idle
              limit := hrests.limit
              frames := by
                have hsketch := hrests.frames
                rw [hleaf] at hsketch
                exact (congrArg (_ :: ·) hsketch).trans hclaims.frames.symm
              known := hclaims.known h.known }

theorem Follows.bind {x : Except Error Draft} {f : Draft → Except Error Draft}
    {r : EStateM.Result Error TextMachine Unit} (h : Follows text maxDepth r x)
    (hf : ∀ d m, x = .ok d → Rests maxDepth m d →
      Follows text maxDepth (m.run Lexeme.grammar text .expression) (f d)) :
    Follows text maxDepth r (x.bind f) := by
  cases x with
  | error e => exact h
  | ok d =>
      rcases h with ⟨m, rfl, hrests⟩
      exact hf d m rfl hrests

/-- One character of the machine is one character of the draft. -/
theorem Rests.run_next (h : Rests maxDepth m d) (hc : text.char? d.offset = some c) :
    Follows text maxDepth (m.run Lexeme.grammar text .expression) (d.next text maxDepth c) := by
  unfold next
  cases hleaf : d.leaf with
  | none =>
      have hsettled : d.settled text = .ok d := by rw [settled, hleaf]
      rw [hsettled]
      exact h.run_begin hleaf hc
  | some leaf =>
      cases hextend : leaf.extend? c with
      | some longer =>
          simp only [Option.bind_some, hextend]
          exact h.run_extend hleaf hc hextend
      | none =>
          simp only [Option.bind_some, hextend]
          -- The leaf ends in front of the character, which is then taken as the first of something
          -- else.
          refine (h.run_settle hleaf hc hextend).bind ?_
          intro d' m' hsettled hrests
          have hkept := settled_eq_ok hsettled
          exact hrests.run_begin hkept.1 (hkept.2.1 ▸ hc)

/-! ### The end of the text -/

/-- The tree that a run ends with. -/
def finalTree : EStateM.Result Error TextMachine Unit → Except Error SyntaxTree
  | .ok _ m => .ok m.tree
  | .error e _ => .error e

/-- The innermost open bracket is blamed. -/
theorem Rests.releaseAll_unclosed {o : Opening} {rest : List Opening} (h : Rests maxDepth m d)
    (hleaf : d.leaf = none) (hopens : d.opens = o :: rest) :
    ∃ m', Machine.releaseAll Lexeme.grammar text m =
      .error (.rejected "unclosed bracket" (text.point o.start)) m' ∧ m'.tree = d.tree := by
  rcases h.of_opens hleaf hopens with ⟨id, bag, frames, hframes, -⟩
  rw [← h.tree]
  exact Machine.releaseAll_failure (s := ⟨m.tree, bag, m.world⟩) hframes rfl

theorem Rests.releaseAll_bare (h : Rests maxDepth m d) (hleaf : d.leaf = none)
    (hopens : d.opens = []) : Machine.releaseAll Lexeme.grammar text m = .ok () m := by
  have hsketch := h.frames
  rw [hleaf, hopens] at hsketch
  exact Machine.releaseAll_nil (List.map_eq_nil_iff.1 hsketch)

/-- The leaf is the first to be released. -/
theorem Rests.releaseAll_settled {d' : Draft} (h : Rests maxDepth m d)
    (hsettled : d.settled text = .ok d') :
    ∃ m', Rests maxDepth m' d' ∧ Machine.releaseAll Lexeme.grammar text m =
      Machine.releaseAll Lexeme.grammar text m' := by
  cases hleaf : d.leaf with
  | none =>
      have hsame : d.settled text = .ok d := by rw [settled, hleaf]
      obtain rfl := Except.ok.inj (hsame.symm.trans hsettled)
      exact ⟨m, h, rfl⟩
  | some leaf =>
      rcases h.of_leaf hleaf with ⟨id, bag, rest, hframes, hrest⟩
      rw [settled_of_leaf hleaf, ← h.offset, ← h.tree] at hsettled
      cases hsettle : leaf.settle text (home d.opens) m.offset m.tree with
      | error e => simp [hsettle, Except.map] at hsettled
      | ok tree =>
          rw [hsettle] at hsettled
          obtain rfl := Except.ok.inj hsettled
          refine ⟨_, ?_, Machine.releaseAll_cons (g := Lexeme.grammar) hframes
            (Leaf.exit_of_settle hsettle)⟩
          exact ⟨rfl, rfl, h.idle, h.limit, hrest, fun o ho =>
            Nat.lt_of_lt_of_le (h.known o ho) (h.tree ▸ Leaf.size_le_of_settle hsettle)⟩

theorem Rests.releaseAll_unsettled {e : Error} (h : Rests maxDepth m d)
    (hsettled : d.settled text = .error e) :
    ∃ m', Machine.releaseAll Lexeme.grammar text m = .error e m' := by
  cases hleaf : d.leaf with
  | none => simp [settled, hleaf] at hsettled
  | some leaf =>
      rcases h.of_leaf hleaf with ⟨id, bag, rest, hframes, -⟩
      rw [settled_of_leaf hleaf, ← h.offset, ← h.tree] at hsettled
      cases hsettle : leaf.settle text (home d.opens) m.offset m.tree with
      | ok tree => simp [hsettle, Except.map] at hsettled
      | error e' =>
          rw [hsettle] at hsettled
          obtain rfl := Except.error.inj hsettled
          rcases Machine.releaseAll_failure (g := Lexeme.grammar) hframes
            (Leaf.exit_of_settle_error hsettle) with ⟨m', hrelease, -⟩
          exact ⟨m', hrelease⟩

/-- At the end of the text the leaf ends, and then the innermost bracket is blamed. -/
theorem Rests.run_finish (h : Rests maxDepth m d) (hend : text.char? d.offset = none) :
    finalTree (m.run Lexeme.grammar text .expression) = d.finish text := by
  rw [Machine.run_of_end (h.offset ▸ hend), finish]
  cases hsettled : d.settled text with
  | error e =>
      rcases h.releaseAll_unsettled hsettled with ⟨m', hrelease⟩
      rw [hrelease]
      rfl
  | ok d' =>
      rcases h.releaseAll_settled hsettled with ⟨m', hrests, hrelease⟩
      have hleaf := (settled_eq_ok hsettled).1
      rw [hrelease, Except.bind]
      cases hopens : d'.opens with
      | nil =>
          rw [hrests.releaseAll_bare hleaf hopens, ← hrests.tree]
          rfl
      | cons o rest =>
          rcases hrests.releaseAll_unclosed hleaf hopens with ⟨m'', hunclosed, -⟩
          rw [hunclosed]
          rfl

/-! ### The whole text -/

theorem char?_eq_head? {rest : List Char} (h : text.chars.toList.drop d.offset = rest) :
    text.char? d.offset = rest.head? := by
  rw [← h, List.head?_drop, SourceText.char?, Array.getElem?_toList]

theorem Rests.run_eq_readOn {rest : List Char} (h : Rests maxDepth m d)
    (hrest : text.chars.toList.drop d.offset = rest) :
    finalTree (m.run Lexeme.grammar text .expression) = d.readOn text maxDepth rest := by
  -- By induction on the characters that are left, which start at the offset of the draft.
  induction rest generalizing m d with
  | nil => exact h.run_finish (char?_eq_head? hrest)
  | cons c rest ih =>
      have hnext := h.run_next (char?_eq_head? hrest)
      rw [readOn, List.foldlM_cons]
      cases hd : d.next text maxDepth c with
      | error e =>
          rw [hd] at hnext
          rcases hnext with ⟨m', hrun⟩
          rw [hrun]
          rfl
      | ok d' =>
          rw [hd] at hnext
          rcases hnext with ⟨m', hrun, hrests⟩
          rw [hrun]
          refine ih hrests ?_
          rw [next_offset hd, ← List.tail_drop, hrest]
          rfl

end Draft

/-- Reading a text takes its characters one after the other. -/
theorem read_eq_readOn (text : SourceText) (limits : Limits) :
    read text limits =
      (Draft.blank text).readOn text limits.maxDepth text.chars.toList := by
  have hrests : Draft.Rests limits.maxDepth
      ((TextReader.new text limits).updateRoot fun n =>
        { n with position := some (text.position 0 text.length) }).machine (Draft.blank text) :=
    ⟨rfl, rfl, rfl, rfl, rfl, fun _ ho => nomatch ho⟩
  rw [← hrests.run_eq_readOn (show text.chars.toList.drop 0 = text.chars.toList from rfl)]
  unfold read Reader.read
  simp only [TextReader.new, Reader.new, Reader.updateRoot]
  generalize Machine.run _ _ _ _ = r
  cases r <;> rfl

end Calculator
end FeatureTree
