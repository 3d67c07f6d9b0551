import FeatureTree.Proofs.Calculator.GroupSpans

/-!
# ReadSpans — positions from the text to the expression tree

Tokens follow each other in the text, and so their spans are a row.  Nesting keeps the row: what a
bracket holds runs from its opening to its closing character.  A number that takes its sign has the span
of both.  So the tree of a text has spans at all nodes, nested in the span of the whole text.

`positions_consistent_throughout` puts this and the spans of groups together.
-/

namespace FeatureTree
namespace Calculator

variable {text : SourceText} {lo hi mid : Nat} {items shown : List SyntaxTerm} {T : SyntaxTerm}

/-! ## Tokens -/

/-- The span of a token. -/
def Token.span (text : SourceText) (token : Token) : Position := text.position token.start token.stop

/-- Tokens follow each other in the text. -/
theorem runs_tokensFrom (text : SourceText) (start : Nat) (chars : List Char) :
    Runs start ((tokensFrom start chars).map (Token.span text)) (start + chars.length) := by
  induction start, chars using tokensFrom.induct with
  | case1 start =>
      rw [tokensFrom_nil]
      exact Nat.le_refl start
  | case2 start c rest hnone ih =>
      rw [tokensFrom_skip hnone, List.length_cons]
      have hrest := ih.widen_lo (Nat.le_succ start)
      rwa [Nat.add_assoc, Nat.add_comm 1] at hrest
  | case3 start c rest kind word hword ih =>
      rcases longest?_split hword with ⟨-, -, tail, htext, -⟩
      rw [htext] at hword ih ⊢
      rw [List.drop_left] at ih
      rw [tokensFrom_word hword, List.length_append, ← Nat.add_assoc]
      exact ⟨Nat.le_refl start, Nat.le_add_right start word.length, ih⟩

/-! ## Nesting -/

/-- Terms whose spans stand in a row, each with everything inside in its place. -/
structure Row (lo hi : Nat) (items : List SyntaxTerm) : Prop where
  runs : Runs lo (spans items) hi
  every : ∀ T ∈ items, T.Every (Placed True)

theorem Row.nil (hle : lo ≤ hi) : Row lo hi [] := ⟨hle, List.forall_mem_nil _⟩

theorem Row.widen_hi (h : Row lo mid items) (hle : mid ≤ hi) : Row lo hi items :=
  ⟨h.runs.widen_hi hle, h.every⟩

theorem Row.append (h : Row lo mid items) (hspan : Runs mid (spans [T]) hi)
    (hT : T.Every (Placed True)) : Row lo hi (items ++ [T]) := by
  refine ⟨?_, fun S hS => ?_⟩
  · rw [spans_append]
    exact h.runs.append hspan
  · rcases List.mem_append.1 hS with hold | hnew
    · exact h.every S hold
    · exact List.mem_singleton.1 hnew ▸ hT

/-- The terms in front of each open bracket run up to the bracket, and the terms inside start there. -/
def OuterRows : List (Nat × List SyntaxTerm) → Nat → Prop
  | [], lo => lo = 0
  | (start, outer) :: levels, lo => lo = start ∧ ∃ lo', OuterRows levels lo' ∧ Row lo' start outer

/-- What is nested from tokens that follow each other runs from the start of the text. -/
theorem row_nest {levels : List (Nat × List SyntaxTerm)} {tokens : List Token}
    (hlevels : OuterRows levels lo) (hrow : Row lo mid items)
    (htokens : Runs mid (tokens.map (Token.span text)) hi)
    (h : nest text levels items tokens = some shown) : Row 0 hi shown := by
  -- By induction on the tokens: the first of them goes to the row, opens a row or ends one.
  induction tokens generalizing levels items lo mid with
  | nil =>
      cases levels with
      | nil =>
          obtain rfl : items = shown := Option.some.inj h
          obtain rfl : lo = 0 := hlevels
          exact hrow.widen_hi htokens
      | cons level levels => cases h
  | cons token rest ih =>
      rcases htokens with ⟨hstart, hupright, hrest⟩
      change mid ≤ token.start at hstart
      change token.start ≤ token.stop at hupright
      by_cases hopening : token.kind = .opening
      · rw [nest_opening hopening] at h
        have hrows : OuterRows ((token.start, items) :: levels) token.start :=
          ⟨rfl, lo, hlevels, hrow.widen_hi hstart⟩
        exact ih hrows (.nil hupright) hrest h
      · by_cases hclosing : token.kind = .closing
        · rcases levels with _ | ⟨⟨start, outer⟩, levels⟩
          · simp [nest, hclosing] at h
          · rw [nest_closing hclosing] at h
            rcases hlevels with ⟨rfl, lo', hlevels', houter⟩
            -- The terms inside run from the opening to behind the closing character.
            have hinside := hrow.widen_hi (Nat.le_trans hstart hupright)
            have hplaced : Placed True (bracketLabel text lo token.stop) items :=
              ⟨hinside.runs, fun _ => rfl⟩
            have hspan : Runs lo (spans [.branch (bracketLabel text lo token.stop) items]) token.stop :=
              ⟨Nat.le_refl lo, hinside.runs.le, Nat.le_refl _⟩
            exact ih hlevels' (houter.append hspan (.branch hplaced hinside.every)) hrest h
        · rw [nest_leaf hopening hclosing] at h
          have hspan : Runs mid (spans [.leaf (token.label text)]) token.stop := by
            rw [spans_singleton, Term.label, token.position_label]
            exact ⟨hstart, hupright, Nat.le_refl _⟩
          have hplaced : Placed True (token.label text) [] := by
            rw [spans_singleton] at hspan
            exact .leaf hspan fun _ => by rw [token.position_label]; rfl
          exact ih hlevels (hrow.append hspan (.leaf hplaced)) hrest h

/-! ## Signs -/

theorem position_negated (sign number : SyntaxTerm) : (negated sign number).label.position =
    Piece.spanOf? sign.label.position number.label.position := by
  unfold negated Piece.spanOf?
  rw [Term.label]
  cases sign.label.position <;> cases number.label.position <;> rfl

/-- A number with its sign fits in the place of both. -/
theorem runs_negated {sign number : SyntaxTerm} (h : Runs lo (spans [sign, number]) hi) :
    Runs lo (spans [negated sign number]) hi := by
  rw [spans_singleton, position_negated]
  refine h.spanOf? (fun p hp => ?_) fun q hq => ?_
  · have hhead : ([sign, number].head?.bind fun T => T.label.position) = some p := hp
    exact head?_spans hhead
  · have hlast : ([sign, number].getLast?.bind fun T => T.label.position) = some q := hq
    exact getLast?_spans hlast

theorem Row.takeSign (h : Row lo hi items) : Row lo hi (takeSign items) := by
  match items, h with
  | [], h => exact h
  | [_], h => exact h
  | first :: second :: rest, ⟨hruns, hevery⟩ =>
      rw [Calculator.takeSign]
      split
      · have hfirst : Runs lo ([] ++ spans [first, second] ++ spans rest) hi := by
          rw [List.nil_append, ← spans_append]
          exact hruns
        refine ⟨?_, fun T hT => ?_⟩
        · have hreplaced := hfirst.replace fun lo hi => runs_negated
          rw [List.nil_append, ← spans_append] at hreplaced
          exact hreplaced
        · rcases List.mem_cons.1 hT with rfl | hmem
          · rcases hfirst.split with ⟨mid, hboth, -⟩
            have hspan := runs_negated hboth
            rw [spans_singleton] at hspan
            refine .leaf (.leaf hspan fun hfull => ?_)
            -- Both parts have spans, so the number with its sign has one.
            have hsome : ∀ S ∈ [first, second], ∃ p, S.label.position = some p := by
              intro S hS
              have hmem : S ∈ first :: second :: rest := List.mem_append_left rest hS
              exact Option.isSome_iff_exists.1 ((hevery S hmem).here.positioned hfull)
            rcases hsome first (by simp) with ⟨p, hp⟩
            rcases hsome second (by simp) with ⟨q, hq⟩
            change (negated first second).label.position.isSome
            rw [position_negated, hp, hq]
            rfl
          · exact hevery T (List.mem_cons_of_mem _ (List.mem_cons_of_mem _ hmem))
      · exact ⟨hruns, hevery⟩

theorem spans_signedAll (items : List SyntaxTerm) : spans (signedAll items) = spans items := by
  induction items with
  | nil => rfl
  | cons T items ih => rw [signedAll, spans_cons, spans_cons, label_signed, ih]

/-- Taking signs keeps all spans in place. -/
theorem every_signed (h : T.Every (Placed True)) : (signed T).Every (Placed True) := by
  induction T using Term.induction with
  | leaf a => exact h
  | branch a items ih =>
      have hrow : ∀ lo hi, Runs lo (spans items) hi → Row lo hi (signedAll items) := by
        intro lo hi hruns
        refine ⟨(spans_signedAll items).symm ▸ hruns, ?_⟩
        rw [signedAll_eq_map]
        intro T hT
        rcases List.mem_map.1 hT with ⟨S, hS, rfl⟩
        exact ih S hS (h.children S hS)
      rcases h.here.nested.exists_runs with ⟨hi, hruns⟩
      have hplaced : Placed True a (takeSign (signedAll items)) :=
        ⟨h.here.nested.replace rfl fun lo hi hruns => (hrow lo hi hruns).takeSign.runs,
          h.here.positioned⟩
      exact .branch hplaced (hrow 0 hi hruns).takeSign.every

/-! ## Texts -/

/-- The tree of a text has spans at all nodes, nested in the span of the text. -/
theorem every_of_read {limits : Limits} {t : SyntaxTree} (h : read text limits = .ok t) :
    ∃ T, t.idTerm? Tree.root = some T ∧ Plain T ∧ T.label.2 = rootLabel text ∧
      (T.map Prod.snd).Every (Placed True) := by
  rcases faultless_of_read h with ⟨T, hT, hplain, -⟩
  rcases nest_of_read h with ⟨items, hnest, hterm⟩
  have hmap : T.map Prod.snd = signed (.branch (rootLabel text) items) := by
    rw [Tree.term?, hT] at hterm
    exact Option.some.inj hterm
  have hrow : Row 0 text.length items := by
    have htokens := runs_tokensFrom text 0 text.chars.toList
    rw [Nat.zero_add, Array.length_toList] at htokens
    have hlevels : OuterRows [] 0 := rfl
    exact row_nest hlevels (.nil (Nat.le_refl 0)) htokens hnest
  refine ⟨T, hT, hplain, ?_, ?_⟩
  · have hlabel := Term.label_map Prod.snd T
    rw [hmap, label_signed] at hlabel
    exact hlabel.symm
  · rw [hmap]
    exact every_signed (.branch ⟨hrow.runs, fun _ => rfl⟩ hrow.every)

/-- Positions are consistent from the text to the expression tree.  A tree that is grouped keeps
consistent positions, whatever operators and however many unpositioned nodes stand in it, and its groups
span from their first to their last child.  The tree of a text has a span inside the text at every node,
and so has the expression tree of the text. -/
theorem positions_consistent_throughout :
    (∀ (t : SyntaxTree) (T : SourceTerm) (limits : Limits) (out : ExprTree),
      t.idTerm? Tree.root = some T → Plain T → t.Upright Tree.root →
        t.positionsConsistent Tree.root = true → group t limits = .success out →
          out.positionsConsistent Tree.root = true ∧ GroupsSpanned out) ∧
    (∀ (text : SourceText) (reading : Limits) (flat : SyntaxTree), read text reading = .ok flat →
      (∃ T, flat.idTerm? Tree.root = some T ∧ Plain T) ∧ flat.Upright Tree.root ∧
        flat.positionsConsistent Tree.root = true ∧ flat.Within Tree.root text.length) ∧
    ∀ (text : SourceText) (reading : Limits) (flat : SyntaxTree) (limits : Limits) (out : ExprTree),
      read text reading = .ok flat → group flat limits = .success out →
        out.Within Tree.root text.length ∧ out.positionsConsistent Tree.root = true ∧
          GroupsSpanned out := by
  refine ⟨?_, ?_, ?_⟩
  · intro t T limits out hT hplain hupright hconsistent h
    -- Nothing is said about which nodes have spans, so the condition for having them is false.
    have hnested := Tree.every_of_positionsConsistent hT hupright hconsistent
    have hplaced : (T.map Prod.snd).Every (Placed False) :=
      hnested.imp fun a ts h => ⟨h, False.elim⟩
    rcases seated_of_group hT hplain hplaced h with ⟨E, hE, -, hseated⟩
    exact consistent_of_seated hE hseated
  · intro text reading flat hread
    rcases every_of_read hread with ⟨T, hT, hplain, hlabel, hplaced⟩
    have hwithin : flat.Within Tree.root text.length :=
      Tree.within_of_every hT hplaced (congrArg Label.position hlabel)
    exact ⟨⟨T, hT, hplain⟩, hwithin.upright,
      Tree.positionsConsistent_of_every hT (hplaced.imp fun _ _ h => h.nested), hwithin⟩
  · intro text reading flat limits out hread h
    rcases every_of_read hread with ⟨T, hT, hplain, hlabel, hplaced⟩
    rcases seated_of_group hT hplain hplaced h with ⟨E, hE, hposition, hseated⟩
    refine ⟨?_, consistent_of_seated hE hseated⟩
    rcases Option.map_eq_some_iff.1 hE with ⟨T', hT', rfl⟩
    rw [Term.label_map] at hposition
    have hroot : T'.label.2.position = some (text.position 0 text.length) :=
      hposition.trans (congrArg Label.position hlabel)
    exact Tree.within_of_every hT' (hseated.imp fun _ _ h => h.toPlaced) hroot

/-- `*2^(y-)`, in which the power and the minus have no span. -/
def halfPlaced : SyntaxTerm :=
  let span (first last : Nat) : Option Position :=
    some ⟨⟨1, first + 1, first⟩, ⟨1, last + 1, last⟩⟩
  .branch ⟨.calculator, none, span 0 7⟩
    [.leaf ⟨.operator, some (.operator .mul), span 0 1⟩,
      .leaf ⟨.number, none, span 1 2⟩,
      .leaf ⟨.operator, some (.operator .pow), none⟩,
      .branch ⟨.bracket, none, span 3 7⟩
        [.leaf ⟨.name, some (.name "y"), span 4 5⟩,
          .leaf ⟨.operator, some (.operator .sub), none⟩]]

/-- Its groups are in place, and so are all nodes of a text with a signed number. -/
theorem positions_halfPlaced :
    (∃ out, group (Tree.ofTerm halfPlaced) ⟨7⟩ = .success out ∧
      out.positionsConsistent Tree.root = true ∧ GroupsSpanned out) ∧
    ∃ flat out, read (SourceText.ofString "-2*f(a+b)^2") {} = .ok flat ∧
      flat.positionsConsistent Tree.root = true ∧ flat.Within Tree.root 11 ∧
      group flat ⟨7⟩ = .success out ∧ out.Within Tree.root 11 ∧
        out.positionsConsistent Tree.root = true ∧ GroupsSpanned out := by
  constructor
  · obtain ⟨T, b, hT, hplain, htake⟩ : ∃ (T : SourceTerm) (b : Bench),
        (Tree.ofTerm halfPlaced).idTerm? Tree.root = some T ∧ Plain T ∧
          Bench.takeAll (Limits.mk 7).maxDepth 0 0 .clear T.children = .ok b := by
      refine ⟨_, _, rfl, ?_, rfl⟩
      unfold Plain
      decide
    have hupright : (Tree.ofTerm halfPlaced).Upright Tree.root := by
      unfold Tree.Upright
      decide
    rcases exists_group hT hplain htake with ⟨out, hout, -⟩
    exact ⟨out, hout, positions_consistent_throughout.1 _ T ⟨7⟩ out hT hplain hupright (by decide)
      hout⟩
  · have hok : (read (SourceText.ofString "-2*f(a+b)^2") {}).isOk = true := by
      rw [read_eq_foldlM]
      decide +kernel
    cases h : read (SourceText.ofString "-2*f(a+b)^2") {} with
    | error e =>
        rw [h] at hok
        cases hok
    | ok flat =>
        have hroom : 4 * deepest [] (tokens (SourceText.ofString "-2*f(a+b)^2")) + 3 ≤ 7 := by
          decide +kernel
        rcases exists_group_of_read ⟨7⟩ h hroom with ⟨out, hout⟩
        have hread := positions_consistent_throughout.2.1 _ _ _ h
        have hgroup := positions_consistent_throughout.2.2 _ _ _ _ _ h hout
        exact ⟨flat, out, rfl, hread.2.2.1, hread.2.2.2, hout, hgroup⟩

end Calculator
end FeatureTree
