import FeatureTree.Calculator.Grouping
import FeatureTree.Proofs.Rebuilding.Rounds
import Mathlib.Logic.Function.Basic

/-!
# Sites — the grouping machine without its bookkeeping

The grouping features keep nothing in bags and never ask for the number of a frame.  A `Site` is what
remains of a state without them: the tree, the frames, the waiting candidates and the index of each
input node.  `Site.Rests` ties a state to its site.

`Turn` and `Stops` say what one round makes of a site, and `Leads` what a number of rounds does: they
reach a site with a given property, or the run fails.
-/

namespace FeatureTree
namespace Calculator

open Rebuilding

/-- A state of the machine that groups operators. -/
abbrev TreeMachine : Type := Machine Rule Piece ExprKind Literal NoEntry Unit

/-- A frame without its number: its feature, which a region does not have, and its nodes. -/
structure Outline where
  piece : Option Piece
  input : NodeId
  output : NodeId

/-- What matters of a state. -/
structure Site where
  tree : ExprTree
  frames : List Outline
  /-- Features that wait for the current child, with the node that they build under. -/
  waiting : Option (List Piece × NodeId)
  index : NodeId → Nat

namespace Site

/-- The outline of a frame. -/
def outline (entry : FrameId × Frame Rule Piece NoEntry) : Outline :=
  match entry.2.handler with
  | .feature piece _ => ⟨some piece, entry.2.input, entry.2.output⟩
  | .region _ => ⟨none, entry.2.input, entry.2.output⟩

theorem outline_input (entry : FrameId × Frame Rule Piece NoEntry) :
    (outline entry).input = entry.2.input := by
  rcases entry with ⟨id, handler, input, output⟩
  cases handler <;> rfl

/-- The input node that is traversed while the frames are active. -/
def inputOf : List Outline → NodeId
  | [] => Tree.root
  | f :: _ => f.input

/-- The input node that is being traversed. -/
def input (s : Site) : NodeId := inputOf s.frames

/-- The state holds what the site says. -/
structure Rests (limit : Nat) (m : TreeMachine) (s : Site) : Prop where
  tree : m.tree = s.tree
  frames : m.stack.frames.map outline = s.frames
  limit : m.stack.maxDepth = limit
  waiting : m.waiting.map (fun c => (c.features, c.input, c.output)) =
    s.waiting.map fun w => (w.1, s.input, w.2)
  index : ∀ id, m.cursors.index id = s.index id

/-- Candidates for an input node. -/
def proposals (source : SyntaxTree) (node : NodeId) : List Piece :=
  (((source.get? node).map Node.kind).map Piece.candidates).getD []

variable {source : SyntaxTree} {limit : Nat} {m : TreeMachine} {s s' s₁ : Site}
variable {input output node nested : NodeId} {rest : List Outline} {p q : Piece}
variable {t' : ExprTree} {step : Step (Redirect Rule)}

/-! ## States at a site -/

theorem Rests.depth (h : Rests limit m s) : m.stack.depth = s.frames.length := by
  rw [← h.frames, List.length_map]
  rfl

theorem Rests.input_eq (h : Rests limit m s) : m.input = s.input := by
  rw [Site.input, ← h.frames, Machine.input, Stack.top?]
  rcases m.stack.frames with _ | ⟨⟨id, handler, input, output⟩, rest⟩
  · rfl
  · cases handler <;> rfl

theorem Rests.node? (h : Rests limit m s) :
    m.node? source = source.childAt? s.input (s.index s.input) := by
  rw [Machine.node?, Machine.index, h.input_eq, h.index]

theorem Rests.idle (h : Rests limit m s) (hidle : s.waiting = none) : m.waiting = none := by
  have hwaiting := h.waiting
  rw [hidle] at hwaiting
  exact Option.map_eq_none_iff.1 hwaiting

/-- A feature is innermost. -/
theorem Rests.of_piece (h : Rests limit m s) (hframes : s.frames = ⟨some p, input, output⟩ :: rest) :
    ∃ id bag frames, m.stack.frames = (id, ⟨.feature p bag, input, output⟩) :: frames ∧
      frames.map outline = rest := by
  have hmap := h.frames
  rw [hframes] at hmap
  rcases List.map_eq_cons_iff.1 hmap with
    ⟨⟨id, handler, input', output'⟩, frames, hcons, htop, hrest⟩
  cases handler with
  | feature piece bag =>
      cases htop
      exact ⟨id, bag, frames, hcons, hrest⟩
  | region rule => cases htop

/-- A region is innermost. -/
theorem Rests.of_region (h : Rests limit m s) (hframes : s.frames = ⟨none, input, output⟩ :: rest) :
    ∃ id rule frames, m.stack.frames = (id, ⟨.region rule, input, output⟩) :: frames ∧
      frames.map outline = rest := by
  have hmap := h.frames
  rw [hframes] at hmap
  rcases List.map_eq_cons_iff.1 hmap with
    ⟨⟨id, handler, input', output'⟩, frames, hcons, htop, hrest⟩
  cases handler with
  | feature piece bag => cases htop
  | region rule =>
      cases htop
      exact ⟨id, rule, frames, hcons, hrest⟩

/-! ## One round -/

/-- One round takes every state at the first site to a state at the second one. -/
def Turn (source : SyntaxTree) (limit : Nat) (s s' : Site) : Prop :=
  ∀ m, Rests limit m s → m.isFinished source = false ∧
    ∃ m', Machine.advance Piece.grammar source .expression m = .ok () m' ∧ Rests limit m' s'

/-- One round fails in every state at the site. -/
def Stops (source : SyntaxTree) (limit : Nat) (s : Site) (e : Rebuilding.Error) : Prop :=
  ∀ m, Rests limit m s → m.isFinished source = false ∧
    ∃ m', Machine.advance Piece.grammar source .expression m = .error e m'

/-- One round asks a feature about the current child and follows its answer at the second site. -/
def Asks (source : SyntaxTree) (limit : Nat) (s : Site) (node : NodeId) (s₁ : Site)
    (step : Step (Redirect Rule)) : Prop :=
  ∀ m, Rests limit m s → m.isFinished source = false ∧
    ∃ m₁, Machine.advance Piece.grammar source .expression m =
      Machine.follow Piece.grammar source step s.input node m₁ ∧ Rests limit m₁ s₁

/-- How a feature answers, what it turns into, and what it makes of the tree. -/
def Acts (p : Piece) (cx : Piece.Place) (node : NodeId) (t : ExprTree) (q : Piece)
    (step : Step (Redirect Rule)) (t' : ExprTree) : Prop :=
  ∀ bag world, Piece.handle p cx node ⟨t, bag, world⟩ = .ok (q, step) ⟨t', bag, world⟩

/-- Candidates for the current child wait under an output node, or start there. -/
def Offers (source : SyntaxTree) (s : Site) (node output : NodeId) : Prop :=
  s.waiting = some (proposals source node, output) ∨
    s.waiting = none ∧ s.frames = [] ∧ output = Tree.root

/-! ### Asking -/

theorem asks_active (limit : Nat) (hidle : s.waiting = none)
    (hframes : s.frames = ⟨some p, input, output⟩ :: rest)
    (hnode : source.childAt? input (s.index input) = some node)
    (hacts : Acts p ⟨source, input, output, s.index input⟩ node s.tree q step t') :
    Asks source limit s node
      { s with tree := t', frames := ⟨some q, input, output⟩ :: rest } step := by
  intro m h
  obtain rfl : s.input = input := by rw [Site.input, hframes, inputOf]
  have hcurrent : m.node? source = some node := h.node?.trans hnode
  rcases h.of_piece hframes with ⟨id, bag, frames, hcons, hrest⟩
  have hhandle := hacts bag m.world
  rw [← h.tree, ← h.index] at hhandle
  refine ⟨Machine.isFinished_of_node? hcurrent, _,
    Machine.advance_active (g := Piece.grammar) hcurrent (h.idle hidle) hcons hhandle, ?_⟩
  refine ⟨rfl, congrArg (_ :: ·) hrest, h.limit, ?_, h.index⟩
  change m.waiting.map _ = s.waiting.map _
  rw [h.idle hidle, hidle]
  rfl

/-- Candidates are asked at once. -/
theorem Offers.advance (hoffers : Offers source s node output)
    (hnode : source.childAt? s.input (s.index s.input) = some node) (h : Rests limit m s) :
    ∃ bag m₁, Machine.advance Piece.grammar source .expression m =
      Machine.offer Piece.grammar source ⟨source, s.input, output, s.index s.input⟩ node
        (proposals source node) bag m₁ ∧ Rests limit m₁ { s with waiting := none } := by
  have hcurrent : m.node? source = some node := h.node?.trans hnode
  have hindex : m.index = s.index s.input := by rw [Machine.index, h.input_eq, h.index]
  rcases hoffers with hwaiting | ⟨hidle, hempty, rfl⟩
  · have hmap := h.waiting
    rw [hwaiting] at hmap
    rcases Option.map_eq_some_iff.1 hmap with ⟨⟨features, input', output', bag⟩, hgroup, heq⟩
    cases heq
    refine ⟨bag, { m with waiting := none }, ?_, h.tree, h.frames, h.limit, rfl, h.index⟩
    rw [← hindex]
    exact Machine.advance_waiting (g := Piece.grammar) hcurrent hgroup
  · have hframes : m.stack.frames = [] := List.map_eq_nil_iff.1 (h.frames.trans hempty)
    have hinput : s.input = Tree.root := by rw [Site.input, hempty, inputOf]
    refine ⟨Bag.empty m.bags, { m with bags := m.bags + 1 }, ?_, ?_⟩
    · rw [← hindex, hinput]
      exact Machine.advance_start (g := Piece.grammar) hcurrent (h.idle hidle) hframes rfl
    · exact ⟨h.tree, h.frames, h.limit, by rw [h.idle hidle]; rfl, h.index⟩

theorem asks_offer {features : List Piece} (hoffers : Offers source s node output)
    (hnode : source.childAt? s.input (s.index s.input) = some node)
    (hproposals : proposals source node = p :: features)
    (hacts : Acts p ⟨source, s.input, output, s.index s.input⟩ node s.tree q step t')
    (hclaims : step.claims = true) (hroom : s.frames.length < limit) :
    Asks source limit s node
      { s with
        tree := t'
        frames := ⟨some q, s.input, output⟩ :: s.frames
        waiting := none } step := by
  intro m h
  rcases hoffers.advance hnode h with ⟨bag, m₁, hadvance, h₁⟩
  have hhandle := hacts bag m₁.world
  rw [← show m₁.tree = s.tree from h₁.tree] at hhandle
  have hroom₁ : m₁.stack.depth < m₁.stack.maxDepth := by
    rw [h₁.depth, h₁.limit]
    exact hroom
  rw [hproposals] at hadvance
  refine ⟨Machine.isFinished_of_node? (h.node?.trans hnode), _,
    hadvance.trans (Machine.offer_claim (g := Piece.grammar) hhandle hclaims hroom₁), ?_⟩
  refine ⟨rfl, congrArg (_ :: ·) h₁.frames, h₁.limit, ?_, h₁.index⟩
  exact congrArg (Option.map _) (h₁.idle rfl)

theorem stops_full {features : List Piece} (hoffers : Offers source s node output)
    (hnode : source.childAt? s.input (s.index s.input) = some node)
    (hproposals : proposals source node = p :: features)
    (hacts : Acts p ⟨source, s.input, output, s.index s.input⟩ node s.tree q step t')
    (hclaims : step.claims = true) (hfull : limit ≤ s.frames.length) :
    Stops source limit s (.violation (.depthExceeded limit)) := by
  intro m h
  rcases hoffers.advance hnode h with ⟨bag, m₁, hadvance, h₁⟩
  have hhandle := hacts bag m₁.world
  rw [← show m₁.tree = s.tree from h₁.tree] at hhandle
  have hfull₁ : m₁.stack.maxDepth ≤ m₁.stack.depth := by
    rw [h₁.depth, h₁.limit]
    exact hfull
  rw [hproposals] at hadvance
  rcases Machine.offer_overflow (g := Piece.grammar) hhandle hclaims hfull₁ with ⟨m', hoffer⟩
  refine ⟨Machine.isFinished_of_node? (h.node?.trans hnode), m', hadvance.trans ?_⟩
  rw [hoffer, h₁.limit]

/-- Nobody claims the child. -/
theorem stops_unclaimed (hoffers : Offers source s node output)
    (hnode : source.childAt? s.input (s.index s.input) = some node)
    (hproposals : proposals source node = [] ∨ proposals source node = [p] ∧
      Acts p ⟨source, s.input, output, s.index s.input⟩ node s.tree q .decline t') :
    Stops source limit s (.unclaimed node (s.index s.input)) := by
  intro m h
  rcases hoffers.advance hnode h with ⟨bag, m₁, hadvance, h₁⟩
  refine ⟨Machine.isFinished_of_node? (h.node?.trans hnode), ?_⟩
  rcases hproposals with hnone | ⟨hone, hacts⟩
  · rw [hadvance, hnone]
    exact ⟨m₁, rfl⟩
  · have hhandle := hacts bag m₁.world
    rw [← show m₁.tree = s.tree from h₁.tree] at hhandle
    rw [hadvance, hone]
    exact Machine.offer_decline (g := Piece.grammar) hhandle

/-- The rule of a region proposes candidates. -/
theorem turn_region (hidle : s.waiting = none)
    (hframes : s.frames = ⟨none, input, output⟩ :: rest)
    (hnode : source.childAt? input (s.index input) = some node) :
    Turn source limit s { s with waiting := some (proposals source node, output) } := by
  intro m h
  have hinput : s.input = input := by rw [Site.input, hframes, inputOf]
  have hcurrent : m.node? source = some node := by rw [h.node?, hinput, hnode]
  rcases h.of_region hframes with ⟨id, rule, frames, hcons, -⟩
  refine ⟨Machine.isFinished_of_node? hcurrent, _,
    Machine.advance_region (g := Piece.grammar) hcurrent (h.idle hidle) hcons rfl, ?_⟩
  refine ⟨h.tree, h.frames, h.limit, ?_, h.index⟩
  change some (proposals source node, input, output) =
    some (proposals source node, s.input, output)
  rw [hinput]

/-! ### Following the answer -/

theorem Asks.proceed (h : Asks source limit s node s₁ .proceed) (hidle : s₁.waiting = none) :
    Turn source limit s
      { s₁ with index := Function.update s₁.index s.input (s₁.index s.input + 1) } := by
  intro m hrests
  rcases h m hrests with ⟨hactive, m₁, hadvance, h₁⟩
  refine ⟨hactive, _, hadvance.trans Machine.follow_proceed, ?_⟩
  refine ⟨h₁.tree, h₁.frames, h₁.limit, ?_, fun id => ?_⟩
  · exact h₁.waiting.trans (by rw [hidle]; rfl)
  · change (m₁.cursors.bump s.input).index id = _
    rw [Cursors.index_bump, h₁.index, h₁.index]
    by_cases hid : s.input = id
    · subst hid
      simp
    · simp [hid, Function.update_of_ne (Ne.symm hid)]

/-- The child is offered again, to features that build under another node. -/
theorem Asks.feed {group : NodeId} (h : Asks source limit s node s₁ (Piece.feed group))
    (hinput : s₁.input = s.input) (hknown : group < s₁.tree.size) :
    Turn source limit s { s₁ with waiting := some (proposals source node, group) } := by
  intro m hrests
  rcases h m hrests with ⟨hactive, m₁, hadvance, h₁⟩
  have hcontains : m₁.tree.contains group = true := by
    rw [h₁.tree]
    exact decide_eq_true hknown
  refine ⟨hactive, _, hadvance.trans
    (Machine.follow_output (g := Piece.grammar) rfl hcontains rfl), ?_⟩
  refine ⟨h₁.tree, h₁.frames, h₁.limit, ?_, h₁.index⟩
  exact congrArg (fun input => some (proposals source node, input, group)) hinput.symm

section Nested

variable {n : Node SyntaxKind Literal}

theorem Asks.into (h : Asks source limit s node s₁ (Piece.into nested output))
    (hother : nested ≠ s.input) (hknown : output < s₁.tree.size) (hrests : Rests limit m s) :
    m.isFinished source = false ∧ ∃ m₁, Rests limit m₁ s₁ ∧
      Machine.advance Piece.grammar source .expression m =
        Machine.descend source ⟨.expression, some nested, output, none⟩ nested m₁ := by
  rcases h m hrests with ⟨hactive, m₁, hadvance, h₁⟩
  have hcontains : m₁.tree.contains output = true := by
    rw [h₁.tree]
    exact decide_eq_true hknown
  exact ⟨hactive, m₁, h₁, hadvance.trans
    (Machine.follow_nested (g := Piece.grammar) rfl hother hcontains)⟩

/-- A region opens for the children of another node. -/
theorem Asks.descend (h : Asks source limit s node s₁ (Piece.into nested output))
    (hother : nested ≠ s.input) (hknown : output < s₁.tree.size) (hidle : s₁.waiting = none)
    (hget : source.get? nested = some n) (hparent : n.isParent = true)
    (hroom : s₁.frames.length < limit) :
    Turn source limit s { s₁ with frames := ⟨none, nested, output⟩ :: s₁.frames } := by
  intro m hrests
  rcases h.into hother hknown hrests with ⟨hactive, m₁, h₁, hadvance⟩
  have hroom₁ : m₁.stack.depth < m₁.stack.maxDepth := by
    rw [h₁.depth, h₁.limit]
    exact hroom
  refine ⟨hactive, _, hadvance.trans (Machine.descend_parent hget hparent rfl hroom₁), ?_⟩
  refine ⟨h₁.tree, congrArg (_ :: ·) h₁.frames, h₁.limit, ?_, fun id => ?_⟩
  · exact h₁.waiting.trans (by rw [hidle]; rfl)
  · change (m₁.cursors.set nested _).index id = _
    rw [Cursors.index_set, ← h₁.index]
    split
    · next heq => rw [heq]
    · rfl

theorem Asks.stops_full (h : Asks source limit s node s₁ (Piece.into nested output))
    (hother : nested ≠ s.input) (hknown : output < s₁.tree.size)
    (hget : source.get? nested = some n) (hparent : n.isParent = true)
    (hfull : limit ≤ s₁.frames.length) :
    Stops source limit s (.violation (.depthExceeded limit)) := by
  intro m hrests
  rcases h.into hother hknown hrests with ⟨hactive, m₁, h₁, hadvance⟩
  have hfull₁ : m₁.stack.maxDepth ≤ m₁.stack.depth := by
    rw [h₁.depth, h₁.limit]
    exact hfull
  have hoverflow : ∃ m', Machine.descend source ⟨.expression, some nested, output, none⟩ nested m₁ =
      .error _ m' := Machine.descend_overflow hget hparent hfull₁
  rcases hoverflow with ⟨m', hdescend⟩
  exact ⟨hactive, m', hadvance.trans (hdescend.trans (by rw [h₁.limit]))⟩

theorem Asks.stops_leaf (h : Asks source limit s node s₁ (Piece.into nested output))
    (hother : nested ≠ s.input) (hknown : output < s₁.tree.size)
    (hget : source.get? nested = some n) (hleaf : n.isParent = false) :
    Stops source limit s (.violation (.invalidRedirect (.leafInput nested))) := by
  intro m hrests
  rcases h.into hother hknown hrests with ⟨hactive, m₁, h₁, hadvance⟩
  exact ⟨hactive, m₁, hadvance.trans (Machine.descend_leaf hget hleaf)⟩

end Nested

/-! ### Leaving -/

/-- The group spans from its first to its last child, if both have spans. -/
def spanned (t : ExprTree) (group : NodeId) : ExprTree :=
  let first := (t.firstChild? group).bind t.position?
  let last := (t.lastChild? group).bind t.position?
  match Piece.spanOf? first last with
  | some position => t.setPosition group position
  | none => t

/-- The tree after a frame has left. -/
def left (source : SyntaxTree) (f : Outline) (t : ExprTree) : ExprTree :=
  match f.piece with
  | some (.grouping group _) => spanned t group
  | some (.settled group) => spanned t group
  | some (.named name) => t.append f.output
      ⟨.bareName, (source.get? name).bind Node.value, source.position? name, none⟩
  | _ => t

theorem exit_eq (p : Piece) (input output : NodeId) (index : Nat) (t : ExprTree)
    (bag : Bag Empty NoEntry) (world : Unit) :
    Piece.grammar.exit p ⟨source, input, output, index⟩ ⟨t, bag, world⟩ =
      .ok () ⟨left source ⟨some p, input, output⟩ t, bag, world⟩ := by
  cases p <;> rfl

/-- The indices after the last frame of an input node has left. -/
def ascended (input : NodeId) (base : List Outline) (index : NodeId → Nat) : NodeId → Nat :=
  if inputOf base = input then index
  else Function.update (Function.update index input 0) (inputOf base) (index (inputOf base) + 1)

/-- The innermost frame leaves. -/
theorem Rests.releaseTop (source : SyntaxTree) {f : Outline} (h : Rests limit m s)
    (hidle : s.waiting = none) (hframes : s.frames = f :: rest) :
    ∃ m', Machine.releaseTop Piece.grammar source m = .ok () m' ∧
      Rests limit m' ⟨left source f s.tree, rest, none, ascended f.input rest s.index⟩ := by
  rcases f with ⟨piece, input, output⟩
  -- Whoever leaves, the state before `ascend` is at the site with the old indices.
  suffices hascend : ∀ between : TreeMachine,
      Rests limit between ⟨left source ⟨piece, input, output⟩ s.tree, rest, none, s.index⟩ →
        Rests limit (Machine.ascend input between)
          ⟨left source ⟨piece, input, output⟩ s.tree, rest, none, ascended input rest s.index⟩ by
    cases piece with
    | none =>
        rcases h.of_region hframes with ⟨id, rule, frames, hcons, hrest⟩
        refine ⟨_, Machine.releaseTop_region hcons, hascend _ ?_⟩
        exact ⟨h.tree, hrest, h.limit, congrArg (Option.map _) (h.idle hidle), h.index⟩
    | some p =>
        rcases h.of_piece hframes with ⟨id, bag, frames, hcons, hrest⟩
        refine ⟨_, Machine.releaseTop_feature (g := Piece.grammar) hcons
          (exit_eq p input output _ m.tree bag m.world), hascend _ ?_⟩
        refine ⟨?_, hrest, h.limit, congrArg (Option.map _) (h.idle hidle), h.index⟩
        exact congrArg (left source ⟨some p, input, output⟩) h.tree
  intro between hbetween
  have hinput : between.input = inputOf rest := hbetween.input_eq
  unfold Machine.ascend ascended
  rw [hinput]
  split
  · exact hbetween
  · next hne =>
      refine ⟨hbetween.tree, hbetween.frames, hbetween.limit, ?_, fun id => ?_⟩
      · exact congrArg (Option.map _) (hbetween.idle rfl)
      · change ((between.cursors.erase input).bump (inputOf rest)).index id = _
        rw [Cursors.index_bump, Cursors.index_erase, Cursors.index_erase, hbetween.index,
          hbetween.index]
        by_cases hid : inputOf rest = id
        · subst hid
          simp [Ne.symm hne]
        · by_cases hinput : input = id
          · subst hinput
            simp [hid, Function.update_of_ne (Ne.symm hid)]
          · simp [hid, hinput, Function.update_of_ne (Ne.symm hid),
              Function.update_of_ne (Ne.symm hinput)]

/-- The innermost feature refuses the child, and others of the same input node are asked. -/
theorem Asks.decline (h : Asks source limit s node s₁ .decline) (hidle : s₁.waiting = none)
    (hframes : s₁.frames = ⟨some q, input, output⟩ :: rest) (hinput : inputOf rest = input) :
    Turn source limit s ⟨left source ⟨some q, input, output⟩ s₁.tree, rest, none, s₁.index⟩ := by
  intro m hrests
  rcases h m hrests with ⟨hactive, m₁, hadvance, h₁⟩
  rcases h₁.releaseTop source hidle hframes with ⟨m', hrelease, h'⟩
  rw [ascended, if_pos hinput] at h'
  exact ⟨hactive, m', hadvance.trans hrelease, h'⟩

theorem Rests.releaseWhile (source : SyntaxTree) {frames base : List Outline} {t : ExprTree}
    {index : NodeId → Nat} (h : Rests limit m ⟨t, frames ++ base, none, index⟩)
    (hall : ∀ f ∈ frames, f.input = input)
    (hbase : base = [] ∨ inputOf base ≠ input)
    {entries : List (FrameId × Frame Rule Piece NoEntry)}
    (hentries : entries.map outline = frames ++ base) :
    ∃ m', Machine.releaseWhile Piece.grammar source input entries m = .ok () m' ∧
      Rests limit m' ⟨frames.foldl (fun t f => left source f t) t, base, none,
        if frames = [] then index else ascended input base index⟩ := by
  -- Only the last frame to leave changes an index: above it, the frame below traverses the same
  -- node.
  induction frames generalizing m t index entries with
  | nil =>
      refine ⟨m, ?_, h⟩
      cases entries with
      | nil => rfl
      | cons entry entries =>
          rcases hbase with rfl | hne
          · cases hentries
          · have hother : entry.2.input ≠ input := by
              intro heq
              refine hne ?_
              rw [List.nil_append] at hentries
              rw [← hentries, ← heq]
              exact outline_input entry
            simp [Machine.releaseWhile, hother, pure, EStateM.pure]
  | cons f frames ih =>
      rcases List.map_eq_cons_iff.1 hentries with ⟨entry, entries, rfl, hf, hrest⟩
      have hinput : f.input = input := hall f List.mem_cons_self
      have hsame : entry.2.input = input := by
        rw [← hinput, ← hf]
        exact (outline_input entry).symm
      rcases h.releaseTop source rfl rfl with ⟨m₁, hrelease, h₁⟩
      have hindex : (if frames = [] then ascended f.input (frames ++ base) index
          else ascended input base (ascended f.input (frames ++ base) index)) =
            ascended input base index := by
        rw [hinput]
        cases frames with
        | nil => rfl
        | cons f' frames =>
            have hself : ascended input (f' :: frames ++ base) index = index :=
              if_pos (hall f' (List.mem_cons_of_mem _ List.mem_cons_self))
            rw [hself, if_neg (List.cons_ne_nil _ _)]
      rcases ih h₁ (fun f' hf' => hall f' (List.mem_cons_of_mem _ hf')) hrest with
        ⟨m', hwhile, h'⟩
      refine ⟨m', ?_, hindex ▸ h'⟩
      rw [Machine.releaseWhile, if_pos hsame]
      simp only [bind, EStateM.bind, hrelease]
      exact hwhile

/-- Past the last child, all frames of the input node leave in one round. -/
theorem turn_end {frames base : List Outline} (hframes : s.frames = frames ++ base)
    (hsome : frames ≠ []) (hall : ∀ f ∈ frames, f.input = input)
    (hbase : base = [] ∨ inputOf base ≠ input)
    (hend : source.childAt? input (s.index input) = none) :
    Turn source limit s ⟨frames.foldl (fun t f => left source f t) s.tree, base, none,
      ascended input base s.index⟩ := by
  intro m h
  rcases List.exists_cons_of_ne_nil hsome with ⟨f, rest, hcons⟩
  have hinput : s.input = input := by
    rw [Site.input, hframes, hcons]
    exact hall f (hcons ▸ List.mem_cons_self)
  have hnode : m.node? source = none := by rw [h.node?, hinput, hend]
  have hfull : m.stack.frames ≠ [] := by
    intro hnil
    have hmap := h.frames
    rw [hnil, hframes, hcons] at hmap
    cases hmap
  have hbefore : Rests limit { m with waiting := none } ⟨s.tree, frames ++ base, none, s.index⟩ :=
    ⟨h.tree, h.frames.trans hframes, h.limit, rfl, h.index⟩
  rcases hbefore.releaseWhile source hall hbase (h.frames.trans hframes) with
    ⟨m', hwhile, h'⟩
  rw [if_neg hsome] at h'
  refine ⟨?_, m', ?_, h'⟩
  · rcases List.exists_cons_of_ne_nil hfull with ⟨⟨id, frame⟩, rest, hstack⟩
    exact Machine.isFinished_of_frames hstack
  · rw [Machine.advance, hnode]
    change Machine.releaseWhile Piece.grammar source m.input _ _ = _
    rw [h.input_eq, hinput]
    exact hwhile

/-! ## Several rounds -/

/-- At most `n` rounds lead from every state at the site to one with the property `post`, or to the
error. -/
def Leads {α : Type} (source : SyntaxTree) (limit n : Nat) (s : Site) (x : Except Rebuilding.Error α)
    (post : α → Site → Prop) : Prop :=
  ∀ m, Rests limit m s → ∃ k ≤ n, ∃ m', match x with
    | .ok a => (∃ s', Rests limit m' s' ∧ post a s') ∧ ∀ more,
        Machine.run Piece.grammar source .expression (k + more) m =
          Machine.run Piece.grammar source .expression more m'
    | .error e => ∀ more,
        Machine.run Piece.grammar source .expression (k + more) m = (.failure e, m')

section Leads

variable {α β : Type} {x : Except Rebuilding.Error α} {post : α → Site → Prop} {k n : Nat}

theorem Leads.here {a : α} (h : post a s) : Leads source limit n s (.ok a) post :=
  fun m hrests => ⟨0, Nat.zero_le n, m, ⟨s, hrests, h⟩, fun more => by rw [Nat.zero_add]⟩

theorem Leads.mono (h : Leads source limit n s x post) (hle : n ≤ k) :
    Leads source limit k s x post := by
  intro m hrests
  rcases h m hrests with ⟨j, hj, hrun⟩
  exact ⟨j, Nat.le_trans hj hle, hrun⟩

theorem Turn.leads (hturn : Turn source limit s s') (h : Leads source limit n s' x post) :
    Leads source limit (n + 1) s x post := by
  intro m hrests
  rcases hturn m hrests with ⟨hactive, m₁, hadvance, h₁⟩
  rcases h m₁ h₁ with ⟨j, hj, m', hrun⟩
  have hround : ∀ more, Machine.run Piece.grammar source .expression (j + 1 + more) m =
      Machine.run Piece.grammar source .expression (j + more) m₁ := by
    intro more
    rw [Nat.add_right_comm]
    exact Machine.run_of_round hactive hadvance
  refine ⟨j + 1, Nat.succ_le_succ hj, m', ?_⟩
  cases x with
  | ok a => exact ⟨hrun.1, fun more => (hround more).trans (hrun.2 more)⟩
  | error e => exact fun more => (hround more).trans (hrun more)

theorem Stops.leads {e : Rebuilding.Error} (hstops : Stops source limit s e) :
    Leads source limit (n + 1) s (.error e) post := by
  intro m hrests
  rcases hstops m hrests with ⟨hactive, m', hadvance⟩
  refine ⟨1, Nat.succ_le_succ (Nat.zero_le n), m', fun more => ?_⟩
  rw [Nat.add_comm]
  exact Machine.run_of_failure hactive hadvance

theorem Leads.bind {f : α → Except Rebuilding.Error β} {post' : β → Site → Prop}
    (h : Leads source limit n s x post)
    (hf : ∀ a s', x = .ok a → post a s' → Leads source limit k s' (f a) post') :
    Leads source limit (n + k) s (x.bind f) post' := by
  intro m hrests
  rcases h m hrests with ⟨i, hi, m₁, hfirst⟩
  cases x with
  | error e =>
      exact ⟨i, Nat.le_trans hi (Nat.le_add_right n k), m₁, hfirst⟩
  | ok a =>
      rcases hfirst with ⟨⟨s₁, h₁, hpost⟩, hfirst⟩
      rcases hf a s₁ rfl hpost m₁ h₁ with ⟨j, hj, m', hsecond⟩
      -- The rounds that the first part leaves over are those of the second part.
      have hrun : ∀ more, Machine.run Piece.grammar source .expression (i + j + more) m =
          Machine.run Piece.grammar source .expression (j + more) m₁ := by
        intro more
        calc Machine.run Piece.grammar source .expression (i + j + more) m
            = Machine.run Piece.grammar source .expression (i + (j + more)) m := by
              rw [Nat.add_assoc]
          _ = Machine.run Piece.grammar source .expression (j + more) m₁ := hfirst (j + more)
      refine ⟨i + j, Nat.add_le_add hi hj, m', ?_⟩
      rw [show (Except.ok a).bind f = f a from rfl]
      cases hx : f a with
      | ok b =>
          rw [hx] at hsecond
          exact ⟨hsecond.1, fun more => (hrun more).trans (hsecond.2 more)⟩
      | error e =>
          rw [hx] at hsecond
          exact fun more => (hrun more).trans (hsecond more)

theorem Leads.map {f : α → β} {post' : β → Site → Prop} (h : Leads source limit n s x post)
    (hf : ∀ a s', post a s' → Leads source limit k s' (.ok (f a)) post') :
    Leads source limit (n + k) s (x.map f) post' := by
  have hmap : x.map f = x.bind fun a => .ok (f a) := by cases x <;> rfl
  rw [hmap]
  exact h.bind fun a s' _ hpost => hf a s' hpost

end Leads

end Site
end Calculator
end FeatureTree
