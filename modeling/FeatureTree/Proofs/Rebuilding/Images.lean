import FeatureTree.Proofs.Feature.Images
import FeatureTree.Proofs.Rebuilding.Runs

/-!
# Images — rebuilding under another grammar or another limit

A map between grammars (`Grammar.Hom`) maps features and worlds so that every call commutes with it.  It
maps states of the machine to states, also under a larger limit, and then it maps whole runs:
`run_agrees` says that a run that the smaller limit does not stop has its image under the larger one.

The limit is looked at in two places, when a candidate becomes active and when a region is opened.  The
index of the region is recorded before the latter; no run goes on from there when it fails.
-/

namespace FeatureTree
namespace Rebuilding

variable {D F F' I J K V Key W W' : Type} {Entry : Key → Type}

/-- Maps of features and worlds that every call of a grammar respects. -/
structure Grammar.Hom (g : Grammar D F I J K V Entry W) (g' : Grammar D F' I J K V Entry W') where
  feature : F → F'
  world : W → W'
  dispatch : ∀ rule cx node (s : Scene K V Entry W), g'.dispatch rule cx node (s.mapWorld world) =
    ((g.dispatch rule cx node s).1.map feature, (g.dispatch rule cx node s).2.1,
      world (g.dispatch rule cx node s).2.2)
  handle : ∀ f cx node (s : Scene K V Entry W), g'.handle (feature f) cx node (s.mapWorld world) =
    mapResult (Scene.mapWorld world) (fun answer => (feature answer.1, answer.2))
      (g.handle f cx node s)
  exit : ∀ f cx (s : Scene K V Entry W), g'.exit (feature f) cx (s.mapWorld world) =
    mapResult (Scene.mapWorld world) id (g.exit f cx s)

/-- Every grammar is its own image. -/
def Grammar.Hom.refl (g : Grammar D F I J K V Entry W) : g.Hom g where
  feature := id
  world := id
  dispatch _ _ _ _ := by simp [Scene.mapWorld]
  handle f cx node s := by
    have hmap : ∀ r : EStateM.Result Error (Scene K V Entry W) (F × Step (Redirect D)),
        r = mapResult (Scene.mapWorld id) (fun answer => (id answer.1, answer.2)) r := by
      intro r
      cases r <;> rfl
    exact hmap _
  exit f cx s := by
    have hmap : ∀ r : EStateM.Result Error (Scene K V Entry W) Unit,
        r = mapResult (Scene.mapWorld id) id r := by
      intro r
      cases r <;> rfl
    exact hmap _

namespace Machine

/-! ## The limit holds in every round -/

section Limits

variable {g : Grammar D F I J K V Entry W} {source : Tree I J} {start : D} {limit : Nat}
variable {m m' : Machine D F K V Entry W}

/-- The machine has this limit, and no more frames are active. -/
structure Fits (limit : Nat) (m : Machine D F K V Entry W) : Prop where
  maxDepth : m.stack.maxDepth = limit
  depth : m.stack.depth ≤ limit

theorem fits_initial (root : Node K V) (world : W) (limits : Limits) :
    Fits limits.maxDepth (Machine.initial root world limits : Machine D F K V Entry W) :=
  ⟨rfl, Nat.zero_le _⟩

theorem Fits.of_stack (h : Fits limit m) (hstack : m'.stack = m.stack) : Fits limit m' :=
  ⟨hstack ▸ h.maxDepth, hstack ▸ h.depth⟩

theorem Fits.push {frame : Frame D F Entry} (h : Fits limit m)
    (hpush : m.stack.push frame = .ok m'.stack) : Fits limit m' := by
  obtain ⟨hdepth, hroom, hmax⟩ := Stack.depth_push hpush
  rw [h.maxDepth] at hroom hmax
  exact ⟨hmax, hdepth ▸ hroom⟩

theorem Fits.released {id : FrameId} {frame : Frame D F Entry}
    {rest : List (FrameId × Frame D F Entry)} (h : Fits limit m)
    (hreleased : Released m m' id frame rest) : Fits limit m' := by
  have hdepth := h.depth
  rw [Stack.depth, hreleased.frames, List.length_cons] at hdepth
  refine ⟨by rw [hreleased.stack]; exact h.maxDepth, ?_⟩
  rw [Stack.depth, hreleased.stack]
  exact Nat.le_of_succ_le hdepth

theorem Fits.followed {input : NodeId} (h : Fits limit m) (hfollowed : Followed input m m') :
    Fits limit m' := by
  cases hfollowed with
  | proceeded stack _ _ => exact h.of_stack stack
  | declined _ _ _ released => exact h.released released
  | offered _ stack _ _ _ => exact h.of_stack stack
  | descended _ _ _ _ stack _ _ => exact h.push stack

theorem Fits.releaseWhile {input : NodeId} {frames : List (FrameId × Frame D F Entry)} :
    Fits limit m → m.stack.frames = frames → releaseWhile g source input frames m = .ok () m' →
      Fits limit m' := by
  induction frames generalizing m with
  | nil =>
      rintro h - ⟨⟩
      exact h
  | cons entry rest ih =>
      intro h hframes hrelease
      rcases releaseWhile_cons hframes hrelease with ⟨-, between, hreleased, hrest⟩ | ⟨-, rfl⟩
      · exact ih (h.released hreleased) (by rw [hreleased.stack]) hrest
      · exact h

theorem Fits.advance (h : Fits limit m) (hsound : Sound m)
    (hround : advance g source start m = .ok () m') : Fits limit m' := by
  cases advance_turn hsound hround with
  | exhausted g past released =>
      exact Fits.releaseWhile (m := { m with waiting := none }) ⟨h.maxDepth, h.depth⟩ rfl released
  | claimed _ _ _ between stack _ _ followed => exact (h.push stack).followed followed
  | proposed _ stack _ _ _ => exact h.of_stack stack
  | answered feature bag top rest between frames _ stack _ _ _ followed =>
      refine Fits.followed ⟨by rw [stack]; exact h.maxDepth, ?_⟩ followed
      have hdepth := h.depth
      rw [Stack.depth, frames] at hdepth
      rw [Stack.depth, stack]
      exact hdepth

/-- A run that is cut off stops in a state that a run can start from. -/
theorem Fits.run (h : Fits limit m) (hsound : Sound m) {rounds : Nat} :
    run g source start rounds m = (.unfinished, m') → Sound m' ∧ Fits limit m' := by
  induction rounds generalizing m with
  | zero =>
      intro hrun
      simp only [Machine.run, Prod.mk.injEq] at hrun
      rcases hrun with ⟨-, rfl⟩
      exact ⟨hsound, h⟩
  | succ rounds ih =>
      intro hrun
      simp only [Machine.run] at hrun
      split at hrun
      · cases hrun
      · split at hrun
        · next next hround =>
            exact ih (h.advance hsound hround) ((advance_turn hsound hround).sound hsound) hrun
        · cases hrun

end Limits

variable {g : Grammar D F I J K V Entry W} {g' : Grammar D F' I J K V Entry W'}

/-! ## Images of states -/

def mapHandler (f : F → F') : Handler D F Entry → Handler D F' Entry
  | .feature feature bag => .feature (f feature) bag
  | .region rule => .region rule

def mapFrame (f : F → F') (frame : Frame D F Entry) : Frame D F' Entry where
  handler := mapHandler f frame.handler
  input := frame.input
  output := frame.output

def mapCandidates (f : F → F') (group : Candidates F Entry) : Candidates F' Entry where
  features := group.features.map f
  input := group.input
  output := group.output
  bag := group.bag

/-- The image of a state, under another limit. -/
def image (h : g.Hom g') (limit : Nat) (m : Machine D F K V Entry W) :
    Machine D F' K V Entry W' where
  tree := m.tree
  world := h.world m.world
  stack := m.stack.image (mapFrame h.feature) limit
  waiting := m.waiting.map (mapCandidates h.feature)
  cursors := m.cursors
  bags := m.bags

/-- The run was stopped by its limit, which the other run has room beyond. -/
def Stopped (limit limit' : Nat) (e : Error) : Prop :=
  e = .violation (.depthExceeded limit) ∧ limit < limit'

section Images

variable (h : g.Hom g') {source : Tree I J} {start : D} {limit limit' : Nat} {node : NodeId}
variable {m : Machine D F K V Entry W}

@[simp] theorem input_image : (m.image h limit').input = m.input := by
  have htop : (m.image h limit').stack.top? = m.stack.top?.map (mapFrame h.feature) :=
    Stack.top?_image _ _ _
  unfold input
  rw [htop]
  rcases m.stack.top? with _ | frame
  · rfl
  · rfl

@[simp] theorem index_image : (m.image h limit').index = m.index := by
  rw [index, index, input_image]
  rfl

@[simp] theorem node?_image : (m.image h limit').node? source = m.node? source := by
  rw [node?, node?, input_image, index_image]

@[simp] theorem isFinished_image : (m.image h limit').isFinished source = m.isFinished source := by
  rw [isFinished, isFinished, node?_image]
  exact congrArg _ (Stack.isEmpty_image _ _ _)

theorem ascend_image (input : NodeId) :
    ascend input (m.image h limit') = (ascend input m).image h limit' := by
  unfold ascend
  rw [input_image]
  split
  · rfl
  · rfl

/-! ## Images of calls -/

theorem propose_image (rule : D) (input output node : NodeId) :
    (m.image h limit').propose g' source rule input output node =
      (mapCandidates h.feature (m.propose g source rule input output node).1,
        (m.propose g source rule input output node).2.image h limit') := by
  have hdispatch := h.dispatch rule ⟨source, input, output, m.cursors.index input⟩ node
    ⟨m.tree, Bag.empty m.bags, m.world⟩
  simp only [Scene.mapWorld] at hdispatch
  simp only [propose, image, hdispatch, mapCandidates]

theorem ask_image (feature : F) (cx : Context I J) (bag : Bag Key Entry) :
    ask g' (h.feature feature) cx bag node (m.image h limit') =
      mapResult (image h limit') (fun answer => (h.feature answer.1, answer.2))
        (ask g feature cx bag node m) := by
  obtain ⟨tree, world, stack, waiting, cursors, bags⟩ := m
  have hhandle := h.handle feature cx node ⟨tree, bag, world⟩
  simp only [Scene.mapWorld] at hhandle
  simp only [ask, image, hhandle]
  rcases g.handle feature cx node ⟨tree, bag, world⟩ with ⟨answer, s⟩ | ⟨e, s⟩
  · rfl
  · rfl

theorem finish_image (feature : F) (bag : Bag Key Entry) (input output : NodeId) :
    finish g' source (h.feature feature) bag input output (m.image h limit') =
      mapResult (image h limit') id (finish g source feature bag input output m) := by
  obtain ⟨tree, world, stack, waiting, cursors, bags⟩ := m
  have hexit := h.exit feature ⟨source, input, output, cursors.index input⟩ ⟨tree, bag, world⟩
  simp only [Scene.mapWorld] at hexit
  simp only [finish, image, hexit]
  rcases g.exit feature ⟨source, input, output, cursors.index input⟩ ⟨tree, bag, world⟩ with
    ⟨_, s⟩ | ⟨e, s⟩
  · rfl
  · rfl

theorem releaseTop_image : releaseTop g' source (m.image h limit') =
    mapResult (image h limit') id (releaseTop g source m) := by
  have hpop : (m.image h limit').stack.pop? = m.stack.pop?.map fun found =>
      (mapFrame h.feature found.1, found.2.image (mapFrame h.feature) limit') := Stack.pop?_image _ _ _
  rcases hframe : m.stack.pop? with _ | ⟨⟨handler, input, output⟩, rest⟩
  · rw [hframe] at hpop
    simp only [releaseTop, hframe, hpop, Option.map_none]
    rfl
  · rw [hframe] at hpop
    cases handler with
    | region rule =>
        simp only [releaseTop, hframe, hpop, Option.map_some, mapFrame, mapHandler]
        exact congrArg (EStateM.Result.ok ()) (ascend_image h (m := { m with stack := rest }) input)
    | feature feature bag =>
        have hfinish : finish g' source (h.feature feature) bag input output { m.image h limit' with
            stack := rest.image (mapFrame h.feature) limit' } = _ :=
          finish_image h (m := { m with stack := rest }) feature bag input output
        simp only [releaseTop, hframe, hpop, Option.map_some, mapFrame, mapHandler, hfinish]
        rcases finish g source feature bag input output { m with stack := rest } with
          ⟨_, m'⟩ | ⟨e, m'⟩
        · exact congrArg (EStateM.Result.ok ()) (ascend_image h input)
        · rfl

/-! ## Where the limit matters -/

/-- A push agrees, unless there is no room for it under the smaller limit. -/
theorem push_agrees {frame : Frame D F Entry} (hmax : m.stack.maxDepth = limit)
    (hlimit : limit ≤ limit') :
    Agrees (Stopped limit limit') (image h limit') id (push frame m)
      (push (mapFrame h.feature frame) (m.image h limit')) := by
  rcases Nat.lt_or_ge m.stack.depth limit with hroom | hfull
  · have hpush : ¬ m.stack.maxDepth ≤ m.stack.depth := by omega
    have hpush' : ¬ limit' ≤ m.stack.depth := by omega
    refine .inl ?_
    simp only [push, Stack.push, hpush, image, Stack.depth_image, if_false]
    simp only [Stack.image, hpush', if_false]
    rfl
  · have hpush : limit ≤ m.stack.depth := hfull
    rcases Nat.lt_or_eq_of_le hlimit with hlt | rfl
    · exact .inr ⟨_, m, ⟨rfl, hlt⟩, by simp only [push, Stack.push, hmax, hpush, if_true]⟩
    · refine .inl ?_
      simp only [push, Stack.push, hmax, hpush, image, Stack.depth_image, if_true]
      simp only [Stack.image, hpush, if_true]
      rfl

theorem descend_agrees {target : Redirect D} {nested : NodeId} (hmax : m.stack.maxDepth = limit)
    (hlimit : limit ≤ limit') :
    Agrees (Stopped limit limit') (image h limit') id (descend source target nested m)
      (descend source target nested (m.image h limit')) := by
  unfold descend
  split
  · exact .inl rfl
  · next node hget =>
      by_cases hparent : node.isParent = true
      · rw [if_pos hparent, if_pos hparent]
        exact push_agrees h hmax hlimit
          (m := { m with
            cursors := m.cursors.set nested (target.start.getD (m.cursors.index nested)) })
      · rw [if_neg hparent, if_neg hparent]
        exact .inl rfl

theorem redirect_agrees {target : Redirect D} {input : NodeId} (hmax : m.stack.maxDepth = limit)
    (hlimit : limit ≤ limit') :
    Agrees (Stopped limit limit') (image h limit') id (redirect g source target input node m)
      (redirect g' source target input node (m.image h limit')) := by
  simp only [redirect, propose_image]
  by_cases hknown : m.tree.contains target.output = true
  · have hknown' : (m.image h limit').tree.contains target.output = true := hknown
    rw [if_pos hknown, if_pos hknown']
    by_cases hsame : target.input.getD input = input
    · rw [if_pos hsame, if_pos hsame]
      exact .inl rfl
    · rw [if_neg hsame, if_neg hsame]
      exact descend_agrees h hmax hlimit
  · have hknown' : ¬ (m.image h limit').tree.contains target.output = true := hknown
    rw [if_neg hknown, if_neg hknown']
    exact .inl rfl

theorem follow_agrees {step : Step (Redirect D)} {input : NodeId} (hmax : m.stack.maxDepth = limit)
    (hlimit : limit ≤ limit') :
    Agrees (Stopped limit limit') (image h limit') id (follow g source step input node m)
      (follow g' source step input node (m.image h limit')) := by
  cases step with
  | proceed => exact .inl rfl
  | decline => exact .inl (releaseTop_image h)
  | redirect target => exact redirect_agrees h hmax hlimit

/-! ## Images of rounds -/

theorem offer_agrees {cx : Context I J} {features : List F} {bag : Bag Key Entry}
    (hmax : m.stack.maxDepth = limit) (hlimit : limit ≤ limit') :
    Agrees (Stopped limit limit') (image h limit') id (offer g source cx node features bag m)
      (offer g' source cx node (features.map h.feature) bag (m.image h limit')) := by
  -- By induction on the candidates: those that refuse leave the stack alone.
  induction features generalizing bag m with
  | nil => exact .inl rfl
  | cons feature rest ih =>
      refine Agrees.bind (v := fun answer => (h.feature answer.1, answer.2))
        (.inl (ask_image h feature cx bag)) ?_
      rintro ⟨feature, bag, step⟩ m₁ hask
      have hmax₁ : m₁.stack.maxDepth = limit := by rw [(ask_control hask).1, hmax]
      by_cases hclaims : step.claims
      · simp only [hclaims, if_true]
        refine Agrees.bind (v := id) (push_agrees h hmax₁ hlimit) ?_
        intro _ m₂ hpush
        have hmax₂ := (Stack.depth_push (push_control hpush).1).2.2
        exact follow_agrees h (hmax₂.trans hmax₁) hlimit
      · simp only [hclaims]
        exact ih hmax₁

theorem stepTop_agrees (hmax : m.stack.maxDepth = limit) (hlimit : limit ≤ limit') :
    Agrees (Stopped limit limit') (image h limit') id (stepTop g source node m)
      (stepTop g' source node (m.image h limit')) := by
  have htop : (m.image h limit').stack.top? = m.stack.top?.map (mapFrame h.feature) :=
    Stack.top?_image _ _ _
  unfold stepTop
  rw [htop]
  rcases m.stack.top? with _ | ⟨handler, input, output⟩
  · exact .inl rfl
  · cases handler with
    | region rule =>
        simp only [Option.map_some, mapFrame, mapHandler, propose_image]
        exact .inl rfl
    | feature feature bag =>
        have hask : ask g' (h.feature feature) ⟨source, input, output, m.cursors.index input⟩ bag
            node (m.image h limit') = _ := ask_image h feature _ bag
        have hcursors : (m.image h limit').cursors = m.cursors := rfl
        simp only [Option.map_some, mapFrame, mapHandler, hcursors, hask]
        rcases hresult : ask g feature ⟨source, input, output, m.cursors.index input⟩ bag node m with
          ⟨⟨feature, bag, step⟩, m₁⟩ | ⟨e, m₁⟩
        · let frame : Frame D F Entry := ⟨.feature feature bag, input, output⟩
          have hset : { m₁.image h limit' with
              stack := (m₁.image h limit').stack.setTop (mapFrame h.feature frame) } =
              ({ m₁ with stack := m₁.stack.setTop frame } :
                Machine D F K V Entry W).image h limit' := by
            simp only [image, Stack.setTop_image]
          have hmax₁ : (m₁.stack.setTop frame).maxDepth = limit := by
            rw [Stack.maxDepth_setTop, (ask_control hresult).1]
            exact hmax
          have hfollow : Agrees (Stopped limit limit') (image h limit') id
              (follow g source step input node { m₁ with stack := m₁.stack.setTop frame }) _ :=
            follow_agrees h hmax₁ hlimit
          rw [← hset] at hfollow
          exact hfollow
        · exact .inl rfl

theorem releaseWhile_image (input : NodeId) (frames : List (FrameId × Frame D F Entry)) :
    releaseWhile g' source input (frames.map fun entry => (entry.1, mapFrame h.feature entry.2))
        (m.image h limit') =
      mapResult (image h limit') id (releaseWhile g source input frames m) := by
  induction frames generalizing m with
  | nil => rfl
  | cons entry rest ih =>
      obtain ⟨id, frame⟩ := entry
      simp only [releaseWhile, List.map_cons, mapFrame]
      by_cases hinput : frame.input = input
      · rw [if_pos hinput, if_pos hinput]
        simp only [bind, EStateM.bind, releaseTop_image]
        rcases releaseTop g source m with ⟨_, m'⟩ | ⟨e, m'⟩
        · exact ih
        · rfl
      · rw [if_neg hinput, if_neg hinput]
        rfl

theorem offerGroup_agrees (group : Candidates F Entry) (hmax : m.stack.maxDepth = limit)
    (hlimit : limit ≤ limit') :
    Agrees (Stopped limit limit') (image h limit') id (offerGroup g source group node m)
      (offerGroup g' source (mapCandidates h.feature group) node (m.image h limit')) := by
  simp only [offerGroup, index_image]
  exact offer_agrees h (m := { m with waiting := none }) hmax hlimit

theorem advance_agrees (start : D) (hmax : m.stack.maxDepth = limit) (hlimit : limit ≤ limit') :
    Agrees (Stopped limit limit') (image h limit') id (advance g source start m)
      (advance g' source start (m.image h limit')) := by
  unfold advance
  rw [node?_image]
  rcases m.node? source with _ | node
  · dsimp only [releaseInput]
    rw [input_image]
    exact .inl (releaseWhile_image h (m := { m with waiting := none }) m.input m.stack.frames)
  · dsimp only
    rcases hwaiting : m.waiting with _ | group
    · have hidle : (m.image h limit').waiting = none := by rw [image, hwaiting]; rfl
      have hempty : (m.image h limit').stack.isEmpty = m.stack.isEmpty := Stack.isEmpty_image _ _ _
      rw [hidle, hempty]
      dsimp only
      by_cases hnone : m.stack.isEmpty = true
      · rw [if_pos hnone, if_pos hnone, propose_image]
        exact offerGroup_agrees h _ hmax hlimit
      · rw [if_neg hnone, if_neg hnone]
        exact stepTop_agrees h hmax hlimit
    · have hgroup : (m.image h limit').waiting = some (mapCandidates h.feature group) := by
        rw [image, hwaiting]
        rfl
      rw [hgroup]
      exact offerGroup_agrees h group hmax hlimit

/-! ## Images of runs -/

/-- A run of any number of rounds has its image, unless the smaller limit stops it. -/
theorem run_agrees (source : Tree I J) (start : D) (rounds : Nat) (hsound : Sound m)
    (hmax : Fits limit m) (hlimit : limit ≤ limit') :
    let r := run g source start rounds m
    run g' source start rounds (m.image h limit') = (r.1, r.2.image h limit') ∨
      limit < limit' ∧ r.1 = .failure (.violation (.depthExceeded limit)) := by
  induction rounds generalizing m with
  | zero =>
      refine .inl ?_
      simp only [run, isFinished_image]
  | succ rounds ih =>
      simp only [run, isFinished_image]
      by_cases hfinished : m.isFinished source = true
      · rw [if_pos hfinished, if_pos hfinished]
        exact .inl rfl
      · rw [if_neg hfinished, if_neg hfinished]
        rcases advance_agrees h start hmax.maxDepth hlimit with hagree | ⟨e, s, ⟨rfl, hlt⟩, hs⟩
        · rw [hagree]
          rcases hround : advance g source start m with ⟨⟨⟩, next⟩ | ⟨e, failed⟩
          · exact ih ((advance_turn hsound hround).sound hsound) (hmax.advance hsound hround)
          · exact .inl rfl
        · rw [hs]
          exact .inr ⟨hlt, rfl⟩

end Images

end Machine

/-! ## Images of rebuilders -/

namespace Rebuilder

variable {g : Grammar D F I J K V Entry W} {g' : Grammar D F' I J K V Entry W'}

/-- The image of a rebuilder, under another limit. -/
def image (h : g.Hom g') (limit : Nat) (r : Rebuilder D F I J K V Entry W) :
    Rebuilder D F' I J K V Entry W' where
  grammar := g'
  start := r.start
  source := r.source
  rounds := r.rounds
  machine := r.machine.image h limit
  status := r.status

/-- A rebuilder of the image grammar under another limit does what the rebuilder of the grammar does,
unless the smaller limit stops the latter. -/
theorem rebuild_agrees (h : g.Hom g') {r : Rebuilder D F I J K V Entry W} (hgrammar : r.grammar = g)
    {limit limit' : Nat}
    (hready : r.status = .ready → Machine.Sound r.machine ∧ Machine.Fits limit r.machine)
    (hlimit : limit ≤ limit') :
    (r.image h limit').rebuild = (r.rebuild.1, r.rebuild.2.image h limit') ∨
      limit < limit' ∧ r.rebuild.1 = .failure (.violation (.depthExceeded limit)) := by
  obtain ⟨grammar, start, source, rounds, machine, status⟩ := r
  obtain rfl : grammar = g := hgrammar
  cases status with
  | done => exact .inl rfl
  | failed => exact .inl rfl
  | ready =>
      have hrun :=
        Machine.run_agrees h source start rounds (hready rfl).1 (hready rfl).2 hlimit
      simp only [rebuild, image]
      rcases hresult : machine.run grammar source start rounds with ⟨answer, m⟩
      rw [hresult] at hrun
      rcases hrun with himage | ⟨hlt, hstopped⟩
      · rw [himage]
        cases answer with
        | success _ => exact .inl rfl
        | failure e => exact .inl rfl
        | unfinished => exact .inl rfl
      · obtain rfl : answer = .failure (.violation (.depthExceeded limit)) := hstopped
        exact .inr ⟨hlt, rfl⟩

/-- Under the same limit a rebuilder of the image grammar does the same. -/
theorem rebuild_image (h : g.Hom g') {r : Rebuilder D F I J K V Entry W} (hgrammar : r.grammar = g)
    {limit : Nat}
    (hready : r.status = .ready → Machine.Sound r.machine ∧ Machine.Fits limit r.machine) :
    (r.image h limit).rebuild = (r.rebuild.1, r.rebuild.2.image h limit) := by
  rcases rebuild_agrees h hgrammar hready (Nat.le_refl limit) with himage | ⟨hlt, -⟩
  · exact himage
  · exact absurd hlt (Nat.lt_irrefl _)

end Rebuilder

end Rebuilding
end FeatureTree
