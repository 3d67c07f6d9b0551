import FeatureTree.Proofs.Feature.Images
import FeatureTree.Proofs.Reading.Iterations

/-!
# Images — reading under another grammar or another limit

A map between grammars (`Grammar.Hom`) maps features and worlds so that every call commutes with it.  It
maps states of the machine to states, also under a larger limit, and then it maps whole runs:
`run_agrees` says that a run that the smaller limit does not stop has its image under the larger one.
-/

namespace FeatureTree
namespace Reading

variable {D F F' K V Key W W' : Type} {Entry : Key → Type}

/-- Maps of features and worlds that every call of a grammar respects. -/
structure Grammar.Hom (g : Grammar D F K V Entry W) (g' : Grammar D F' K V Entry W') where
  feature : F → F'
  world : W → W'
  dispatch : ∀ rule cx (s : Scene K V Entry W), g'.dispatch rule cx (s.mapWorld world) =
    ((g.dispatch rule cx s).1.map feature, (g.dispatch rule cx s).2.1,
      world (g.dispatch rule cx s).2.2)
  handle : ∀ f cx c (s : Scene K V Entry W), g'.handle (feature f) cx c (s.mapWorld world) =
    mapResult (Scene.mapWorld world) (fun answer => (feature answer.1, answer.2)) (g.handle f cx c s)
  exit : ∀ f cx (s : Scene K V Entry W), g'.exit (feature f) cx (s.mapWorld world) =
    mapResult (Scene.mapWorld world) id (g.exit f cx s)

/-- Every grammar is its own image. -/
def Grammar.Hom.refl (g : Grammar D F K V Entry W) : g.Hom g where
  feature := id
  world := id
  dispatch _ _ _ := by simp [Scene.mapWorld]
  handle f cx c s := by
    have hmap : ∀ r : EStateM.Result Error (Scene K V Entry W) (F × Step (Redirect D)),
        r = mapResult (Scene.mapWorld id) (fun answer => (id answer.1, answer.2)) r := by
      intro r
      cases r <;> rfl
    exact hmap _
  exit f cx s := by
    have hmap : ∀ r : EStateM.Result Error (Scene K V Entry W) Unit,
        r = mapResult (Scene.mapWorld id) id r := by
      intro r
      cases r <;> rfl
    exact hmap _

namespace Machine

variable {g : Grammar D F K V Entry W} {g' : Grammar D F' K V Entry W'}

/-! ## Images of states -/

def mapFrame (f : F → F') (frame : Frame F Entry) : Frame F' Entry where
  feature := f frame.feature
  ancestor := frame.ancestor
  bag := frame.bag

def mapCandidates (f : F → F') (group : Candidates F Entry) : Candidates F' Entry where
  features := group.features.map f
  ancestor := group.ancestor
  bag := group.bag

/-- The image of a state, under another limit. -/
def image (h : g.Hom g') (limit : Nat) (m : Machine F K V Entry W) :
    Machine F' K V Entry W' where
  tree := m.tree
  world := h.world m.world
  stack := m.stack.image (mapFrame h.feature) limit
  waiting := m.waiting.map (mapCandidates h.feature)
  offset := m.offset
  bags := m.bags

/-- The run was stopped by its limit, which the other run has room beyond. -/
def Stopped (limit limit' : Nat) (e : Error) : Prop :=
  e = .violation (.depthExceeded limit) ∧ limit < limit'

/-! ## Images of calls -/

variable (h : g.Hom g') {text : SourceText} {start : D} {c : Char} {limit limit' : Nat}
variable {m : Machine F K V Entry W}

theorem propose_image (rule : D) (ancestor : NodeId) :
    (m.image h limit').propose g' text rule ancestor =
      (mapCandidates h.feature (m.propose g text rule ancestor).1,
        (m.propose g text rule ancestor).2.image h limit') := by
  have hdispatch := h.dispatch rule ⟨text, ancestor, m.offset⟩ ⟨m.tree, Bag.empty m.bags, m.world⟩
  simp only [Scene.mapWorld] at hdispatch
  simp only [propose, image, hdispatch, mapCandidates]

theorem ask_image (feature : F) (ancestor : NodeId) (bag : Bag Key Entry) :
    ask g' text (h.feature feature) ancestor bag c (m.image h limit') =
      mapResult (image h limit') (fun answer => (mapFrame h.feature answer.1, answer.2))
        (ask g text feature ancestor bag c m) := by
  obtain ⟨tree, world, stack, waiting, offset, bags⟩ := m
  have hhandle := h.handle feature ⟨text, ancestor, offset⟩ c ⟨tree, bag, world⟩
  simp only [Scene.mapWorld] at hhandle
  simp only [ask, image, hhandle]
  rcases g.handle feature ⟨text, ancestor, offset⟩ c ⟨tree, bag, world⟩ with ⟨answer, s⟩ | ⟨e, s⟩
  · rfl
  · rfl

theorem releaseTop_image : releaseTop g' text (m.image h limit') =
    mapResult (image h limit') id (releaseTop g text m) := by
  obtain ⟨tree, world, stack, waiting, offset, bags⟩ := m
  simp only [releaseTop, image, Stack.pop?_image]
  rcases stack.pop? with _ | ⟨frame, rest⟩
  · rfl
  · have hexit := h.exit frame.feature ⟨text, frame.ancestor, offset⟩ ⟨tree, frame.bag, world⟩
    simp only [Scene.mapWorld] at hexit
    simp only [Option.map_some, mapFrame, hexit]
    rcases g.exit frame.feature ⟨text, frame.ancestor, offset⟩ ⟨tree, frame.bag, world⟩ with
      ⟨_, s⟩ | ⟨e, s⟩
    · rfl
    · rfl

theorem redirect_image (target : Redirect D) (ancestor : NodeId) :
    redirect g' text target ancestor (m.image h limit') =
      mapResult (image h limit') id (redirect g text target ancestor m) := by
  simp only [redirect, propose_image]
  by_cases hknown : m.tree.contains (target.ancestor.getD ancestor) = true
  · simp only [image, hknown, if_true]
    rfl
  · simp only [image, hknown]
    rfl

theorem follow_image (step : Step (Redirect D)) (ancestor : NodeId) :
    follow g' text step ancestor (m.image h limit') =
      mapResult (image h limit') id (follow g text step ancestor m) := by
  cases step with
  | proceed => rfl
  | decline => exact releaseTop_image h
  | redirect target => exact redirect_image h target ancestor

/-- A push agrees, unless there is no room for it under the smaller limit. -/
theorem push_agrees {frame : Frame F Entry} (hmax : m.stack.maxDepth = limit)
    (hlimit : limit ≤ limit') :
    Agrees (Stopped limit limit') (image h limit') id (push frame m)
      (push (mapFrame h.feature frame) (m.image h limit')) := by
  rcases Nat.lt_or_ge m.stack.depth limit with hroom | hfull
  · have hpush : ¬ m.stack.maxDepth ≤ m.stack.depth := by omega
    have hpush' : ¬ limit' ≤ m.stack.depth := by omega
    refine .inl ?_
    simp only [push, Stack.push, hpush, image, Stack.depth_image, if_false]
    simp only [Stack.image, hpush', if_false]
    rfl
  · have hpush : limit ≤ m.stack.depth := hfull
    rcases Nat.lt_or_eq_of_le hlimit with hlt | rfl
    · exact .inr ⟨_, m, ⟨rfl, hlt⟩, by simp only [push, Stack.push, hmax, hpush, if_true]⟩
    · refine .inl ?_
      simp only [push, Stack.push, hmax, hpush, image, Stack.depth_image, if_true]
      simp only [Stack.image, hpush, if_true]
      rfl

/-! ## Images of rounds -/

theorem offer_agrees {ancestor : NodeId} {features : List F} {bag : Bag Key Entry}
    (hmax : m.stack.maxDepth = limit) (hlimit : limit ≤ limit') :
    Agrees (Stopped limit limit') (image h limit') id (offer g text c ancestor features bag m)
      (offer g' text c ancestor (features.map h.feature) bag (m.image h limit')) := by
  -- By induction on the candidates: those that refuse leave the stack alone.
  induction features generalizing bag m with
  | nil => exact .inl rfl
  | cons feature rest ih =>
      refine Agrees.bind (v := fun answer => (mapFrame h.feature answer.1, answer.2))
        (.inl (ask_image h feature ancestor bag)) ?_
      rintro ⟨frame, step⟩ m₁ hask
      have hmax₁ : m₁.stack.maxDepth = limit := by rw [(ask_control hask).1, hmax]
      by_cases hclaims : step.claims
      · simp only [hclaims, if_true]
        refine Agrees.bind (v := id) (push_agrees h hmax₁ hlimit) ?_
        intro _ m₂ _
        exact .inl (follow_image h step ancestor)
      · simp only [hclaims]
        exact ih hmax₁

theorem stepTop_image : stepTop g' text c (m.image h limit') =
    mapResult (image h limit') id (stepTop g text c m) := by
  have htop : (m.image h limit').stack.top? = m.stack.top?.map (mapFrame h.feature) :=
    Stack.top?_image _ _ _
  unfold stepTop
  rw [htop]
  rcases m.stack.top? with _ | top
  · rfl
  · have hask : ask g' text (mapFrame h.feature top).feature (mapFrame h.feature top).ancestor
        (mapFrame h.feature top).bag c (m.image h limit') = _ :=
      ask_image h top.feature top.ancestor top.bag
    simp only [Option.map_some, hask]
    rcases ask g text top.feature top.ancestor top.bag c m with ⟨⟨frame, step⟩, m₁⟩ | ⟨e, m₁⟩
    · have hset : { m₁.image h limit' with
          stack := (m₁.image h limit').stack.setTop (mapFrame h.feature frame) } =
          ({ m₁ with stack := m₁.stack.setTop frame } : Machine F K V Entry W).image h limit' := by
        simp only [image, Stack.setTop_image]
      simp only [mapResult, hset]
      exact follow_image h step frame.ancestor
    · rfl

theorem advance_agrees (text : SourceText) (start : D) (c : Char) (hmax : m.stack.maxDepth = limit)
    (hlimit : limit ≤ limit') :
    Agrees (Stopped limit limit') (image h limit') id (advance g text start c m)
      (advance g' text start c (m.image h limit')) := by
  unfold advance
  rcases hwaiting : m.waiting with _ | group
  · have hidle : (m.image h limit').waiting = none := by rw [image, hwaiting]; rfl
    have hempty : (m.image h limit').stack.isEmpty = m.stack.isEmpty := Stack.isEmpty_image _ _ _
    rw [hidle, hempty]
    dsimp only
    by_cases hnone : m.stack.isEmpty = true
    · rw [if_pos hnone, if_pos hnone, propose_image]
      exact offer_agrees h (m := { (m.propose g text start Tree.root).2 with waiting := none })
        hmax hlimit
    · rw [if_neg hnone, if_neg hnone]
      exact .inl (stepTop_image h)
  · have hgroup : (m.image h limit').waiting = some (mapCandidates h.feature group) := by
      rw [image, hwaiting]
      rfl
    rw [hgroup]
    exact offer_agrees h (m := { m with waiting := none }) hmax hlimit

/-! ## Images of runs -/

theorem releaseEach_image (frames : List (FrameId × Frame F Entry)) :
    releaseEach g' text (frames.map fun entry => (entry.1, mapFrame h.feature entry.2))
        (m.image h limit') =
      mapResult (image h limit') id (releaseEach g text frames m) := by
  induction frames generalizing m with
  | nil => rfl
  | cons entry rest ih =>
      simp only [releaseEach, List.map_cons, bind, EStateM.bind, releaseTop_image]
      rcases releaseTop g text m with ⟨_, m'⟩ | ⟨e, m'⟩
      · exact ih
      · rfl

theorem run_agrees (text : SourceText) (start : D) (hfits : Fits limit m) (hlimit : limit ≤ limit') :
    Agrees (Stopped limit limit') (image h limit') id (run g text start m)
      (run g' text start (m.image h limit')) := by
  -- By induction on the rounds that are left.
  induction hdebt : m.debt text using Nat.strongRecOn generalizing m with
  | ind debt ih =>
      rcases hc : text.char? m.offset with _ | c
      · rw [run_of_end hc, run_of_end (m := m.image h limit') hc]
        exact .inl (releaseEach_image h m.stack.frames)
      · rw [run_of_char hc, run_of_char (m := m.image h limit') hc]
        rcases advance_agrees h text start c hfits.maxDepth hlimit with hagree | ⟨e, s, he, hs⟩
        · rw [hagree]
          rcases hround : advance g text start c m with ⟨⟨⟩, next⟩ | ⟨e, failed⟩
          · have hnext := hfits.advance hround
            have hless := debt_lt hfits hnext
              (advance_progress (Array.getElem?_eq_some_iff.1 hc).1 hround)
            exact ih _ (hdebt ▸ hless) hnext rfl
          · exact .inl rfl
        · rw [hs]
          exact .inr ⟨e, s, he, rfl⟩

end Machine

/-! ## Images of readers -/

namespace Reader

variable {g : Grammar D F K V Entry W} {g' : Grammar D F' K V Entry W'}

/-- The image of a reader, under another limit. -/
def image (h : g.Hom g') (limit : Nat) (r : Reader D F K V Entry W) : Reader D F' K V Entry W' where
  grammar := g'
  start := r.start
  text := r.text
  machine := r.machine.image h limit
  status := r.status

/-- A reader of the image grammar under another limit does what the reader of the grammar does, unless
the smaller limit stops the latter. -/
theorem read_agrees (h : g.Hom g') {r : Reader D F K V Entry W} (hgrammar : r.grammar = g)
    {limit limit' : Nat} (hfits : r.status = .ready → Machine.Fits limit r.machine)
    (hlimit : limit ≤ limit') :
    (r.image h limit').read = (r.read.1, r.read.2.image h limit') ∨
      limit < limit' ∧ r.read.1 = .error (.violation (.depthExceeded limit)) := by
  obtain ⟨grammar, start, text, machine, status⟩ := r
  obtain rfl : grammar = g := hgrammar
  cases status with
  | done => exact .inl rfl
  | failed => exact .inl rfl
  | ready =>
      simp only [read, image]
      rcases Machine.run_agrees h text start (hfits rfl) hlimit with
        himage | ⟨e, m, ⟨rfl, hlt⟩, hstopped⟩
      · rw [himage]
        rcases machine.run grammar text start with ⟨_, m⟩ | ⟨e, m⟩
        · exact .inl rfl
        · exact .inl rfl
      · rw [hstopped]
        exact .inr ⟨hlt, rfl⟩

/-- Under the same limit a reader of the image grammar does the same. -/
theorem read_image (h : g.Hom g') {r : Reader D F K V Entry W} (hgrammar : r.grammar = g)
    {limit : Nat} (hfits : r.status = .ready → Machine.Fits limit r.machine) :
    (r.image h limit).read = (r.read.1, r.read.2.image h limit) := by
  rcases read_agrees h hgrammar hfits (Nat.le_refl limit) with himage | ⟨hlt, -⟩
  · exact himage
  · exact absurd hlt (Nat.lt_irrefl _)

end Reader

end Reading
end FeatureTree
