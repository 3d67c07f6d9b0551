import FeatureTree.Proofs.Feature.Images
import FeatureTree.Proofs.Rebuilding.Control

/-!
# Upholding — what features keep up, every run keeps up

A property of the output tree that each call of a feature keeps, also a call that fails, holds at the
end of every run.  A call may need to know something about its feature, for instance that a node which
the feature remembers is in the tree; such knowledge must not be lost while the tree grows.

`Grammar.Upholds` collects what has to be shown of a grammar, and `Upheld.run` gives the
property of the tree and of the error for every run, however many rounds it takes.
-/

namespace FeatureTree
namespace Rebuilding

variable {D F I J K V Key W α β : Type} {Entry : Key → Type}

/-! ## Calls -/

/-- What a call leaves behind: the property of the tree, and of the error if there is one.  A call that
succeeds takes no node from the arena. -/
def Leaves (P : Tree K V → Prop) (E : Error → Prop) (size : Nat) (Q : α → Nat → Prop) :
    EStateM.Result Error (Scene K V Entry W) α → Prop
  | .ok a s => P s.tree ∧ size ≤ s.tree.size ∧ Q a s.tree.size
  | .error e s => P s.tree ∧ E e

/-- The grammar keeps `P` of the output tree.  `Valid n f` says what is known of the feature `f` while
the arena has `n` nodes, and `E` says which errors there can be. -/
structure Grammar.Upholds (g : Grammar D F I J K V Entry W) (P : Tree K V → Prop)
    (Valid : Nat → F → Prop) (E : Error → Prop) : Prop where
  grow : ∀ {n n' : Nat} {f : F}, n ≤ n' → Valid n f → Valid n' f
  dispatch : ∀ rule cx node (s : Scene K V Entry W), ∀ f ∈ (g.dispatch rule cx node s).1,
    Valid s.tree.size f
  handle : ∀ f cx node (s : Scene K V Entry W), P s.tree → Valid s.tree.size f →
    cx.output < s.tree.size →
      Leaves P E s.tree.size (fun answer size => Valid size answer.1) (g.handle f cx node s)
  exit : ∀ f cx (s : Scene K V Entry W), P s.tree → Valid s.tree.size f →
    cx.output < s.tree.size → Leaves P E s.tree.size (fun _ _ => True) (g.exit f cx s)
  violation : ∀ v, E (.violation v)
  unclaimed : ∀ node index, E (.unclaimed node index)

namespace Machine

variable {P : Tree K V → Prop} {Valid : Nat → F → Prop} {E : Error → Prop} {n n' : Nat}
variable {g : Grammar D F I J K V Entry W} {source : Tree I J} {start : D}
variable {m m' : Machine D F K V Entry W}

/-! ## States -/

/-- A frame builds under a node of the arena, and its feature is valid. -/
structure Holds (Valid : Nat → F → Prop) (n : Nat) (frame : Frame D F Entry) : Prop where
  output : frame.output < n
  valid : ∀ feature bag, frame.handler = .feature feature bag → Valid n feature

/-- Candidates that wait are to build under a node of the arena, and they are valid. -/
structure Waits (Valid : Nat → F → Prop) (n : Nat) (group : Candidates F Entry) : Prop where
  output : group.output < n
  valid : ∀ feature ∈ group.features, Valid n feature

/-- What holds between two rounds. -/
structure Upheld (P : Tree K V → Prop) (Valid : Nat → F → Prop) (m : Machine D F K V Entry W) :
    Prop where
  tree : P m.tree
  frames : ∀ entry ∈ m.stack.frames, Holds Valid m.tree.size entry.2
  waiting : ∀ group, m.waiting = some group → Waits Valid m.tree.size group

/-- How a step ends: in a state as described, or with a property of tree and error. -/
abbrev Yields (P : Tree K V → Prop) (E : Error → Prop) (Q : α → Machine D F K V Entry W → Prop) :
    EStateM.Result Error (Machine D F K V Entry W) α → Prop :=
  EndsIn (fun e m => P m.tree ∧ E e) Q

section Parts

variable (hg : g.Upholds P Valid E)
include hg

theorem Holds.grow {frame : Frame D F Entry} (h : Holds Valid n frame) (hn : n ≤ n') :
    Holds Valid n' frame :=
  ⟨Nat.lt_of_lt_of_le h.output hn, fun feature bag hhandler =>
    hg.grow hn (h.valid feature bag hhandler)⟩

theorem Waits.grow {group : Candidates F Entry} (h : Waits Valid n group) (hn : n ≤ n') :
    Waits Valid n' group :=
  ⟨Nat.lt_of_lt_of_le h.output hn, fun feature hfeature => hg.grow hn (h.valid feature hfeature)⟩

/-- The tree grows, and the control stays. -/
theorem Upheld.grow (h : Upheld P Valid m) (htree : P m'.tree) (hsize : m.tree.size ≤ m'.tree.size)
    (hstack : m'.stack = m.stack) (hwaiting : m'.waiting = m.waiting) : Upheld P Valid m' := by
  refine ⟨htree, fun entry hentry => ?_, fun group hgroup => ?_⟩
  · rw [hstack] at hentry
    exact (h.frames entry hentry).grow hg hsize
  · rw [hwaiting] at hgroup
    exact (h.waiting group hgroup).grow hg hsize

theorem Upheld.ask {feature : F} (h : Upheld P Valid m) (cx : Context I J) (bag : Bag Key Entry)
    (node : NodeId) (hvalid : Valid m.tree.size feature) (hcx : cx.output < m.tree.size) :
    Yields P E (fun answer m' => Upheld P Valid m' ∧ m.tree.size ≤ m'.tree.size ∧
      m'.stack = m.stack ∧ m'.waiting = m.waiting ∧ Valid m'.tree.size answer.1)
        (ask g feature cx bag node m) := by
  have hcall := hg.handle feature cx node ⟨m.tree, bag, m.world⟩ h.tree hvalid hcx
  simp only [Machine.ask]
  cases hhandle : g.handle feature cx node ⟨m.tree, bag, m.world⟩ with
  | ok answer s =>
      rw [hhandle] at hcall
      exact ⟨h.grow hg hcall.1 hcall.2.1 rfl rfl, hcall.2.1, rfl, rfl, hcall.2.2⟩
  | error e s =>
      rw [hhandle] at hcall
      exact hcall

theorem Upheld.finish {feature : F} {bag : Bag Key Entry} {input output : NodeId}
    (h : Upheld P Valid m) (hvalid : Valid m.tree.size feature) (houtput : output < m.tree.size) :
    Yields P E (fun _ m' => Upheld P Valid m') (finish g source feature bag input output m) := by
  have hcall := hg.exit feature ⟨source, input, output, m.cursors.index input⟩
    ⟨m.tree, bag, m.world⟩ h.tree hvalid houtput
  simp only [Machine.finish]
  cases hexit : g.exit feature ⟨source, input, output, m.cursors.index input⟩
      ⟨m.tree, bag, m.world⟩ with
  | ok _ s =>
      rw [hexit] at hcall
      exact h.grow hg hcall.1 hcall.2.1 rfl rfl
  | error e s =>
      rw [hexit] at hcall
      exact hcall

omit hg in
theorem Upheld.ascend (h : Upheld P Valid m) (input : NodeId) :
    Upheld P Valid (ascend input m) := by
  unfold Machine.ascend
  split
  · exact h
  · exact ⟨h.tree, h.frames, h.waiting⟩

theorem Upheld.push {frame : Frame D F Entry} (h : Upheld P Valid m)
    (hframe : Holds Valid m.tree.size frame) :
    Yields P E (fun _ m' => Upheld P Valid m' ∧ m'.tree = m.tree) (push frame m) := by
  unfold Machine.push
  cases hpush : m.stack.push frame with
  | error v => exact ⟨h.tree, hg.violation v⟩
  | ok stack =>
      refine ⟨⟨h.tree, fun entry hentry => ?_, h.waiting⟩, rfl⟩
      unfold Stack.push at hpush
      split at hpush
      · cases hpush
      · obtain rfl := Except.ok.inj hpush
        rcases List.mem_cons.1 hentry with rfl | hold
        · exact hframe
        · exact h.frames entry hold

theorem Upheld.releaseTop (h : Upheld P Valid m) :
    Yields P E (fun _ m' => Upheld P Valid m') (releaseTop g source m) := by
  unfold Machine.releaseTop
  cases hframes : m.stack.frames with
  | nil =>
      rw [Stack.pop?_of_nil hframes]
      exact h
  | cons entry rest =>
      obtain ⟨id, frame⟩ := entry
      have hframe := h.frames (id, frame) (hframes ▸ List.mem_cons_self)
      have hrest : Upheld P Valid { m with stack := { m.stack with frames := rest } } :=
        ⟨h.tree, fun entry hentry => h.frames entry (hframes ▸ List.mem_cons_of_mem _ hentry),
          h.waiting⟩
      rw [Stack.pop?_of_cons hframes]
      dsimp only
      cases hhandler : frame.handler with
      | region rule => exact hrest.ascend frame.input
      | feature feature bag =>
          have hfinish : Yields P E (fun _ m' => Upheld P Valid m')
              (Machine.finish g source feature bag frame.input frame.output
                { m with stack := { m.stack with frames := rest } }) :=
            hrest.finish hg (hframe.valid feature bag hhandler) hframe.output
          dsimp only
          split
          · next m' hresult =>
              rw [hresult] at hfinish
              exact hfinish.ascend frame.input
          · next e m' hresult =>
              rw [hresult] at hfinish
              exact hfinish

theorem Upheld.propose (h : Upheld P Valid m) (source : Tree I J) (rule : D)
    (input node : NodeId) {output : NodeId} (houtput : output < m.tree.size) :
    Upheld P Valid (m.propose g source rule input output node).2 ∧
      Waits Valid m.tree.size (m.propose g source rule input output node).1 :=
  ⟨⟨h.tree, h.frames, h.waiting⟩, houtput, hg.dispatch rule _ node _⟩

omit hg in
theorem Upheld.wait {group : Candidates F Entry} (h : Upheld P Valid m)
    (hgroup : Waits Valid m.tree.size group) : Upheld P Valid { m with waiting := some group } := by
  refine ⟨h.tree, h.frames, fun other hother => ?_⟩
  obtain rfl := Option.some.inj hother
  exact hgroup

theorem Upheld.descend {target : Redirect D} {nested : NodeId} (h : Upheld P Valid m)
    (houtput : target.output < m.tree.size) :
    Yields P E (fun _ m' => Upheld P Valid m') (descend source target nested m) := by
  unfold Machine.descend
  split
  · exact ⟨h.tree, hg.violation _⟩
  · next inner hget =>
      split
      · refine EndsIn.imp (Upheld.push hg ⟨h.tree, h.frames, h.waiting⟩ ⟨houtput, ?_⟩) ?_
        · exact fun feature bag hhandler => nomatch hhandler
        · exact fun _ _ hpushed => hpushed.1
      · exact ⟨h.tree, hg.violation _⟩

theorem Upheld.redirect {target : Redirect D} {input node : NodeId} (h : Upheld P Valid m) :
    Yields P E (fun _ m' => Upheld P Valid m') (redirect g source target input node m) := by
  unfold Machine.redirect
  split
  · next hknown =>
      have houtput : target.output < m.tree.size := of_decide_eq_true hknown
      dsimp only
      split
      · have hpropose := h.propose hg source target.dispatch input node houtput
        exact hpropose.1.wait hpropose.2
      · exact h.descend hg houtput
  · exact ⟨h.tree, hg.violation _⟩

theorem Upheld.follow {step : Step (Redirect D)} {input node : NodeId} (h : Upheld P Valid m) :
    Yields P E (fun _ m' => Upheld P Valid m') (follow g source step input node m) := by
  cases step with
  | proceed => exact ⟨h.tree, h.frames, h.waiting⟩
  | decline => exact h.releaseTop hg
  | redirect target => exact h.redirect hg

/-- Candidates are asked in order; the first that claims the child becomes active. -/
theorem Upheld.offer {cx : Context I J} {node : NodeId} {features : List F} {bag : Bag Key Entry}
    (h : Upheld P Valid m) (hvalid : ∀ feature ∈ features, Valid m.tree.size feature)
    (hcx : cx.output < m.tree.size) :
    Yields P E (fun _ m' => Upheld P Valid m') (offer g source cx node features bag m) := by
  induction features generalizing bag m with
  | nil => exact ⟨h.tree, hg.unclaimed _ _⟩
  | cons feature rest ih =>
      unfold Machine.offer
      refine (h.ask hg cx bag node (hvalid feature List.mem_cons_self) hcx).bind ?_
      rintro ⟨next, bag', step⟩ m₁ ⟨hasked, hsize, -, -, hnext⟩
      have hcx₁ := Nat.lt_of_lt_of_le hcx hsize
      dsimp only
      split
      · refine (hasked.push hg ⟨hcx₁, ?_⟩).bind fun _ m₂ hpushed => hpushed.1.follow hg
        intro feature' bag'' hhandler
        obtain ⟨rfl, rfl⟩ := Handler.feature.inj hhandler
        exact hnext
      · refine ih hasked (fun other hother => ?_) hcx₁
        exact hg.grow hsize (hvalid other (List.mem_cons_of_mem _ hother))

theorem Upheld.offerGroup {group : Candidates F Entry} {node : NodeId} (h : Upheld P Valid m)
    (hgroup : Waits Valid m.tree.size group) :
    Yields P E (fun _ m' => Upheld P Valid m') (offerGroup g source group node m) :=
  Upheld.offer hg ⟨h.tree, h.frames, fun _ hnone => nomatch hnone⟩ hgroup.valid hgroup.output

theorem Upheld.stepTop {node : NodeId} (h : Upheld P Valid m) :
    Yields P E (fun _ m' => Upheld P Valid m') (stepTop g source node m) := by
  unfold Machine.stepTop
  cases hframes : m.stack.frames with
  | nil =>
      rw [Stack.top?_of_nil hframes]
      exact h
  | cons entry rest =>
      obtain ⟨id, top⟩ := entry
      have htop := h.frames (id, top) (hframes ▸ List.mem_cons_self)
      rw [Stack.top?_of_cons hframes]
      dsimp only
      cases hhandler : top.handler with
      | region rule =>
          have hpropose := h.propose hg source rule top.input node htop.output
          exact hpropose.1.wait hpropose.2
      | feature feature bag =>
          have hask := h.ask hg ⟨source, top.input, top.output, m.cursors.index top.input⟩ bag node
            (htop.valid feature bag hhandler) htop.output
          dsimp only
          split
          · next next bag' step m₁ hresult =>
              rw [hresult] at hask
              rcases hask with ⟨hasked, hsize, hstack, -, hnext⟩
              -- The frame keeps its place, with the state that its feature turned into.
              refine Upheld.follow hg ⟨hasked.tree, fun entry hentry => ?_, hasked.waiting⟩
              rw [hstack, Stack.setTop_of_cons hframes] at hentry
              rcases List.mem_cons.1 hentry with rfl | hold
              · refine ⟨Nat.lt_of_lt_of_le htop.output hsize, fun feature' bag'' heq => ?_⟩
                obtain ⟨rfl, rfl⟩ := Handler.feature.inj heq
                exact hnext
              · refine hasked.frames entry ?_
                rw [hstack, hframes]
                exact List.mem_cons_of_mem _ hold
          · next e m₁ hresult =>
              rw [hresult] at hask
              exact hask

theorem Upheld.releaseWhile {input : NodeId} {frames : List (FrameId × Frame D F Entry)}
    (h : Upheld P Valid m) :
    Yields P E (fun _ m' => Upheld P Valid m') (releaseWhile g source input frames m) := by
  induction frames generalizing m with
  | nil => exact h
  | cons entry rest ih =>
      unfold Machine.releaseWhile
      split
      · exact (h.releaseTop hg).bind fun _ m₁ hreleased => ih hreleased
      · exact h

/-- One round keeps what holds between two rounds, or fails as described. -/
theorem Upheld.advance (h : Upheld P Valid m) :
    Yields P E (fun _ m' => Upheld P Valid m') (advance g source start m) := by
  unfold Machine.advance
  split
  · exact Upheld.releaseWhile hg ⟨h.tree, h.frames, fun _ hnone => nomatch hnone⟩
  · next node _ =>
      split
      · next group hwaiting => exact h.offerGroup hg (h.waiting group hwaiting)
      · split
        · have hpropose := h.propose hg source start Tree.root node m.tree.nonempty
          exact hpropose.1.offerGroup hg hpropose.2
        · exact h.stepTop hg

/-- However many rounds a run takes, the property holds of its tree, and of its error. -/
theorem Upheld.run (h : Upheld P Valid m) (source : Tree I J) (start : D) (rounds : Nat) :
    P (run g source start rounds m).2.tree ∧
      ∀ e, (run g source start rounds m).1 = .failure e → E e := by
  induction rounds generalizing m with
  | zero =>
      unfold Machine.run
      refine ⟨h.tree, fun e he => ?_⟩
      split at he <;> cases he
  | succ rounds ih =>
      unfold Machine.run
      split
      · exact ⟨h.tree, fun e he => nomatch he⟩
      · have hround : Yields P E (fun _ m' => Upheld P Valid m') (Machine.advance g source start m) :=
          h.advance hg
        split
        · next next hresult =>
            rw [hresult] at hround
            exact ih hround
        · next e failed hresult =>
            rw [hresult] at hround
            refine ⟨hround.1, fun e' he => ?_⟩
            obtain rfl := Outcome.failure.inj he
            exact hround.2

/-- A run that is cut off stops in a state in which everything is as between two rounds. -/
theorem Upheld.cutOff (h : Upheld P Valid m) {rounds : Nat}
    (hrun : Machine.run g source start rounds m = (.unfinished, m')) : Upheld P Valid m' := by
  induction rounds generalizing m with
  | zero =>
      unfold Machine.run at hrun
      obtain rfl : m = m' := (Prod.mk.inj hrun).2
      exact h
  | succ rounds ih =>
      unfold Machine.run at hrun
      split at hrun
      · cases hrun
      · have hround : Yields P E (fun _ m' => Upheld P Valid m') (Machine.advance g source start m) :=
          h.advance hg
        split at hrun
        · next next hresult =>
            rw [hresult] at hround
            exact ih hround hrun
        · cases hrun

end Parts

/-- Nothing is active before the first round. -/
theorem upheld_initial {root : Node K V} {world : W} {limits : Limits}
    (h : P (Tree.singleton root)) :
    Upheld P Valid (initial root world limits : Machine D F K V Entry W) :=
  ⟨h, fun _ hentry => (nomatch hentry), fun _ hnone => (nomatch hnone)⟩

end Machine
end Rebuilding
end FeatureTree
