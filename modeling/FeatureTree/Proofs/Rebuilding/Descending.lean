import FeatureTree.Proofs.Rebuilding.Halting
import FeatureTree.Proofs.Tree.Picture

/-!
# Descending — grammars that enter only the child they are asked about

`NeverReenters` is about a whole run.  A grammar keeps to it by itself when its features redirect into
the current child only, and when no node of the input tree lies below itself: the nodes that are
traversed at one time are then a path that leads down from the root.
-/

namespace FeatureTree
namespace Tree

variable {K V : Type} {t : Tree K V} {A : NodeId → Prop}
variable {T S : Term (NodeId × Label K V)} {x : NodeId} {path : List NodeId}

/-! ## Paths -/

/-- A path that leads down from the root, with its lowest node first. -/
inductive Downward (t : Tree K V) : List NodeId → Prop where
  | start : Downward t [root]
  | down (x y : NodeId) (path : List NodeId) (child : x ∈ t.children y)
      (above : Downward t (y :: path)) : Downward t (x :: y :: path)

/-- A child of a node that is shown shows a smaller term. -/
theorem Shows.child (h : Shows t A S) (hx : x ∈ t.children S.id) :
    ∃ C, Shows t A C ∧ C.id = x ∧ sizeOf C < sizeOf S := by
  cases S with
  | leaf a =>
      have hnone : t.children a.1 = [] := by
        simp [children, childArray, h.2, Label.leaf, Node.childArray]
      change x ∈ t.children a.1 at hx
      rw [hnone] at hx
      cases hx
  | branch a terms =>
      rcases shows_branch.1 h with ⟨-, hget, hterms⟩
      change x ∈ t.children a.1 at hx
      rw [children_of_get? hget] at hx
      rcases List.mem_map.1 hx with ⟨C, hC, rfl⟩
      have hmem := List.sizeOf_lt_of_mem hC
      refine ⟨C, hterms C hC, rfl, ?_⟩
      simp only [Term.branch.sizeOf_spec]
      omega

/-- In a tree that is shown as a whole, a path visits no node twice. -/
theorem Downward.nodup (h : Downward t path) (hT : Shows t A T) (hroot : T.id = root) : path.Nodup := by
  -- The lowest node shows a term that is smaller than those of all nodes above it.
  suffices hlowest : ∃ x above S, path = x :: above ∧ Shows t A S ∧ S.id = x ∧
      Above t A above S ∧ above.Nodup by
    rcases hlowest with ⟨x, above, S, rfl, hS, rfl, habove, hnodup⟩
    exact (habove.length_lt hnodup hS).1
  induction h with
  | start => exact ⟨root, [], T, rfl, hT, hroot, List.forall_mem_nil _, List.nodup_nil⟩
  | down x y path child above ih =>
      rcases ih with ⟨_, _, S, heq, hS, rfl, habove, hnodup⟩
      obtain ⟨rfl, rfl⟩ := List.cons.inj heq
      rcases hS.child child with ⟨C, hC, hid, hsmaller⟩
      refine ⟨x, S.id :: path, C, rfl, hC, hid, ?_, (habove.length_lt hnodup hS).1⟩
      intro id hmem
      rcases List.mem_cons.1 hmem with rfl | hhigher
      · exact ⟨S, hS, rfl, hsmaller⟩
      · rcases habove id hhigher with ⟨larger, hlarger, hat, hlt⟩
        exact ⟨larger, hlarger, hat, Nat.lt_trans hsmaller hlt⟩

end Tree

namespace Rebuilding
namespace Machine

variable {D F I J K V Key W : Type} {Entry : Key → Type}

/-! ## Answers come from features -/

section Answers

variable {g : Grammar D F I J K V Entry W} {source : Tree I J} {start : D}
variable {m m' : Machine D F K V Entry W} {node : NodeId} {step : Step (Redirect D)}

theorem ask_handle {feature next : F} {cx : Context I J} {bag bag' : Bag Key Entry} :
    ask g feature cx bag node m = .ok (next, bag', step) m' →
      ∃ scene, g.handle feature cx node ⟨m.tree, bag, m.world⟩ = .ok (next, step) scene := by
  intro h
  unfold ask at h
  dsimp only at h
  split at h
  · next answer after tree bag₁ world hhandle =>
      cases h
      exact ⟨_, hhandle⟩
  · cases h

theorem claim?_handle {cx : Context I J} {features : List F} {bag : Bag Key Entry}
    (h : claim? g cx node features bag m = some step) :
    ∃ feature scene next scene', g.handle feature cx node scene = .ok (next, step) scene' := by
  induction features generalizing bag m with
  | nil => cases h
  | cons feature rest ih =>
      rw [claim?] at h
      split at h
      · next next bag' step' m₁ hask =>
          split at h
          · obtain rfl := Option.some.inj h
            rcases ask_handle hask with ⟨scene', hhandle⟩
            exact ⟨feature, _, next, scene', hhandle⟩
          · exact ih h
      · cases h

/-- The answer of a round is what some feature says about the current child. -/
theorem answer?_handle (hnode : m.node? source = some node)
    (h : answer? g source start m = some step) :
    ∃ feature cx scene next scene', g.handle feature cx node scene = .ok (next, step) scene' := by
  simp only [answer?, hnode] at h
  split at h
  · rcases claim?_handle h with ⟨feature, hclaimed⟩
    exact ⟨feature, _, hclaimed⟩
  · split at h
    · rcases claim?_handle h with ⟨feature, hclaimed⟩
      exact ⟨feature, _, hclaimed⟩
    · split at h
      · cases h
      · next feature bag _ =>
          split at h
          · next next bag' step' m₁ hask =>
              obtain rfl := Option.some.inj h
              rcases ask_handle hask with ⟨scene', hhandle⟩
              exact ⟨feature, _, _, next, scene', hhandle⟩
          · cases h

/-- What a redirection answers to when a region opens. -/
theorem Heeds.opened {input : NodeId} {id : FrameId} {region : Frame D F Entry}
    {between : Machine D F K V Entry W} (h : Heeds source input between m' step)
    (hold : ∀ entry ∈ between.stack.frames, entry.2.isRegion = true → entry.1 < m.stack.pushed)
    (hopens : Opens m m' id region) :
    ∃ target, step = .redirect target ∧ target.input = some region.input := by
  -- Frames that were there before the round are not new.
  have hnot : ¬ m'.stack.frames <:+ between.stack.frames := by
    intro hsuffix
    have hless := hold (id, region) (hsuffix.subset (List.mem_of_mem_head? hopens.top))
      hopens.isRegion
    exact Nat.not_lt.2 hopens.fresh hless
  cases h with
  | proceed stack waiting cursors => exact absurd (stack ▸ List.suffix_refl _) hnot
  | decline id frame rest released =>
      refine absurd ?_ hnot
      rw [released.stack, released.frames]
      exact List.suffix_cons _ _
  | output target group stack waiting traverses cursors =>
      exact absurd (stack ▸ List.suffix_refl _) hnot
  | descend target nested named elsewhere known stack waiting cursors =>
      have htop := hopens.top
      rw [(push_frames stack).1] at htop
      obtain rfl : region = ⟨.region target.dispatch, nested, target.output⟩ :=
        (Prod.mk.inj (Option.some.inj htop)).2.symm
      exact ⟨target, rfl, named⟩

/-- With a feature on top of old frames, every region on the stack is an old one. -/
theorem Sound.regions_issued (hsound : Sound m) {id : FrameId} {top : Frame D F Entry}
    {frames : List (FrameId × Frame D F Entry)} (hstack : m'.stack.frames = (id, top) :: frames)
    (htop : top.isRegion = false) (hframes : ∀ entry ∈ frames, entry ∈ m.stack.frames) :
    ∀ entry ∈ m'.stack.frames, entry.2.isRegion = true → entry.1 < m.stack.pushed := by
  rw [hstack]
  intro entry hentry hregion
  rcases List.mem_cons.1 hentry with rfl | hmem
  · rw [htop] at hregion
    cases hregion
  · exact hsound.issued entry (hframes entry hmem)

/-- When a round opens a region, a feature has redirected into its node. -/
theorem Exchange.opened {id : FrameId} {region : Frame D F Entry}
    (h : Exchange g source start m m') (hsound : Sound m) (hopens : Opens m m' id region) :
    ∃ node target, m.node? source = some node ∧
      answer? g source start m = some (.redirect target) ∧ target.input = some region.input := by
  have hnew : (id, region) ∈ m'.stack.frames := List.mem_of_mem_head? hopens.top
  have hstale : (id, region) ∉ m.stack.frames :=
    fun hmem => absurd (hsound.issued _ hmem) (Nat.not_lt.2 hopens.fresh)
  cases h with
  | exhausted past silent released =>
      exact absurd (releaseWhile_subset (m := { m with waiting := none }) rfl released _ hnew) hstale
  | proposed node child silent idle group stack waiting traverses cursors =>
      exact absurd (stack ▸ hnew) hstale
  | claimed node child step answer claims called feature bag output between stack idle cursors
      heeds =>
      have hframes := (push_frames stack).1
      have hold := hsound.regions_issued hframes rfl fun _ hentry => hentry
      rcases heeds.opened hold hopens with ⟨target, rfl, hnamed⟩
      exact ⟨node, target, child, answer, hnamed⟩
  | answered node child step answer idle id before after bag bag' output rest frames between stack
      waiting cursors heeds =>
      have hframes := congrArg Stack.frames stack
      have hold := hsound.regions_issued hframes rfl
        fun _ hentry => frames ▸ List.mem_cons_of_mem _ hentry
      rcases heeds.opened hold hopens with ⟨target, rfl, hnamed⟩
      exact ⟨node, target, child, answer, hnamed⟩

end Answers

/-! ## Grammars that descend -/

/-- Features redirect into the child that they are asked about, and into no other node. -/
def Descends (g : Grammar D F I J K V Entry W) : Prop :=
  ∀ feature cx node scene next target scene',
    g.handle feature cx node scene = .ok (next, .redirect target) scene' →
      ∀ nested, target.input = some nested → nested = node

section Descends

variable {g : Grammar D F I J K V Entry W} {source : Tree I J} {start : D} {limit : Nat}
variable {m m' : Machine D F K V Entry W} {T : Term (NodeId × Label I J)}

/-- A region that opens makes the path of the traversed nodes one longer. -/
theorem Descends.opened (hg : Descends g) (hm : Orderly source limit m)
    (hpath : source.Downward (traversed m.stack.frames)) (hround : Round g source start m m')
    {id : FrameId} {region : Frame D F Entry} (hopens : Opens m m' id region) :
    source.Downward (region.input :: traversed m.stack.frames) := by
  rcases (advance_exchange hm.sound hround.2).opened hm.sound hopens with
    ⟨node, target, hnode, hanswer, hnamed⟩
  rcases answer?_handle hnode hanswer with ⟨feature, cx, scene, next, scene', hhandle⟩
  obtain rfl := hg feature cx node scene next target scene' hhandle region.input hnamed
  have hchild : region.input ∈ source.children m.input := by
    rw [node?, Tree.childAt?_eq_getElem?] at hnode
    exact List.mem_of_getElem? hnode
  rw [hm.traversed_eq] at hpath ⊢
  exact .down _ _ _ hchild hpath

/-- While rounds succeed, the traversed nodes are a path, and no node on it is entered again. -/
theorem Descends.round (hg : Descends g) (hT : source.idTerm? Tree.root = some T)
    (hm : Orderly source limit m) (hpath : source.Downward (traversed m.stack.frames))
    (hround : Round g source start m m') :
    (∀ id region, Opens m m' id region → region.input ∉ traversed m.stack.frames) ∧
      Orderly source limit m' ∧ source.Downward (traversed m'.stack.frames) := by
  rcases Tree.shows_of_expand? hT with ⟨hshows, hroot⟩
  -- With the new node in front, the path still visits no node twice.
  have hfresh : ∀ id region, Opens m m' id region → region.input ∉ traversed m.stack.frames := by
    intro id region hopens
    have hnodup := (hg.opened hm hpath hround hopens).nodup hshows hroot
    exact (List.nodup_cons.1 hnodup).1
  rcases hm.round hround hfresh with ⟨hm', hmoves⟩
  refine ⟨hfresh, hm', ?_⟩
  cases hmoves with
  | stays answer regions cursors tries => rwa [traversed_of_regions regions]
  | proceeds node child answer regions cursors => rwa [traversed_of_regions regions]
  | opens node child target nested answer named fresh id issued top regions cursors =>
      rw [traversed_of_cons regions]
      exact hg.opened hm hpath hround ⟨rfl, top, issued⟩
  | closes past entry regions below cursors =>
      rw [traversed_of_cons regions] at hpath
      -- What is left is the path around the node whose region has ended.
      generalize entry.2.input = left at hpath
      generalize hrest : traversed m'.stack.frames = rest at hpath
      cases hpath with
      | start => exact absurd hrest (List.append_ne_nil_of_right_ne_nil _ (List.cons_ne_nil _ _))
      | down x y path child above => exact above

/-- On a tree without sharing, a grammar that descends enters no node again. -/
theorem Descends.neverReenters (hg : Descends g) (hT : source.idTerm? Tree.root = some T)
    (root : Node K V) (world : W) (limits : Limits) :
    NeverReenters g source start (Machine.initial root world limits) := by
  -- By induction on the rounds; the path at the start is the root alone.
  have hstates : ∀ n, Runs g source start (Machine.initial root world limits) n →
      Orderly source limits.maxDepth
          (stateAfter g source start (Machine.initial root world limits) n) ∧
        source.Downward (traversed
          (stateAfter g source start (Machine.initial root world limits) n).stack.frames) := by
    intro n
    induction n with
    | zero => exact fun _ => ⟨orderly_initial g start root world limits, .start⟩
    | succ n ih =>
        intro hruns
        rcases ih (hruns.of_le (Nat.le_succ n)) with ⟨hm, hpath⟩
        exact (hg.round hT hm hpath (hruns.round (Nat.lt_succ_self n))).2
  intro n hruns id region hopens
  rcases hstates n (hruns.of_le (Nat.le_succ n)) with ⟨hm, hpath⟩
  have hfresh := (hg.round hT hm hpath (hruns.round (Nat.lt_succ_self n))).1 id region hopens
  rw [hm.blocks.mem_traversed_iff] at hfresh
  exact not_or.1 hfresh

end Descends

end Machine
end Rebuilding
end FeatureTree
