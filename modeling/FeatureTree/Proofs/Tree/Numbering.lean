import FeatureTree.Proofs.Tree.Links

/-!
# Numbering — trees whose ids rise along the walk

Ids count nodes in the order of their creation.  When a tree is built in pre-order, this is also the
order in which the walk from the root meets them.  `Tree.Numbered t path` says so of a tree that is
still under construction: new nodes go below the first node of `path`, the other nodes of which lie
above it.

A node may be taken out again as long as it has no children.  Its id is not given again, so that the
ids still rise, with gaps.
-/

namespace FeatureTree
namespace Tree

variable {K V : Type} {t t' : Tree K V} {id parent child x : NodeId} {path rest : List NodeId}
variable {node : Node K V}

/-- A tree that is built in pre-order; new nodes go below the first node of the path. -/
structure Numbered (t : Tree K V) (path : List NodeId) : Prop where
  nodup : t.links.Nodup
  rises : ∀ parent, ∀ child ∈ t.children parent, parent < child ∧ child < t.size
  sorted : ∀ parent, (t.children parent).Pairwise (· < ·)
  /-- What was attached after a node and before a child of it lies below the node. -/
  between : ∀ parent, ∀ child ∈ t.children parent, ∀ x ∈ t.links, parent < x → x < child →
    t.Below parent x
  /-- What was attached after a node of the path lies below it. -/
  latest : ∀ o ∈ path, ∀ x ∈ t.links, o < x → t.Below o x
  known : ∀ o ∈ path, o < t.size
  attached : ∀ o ∈ path, o = root ∨ o ∈ t.links
  descending : path.Pairwise (· > ·)

theorem Below.mono (h : ∀ parent, ∀ child ∈ t.children parent, child ∈ t'.children parent)
    (hbelow : t.Below id x) : t'.Below id x :=
  Relation.TransGen.mono (fun parent child hchild => h parent child hchild) _ _ hbelow

namespace Numbered

theorem singleton {label : Label K V} :
    (Tree.singleton (label.over [])).Numbered [root] := by
  have hlinks : (Tree.singleton (label.over [])).links = [] := by simp [links, Tree.singleton]
  have hchildren : ∀ parent, (Tree.singleton (label.over [])).children parent = [] := by
    intro parent
    refine List.eq_nil_iff_forall_not_mem.2 fun child hchild => ?_
    have hmem := mem_links.2 ⟨parent, hchild⟩
    rw [hlinks] at hmem
    cases hmem
  exact {
    nodup := by
      rw [hlinks]
      exact List.nodup_nil
    rises := by
      intro parent child hchild
      rw [hchildren] at hchild
      cases hchild
    sorted := by
      intro parent
      rw [hchildren]
      exact List.Pairwise.nil
    between := by
      intro parent child hchild
      rw [hchildren] at hchild
      cases hchild
    latest := by
      intro o _ x hx
      rw [hlinks] at hx
      cases hx
    known := by
      intro o ho
      rw [List.mem_singleton.1 ho]
      exact Nat.one_pos
    attached := fun o ho => .inl (List.mem_singleton.1 ho)
    descending := List.pairwise_singleton _ _ }

theorem lt_of_below (h : t.Numbered path) (hbelow : t.Below id x) : id < x := by
  induction hbelow with
  | single hchild => exact (h.rises _ _ hchild).1
  | tail _ hchild ih => exact Nat.lt_trans ih (h.rises _ _ hchild).1

theorem lt_size (h : t.Numbered path) (hx : x ∈ t.links) : x < t.size := by
  rcases mem_links.1 hx with ⟨parent, hchild⟩
  exact (h.rises parent x hchild).2

theorem pos (h : t.Numbered path) (hx : x ∈ t.links) : root < x := by
  rcases mem_links.1 hx with ⟨parent, hchild⟩
  exact Nat.lt_of_le_of_lt (Nat.zero_le parent) (h.rises parent x hchild).1

theorem isForest (h : t.Numbered path) : t.IsForest :=
  ⟨h.nodup, fun _ hx => h.lt_size hx, fun _ hbelow => Nat.lt_irrefl _ (h.lt_of_below hbelow)⟩

/-! ## What the operations do -/

/-- Fewer nodes may still get children. -/
theorem weaken (h : t.Numbered path) {path' : List NodeId} (hsub : path'.Sublist path) :
    t.Numbered path' :=
  { h with
    latest := fun o ho => h.latest o (hsub.mem ho)
    known := fun o ho => h.known o (hsub.mem ho)
    attached := fun o ho => h.attached o (hsub.mem ho)
    descending := h.descending.sublist hsub }

/-- A change that leaves all child lists as they are. -/
theorem congr (h : t.Numbered path) (hsize : t'.size = t.size)
    (hchildren : ∀ id, t'.children id = t.children id) (hlinks : t'.links = t.links) :
    t'.Numbered path := by
  have hbelow : t'.Below = t.Below := by simp only [Below, hchildren]
  exact {
    nodup := hlinks ▸ h.nodup
    rises := by
      intro parent child hchild
      rw [hsize]
      exact h.rises parent child (hchildren parent ▸ hchild)
    sorted := fun parent => hchildren parent ▸ h.sorted parent
    between := by
      intro parent child hchild x hx
      rw [hbelow]
      exact h.between parent child (hchildren parent ▸ hchild) x (hlinks ▸ hx)
    latest := by
      intro o ho x hx
      rw [hbelow]
      exact h.latest o ho x (hlinks ▸ hx)
    known := fun o ho => hsize ▸ h.known o ho
    attached := fun o ho => hlinks ▸ h.attached o ho
    descending := h.descending }

/-- The first node of the path lies below the others. -/
theorem below_of_mem (h : t.Numbered (parent :: rest)) {o : NodeId} (ho : o ∈ rest) :
    t.Below o parent := by
  have hlt : o < parent := (List.pairwise_cons.1 h.descending).1 o ho
  rcases h.attached parent List.mem_cons_self with rfl | hmem
  · exact absurd hlt (Nat.not_lt_zero o)
  · exact h.latest o (List.mem_cons_of_mem _ ho) parent hmem hlt

/-- A new node comes after all others, and lies below all nodes of the path. -/
theorem latest_append (h : t.Numbered (parent :: rest)) (hnode : node.childList = []) :
    ∀ o ∈ parent :: rest, ∀ x ∈ (t.append parent node).links, o < x →
      (t.append parent node).Below o x := by
  have hparent : parent < t.size := h.known parent List.mem_cons_self
  have hold : ∀ p, ∀ c ∈ t.children p, c ∈ (t.append parent node).children p := fun _ _ hc =>
    (mem_children_append hparent hnode).2 (.inl hc)
  have hnew : t.size ∈ (t.append parent node).children parent :=
    (mem_children_append hparent hnode).2 (.inr ⟨rfl, rfl⟩)
  intro o ho x hx hlt
  rcases List.mem_cons.1 ((links_append hparent hnode).mem_iff.1 hx) with rfl | hx
  · rcases List.mem_cons.1 ho with rfl | ho
    · exact .single hnew
    · exact .tail (Below.mono hold (h.below_of_mem ho)) hnew
  · exact Below.mono hold (h.latest o ho x hx hlt)

/-- A node without children is added below the first node of the path, and may get children itself. -/
theorem append (h : t.Numbered (parent :: rest)) (hnode : node.childList = []) :
    (t.append parent node).Numbered (t.size :: parent :: rest) := by
  have hparent : parent < t.size := h.known parent List.mem_cons_self
  have hsize : (t.append parent node).size = t.size + 1 := size_append t parent node
  have hlinks := links_append hparent hnode
  have hmem : ∀ x, x ∈ (t.append parent node).links ↔ x = t.size ∨ x ∈ t.links := fun x =>
    hlinks.mem_iff.trans List.mem_cons
  have hold : ∀ p, ∀ c ∈ t.children p, c ∈ (t.append parent node).children p := fun _ _ hc =>
    (mem_children_append hparent hnode).2 (.inl hc)
  have hlatest := h.latest_append hnode
  exact {
    nodup := by
      refine hlinks.nodup_iff.2 (List.nodup_cons.2 ⟨fun hsize => ?_, h.nodup⟩)
      exact Nat.lt_irrefl _ (h.lt_size hsize)
    rises := by
      intro p c hc
      rw [hsize]
      rcases (mem_children_append hparent hnode).1 hc with hc | ⟨rfl, rfl⟩
      · exact ⟨(h.rises p c hc).1, Nat.lt_succ_of_lt (h.rises p c hc).2⟩
      · exact ⟨hparent, Nat.lt_succ_self _⟩
    sorted := by
      intro p
      rw [children_append hparent hnode]
      split
      · refine List.pairwise_append.2 ⟨h.sorted p, List.pairwise_singleton _ _, ?_⟩
        intro c hc d hd
        rw [List.mem_singleton.1 hd]
        exact (h.rises p c hc).2
      · exact h.sorted p
    between := by
      intro p c hc x hx hlow hhigh
      rcases (mem_children_append hparent hnode).1 hc with hc | ⟨rfl, rfl⟩
      · rcases (hmem x).1 hx with rfl | hx
        · exact absurd hhigh (Nat.lt_asymm (h.rises p c hc).2)
        · exact Below.mono hold (h.between p c hc x hx hlow hhigh)
      · -- The new node comes last, so all that was attached after its parent lies in between.
        exact hlatest p List.mem_cons_self x hx hlow
    latest := by
      intro o ho x hx hlt
      rcases List.mem_cons.1 ho with rfl | ho
      · -- Nothing was attached after the new node.
        rcases (hmem x).1 hx with rfl | hx
        · exact absurd hlt (Nat.lt_irrefl _)
        · exact absurd hlt (Nat.lt_asymm (h.lt_size hx))
      · exact hlatest o ho x hx hlt
    known := by
      intro o ho
      rw [hsize]
      rcases List.mem_cons.1 ho with rfl | ho
      · exact Nat.lt_succ_self _
      · exact Nat.lt_succ_of_lt (h.known o ho)
    attached := by
      intro o ho
      rw [hmem]
      rcases List.mem_cons.1 ho with rfl | ho
      · exact .inr (.inl rfl)
      · exact (h.attached o ho).imp id .inr
    descending := List.pairwise_cons.2 ⟨h.known, h.descending⟩ }

/-- The first node of the path comes last. -/
theorem le_of_mem (h : t.Numbered (parent :: rest)) {o : NodeId} (ho : o ∈ parent :: rest) :
    o ≤ parent := by
  rcases List.mem_cons.1 ho with rfl | hmem
  · exact Nat.le_refl _
  · exact Nat.le_of_lt ((List.pairwise_cons.1 h.descending).1 o hmem)

/-- The last child of the first node of the path, which has no children itself, is taken out. -/
theorem popChild (h : t.Numbered (parent :: rest)) (hlast : t.lastChild? parent = some child)
    (hleaf : t.children child = []) : (t.popChild parent).Numbered (parent :: rest) := by
  have hsize : (t.popChild parent).size = t.size := size_update t parent _
  have hmem : ∀ {x}, x ∈ (t.popChild parent).links ↔ x ∈ t.links ∧ x ≠ child :=
    mem_links_popChild h.nodup hlast
  have hold := children_popChild_sublist t parent
  have hchild : child ∈ t.children parent := by
    rw [lastChild?_eq_getLast?] at hlast
    exact List.mem_of_getLast? hlast
  exact {
    nodup := (List.nodup_cons.1 ((links_popChild hlast).nodup_iff.1 h.nodup)).2
    rises := by
      intro p c hc
      rw [hsize]
      exact h.rises p c ((hold p).mem hc)
    sorted := fun p => (h.sorted p).sublist (hold p)
    between := by
      intro p c hc x hx hlow hhigh
      rcases hmem.1 hx with ⟨hx, hne⟩
      exact (h.between p c ((hold p).mem hc) x hx hlow hhigh).popChild h.nodup hlast hleaf hne
    latest := by
      intro o ho x hx hlt
      rcases hmem.1 hx with ⟨hx, hne⟩
      exact (h.latest o ho x hx hlt).popChild h.nodup hlast hleaf hne
    known := fun o ho => hsize ▸ h.known o ho
    attached := by
      -- The nodes of the path are older than the one that is taken out.
      intro o ho
      refine (h.attached o ho).imp_right fun hlisted => hmem.2 ⟨hlisted, ?_⟩
      exact Nat.ne_of_lt (Nat.lt_of_le_of_lt (h.le_of_mem ho) (h.rises parent child hchild).1)
    descending := h.descending }

/-! ## The walk from the root -/

/-- What lies below a child comes before the next child. -/
theorem lt_of_below_sibling {other : NodeId} (h : t.Numbered path) (hchild : child ∈ t.children parent)
    (hother : other ∈ t.children parent) (hlt : child < other) (hreach : t.Reaches child x) :
    x < other := by
  induction hreach with
  | refl => exact hlt
  | @tail y z hy hz ih =>
      rcases Nat.lt_trichotomy z other with hz' | rfl | hz'
      · exact hz'
      · -- The sibling would hang below the child.
        exact absurd (.tail hy hz) (h.isForest.not_reaches_sibling hchild hother (Nat.ne_of_lt hlt))
      · -- The sibling was attached between `y` and its child, so it would lie below `y`.
        have hbelow := h.between y z hz other (mem_links.2 ⟨parent, hother⟩) ih hz'
        exact absurd (hy.trans hbelow.to_reflTransGen)
          (h.isForest.not_reaches_sibling hchild hother (Nat.ne_of_lt hlt))

theorem pairwise_ids {A : NodeId → Prop} {T : Term (NodeId × Label K V)} (h : t.Numbered path)
    (hT : t.Shows A T) : (T.labels.map Prod.fst).Pairwise (· < ·) := by
  induction T using Term.induction with
  | leaf a => exact List.pairwise_singleton _ _
  | branch a terms ih =>
      rcases Shows.children hT with ⟨hids, hterms⟩
      change t.children a.1 = terms.map Term.id at hids
      have hchild : ∀ S ∈ terms, S.id ∈ t.children a.1 := fun S hS => hids ▸ List.mem_map_of_mem hS
      rw [Term.labels, Term.labelsList_eq_flatMap, List.map_cons, List.map_flatMap]
      refine List.pairwise_cons.2 ⟨fun x hx => ?_, List.pairwise_flatMap.2 ⟨fun S hS => ?_, ?_⟩⟩
      · rcases List.mem_flatMap.1 hx with ⟨S, hS, hid⟩
        exact h.lt_of_below (Relation.TransGen.head' (hchild S hS) ((hterms S hS).mem_ids.1 hid))
      · exact ih S hS (hterms S hS)
      · have hsorted : terms.Pairwise fun S S' => S.id < S'.id :=
          List.pairwise_map.1 (hids ▸ h.sorted a.1)
        refine hsorted.imp_of_mem fun {S S'} hS hS' hlt => ?_
        intro x hx y hy
        have hxlt := h.lt_of_below_sibling (hchild S hS) (hchild S' hS') hlt
          ((hterms S hS).mem_ids.1 hx)
        rcases Relation.reflTransGen_iff_eq_or_transGen.1 ((hterms S' hS').mem_ids.1 hy) with
          rfl | hbelow
        · exact hxlt
        · exact Nat.lt_trans hxlt (h.lt_of_below hbelow)

/-- Ids rise along the walk below a node. -/
theorem pairwise_descendants (h : t.Numbered path) (hid : id < t.size) :
    (id :: t.descendants id).Pairwise (· < ·) := by
  rcases h.isForest.exists_shows hid with ⟨T, hT, rfl⟩
  rw [descendants_of_idTerm? hT.idTerm?]
  exact h.pairwise_ids hT

/-- The walk from the root meets what hangs in child lists. -/
theorem descendants_perm (h : t.Numbered path) (hroot : root ∈ path) :
    (t.descendants root).Perm t.links := by
  have hnodup := List.nodup_cons.1 (h.isForest.nodup_descendants (h.known root hroot))
  refine (List.perm_ext_iff_of_nodup hnodup.2 h.nodup).2 fun x => ?_
  have hmem := h.isForest.mem_descendants (h.known root hroot) (x := x)
  rw [List.mem_cons] at hmem
  constructor
  · intro hx
    rcases Relation.ReflTransGen.cases_tail (hmem.1 (.inr hx)) with heq | ⟨parent, -, hchild⟩
    · exact absurd (heq ▸ hx) hnodup.1
    · exact mem_links.2 ⟨parent, hchild⟩
  · intro hx
    have hreach := (h.latest root hroot x hx (h.pos hx)).to_reflTransGen
    exact (hmem.2 hreach).resolve_left (Nat.ne_of_gt (h.pos hx))

end Numbered

end Tree
end FeatureTree
