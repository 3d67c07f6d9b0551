import FeatureTree.Proofs.Tree.Links

/-!
# Rooted — arenas without loose nodes

In a rooted arena every node but the root is listed exactly once, and every node can be reached from
the root.  Then no node lies below itself, and the walk from the root meets every node.

Adding a node keeps this, and so does putting a new node between a parent and its last child, although
the child hangs in no list for a moment.
-/

namespace FeatureTree
namespace Tree

variable {K V : Type} {t t' : Tree K V} {id parent child : NodeId} {node : Node K V}

/-- Every node but the root is listed exactly once, and all can be reached. -/
structure Rooted (t : Tree K V) : Prop where
  nodup : t.links.Nodup
  listed : ∀ id, id ∈ t.links ↔ root < id ∧ id < t.size
  reached : ∀ id < t.size, t.Reaches root id

/-- A new node between a parent and what was its last child. -/
theorem children_enclose (hparent : parent < t.size) (hnode : node.childList = [])
    (child id : NodeId) :
    (((t.popChild parent).append parent node).attach t.size child).children id =
      if t.size = id then t.children id ++ [child]
      else if parent = id then (t.children id).dropLast ++ [t.size] else t.children id := by
  have hsize : (t.popChild parent).size = t.size := size_update t parent _
  have hparent' : parent < (t.popChild parent).size := hsize ▸ hparent
  have hlt : t.size < ((t.popChild parent).append parent node).size := by
    rw [size_append, hsize]
    exact Nat.lt_succ_self _
  rw [children_attach hlt, children_append hparent' hnode, children_popChild, hsize]
  by_cases hnew : t.size = id
  · rw [if_pos hnew, if_pos hnew, if_neg (fun heq => Nat.ne_of_lt hparent (heq.trans hnew.symm)),
      if_neg (fun heq => Nat.ne_of_lt hparent (heq.trans hnew.symm))]
  · rw [if_neg hnew, if_neg hnew]
    split <;> rfl

namespace Rooted

/-! ## What follows -/

/-- A node that can be reached from the root does not lie below itself. -/
theorem acyclic_of_reaches (hnodup : t.links.Nodup) (hroot : root ∉ t.links)
    (hreach : t.Reaches root id) : ¬ t.Below id id := by
  -- By induction on the way down: a cycle through a node goes through its only parent.
  induction hreach with
  | refl =>
      intro hcycle
      rcases Relation.TransGen.tail'_iff.1 hcycle with ⟨parent, -, hchild⟩
      exact hroot (mem_links.2 ⟨parent, hchild⟩)
  | @tail parent child _ hchild ih =>
      intro hcycle
      rcases Relation.TransGen.tail'_iff.1 hcycle with ⟨last, hlast, hback⟩
      obtain rfl : last = parent := parent_unique hnodup hback hchild
      exact ih (Relation.TransGen.head' hchild hlast)

theorem acyclic (h : t.Rooted) (id : NodeId) : ¬ t.Below id id := by
  have hroot : root ∉ t.links := fun hmem => Nat.lt_irrefl _ ((h.listed root).1 hmem).1
  by_cases hid : id < t.size
  · exact acyclic_of_reaches h.nodup hroot (h.reached id hid)
  · intro hcycle
    rcases Relation.TransGen.tail'_iff.1 hcycle with ⟨parent, -, hchild⟩
    exact hid ((h.listed id).1 (mem_links.2 ⟨parent, hchild⟩)).2

theorem isForest (h : t.Rooted) : t.IsForest :=
  ⟨h.nodup, fun id hid => ((h.listed id).1 hid).2, h.acyclic⟩

/-- The walk from the root meets every node. -/
theorem size_eq (h : t.Rooted) : t.size = (root :: t.descendants root).length := by
  have hroot : root < t.size := t.nonempty
  have hperm : (root :: t.descendants root).Perm (List.range t.size) := by
    refine (List.perm_ext_iff_of_nodup (h.isForest.nodup_descendants hroot) List.nodup_range).2 ?_
    intro id
    rw [h.isForest.mem_descendants hroot, List.mem_range]
    constructor
    · intro hreach
      rcases Relation.ReflTransGen.cases_tail hreach with rfl | ⟨parent, -, hchild⟩
      · exact hroot
      · exact ((h.listed id).1 (mem_links.2 ⟨parent, hchild⟩)).2
    · exact h.reached id
  rw [hperm.length_eq, List.length_range]

/-! ## What keeps it -/

theorem singleton (hnode : node.childList = []) : (Tree.singleton node).Rooted := by
  have hlinks : (Tree.singleton node).links = [] := by simp [links, Tree.singleton, hnode]
  refine ⟨hlinks ▸ List.nodup_nil, fun id => ?_, fun id hid => ?_⟩
  · rw [hlinks]
    constructor
    · exact fun hmem => absurd hmem List.not_mem_nil
    · exact fun hid => absurd hid.2 (Nat.not_lt.2 hid.1)
  · obtain rfl : id = root := Nat.lt_one_iff.1 hid
    exact .refl

/-- A change of a node that leaves its child list as it is. -/
theorem update {f : Node K V → Node K V} (hf : ∀ n, (f n).childList = n.childList) (h : t.Rooted)
    (id : NodeId) : (t.update id f).Rooted := by
  have hreaches : (t.update id f).Reaches = t.Reaches := by
    simp only [Reaches, children_update hf]
  refine ⟨?_, ?_, ?_⟩
  · rw [links_update hf]
    exact h.nodup
  · rw [links_update hf, size_update]
    exact h.listed
  · rw [hreaches, size_update]
    exact h.reached

/-- One node is added to the arena and to the links, and no way down is lost. -/
theorem grow (h : t.Rooted) (hparent : parent < t.size) (hsize : t'.size = t.size + 1)
    (hlinks : t'.links.Perm (t.size :: t.links)) (hnew : t.size ∈ t'.children parent)
    (hkeep : ∀ p, ∀ c ∈ t.children p, t'.Reaches p c) : t'.Rooted := by
  have hreach : ∀ id < t.size, t'.Reaches root id := by
    intro id hid
    induction h.reached id hid with
    | refl => exact .refl
    | tail _ hchild ih =>
        refine (ih ?_).trans (hkeep _ _ hchild)
        rcases exists_get?_of_mem hchild with ⟨n, hget, -⟩
        exact lt_size_of_get? hget
  refine ⟨?_, fun id => ?_, fun id hid => ?_⟩
  · refine hlinks.nodup_iff.2 (List.nodup_cons.2 ⟨fun hmem => ?_, h.nodup⟩)
    exact Nat.lt_irrefl _ ((h.listed _).1 hmem).2
  · rw [hlinks.mem_iff, List.mem_cons, h.listed, hsize]
    constructor
    · rintro (rfl | ⟨hpos, hlt⟩)
      · exact ⟨t.nonempty, Nat.lt_succ_self _⟩
      · exact ⟨hpos, Nat.lt_succ_of_lt hlt⟩
    · rintro ⟨hpos, hlt⟩
      exact (Nat.lt_succ_iff_lt_or_eq.1 hlt).symm.imp_right fun hlt => ⟨hpos, hlt⟩
  · rw [hsize] at hid
    rcases Nat.lt_succ_iff_lt_or_eq.1 hid with hlt | rfl
    · exact hreach id hlt
    · exact (hreach parent hparent).tail hnew

theorem append (h : t.Rooted) (hparent : parent < t.size) (hnode : node.childList = []) :
    (t.append parent node).Rooted := by
  refine h.grow hparent (size_append t parent node) (links_append hparent hnode) ?_ ?_
  · exact (mem_children_append hparent hnode).2 (.inr ⟨rfl, rfl⟩)
  · exact fun p c hc => .single ((mem_children_append hparent hnode).2 (.inl hc))

/-- A new node takes over the last child of its parent. -/
theorem enclose (h : t.Rooted) (hparent : parent < t.size) (hnode : node.childList = [])
    (hlast : t.lastChild? parent = some child) :
    (((t.popChild parent).append parent node).attach t.size child).Rooted := by
  have hsize : (t.popChild parent).size = t.size := size_update t parent _
  have hparent' : parent < (t.popChild parent).size := hsize ▸ hparent
  have hlt : t.size < ((t.popChild parent).append parent node).size := by
    rw [size_append, hsize]
    exact Nat.lt_succ_self _
  have hchildren := children_enclose hparent hnode child
  have hnew : t.size ∈ (((t.popChild parent).append parent node).attach t.size child).children
      parent := by
    rw [hchildren, if_neg (Nat.ne_of_gt hparent), if_pos rfl]
    exact List.mem_concat_self
  refine h.grow hparent ?_ ?_ hnew ?_
  · rw [size_attach, size_append, hsize]
  · -- The child leaves the links, the new node comes, and the child comes back.
    have hattach := links_attach hlt child
    have happend := links_append hparent' hnode
    rw [hsize] at happend
    calc List.Perm _ (child :: ((t.popChild parent).append parent node).links) := hattach
      List.Perm _ (child :: t.size :: (t.popChild parent).links) := happend.cons child
      List.Perm _ (t.size :: child :: (t.popChild parent).links) := List.Perm.swap _ _ _
      List.Perm _ (t.size :: t.links) := (links_popChild hlast).symm.cons t.size
  · intro p c hc
    have hp : t.size ≠ p := by
      rcases exists_get?_of_mem hc with ⟨n, hget, -⟩
      exact Nat.ne_of_gt (lt_size_of_get? hget)
    by_cases heq : parent = p
    · subst heq
      rw [lastChild?_eq_getLast?] at hlast
      rw [← List.dropLast_append_getLast? child hlast] at hc
      rcases List.mem_append.1 hc with hold | hmoved
      · refine .single ?_
        rw [hchildren, if_neg hp, if_pos rfl]
        exact List.mem_append_left _ hold
      · obtain rfl := List.mem_singleton.1 hmoved
        refine (Relation.ReflTransGen.single hnew).tail ?_
        rw [hchildren, if_pos rfl]
        exact List.mem_concat_self
    · refine .single ?_
      rw [hchildren, if_neg hp, if_neg heq]
      exact hc

end Rooted

/-- A parent without children has no last child to lose. -/
theorem Rooted.popChild_none (h : t.Rooted) (hparent : parent < t.size)
    (hlast : t.lastChild? parent = none) : (t.popChild parent).Rooted := by
  have hchildren := popChild_eq_self hlast
  obtain ⟨n, hget⟩ : ∃ n, t.get? parent = some n := ⟨_, Array.getElem?_eq_getElem hparent⟩
  have hnone : n.childList = [] := by
    rw [lastChild?_eq_getLast?, List.getLast?_eq_none_iff, children_eq hget] at hlast
    exact hlast
  have hlinks : (t.popChild parent).links = t.links := by
    rcases links_split hget with ⟨front, back, hlinks, hupdate⟩
    rw [popChild, hupdate, hlinks, Node.childList_dropLast, hnone, List.dropLast_nil]
  have hsize : (t.popChild parent).size = t.size := size_update t parent _
  refine ⟨hlinks ▸ h.nodup, ?_, ?_⟩
  · rw [hlinks, hsize]
    exact h.listed
  · rw [hsize]
    simp only [Reaches, hchildren]
    exact h.reached

end Tree
end FeatureTree
