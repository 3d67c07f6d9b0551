import FeatureTree.Proofs.Tree.Links
import FeatureTree.Tree.Checked

/-!
# Editing — arenas that are changed with care stay forests

The operations of the arena check nothing.  Whoever uses them takes care of one thing: a node is only
hung up if it hangs nowhere, and not below itself (`Free`).  A new node hangs up the children that it
brings, so the same is asked of them.  This is enough.  After any number of such changes no node is listed
twice, and none lies below itself (`forest_of_edits`), although whole subtrees were taken down and hung
up elsewhere in between.  It is not enough to be careful with the nodes that are attached: a copy of a
parent brings children that hang elsewhere already (`child_of_copied_root`).

In such an arena the walk below a node comes to its end.  It yields what a recursion over the child
lists would write down: each child, then everything below it, then the next child.
-/

namespace FeatureTree

/-- The walk ends after it has yielded these ids, one in each step. -/
inductive Walk.Yields {K V : Type} : Walk K V → List NodeId → Prop where
  | over {w : Walk K V} : w.next? = none → w.Yields []
  | step {w w' : Walk K V} {id : NodeId} {ids : List NodeId} :
      w.next? = some (id, w') → w'.Yields ids → w.Yields (id :: ids)

namespace Tree

variable {K V : Type} {t : Tree K V} {id parent child x y : NodeId} {node : Node K V}

/-! ## Changes -/

/-- A change of the arena. -/
inductive Edit (K V : Type) where
  | create (node : Node K V)
  | append (parent : NodeId) (node : Node K V)
  | popChild (parent : NodeId)
  | clearChildren (parent : NodeId)
  | attach (parent child : NodeId)

def Edit.apply (t : Tree K V) : Edit K V → Tree K V
  | create node => t.create node
  | append parent node => t.append parent node
  | popChild parent => t.popChild parent
  | clearChildren parent => t.clearChildren parent
  | attach parent child => t.attach parent child

/-- The node is known and hangs in no child list. -/
def Loose (t : Tree K V) (child : NodeId) : Prop := child < t.size ∧ child ∉ t.links

/-- The node may become a child of `parent`: it is loose, and it is neither `parent` itself nor a node
above it. -/
def Free (t : Tree K V) (parent child : NodeId) : Prop := t.Loose child ∧ ¬ t.Reaches child parent

/-- The change names known nodes only, and hangs up only what is free.  A new node mostly comes without
children; if it brings some, these are hung up as well. -/
def Edit.Fits (t : Tree K V) : Edit K V → Prop
  | create node => node.childList.Nodup ∧ ∀ child ∈ node.childList, t.Loose child
  | append parent node =>
      parent < t.size ∧ node.childList.Nodup ∧ ∀ child ∈ node.childList, t.Free parent child
  | popChild parent => parent < t.size
  | clearChildren parent => parent < t.size
  | attach parent child => parent < t.size ∧ t.Free parent child

/-- Makes the changes one after the other. -/
def edited (t : Tree K V) (edits : List (Edit K V)) : Tree K V := edits.foldl Edit.apply t

/-- Each change fits the arena that it finds. -/
def AllFit (t : Tree K V) : List (Edit K V) → Prop
  | [] => True
  | edit :: rest => edit.Fits t ∧ (edit.apply t).AllFit rest

/-! ## Taking down -/

/-- Each child list keeps some of its children. -/
theorem links_update_sublist {f : Node K V → Node K V}
    (hf : ∀ n, (f n).childList.Sublist n.childList) (t : Tree K V) (id : NodeId) :
    (t.update id f).links.Sublist t.links := by
  cases hget : t.get? id with
  | some n =>
      rcases links_split hget with ⟨front, back, hlinks, hupdate⟩
      rw [hupdate, hlinks]
      exact ((List.Sublist.refl front).append (hf n)).append (List.Sublist.refl back)
  | none =>
      have hnodes : (t.update id f).nodes.toList = t.nodes.toList := by
        rw [get?_eq_getElem?, List.getElem?_eq_none_iff] at hget
        exact Array.toList_modify.trans (List.modify_eq_self hget)
      rw [links, hnodes, links]

theorem children_update_sublist {f : Node K V → Node K V}
    (hf : ∀ n, (f n).childList.Sublist n.childList) (t : Tree K V) (id other : NodeId) :
    ((t.update id f).children other).Sublist (t.children other) := by
  have hget := get?_update t id other f
  cases hn : t.get? other with
  | none =>
      rw [hn, Option.map_none, ite_self] at hget
      rw [children_eq_nil hget]
      exact List.nil_sublist _
  | some n =>
      rw [hn, Option.map_some] at hget
      rw [children_eq hn]
      split at hget
      · rw [children_eq hget]
        exact hf n
      · rw [children_eq hget]

/-- A forest stays one when children are taken down. -/
theorem IsForest.update {f : Node K V → Node K V} (h : t.IsForest)
    (hf : ∀ n, (f n).childList.Sublist n.childList) (id : NodeId) : (t.update id f).IsForest := by
  have hlinks := links_update_sublist hf t id
  refine ⟨h.nodup.sublist hlinks, fun x hx => ?_, fun x hcycle => h.acyclic x ?_⟩
  · rw [size_update]
    exact h.known x (hlinks.mem hx)
  · have hkept : ∀ a b, b ∈ (t.update id f).children a → b ∈ t.children a :=
      fun a _ hb => (children_update_sublist hf t id a).mem hb
    exact Relation.TransGen.mono hkept x x hcycle

/-! ## New nodes -/

theorem children_create_self (t : Tree K V) (node : Node K V) :
    (t.create node).children t.size = node.childList :=
  children_eq (by rw [get?_create, if_pos rfl])

theorem children_create_of_lt (h : id < t.size) (node : Node K V) :
    (t.create node).children id = t.children id := by
  have hsame : (t.create node).get? id = t.get? id := by
    rw [get?_create, if_neg (Nat.ne_of_lt h)]
  rw [children, children, childArray, childArray, hsame]

/-- What can be reached from a known node is known. -/
theorem IsForest.lt_of_reaches (h : t.IsForest) (hx : x < t.size) (hreach : t.Reaches x y) :
    y < t.size := by
  cases hreach with
  | refl => exact hx
  | tail _ hchild => exact h.known y (mem_links.2 ⟨_, hchild⟩)

/-- Paths from old nodes are old. -/
theorem IsForest.reaches_of_create (h : t.IsForest) (hx : x < t.size)
    (hreach : (t.create node).Reaches x y) : t.Reaches x y := by
  induction hreach with
  | refl => exact .refl
  | tail _ hchild ih =>
      rw [children_create_of_lt (h.lt_of_reaches hx ih)] at hchild
      exact .tail ih hchild

/-- A new node whose children were loose. -/
theorem IsForest.create (h : t.IsForest) (hnodup : node.childList.Nodup)
    (hloose : ∀ child ∈ node.childList, t.Loose child) : (t.create node).IsForest := by
  have hold : ∀ x ∈ (t.create node).links, x < t.size := by
    intro x hx
    rw [links_create] at hx
    exact (List.mem_append.1 hx).elim (h.known x) fun hnew => (hloose x hnew).1
  refine ⟨?_, fun x hx => ?_, fun x hcycle => ?_⟩
  · rw [links_create]
    exact h.nodup.append hnodup fun x hx hnew => (hloose x hnew).2 hx
  · rw [size_create]
    exact Nat.lt_succ_of_lt (hold x hx)
  · -- What lies below a node is old, so the new node is on no cycle.
    rcases Relation.TransGen.tail'_iff.1 hcycle with ⟨last, -, hlast⟩
    have hx := hold x (mem_links.2 ⟨last, hlast⟩)
    rcases Relation.TransGen.head'_iff.1 hcycle with ⟨next, hnext, hback⟩
    rw [children_create_of_lt hx] at hnext
    have hlt := h.known next (mem_links.2 ⟨x, hnext⟩)
    exact h.acyclic x (Relation.TransGen.head' hnext (h.reaches_of_create hlt hback))

/-! ## Hanging up -/

/-- A path uses the new link at most once, because the parent is not below its new child. -/
theorem below_of_attach (hparent : parent < t.size) (hfree : ¬ t.Reaches child parent)
    (hbelow : (t.attach parent child).Below x y) :
    t.Below x y ∨ t.Reaches x parent ∧ t.Reaches child y := by
  have hlink : ∀ {a b}, b ∈ (t.attach parent child).children a →
      b ∈ t.children a ∨ a = parent ∧ b = child := by
    intro a b hb
    rw [children_attach hparent] at hb
    split at hb
    · next heq => simpa [heq] using hb
    · exact .inl hb
  induction hbelow with
  | single hchild =>
      rcases hlink hchild with hold | ⟨rfl, rfl⟩
      · exact .inl (.single hold)
      · exact .inr ⟨.refl, .refl⟩
  | tail _ hchild ih =>
      rcases hlink hchild, ih with ⟨hold | ⟨rfl, rfl⟩, hbelow | ⟨hup, hdown⟩⟩
      · exact .inl (.tail hbelow hold)
      · exact .inr ⟨hup, .tail hdown hold⟩
      · exact .inr ⟨hbelow.to_reflTransGen, .refl⟩
      · exact absurd hdown hfree

/-- A free node becomes a child. -/
theorem IsForest.attach (h : t.IsForest) (hparent : parent < t.size) (hfree : t.Free parent child) :
    (t.attach parent child).IsForest := by
  rcases hfree with ⟨⟨hknown, hloose⟩, hnot⟩
  have hlinks := links_attach hparent child
  refine ⟨hlinks.nodup_iff.2 (List.nodup_cons.2 ⟨hloose, h.nodup⟩), fun x hx => ?_, ?_⟩
  · rw [size_attach]
    rcases List.mem_cons.1 (hlinks.mem_iff.1 hx) with rfl | hold
    · exact hknown
    · exact h.known x hold
  · intro x hcycle
    rcases below_of_attach hparent hnot hcycle with hbelow | ⟨hup, hdown⟩
    · exact h.acyclic x hbelow
    · exact hnot (hdown.trans hup)

/-- A new node may become a child of a node that is not below one of its own children. -/
theorem IsForest.free_new (h : t.IsForest) (hparent : parent < t.size)
    (hfree : ∀ child ∈ node.childList, t.Free parent child) :
    (t.create node).Free parent t.size := by
  refine ⟨⟨?_, fun hlisted => ?_⟩, fun hreach => ?_⟩
  · rw [size_create]
    exact Nat.lt_succ_self _
  · rw [links_create] at hlisted
    rcases List.mem_append.1 hlisted with hold | hnew
    · exact Nat.lt_irrefl _ (h.known _ hold)
    · exact Nat.lt_irrefl _ (hfree _ hnew).1.1
  · rcases Relation.ReflTransGen.cases_head hreach with heq | ⟨child, hchild, hrest⟩
    · exact Nat.ne_of_gt hparent heq
    · change child ∈ (t.create node).children t.size at hchild
      rw [children_create_self] at hchild
      have hchildFree := hfree child hchild
      exact hchildFree.2 (h.reaches_of_create hchildFree.1.1 hrest)

/-! ## Every change, and all of them -/

/-- A change that fits keeps a forest. -/
theorem IsForest.apply {edit : Edit K V} (h : t.IsForest) (hfits : edit.Fits t) :
    (edit.apply t).IsForest := by
  cases edit with
  | create node => exact h.create hfits.1 hfits.2
  | append parent node =>
      rcases hfits with ⟨hparent, hnodup, hfree⟩
      have hcreated := h.create hnodup fun child hchild => (hfree child hchild).1
      have hlt : parent < (t.create node).size := by
        rw [size_create]
        exact Nat.lt_succ_of_lt hparent
      exact hcreated.attach hlt (h.free_new hparent hfree)
  | popChild parent =>
      refine h.update (fun n => ?_) parent
      rw [Node.childList_dropLast]
      exact List.dropLast_sublist _
  | clearChildren parent =>
      refine h.update (fun n => ?_) parent
      rw [Node.childList_clear]
      exact List.nil_sublist _
  | attach parent child => exact h.attach hfits.1 hfits.2

theorem IsForest.edited {edits : List (Edit K V)} (h : t.IsForest) (hfits : t.AllFit edits) :
    (t.edited edits).IsForest := by
  induction edits generalizing t with
  | nil => exact h
  | cons edit rest ih => exact ih (h.apply hfits.1) hfits.2

/-- A lone root without children is a forest. -/
theorem IsForest.singleton {node : Node K V} (hnode : node.childList = []) :
    (singleton node).IsForest := by
  have hlinks : (Tree.singleton node).links = [] := by simp [links, Tree.singleton, hnode]
  refine ⟨hlinks ▸ List.nodup_nil, fun x hx => ?_, fun x hcycle => ?_⟩
  · rw [hlinks] at hx
    cases hx
  · rcases Relation.TransGen.tail'_iff.1 hcycle with ⟨last, -, hlast⟩
    have hlisted := mem_links.2 ⟨last, hlast⟩
    rw [hlinks] at hlisted
    cases hlisted

/-! ## Walks to the end -/

/-- What a recursion over the child lists writes down for a list of siblings: each of them, followed
by everything below it. -/
inductive Preorder (t : Tree K V) : List NodeId → List NodeId → Prop where
  | nil : t.Preorder [] []
  | cons {id : NodeId} {siblings below after : List NodeId} :
      t.Preorder (t.children id) below → t.Preorder siblings after →
        t.Preorder (id :: siblings) (id :: (below ++ after))

namespace Preorder

variable {ids ids' nodes nodes' : List NodeId}

theorem append (h : t.Preorder ids nodes) (h' : t.Preorder ids' nodes') :
    t.Preorder (ids ++ ids') (nodes ++ nodes') := by
  induction h with
  | nil => exact h'
  | cons hbelow _ _ ih =>
      rw [List.cons_append, List.cons_append, List.append_assoc]
      exact .cons hbelow ih

/-- One node with everything below it. -/
theorem beneath (h : t.Preorder [id] (id :: nodes)) : t.Preorder (t.children id) nodes := by
  cases h with
  | cons hbelow hafter =>
      cases hafter
      rwa [List.append_nil]

/-- A walk yields its pending siblings in the order of the recursion, and goes on behind them. -/
theorem yields (h : t.Preorder ids nodes) (hrest : (Walk.mk t ids').Yields nodes') :
    (Walk.mk t (ids ++ ids')).Yields (nodes ++ nodes') := by
  induction h generalizing ids' nodes' with
  | nil => exact hrest
  | cons _ _ ihbelow ihafter =>
      rw [List.cons_append, List.cons_append, List.append_assoc]
      exact .step rfl (ihbelow (ihafter hrest))

end Preorder

/-- The nodes of a term stand in pre-order. -/
theorem Shows.preorder {A : NodeId → Prop} {T : Term (NodeId × Label K V)} (h : t.Shows A T) :
    t.Preorder [T.id] (T.labels.map Prod.fst) := by
  induction T using Term.induction with
  | leaf a =>
      have hchildren : t.children a.1 = [] := (Shows.children h).1
      have hnone : t.Preorder (t.children a.1) [] := by
        rw [hchildren]
        exact .nil
      exact .cons hnone .nil
  | branch a ts ih =>
      rcases Shows.children h with ⟨hids, hterms⟩
      change t.children a.1 = ts.map Term.id at hids
      have hall : t.Preorder (ts.map Term.id) ((Term.labelsList ts).map Prod.fst) := by
        clear h hids
        induction ts with
        | nil => exact .nil
        | cons S ts ihts =>
            rw [Term.labelsList, List.map_append]
            exact (ih S List.mem_cons_self (hterms S List.mem_cons_self)).append
              (ihts (fun X hX => ih X (List.mem_cons_of_mem _ hX))
                fun X hX => hterms X (List.mem_cons_of_mem _ hX))
      rw [Term.labels, List.map_cons, ← List.append_nil (List.map _ _)]
      exact .cons (hids ▸ hall) .nil

/-- The walk below a node ends, in pre-order, and meets what lies below the node exactly once. -/
structure WalksBelow (t : Tree K V) (id : NodeId) : Prop where
  preorder : t.Preorder (t.children id) (t.descendants id)
  yields : (t.walkBelow id).Yields (t.descendants id)
  nodup : (t.descendants id).Nodup
  mem_iff : ∀ x, x ∈ t.descendants id ↔ t.Below id x

theorem IsForest.walksBelow (h : t.IsForest) (hid : id < t.size) : t.WalksBelow id := by
  rcases h.exists_shows hid with ⟨T, hT, rfl⟩
  have hnodes := descendants_of_idTerm? hT.idTerm?
  have hpreorder : t.Preorder (t.children T.id) (t.descendants T.id) := (hnodes ▸ hT.preorder).beneath
  have hover : (Walk.mk t []).Yields [] := .over rfl
  have hyields := hpreorder.yields hover
  rw [List.append_nil, List.append_nil] at hyields
  rcases List.nodup_cons.1 (h.nodup_descendants hid) with ⟨hself, hnodup⟩
  refine ⟨hpreorder, hyields, hnodup, fun x => ⟨fun hx => ?_, fun hx => ?_⟩⟩
  · have hreach := (h.mem_descendants hid).1 (List.mem_cons_of_mem _ hx)
    rcases Relation.reflTransGen_iff_eq_or_transGen.1 hreach with rfl | hbelow
    · exact absurd hx hself
    · exact hbelow
  · rcases List.mem_cons.1 ((h.mem_descendants hid).2 hx.to_reflTransGen) with rfl | hmem
    · exact absurd hx (h.acyclic _)
    · exact hmem

/-! ## The result -/

/-- After any changes that fit, starting from a lone root, a node hangs in one child list at most and
there only once, no node lies below itself, and below every node the walk ends in pre-order. -/
theorem forest_of_edits {node : Node K V} {edits : List (Edit K V)} (hnode : node.childList = [])
    (hfits : (singleton node).AllFit edits) :
    let t := (singleton node).edited edits
    (∀ x p q, x ∈ t.children p → x ∈ t.children q → p = q) ∧ (∀ p, (t.children p).Nodup) ∧
      (∀ x, ¬ t.Below x x) ∧ ∀ x < t.size, t.WalksBelow x := by
  have hforest := (IsForest.singleton hnode).edited hfits
  exact ⟨fun _ _ _ => parent_unique hforest.nodup, children_nodup hforest.nodup, hforest.acyclic,
    fun _ => hforest.walksBelow⟩

/-- A number becomes the child of a new group that takes its place. -/
def regrouping : List (Edit String Unit) :=
  [.append root (.leaf "number"), .popChild root, .append root (.parent "group"), .attach 2 1]

theorem forest_of_regrouping :
    (singleton (.parent "list")).AllFit regrouping ∧
      (let t := (singleton (.parent "list")).edited regrouping
      (∀ x p q, x ∈ t.children p → x ∈ t.children q → p = q) ∧ (∀ p, (t.children p).Nodup) ∧
        (∀ x, ¬ t.Below x x) ∧ ∀ x < t.size, t.WalksBelow x) ∧
      ((singleton (.parent "list")).edited regrouping).descendants root = [2, 1] := by
  have hfits : (singleton (.parent "list")).AllFit regrouping := by
    refine ⟨?_, ?_, ?_, ⟨?_, ⟨?_, ?_⟩, ?_⟩, trivial⟩
    · exact ⟨by decide, List.nodup_nil, fun _ hchild => nomatch hchild⟩
    · change _ < _
      decide
    · exact ⟨by decide, List.nodup_nil, fun _ hchild => nomatch hchild⟩
    · decide
    · decide
    · decide
    · -- Nothing hangs below the number.
      intro hreach
      rcases Relation.ReflTransGen.cases_head hreach with heq | ⟨child, hchild, -⟩
      · exact absurd heq (by decide)
      · cases hchild
  exact ⟨hfits, forest_of_edits rfl hfits, by decide⟩

/-- A root with one child. -/
def family : Tree String Unit := (singleton (.parent "list")).edited [.append root (.leaf "number")]

/-- Nothing is attached here, and yet: a copy of the root shares its child when it is created in the same
tree, and has a child that is not known when a tree is started with it.  Below a node that was never
created there is no walk at all. -/
theorem child_of_copied_root :
    ∃ copy, family.get? root = some copy ∧
      (1 ∈ (family.edited [.create copy]).children root ∧
        1 ∈ (family.edited [.create copy]).children 2 ∧ root ≠ 2) ∧
      (singleton copy).descendantsOf root = .error ⟨1⟩ ∧
      family.descendantsOf 2 = .error ⟨2⟩ :=
  ⟨⟨"list", none, none, some #[1]⟩, by decide, by decide, by decide, by decide⟩

end Tree
end FeatureTree
