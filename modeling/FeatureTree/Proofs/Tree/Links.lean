import FeatureTree.Proofs.Tree.Nesting
import Mathlib.Data.Fintype.Card
import Mathlib.Data.Fintype.EquivFin
import Mathlib.Data.List.Nodup
import Mathlib.Logic.Relation

/-!
# Links — which node hangs in which child list

The arena checks nothing: a node may hang in two child lists, or below itself.  `Tree.links` puts all
child lists into one list, and says what the operations do to it.  `Tree.Below` leads from a node
through child lists to the nodes below it.

Where no node is listed twice and none lies below itself, every node unfolds to a finite term
(`exists_shows`).  The walk below a node then meets each node that can be reached exactly once
(`mem_descendants`, `nodup_descendants`).
-/

namespace FeatureTree

variable {K V : Type}

namespace Tree

/-- All child lists, one after the other. -/
def links (t : Tree K V) : List NodeId := t.nodes.toList.flatMap Node.childList

/-- From a node through one or more child lists. -/
def Below (t : Tree K V) : NodeId → NodeId → Prop :=
  Relation.TransGen fun parent child => child ∈ t.children parent

/-- From a node through any number of child lists. -/
def Reaches (t : Tree K V) : NodeId → NodeId → Prop :=
  Relation.ReflTransGen fun parent child => child ∈ t.children parent

variable {t t' : Tree K V} {id parent child : NodeId} {n node : Node K V}

/-! ## Child lists and links -/

theorem children_eq (h : t.get? id = some n) : t.children id = n.childList := by
  simp [children, childArray, h, Node.childList]

theorem children_eq_nil (h : t.get? id = none) : t.children id = [] := by
  simp [children, childArray, h]

/-- A node with a child is known. -/
theorem exists_get?_of_mem (h : child ∈ t.children parent) :
    ∃ n, t.get? parent = some n ∧ child ∈ n.childList := by
  cases hget : t.get? parent with
  | none => simp [children_eq_nil hget] at h
  | some n => exact ⟨n, rfl, children_eq hget ▸ h⟩

theorem get?_eq_getElem? (t : Tree K V) (id : NodeId) : t.get? id = t.nodes.toList[id]? := by
  rw [Array.getElem?_toList]
  rfl

theorem mem_links : id ∈ t.links ↔ ∃ parent, id ∈ t.children parent := by
  rw [links, List.mem_flatMap]
  constructor
  · rintro ⟨n, hn, hid⟩
    rcases List.getElem?_of_mem hn with ⟨parent, hget⟩
    rw [← get?_eq_getElem?] at hget
    exact ⟨parent, children_eq hget ▸ hid⟩
  · rintro ⟨parent, hid⟩
    rcases exists_get?_of_mem hid with ⟨n, hget, hmem⟩
    exact ⟨n, List.mem_of_getElem? (get?_eq_getElem? t parent ▸ hget), hmem⟩

/-- A known node holds a segment of the links; changing the node changes that segment. -/
theorem links_split (h : t.get? id = some n) :
    ∃ front back, t.links = front ++ n.childList ++ back ∧
      ∀ f, (t.update id f).links = front ++ (f n).childList ++ back := by
  rw [get?_eq_getElem?] at h
  obtain ⟨hlt, hn⟩ := List.getElem?_eq_some_iff.1 h
  have hdrop : t.nodes.toList.drop id = n :: t.nodes.toList.drop (id + 1) :=
    hn ▸ List.drop_eq_getElem_cons hlt
  refine ⟨(t.nodes.toList.take id).flatMap Node.childList,
    (t.nodes.toList.drop (id + 1)).flatMap Node.childList, ?_, fun f => ?_⟩
  · conv_lhs => rw [links, ← List.take_append_drop id t.nodes.toList, hdrop]
    simp
  · have hnodes : (t.update id f).nodes.toList = t.nodes.toList.modify id f := Array.toList_modify
    rw [links, hnodes, List.modify_eq_take_drop, hdrop]
    simp

theorem links_create (t : Tree K V) (node : Node K V) :
    (t.create node).links = t.links ++ node.childList := by
  simp [links, create]

theorem links_attach (h : parent < t.size) (child : NodeId) :
    (t.attach parent child).links.Perm (child :: t.links) := by
  obtain ⟨n, hget⟩ : ∃ n, t.get? parent = some n := ⟨_, Array.getElem?_eq_getElem h⟩
  rcases links_split hget with ⟨front, back, hlinks, hupdate⟩
  have hadopt : (t.attach parent child).links = (front ++ n.childList) ++ child :: back := by
    rw [attach, hupdate, Node.childList_adopt]
    simp
  rw [hadopt, hlinks]
  exact List.perm_middle

theorem links_append (h : parent < t.size) (hnode : node.childList = []) :
    (t.append parent node).links.Perm (t.size :: t.links) := by
  have hcreated : (t.create node).links = t.links := by rw [links_create, hnode, List.append_nil]
  have hlt : parent < (t.create node).size := by
    rw [size_create]
    exact Nat.lt_succ_of_lt h
  exact hcreated ▸ links_attach hlt t.size

theorem links_popChild (h : t.lastChild? parent = some child) :
    t.links.Perm (child :: (t.popChild parent).links) := by
  rw [lastChild?_eq_getLast?] at h
  rcases exists_get?_of_mem (List.mem_of_getLast? h) with ⟨n, hget, -⟩
  rw [children_eq hget] at h
  rcases links_split hget with ⟨front, back, hlinks, hupdate⟩
  have hlast : n.childList = n.childList.dropLast ++ [child] :=
    (List.dropLast_append_getLast? child h).symm
  have hdrop : (t.popChild parent).links = (front ++ n.childList.dropLast) ++ back := by
    rw [popChild, hupdate, Node.childList_dropLast]
  have hbefore : t.links = (front ++ n.childList.dropLast) ++ child :: back := by
    rw [hlinks, hlast]
    simp
  rw [hdrop, hbefore]
  exact List.perm_middle

/-! ## Children after a change -/

theorem children_attach (h : parent < t.size) (child id : NodeId) :
    (t.attach parent child).children id =
      if parent = id then t.children id ++ [child] else t.children id := by
  obtain ⟨n, hget⟩ : ∃ n, t.get? parent = some n := ⟨_, Array.getElem?_eq_getElem h⟩
  by_cases hid : parent = id
  · subst hid
    have hnew : (t.attach parent child).get? parent = some (n.adopt child) := by
      rw [attach, get?_update, if_pos rfl, hget, Option.map_some]
    rw [if_pos rfl, children_eq hnew, children_eq hget, Node.childList_adopt]
  · have hsame : (t.attach parent child).get? id = t.get? id := by
      rw [attach, get?_update, if_neg hid]
    rw [if_neg hid, children, children, childArray, childArray, hsame]

theorem children_create (hnode : node.childList = []) (id : NodeId) :
    (t.create node).children id = t.children id := by
  by_cases hid : id = t.size
  · subst hid
    have hnew : (t.create node).get? t.size = some node := by rw [get?_create, if_pos rfl]
    have hnone : t.get? t.size = none := Array.getElem?_eq_none (Nat.le_refl _)
    rw [children_eq hnew, hnode, children_eq_nil hnone]
  · have hsame : (t.create node).get? id = t.get? id := by rw [get?_create, if_neg hid]
    rw [children, children, childArray, childArray, hsame]

theorem children_append (h : parent < t.size) (hnode : node.childList = []) (id : NodeId) :
    (t.append parent node).children id =
      if parent = id then t.children id ++ [t.size] else t.children id := by
  have hlt : parent < (t.create node).size := by
    rw [size_create]
    exact Nat.lt_succ_of_lt h
  have hattach := children_attach hlt t.size id
  rwa [children_create hnode] at hattach

theorem mem_children_append {other : NodeId} (h : parent < t.size) (hnode : node.childList = []) :
    other ∈ (t.append parent node).children id ↔
      other ∈ t.children id ∨ id = parent ∧ other = t.size := by
  rw [children_append h hnode]
  split
  · next heq => simp [heq]
  · next hne => simp [Ne.symm hne]

theorem children_popChild (t : Tree K V) (parent id : NodeId) :
    (t.popChild parent).children id =
      if parent = id then (t.children id).dropLast else t.children id := by
  have hget := get?_update t parent id Node.dropLast
  by_cases hid : parent = id
  · rw [if_pos hid] at hget ⊢
    cases hn : t.get? id with
    | none =>
        have hnone : (t.popChild parent).get? id = none := by rw [popChild, hget, hn, Option.map_none]
        rw [children_eq_nil hnone, children_eq_nil hn, List.dropLast_nil]
    | some n =>
        have hsome : (t.popChild parent).get? id = some n.dropLast := by
          rw [popChild, hget, hn, Option.map_some]
        rw [children_eq hsome, children_eq hn, Node.childList_dropLast]
  · rw [if_neg hid] at hget ⊢
    rw [children, children, childArray, childArray, popChild, hget]

theorem popChild_eq_self (h : t.lastChild? parent = none) (id : NodeId) :
    (t.popChild parent).children id = t.children id := by
  rw [lastChild?_eq_getLast?, List.getLast?_eq_none_iff] at h
  rw [children_popChild]
  split
  · next hid => rw [← hid, h, List.dropLast_nil]
  · rfl

/-- A change of a node that leaves its child list as it is. -/
theorem links_update {f : Node K V → Node K V} (hf : ∀ n, (f n).childList = n.childList)
    (t : Tree K V) (id : NodeId) : (t.update id f).links = t.links := by
  cases hget : t.get? id with
  | some n =>
      rcases links_split hget with ⟨front, back, hlinks, hupdate⟩
      rw [hupdate, hf, hlinks]
  | none =>
      have hnodes : (t.update id f).nodes.toList = t.nodes.toList := by
        rw [get?_eq_getElem?, List.getElem?_eq_none_iff] at hget
        exact Array.toList_modify.trans (List.modify_eq_self hget)
      rw [links, hnodes, links]

theorem children_update {f : Node K V → Node K V} (hf : ∀ n, (f n).childList = n.childList)
    (t : Tree K V) (id other : NodeId) : (t.update id f).children other = t.children other := by
  have hget := get?_update t id other f
  cases hn : t.get? other with
  | none =>
      rw [hn, Option.map_none, ite_self] at hget
      rw [children_eq_nil hget, children_eq_nil hn]
  | some n =>
      rw [hn, Option.map_some] at hget
      rw [children_eq hn]
      split at hget
      · rw [children_eq hget, hf]
      · rw [children_eq hget]

/-! ## Forests -/

/-- No node is listed twice or lies below itself, and all listed nodes are known. -/
structure IsForest (t : Tree K V) : Prop where
  nodup : t.links.Nodup
  known : ∀ id ∈ t.links, id < t.size
  acyclic : ∀ id, ¬ t.Below id id

theorem children_nodup (h : t.links.Nodup) (id : NodeId) : (t.children id).Nodup := by
  cases hget : t.get? id with
  | none =>
      rw [children_eq_nil hget]
      exact List.nodup_nil
  | some n =>
      rw [children_eq hget]
      exact (List.nodup_flatMap.1 h).1 n (List.mem_of_getElem? (get?_eq_getElem? t id ▸ hget))

/-- A node hangs in one child list at most. -/
theorem parent_unique {other : NodeId} (h : t.links.Nodup) (hid : id ∈ t.children parent)
    (hother : id ∈ t.children other) : parent = other := by
  have hdisjoint := List.pairwise_iff_getElem.1 (List.nodup_flatMap.1 h).2
  have hlt : ∀ {i j}, i < j → id ∈ t.children i → id ∈ t.children j → False := by
    intro i j hij hi hj
    rcases exists_get?_of_mem hi with ⟨n, hn, hmem⟩
    rcases exists_get?_of_mem hj with ⟨n', hn', hmem'⟩
    rw [get?_eq_getElem?] at hn hn'
    obtain ⟨hilt, hieq⟩ := List.getElem?_eq_some_iff.1 hn
    obtain ⟨hjlt, hjeq⟩ := List.getElem?_eq_some_iff.1 hn'
    exact hdisjoint i j hilt hjlt hij (hieq ▸ hmem) (hjeq ▸ hmem')
  rcases Nat.lt_trichotomy parent other with h | h | h
  · exact (hlt h hid hother).elim
  · exact h
  · exact (hlt h hother hid).elim

/-- Only the last child leaves its child list. -/
theorem mem_links_popChild (hnodup : t.links.Nodup) (hlast : t.lastChild? parent = some child) :
    id ∈ (t.popChild parent).links ↔ id ∈ t.links ∧ id ≠ child := by
  have hlinks := links_popChild hlast
  have hchild := (List.nodup_cons.1 (hlinks.nodup_iff.1 hnodup)).1
  rw [hlinks.mem_iff, List.mem_cons]
  constructor
  · exact fun hid => ⟨.inr hid, fun heq => hchild (heq ▸ hid)⟩
  · exact fun hid => hid.1.resolve_left hid.2

theorem children_popChild_sublist (t : Tree K V) (parent id : NodeId) :
    ((t.popChild parent).children id).Sublist (t.children id) := by
  rw [children_popChild]
  split
  · exact List.dropLast_sublist _
  · exact List.Sublist.refl _

theorem mem_children_popChild {other : NodeId} (hnodup : t.links.Nodup)
    (hlast : t.lastChild? parent = some child) (hother : other ∈ t.children id) (hne : other ≠ child) :
    other ∈ (t.popChild parent).children id := by
  have hlisted := (mem_links_popChild hnodup hlast).2 ⟨mem_links.2 ⟨id, hother⟩, hne⟩
  rcases mem_links.1 hlisted with ⟨p, hp⟩
  obtain rfl : p = id := parent_unique hnodup ((children_popChild_sublist t parent p).mem hp) hother
  exact hp

/-- A child without children leaves its child list; no path led through it. -/
theorem Below.popChild {other : NodeId} (hbelow : t.Below id other) (hnodup : t.links.Nodup)
    (hlast : t.lastChild? parent = some child) (hleaf : t.children child = []) (hne : other ≠ child) :
    (t.popChild parent).Below id other := by
  induction hbelow with
  | single hchild => exact .single (mem_children_popChild hnodup hlast hchild hne)
  | @tail y z _ hz ih =>
      have hy : y ≠ child := by
        rintro rfl
        rw [hleaf] at hz
        cases hz
      exact .tail (ih hy) (mem_children_popChild hnodup hlast hz hne)

namespace IsForest

/-- A node does not lie below another child of its parent. -/
theorem not_reaches_sibling {other : NodeId} (h : t.IsForest) (hid : id ∈ t.children parent)
    (hother : other ∈ t.children parent) (hne : id ≠ other) : ¬ t.Reaches id other := by
  intro hreach
  rcases Relation.ReflTransGen.cases_tail hreach with heq | ⟨p, hp, hlast⟩
  · exact hne heq.symm
  · obtain rfl : p = parent := parent_unique h.nodup hlast hother
    exact h.acyclic p (Relation.TransGen.head' hid hp)

/-- Terms for several nodes at once. -/
theorem exists_showsAll {ids : List NodeId}
    (h : ∀ id ∈ ids, ∃ T : Term (NodeId × Label K V), t.Shows (fun _ => True) T ∧ T.id = id) :
    ∃ terms : List (Term (NodeId × Label K V)),
      terms.map Term.id = ids ∧ ∀ T ∈ terms, t.Shows (fun _ => True) T := by
  induction ids with
  | nil => exact ⟨[], rfl, fun _ hT => nomatch hT⟩
  | cons id ids ih =>
      rcases h id List.mem_cons_self with ⟨T, hT, hid⟩
      rcases ih fun other hother => h other (List.mem_cons_of_mem _ hother) with
        ⟨terms, hids, hterms⟩
      refine ⟨T :: terms, by rw [List.map_cons, hid, hids], fun S hS => ?_⟩
      rcases List.mem_cons.1 hS with rfl | hS
      · exact hT
      · exact hterms S hS

/-- A known node unfolds to a term if all its children do. -/
theorem exists_shows_of_children (hid : id < t.size)
    (h : ∀ child ∈ t.children id,
      ∃ T : Term (NodeId × Label K V), t.Shows (fun _ => True) T ∧ T.id = child) :
    ∃ T : Term (NodeId × Label K V), t.Shows (fun _ => True) T ∧ T.id = id := by
  obtain ⟨n, hget⟩ : ∃ n, t.get? id = some n := ⟨_, Array.getElem?_eq_getElem hid⟩
  rcases exists_showsAll h with ⟨terms, hids, hterms⟩
  rcases n with ⟨kind, value, position, _ | ids⟩
  · exact ⟨.leaf (id, ⟨kind, value, position⟩), ⟨trivial, hget⟩, rfl⟩
  · refine ⟨.branch (id, ⟨kind, value, position⟩) terms, shows_branch.2 ⟨trivial, ?_, hterms⟩, rfl⟩
    rw [hids, children_eq hget, hget]
    simp [Label.over, Node.childList, Node.childArray]

/-- Every node of a forest unfolds to a term. -/
theorem exists_shows (h : t.IsForest) (hid : id < t.size) :
    ∃ T : Term (NodeId × Label K V), t.Shows (fun _ => True) T ∧ T.id = id := by
  -- By induction on the nodes below, which is well-founded because there are finitely many.
  let r : Fin t.size → Fin t.size → Prop := fun a b => t.Below b a
  have : IsTrans (Fin t.size) r := ⟨fun _ _ _ hab hbc => Relation.TransGen.trans hbc hab⟩
  have : Std.Irrefl r := ⟨fun a => h.acyclic a⟩
  have hwf : WellFounded r := Finite.wellFounded_of_trans_of_irrefl r
  suffices hall : ∀ i : Fin t.size,
      ∃ T : Term (NodeId × Label K V), t.Shows (fun _ => True) T ∧ T.id = i.1 from hall ⟨id, hid⟩
  intro i
  induction i using hwf.induction with
  | _ i ih =>
      obtain ⟨i, hi⟩ := i
      apply exists_shows_of_children hi
      intro child hchild
      have hlt := h.known child (mem_links.2 ⟨i, hchild⟩)
      exact ih ⟨child, hlt⟩ (Relation.TransGen.single hchild)

end IsForest

variable {A : NodeId → Prop} {T : Term (NodeId × Label K V)}

/-- The nodes of a term are those that can be reached from its topmost one. -/
theorem Shows.mem_ids (h : t.Shows A T) : id ∈ T.labels.map Prod.fst ↔ t.Reaches T.id id := by
  induction T using Term.induction with
  | leaf a =>
      have hchildren := (Shows.children h).1
      change t.children a.1 = [] at hchildren
      change id ∈ [a.1] ↔ t.Reaches a.1 id
      rw [List.mem_singleton]
      constructor
      · rintro rfl
        exact .refl
      · intro hreach
        rcases Relation.ReflTransGen.cases_head hreach with heq | ⟨child, hchild, -⟩
        · exact heq.symm
        · rw [hchildren] at hchild
          cases hchild
  | branch a terms ih =>
      rcases Shows.children h with ⟨hids, hterms⟩
      change t.children a.1 = terms.map Term.id at hids
      change id ∈ (Term.branch a terms).labels.map Prod.fst ↔ t.Reaches a.1 id
      rw [Term.labels, Term.labelsList_eq_flatMap, List.map_cons, List.mem_cons, List.map_flatMap,
        List.mem_flatMap]
      constructor
      · rintro (rfl | ⟨S, hS, hmem⟩)
        · exact .refl
        · have hchild : S.id ∈ t.children a.1 := hids ▸ List.mem_map_of_mem hS
          exact .head hchild ((ih S hS (hterms S hS)).1 hmem)
      · intro hreach
        rcases Relation.ReflTransGen.cases_head hreach with heq | ⟨child, hchild, hrest⟩
        · exact .inl heq.symm
        · change child ∈ t.children a.1 at hchild
          rw [hids] at hchild
          rcases List.mem_map.1 hchild with ⟨S, hS, rfl⟩
          exact .inr ⟨S, hS, (ih S hS (hterms S hS)).2 hrest⟩

/-- No node occurs twice in a term. -/
theorem Shows.nodup_ids (hforest : t.IsForest) (h : t.Shows A T) : (T.labels.map Prod.fst).Nodup := by
  induction T using Term.induction with
  | leaf a => exact List.nodup_singleton _
  | branch a terms ih =>
      rcases Shows.children h with ⟨hids, hterms⟩
      change t.children a.1 = terms.map Term.id at hids
      have hchild : ∀ S ∈ terms, S.id ∈ t.children a.1 := fun S hS => hids ▸ List.mem_map_of_mem hS
      rw [Term.labels, Term.labelsList_eq_flatMap, List.map_cons, List.map_flatMap]
      refine List.nodup_cons.2 ⟨fun hmem => ?_, List.nodup_flatMap.2 ⟨fun S hS => ?_, ?_⟩⟩
      · rcases List.mem_flatMap.1 hmem with ⟨S, hS, hid⟩
        exact hforest.acyclic a.1 (Relation.TransGen.head' (hchild S hS) ((hterms S hS).mem_ids.1 hid))
      · exact ih S hS (hterms S hS)
      · have hdistinct : terms.Pairwise fun S S' => S.id ≠ S'.id :=
          List.pairwise_map.1 (hids ▸ children_nodup hforest.nodup a.1)
        refine hdistinct.imp_of_mem fun {S S'} hS hS' hne => ?_
        intro x hx hx'
        -- Of two nodes above `x`, one lies above the other, because parents are unique.
        have hparent : Relator.RightUnique fun child parent => child ∈ t.children parent :=
          fun _ _ _ hp hq => parent_unique hforest.nodup hp hq
        have hup := Relation.reflTransGen_swap.2 ((hterms S hS).mem_ids.1 hx)
        have hup' := Relation.reflTransGen_swap.2 ((hterms S' hS').mem_ids.1 hx')
        rcases Relation.ReflTransGen.total_of_right_unique hparent hup hup' with h | h
        · exact hforest.not_reaches_sibling (hchild S' hS') (hchild S hS) hne.symm
            (Relation.reflTransGen_swap.2 h)
        · exact hforest.not_reaches_sibling (hchild S hS) (hchild S' hS') hne
            (Relation.reflTransGen_swap.2 h)

namespace IsForest

/-- A node and everything below it are the nodes that can be reached from it. -/
theorem mem_descendants (h : t.IsForest) (hid : id < t.size) {x : NodeId} :
    x ∈ id :: t.descendants id ↔ t.Reaches id x := by
  rcases h.exists_shows hid with ⟨T, hT, rfl⟩
  rw [descendants_of_idTerm? hT.idTerm?]
  exact hT.mem_ids

/-- The walk below a node meets no node twice, and does not come back to the node itself. -/
theorem nodup_descendants (h : t.IsForest) (hid : id < t.size) : (id :: t.descendants id).Nodup := by
  rcases h.exists_shows hid with ⟨T, hT, rfl⟩
  rw [descendants_of_idTerm? hT.idTerm?]
  exact hT.nodup_ids h

end IsForest

end Tree

end FeatureTree
