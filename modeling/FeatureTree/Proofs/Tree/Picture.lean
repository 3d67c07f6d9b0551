import FeatureTree.Tree.Term
import FeatureTree.Tree.Walk
import Mathlib.Data.List.Perm.Subperm

/-!
# Picture — what an arena shows of a term

`Tree.Shows t A T` says that the arena holds the nodes of the term `T` under the ids that the term
carries, and that all these ids lie in `A`.  A change outside `A` leaves the picture as it is, which is
how facts about subtrees survive the building of other parts of the tree.

`Shows.idTerm?` leads back to the executable unfolding: a term that is shown is the term that
`Tree.idTerm?` finds, because no node lies below itself.
-/

namespace FeatureTree

variable {K V : Type}

namespace Term

/-- A property of terms that passes from the children to their parent. -/
@[elab_as_elim]
theorem induction {α : Type} {motive : Term α → Prop} (leaf : ∀ a, motive (leaf a))
    (branch : ∀ a ts, (∀ t ∈ ts, motive t) → motive (branch a ts)) : ∀ t, motive t
  | .leaf a => leaf a
  | .branch a ts => branch a ts fun t _ => induction leaf branch t

/-- The id of the topmost node. -/
def id (T : Term (NodeId × Label K V)) : NodeId := T.label.1

theorem label_map {α β : Type} (f : α → β) (T : Term α) : (T.map f).label = f T.label := by
  cases T <;> rfl

theorem children_map {α β : Type} (f : α → β) (T : Term α) :
    (T.map f).children = T.children.map (Term.map f) := by
  cases T with
  | leaf a => rfl
  | branch a ts => exact mapList_eq_map f ts

theorem labels_map {α β : Type} (f : α → β) (T : Term α) : (T.map f).labels = T.labels.map f := by
  induction T using Term.induction with
  | leaf a => rfl
  | branch a ts ih =>
      rw [Term.map, labels, labels, mapList_eq_map, labelsList_eq_flatMap, labelsList_eq_flatMap,
        List.flatMap_map, List.map_cons, List.map_flatMap]
      congr 1
      exact List.flatMap_congr ih

theorem label_mem_labels {α : Type} (T : Term α) : T.label ∈ T.labels := by
  cases T <;> exact List.mem_cons_self

theorem mem_labels_branch {α : Type} {a b : α} {ts : List (Term α)} :
    b ∈ (branch a ts).labels ↔ b = a ∨ ∃ T ∈ ts, b ∈ T.labels := by
  rw [labels, labelsList_eq_flatMap, List.mem_cons, List.mem_flatMap]

theorem mem_labels_of_mem {α : Type} {a b : α} {T : Term α} {ts : List (Term α)} (hT : T ∈ ts)
    (hb : b ∈ T.labels) : b ∈ (branch a ts).labels :=
  mem_labels_branch.2 (.inr ⟨T, hT, hb⟩)

end Term

/-- A parent with the given label and children. -/
def Label.over (label : Label K V) (ids : List NodeId) : Node K V :=
  ⟨label.kind, label.value, label.position, some ids.toArray⟩

@[simp] theorem Label.label_over (label : Label K V) (ids : List NodeId) :
    (label.over ids).label = label := rfl

@[simp] theorem Label.label_leaf (label : Label K V) : label.leaf.label = label := rfl

@[simp] theorem Label.childList_over (label : Label K V) (ids : List NodeId) :
    (label.over ids).childList = ids := rfl

theorem Label.leaf_inj {label label' : Label K V} (h : label.leaf = label'.leaf) :
    label = label' := congrArg Node.label h

theorem Label.over_inj {label label' : Label K V} {ids ids' : List NodeId}
    (h : label.over ids = label'.over ids') : label = label' ∧ ids = ids' :=
  ⟨congrArg Node.label h, congrArg Node.childList h⟩

theorem Label.leaf_ne_over {label label' : Label K V} {ids : List NodeId} :
    label.leaf ≠ label'.over ids := fun h => nomatch congrArg Node.children h

@[simp] theorem Label.adopt_over (label : Label K V) (ids : List NodeId) (child : NodeId) :
    (label.over ids).adopt child = label.over (ids ++ [child]) := by
  simp [Label.over, Node.adopt]

@[simp] theorem Label.dropLast_over (label : Label K V) (ids : List NodeId) :
    (label.over ids).dropLast = label.over ids.dropLast := by
  simp [Label.over, Node.dropLast]

namespace Tree

/-! ## Lookups after a change -/

variable {t t' : Tree K V} {id parent : NodeId} {node : Node K V}

theorem lt_size_of_get? (h : t.get? id = some node) : id < t.size :=
  (Array.getElem?_eq_some_iff.1 h).1

theorem ext_get? (h : ∀ id, t.get? id = t'.get? id) : t = t' := by
  rcases t with ⟨nodes, _⟩
  rcases t' with ⟨nodes', _⟩
  have hnodes : nodes = nodes' := Array.ext_getElem? (fun id => h id)
  subst hnodes
  rfl

theorem get?_append_of_ne (hparent : id ≠ parent) (hnew : id ≠ t.size) :
    (t.append parent node).get? id = t.get? id := by
  simp [append, attach, get?_update, get?_create, hparent.symm, hnew]

theorem get?_append_parent (hparent : parent < t.size) :
    (t.append parent node).get? parent = (t.get? parent).map (·.adopt t.size) := by
  have hne : parent ≠ t.size := Nat.ne_of_lt hparent
  simp [append, attach, get?_update, get?_create, hne]

theorem get?_append_new (hparent : parent < t.size) :
    (t.append parent node).get? t.size = some node := by
  have hne : parent ≠ t.size := Nat.ne_of_lt hparent
  simp [append, attach, get?_update, get?_create, hne]

theorem children_of_get? {label : Label K V} {ids : List NodeId}
    (h : t.get? id = some (label.over ids)) : t.children id = ids := by
  simp [children, childArray, h, Label.over, Node.childArray]

/-! ## Pictures -/

mutual

/-- The arena holds the term under the ids that it carries, which lie in `A`. -/
def Shows (t : Tree K V) (A : NodeId → Prop) : Term (NodeId × Label K V) → Prop
  | .leaf (id, label) => A id ∧ t.get? id = some label.leaf
  | .branch (id, label) terms =>
      A id ∧ t.get? id = some (label.over (terms.map Term.id)) ∧ ShowsAll t A terms

/-- The arena holds several terms. -/
def ShowsAll (t : Tree K V) (A : NodeId → Prop) : List (Term (NodeId × Label K V)) → Prop
  | [] => True
  | T :: terms => Shows t A T ∧ ShowsAll t A terms

end

variable {A A' : NodeId → Prop} {T T' : Term (NodeId × Label K V)}
variable {terms : List (Term (NodeId × Label K V))}

theorem showsAll_iff : ShowsAll t A terms ↔ ∀ T ∈ terms, Shows t A T := by
  induction terms with
  | nil => simp [ShowsAll]
  | cons T terms ih => simp [ShowsAll, ih]

theorem shows_branch {label : Label K V} :
    Shows t A (.branch (id, label) terms) ↔
      A id ∧ t.get? id = some (label.over (terms.map Term.id)) ∧ ∀ T ∈ terms, Shows t A T := by
  rw [Shows, showsAll_iff]

theorem Shows.id_lt (h : Shows t A T) : T.id < t.size := by
  cases T with
  | leaf a => exact lt_size_of_get? h.2
  | branch a terms => exact lt_size_of_get? h.2.1

/-- The topmost node of a picture, without its children. -/
theorem Shows.label_eq (h : Shows t A T) : (t.get? T.id).map Node.label = some T.label.2 := by
  cases T with
  | leaf a =>
      change (t.get? a.1).map Node.label = some a.2
      rw [h.2]
      rfl
  | branch a terms =>
      change (t.get? a.1).map Node.label = some a.2
      rw [h.2.1]
      rfl

theorem Shows.position? (h : Shows t A T) : t.position? T.id = T.label.2.position := by
  rcases Option.map_eq_some_iff.1 h.label_eq with ⟨n, hget, hlabel⟩
  rw [Tree.position?, hget, ← hlabel]
  rfl

/-- A picture stays when nothing in its ids changes. -/
theorem Shows.frame (h : Shows t A T)
    (hframe : ∀ id, A id → A' id ∧ t'.get? id = t.get? id) : Shows t' A' T := by
  induction T using Term.induction with
  | leaf a => exact ⟨(hframe a.1 h.1).1, (hframe a.1 h.1).2.trans h.2⟩
  | branch a terms ih =>
      rcases shows_branch.1 h with ⟨hid, hget, hterms⟩
      refine shows_branch.2 ⟨(hframe a.1 hid).1, (hframe a.1 hid).2.trans hget, ?_⟩
      exact fun T hT => ih T hT (hterms T hT)

/-- Lists of terms with the same ids are equal, if terms of the same id are. -/
theorem eq_of_ids_eq {terms' : List (Term (NodeId × Label K V))}
    (hids : terms.map Term.id = terms'.map Term.id)
    (h : ∀ S ∈ terms, ∀ S' ∈ terms', S.id = S'.id → S = S') : terms = terms' := by
  induction terms generalizing terms' with
  | nil => exact (List.map_eq_nil_iff.1 hids.symm).symm
  | cons T terms ih =>
      cases terms' with
      | nil => cases hids
      | cons T' terms' =>
          rcases List.cons.inj hids with ⟨hhead, htail⟩
          have hrest := ih htail fun S hS S' hS' =>
            h S (List.mem_cons_of_mem _ hS) S' (List.mem_cons_of_mem _ hS')
          rw [h T List.mem_cons_self T' List.mem_cons_self hhead, hrest]

/-- The arena shows at most one term at each node. -/
theorem Shows.unique (h : Shows t A T) (h' : Shows t A' T') (hid : T.id = T'.id) : T = T' := by
  induction T using Term.induction generalizing T' with
  | leaf a =>
      obtain ⟨id, label⟩ := a
      cases T' with
      | leaf a' =>
          obtain ⟨id', label'⟩ := a'
          obtain rfl : id = id' := hid
          rw [Label.leaf_inj (Option.some.inj (h.2.symm.trans h'.2))]
      | branch a' terms' =>
          obtain ⟨id', label'⟩ := a'
          obtain rfl : id = id' := hid
          exact absurd (Option.some.inj (h.2.symm.trans h'.2.1)) Label.leaf_ne_over
  | branch a terms ih =>
      obtain ⟨id, label⟩ := a
      rcases shows_branch.1 h with ⟨-, hget, hterms⟩
      cases T' with
      | leaf a' =>
          obtain ⟨id', label'⟩ := a'
          obtain rfl : id = id' := hid
          exact absurd (Option.some.inj (h'.2.symm.trans hget)) Label.leaf_ne_over
      | branch a' terms' =>
          obtain ⟨id', label'⟩ := a'
          obtain rfl : id = id' := hid
          rcases shows_branch.1 h' with ⟨-, hget', hterms'⟩
          rcases Label.over_inj (Option.some.inj (hget.symm.trans hget')) with ⟨rfl, hids⟩
          -- The children have the same ids, so they are equal one by one.
          have heq : terms = terms' := eq_of_ids_eq hids fun S hS S' hS' hid =>
            ih S hS (hterms S hS) (hterms' S' hS') hid
          rw [heq]

/-- Each node of a picture shows a part of it. -/
theorem Shows.of_mem_labels {a : NodeId × Label K V} (h : Shows t A T) (ha : a ∈ T.labels) :
    ∃ S, Shows t A S ∧ S.id = a.1 ∧ sizeOf S ≤ sizeOf T := by
  induction T using Term.induction with
  | leaf b =>
      obtain rfl : a = b := List.mem_singleton.1 ha
      exact ⟨_, h, rfl, Nat.le_refl _⟩
  | branch b terms ih =>
      rcases Term.mem_labels_branch.1 ha with rfl | ⟨S, hS, haS⟩
      · exact ⟨_, h, rfl, Nat.le_refl _⟩
      · rcases ih S hS ((shows_branch.1 h).2.2 S hS) haS with ⟨R, hR, hid, hsize⟩
        refine ⟨R, hR, hid, Nat.le_trans hsize ?_⟩
        have hmem := List.sizeOf_lt_of_mem hS
        simp only [Term.branch.sizeOf_spec]
        omega

/-- No node lies below itself. -/
theorem Shows.ne_of_mem_labels {a b : NodeId × Label K V} {S : Term (NodeId × Label K V)}
    (h : Shows t A (.branch b terms)) (hS : S ∈ terms) (ha : a ∈ S.labels) : a.1 ≠ b.1 := by
  intro heq
  have hshows := (shows_branch.1 h).2.2 S hS
  rcases hshows.of_mem_labels ha with ⟨R, hR, hid, hsize⟩
  obtain rfl : R = .branch b terms := hR.unique h (hid.trans heq)
  have hmem := List.sizeOf_lt_of_mem hS
  simp only [Term.branch.sizeOf_spec] at hsize
  omega

/-! ## Pictures and unfolding -/

theorem mapM_ids {f : NodeId → Option (Term (NodeId × Label K V))}
    (h : ∀ T ∈ terms, f T.id = some T) : (terms.map Term.id).mapM f = some terms := by
  induction terms with
  | nil => rfl
  | cons T terms ih =>
      rw [List.map_cons, List.mapM_cons, h T List.mem_cons_self,
        ih fun S hS => h S (List.mem_cons_of_mem _ hS)]
      rfl

/-- The nodes above a picture: each of them shows a larger term. -/
def Above (t : Tree K V) (A : NodeId → Prop) (path : List NodeId)
    (T : Term (NodeId × Label K V)) : Prop :=
  ∀ id ∈ path, ∃ larger, Shows t A larger ∧ larger.id = id ∧ sizeOf T < sizeOf larger

/-- No node lies below itself, so the nodes above a picture and its own are different nodes. -/
theorem Above.length_lt {path : List NodeId} (habove : Above t A path T) (hnodup : path.Nodup)
    (h : Shows t A T) : (T.id :: path).Nodup ∧ path.length < t.size := by
  have hnot : T.id ∉ path := by
    intro hmem
    rcases habove T.id hmem with ⟨larger, hlarger, hid, hsize⟩
    rw [hlarger.unique h hid] at hsize
    exact Nat.lt_irrefl _ hsize
  have hall : (T.id :: path).Nodup := List.nodup_cons.2 ⟨hnot, hnodup⟩
  have hsubset : (T.id :: path) ⊆ List.range t.size := by
    intro id hid
    rw [List.mem_range]
    rcases List.mem_cons.1 hid with rfl | hmem
    · exact h.id_lt
    · rcases habove id hmem with ⟨larger, hlarger, rfl, -⟩
      exact hlarger.id_lt
  refine ⟨hall, ?_⟩
  have hlength := (hall.subperm hsubset).length_le
  rw [List.length_cons, List.length_range] at hlength
  omega

theorem Shows.expand? (h : Shows t A T) (path : List NodeId) (habove : Above t A path T)
    (hnodup : path.Nodup) {height : Nat} (hheight : t.size ≤ path.length + height) :
    t.expand? height T.id = some T := by
  induction T using Term.induction generalizing path height with
  | leaf a =>
      rcases habove.length_lt hnodup h with ⟨-, hlength⟩
      obtain ⟨height, rfl⟩ : ∃ n, height = n + 1 := ⟨height - 1, by omega⟩
      change t.expand? (height + 1) a.1 = _
      rw [Tree.expand?, h.2]
      rfl
  | branch a terms ih =>
      rcases habove.length_lt hnodup h with ⟨hall, hlength⟩
      rcases shows_branch.1 h with ⟨-, hget, hterms⟩
      obtain ⟨height, rfl⟩ : ∃ n, height = n + 1 := ⟨height - 1, by omega⟩
      change t.expand? (height + 1) a.1 = _
      rw [Tree.expand?, hget]
      have hchildren : (terms.map Term.id).mapM (t.expand? height) = some terms := by
        apply mapM_ids
        intro S hS
        have hsize : sizeOf S < sizeOf (Term.branch a terms) := by
          have hmem := List.sizeOf_lt_of_mem hS
          simp only [Term.branch.sizeOf_spec]
          omega
        -- The path above grows by this node as the height shrinks.
        refine ih S hS (hterms S hS) (a.1 :: path) ?_ hall ?_
        · intro id hid
          rcases List.mem_cons.1 hid with rfl | hmem
          · exact ⟨_, h, rfl, hsize⟩
          · rcases habove id hmem with ⟨larger, hlarger, hid, hlt⟩
            exact ⟨larger, hlarger, hid, Nat.lt_trans hsize hlt⟩
        · rw [List.length_cons]
          omega
      simp only [Label.over, hchildren]
      rfl

/-- A term that is shown is the term of its node. -/
theorem Shows.idTerm? (h : Shows t A T) : t.idTerm? T.id = some T :=
  h.expand? [] (fun _ hid => nomatch hid) List.nodup_nil (by simp)

theorem mapM_eq_some {α β : Type} {f : α → Option β} {items : List α} {results : List β}
    (h : items.mapM f = some results) : List.Forall₂ (fun a b => f a = some b) items results := by
  induction items generalizing results with
  | nil =>
      obtain rfl : results = [] := (Option.some.inj h).symm
      exact .nil
  | cons a items ih =>
      rw [List.mapM_cons] at h
      rcases Option.bind_eq_some_iff.1 h with ⟨b, hb, hrest⟩
      rcases Option.bind_eq_some_iff.1 hrest with ⟨rest, hmap, hpure⟩
      obtain rfl : results = b :: rest := (Option.some.inj hpure).symm
      exact .cons hb (ih hmap)

/-- A node unfolds to a leaf, or to a branch over what its children unfold to. -/
theorem expand?_cases {height : Nat} (h : t.expand? (height + 1) id = some T) :
    (∃ label, t.get? id = some label.leaf ∧ T = .leaf (id, label)) ∨
    ∃ label ids terms, t.get? id = some (label.over ids) ∧
      List.Forall₂ (fun child S => t.expand? height child = some S) ids terms ∧
      T = .branch (id, label) terms := by
  rw [Tree.expand?] at h
  split at h
  · cases h
  · next n hget =>
      rcases n with ⟨kind, value, position, children⟩
      cases children with
      | none => exact .inl ⟨⟨kind, value, position⟩, hget, (Option.some.inj h).symm⟩
      | some ids =>
          rcases Option.map_eq_some_iff.1 h with ⟨terms, hterms, rfl⟩
          exact .inr ⟨⟨kind, value, position⟩, ids.toList, terms, hget, mapM_eq_some hterms, rfl⟩

/-- What a node unfolds to is shown there. -/
theorem shows_of_expand? {height : Nat} (h : t.expand? height id = some T) :
    Shows t (fun _ => True) T ∧ T.id = id := by
  induction height generalizing id T with
  | zero => cases h
  | succ height ih =>
      rcases expand?_cases h with ⟨label, hget, rfl⟩ | ⟨label, ids, terms, hget, hall, rfl⟩
      · exact ⟨⟨trivial, hget⟩, rfl⟩
      · have hterms : List.Forall₂ (fun S child => Shows t (fun _ => True) S ∧ S.id = child) terms ids :=
          List.Forall₂.flip (hall.imp fun _ _ hchild => ih hchild)
        rcases (List.forall₂_and_left terms ids).1 hterms with ⟨hshown, hids⟩
        rw [← List.forall₂_map_left_iff, List.forall₂_eq_eq_eq] at hids
        exact ⟨shows_branch.2 ⟨trivial, hids ▸ hget, hshown⟩, rfl⟩

/-- An unfolded node has as many nodes below as there are paths down from it. -/
theorem spread_of_expand? {height : Nat} (h : t.expand? height id = some T) :
    t.spread height id + 1 = T.labels.length := by
  induction height generalizing id T with
  | zero => cases h
  | succ height ih =>
      rcases expand?_cases h with ⟨label, hget, rfl⟩ | ⟨label, ids, terms, hget, hall, rfl⟩
      · simp [spread, Tree.children, childArray, hget, Label.leaf, Node.childArray, Term.labels]
      · have hchildren : t.children id = ids := by
          simp [Tree.children, childArray, hget, Label.over, Node.childArray]
        rw [spread, hchildren, Term.labels, List.length_cons]
        -- Each child counts itself and what is below it; the sums agree child by child.
        have hcounts := hall.imp fun _ _ hchild => ih hchild
        clear hchildren hget hall h
        induction hcounts with
        | nil => rfl
        | cons hcount _ ihlist =>
            rw [Term.labelsList, List.foldr_cons, List.length_append]
            omega

theorem Shows.term? (h : Shows t A T) : t.term? T.id = some (T.map Prod.snd) := by
  rw [Tree.term?, h.idTerm?]
  rfl

end Tree
end FeatureTree
