import FeatureTree.Proofs.Tree.Picture

/-!
# Spine — a tree that grows along one path

While a tree is being built, the nodes under construction form a path downwards: each has finished terms
for children and, behind them, the next node of the path.  A `Bough` is such a node with the terms that
its children show, and `Grows t₀ t boughs` says that `t` was built from `t₀` along the path `boughs`,
given from its inner end.

The lemmas say what the operations of the arena do to this picture: a leaf is attached at the inner end,
the last child is taken away, the path gets longer, and its last node becomes a finished term.
-/

namespace FeatureTree

variable {K V : Type}

/-- A node under construction, its label, and the terms that its children show. -/
structure Bough (K V : Type) where
  node : NodeId
  label : Label K V
  shown : List (Term (Label K V))

namespace Tree

variable {t t' t₀ : Tree K V} {A A' : NodeId → Prop} {b b' : Bough K V} {rest : List (Bough K V)}
variable {inner : List NodeId} {label : Label K V}

/-! ## One node of the path -/

/-- The children of the node show the terms, and `inner` stands behind them. -/
def Holds (t : Tree K V) (A : NodeId → Prop) (b : Bough K V) (inner : List NodeId) : Prop :=
  ∃ drawn : List (Term (NodeId × Label K V)), drawn.map (Term.map Prod.snd) = b.shown ∧
    t.get? b.node = some (b.label.over (drawn.map Term.id ++ inner)) ∧ ∀ T ∈ drawn, t.Shows A T

theorem Holds.frame (h : t.Holds A b inner)
    (hframe : ∀ id, A id → A' id ∧ t'.get? id = t.get? id)
    (hnode : t'.get? b.node = t.get? b.node) : t'.Holds A' b inner := by
  rcases h with ⟨drawn, hshown, hget, hterms⟩
  exact ⟨drawn, hshown, hnode.trans hget, fun T hT => (hterms T hT).frame hframe⟩

/-- A child behind the terms. -/
theorem Holds.adopt {child : NodeId} (h : t.Holds A b [])
    (hframe : ∀ id, A id → A' id ∧ t'.get? id = t.get? id)
    (hnode : t'.get? b.node = (t.get? b.node).map (·.adopt child)) : t'.Holds A' b [child] := by
  rcases h with ⟨drawn, hshown, hget, hterms⟩
  refine ⟨drawn, hshown, ?_, fun T hT => (hterms T hT).frame hframe⟩
  rw [hnode, hget]
  simp

/-- The child behind the terms is finished. -/
theorem Holds.settle {T : Term (NodeId × Label K V)} (h : t.Holds A b [T.id])
    (hT : t.Shows A T) : t.Holds A { b with shown := b.shown ++ [T.map Prod.snd] } [] := by
  rcases h with ⟨drawn, hshown, hget, hterms⟩
  refine ⟨drawn ++ [T], by simp [hshown], ?_, ?_⟩
  · rw [hget]
    simp
  · intro S hS
    rcases List.mem_append.1 hS with hold | hnew
    · exact hterms S hold
    · exact List.mem_singleton.1 hnew ▸ hT

/-- The last term, taken away from the others. -/
theorem Holds.unsettle {shown : List (Term (Label K V))} {T : Term (Label K V)}
    (h : t.Holds A b []) (hshown : b.shown = shown ++ [T]) :
    ∃ drawn, Term.map Prod.snd drawn = T ∧ t.Shows A drawn ∧
      t.Holds A { b with shown := shown } [drawn.id] := by
  rcases h with ⟨drawn, hdrawn, hget, hterms⟩
  rw [hshown] at hdrawn
  rcases List.map_eq_append_iff.1 hdrawn with ⟨front, last, rfl, hfront, hlast⟩
  rcases List.map_eq_singleton_iff.1 hlast with ⟨D, rfl, hD⟩
  refine ⟨D, hD, hterms D (by simp), front, hfront, ?_, fun S hS => hterms S (by simp [hS])⟩
  simpa using hget

theorem Holds.dropLast (h : t.Holds A b [])
    (hframe : ∀ id, A id → A' id ∧ t'.get? id = t.get? id)
    (hnode : t'.get? b.node = (t.get? b.node).map Node.dropLast) :
    t'.Holds A' { b with shown := b.shown.dropLast } [] := by
  rcases h with ⟨drawn, hshown, hget, hterms⟩
  refine ⟨drawn.dropLast, by rw [List.map_dropLast, hshown], ?_, ?_⟩
  · rw [hnode, hget]
    simp [List.map_dropLast]
  · exact fun T hT => (hterms T (List.dropLast_subset _ hT)).frame hframe

/-! ## The path -/

/-- Each node of the path holds its terms and, behind them, the next node of the path. -/
def Stands (t : Tree K V) (A : NodeId → Prop) : List NodeId → List (Bough K V) → Prop
  | _, [] => True
  | inner, b :: rest => t.Holds A b inner ∧ t.Stands A [b.node] rest

theorem Stands.frame {boughs : List (Bough K V)} (h : t.Stands A inner boughs)
    (hframe : ∀ id, A id → A' id ∧ t'.get? id = t.get? id)
    (hnodes : ∀ b ∈ boughs, t'.get? b.node = t.get? b.node) : t'.Stands A' inner boughs := by
  induction boughs generalizing inner with
  | nil => trivial
  | cons b rest ih =>
      refine ⟨h.1.frame hframe (hnodes b List.mem_cons_self), ih h.2 ?_⟩
      exact fun c hc => hnodes c (List.mem_cons_of_mem _ hc)

/-- The ids of the terms that have been finished since `t₀`. -/
def Finished (t₀ t : Tree K V) (path : List NodeId) (id : NodeId) : Prop :=
  t₀.size ≤ id ∧ id < t.size ∧ id ∉ path

/-- The tree was built from `t₀` along the path `boughs`, which is given from its inner end. -/
structure Grows (t₀ t : Tree K V) (boughs : List (Bough K V)) : Prop where
  stands : t.Stands (Finished t₀ t (boughs.map Bough.node)) [] boughs
  nodup : (boughs.map Bough.node).Nodup
  known : ∀ id ∈ boughs.map Bough.node, id < t.size
  kept : ∀ id < t₀.size, id ∉ boughs.map Bough.node → t.get? id = t₀.get? id
  size_le : t₀.size ≤ t.size

theorem Grows.start (h : t.get? b.node = some (b.label.over [])) (hshown : b.shown = []) :
    t.Grows t [b] where
  stands := ⟨⟨[], hshown.symm, h, fun _ hT => (nomatch hT)⟩, trivial⟩
  nodup := List.nodup_cons.2 ⟨fun hmem => (nomatch hmem), List.nodup_nil⟩
  known := by
    intro id hid
    rw [List.mem_singleton.1 hid]
    exact lt_size_of_get? h
  kept := fun _ _ _ => rfl
  size_le := Nat.le_refl _

theorem Grows.head_lt (h : Grows t₀ t (b :: rest)) : b.node < t.size :=
  h.known _ List.mem_cons_self

theorem Grows.ne_of_mem (h : Grows t₀ t (b :: rest)) {c : Bough K V} (hc : c ∈ rest) :
    c.node ≠ b.node := by
  intro heq
  have hnot := (List.nodup_cons.1 h.nodup).1
  exact hnot (heq ▸ List.mem_map_of_mem hc)

/-- A change at the inner end leaves finished terms as they are. -/
theorem Finished.carry {path path' : List NodeId} {node : NodeId} (hsize : t.size ≤ t'.size)
    (hother : ∀ id < t.size, id ≠ node → t'.get? id = t.get? id)
    (hpath : ∀ id < t.size, id ∉ node :: path → id ∉ path') :
    ∀ id, Finished t₀ t (node :: path) id →
      Finished t₀ t' path' id ∧ t'.get? id = t.get? id := by
  intro id hid
  rcases hid with ⟨hlow, hlt, hnot⟩
  have hne : id ≠ node := fun heq => hnot (heq ▸ List.mem_cons_self)
  exact ⟨⟨hlow, Nat.lt_of_lt_of_le hlt hsize, hpath id hlt hnot⟩, hother id hlt hne⟩

/-- A new node is on no path so far. -/
theorem not_mem_lengthened {path : List NodeId} :
    ∀ id < t.size, id ∉ path → id ∉ t.size :: path := by
  intro id hlt hid hmem
  rcases List.mem_cons.1 hmem with rfl | hold
  · exact Nat.lt_irrefl _ hlt
  · exact hid hold

/-- A change at the inner end leaves the nodes around it as they are. -/
theorem Grows.around (h : Grows t₀ t (b :: rest)) {path : List NodeId} (hsize : t.size ≤ t'.size)
    (hother : ∀ id < t.size, id ≠ b.node → t'.get? id = t.get? id)
    (hpath : ∀ id < t.size, id ∉ (b :: rest).map Bough.node → id ∉ path) :
    t'.Stands (Finished t₀ t' path) [b.node] rest := by
  refine h.stands.2.frame (Finished.carry hsize hother hpath) ?_
  intro c hc
  have hlt := h.known _ (List.mem_cons_of_mem _ (List.mem_map_of_mem hc))
  exact hother _ hlt (h.ne_of_mem hc)

theorem Grows.kept_of_other (h : Grows t₀ t (b :: rest))
    (hother : ∀ id < t.size, id ≠ b.node → t'.get? id = t.get? id) :
    ∀ id < t₀.size, id ∉ (b :: rest).map Bough.node → t'.get? id = t₀.get? id := by
  intro id hlt hid
  rw [hother id (Nat.lt_of_lt_of_le hlt h.size_le) fun heq => hid (heq ▸ List.mem_cons_self)]
  exact h.kept id hlt hid

/-- Another picture of the inner end, when nothing else changes. -/
theorem Grows.refocus {label : Label K V} {shown : List (Term (Label K V))}
    (h : Grows t₀ t (b :: rest)) (hsize : t.size ≤ t'.size)
    (hother : ∀ id < t.size, id ≠ b.node → t'.get? id = t.get? id)
    (hholds : t'.Holds (Finished t₀ t' ((b :: rest).map Bough.node)) ⟨b.node, label, shown⟩ []) :
    Grows t₀ t' (⟨b.node, label, shown⟩ :: rest) where
  stands := ⟨hholds, h.around hsize hother fun _ _ hid => hid⟩
  nodup := h.nodup
  known := fun id hid => Nat.lt_of_lt_of_le (h.known id hid) hsize
  kept := h.kept_of_other hother
  size_le := Nat.le_trans h.size_le hsize

/-- The path gets longer by a new node, which stands behind the terms of the old end. -/
theorem Grows.lengthen {label label' : Label K V} {shown shown' : List (Term (Label K V))}
    (h : Grows t₀ t (b :: rest)) (hsize : t.size < t'.size)
    (hother : ∀ id < t.size, id ≠ b.node → t'.get? id = t.get? id)
    (hholds : t'.Holds (Finished t₀ t' (t.size :: (b :: rest).map Bough.node))
      ⟨b.node, label, shown⟩ [t.size])
    (hnew : t'.Holds (Finished t₀ t' (t.size :: (b :: rest).map Bough.node))
      ⟨t.size, label', shown'⟩ []) :
    Grows t₀ t' (⟨t.size, label', shown'⟩ :: ⟨b.node, label, shown⟩ :: rest) where
  stands := ⟨hnew, hholds, h.around (Nat.le_of_lt hsize) hother not_mem_lengthened⟩
  nodup := List.nodup_cons.2 ⟨fun hmem => Nat.lt_irrefl _ (h.known _ hmem), h.nodup⟩
  known := by
    rintro id (_ | ⟨_, hmem⟩)
    · exact hsize
    · exact Nat.lt_trans (h.known id hmem) hsize
  kept := fun id hlt hid =>
    h.kept_of_other hother id hlt fun hmem => hid (List.mem_cons_of_mem _ hmem)
  size_le := Nat.le_trans h.size_le (Nat.le_of_lt hsize)

/-! ## Operations -/

/-- A leaf is attached to the inner end. -/
theorem Grows.attach (h : Grows t₀ t (b :: rest)) (label : Label K V) :
    Grows t₀ (t.append b.node label.leaf)
      ({ b with shown := b.shown ++ [.leaf label] } :: rest) := by
  have hsize : (t.append b.node label.leaf).size = t.size + 1 := size_append _ _ _
  have hother : ∀ id < t.size, id ≠ b.node →
      (t.append b.node label.leaf).get? id = t.get? id :=
    fun id hlt hne => get?_append_of_ne hne (Nat.ne_of_lt hlt)
  have hle : t.size ≤ (t.append b.node label.leaf).size := hsize ▸ Nat.le_succ _
  refine h.refocus hle hother ?_
  have hadopted := h.stands.1.adopt (Finished.carry hle hother fun _ _ hid => hid)
    (get?_append_parent h.head_lt)
  refine hadopted.settle (T := .leaf (t.size, label)) ⟨⟨h.size_le, ?_, ?_⟩, ?_⟩
  · exact hsize ▸ Nat.lt_succ_self _
  · exact fun hmem => Nat.lt_irrefl _ (h.known _ hmem)
  · exact get?_append_new h.head_lt

/-- The last child of the inner end is taken away. -/
theorem Grows.popChild (h : Grows t₀ t (b :: rest)) :
    Grows t₀ (t.popChild b.node) ({ b with shown := b.shown.dropLast } :: rest) := by
  have hsize : (t.popChild b.node).size = t.size := size_update _ _ _
  have hother : ∀ id < t.size, id ≠ b.node → (t.popChild b.node).get? id = t.get? id := by
    intro id _ hne
    rw [Tree.popChild, get?_update, if_neg (Ne.symm hne)]
  have hle : t.size ≤ (t.popChild b.node).size := Nat.le_of_eq hsize.symm
  refine h.refocus hle hother (h.stands.1.dropLast ?_ ?_)
  · exact Finished.carry hle hother fun _ _ hid => hid
  · rw [Tree.popChild, get?_update, if_pos rfl]

/-- A parent without children is attached to the inner end, and is the new end. -/
theorem Grows.open (h : Grows t₀ t (b :: rest)) (label : Label K V) :
    Grows t₀ (t.append b.node (label.over [])) (⟨t.size, label, []⟩ :: b :: rest) := by
  have hsize : (t.append b.node (label.over [])).size = t.size + 1 := size_append _ _ _
  have hother : ∀ id < t.size, id ≠ b.node →
      (t.append b.node (label.over [])).get? id = t.get? id :=
    fun id hlt hne => get?_append_of_ne hne (Nat.ne_of_lt hlt)
  have hlt : t.size < (t.append b.node (label.over [])).size := hsize ▸ Nat.lt_succ_self _
  refine h.lengthen hlt hother ?_ ?_
  · exact h.stands.1.adopt (Finished.carry (Nat.le_of_lt hlt) hother not_mem_lengthened)
      (get?_append_parent h.head_lt)
  · exact ⟨[], rfl, get?_append_new h.head_lt, fun _ hT => nomatch hT⟩

/-- A parent is attached to the inner end and takes the last term over; it is the new end. -/
theorem Grows.openWith {front : List (Term (Label K V))} {T : Term (Label K V)}
    (h : Grows t₀ t (b :: rest)) (hshown : b.shown = front ++ [T]) (label : Label K V) :
    ∃ operand, t.lastChild? b.node = some operand ∧
      Grows t₀ (((t.popChild b.node).append b.node (label.over [])).attach t.size operand)
        (⟨t.size, label, [T]⟩ :: { b with shown := front } :: rest) := by
  rcases h.stands.1.unsettle hshown with ⟨D, rfl, hD, drawn, hdrawn, hget, hterms⟩
  change t.get? b.node = some (b.label.over (drawn.map Term.id ++ [D.id])) at hget
  have hlt := h.head_lt
  have hne : b.node ≠ t.size := Nat.ne_of_lt hlt
  refine ⟨D.id, ?_, ?_⟩
  · rw [lastChild?_eq_getLast?, children_of_get? hget, List.getLast?_concat]
  -- The tree changes at the old end, which loses its last child and gets the new parent, and at the
  -- new parent, which adopts the child.
  generalize ht' : ((t.popChild b.node).append b.node (label.over [])).attach t.size D.id = t'
  have hpopped : (t.popChild b.node).size = t.size := size_update _ _ _
  have hsize : t'.size = t.size + 1 := by
    rw [← ht', size_attach, size_append, hpopped]
  have hother : ∀ id < t.size, id ≠ b.node → t'.get? id = t.get? id := by
    intro id hid hnode
    have hold : id ≠ t.size := Nat.ne_of_lt hid
    calc t'.get? id
        = ((t.popChild b.node).append b.node (label.over [])).get? id := by
          rw [← ht', Tree.attach, get?_update, if_neg hold.symm]
      _ = (t.popChild b.node).get? id := get?_append_of_ne hnode (hpopped ▸ hold)
      _ = t.get? id := by rw [Tree.popChild, get?_update, if_neg hnode.symm]
  have hend : t'.get? b.node = some (b.label.over (drawn.map Term.id ++ [t.size])) := by
    rw [← ht', Tree.attach, get?_update, if_neg hne.symm, get?_append_parent (hpopped ▸ hlt), hpopped,
      Tree.popChild, get?_update, if_pos rfl, hget]
    simp
  have hnew : t'.get? t.size = some (label.over [D.id]) := by
    have hcreated : ((t.popChild b.node).append b.node (label.over [])).get? t.size =
        some (label.over []) := hpopped ▸ get?_append_new (hpopped ▸ hlt)
    rw [← ht', Tree.attach, get?_update, if_pos rfl, hcreated]
    simp
  have hlarger : t.size < t'.size := hsize ▸ Nat.lt_succ_self _
  have hcarry : ∀ id, Finished t₀ t ((b :: rest).map Bough.node) id →
      Finished t₀ t' (t.size :: (b :: rest).map Bough.node) id ∧ t'.get? id = t.get? id :=
    Finished.carry (Nat.le_of_lt hlarger) hother not_mem_lengthened
  refine h.lengthen hlarger hother ?_ ?_
  · exact ⟨drawn, hdrawn, hend, fun S hS => (hterms S hS).frame hcarry⟩
  · refine ⟨[D], rfl, hnew, fun S hS => ?_⟩
    exact List.mem_singleton.1 hS ▸ hD.frame hcarry

/-- A parent is attached to an inner end without terms, and is the new end. -/
theorem Grows.openWithout (h : Grows t₀ t (b :: rest)) (hshown : b.shown = [])
    (label : Label K V) : t.lastChild? b.node = none ∧
      Grows t₀ ((t.popChild b.node).append b.node (label.over []))
        (⟨t.size, label, []⟩ :: b :: rest) := by
  have hlast : t.lastChild? b.node = none := by
    rcases h.stands.1 with ⟨drawn, hdrawn, hget, -⟩
    rw [hshown, List.map_eq_nil_iff] at hdrawn
    rw [lastChild?_eq_getLast?, children_of_get? hget, hdrawn]
    rfl
  have hopened := h.popChild.open label
  have hpopped : (t.popChild b.node).size = t.size := size_update _ _ _
  rw [hpopped, hshown] at hopened
  refine ⟨hlast, ?_⟩
  rcases b with ⟨node, label', shown⟩
  obtain rfl : shown = [] := hshown
  exact hopened

/-- The inner end gets another label. -/
theorem Grows.relabel (h : Grows t₀ t (b :: rest)) (label : Label K V) {f : Node K V → Node K V}
    (hf : ∀ ids, f (b.label.over ids) = label.over ids) :
    Grows t₀ (t.update b.node f) ({ b with label } :: rest) := by
  have hsize : (t.update b.node f).size = t.size := size_update _ _ _
  have hother : ∀ id < t.size, id ≠ b.node → (t.update b.node f).get? id = t.get? id := by
    intro id _ hne
    rw [get?_update, if_neg (Ne.symm hne)]
  have hle : t.size ≤ (t.update b.node f).size := Nat.le_of_eq hsize.symm
  refine h.refocus hle hother ?_
  rcases h.stands.1 with ⟨drawn, hshown, hget, hterms⟩
  refine ⟨drawn, hshown, ?_, fun T hT => (hterms T hT).frame ?_⟩
  · change (t.update b.node f).get? b.node = _
    rw [get?_update, if_pos rfl, hget, Option.map_some, hf]
  · exact Finished.carry hle hother fun _ _ hid => hid

/-- The inner end becomes a finished term of the node around it. -/
theorem Grows.fold {c : Bough K V} (h : Grows t₀ t (b :: c :: rest)) (hnew : t₀.size ≤ b.node) :
    Grows t₀ t ({ c with shown := c.shown ++ [.branch b.label b.shown] } :: rest) := by
  rcases List.nodup_cons.1 h.nodup with ⟨hnot, hnodup⟩
  -- A shorter path leaves more ids finished.
  have hweaken : ∀ id, Finished t₀ t ((b :: c :: rest).map Bough.node) id →
      Finished t₀ t ((c :: rest).map Bough.node) id ∧ t.get? id = t.get? id :=
    fun id hid => ⟨⟨hid.1, hid.2.1, fun hmem => hid.2.2 (List.mem_cons_of_mem _ hmem)⟩, rfl⟩
  rcases h.stands with ⟨⟨drawn, hshown, hget, hterms⟩, hholds, hrest⟩
  have hdrawn : t.Shows (Finished t₀ t ((c :: rest).map Bough.node))
      (.branch (b.node, b.label) drawn) := by
    refine shows_branch.2 ⟨⟨hnew, h.head_lt, hnot⟩, by simpa using hget, ?_⟩
    exact fun T hT => (hterms T hT).frame hweaken
  have hmap : Term.map Prod.snd (.branch (b.node, b.label) drawn) = .branch b.label b.shown := by
    rw [Term.map, Term.mapList_eq_map, hshown]
  refine ⟨⟨?_, hrest.frame hweaken fun _ _ => rfl⟩, hnodup, ?_, ?_, h.size_le⟩
  · rw [← hmap]
    exact (hholds.frame hweaken rfl).settle hdrawn
  · exact fun id hid => h.known id (List.mem_cons_of_mem _ hid)
  · intro id hlt hid
    refine h.kept id hlt ?_
    rintro (_ | ⟨_, hmem⟩)
    · exact Nat.not_lt.2 hnew hlt
    · exact hid hmem

/-- Building below the inner end is building along the whole path. -/
theorem Grows.resume {t₁ : Tree K V} {shown : List (Term (Label K V))}
    (h : Grows t₀ t (b :: rest)) (hinner : Grows t t₁ [{ b with shown }]) :
    Grows t₀ t₁ ({ b with shown } :: rest) := by
  -- Of the old nodes, only the inner end is on the path of the second part.
  have hother : ∀ id < t.size, id ≠ b.node → t₁.get? id = t.get? id := by
    intro id hlt hne
    exact hinner.kept id hlt fun hmem => hne (List.mem_singleton.1 hmem)
  refine h.refocus hinner.size_le hother (hinner.stands.1.frame ?_ rfl)
  rintro id ⟨hlow, hlt, hid⟩
  refine ⟨⟨Nat.le_trans h.size_le hlow, hlt, fun hmem => ?_⟩, rfl⟩
  exact Nat.not_lt.2 hlow (h.known id hmem)

/-- The outermost node is shown with all its terms when the path is at its end. -/
theorem Grows.term? (h : Grows t₀ t [b]) : t.term? b.node = some (.branch b.label b.shown) := by
  rcases h.stands.1 with ⟨drawn, hshown, hget, hterms⟩
  have hdrawn : t.Shows (fun _ => True) (.branch (b.node, b.label) drawn) := by
    refine shows_branch.2 ⟨trivial, by simpa using hget, fun T hT => ?_⟩
    exact (hterms T hT).frame fun _ _ => ⟨trivial, rfl⟩
  have hterm := hdrawn.term?
  rw [Term.map, Term.mapList_eq_map, hshown] at hterm
  exact hterm

end Tree
end FeatureTree
