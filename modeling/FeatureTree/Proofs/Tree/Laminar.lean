import FeatureTree.Proofs.Tree.Links

/-!
# Laminar — spans in order at any distance

The check of positions looks at neighbours only: at a node and its children, and at two children that
follow each other.  In a tree whose nodes all have spans this is enough for all pairs of nodes: of two
nodes one lies below the other and inside of its span, or neither lies below the other and the one that
comes first in pre-order ends where the other starts, or before (`positionsConsistent_iff_laminar`).

That neither lies below the other has to be said: a child may start behind the end of its parent, and
then the parent comes first and ends before the child starts (`child_behind_parent`).
-/

namespace FeatureTree

/-! ## Rows of spans -/

namespace Runs

variable {lo hi : Nat} {l : List Position}

/-- In a row each span ends in front of all spans behind it. -/
theorem pairwise (h : Runs lo l hi) : l.Pairwise fun p q => p.stop.offset ≤ q.start.offset := by
  induction l generalizing lo with
  | nil => exact .nil
  | cons p rest ih => exact .cons (fun q hq => (h.2.2.mem hq).1) (ih h.2.2)

/-- Spans between two offsets form a row if each ends in front of all spans behind it. -/
theorem of_pairwise (hle : lo ≤ hi)
    (hl : ∀ p ∈ l, lo ≤ p.start.offset ∧ p.start.offset ≤ p.stop.offset ∧ p.stop.offset ≤ hi)
    (h : l.Pairwise fun p q => p.stop.offset ≤ q.start.offset) : Runs lo l hi := by
  induction l generalizing lo with
  | nil => exact hle
  | cons p rest ih =>
      rcases hl p List.mem_cons_self with ⟨hstart, hupright, hstop⟩
      rcases List.pairwise_cons.1 h with ⟨hfirst, hrest⟩
      refine ⟨hstart, hupright, ih hstop (fun q hq => ⟨hfirst q hq, ?_⟩) hrest⟩
      exact (hl q (List.mem_cons_of_mem _ hq)).2

end Runs

/-- What holds at every node, and of every label. -/
theorem Term.Every.and_labels {α : Type} {P : α → List (Term α) → Prop} {Q : α → Prop} {T : Term α}
    (h : T.Every P) (hQ : ∀ a ∈ T.labels, Q a) : T.Every fun a ts => P a ts ∧ Q a := by
  induction h with
  | leaf here => exact .leaf ⟨here, hQ _ List.mem_cons_self⟩
  | branch here _ ih =>
      refine .branch ⟨here, hQ _ List.mem_cons_self⟩ fun S hS => ih S hS fun a ha => ?_
      exact hQ a (Term.mem_labels_of_mem hS ha)

namespace Tree

variable {K V : Type} {t : Tree K V} {id x y : NodeId} {p q : Position}

/-! ## Pairs of nodes -/

/-- The subtree of a node is a tree: it unfolds to a finite term, and no node occurs in it twice. -/
structure TreeShaped (t : Tree K V) (id : NodeId) : Prop where
  unfolds : ∃ T, t.idTerm? id = some T
  nodup : (id :: t.descendants id).Nodup

/-- A node and everything below it have spans, and none of these ends before it starts. -/
def Spanned (t : Tree K V) (id : NodeId) : Prop :=
  ∀ x ∈ id :: t.descendants id, ∃ p, t.position? x = some p ∧ p.start.offset ≤ p.stop.offset

theorem Spanned.upright (h : t.Spanned id) : t.Upright id := by
  intro x hx p hp
  rcases h x hx with ⟨q, hq, hupright⟩
  rw [hp] at hq
  exact Option.some.inj hq ▸ hupright

/-- Two nodes with their spans, in pre-order: one lies below the other and inside of its span, or
neither lies below the other and the first span ends before the second starts. -/
def InPlace (t : Tree K V) (x y : NodeId) (p q : Position) : Prop :=
  (t.Below x y ∧ p.encloses q = true) ∨ (t.Below y x ∧ q.encloses p = true) ∨
    (¬ t.Below x y ∧ ¬ t.Below y x) ∧ p.stop.offset ≤ q.start.offset

/-- Any two nodes from a node downwards are in place, at whatever distance. -/
def Laminar (t : Tree K V) (id : NodeId) : Prop :=
  ∀ x y, [x, y].Sublist (id :: t.descendants id) → ∀ p q, t.position? x = some p →
    t.position? y = some q → t.InPlace x y p q

theorem encloses_iff : p.encloses q = true ↔
    p.start.offset ≤ q.start.offset ∧ q.stop.offset ≤ p.stop.offset := by
  simp [Position.encloses]

theorem inPlace_below (hbelow : t.Below x y) (hnot : ¬ t.Below y x) :
    t.InPlace x y p q ↔ p.encloses q = true := by
  simp [InPlace, hbelow, hnot]

theorem inPlace_apart (hnot : ¬ t.Below x y) (hnot' : ¬ t.Below y x) :
    t.InPlace x y p q ↔ p.stop.offset ≤ q.start.offset := by
  simp [InPlace, hnot, hnot']

/-! ## Terms -/

/-- Two labels whose nodes are in place. -/
def Settled (t : Tree K V) (a b : NodeId × Label K V) : Prop :=
  ∀ p q, a.2.position = some p → b.2.position = some q → t.InPlace a.1 b.1 p q

variable {A : NodeId → Prop} {T S S' : Term (NodeId × Label K V)} {a : NodeId × Label K V}
variable {ts : List (Term (NodeId × Label K V))}

/-- The nodes of the children lie below their parent, and the parent below none of them. -/
theorem Shows.below_of_mem (h : t.Shows A (.branch a ts)) (hS : S ∈ ts)
    {b : NodeId × Label K V} (hb : b ∈ S.labels) : t.Below a.1 b.1 ∧ ¬ t.Below b.1 a.1 := by
  rcases Shows.children h with ⟨hids, hterms⟩
  have hchild : S.id ∈ t.children a.1 := by
    change t.children a.1 = ts.map Term.id at hids
    exact hids ▸ List.mem_map_of_mem hS
  have hreach := (hterms S hS).mem_ids.1 (List.mem_map_of_mem hb)
  refine ⟨Relation.TransGen.head' hchild hreach, fun hback => ?_⟩
  -- Else the parent would be one of the nodes of its child.
  have hmem := (hterms S hS).mem_ids.2 (hreach.trans hback.to_reflTransGen)
  rcases List.mem_map.1 hmem with ⟨c, hc, heq⟩
  exact h.ne_of_mem_labels hS hc heq

/-- No node of a term lies below a node of another one, if the two have no node in common. -/
theorem Shows.not_below (h : t.Shows A S)
    (hdisjoint : List.Disjoint (S.labels.map Prod.fst) (S'.labels.map Prod.fst))
    {b c : NodeId × Label K V} (hb : b ∈ S.labels) (hc : c ∈ S'.labels) : ¬ t.Below b.1 c.1 := by
  intro hbelow
  have hreach := h.mem_ids.1 (List.mem_map_of_mem hb)
  exact hdisjoint (h.mem_ids.2 (hreach.trans hbelow.to_reflTransGen)) (List.mem_map_of_mem hc)

/-- Nodes below two children of one parent are not below each other. -/
theorem Shows.apart (h : t.Shows A (.branch a ts))
    (hdisjoint : ts.Pairwise fun S S' =>
      List.Disjoint (S.labels.map Prod.fst) (S'.labels.map Prod.fst)) :
    ts.Pairwise fun S S' => ∀ b ∈ S.labels, ∀ c ∈ S'.labels, ∀ q r,
      t.InPlace b.1 c.1 q r ↔ q.stop.offset ≤ r.start.offset := by
  have hterms := (shows_branch.1 h).2.2
  refine hdisjoint.imp_of_mem fun {S S'} hS hS' hne b hb c hc q r => ?_
  exact inPlace_apart ((hterms S hS).not_below hne hb hc)
    ((hterms S' hS').not_below hne.symm hc hb)

/-- The node of a label has the span of the label. -/
theorem Shows.position_of_mem (h : t.Shows A T) (ha : a ∈ T.labels) :
    t.position? a.1 = a.2.position := by
  have hevery : (T.map Prod.snd).Every fun _ _ => True := h.every fun _ _ _ => trivial
  rcases h.of_every hevery a ha with ⟨S, hS, rfl, -⟩
  exact hS.position?

/-- All nodes of a term have spans that do not end before they start. -/
def AllSpanned (T : Term (NodeId × Label K V)) : Prop :=
  ∀ a ∈ T.labels, ∃ p, a.2.position = some p ∧ p.start.offset ≤ p.stop.offset

theorem AllSpanned.of_mem (h : AllSpanned (.branch a ts)) (hS : S ∈ ts) : AllSpanned S :=
  fun b hb => h b (Term.mem_labels_of_mem hS hb)

/-- In a term with nested spans every node lies inside of the topmost one. -/
theorem AllSpanned.inside (h : AllSpanned T) (hnested : (T.map Prod.snd).Every SpansNested)
    (hp : T.label.2.position = some p) (hmem : a ∈ T.labels) (hq : a.2.position = some q) :
    p.encloses q = true := by
  have hlabels : ∀ b ∈ (T.map Prod.snd).labels, b.position.isSome := by
    intro b hb
    rw [Term.labels_map] at hb
    rcases List.mem_map.1 hb with ⟨c, hc, rfl⟩
    rcases h c hc with ⟨r, hr, -⟩
    rw [hr]
    rfl
  have hplaced : (T.map Prod.snd).Every (Placed True) :=
    (hnested.and_labels hlabels).imp fun _ _ hhere => ⟨hhere.1, fun _ => hhere.2⟩
  have hroot : (T.map Prod.snd).label.position = some p := by
    rw [Term.label_map]
    exact hp
  have hlabel : a.2 ∈ (T.map Prod.snd).labels := by
    rw [Term.labels_map]
    exact List.mem_map_of_mem hmem
  rcases hplaced.inside hroot _ hlabel with ⟨r, hr, hstart, -, hstop⟩
  obtain rfl : r = q := Option.some.inj (hr.symm.trans hq)
  exact encloses_iff.2 ⟨hstart, hstop⟩

/-- If one term ends before another one starts, so do their nodes. -/
theorem AllSpanned.stop_le_start (h : AllSpanned S) (h' : AllSpanned S')
    (hnested : (S.map Prod.snd).Every SpansNested) (hnested' : (S'.map Prod.snd).Every SpansNested)
    (hrow : ∀ p q, S.label.2.position = some p → S'.label.2.position = some q →
      p.stop.offset ≤ q.start.offset) {b c : NodeId × Label K V} (hb : b ∈ S.labels)
    (hc : c ∈ S'.labels) (hp : b.2.position = some p) (hq : c.2.position = some q) :
    p.stop.offset ≤ q.start.offset := by
  rcases h _ S.label_mem_labels with ⟨s, hs, -⟩
  rcases h' _ S'.label_mem_labels with ⟨s', hs', -⟩
  have hfirst := encloses_iff.1 (h.inside hnested hs hb hp)
  have hsecond := encloses_iff.1 (h'.inside hnested' hs' hc hq)
  calc
    p.stop.offset ≤ s.stop.offset := hfirst.2
    _ ≤ s'.start.offset := hrow s s' hs hs'
    _ ≤ q.start.offset := hsecond.1

/-- The spans of some terms, without their ids. -/
theorem spans_map_snd (ts : List (Term (NodeId × Label K V))) :
    spans (ts.map (Term.map Prod.snd)) = ts.filterMap fun S => S.label.2.position := by
  rw [spans, List.filterMap_map]
  refine List.filterMap_congr fun S _ => ?_
  rw [Function.comp_apply, Term.label_map]

/-- Children whose spans run inside of the span of their parent, said of pairs of children. -/
theorem spansNested_iff (ha : a.2.position = some p) (hle : p.start.offset ≤ p.stop.offset)
    (hts : ∀ S ∈ ts, ∃ q, S.label.2.position = some q ∧ q.start.offset ≤ q.stop.offset) :
    SpansNested a.2 (ts.map (Term.map Prod.snd)) ↔
      (∀ S ∈ ts, ∀ q, S.label.2.position = some q → p.encloses q = true) ∧
        ts.Pairwise fun S S' => ∀ q r, S.label.2.position = some q →
          S'.label.2.position = some r → q.stop.offset ≤ r.start.offset := by
  rw [SpansNested, ha, spans_map_snd]
  constructor
  · intro h
    refine ⟨fun S hS q hq => ?_, ?_⟩
    · rcases h.mem (List.mem_filterMap.2 ⟨S, hS, hq⟩) with ⟨hstart, -, hstop⟩
      exact encloses_iff.2 ⟨hstart, hstop⟩
    · have hpairwise := List.pairwise_filterMap.1 h.pairwise
      exact hpairwise.imp fun h q r hq hr => h q hq r hr
  · rintro ⟨hinside, hpairwise⟩
    refine .of_pairwise hle (fun q hq => ?_) ?_
    · rcases List.mem_filterMap.1 hq with ⟨S, hS, hposition⟩
      rcases hts S hS with ⟨r, hr, hupright⟩
      obtain rfl : r = q := Option.some.inj (hr.symm.trans hposition)
      have hbounds := encloses_iff.1 (hinside S hS r hr)
      exact ⟨hbounds.1, hupright, hbounds.2⟩
    · exact List.pairwise_filterMap.2 (hpairwise.imp fun h q hq r hr => h q r hq hr)

/-- Spans nest at every node exactly if any two nodes are in place. -/
theorem Shows.every_iff_pairwise (h : t.Shows A T) (hnodup : (T.labels.map Prod.fst).Nodup)
    (hspanned : AllSpanned T) :
    (T.map Prod.snd).Every SpansNested ↔ T.labels.Pairwise t.Settled := by
  induction T using Term.induction with
  | leaf a =>
      rcases hspanned a List.mem_cons_self with ⟨p, hp, hle⟩
      refine ⟨fun _ => List.pairwise_singleton _ _, fun _ => .leaf ?_⟩
      rw [SpansNested, hp]
      exact hle
  | branch a ts ih =>
      rcases shows_branch.1 h with ⟨-, -, hterms⟩
      rcases hspanned a List.mem_cons_self with ⟨p, hp, hle⟩
      rw [Term.labels, Term.labelsList_eq_flatMap, List.map_cons, List.map_flatMap,
        List.nodup_cons, List.nodup_flatMap] at hnodup
      rcases hnodup with ⟨-, hchildren, hdisjoint⟩
      have hbelow : ∀ S ∈ ts, ∀ b ∈ S.labels, ∀ q, t.InPlace a.1 b.1 p q ↔ p.encloses q = true :=
        fun S hS b hb q => (inPlace_below (h.below_of_mem hS hb).1 (h.below_of_mem hS hb).2)
      have hapart := h.apart hdisjoint
      have hih : ∀ S ∈ ts, (S.map Prod.snd).Every SpansNested ↔ S.labels.Pairwise t.Settled :=
        fun S hS => ih S hS (hterms S hS) (hchildren S hS) (hspanned.of_mem hS)
      have hnested := spansNested_iff hp hle fun S hS =>
        hspanned.of_mem hS S.label S.label_mem_labels
      have hmap : (Term.branch a ts).map Prod.snd = .branch a.2 (ts.map (Term.map Prod.snd)) :=
        congrArg (Term.branch a.2) (Term.mapList_eq_map Prod.snd ts)
      rw [Term.labels, Term.labelsList_eq_flatMap, List.pairwise_cons, List.pairwise_flatMap]
      constructor
      · intro hnest
        have hevery := hmap ▸ hnest
        have hinner : ∀ S ∈ ts, (S.map Prod.snd).Every SpansNested :=
          fun S hS => hevery.children _ (List.mem_map_of_mem hS)
        rcases hnested.1 hevery.here with ⟨hinside, hrow⟩
        refine ⟨fun b hb => ?_, fun S hS => (hih S hS).1 (hinner S hS), ?_⟩
        · -- A node below lies inside of a child, which lies inside of the parent.
          rcases List.mem_flatMap.1 hb with ⟨S, hS, hbS⟩
          intro p' q hp' hq
          obtain rfl : p = p' := Option.some.inj (hp.symm.trans hp')
          exact (hbelow S hS b hbS q).2
            (hspanned.inside hnest hp (Term.mem_labels_of_mem hS hbS) hq)
        · -- Nodes below two children are apart because the children are.
          refine (hapart.and hrow).imp_of_mem fun {S S'} hS hS' hpair b hb c hc q r hq hr => ?_
          have hordered := (hspanned.of_mem hS).stop_le_start (hspanned.of_mem hS') (hinner S hS)
            (hinner S' hS') hpair.2 hb hc hq hr
          exact (hpair.1 b hb c hc q r).2 hordered
      · rintro ⟨hinside, hinner, hrow⟩
        rw [hmap]
        refine .branch (hnested.2 ⟨fun S hS q hq => ?_, ?_⟩) fun X hX => ?_
        · have hmem : S.label ∈ ts.flatMap Term.labels :=
            List.mem_flatMap.2 ⟨S, hS, S.label_mem_labels⟩
          exact (hbelow S hS _ S.label_mem_labels q).1 (hinside _ hmem p q hp hq)
        · exact (hapart.and hrow).imp fun {S S'} hpair q r hq hr =>
            (hpair.1 _ S.label_mem_labels _ S'.label_mem_labels q r).1
              (hpair.2 _ S.label_mem_labels _ S'.label_mem_labels q r hq hr)
        · rcases List.mem_map.1 hX with ⟨S, hS, rfl⟩
          exact (hih S hS).2 (hinner S hS)

/-- Pairs of nodes are pairs of labels. -/
theorem laminar_iff_pairwise (hT : t.idTerm? id = some T) :
    t.Laminar id ↔ T.labels.Pairwise t.Settled := by
  have hshows := (shows_of_expand? hT).1
  have hpairs : t.Laminar id ↔ (T.labels.map Prod.fst).Pairwise fun x y => ∀ p q,
      t.position? x = some p → t.position? y = some q → t.InPlace x y p q := by
    rw [Laminar, descendants_of_idTerm? hT, List.pairwise_iff_forall_sublist]
  rw [hpairs, List.pairwise_map]
  refine List.Pairwise.iff_of_mem fun {a b} ha hb => ?_
  rw [hshows.position_of_mem ha, hshows.position_of_mem hb, Settled]

/-! ## The result -/

/-- In a tree whose nodes all have spans, the check of neighbours finds exactly whether any two nodes
are in place. -/
theorem positionsConsistent_iff_laminar (hshape : t.TreeShaped id) (hspanned : t.Spanned id) :
    t.positionsConsistent id = true ↔ t.Laminar id := by
  rcases hshape.unfolds with ⟨T, hT⟩
  have hnodes := descendants_of_idTerm? hT
  have hshows := (shows_of_expand? hT).1
  have hlabels : AllSpanned T := by
    intro a ha
    rw [← hshows.position_of_mem ha]
    exact hspanned a.1 (hnodes ▸ List.mem_map_of_mem ha)
  have hconsistent : t.positionsConsistent id = true ↔ (T.map Prod.snd).Every SpansNested :=
    ⟨every_of_positionsConsistent hT hspanned.upright, positionsConsistent_of_every hT⟩
  rw [hconsistent, laminar_iff_pairwise hT]
  exact hshows.every_iff_pairwise (hnodes ▸ hshape.nodup) hlabels

/-- A bracket with an empty span in it, and a number that starts where the bracket ends. -/
def bracketAndNumber : Term (Label String Unit) :=
  let span (first last : Nat) : Option Position :=
    some ⟨⟨1, first + 1, first⟩, ⟨1, last + 1, last⟩⟩
  .branch ⟨"list", none, span 0 5⟩
    [.branch ⟨"bracket", none, span 0 3⟩
        [.leaf ⟨"blank", none, span 1 1⟩, .leaf ⟨"name", none, span 1 3⟩],
      .leaf ⟨"number", none, span 3 5⟩]

theorem bracketAndNumber_laminar :
    (ofTerm bracketAndNumber).TreeShaped root ∧ (ofTerm bracketAndNumber).Spanned root ∧
      (ofTerm bracketAndNumber).Laminar root := by
  have hshape : (ofTerm bracketAndNumber).TreeShaped root := ⟨⟨_, rfl⟩, by decide⟩
  have hspanned : (ofTerm bracketAndNumber).Spanned root := by
    unfold Spanned
    decide
  exact ⟨hshape, hspanned, (positionsConsistent_iff_laminar hshape hspanned).1 (by decide)⟩

/-- A node whose child starts behind its end. -/
def childBehindParent : Term (Label String Unit) :=
  .branch ⟨"list", none, some ⟨⟨1, 1, 0⟩, ⟨1, 2, 1⟩⟩⟩
    [.leaf ⟨"number", none, some ⟨⟨1, 3, 2⟩, ⟨1, 4, 3⟩⟩⟩]

/-- The parent comes first and ends before its child starts; still the spans are not consistent. -/
theorem child_behind_parent :
    (ofTerm childBehindParent).TreeShaped root ∧ (ofTerm childBehindParent).Spanned root ∧
      (∀ x y, [x, y].Sublist (root :: (ofTerm childBehindParent).descendants root) →
        ∀ p q, (ofTerm childBehindParent).position? x = some p →
          (ofTerm childBehindParent).position? y = some q →
            ((ofTerm childBehindParent).Below x y ∧ p.encloses q = true) ∨
              ((ofTerm childBehindParent).Below y x ∧ q.encloses p = true) ∨
              p.stop.offset ≤ q.start.offset) ∧
      (ofTerm childBehindParent).positionsConsistent root = false := by
  refine ⟨⟨⟨_, rfl⟩, by decide⟩, ?_, ?_, by decide⟩
  · unfold Spanned
    decide
  · intro x y hxy p q hp hq
    -- The only pair is the parent with its child.
    have hnodes : root :: (ofTerm childBehindParent).descendants root = [0, 1] := by decide
    rw [hnodes] at hxy
    obtain ⟨rfl, rfl⟩ : x = 0 ∧ y = 1 := by simpa using hxy.eq_of_length rfl
    obtain rfl := Option.some.inj hp
    obtain rfl := Option.some.inj hq
    exact .inr (.inr (by decide))

end Tree
end FeatureTree
