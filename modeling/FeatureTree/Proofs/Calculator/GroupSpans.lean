import FeatureTree.Proofs.Calculator.Faults
import FeatureTree.Proofs.Tree.Nesting

/-!
# GroupSpans — grouping keeps spans nested

What lies on a bench, the waiting name and the nodes that are still to come form one row of spans.  A
node moves from the end of the row to the bench; a group that is closed takes the place of its members,
and a function the place of a name and a bracket.  So the row stays a row, between the same offsets.

`seated_of_group` says it of whole trees: in the output each span lies inside the one around it, and a
group spans from its first to its last member.
-/

namespace FeatureTree

/-- The span from the first to the last of some spans fits in their place. -/
theorem Runs.spanOf? {lo hi : Nat} {l : List Position} {first last : Option Position}
    (h : Runs lo l hi) (hfirst : ∀ p, first = some p → l.head? = some p)
    (hlast : ∀ q, last = some q → l.getLast? = some q) :
    Runs lo (Calculator.Piece.spanOf? first last).toList hi := by
  unfold Calculator.Piece.spanOf?
  split
  · next p q => exact h.merge (hfirst p rfl) (hlast q rfl)
  · exact h.le

namespace Calculator

/-- A node of an expression tree in its place; a group spans from its first to its last member. -/
structure Seated (full : Prop) (a : Label ExprKind Literal) (ts : List ExprTerm) : Prop
    extends Placed full a ts where
  group : a.kind = .group → a.position = Piece.spanOf? (ts.head?.bind fun T => T.label.position)
    (ts.getLast?.bind fun T => T.label.position)

variable {full : Prop} {lo hi : Nat} {more : List Position} {T : ExprTerm} {members : List ExprTerm}

/-! ## Groups and functions -/

/-- A group fits in the place of its members. -/
theorem runs_group (depth : Nat) (h : Runs lo (spans members) hi) :
    Runs lo (spans [.branch (groupLabel depth members) members]) hi := by
  rw [spans_singleton]
  exact h.spanOf? (fun p hp => head?_spans hp) fun q hq => getLast?_spans hq

theorem seated_group (depth : Nat) (h : Runs lo (spans members) hi)
    (hmembers : ∀ T ∈ members, T.Every (Seated full)) (hne : members ≠ []) :
    (Term.branch (groupLabel depth members) members).Every (Seated full) := by
  refine .branch ⟨⟨?_, fun hfull => ?_⟩, fun _ => rfl⟩ hmembers
  · unfold SpansNested
    split
    · next p hp =>
        change Piece.spanOf? (members.head?.bind _) (members.getLast?.bind _) = some p at hp
        unfold Piece.spanOf? at hp
        split at hp
        · next first last hfirst hlast =>
            have hinside := h.around (head?_spans hfirst) (getLast?_spans hlast)
            rw [← Option.some.inj hp]
            exact hinside
        · cases hp
    · exact ⟨hi, h.widen_lo (Nat.zero_le lo)⟩
  · -- The first and the last member have spans.
    have hspan : ∀ T ∈ members, ∃ p, T.label.position = some p := fun T hT =>
      Option.isSome_iff_exists.1 ((hmembers T hT).here.positioned hfull)
    rcases hspan _ (List.head_mem hne) with ⟨p, hp⟩
    rcases hspan _ (List.getLast_mem hne) with ⟨q, hq⟩
    have hfirst : (members.head?.bind fun T => T.label.position) = some p := by
      rw [List.head?_eq_some_head hne]
      exact hp
    have hlast : (members.getLast?.bind fun T => T.label.position) = some q := by
      rw [List.getLast?_eq_some_getLast hne]
      exact hq
    change (Piece.spanOf? (members.head?.bind _) (members.getLast?.bind _)).isSome
    rw [hfirst, hlast]
    rfl

/-- A function has the span from its name to its bracket. -/
theorem seated_function {name bracket : Label SyntaxKind Literal}
    (hruns : Runs lo (name.position.toList ++ bracket.position.toList) hi)
    (hname : full → name.position.isSome)
    (hbracket : Placed full (⟨.bracket, none, bracket.position⟩ : Label ExprKind Literal) members)
    (hmembers : ∀ T ∈ members, T.Every (Seated full)) :
    (Term.branch ⟨.function, name.value, Piece.spanOf? name.position bracket.position⟩ members).Every
      (Seated full) := by
  refine .branch ⟨⟨?_, fun hfull => ?_⟩, fun hkind => nomatch hkind⟩ hmembers
  · cases hp : name.position with
    | none => exact hbracket.nested.exists_runs
    | some p =>
        cases hq : bracket.position with
        | none => exact hbracket.nested.exists_runs
        | some q =>
            -- The members lie behind the start of the bracket, and so behind the start of the name.
            have hinside : Runs q.start.offset (spans members) q.stop.offset := by
              have hnested := hbracket.nested
              rw [hq] at hnested
              exact hnested
            rw [hp, hq] at hruns
            exact hinside.widen_lo (Nat.le_trans hruns.2.1 hruns.2.2.1)
  · rcases Option.isSome_iff_exists.1 (hname hfull) with ⟨p, hp⟩
    rcases Option.isSome_iff_exists.1 (hbracket.positioned hfull) with ⟨q, hq⟩
    change bracket.position = some q at hq
    change (Piece.spanOf? name.position bracket.position).isSome
    rw [hp, hq]
    rfl

namespace Bench

variable {b b' c : Bench} {limit base index : Nat}

/-- The spans of the bench, and further ones behind them. -/
def row (b : Bench) (more : List Position) : List Position :=
  spans b.terms ++ (b.name.bind Label.position).toList ++ more

/-- A bench between two offsets, with further spans to come. -/
structure Neat (full : Prop) (lo hi : Nat) (b : Bench) (more : List Position) : Prop where
  runs : Runs lo (b.row more) hi
  every : ∀ T ∈ b.terms, T.Every (Seated full)
  named : ∀ name, b.name = some name → full → name.position.isSome

/-- Inside an open group there are terms. -/
def Filled (b : Bench) : Prop := b.outer ≠ [] → b.inner ≠ []

theorem filled_add (T : ExprTerm) (b : Bench) : (b.add T).Filled :=
  fun _ => List.concat_ne_nil T b.inner

theorem filled_enclose (bracket : Label SyntaxKind Literal) (b : Bench) (items : List ExprTerm) :
    (b.enclose bracket items).Filled :=
  fun _ => List.concat_ne_nil _ b.inner

theorem filled_close (h : b.Filled) : b.close.Filled := by
  rcases b with ⟨inner, _ | ⟨around, outer⟩, name⟩
  · exact h
  · exact fun _ => List.concat_ne_nil _ around

theorem filled_flush (h : b.Filled) : b.flush.Filled := by
  unfold flush
  cases b.name with
  | none => exact h
  | some name => exact filled_add _ b

/-- The group that closes takes the place of its members. -/
theorem Neat.close (h : b.Neat full lo hi more) (hfilled : b.Filled) :
    b.close.Neat full lo hi more := by
  by_cases houter : b.outer = []
  · rw [Bench.close, houter]
    exact h
  · have hname : b.close.name = b.name := b.name_close
    rcases terms_close houter with ⟨front, hterms, hclose⟩
    rcases h with ⟨hruns, hevery, hnamed⟩
    rw [row, hterms, spans_append, List.append_assoc (_ ++ _)] at hruns
    rw [hterms] at hevery
    -- In front of the group and behind it nothing changes.
    refine ⟨?_, ?_, hname ▸ hnamed⟩
    · rw [row, hclose, hname, spans_append, List.append_assoc (_ ++ _)]
      exact hruns.replace fun lo hi => runs_group _
    · rw [hclose]
      intro T hT
      rcases List.mem_append.1 hT with hold | hnew
      · exact hevery T (List.mem_append_left _ hold)
      · rw [List.mem_singleton.1 hnew]
        rcases hruns.split with ⟨mid, hfront, -⟩
        rcases hfront.split with ⟨first, -, hinner⟩
        exact seated_group _ hinner (fun S hS => hevery S (List.mem_append_right _ hS))
          (hfilled houter)

theorem Neat.openGroup (h : b.Neat full lo hi more) : b.openGroup.Neat full lo hi more := by
  have hterms := b.terms_openGroup
  refine ⟨?_, ?_, h.named⟩
  · rw [row, hterms]
    exact h.runs
  · rw [hterms]
    exact h.every

theorem Neat.turnTo (level : Level) (h : b.Neat full lo hi more) (hfilled : b.Filled) :
    (b.turnTo level).Neat full lo hi more := by
  -- Groups are filled as long as they only close.
  have hclosed : ∀ n, (Bench.close^[n] b).Neat full lo hi more ∧ (Bench.close^[n] b).Filled :=
    Function.Iterate.rec (fun c : Bench => c.Neat full lo hi more ∧ c.Filled) ⟨h, hfilled⟩
      fun c hc => ⟨hc.1.close hc.2, filled_close hc.2⟩
  exact Function.Iterate.rec (fun c : Bench => c.Neat full lo hi more) (hclosed _).1
    (fun c hc => hc.openGroup) _

/-- The next span goes to the bench with a term. -/
theorem Neat.add (h : b.Neat full lo hi (T.label.position.toList ++ more)) (hname : b.name = none)
    (hT : T.Every (Seated full)) : (b.add T).Neat full lo hi more := by
  refine ⟨?_, ?_, h.named⟩
  · have hrow : (b.add T).row more = b.row (T.label.position.toList ++ more) := by
      have hadd : (b.add T).name = none := hname
      rw [row, row, terms_add, spans_append, spans_singleton, hname, hadd]
      simp
    rw [hrow]
    exact h.runs
  · rw [terms_add]
    intro S hS
    rcases List.mem_append.1 hS with hold | hnew
    · exact h.every S hold
    · exact List.mem_singleton.1 hnew ▸ hT

theorem Neat.addLeaf {a : Label ExprKind Literal} (h : b.Neat full lo hi (a.position.toList ++ more))
    (hname : b.name = none) (hkind : a.kind ≠ .group) (hpositioned : full → a.position.isSome) :
    (b.add (.leaf a)).Neat full lo hi more := by
  have hruns := h.runs
  rw [row] at hruns
  rcases hruns.split with ⟨mid, -, hrest⟩
  rcases hrest.split with ⟨stop, hspan, -⟩
  exact h.add hname (.leaf ⟨.leaf hspan hpositioned, fun heq => absurd heq hkind⟩)

/-- A name that waits lies in front of the row to come. -/
theorem Neat.unname {inner : List ExprTerm} {outer : List (List ExprTerm)}
    {name : Label SyntaxKind Literal} (h : Neat full lo hi ⟨inner, outer, some name⟩ more) :
    Neat full lo hi ⟨inner, outer, none⟩ (name.position.toList ++ more) := by
  have hruns := h.runs
  rw [row, List.append_assoc] at hruns
  refine ⟨?_, h.every, fun _ hnone => nomatch hnone⟩
  rw [row, List.append_assoc]
  exact hruns

theorem Neat.flush (h : b.Neat full lo hi more) : b.flush.Neat full lo hi more := by
  rcases b with ⟨inner, outer, name⟩
  cases name with
  | none => exact h
  | some name =>
      exact h.unname.addLeaf (a := ⟨.bareName, name.value, name.position⟩) rfl
        (show ExprKind.bareName ≠ .group by decide) (h.named name rfl)

/-! ## One node -/

/-- The node that comes next goes from the row to the bench. -/
theorem Neat.takeLeaf {id : NodeId} {label : Label SyntaxKind Literal}
    (h : b.Neat full lo hi (label.position.toList ++ more)) (hfilled : b.Filled)
    (hpositioned : full → label.position.isSome)
    (htake : b.takeLeaf limit base index id label = .ok b') :
    b'.Neat full lo hi more ∧ b'.Filled := by
  cases takeLeaf_eq_ok htake with
  | number hkind hb =>
      rw [hb]
      exact ⟨h.flush.addLeaf (a := ⟨.number, label.value, label.position⟩) b.name_flush
        (show ExprKind.number ≠ .group by decide) hpositioned, filled_add _ _⟩
  | name hkind hb =>
      rw [hb]
      refine ⟨⟨?_, h.flush.every, ?_⟩, filled_flush hfilled⟩
      · have hruns := h.flush.runs
        rw [row, b.name_flush, Option.bind_none, Option.toList_none, List.append_nil,
          ← List.append_assoc] at hruns
        exact hruns
      · rintro name ⟨rfl⟩
        exact hpositioned
  | operator op hkind hvalue hb =>
      rw [hb]
      exact ⟨(h.flush.turnTo op.level (filled_flush hfilled)).addLeaf
        (a := ⟨.operator, label.value, label.position⟩)
        ((name_turnTo _ _).trans b.name_flush) (show ExprKind.operator ≠ .group by decide)
        hpositioned, filled_add _ _⟩

/-- A bracket goes from the row to the bench, alone or with the name in front of it. -/
theorem Neat.enclose {bracket : Label SyntaxKind Literal} {items : List ExprTerm}
    (h : b.Neat full lo hi (bracket.position.toList ++ more))
    (hbracket : Placed full (⟨.bracket, none, bracket.position⟩ : Label ExprKind Literal) items)
    (hitems : ∀ T ∈ items, T.Every (Seated full)) :
    (b.enclose bracket items).Neat full lo hi more := by
  rcases b with ⟨inner, outer, name⟩
  cases name with
  | none => exact h.add rfl (.branch ⟨hbracket, fun hkind => nomatch hkind⟩ hitems)
  | some name =>
      -- The name and the bracket are neighbours in the row, so one span fits in their place.
      have hrow := h.unname
      have hruns := hrow.runs
      rw [row, Option.bind_none, Option.toList_none, List.append_nil, ← List.append_assoc,
        ← List.append_assoc, List.append_assoc (spans _)] at hruns
      have hspan : Neat full lo hi ⟨inner, outer, none⟩
          ((Piece.spanOf? name.position bracket.position).toList ++ more) := by
        refine ⟨?_, hrow.every, hrow.named⟩
        rw [row, Option.bind_none, Option.toList_none, List.append_nil, ← List.append_assoc]
        refine hruns.replace fun lo hi hboth => hboth.spanOf? ?_ ?_
        · intro p hp
          rw [hp]
          rfl
        · intro q hq
          rw [hq]
          exact List.getLast?_concat
      rcases hruns.split with ⟨mid, hfront, -⟩
      rcases hfront.split with ⟨first, -, hboth⟩
      exact hspan.add rfl (seated_function hboth (h.named name rfl) hbracket hitems)

/-- When all groups are closed, the terms lie between the offsets. -/
theorem Neat.finish (h : b.Neat full lo hi []) (hfilled : b.Filled) :
    Runs lo (spans b.finish) hi ∧ ∀ T ∈ b.finish, T.Every (Seated full) := by
  have hturned := h.flush.turnTo .additive (filled_flush hfilled)
  have hname : (b.flush.turnTo .additive).name = none := (name_turnTo _ _).trans b.name_flush
  have hruns := hturned.runs
  rw [row, hname, Option.bind_none, Option.toList_none, List.append_nil, List.append_nil,
    terms_turnTo_additive] at hruns
  exact ⟨hruns, b.terms_turnTo_additive ▸ hturned.every⟩

/-! ## Nodes with everything inside -/

/-- The node of a term goes from the row to the bench, wherever it is taken. -/
def Settles (full : Prop) (limit : Nat) (X : SourceTerm) : Prop :=
  ∀ base index lo hi b b' more, take limit base index b X = .ok b' → b.Filled →
    b.Neat full lo hi (X.label.2.position.toList ++ more) → b'.Neat full lo hi more ∧ b'.Filled

theorem neat_takeAll {Xs : List SourceTerm} (hXs : ∀ X ∈ Xs, Settles full limit X)
    (htake : takeAll limit base index b Xs = .ok b') (hfilled : b.Filled)
    (h : b.Neat full lo hi (spans (Xs.map (Term.map Prod.snd)) ++ more)) :
    b'.Neat full lo hi more ∧ b'.Filled := by
  induction Xs generalizing b index with
  | nil =>
      obtain rfl := Except.ok.inj htake
      exact ⟨h, hfilled⟩
  | cons X Xs ih =>
      rw [takeAll] at htake
      rcases bind_eq_ok htake with ⟨b₁, hfirst, hrest⟩
      rw [List.map_cons, spans_cons, Term.label_map, List.append_assoc] at h
      rcases hXs X List.mem_cons_self _ _ _ _ _ _ _ hfirst hfilled h with ⟨h₁, hfilled₁⟩
      exact ih (fun Y hY => hXs Y (List.mem_cons_of_mem _ hY)) hrest hfilled₁ h₁

/-- What a clear bench makes of the children of a node lies inside the span of the node. -/
theorem placed_finish (a' : Label ExprKind Literal) {a : Label SyntaxKind Literal}
    {Xs : List SourceTerm} (ha : Placed full a (Xs.map (Term.map Prod.snd)))
    (hXs : ∀ X ∈ Xs, Settles full limit X) (hposition : a'.position = a.position)
    (htake : takeAll limit base index .clear Xs = .ok b) :
    Placed full a' b.finish ∧ ∀ T ∈ b.finish, T.Every (Seated full) := by
  -- The bench keeps to any offsets that the children keep to, so also to those of the node.
  have hfinish : ∀ lo hi, Runs lo (spans (Xs.map (Term.map Prod.snd))) hi →
      Runs lo (spans b.finish) hi ∧ ∀ T ∈ b.finish, T.Every (Seated full) := by
    intro lo hi hruns
    have hclear : Neat full lo hi .clear (spans (Xs.map (Term.map Prod.snd)) ++ []) := by
      refine ⟨?_, fun T hT => (nomatch hT), fun name hname => nomatch hname⟩
      rw [List.append_nil]
      exact hruns
    rcases neat_takeAll hXs htake (fun h => absurd rfl h) hclear with ⟨hneat, hfilled⟩
    exact hneat.finish hfilled
  rcases ha.nested.exists_runs with ⟨hi, hruns⟩
  exact ⟨⟨ha.nested.replace hposition fun lo hi h => (hfinish lo hi h).1,
    fun hfull => hposition ▸ ha.positioned hfull⟩, (hfinish 0 hi hruns).2⟩

theorem settles (limit : Nat) {X : SourceTerm} (hX : (X.map Prod.snd).Every (Placed full)) :
    Settles full limit X := by
  induction X using Term.induction with
  | leaf a =>
      intro base index lo hi b b' more htake hfilled h
      exact h.takeLeaf hfilled hX.here.positioned htake
  | branch a inner ih =>
      intro base index lo hi b b' more htake hfilled h
      rw [Term.map, Term.mapList_eq_map] at hX
      by_cases hkind : a.2.kind = .bracket
      · -- Inside the bracket a clear bench is filled, between the offsets of the bracket.
        rcases takeBracket_eq_ok hkind htake with ⟨content, hcontent, hb⟩
        have hinner : ∀ Y ∈ inner, Settles full limit Y :=
          fun Y hY => ih Y hY (hX.children _ (List.mem_map_of_mem hY))
        rcases placed_finish ⟨.bracket, none, a.2.position⟩ hX.here hinner rfl hcontent with
          ⟨hbracket, hitems⟩
        rw [hb]
        exact ⟨h.enclose hbracket hitems, filled_enclose _ _ _⟩
      · rw [take, if_neg hkind] at htake
        exact h.takeLeaf hfilled hX.here.positioned htake

end Bench

/-! ## The whole tree -/

/-- A tree whose spans are nested is grouped to one whose spans are nested; if all nodes have spans, all
nodes have spans again. -/
theorem seated_of_group {t : SyntaxTree} {T : SourceTerm} {limits : Limits} {out : ExprTree}
    (hT : t.idTerm? Tree.root = some T) (hplain : Plain T)
    (hplaced : (T.map Prod.snd).Every (Placed full)) (h : group t limits = .success out) :
    ∃ E, out.term? Tree.root = some E ∧ E.label.position = T.label.2.position ∧
      E.Every (Seated full) := by
  rcases (group_eq_success_iff hT hplain).1 ⟨out, h⟩ with ⟨b, htake⟩
  rcases exists_group hT hplain htake with ⟨out', hout, hterm⟩
  obtain rfl : out = out' := Outcome.success.inj (h.symm.trans hout)
  have hroot : Placed full T.label.2 (T.children.map (Term.map Prod.snd)) := by
    have hhere := hplaced.here
    rwa [Term.label_map, Term.children_map] at hhere
  have hchildren : ∀ X ∈ T.children, Bench.Settles full limits.maxDepth X := by
    intro X hX
    refine Bench.settles _ (hplaced.children _ ?_)
    rw [Term.children_map]
    exact List.mem_map_of_mem hX
  rcases Bench.placed_finish ⟨.calculator, none, T.label.2.position⟩ hroot hchildren rfl
    htake with ⟨hroot', hitems⟩
  exact ⟨_, hterm, rfl, .branch ⟨hroot', fun hkind => nomatch hkind⟩ hitems⟩

/-- Each group whose first and last child have spans spans from the start of the first to the end of the
last. -/
def GroupsSpanned (out : ExprTree) : Prop :=
  ∀ id ∈ Tree.root :: out.descendants Tree.root, ∀ n p q, out.get? id = some n → n.kind = .group →
    (out.firstChild? id).bind out.position? = some p →
      (out.lastChild? id).bind out.position? = some q → n.position = some ⟨p.start, q.stop⟩

/-- What is in place in the term is found in the arena. -/
theorem consistent_of_seated {out : ExprTree} {E : ExprTerm} (hE : out.term? Tree.root = some E)
    (hseated : E.Every (Seated full)) :
    out.positionsConsistent Tree.root = true ∧ GroupsSpanned out := by
  rcases Option.map_eq_some_iff.1 hE with ⟨T, hT, rfl⟩
  refine ⟨Tree.positionsConsistent_of_every hT (hseated.imp fun _ _ h => h.nested), ?_⟩
  intro id hid n p q hget hkind hfirst hlast
  rw [Tree.descendants_of_idTerm? hT] at hid
  rcases List.mem_map.1 hid with ⟨a, ha, rfl⟩
  rcases (Tree.shows_of_expand? hT).1.of_every hseated a ha with ⟨S, hS, rfl, hhere⟩
  have hlabel : n.label = S.label.2 := by
    have heq := hS.label_eq
    rw [show out.get? S.id = some n from hget] at heq
    exact Option.some.inj heq
  rcases hS.endPositions with ⟨hhead, hend⟩
  have hposition := hhere.group (hlabel ▸ hkind)
  rw [← hhead, ← hend] at hposition
  rw [show (out.firstChild? S.id).bind out.position? = some p from hfirst,
    show (out.lastChild? S.id).bind out.position? = some q from hlast] at hposition
  have hown : n.position = S.label.2.position := congrArg Label.position hlabel
  exact hown.trans hposition

end Calculator
end FeatureTree
