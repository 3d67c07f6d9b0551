import FeatureTree.Proofs.Json.Unique
import FeatureTree.Proofs.Tree.Links
import FeatureTree.Tree.Checked
import FeatureTree.Tree.Scalar

/-!
# View — the JSON text of a subtree

A node is written as one JSON object: its kind, its value and its span as far as there are any, and its
children if it is a parent.

`view_lossless` says that every finite subtree is written as one JSON text, and that the text is enough to
tell the subtree: two subtrees with the same text are equal up to the ids of their nodes.  The members of
an object are told apart by their names, an optional member being the one with its name, if there is
one.
-/

namespace FeatureTree

open Json (Value)

/-! ## Finite subtrees -/

namespace Tree

variable {K V : Type} {t : Tree K V} {id : NodeId}

/-- The subtree of a node is finite: all its nodes are known, and no way down goes on for ever. -/
inductive Finite (t : Tree K V) : NodeId → Prop where
  | node {id : NodeId} (hid : id < t.size) (hchildren : ∀ child ∈ t.children id, Finite t child) :
      Finite t id

theorem Finite.exists_shows (h : t.Finite id) :
    ∃ T : Term (NodeId × Label K V), t.Shows (fun _ => True) T ∧ T.id = id := by
  induction h with
  | node hid _ ih => exact IsForest.exists_shows_of_children hid ih

theorem Shows.finite {A : NodeId → Prop} {T : Term (NodeId × Label K V)} (h : t.Shows A T) :
    t.Finite T.id := by
  induction T using Term.induction with
  | leaf a =>
      refine .node h.id_lt fun child hchild => ?_
      rw [(Shows.children h).1] at hchild
      cases hchild
  | branch a ts ih =>
      refine .node h.id_lt fun child hchild => ?_
      rw [(Shows.children h).1] at hchild
      rcases List.mem_map.1 hchild with ⟨S, hS, rfl⟩
      exact ih S hS ((Shows.children h).2 S hS)

/-- The subtree of a node is finite as soon as some number of levels is enough to unfold it. -/
theorem finite_of_expand? {height : Nat} {T : Term (NodeId × Label K V)}
    (h : t.expand? height id = some T) : t.Finite id := by
  rcases shows_of_expand? h with ⟨hshows, rfl⟩
  exact hshows.finite

/-- A finite subtree is found. -/
theorem Finite.exists_term? (h : t.Finite id) : ∃ T, t.term? id = some T := by
  rcases h.exists_shows with ⟨T, hT, rfl⟩
  exact ⟨_, hT.term?⟩

/-- The compact text of the subtree of a node. -/
def viewText [Written K] [Written V] (t : Tree K V) (id : NodeId) : Except UnknownNode String :=
  (t.termOf id).map fun T => T.toJson.compact

theorem viewText_eq [Written K] [Written V] {T : Term (Label K V)} (h : t.term? id = some T) :
    t.viewText id = .ok T.toJson.compact := by
  rw [viewText, termOf, h]
  rfl

end Tree

/-! ## Numbers and spans -/

theorem Json.Value.integral_ofNat (n : Nat) : (Value.ofNat n).Integral := .number n

theorem Json.Value.ofInt_inj {n m : Int} (h : Value.ofInt n = Value.ofInt m) : n = m := by
  have htext : toString n = toString m := Value.number.inj h
  exact (Json.toString_int_inj Json.stops_nil Json.stops_nil (by rw [htext])).1

theorem Json.Value.ofNat_inj {n m : Nat} (h : Value.ofNat n = Value.ofNat m) : n = m :=
  Int.ofNat.inj (Json.Value.ofInt_inj h)

theorem Json.Value.integral_object_cons {key : String} {v : Value} {members : List (String × Value)}
    (hv : v.Integral) (h : (Value.object members).Integral) :
    (Value.object ((key, v) :: members)).Integral := by
  cases h with
  | object hmembers =>
      refine .object fun m hm => ?_
      rcases List.mem_cons.1 hm with rfl | hm
      · exact hv
      · exact hmembers m hm

theorem Json.Value.integral_object_nil : (Value.object []).Integral := .object fun _ hm => nomatch hm

theorem Point.integral_toJson (p : Point) : p.toJson.Integral := by
  apply Value.integral_object_cons (Value.integral_ofNat _)
  apply Value.integral_object_cons (Value.integral_ofNat _)
  exact Value.integral_object_cons (Value.integral_ofNat _) Value.integral_object_nil

theorem Position.integral_toJson (p : Position) : p.toJson.Integral := by
  apply Value.integral_object_cons p.start.integral_toJson
  exact Value.integral_object_cons p.stop.integral_toJson Value.integral_object_nil

theorem Point.toJson_inj {p q : Point} (h : p.toJson = q.toJson) : p = q := by
  rcases p with ⟨line, column, offset⟩
  rcases q with ⟨line', column', offset'⟩
  simp only [Point.toJson, Value.object.injEq, List.cons.injEq, Prod.mk.injEq, true_and,
    and_true] at h
  rcases h with ⟨hline, hcolumn, hoffset⟩
  rw [Value.ofNat_inj hline, Value.ofNat_inj hcolumn, Value.ofNat_inj hoffset]

theorem Position.toJson_inj {p q : Position} (h : p.toJson = q.toJson) : p = q := by
  rcases p with ⟨start, stop⟩
  rcases q with ⟨start', stop'⟩
  simp only [Position.toJson, Value.object.injEq, List.cons.injEq, Prod.mk.injEq, true_and,
    and_true] at h
  rw [Point.toJson_inj h.1, Point.toJson_inj h.2]

theorem Scalar.integral_toJson (v : Scalar) : v.toJson.Integral := by
  cases v with
  | int n => exact .number n
  | text s => exact .string s

theorem Scalar.toJson_inj {v w : Scalar} (h : v.toJson = w.toJson) : v = w := by
  cases v with
  | int n =>
      cases w with
      | int m => exact congrArg Scalar.int (Value.ofInt_inj h)
      | text s => cases h
  | text s =>
      cases w with
      | int m => cases h
      | text s' => exact congrArg Scalar.text (Value.string.inj h)

/-! ## Members -/

/-- A member that is left out if it has no value. -/
def optionalMember (key : String) (v : Option Value) : List (String × Value) :=
  (v.map fun v => (key, v)).toList

theorem mem_optionalMember {key : String} {v : Option Value} {m : String × Value} :
    m ∈ optionalMember key v ↔ m.1 = key ∧ v = some m.2 := by
  rcases m with ⟨key', w⟩
  cases v with
  | none => simp [optionalMember]
  | some v =>
      simp only [optionalMember, Option.map_some, Option.toList_some, List.mem_singleton,
        Prod.mk.injEq, Option.some.injEq]
      exact and_congr_right fun _ => eq_comm

/-- An optional member is told from the members behind it by its name. -/
theorem optionalMember_inj {key : String} {v v' : Option Value}
    {rest rest' : List (String × Value)} (hrest : ∀ m ∈ rest, m.1 ≠ key)
    (hrest' : ∀ m ∈ rest', m.1 ≠ key)
    (h : optionalMember key v ++ rest = optionalMember key v' ++ rest') : v = v' ∧ rest = rest' := by
  cases v with
  | none =>
      cases v' with
      | none => exact ⟨rfl, h⟩
      | some v' =>
          change rest = (key, v') :: rest' at h
          exact absurd rfl (hrest (key, v') (h ▸ List.mem_cons_self))
  | some v =>
      cases v' with
      | none =>
          change (key, v) :: rest = rest' at h
          exact absurd rfl (hrest' (key, v) (h ▸ List.mem_cons_self))
      | some v' =>
          rcases List.cons.inj h with ⟨hmember, hback⟩
          exact ⟨congrArg some (Prod.mk.inj hmember).2, hback⟩

namespace Term

/-- All members of a node; a leaf has no list of children. -/
def members (label : Label String Scalar) (items : Option (List Value)) : List (String × Value) :=
  ("type", .string label.kind) ::
    (optionalMember "value" (label.value.map Scalar.toJson) ++
      (optionalMember "position" (label.position.map Position.toJson) ++
        optionalMember "children" (items.map Value.array)))

theorem toJson_leaf (label : Label String Scalar) :
    (Term.leaf label).toJson = .object (members label none) := by
  rcases label with ⟨kind, value, position⟩
  cases value <;> cases position <;> rfl

theorem toJson_branch (label : Label String Scalar) (ts : List (Term (Label String Scalar))) :
    (Term.branch label ts).toJson = .object (members label (some (ts.map toJson))) := by
  rcases label with ⟨kind, value, position⟩
  cases value <;> cases position <;> rw [toJson, toJsonList_eq_map] <;> rfl

/-- Kind, value, span and children can all be seen from the members. -/
theorem members_inj {a b : Label String Scalar} {items items' : Option (List Value)}
    (h : members a items = members b items') : a = b ∧ items = items' := by
  rcases a with ⟨kind, value, position⟩
  rcases b with ⟨kind', value', position'⟩
  have hnames : ∀ (p : Option Value) (c : Option Value),
      ∀ m ∈ optionalMember "position" p ++ optionalMember "children" c, m.1 ≠ "value" := by
    intro p c m hm
    rcases List.mem_append.1 hm with hm | hm
    · rw [(mem_optionalMember.1 hm).1]
      decide
    · rw [(mem_optionalMember.1 hm).1]
      decide
  have hname : ∀ c : Option Value, ∀ m ∈ optionalMember "children" c, m.1 ≠ "position" := by
    intro c m hm
    rw [(mem_optionalMember.1 hm).1]
    decide
  -- The members are told apart from the front to the back.
  rcases List.cons.inj h with ⟨hkind, hmembers⟩
  rcases optionalMember_inj (hnames _ _) (hnames _ _) hmembers with ⟨hvalue, hmembers'⟩
  rcases optionalMember_inj (hname _) (hname _) hmembers' with ⟨hposition, hchildren⟩
  rw [← List.append_nil (optionalMember _ (items.map _)),
    ← List.append_nil (optionalMember _ (items'.map _))] at hchildren
  have hlast : ∀ m ∈ ([] : List (String × Value)), m.1 ≠ "children" := fun _ hm => nomatch hm
  have hitems := (optionalMember_inj hlast hlast hchildren).1
  obtain rfl : kind = kind' := Value.string.inj (Prod.mk.inj hkind).2
  obtain rfl : value = value' := Option.map_injective (fun _ _ => Scalar.toJson_inj) hvalue
  obtain rfl : position = position' := Option.map_injective (fun _ _ => Position.toJson_inj) hposition
  obtain rfl : items = items' := Option.map_injective (fun _ _ => Value.array.inj) hitems
  exact ⟨rfl, rfl⟩

theorem integral_members {label : Label String Scalar} {items : Option (List Value)}
    (hitems : ∀ ts ∈ items, ∀ v ∈ ts, v.Integral) : (Value.object (members label items)).Integral := by
  refine .object fun m hm => ?_
  rcases List.mem_cons.1 hm with rfl | hm
  · exact .string label.kind
  rcases List.mem_append.1 hm with hm | hm
  · rcases Option.map_eq_some_iff.1 (mem_optionalMember.1 hm).2 with ⟨v, -, hv⟩
    exact hv ▸ v.integral_toJson
  rcases List.mem_append.1 hm with hm | hm
  · rcases Option.map_eq_some_iff.1 (mem_optionalMember.1 hm).2 with ⟨p, -, hp⟩
    exact hp ▸ p.integral_toJson
  · rcases Option.map_eq_some_iff.1 (mem_optionalMember.1 hm).2 with ⟨ts, hts, hv⟩
    exact hv ▸ .array (hitems ts hts)

/-- All numbers that a tree of words is written with are whole. -/
theorem integral_toJson (T : Term (Label String Scalar)) : T.toJson.Integral := by
  induction T using Term.induction with
  | leaf label =>
      rw [toJson_leaf]
      exact integral_members fun _ hts => nomatch hts
  | branch label ts ih =>
      rw [toJson_branch]
      apply integral_members
      intro items hitems v hv
      obtain rfl := Option.some.inj hitems
      rcases List.mem_map.1 hv with ⟨T, hT, rfl⟩
      exact ih T hT

/-- Lists of trees that are written alike one by one are equal. -/
theorem map_toJson_inj {ts ss : List (Term (Label String Scalar))}
    (hts : ∀ T ∈ ts, ∀ S : Term (Label String Scalar), T.toJson = S.toJson → T = S)
    (h : ts.map toJson = ss.map toJson) : ts = ss := by
  induction ts generalizing ss with
  | nil => exact (List.map_eq_nil_iff.1 h.symm).symm
  | cons T ts ih =>
      cases ss with
      | nil => cases h
      | cons S ss =>
          rcases List.cons.inj h with ⟨hhead, htail⟩
          rw [hts T List.mem_cons_self S hhead, ih (fun R hR => hts R (List.mem_cons_of_mem _ hR)) htail]

/-- Trees of words that are written alike are equal. -/
theorem toJson_inj {T S : Term (Label String Scalar)} (h : T.toJson = S.toJson) : T = S := by
  induction T using Term.induction generalizing S with
  | leaf label =>
      cases S with
      | leaf label' =>
          rw [toJson_leaf, toJson_leaf] at h
          rw [(members_inj (Value.object.inj h)).1]
      | branch label' ts' =>
          rw [toJson_leaf, toJson_branch] at h
          cases (members_inj (Value.object.inj h)).2
  | branch label ts ih =>
      cases S with
      | leaf label' =>
          rw [toJson_branch, toJson_leaf] at h
          cases (members_inj (Value.object.inj h)).2
      | branch label' ts' =>
          rw [toJson_branch, toJson_branch] at h
          rcases members_inj (Value.object.inj h) with ⟨rfl, hitems⟩
          rw [map_toJson_inj (fun T hT S => ih T hT) (Option.some.inj hitems)]

end Term

/-! ## The result -/

/-- Every finite subtree of a tree of words is written as one JSON text.  Subtrees with the same text
have the same shape, with the same kinds, values and spans, whatever trees they lie in. -/
theorem view_lossless :
    (∀ (t : WordTree) (id : NodeId), t.Finite id →
      ∃ text, t.viewText id = .ok text ∧ Json.Grammar.IsText text.toList) ∧
      ∀ (t u : WordTree) (id other : NodeId), t.Finite id → u.Finite other →
        t.viewText id = u.viewText other → ∃ T, t.term? id = some T ∧ u.term? other = some T := by
  refine ⟨fun t id h => ?_, fun t u id other h h' heq => ?_⟩
  · rcases h.exists_term? with ⟨T, hT⟩
    exact ⟨_, Tree.viewText_eq hT, Json.isText_compact T.integral_toJson⟩
  · rcases h.exists_term? with ⟨T, hT⟩
    rcases h'.exists_term? with ⟨S, hS⟩
    rw [Tree.viewText_eq hT, Tree.viewText_eq hS] at heq
    have htext : T.toJson.compact = S.toJson.compact := Except.ok.inj heq
    obtain rfl : T = S :=
      Term.toJson_inj (Json.compact_inj T.integral_toJson S.integral_toJson htext)
    exact ⟨T, hT, hS⟩

/-- A parent without children between two leaves, with a quote, a backslash and a line feed. -/
def quotedWords : Term (Label String Scalar) :=
  .branch ⟨"say \"x\"", some (.int (-3)), some ⟨⟨1, 1, 0⟩, ⟨1, 3, 2⟩⟩⟩
    [.leaf ⟨"text", some (.text "\\"), none⟩, .branch ⟨"text", none, none⟩ [],
      .leaf ⟨"text", some (.text "\n"), none⟩]

theorem quotedWords_lossless :
    (∃ text, (Tree.ofTerm quotedWords).viewText Tree.root = .ok text ∧
      Json.Grammar.IsText text.toList) ∧
      ∃ T, (Tree.ofTerm quotedWords).term? Tree.root = some T ∧
        (Tree.ofTerm (.branch ⟨"list", none, none⟩ [quotedWords])).term? 1 = some T := by
  obtain ⟨T, hT⟩ : ∃ T, (Tree.ofTerm quotedWords).idTerm? Tree.root = some T := ⟨_, rfl⟩
  obtain ⟨S, hS⟩ : ∃ S, (Tree.ofTerm (.branch ⟨"list", none, none⟩ [quotedWords])).idTerm? 1 =
      some S := ⟨_, rfl⟩
  have hfinite := Tree.finite_of_expand? hT
  have hfinite' := Tree.finite_of_expand? hS
  exact ⟨view_lossless.1 _ _ hfinite, view_lossless.2 _ _ _ _ hfinite hfinite' rfl⟩

end FeatureTree
