import FeatureTree.Proofs.Calculator.Skipping

/-!
# Origins — where the nodes of both trees come from

The flat tree of a text holds its words: a leaf is a number, an operator or a name, and carries it; a
branch is a bracket and carries nothing (`spoken_of_read`).

An expression tree is made of copies of leaves, of groups, and of brackets and functions, whatever stands
in the flat tree (`made_of_group`).  A group carries its level, a function the name that was copied.
-/

namespace FeatureTree
namespace Calculator

/-! ## Flat trees -/

/-- The label of a leaf that was read. -/
inductive Worded : Label SyntaxKind Literal → Prop where
  | number (x : Binary64) (position : Option Position) : Worded ⟨.number, some (.number x), position⟩
  | operator (op : Operator) (position : Option Position) :
      Worded ⟨.operator, some (.operator op), position⟩
  | name {word : List Char} (position : Option Position) (name : isName word = true) :
      Worded ⟨.name, some (.name (String.ofList word)), position⟩

/-- A term that was read: words, and brackets around them. -/
inductive Spoken : SyntaxTerm → Prop where
  | leaf {a : Label SyntaxKind Literal} (worded : Worded a) : Spoken (.leaf a)
  | bracket {position : Option Position} {inner : List SyntaxTerm}
      (inside : ∀ T ∈ inner, Spoken T) : Spoken (.branch ⟨.bracket, none, position⟩ inner)

variable {text : SourceText} {items shown : List SyntaxTerm} {T : SyntaxTerm}

theorem Spoken.worded (h : Spoken T) :
    ∀ a ∈ T.labels, Worded a ∨ a.kind = .bracket ∧ a.value = none := by
  induction h with
  | leaf worded =>
      intro a ha
      obtain rfl := List.mem_singleton.1 ha
      exact .inl worded
  | bracket _ ih =>
      intro a ha
      rcases Term.mem_labels_branch.1 ha with rfl | ⟨S, hS, haS⟩
      · exact .inr ⟨rfl, rfl⟩
      · exact ih S hS a haS

/-- What holds of all words and of all brackets around such terms holds of what is nested. -/
theorem forall_nest {P : SyntaxTerm → Prop} {levels : List (Nat × List SyntaxTerm)}
    {tokens : List Token}
    (hleaf : ∀ token ∈ tokens, token.kind ≠ .opening → token.kind ≠ .closing →
      P (.leaf (token.label text)))
    (hbracket : ∀ start stop inner, (∀ T ∈ inner, P T) →
      P (.branch (bracketLabel text start stop) inner))
    (hlevels : ∀ level ∈ levels, ∀ T ∈ level.2, P T) (hitems : ∀ T ∈ items, P T)
    (h : nest text levels items tokens = some shown) : ∀ T ∈ shown, P T := by
  have happend : ∀ {outer : List SyntaxTerm} {S : SyntaxTerm}, (∀ T ∈ outer, P T) → P S →
      ∀ T ∈ outer ++ [S], P T := by
    intro outer S houter hS
    exact List.forall_mem_append.2 ⟨houter, List.forall_mem_singleton.2 hS⟩
  -- The items so far and those of every open level are kept in the property.
  induction tokens generalizing levels items with
  | nil =>
      cases levels with
      | nil =>
          obtain rfl : items = shown := Option.some.inj h
          exact hitems
      | cons level levels => cases h
  | cons token rest ih =>
      have hrest := fun token htoken => hleaf token (List.mem_cons_of_mem _ htoken)
      by_cases hopening : token.kind = .opening
      · rw [nest_opening hopening] at h
        exact ih hrest (List.forall_mem_cons.2 ⟨hitems, hlevels⟩) (List.forall_mem_nil _) h
      · by_cases hclosing : token.kind = .closing
        · rcases levels with _ | ⟨⟨start, outer⟩, levels⟩
          · simp [nest, hclosing] at h
          · rw [nest_closing hclosing] at h
            rcases List.forall_mem_cons.1 hlevels with ⟨houter, hlevels'⟩
            exact ih hrest hlevels' (happend houter (hbracket _ _ _ hitems)) h
        · rw [nest_leaf hopening hclosing] at h
          exact ih hrest hlevels
            (happend hitems (hleaf token List.mem_cons_self hopening hclosing)) h

/-- A word carries what it spells. -/
theorem worded_token {token : Token} (hword : kind? token.word = some token.kind)
    (hopening : token.kind ≠ .opening) (hclosing : token.kind ≠ .closing) :
    Worded (token.label text) := by
  rcases token with ⟨kind, start, word⟩
  cases kind with
  | number =>
      rcases parse?_spelling (kind?_eq_number hword) with ⟨x, hx, -⟩
      rw [Token.label, hx]
      exact .number x _
  | name => exact .name _ (kind?_eq_name hword)
  | operator op => exact .operator op _
  | opening => exact absurd rfl hopening
  | closing => exact absurd rfl hclosing

/-! ### Signs -/

theorem Spoken.negated {sign number : SyntaxTerm} (h : Spoken number)
    (hnumeral : isNumeral number = true) : Spoken (negated sign number) := by
  cases h with
  | leaf worded =>
      cases worded with
      | number x position => exact .leaf (.number x.neg _)
      | operator op position => cases hnumeral
      | name position name => cases hnumeral
  | bracket inside => cases hnumeral

theorem spoken_takeSign (hitems : ∀ T ∈ items, Spoken T) : ∀ T ∈ takeSign items, Spoken T := by
  match items, hitems with
  | [], hitems => exact hitems
  | [first], hitems => exact hitems
  | first :: second :: rest, hitems =>
      rcases List.forall_mem_cons.1 hitems with ⟨-, hbehind⟩
      rcases List.forall_mem_cons.1 hbehind with ⟨hsecond, hrest⟩
      rw [takeSign]
      split
      · next hboth =>
          have hnumeral := (Bool.and_eq_true_iff.1 hboth).2
          exact List.forall_mem_cons.2 ⟨hsecond.negated hnumeral, hrest⟩
      · exact hitems

theorem Spoken.signed (h : Spoken T) : Spoken (signed T) := by
  induction h with
  | leaf worded => exact .leaf worded
  | bracket _ ih =>
      refine .bracket (spoken_takeSign ?_)
      rw [signedAll_eq_map]
      exact List.forall_mem_map.2 ih

theorem spoken_finished (hitems : ∀ T ∈ items, Spoken T) : ∀ T ∈ finished items, Spoken T := by
  refine spoken_takeSign ?_
  rw [signedAll_eq_map]
  exact List.forall_mem_map.2 fun S hS => (hitems S hS).signed

/-- The nested tokens of a text are words and brackets. -/
theorem spoken_of_nest (h : nest text [] [] (tokens text) = some items) : ∀ T ∈ items, Spoken T := by
  refine forall_nest (fun token htoken hopening hclosing => ?_) (fun _ _ _ hinner => .bracket hinner)
    (List.forall_mem_nil _) (List.forall_mem_nil _) h
  exact .leaf (worded_token (of_mem_tokensFrom htoken).2 hopening hclosing)

/-- The tree of a text is made of words and brackets. -/
theorem spoken_of_read {limits : Limits} {t : SyntaxTree} (h : read text limits = .ok t) :
    ∃ T items, t.idTerm? Tree.root = some T ∧ Plain T ∧
      nest text [] [] (tokens text) = some items ∧
      T.map Prod.snd = .branch (rootLabel text) (finished items) ∧
      ∀ S ∈ finished items, Spoken S := by
  rcases tidy_of_read h with ⟨T, items, hT, hnest, hmap, htidy⟩
  have hplain : Plain T := plain_of_faultless hmap fun X hX => (htidy X hX).faultless
  exact ⟨T, items, hT, hplain, hnest, hmap, spoken_finished (spoken_of_nest hnest)⟩

/-! ## Expression trees -/

/-- A term that was made from nodes with the given labels. -/
inductive Made (Source : Label SyntaxKind Literal → Prop) : ExprTerm → Prop where
  | number {a : Label SyntaxKind Literal} (source : Source a) (kind : a.kind = .number) :
      Made Source (.leaf ⟨.number, a.value, a.position⟩)
  | operator {a : Label SyntaxKind Literal} (source : Source a) (kind : a.kind = .operator) :
      Made Source (.leaf ⟨.operator, a.value, a.position⟩)
  | bareName {a : Label SyntaxKind Literal} (source : Source a) (kind : a.kind = .name) :
      Made Source (.leaf ⟨.bareName, a.value, a.position⟩)
  | group {depth : Nat} {members : List ExprTerm} (inside : ∀ T ∈ members, Made Source T) :
      Made Source (.branch (groupLabel depth members) members)
  | bracket {position : Option Position} {items : List ExprTerm}
      (inside : ∀ T ∈ items, Made Source T) :
      Made Source (.branch ⟨.bracket, none, position⟩ items)
  | function {a : Label SyntaxKind Literal} {position : Option Position} {items : List ExprTerm}
      (source : Source a) (kind : a.kind = .name) (inside : ∀ T ∈ items, Made Source T) :
      Made Source (.branch ⟨.function, a.value, position⟩ items)

variable {Source : Label SyntaxKind Literal → Prop}

namespace Bench

variable {b b' : Bench} {limit base index : Nat} {X : SourceTerm} {S : ExprTerm}

/-- Everything on the bench was made from nodes with the given labels. -/
structure MadeFrom (Source : Label SyntaxKind Literal → Prop) (b : Bench) : Prop where
  terms : ∀ S ∈ b.terms, Made Source S
  name : ∀ a, b.name = some a → Source a ∧ a.kind = .name

theorem madeFrom_clear : clear.MadeFrom Source :=
  ⟨fun _ hS => (nomatch hS), fun _ ha => (nomatch ha)⟩

theorem MadeFrom.add (h : b.MadeFrom Source) (hS : Made Source S) : (b.add S).MadeFrom Source := by
  refine ⟨?_, h.name⟩
  rw [terms_add]
  intro R hR
  rcases List.mem_append.1 hR with hold | hnew
  · exact h.terms R hold
  · exact List.mem_singleton.1 hnew ▸ hS

/-- A group that is closed was made from its members. -/
theorem MadeFrom.close (h : b.MadeFrom Source) : b.close.MadeFrom Source := by
  by_cases houter : b.outer = []
  · rw [Bench.close, houter]
    exact h
  · rcases terms_close houter with ⟨front, hlaid, hclose⟩
    refine ⟨?_, b.name_close ▸ h.name⟩
    have hterms := h.terms
    rw [hlaid] at hterms
    rw [hclose]
    intro R hR
    rcases List.mem_append.1 hR with hold | hnew
    · exact hterms R (List.mem_append_left _ hold)
    · rw [List.mem_singleton.1 hnew]
      exact .group fun T hT => hterms T (List.mem_append_right _ hT)

theorem MadeFrom.openGroup (h : b.MadeFrom Source) : b.openGroup.MadeFrom Source :=
  ⟨b.terms_openGroup ▸ h.terms, h.name⟩

theorem MadeFrom.turnTo (h : b.MadeFrom Source) (level : Level) : (b.turnTo level).MadeFrom Source :=
  turnTo_induction level h (fun _ hc => hc.close) fun _ hc => hc.openGroup

theorem MadeFrom.flush (h : b.MadeFrom Source) : b.flush.MadeFrom Source := by
  rcases b with ⟨inner, outer, name⟩
  cases name with
  | none => exact h
  | some name =>
      rcases h.name name rfl with ⟨hsource, hkind⟩
      exact ⟨(h.add (.bareName hsource hkind)).terms, fun _ ha => nomatch ha⟩

theorem MadeFrom.finish (h : b.MadeFrom Source) : ∀ S ∈ b.finish, Made Source S := by
  rw [← terms_turnTo_additive]
  exact (h.flush.turnTo .additive).terms

theorem MadeFrom.enclose {bracket : Label SyntaxKind Literal} {items : List ExprTerm}
    (h : b.MadeFrom Source) (hitems : ∀ S ∈ items, Made Source S) :
    (b.enclose bracket items).MadeFrom Source := by
  have hlaid : Made Source (.branch (b.enclosure bracket) items) := by
    unfold enclosure
    cases hname : b.name with
    | none => exact .bracket hitems
    | some name => exact .function (h.name name hname).1 (h.name name hname).2 hitems
  exact ⟨(h.add hlaid).terms, fun _ ha => nomatch ha⟩

theorem MadeFrom.takeLeaf {id : NodeId} {a : Label SyntaxKind Literal} (h : b.MadeFrom Source)
    (ha : Source a) (htake : b.takeLeaf limit base index id a = .ok b') : b'.MadeFrom Source := by
  cases takeLeaf_eq_ok htake with
  | number hkind hb =>
      subst hb
      exact h.flush.add (.number ha hkind)
  | name hkind hb =>
      subst hb
      refine ⟨h.flush.terms, fun c hc => ?_⟩
      obtain rfl := Option.some.inj hc
      exact ⟨ha, hkind⟩
  | operator op hkind hvalue hb =>
      subst hb
      exact (h.flush.turnTo op.level).add (.operator ha hkind)

/-- The node of a term leaves only what was made from given labels, wherever it is taken. -/
def KeepsMade (Source : Label SyntaxKind Literal → Prop) (limit : Nat) (X : SourceTerm) : Prop :=
  ∀ base index b b', take limit base index b X = .ok b' → b.MadeFrom Source → b'.MadeFrom Source

theorem madeFrom_takeAll {Xs : List SourceTerm} (hXs : ∀ X ∈ Xs, KeepsMade Source limit X)
    (htake : takeAll limit base index b Xs = .ok b') (h : b.MadeFrom Source) :
    b'.MadeFrom Source := by
  induction Xs generalizing b index with
  | nil =>
      obtain rfl := Except.ok.inj htake
      exact h
  | cons X Xs ih =>
      rw [takeAll] at htake
      rcases bind_eq_ok htake with ⟨b₁, hfirst, hrest⟩
      have h₁ : b₁.MadeFrom Source := hXs X List.mem_cons_self base index b b₁ hfirst h
      exact ih (fun Y hY => hXs Y (List.mem_cons_of_mem _ hY)) hrest h₁

theorem keepsMade (limit : Nat) (X : SourceTerm) (hX : ∀ a ∈ X.labels, Source a.2) :
    KeepsMade Source limit X := by
  induction X using Term.induction with
  | leaf a =>
      intro base index b b' htake h
      exact h.takeLeaf (hX a List.mem_cons_self) htake
  | branch a inner ih =>
      have hinner : ∀ Y ∈ inner, KeepsMade Source limit Y :=
        fun Y hY => ih Y hY fun c hc => hX c (Term.mem_labels_of_mem hY hc)
      intro base index b b' htake h
      by_cases hkind : a.2.kind = .bracket
      · rcases takeBracket_eq_ok hkind htake with ⟨content, hcontent, hb⟩
        subst hb
        exact h.enclose (madeFrom_takeAll hinner hcontent madeFrom_clear).finish
      · rw [take, if_neg hkind] at htake
        exact h.takeLeaf (hX a List.mem_cons_self) htake

end Bench

/-- What grouping gives was made from the nodes below the root. -/
theorem made_of_group {t : SyntaxTree} {T : SourceTerm} {limits : Limits} {out : ExprTree}
    (hT : t.idTerm? Tree.root = some T) (hplain : Plain T) (h : group t limits = .success out) :
    ∃ items, out.term? Tree.root = some (.branch ⟨.calculator, none, T.label.2.position⟩ items) ∧
      ∀ S ∈ items, Made (fun a => ∃ X ∈ T.children, a ∈ (X.map Prod.snd).labels) S := by
  rcases (group_eq_success_iff hT hplain).1 ⟨out, h⟩ with ⟨b, htake⟩
  rcases exists_group hT hplain htake with ⟨out', hout, hterm⟩
  obtain rfl : out = out' := by
    rw [h] at hout
    exact Outcome.success.inj hout
  refine ⟨b.finish, hterm, (Bench.madeFrom_takeAll (fun X hX => ?_) htake Bench.madeFrom_clear).finish⟩
  refine Bench.keepsMade _ X fun a ha => ⟨X, hX, ?_⟩
  rw [Term.labels_map]
  exact List.mem_map_of_mem ha

end Calculator
end FeatureTree
