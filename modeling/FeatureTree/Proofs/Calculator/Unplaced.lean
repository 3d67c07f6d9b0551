import FeatureTree.Proofs.Calculator.Faults

/-!
# Unplaced — nothing depends on spans but spans

A term without its spans is written on one line as the term is (`Term.render_unplaced`).  Signs are taken
and operators are grouped in the same way with and without spans, and without ids: what the bench makes
of nodes without them is what it makes of the nodes, without spans (`takeAll_unplaced`).  This is for
terms in which nothing is a fault; an error may name a node by its id.

So the expression trees of two texts are written alike if their flat trees differ in spans only
(`sameGrouping`).
-/

namespace FeatureTree

/-! ## Terms without spans -/

section Terms

variable {K V : Type}

def Label.unplaced (label : Label K V) : Label K V := { label with position := none }

/-- The term without any spans. -/
def Term.unplaced (T : Term (Label K V)) : Term (Label K V) := T.map Label.unplaced

theorem Term.unplaced_leaf (label : Label K V) :
    (Term.leaf label).unplaced = .leaf label.unplaced := rfl

theorem Term.unplaced_branch (label : Label K V) (ts : List (Term (Label K V))) :
    (Term.branch label ts).unplaced = .branch label.unplaced (ts.map Term.unplaced) :=
  congrArg (Term.branch label.unplaced) (Term.mapList_eq_map Label.unplaced ts)

theorem Term.renderList_unplaced [Written K] [Written V] {ts : List (Term (Label K V))}
    (hts : ∀ T ∈ ts, T.unplaced.render = T.render) (text : String) :
    renderList text (ts.map Term.unplaced) = renderList text ts := by
  induction ts generalizing text with
  | nil => rfl
  | cons T ts ih =>
      rw [List.map_cons, renderList, renderList, hts T List.mem_cons_self]
      exact ih (fun S hS => hts S (List.mem_cons_of_mem _ hS)) _

/-- The text of a term does not depend on its spans. -/
theorem Term.render_unplaced [Written K] [Written V] (T : Term (Label K V)) :
    T.unplaced.render = T.render := by
  induction T using Term.induction with
  | leaf label => rfl
  | branch label ts ih =>
      have hhead : headText label.unplaced = headText label := rfl
      rw [unplaced_branch, render, render, hhead, renderList_unplaced ih]

theorem Tree.render_of_unplaced [Written K] [Written V] {t t' : Tree K V}
    {T T' : Term (Label K V)} (hT : t.term? root = some T) (hT' : t'.term? root = some T')
    (h : T.unplaced = T'.unplaced) : t.render = t'.render := by
  rw [Tree.render, Tree.render, hT, hT']
  dsimp only
  rw [← T.render_unplaced, ← T'.render_unplaced, h]

end Terms

namespace Calculator

open Rebuilding

/-- The term without ids and without spans. -/
def anonymous : SourceTerm → SourceTerm := Term.map fun a => (Tree.root, a.2.unplaced)

theorem anonymous_branch (a : NodeId × Label SyntaxKind Literal) (inner : List SourceTerm) :
    anonymous (.branch a inner) = .branch (Tree.root, a.2.unplaced) (inner.map anonymous) :=
  congrArg (Term.branch (Tree.root, a.2.unplaced)) (Term.mapList_eq_map _ inner)

/-- Without its ids and spans a term is told by what it shows without spans. -/
theorem anonymous_inj_of {X X' : SourceTerm}
    (h : (X.map Prod.snd).unplaced = (X'.map Prod.snd).unplaced) : anonymous X = anonymous X' := by
  -- Forgetting ids and spans is forgetting the spans of what is shown, and putting one id everywhere.
  have hmap : ∀ Y : SourceTerm, anonymous Y =
      (Y.map Prod.snd).unplaced.map fun label => (Tree.root, label) := by
    intro Y
    induction Y using Term.induction with
    | leaf a => rfl
    | branch a inner ih =>
        rw [anonymous_branch, Term.map, Term.mapList_eq_map, Term.unplaced_branch, Term.map,
          Term.mapList_eq_map, List.map_map, List.map_map]
        congr 1
        exact List.map_congr_left ih
  rw [hmap, hmap, h]

/-! ## The bench -/

namespace Bench

/-- The bench without any spans. -/
def unplaced (b : Bench) : Bench where
  inner := b.inner.map Term.unplaced
  outer := b.outer.map (List.map Term.unplaced)
  name := b.name.map Label.unplaced

variable (b : Bench)

@[simp] theorem depth_unplaced : b.unplaced.depth = b.depth := List.length_map _

theorem add_unplaced (T : ExprTerm) : (b.add T).unplaced = b.unplaced.add T.unplaced := by
  simp [add, unplaced]

/-- A group has no span if its members have none. -/
theorem groupLabel_unplaced (depth : Nat) (members : List ExprTerm) :
    (groupLabel depth members).unplaced = groupLabel depth (members.map Term.unplaced) := by
  have hnone : ((members.map Term.unplaced).head?.bind fun T => T.label.position) = none := by
    cases members with
    | nil => rfl
    | cons T members => cases T <;> rfl
  have hspan : ∀ last, Piece.spanOf? none last = none := fun last => by cases last <;> rfl
  rw [groupLabel, groupLabel, hnone, hspan]
  rfl

theorem close_unplaced : b.close.unplaced = b.unplaced.close := by
  rcases b with ⟨inner, _ | ⟨around, outer⟩, name⟩
  · rfl
  · simp [close, unplaced, depth, Term.unplaced_branch, groupLabel_unplaced]

theorem openGroup_unplaced : b.openGroup.unplaced = b.unplaced.openGroup := by
  have hlast : b.inner.getLast?.toList.map Term.unplaced =
      (b.inner.map Term.unplaced).getLast?.toList := by
    rw [List.getLast?_map]
    cases b.inner.getLast? <;> rfl
  simp [openGroup, unplaced, hlast]

theorem iterate_close_unplaced (n : Nat) : (close^[n] b).unplaced = close^[n] b.unplaced := by
  have hstep : Function.Semiconj unplaced close close := close_unplaced
  exact hstep.iterate_right n b

theorem iterate_openGroup_unplaced (n : Nat) :
    (openGroup^[n] b).unplaced = openGroup^[n] b.unplaced := by
  have hstep : Function.Semiconj unplaced openGroup openGroup := openGroup_unplaced
  exact hstep.iterate_right n b

theorem turnTo_unplaced (level : Level) : (b.turnTo level).unplaced = b.unplaced.turnTo level := by
  rw [turnTo, turnTo, iterate_openGroup_unplaced, iterate_close_unplaced, depth_unplaced]

theorem flush_unplaced : b.flush.unplaced = b.unplaced.flush := by
  rcases b with ⟨inner, outer, _ | name⟩
  · rfl
  · simp [flush, add, unplaced, Term.unplaced_leaf, Label.unplaced]

theorem finish_unplaced : b.finish.map Term.unplaced = b.unplaced.finish := by
  rw [finish, finish, depth_unplaced, ← flush_unplaced, ← iterate_close_unplaced]
  rfl

theorem enclose_unplaced (bracket : Label SyntaxKind Literal) (items : List ExprTerm) :
    (b.enclose bracket items).unplaced =
      b.unplaced.enclose bracket.unplaced (items.map Term.unplaced) := by
  rcases b with ⟨inner, outer, _ | name⟩
  · simp [enclose, enclosure, add, unplaced, Term.unplaced_branch, Label.unplaced]
  · simp [enclose, enclosure, add, unplaced, Term.unplaced_branch, Label.unplaced, Piece.spanOf?]

/-! ### One node -/

section Nodes

variable (limit base : Nat) {b}

theorem seat_unplaced : b.unplaced.seat limit base = (b.seat limit base).map unplaced := by
  rw [seat, seat, depth_unplaced]
  split <;> rfl

theorem seatBracket_unplaced :
    b.unplaced.seatBracket limit base = (b.seatBracket limit base).map unplaced := by
  rcases b with ⟨inner, outer, _ | name⟩
  · exact seat_unplaced limit base
  · rfl

theorem seatFor_unplaced {c : Bench} {f g : Bench → Bench}
    (hc : c.unplaced = b) (hfg : ∀ c : Bench, (f c).unplaced = g c.unplaced) :
    (b.seat limit base).map g = ((c.seat limit base).map f).map unplaced := by
  rw [← hc, seat_unplaced]
  cases c.seat limit base with
  | error e => rfl
  | ok c' => exact congrArg Except.ok (hfg c').symm

/-- A leaf that is no fault is laid in the same way without its id and its span. -/
theorem takeLeaf_unplaced {label : Label SyntaxKind Literal} (index : Nat) (id id' : NodeId)
    (hbracket : label.kind ≠ .bracket) (hcalculator : label.kind ≠ .calculator)
    (hmarked : label.kind = .operator → (label.value.bind Literal.operator?).isSome = true) :
    b.unplaced.takeLeaf limit base index id' label.unplaced =
      (b.takeLeaf limit base index id label).map unplaced := by
  have hkind' : label.unplaced.kind = label.kind := rfl
  cases hkind : label.kind with
  | number =>
      rw [b.takeLeaf_number label hkind, b.unplaced.takeLeaf_number _ (hkind'.trans hkind)]
      exact seatFor_unplaced limit base (flush_unplaced b) fun c => add_unplaced c _
  | name =>
      rw [b.takeLeaf_name label hkind, b.unplaced.takeLeaf_name _ (hkind'.trans hkind)]
      exact seatFor_unplaced limit base (flush_unplaced b) fun c => rfl
  | operator =>
      rcases Option.isSome_iff_exists.1 (hmarked hkind) with ⟨op, hop⟩
      have hop' : label.unplaced.value.bind Literal.operator? = some op := hop
      rw [b.takeLeaf_operator label hkind hop,
        b.unplaced.takeLeaf_operator _ (hkind'.trans hkind) hop']
      refine seatFor_unplaced limit base ?_ fun c => add_unplaced c _
      rw [turnTo_unplaced, flush_unplaced]
  | bracket => exact absurd hkind hbracket
  | calculator => exact absurd hkind hcalculator

/-- Taking the node without ids and spans gives what taking the node gives, without spans. -/
def Unplaces (X : SourceTerm) : Prop :=
  ∀ base index (b : Bench), take limit base index b.unplaced (anonymous X) =
    (take limit base index b X).map unplaced

variable {limit}

theorem takeAll_unplaced {Xs : List SourceTerm} (hXs : ∀ X ∈ Xs, Unplaces limit X)
    (base index : Nat) (b : Bench) : takeAll limit base index b.unplaced (Xs.map anonymous) =
      (takeAll limit base index b Xs).map unplaced := by
  induction Xs generalizing index b with
  | nil => rfl
  | cons X Xs ih =>
      rw [List.map_cons, takeAll, takeAll, hXs X List.mem_cons_self base index b]
      cases take limit base index b X with
      | error e => rfl
      | ok b' => exact ih (fun Y hY => hXs Y (List.mem_cons_of_mem _ hY)) (index + 1) b'

theorem unplaces_bracket {a : NodeId × Label SyntaxKind Literal} {inner : List SourceTerm}
    (hkind : a.2.kind = .bracket) (hinner : ∀ X ∈ inner, Unplaces limit X) :
    Unplaces limit (.branch a inner) := by
  intro base index b
  have hcontent := takeAll_unplaced hinner (base + b.depth + 2) 0 clear
  have hkind' : a.2.unplaced.kind = .bracket := hkind
  rw [anonymous_branch, take, take, if_pos hkind, if_pos hkind', seatBracket_unplaced]
  cases hroom : b.seatBracket limit base with
  | error e => rfl
  | ok c =>
      -- There is room for the bracket and for its content on both benches or on neither.
      obtain rfl := eq_of_seatBracket hroom
      change (c.unplaced.seat limit (base + 1)).bind _ = Except.map unplaced ((c.seat _ _).bind _)
      rw [seat_unplaced]
      cases hseat : c.seat limit (base + 1) with
      | error e => rfl
      | ok c' =>
          obtain rfl := eq_of_seat hseat
          change (takeAll limit (base + c'.unplaced.depth + 2) 0 clear _).map _ =
            Except.map unplaced ((takeAll limit (base + c'.depth + 2) 0 clear inner).map _)
          rw [depth_unplaced]
          change takeAll limit (base + c'.depth + 2) 0 clear (inner.map anonymous) = _ at hcontent
          rw [hcontent]
          cases takeAll limit (base + c'.depth + 2) 0 clear inner with
          | error e => rfl
          | ok content =>
              change Except.ok _ = Except.ok _
              rw [enclose_unplaced, finish_unplaced]

theorem unplaces_of_tidy {depth : Nat} {X : SourceTerm} (h : Tidy depth (X.map Prod.snd)) :
    Unplaces limit X := by
  induction X using Term.induction generalizing depth with
  | leaf a =>
      cases h with
      | leaf bracket calculator marked =>
          intro base index b
          exact takeLeaf_unplaced limit base index a.1 Tree.root bracket calculator marked.1
  | branch a inner ih =>
      rw [Term.map, Term.mapList_eq_map] at h
      cases h with
      | bracket kind value inside =>
          exact unplaces_bracket kind fun X hX => ih X hX (inside _ (List.mem_map_of_mem hX))

end Nodes

end Bench

/-! ## Grouping -/

/-- What grouping makes of two trees: expression trees that are written alike, or the same error. -/
inductive SameGrouping : Outcome Rebuilding.Error ExprTree → Outcome Rebuilding.Error ExprTree → Prop
    where
  | success {out out' : ExprTree} (h : out.render = out'.render) :
      SameGrouping (.success out) (.success out')
  | failure (e : Rebuilding.Error) : SameGrouping (.failure e) (.failure e)

/-- The bench makes the same of nodes without faults that differ in spans and ids only. -/
theorem sameBench {Xs Xs' : List SourceTerm} {depth depth' : Nat} (limit : Nat)
    (hXs : ∀ X ∈ Xs, Tidy depth (X.map Prod.snd)) (hXs' : ∀ X ∈ Xs', Tidy depth' (X.map Prod.snd))
    (h : Xs.map anonymous = Xs'.map anonymous) :
    (Bench.takeAll limit 0 0 .clear Xs).map Bench.unplaced =
      (Bench.takeAll limit 0 0 .clear Xs').map Bench.unplaced := by
  calc
    (Bench.takeAll limit 0 0 .clear Xs).map Bench.unplaced
        = Bench.takeAll limit 0 0 .clear (Xs.map anonymous) :=
          (Bench.takeAll_unplaced (fun X hX => Bench.unplaces_of_tidy (hXs X hX)) 0 0 .clear).symm
    _ = Bench.takeAll limit 0 0 .clear (Xs'.map anonymous) := by rw [h]
    _ = (Bench.takeAll limit 0 0 .clear Xs').map Bench.unplaced :=
          Bench.takeAll_unplaced (fun X hX => Bench.unplaces_of_tidy (hXs' X hX)) 0 0 .clear

/-- Flat trees without faults that differ in spans and ids only are grouped alike. -/
theorem sameGrouping {t t' : SyntaxTree} {T T' : SourceTerm} {depth depth' : Nat} (limits : Limits)
    (hT : t.idTerm? Tree.root = some T) (hT' : t'.idTerm? Tree.root = some T') (hplain : Plain T)
    (hplain' : Plain T') (htidy : ∀ X ∈ T.children, Tidy depth (X.map Prod.snd))
    (htidy' : ∀ X ∈ T'.children, Tidy depth' (X.map Prod.snd))
    (h : T.children.map anonymous = T'.children.map anonymous) :
    SameGrouping (group t limits) (group t' limits) := by
  have hsame := sameBench limits.maxDepth htidy htidy' h
  -- Both benches fail with the same error, or both come to terms that differ in spans only.
  cases hb : Bench.takeAll limits.maxDepth 0 0 .clear T.children with
  | error e =>
      cases hb' : Bench.takeAll limits.maxDepth 0 0 .clear T'.children with
      | ok b' =>
          rw [hb, hb'] at hsame
          cases hsame
      | error e' =>
          rw [hb, hb'] at hsame
          obtain rfl : e = e' := Except.error.inj hsame
          rw [(group_eq_failure_iff hT hplain).2 hb, (group_eq_failure_iff hT' hplain').2 hb']
          exact .failure e
  | ok b =>
      cases hb' : Bench.takeAll limits.maxDepth 0 0 .clear T'.children with
      | error e' =>
          rw [hb, hb'] at hsame
          cases hsame
      | ok b' =>
          rw [hb, hb'] at hsame
          have hbench : b.unplaced = b'.unplaced := Except.ok.inj hsame
          rcases exists_group hT hplain hb with ⟨out, hout, hterm⟩
          rcases exists_group hT' hplain' hb' with ⟨out', hout', hterm'⟩
          rw [hout, hout']
          refine .success (Tree.render_of_unplaced hterm hterm' ?_)
          rw [Term.unplaced_branch, Term.unplaced_branch, Bench.finish_unplaced,
            Bench.finish_unplaced, hbench]
          rfl

/-! ## Reading -/

section Reading

variable {text text' : SourceText} {token token' : Token} {items items' : List SyntaxTerm}

theorem label_unplaced {K V : Type} (T : Term (Label K V)) : T.unplaced.label = T.label.unplaced :=
  Term.label_map _ T

/-! ### Signs -/

theorem isMinus_unplaced (T : SyntaxTerm) : isMinus T.unplaced = isMinus T := by
  cases T <;> rfl

theorem isNumeral_unplaced (T : SyntaxTerm) : isNumeral T.unplaced = isNumeral T := by
  cases T <;> rfl

theorem negated_unplaced (sign number : SyntaxTerm) :
    (negated sign number).unplaced = negated sign.unplaced number.unplaced := by
  rw [negated, negated, label_unplaced, label_unplaced]
  rfl

theorem takeSign_unplaced (items : List SyntaxTerm) :
    (takeSign items).map Term.unplaced = takeSign (items.map Term.unplaced) := by
  match items with
  | [] => rfl
  | [T] => rfl
  | first :: second :: rest =>
      rw [List.map_cons, List.map_cons, takeSign, takeSign, isMinus_unplaced, isNumeral_unplaced]
      split
      · rw [List.map_cons, negated_unplaced]
      · rw [List.map_cons, List.map_cons]

theorem signed_unplaced (T : SyntaxTerm) : (signed T).unplaced = signed T.unplaced := by
  induction T using Term.induction with
  | leaf label => rfl
  | branch label items ih =>
      have hitems : (items.map signed).map Term.unplaced = (items.map Term.unplaced).map signed := by
        rw [List.map_map, List.map_map]
        exact List.map_congr_left ih
      rw [Term.unplaced_branch, signed, signed, Term.unplaced_branch, takeSign_unplaced,
        signedAll_eq_map, signedAll_eq_map, hitems]

theorem finished_unplaced (items : List SyntaxTerm) :
    (finished items).map Term.unplaced = finished (items.map Term.unplaced) := by
  have hitems : (items.map signed).map Term.unplaced = (items.map Term.unplaced).map signed := by
    rw [List.map_map, List.map_map]
    exact List.map_congr_left fun T _ => signed_unplaced T
  rw [finished, finished, takeSign_unplaced, signedAll_eq_map, signedAll_eq_map, hitems]

/-! ### Nesting -/

/-- The same word, perhaps at another place. -/
def Token.SameWord (token token' : Token) : Prop :=
  token'.kind = token.kind ∧ token'.word = token.word

theorem Token.SameWord.label_unplaced (h : token.SameWord token') :
    (token.label text).unplaced = (token'.label text').unplaced := by
  rcases token with ⟨kind, start, word⟩
  rcases token' with ⟨kind', start', word'⟩
  obtain ⟨rfl, rfl⟩ := h
  cases kind' <;> rfl

/-- What is nested from the same words differs in spans only. -/
theorem nest_unplaced {levels levels' : List (Nat × List SyntaxTerm)} {tokens tokens' : List Token}
    (htokens : List.Forall₂ Token.SameWord tokens tokens')
    (hlevels : levels.map (fun level => level.2.map Term.unplaced) =
      levels'.map fun level => level.2.map Term.unplaced)
    (hitems : items.map Term.unplaced = items'.map Term.unplaced) :
    (nest text levels items tokens).map (List.map Term.unplaced) =
      (nest text' levels' items' tokens').map (List.map Term.unplaced) := by
  -- By induction on the tokens, for all brackets that may be open.
  induction htokens generalizing levels levels' items items' with
  | nil =>
      cases levels with
      | nil =>
          obtain rfl := List.map_eq_nil_iff.1 hlevels.symm
          exact congrArg some hitems
      | cons level levels =>
          cases levels' with
          | nil => cases hlevels
          | cons level' levels' => rfl
  | @cons token token' tokens tokens' htoken _ ih =>
      by_cases hopening : token.kind = .opening
      · rw [nest_opening hopening, nest_opening (htoken.1.trans hopening)]
        refine ih ?_ rfl
        rw [List.map_cons, List.map_cons, hlevels, hitems]
      · by_cases hclosing : token.kind = .closing
        · have hclosing' : token'.kind = .closing := htoken.1.trans hclosing
          cases levels with
          | nil =>
              obtain rfl := List.map_eq_nil_iff.1 hlevels.symm
              simp [nest, hclosing, hclosing']
          | cons level levels =>
              cases levels' with
              | nil => cases hlevels
              | cons level' levels' =>
                  rcases level with ⟨start, outer⟩
                  rcases level' with ⟨start', outer'⟩
                  rcases List.cons.inj hlevels with ⟨hlevel, hrest⟩
                  have houter : outer.map Term.unplaced = outer'.map Term.unplaced := hlevel
                  rw [nest_closing hclosing, nest_closing hclosing']
                  apply ih hrest
                  rw [List.map_append, List.map_append, houter]
                  simp [Term.unplaced_branch, hitems, bracketLabel, Label.unplaced]
        · have hopening' : token'.kind ≠ .opening := fun heq => hopening (htoken.1.symm.trans heq)
          have hclosing' : token'.kind ≠ .closing := fun heq => hclosing (htoken.1.symm.trans heq)
          rw [nest_leaf hopening hclosing, nest_leaf hopening' hclosing']
          apply ih hlevels
          rw [List.map_append, List.map_append, hitems]
          exact congrArg (_ ++ [Term.leaf ·]) htoken.label_unplaced

/-- Texts of the same words that are read have flat trees that are written alike and grouped alike. -/
theorem alike_of_read {reading reading' : Limits} {t t' : SyntaxTree}
    (h : read text reading = .ok t) (h' : read text' reading' = .ok t')
    (hwords : List.Forall₂ Token.SameWord (tokens text) (tokens text')) :
    t.render = t'.render ∧ ∀ limits, SameGrouping (group t limits) (group t' limits) := by
  rcases tidy_of_read h with ⟨T, items, hT, hnest, hmap, htidy⟩
  rcases tidy_of_read h' with ⟨T', items', hT', hnest', hmap', htidy'⟩
  have hitems : items.map Term.unplaced = items'.map Term.unplaced := by
    have hsame : (nest text [] [] (tokens text)).map (List.map Term.unplaced) =
        (nest text' [] [] (tokens text')).map (List.map Term.unplaced) := nest_unplaced hwords rfl rfl
    rw [hnest, hnest'] at hsame
    exact Option.some.inj hsame
  have hshown : (T.map Prod.snd).unplaced = (T'.map Prod.snd).unplaced := by
    rw [hmap, hmap', Term.unplaced_branch, Term.unplaced_branch, finished_unplaced,
      finished_unplaced, hitems]
    rfl
  have hanonymous : T.children.map anonymous = T'.children.map anonymous := by
    have hsame := congrArg Term.children (anonymous_inj_of hshown)
    rwa [anonymous, Term.children_map, Term.children_map] at hsame
  have hplain : Plain T := plain_of_faultless hmap fun X hX => (htidy X hX).faultless
  have hplain' : Plain T' := plain_of_faultless hmap' fun X hX => (htidy' X hX).faultless
  constructor
  · have hterm : t.term? Tree.root = some (T.map Prod.snd) := by
      rw [Tree.term?, hT]
      rfl
    have hterm' : t'.term? Tree.root = some (T'.map Prod.snd) := by
      rw [Tree.term?, hT']
      rfl
    exact Tree.render_of_unplaced hterm hterm' hshown
  · exact fun limits => sameGrouping limits hT hT' hplain hplain' htidy htidy' hanonymous

end Reading

end Calculator
end FeatureTree
