import FeatureTree.Proofs.Calculator.Parse
import FeatureTree.Proofs.Calculator.Scaffold
import FeatureTree.Proofs.Tree.Spine

/-!
# Drawing — the tree that reading builds is the parse of the text

While a text is read, the tree grows along the path of open brackets.  The children of each bracket on
it are finished terms and, behind them, the next open bracket.  `Scaffold.Shows` says which terms these
are: the child lists of the parse, as far as the tokens have come.

Each token keeps this picture, so at the end the root shows the parse of the whole text.
-/

namespace FeatureTree
namespace Calculator

open Reading

variable {text : SourceText} {maxDepth : Nat} {t : SyntaxTree} {A : NodeId → Prop} {node : NodeId}
variable {opens : List Opening} {levels : List (Nat × List SyntaxTerm)}
variable {shown items : List SyntaxTerm}

/-! ## Signs -/

theorem sign?_of_children {ids : List NodeId} (h : t.children node = ids)
    (hids : ∀ id, ids ≠ [id]) : Lexeme.sign? t node = none := by
  have honly : t.onlyChild? node = none := by
    cases hchild : t.onlyChild? node with
    | none => rfl
    | some child =>
        rw [Tree.onlyChild?_eq_some_iff, h] at hchild
        exact absurd hchild (hids child)
  rw [Lexeme.sign?, honly]

/-- The sign that a number would take is a minus which is the only term so far. -/
theorem sign?_of_holds {b : Bough SyntaxKind Literal} (h : t.Holds A b []) :
    (∃ sign minus, b.shown = [minus] ∧ isMinus minus = true ∧ Lexeme.sign? t b.node = some sign ∧
        t.position? sign = minus.label.position) ∨
      (∀ minus, b.shown = [minus] → isMinus minus = false) ∧ Lexeme.sign? t b.node = none := by
  rcases b with ⟨node, label, shown⟩
  rcases h with ⟨drawn, hshown, hget, hterms⟩
  obtain rfl : drawn.map (Term.map Prod.snd) = shown := hshown
  have hchildren := Tree.children_of_get? hget
  rw [List.append_nil] at hchildren
  match drawn, hchildren, hterms with
  | [], hchildren, _ =>
      exact .inr ⟨fun _ h => (nomatch h), sign?_of_children hchildren fun _ h => nomatch h⟩
  | S :: T :: drawn, hchildren, _ =>
      exact .inr ⟨fun _ h => (nomatch h), sign?_of_children hchildren fun _ h => nomatch h⟩
  | [T], hchildren, hterms =>
      -- There is one term, and whether it is a sign is read off its node.
      have hT := hterms T List.mem_cons_self
      have hlabel := Term.label_map Prod.snd T
      have honly := (Tree.onlyChild?_eq_some_iff t node T.id).2 hchildren
      rcases Option.map_eq_some_iff.1 hT.label_eq with ⟨n, hn, hnlabel⟩
      have hvalue : (t.get? T.id).bind Node.value = T.label.2.value := by
        rw [hn, ← hnlabel]
        rfl
      by_cases hminus : T.label.2.value = some (.operator .sub)
      · refine .inl ⟨T.id, T.map Prod.snd, rfl, ?_, ?_, hlabel ▸ hT.position?⟩
        · rw [isMinus, hlabel, hminus]
          rfl
        · simp only [Lexeme.sign?, honly]
          rw [hvalue, if_pos hminus]
      · refine .inr ⟨?_, ?_⟩
        · intro minus hshown
          rw [← (List.cons.inj hshown).1, isMinus, hlabel]
          simpa using hminus
        · simp only [Lexeme.sign?, honly]
          rw [hvalue, if_neg hminus]

/-! ## Scaffolds -/

namespace Scaffold

/-- The label of the innermost node under construction. -/
def homeLabel (text : SourceText) : List Opening → Label SyntaxKind Literal
  | [] => rootLabel text
  | o :: _ => bracketLabel text o.start o.start

/-- The nodes around the innermost one, with what stands in front of the open brackets. -/
def around (text : SourceText) :
    List Opening → List (Nat × List SyntaxTerm) → List (Bough SyntaxKind Literal)
  | _ :: opens, level :: levels =>
      ⟨Draft.home opens, homeLabel text opens, finished level.2⟩ :: around text opens levels
  | _, _ => []

/-- The path of open brackets, given from its inner end. -/
def boughs (text : SourceText) (opens : List Opening) (levels : List (Nat × List SyntaxTerm))
    (shown : List SyntaxTerm) : List (Bough SyntaxKind Literal) :=
  ⟨Draft.home opens, homeLabel text opens, shown⟩ :: around text opens levels

/-- The scaffold shows the child lists `levels` around the child list `shown`. -/
structure Shows (text : SourceText) (s : Scaffold) (levels : List (Nat × List SyntaxTerm))
    (shown : List SyntaxTerm) : Prop where
  grows : Tree.Grows (blank text).tree s.tree (boughs text s.opens levels shown)
  starts : s.opens.map Opening.start = levels.map Prod.fst
  fresh : ∀ o ∈ s.opens, (blank text).tree.size ≤ o.node

variable {s : Scaffold}

theorem Shows.sign? (h : s.Shows text levels shown) :
    (∃ sign minus, shown = [minus] ∧ isMinus minus = true ∧
        Lexeme.sign? s.tree s.home = some sign ∧
        s.tree.position? sign = minus.label.position) ∨
      (∀ minus, shown = [minus] → isMinus minus = false) ∧ Lexeme.sign? s.tree s.home = none :=
  sign?_of_holds h.grows.stands.1

/-- One more leaf. -/
theorem Shows.attach (h : s.Shows text levels shown) (label : Label SyntaxKind Literal) :
    (s.attach label).Shows text levels (shown ++ [.leaf label]) :=
  ⟨h.grows.attach label, h.starts, h.fresh⟩

/-- The last leaf is taken away. -/
theorem Shows.popChild (h : s.Shows text levels shown) :
    Shows text { s with tree := s.tree.popChild s.home } levels shown.dropLast :=
  ⟨h.grows.popChild, h.starts, h.fresh⟩

/-- A bracket opens behind the terms. -/
theorem Shows.open {token : Token} (hkind : token.kind = .opening)
    (h : s.Shows text levels (finished items)) :
    (s.add text token).Shows text ((token.start, items) :: levels) [] := by
  have hadd : s.add text token = ⟨s.tree.append s.home
      ((bracketLabel text token.start token.start).over []),
        ⟨s.tree.size, token.start⟩ :: s.opens⟩ := by
    simp only [add, hkind]
    rfl
  rw [hadd]
  refine ⟨h.grows.open _, congrArg (token.start :: ·) h.starts, ?_⟩
  intro o ho
  rcases List.mem_cons.1 ho with rfl | hold
  · exact h.grows.size_le
  · exact h.fresh o hold

/-- The innermost bracket closes, and is a term of the child list around it. -/
theorem Shows.close {o : Opening} {stop : Nat} {outer : List SyntaxTerm}
    (h : Shows text ⟨t, o :: opens⟩ ((o.start, outer) :: levels) shown) :
    Shows text ⟨t.setPosition o.node (text.position o.start stop), opens⟩ levels
      (finished outer ++ [.branch (bracketLabel text o.start stop) shown]) := by
  have hclosed := h.grows.relabel (bracketLabel text o.start stop)
    (f := fun n => { n with position := some (text.position o.start stop) }) fun _ => rfl
  refine ⟨hclosed.fold (h.fresh o List.mem_cons_self), (List.cons.inj h.starts).2, ?_⟩
  exact fun o' ho' => h.fresh o' (List.mem_cons_of_mem _ ho')

/-! ## Tokens -/

/-- The term starts where its position says. -/
def Anchored (text : SourceText) (T : SyntaxTerm) : Prop :=
  ∃ p, T.label.position = some p ∧ text.point p.start.offset = p.start

/-- The scaffold shows how far nesting has come. -/
structure Nests (text : SourceText) (s : Scaffold) (levels : List (Nat × List SyntaxTerm))
    (items : List SyntaxTerm) : Prop where
  shows : s.Shows text levels (finished items)
  anchored : ∀ T ∈ items, Anchored text T
  around : ∀ level ∈ levels, ∀ T ∈ level.2, Anchored text T

theorem anchored_leaf (token : Token) : Anchored text (.leaf (token.label text)) :=
  ⟨text.position token.start token.stop, token.position_label text, rfl⟩

theorem Nests.anchored_append {T : SyntaxTerm} (h : s.Nests text levels items)
    (hT : Anchored text T) : ∀ S ∈ items ++ [T], Anchored text S := by
  intro S hS
  rcases List.mem_append.1 hS with hold | hnew
  · exact h.anchored S hold
  · exact List.mem_singleton.1 hnew ▸ hT

/-- A number without a sign, a name or an operator. -/
theorem Nests.attach {token : Token} (h : s.Nests text levels items)
    (hplain : ∀ sign, finished items = [sign] →
      (isMinus sign && isNumeral (.leaf (token.label text))) = false) :
    (s.attach (token.label text)).Nests text levels (items ++ [.leaf (token.label text)]) := by
  refine ⟨?_, h.anchored_append (anchored_leaf token), h.around⟩
  rw [finished_append_of_not hplain]
  exact h.shows.attach _

theorem Nests.addNumber {token : Token} (h : s.Nests text levels items)
    (hkind : token.kind = .number) :
    (s.addNumber text token).Nests text levels (items ++ [.leaf (token.label text)]) := by
  have hlabel : token.label text = ⟨.number, (Binary64.parse? (spelling token.word)).map .number,
      some (text.position token.start token.stop)⟩ := by
    simp only [Token.label, hkind]
  rcases h.shows.sign? with ⟨sign, minus, hshown, hminus, hsign, hposition⟩ |
    ⟨hnone, hsign⟩
  · -- The minus goes, and the number starts where the minus started.
    rcases finished_eq_minus hshown hminus with ⟨first, rfl, rfl⟩
    rcases h.anchored first List.mem_cons_self with ⟨p, hp, hanchor⟩
    rw [label_signed, hp] at hposition
    have hnegated : negated (signed first) (.leaf (token.label text)) =
        .leaf ⟨.number, (Binary64.parse? (spelling token.word)).map fun x => .number x.neg,
          some (text.position p.start.offset token.stop)⟩ := by
      rw [hlabel, negated_leaf ((congrArg _ (label_signed first)).trans hp)]
      simp only [SourceText.position, hanchor]
    have hfinished : finished ([first] ++ [.leaf (token.label text)]) =
        [negated (signed first) (.leaf (token.label text))] := by
      rw [finished_append, hshown]
      have hnumeral : isNumeral (.leaf (token.label text)) = true := by rw [hlabel]; rfl
      simp only [signed, hminus, hnumeral, Bool.and_self, if_true]
    refine ⟨?_, h.anchored_append (anchored_leaf token), h.around⟩
    rw [hfinished, hnegated, addNumber_signed hsign hposition]
    have hpopped := h.shows.popChild
    rw [hshown] at hpopped
    exact hpopped.attach _
  · rw [addNumber_plain hsign, ← hlabel]
    exact h.attach fun sign hitems => by rw [hnone sign hitems]; rfl

theorem Nests.leaf {token : Token} (h : s.Nests text levels items)
    (hkind : (token.label text).kind ≠ .number) :
    (s.attach (token.label text)).Nests text levels (items ++ [.leaf (token.label text)]) := by
  refine h.attach fun sign _ => ?_
  have hnumeral : isNumeral (.leaf (token.label text)) = false := by
    simpa [isNumeral, Term.label] using hkind
  rw [hnumeral, Bool.and_false]

theorem Nests.add {token : Token} (h : s.Nests text levels items)
    (hopening : token.kind ≠ .opening) (hclosing : token.kind ≠ .closing) :
    (s.add text token).Nests text levels (items ++ [.leaf (token.label text)]) := by
  -- Numbers may take a sign; names and operators are leaves as they are.
  cases hkind : token.kind with
  | opening => exact absurd hkind hopening
  | closing => exact absurd hkind hclosing
  | number =>
      have hadd : s.add text token = s.addNumber text token := by simp only [Scaffold.add, hkind]
      rw [hadd]
      exact h.addNumber hkind
  | name =>
      have hadd : s.add text token = s.attach (token.label text) := by
        simp only [Scaffold.add, Token.label, hkind]
      rw [hadd]
      exact h.leaf (by simp [Token.label, hkind])
  | operator op =>
      have hadd : s.add text token = s.attach (token.label text) := by
        simp only [Scaffold.add, Token.label, hkind]
      rw [hadd]
      exact h.leaf (by simp [Token.label, hkind])

theorem Nests.open {token : Token} (h : s.Nests text levels items)
    (hkind : token.kind = .opening) :
    (s.add text token).Nests text ((token.start, items) :: levels) [] := by
  refine ⟨h.shows.open hkind, fun T hT => (nomatch hT), ?_⟩
  rintro level (_ | ⟨_, hlevel⟩)
  · exact h.anchored
  · exact h.around level hlevel

theorem Nests.close {o : Opening} {stop : Nat} {outer : List SyntaxTerm}
    (h : Nests text ⟨t, o :: opens⟩ ((o.start, outer) :: levels) items) :
    Nests text ⟨t.setPosition o.node (text.position o.start stop), opens⟩ levels
      (outer ++ [.branch (bracketLabel text o.start stop) items]) := by
  have hsigned : signed (.branch (bracketLabel text o.start stop) items) =
      .branch (bracketLabel text o.start stop) (finished items) := rfl
  refine ⟨?_, ?_, fun level hlevel => h.around level (List.mem_cons_of_mem _ hlevel)⟩
  · rw [finished_append_of_not fun sign _ => Bool.and_false _, hsigned]
    exact h.shows.close
  · intro T hT
    rcases List.mem_append.1 hT with hold | hnew
    · exact h.around _ List.mem_cons_self T hold
    · rw [List.mem_singleton.1 hnew]
      exact ⟨_, rfl, rfl⟩

/-- A token that is taken is nested. -/
theorem Nests.take {token : Token} {next : Scaffold} (h : s.Nests text levels items)
    (htake : s.take text maxDepth token = .ok next) :
    ∃ levels' items', next.Nests text levels' items' ∧
      ∀ rest, nest text levels items (token :: rest) = nest text levels' items' rest := by
  unfold Scaffold.take at htake
  by_cases hclosing : token.kind = .closing
  · rw [if_pos hclosing] at htake
    rcases s with ⟨t, _ | ⟨o, opens⟩⟩
    · cases htake
    · obtain rfl := Except.ok.inj htake
      have hstarts := h.shows.starts
      rcases levels with _ | ⟨⟨start, outer⟩, levels⟩
      · cases hstarts
      · obtain rfl : o.start = start := (List.cons.inj hstarts).1
        exact ⟨_, _, h.close, fun rest => nest_closing hclosing⟩
  · rw [if_neg hclosing] at htake
    split at htake
    · cases htake
    · obtain rfl := Except.ok.inj htake
      by_cases hopening : token.kind = .opening
      · exact ⟨_, _, h.open hopening, fun rest => nest_opening hopening⟩
      · exact ⟨_, _, h.add hopening hclosing, fun rest => nest_leaf hopening hclosing⟩

/-- Tokens that are taken are nested. -/
theorem Nests.foldlM {s' : Scaffold} {tokens : List Token} (h : s.Nests text levels items)
    (htake : tokens.foldlM (Scaffold.take text maxDepth) s = .ok s') (hclosed : s'.opens = []) :
    ∃ items', nest text levels items tokens = some items' ∧ s'.Nests text [] items' := by
  -- By induction on the tokens, with the picture as the invariant.
  induction tokens generalizing s levels items with
  | nil =>
      obtain rfl : s = s' := Except.ok.inj htake
      rcases s with ⟨t, opens⟩
      obtain rfl : opens = [] := hclosed
      obtain rfl : levels = [] := List.map_eq_nil_iff.1 h.shows.starts.symm
      exact ⟨items, rfl, h⟩
  | cons token tokens ih =>
      rw [List.foldlM_cons] at htake
      cases hstep : s.take text maxDepth token with
      | error e =>
          rw [hstep] at htake
          cases htake
      | ok next =>
          rw [hstep] at htake
          rcases h.take hstep with ⟨levels', items', hnests, hnest⟩
          rw [hnest]
          exact ih hnests htake

end Scaffold

/-- A text that is read nests its tokens, and the tree shows them with all signs taken. -/
theorem nest_of_read {text : SourceText} {limits : Limits} {t : SyntaxTree}
    (h : read text limits = .ok t) : ∃ items, nest text [] [] (tokens text) = some items ∧
      t.term? Tree.root = some (.branch (rootLabel text) (finished items)) := by
  rw [read_eq_foldlM] at h
  cases hfold : (tokens text).foldlM (Scaffold.take text limits.maxDepth)
      (Scaffold.blank text) with
  | error e => simp [hfold, Except.bind] at h
  | ok s =>
      rw [hfold] at h
      change s.finish text = .ok t at h
      rcases s with ⟨tree, _ | ⟨o, opens⟩⟩
      · obtain rfl : tree = t := Except.ok.inj h
        have hblank : (Scaffold.blank text).Nests text [] [] := by
          refine ⟨⟨.start rfl rfl, rfl, fun o ho => (nomatch ho)⟩,
            fun T hT => (nomatch hT), fun level hlevel => (nomatch hlevel)⟩
        rcases hblank.foldlM hfold rfl with ⟨items, hnest, hnests⟩
        exact ⟨items, hnest, hnests.shows.grows.term?⟩
      · cases h

/-- A text that is read has a parse, and the tree shows it. -/
theorem read_parse {text : SourceText} {limits : Limits} {t : SyntaxTree}
    (h : read text limits = .ok t) : ∃ T, parse? text = some T ∧ t.term? Tree.root = some T := by
  rcases nest_of_read h with ⟨items, hnest, hterm⟩
  refine ⟨signed (.branch (rootLabel text) items), ?_, hterm⟩
  rw [parse?, hnest]
  rfl

/-- A minus is a sign at the start of a text and of a bracket, and an operator elsewhere. -/
theorem parse_of_signs :
    ∃ t T, read (SourceText.ofString "-2*(-3.5-x)") {} = .ok t ∧
      parse? (SourceText.ofString "-2*(-3.5-x)") = some T ∧ t.term? Tree.root = some T := by
  have hok : (read (SourceText.ofString "-2*(-3.5-x)") {}).isOk = true := by
    rw [read_eq_foldlM]
    decide +kernel
  cases h : read (SourceText.ofString "-2*(-3.5-x)") {} with
  | error e =>
      rw [h] at hok
      cases hok
  | ok t =>
      rcases read_parse h with ⟨T, hparse, hterm⟩
      exact ⟨t, T, rfl, hparse, hterm⟩

end Calculator
end FeatureTree
