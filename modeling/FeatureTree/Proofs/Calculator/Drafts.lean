import FeatureTree.Calculator.Lexeme

/-!
# Drafts — reading arithmetic text without the machine

A `Draft` is what the machine holds between two characters, as far as the calculator uses it: the tree,
the open brackets, and at most one leaf on top of them, which is settled when the first character that
does not belong to it comes.  `Draft.next` takes one character and `Draft.finish` ends the text.

The machine follows the draft: see `read_eq_readOn`.
-/

namespace FeatureTree
namespace Calculator

open Reading

/-! ## Leaves -/

/-- What was read last, as long as its node is not final. -/
inductive Leaf where
  | closed (node : NodeId) (start : Nat)
  | written
  | numeral (n : Numeral)
  | letters (start : Nat) (word : String)
  deriving DecidableEq, Repr

namespace Leaf

/-- The feature that the leaf is. -/
def lexeme : Leaf → Lexeme
  | closed node start => .closed node start
  | written => .written
  | numeral n => .numeral n
  | letters start word => .letters start word

/-- The leaf with one more character. -/
def extend? (c : Char) : Leaf → Option Leaf
  | numeral n => (n.push? c).map numeral
  | letters start word =>
      if Lexeme.isLetter c then some (letters start (word.push c)) else none
  | _ => none

/-- The tree once the leaf has ended in front of the offset `stop`. -/
def settle (text : SourceText) (parent : NodeId) (stop : Nat) (t : SyntaxTree) :
    Leaf → Except Error SyntaxTree
  | closed node start => .ok (t.setPosition node (text.position start stop))
  | written => .ok t
  | numeral n =>
      match Binary64.parse? n.digits.toList with
      | none => .error (.rejected ("invalid number `" ++ n.digits ++ "`") (text.point n.start))
      | some x =>
          .ok (t.append parent ⟨.number, some (.number (if n.negative then x.neg else x)),
            some (text.position n.start stop), none⟩)
  | letters start word =>
      .ok (t.append parent ⟨.name, some (.name word), some (text.position start stop), none⟩)

theorem handle_of_extend? {leaf longer : Leaf} {c : Char} (h : leaf.extend? c = some longer)
    (cx : Context) (s : Lexeme.Desk) :
    Lexeme.handle leaf.lexeme cx c s = .ok (longer.lexeme, .proceed) s := by
  cases leaf with
  | closed node start => cases h
  | written => cases h
  | numeral n =>
      rcases Option.map_eq_some_iff.1 h with ⟨pushed, hpushed, rfl⟩
      simp [lexeme, Lexeme.handle, hpushed, pure, EStateM.pure]
  | letters start word =>
      by_cases hletter : Lexeme.isLetter c
      · simp only [extend?, hletter, if_true, Option.some.injEq] at h
        subst h
        simp [lexeme, Lexeme.handle, hletter, pure, EStateM.pure]
      · simp [extend?, hletter] at h

theorem handle_of_extend?_none {leaf : Leaf} {c : Char} (h : leaf.extend? c = none) (cx : Context)
    (s : Lexeme.Desk) : Lexeme.handle leaf.lexeme cx c s = .ok (leaf.lexeme, .decline) s := by
  cases leaf with
  | closed node start => rfl
  | written => rfl
  | numeral n =>
      have hpush : n.push? c = none := by simpa [extend?] using h
      simp [lexeme, Lexeme.handle, hpush, pure, EStateM.pure]
  | letters start word =>
      have hletter : Lexeme.isLetter c = false := by simpa [extend?] using h
      simp [lexeme, Lexeme.handle, hletter, pure, EStateM.pure]

theorem exit_of_settle {leaf : Leaf} {cx : Context} {s : Lexeme.Desk} {tree : SyntaxTree}
    (h : leaf.settle cx.text cx.ancestor cx.offset s.tree = .ok tree) :
    Lexeme.exit leaf.lexeme cx s = .ok () { s with tree := tree } := by
  cases leaf with
  | closed node start =>
      obtain rfl := Except.ok.inj h
      rfl
  | written =>
      obtain rfl := Except.ok.inj h
      rfl
  | letters start word =>
      obtain rfl := Except.ok.inj h
      rfl
  | numeral n =>
      simp only [lexeme, Lexeme.exit, Lexeme.finishNumber]
      simp only [settle] at h
      split at h
      · cases h
      · next x hx =>
          obtain rfl := Except.ok.inj h
          rw [hx]
          rfl

theorem exit_of_settle_error {leaf : Leaf} {cx : Context} {s : Lexeme.Desk} {e : Error}
    (h : leaf.settle cx.text cx.ancestor cx.offset s.tree = .error e) :
    Lexeme.exit leaf.lexeme cx s = .error e s := by
  cases leaf with
  | closed node start => cases h
  | written => cases h
  | letters start word => cases h
  | numeral n =>
      simp only [lexeme, Lexeme.exit, Lexeme.finishNumber]
      simp only [settle] at h
      split at h
      · next hx =>
          obtain rfl := Except.error.inj h
          rw [hx]
          rfl
      · cases h

theorem size_le_of_settle {leaf : Leaf} {text : SourceText} {parent : NodeId} {stop : Nat}
    {t t' : SyntaxTree} (h : leaf.settle text parent stop t = .ok t') : t.size ≤ t'.size := by
  cases leaf with
  | closed node start =>
      obtain rfl := Except.ok.inj h
      simp [Tree.setPosition]
  | written =>
      obtain rfl := Except.ok.inj h
      exact Nat.le_refl _
  | letters start word =>
      obtain rfl := Except.ok.inj h
      simp
  | numeral n =>
      simp only [settle] at h
      split at h
      · cases h
      · obtain rfl := Except.ok.inj h
        simp

end Leaf

/-! ## Drafts -/

/-- A bracket that is open since an offset. -/
structure Opening where
  node : NodeId
  start : Nat
  deriving DecidableEq, Repr

/-- A text that has been read up to an offset. -/
structure Draft where
  tree : SyntaxTree
  /-- The open brackets, the innermost first. -/
  opens : List Opening
  leaf : Option Leaf
  offset : Nat

namespace Draft

/-- The node that is built under while brackets are open. -/
def home : List Opening → NodeId
  | [] => Tree.root
  | o :: _ => o.node

/-- The draft whose leaf has ended. -/
def settled (text : SourceText) (d : Draft) : Except Error Draft :=
  match d.leaf with
  | none => .ok d
  | some leaf =>
      (leaf.settle text (home d.opens) d.offset d.tree).map fun tree =>
        { d with tree, leaf := none }

/-- The draft in which a candidate has become active at its first character. -/
def claim (text : SourceText) (c : Char) (d : Draft) : Lexeme → Draft
  | .bracket =>
      { d with
        tree := d.tree.append (home d.opens)
          ⟨.bracket, none, some (text.position d.offset d.offset), some #[]⟩
        opens := ⟨d.tree.size, d.offset⟩ :: d.opens }
  | .operator =>
      { d with
        tree := d.tree.append (home d.opens) ⟨.operator, (Operator.ofChar? c).map .operator,
          some (text.position d.offset (d.offset + 1)), none⟩
        leaf := some .written }
  | .number =>
      let digits := (Lexeme.firstDigits? c).getD ""
      match Lexeme.sign? d.tree (home d.opens) with
      | none => { d with leaf := some (.numeral ⟨d.offset, digits, c == '.', false⟩) }
      | some sign =>
          { d with
            tree := d.tree.popChild (home d.opens)
            leaf := some (.numeral ⟨((d.tree.position? sign).map fun p => p.start.offset).getD
              d.offset, digits, c == '.', true⟩) }
  | .name => { d with leaf := some (.letters d.offset c.toString) }
  | _ => d

/-- One character that no leaf takes. -/
def begin (text : SourceText) (maxDepth : Nat) (d : Draft) (c : Char) : Except Error Draft :=
  if c = ')' then
    match d.opens with
    | [] => .error (.rejected "unmatched closing bracket" (text.point d.offset))
    | o :: rest =>
        .ok { d with
          opens := rest, leaf := some (.closed o.node o.start), offset := d.offset + 1 }
  else
    match Lexeme.candidates c with
    | [] => .ok { d with offset := d.offset + 1 }
    | feature :: _ =>
        if maxDepth ≤ d.opens.length then .error (.violation (.depthExceeded maxDepth))
        else .ok { d.claim text c feature with offset := d.offset + 1 }

/-- One character. -/
def next (text : SourceText) (maxDepth : Nat) (d : Draft) (c : Char) : Except Error Draft :=
  match d.leaf.bind (·.extend? c) with
  | some leaf => .ok { d with leaf := some leaf, offset := d.offset + 1 }
  | none => (d.settled text).bind fun d => d.begin text maxDepth c

/-- The end of the text. -/
def finish (text : SourceText) (d : Draft) : Except Error SyntaxTree :=
  (d.settled text).bind fun d =>
    match d.opens with
    | [] => .ok d.tree
    | o :: _ => .error (.rejected "unclosed bracket" (text.point o.start))

/-- The characters that are left. -/
def readOn (text : SourceText) (maxDepth : Nat) (d : Draft) (rest : List Char) :
    Except Error SyntaxTree :=
  (rest.foldlM (next text maxDepth) d).bind (finish text)

/-- The draft before the first character. -/
def blank (text : SourceText) : Draft where
  tree := Tree.singleton
    ⟨.calculator, none, some (text.position 0 text.length), some #[]⟩
  opens := []
  leaf := none
  offset := 0

variable {text : SourceText} {maxDepth : Nat} {d d' : Draft} {c : Char}

theorem settled_of_leaf {leaf : Leaf} (h : d.leaf = some leaf) :
    d.settled text = (leaf.settle text (home d.opens) d.offset d.tree).map fun tree =>
      { d with tree, leaf := none } := by
  rw [settled, h]

theorem settled_eq_ok (h : d.settled text = .ok d') :
    d'.leaf = none ∧ d'.offset = d.offset ∧ d'.opens = d.opens := by
  unfold settled at h
  split at h
  · next hleaf =>
      obtain rfl := Except.ok.inj h
      exact ⟨hleaf, rfl, rfl⟩
  · next leaf _ =>
      cases hsettle : leaf.settle text (home d.opens) d.offset d.tree with
      | error e => simp [hsettle, Except.map] at h
      | ok tree =>
          rw [hsettle] at h
          obtain rfl := Except.ok.inj h
          exact ⟨rfl, rfl, rfl⟩

theorem begin_offset (h : d.begin text maxDepth c = .ok d') :
    d'.offset = d.offset + 1 := by
  unfold begin at h
  split at h
  · split at h
    · cases h
    · obtain rfl := Except.ok.inj h
      rfl
  · split at h
    · obtain rfl := Except.ok.inj h
      rfl
    · split at h
      · cases h
      · obtain rfl := Except.ok.inj h
        rfl

theorem next_offset (h : d.next text maxDepth c = .ok d') :
    d'.offset = d.offset + 1 := by
  unfold next at h
  split at h
  · obtain rfl := Except.ok.inj h
    rfl
  · cases hsettled : d.settled text with
    | error e => simp [hsettled, Except.bind] at h
    | ok settled =>
        rw [hsettled] at h
        rw [← (settled_eq_ok hsettled).2.1]
        exact begin_offset h

end Draft

end Calculator
end FeatureTree
