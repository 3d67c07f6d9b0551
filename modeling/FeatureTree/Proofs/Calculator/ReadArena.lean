import FeatureTree.Proofs.Calculator.Arranged
import FeatureTree.Proofs.Calculator.Drawing

/-!
# ReadArena — the arena of the tree that reading builds

`Draft.Steady` says what holds between two characters: the arena is arranged along the open brackets,
and what has been read of a number spells one.  No character breaks it, and a character that ends the
reading leaves an arranged arena behind.

`readTree_flatArena` is the result, for every text and every limit, whether reading succeeds or fails.
-/

namespace FeatureTree
namespace Calculator

open Reading

variable {text : SourceText} {maxDepth : Nat} {c : Char}

/-! ## Leaves -/

/-- The digits that have been read make a number. -/
def Numeral.Spells (n : Numeral) : Prop :=
  ∃ word, isNumber word = true ∧ n.hasPoint = word.contains '.' ∧ n.digits.toList = spelling word

theorem Numeral.push?_eq {n longer : Numeral} (h : n.push? c = some longer) :
    longer = { n with digits := n.digits.push c, hasPoint := n.hasPoint || c == '.' } := by
  unfold Numeral.push? at h
  by_cases hc : c = '.'
  · cases hn : n.hasPoint with
    | true => simp [hc, hn] at h
    | false => simpa [hc, hn, eq_comm] using h
  · have hpoint : (c == '.') = false := beq_eq_false_iff_ne.2 hc
    by_cases hdigit : c.isDigit
    · simp only [hc, hdigit, if_true, if_false, Option.some.injEq] at h
      rw [hpoint, Bool.or_false, ← h]
    · simp [hc, hdigit] at h

theorem contains_singleton (c : Char) : [c].contains '.' = (c == '.') := by
  rw [List.contains_cons, List.contains_nil, Bool.or_false, Bool.beq_comm]

theorem Numeral.Spells.push? {n longer : Numeral} (h : n.Spells) (hpush : n.push? c = some longer) :
    longer.Spells := by
  rcases h with ⟨word, hnumber, hpoint, hdigits⟩
  have hne : word ≠ [] := (isNumber_parts hnumber).1
  have hlonger := Scaffold.isNumber_of_push? hnumber hpoint hpush
  obtain rfl := Numeral.push?_eq hpush
  refine ⟨word ++ [c], hlonger, ?_, ?_⟩
  · rw [List.contains_append, contains_singleton, ← hpoint]
  · rw [spelling_append hne, ← hdigits]
    simp

theorem Numeral.spells_first (h : Lexeme.isNumeric c = true) (start : Nat) (negative : Bool) :
    Numeral.Spells ⟨start, (Lexeme.firstDigits? c).getD "", c == '.', negative⟩ := by
  refine ⟨[c], isNumber_singleton h, (contains_singleton c).symm, ?_⟩
  rw [← Scaffold.firstDigits?_append [] h]
  simp

namespace Leaf

/-- Where the minus stands that a number under construction has taken. -/
def pending : Leaf → Option Nat
  | numeral n => if n.negative then some n.start else none
  | _ => none

theorem pending_numeral (n : Numeral) :
    pending (.numeral n) = if n.negative then some n.start else none := rfl

/-- A closed bracket is an inner node, and a number spells one, with a sign if it starts at a minus. -/
def Sound (text : SourceText) (t : SyntaxTree) : Leaf → Prop
  | closed node _ => ∀ n, t.get? node = some n → IsInner n
  | numeral n => n.Spells ∧ n.negative = (text.char? n.start == some '-')
  | _ => True

theorem Sound.extend? {t : SyntaxTree} {leaf longer : Leaf} (h : leaf.Sound text t)
    (hextend : leaf.extend? c = some longer) :
    longer.Sound text t ∧ longer.pending = leaf.pending := by
  cases leaf with
  | closed node start => cases hextend
  | written => cases hextend
  | numeral n =>
      rcases Option.map_eq_some_iff.1 hextend with ⟨pushed, hpush, rfl⟩
      have hspells := h.1.push? hpush
      obtain rfl := Numeral.push?_eq hpush
      exact ⟨⟨hspells, h.2⟩, rfl⟩
  | letters start word =>
      by_cases hletter : Lexeme.isLetter c
      · simp only [Leaf.extend?, hletter, if_true, Option.some.injEq] at hextend
        subst hextend
        exact ⟨trivial, rfl⟩
      · simp [Leaf.extend?, hletter] at hextend

/-- A number takes its place, with its sign. -/
theorem Sound.settle_numeral {t : SyntaxTree} {n : Numeral} {parent : NodeId} {rest : List NodeId}
    (h : Sound text t (.numeral n))
    (harranged : Arranged text t (parent :: rest) (pending (.numeral n))) (stop : Nat) :
    ∃ t', settle text parent stop t (.numeral n) = .ok t' ∧
      Arranged text t' (parent :: rest) none := by
  rcases h with ⟨⟨word, hnumber, -, hdigits⟩, hnegative⟩
  rcases parse?_spelling hnumber with ⟨x, hx, hpositive⟩
  rw [← hdigits] at hx
  simp only [settle, hx]
  refine ⟨_, rfl, ?_⟩
  have hsigned : isSigned text ⟨.number, some (.number (if n.negative then x.neg else x)),
      some (text.position n.start stop), none⟩ = n.negative := hnegative.symm
  refine harranged.append rfl ⟨fun op hop => (by cases hop), fun _ => ⟨_, rfl, ?_⟩⟩
    (List.sublist_cons_self _ _) ?_ ?_ ?_
  · rw [hsigned]
    cases n.negative with
    | true => simp [Binary64.neg, hpositive]
    | false => exact hpositive
  · exact fun hmem => absurd (harranged.numbered.known _ hmem) (Nat.lt_irrefl _)
  · rw [hsigned, pending_numeral]
    cases n.negative <;> rfl
  · intro o ho
    rw [pending_numeral] at ho
    split at ho
    · obtain rfl := Option.some.inj ho
      exact .inr ⟨rfl, _, rfl, rfl⟩
    · cases ho

/-- A leaf ends, and nothing is under construction any more. -/
theorem Sound.settle {t : SyntaxTree} {leaf : Leaf} {parent : NodeId} {rest : List NodeId}
    (h : leaf.Sound text t) (harranged : Arranged text t (parent :: rest) leaf.pending)
    (stop : Nat) :
    ∃ t', leaf.settle text parent stop t = .ok t' ∧ Arranged text t' (parent :: rest) none := by
  cases leaf with
  | closed node start => exact ⟨_, rfl, harranged.setPosition h⟩
  | written => exact ⟨_, rfl, harranged⟩
  | numeral n => exact h.settle_numeral harranged stop
  | letters start word =>
      refine ⟨_, rfl, harranged.append rfl ⟨fun op hop => (by cases hop), fun hkind => (by cases hkind)⟩
        (List.sublist_cons_self _ _) ?_ rfl (fun o ho => (by cases ho))⟩
      exact fun hmem => absurd (harranged.numbered.known _ hmem) (Nat.lt_irrefl _)

end Leaf

/-! ## Drafts -/

namespace Draft

/-- The nodes that may still get children, the innermost first. -/
def path (opens : List Opening) : List NodeId := opens.map Opening.node ++ [Tree.root]

theorem path_eq (opens : List Opening) : ∃ rest, path opens = home opens :: rest := by
  cases opens with
  | nil => exact ⟨[], rfl⟩
  | cons o opens => exact ⟨path opens, rfl⟩

theorem root_mem_path (opens : List Opening) : Tree.root ∈ path opens :=
  List.mem_append_right _ (List.mem_singleton.2 rfl)

/-- What holds between two characters. -/
structure Steady (text : SourceText) (maxDepth : Nat) (d : Draft) : Prop where
  arranged : Arranged text d.tree (path d.opens) (d.leaf.bind Leaf.pending)
  sound : ∀ leaf, d.leaf = some leaf → leaf.Sound text d.tree
  fits : d.opens.length + d.leaf.toList.length ≤ maxDepth
  /-- Where no frame fits any more, nothing has been attached. -/
  full : maxDepth ≤ d.opens.length → d.tree.children (home d.opens) = []

variable {d d' : Draft}

theorem steady_blank (text : SourceText) (maxDepth : Nat) : Steady text maxDepth (blank text) where
  arranged := Arranged.blank
  sound _ hleaf := nomatch hleaf
  fits := Nat.zero_le maxDepth
  full _ := rfl

theorem Steady.extend {leaf longer : Leaf} (h : Steady text maxDepth d) (hleaf : d.leaf = some leaf)
    (hextend : leaf.extend? c = some longer) :
    Steady text maxDepth { d with leaf := some longer, offset := d.offset + 1 } := by
  rcases (h.sound leaf hleaf).extend? hextend with ⟨hsound, hpending⟩
  have harranged := h.arranged
  have hfits := h.fits
  rw [hleaf] at harranged hfits
  refine ⟨?_, ?_, hfits, h.full⟩
  · change Arranged text d.tree (path d.opens) longer.pending
    rw [hpending]
    exact harranged
  · intro other hother
    obtain rfl := Option.some.inj hother
    exact hsound

/-- The leaf always settles. -/
theorem Steady.settled (h : Steady text maxDepth d) :
    ∃ d', d.settled text = .ok d' ∧ Steady text maxDepth d' := by
  unfold Draft.settled
  cases hleaf : d.leaf with
  | none => exact ⟨d, rfl, h⟩
  | some leaf =>
      have harranged := h.arranged
      have hfits := h.fits
      rcases path_eq d.opens with ⟨rest, hpath⟩
      rw [hleaf] at harranged hfits
      rw [hpath] at harranged
      rcases (h.sound leaf hleaf).settle harranged d.offset with ⟨t', hsettle, harranged'⟩
      rw [← hpath] at harranged'
      simp only [hsettle, Except.map]
      refine ⟨_, rfl, harranged', fun _ hnone => (by cases hnone), ?_, ?_⟩
      · exact Nat.le_of_succ_le hfits
      · exact fun hfull => absurd hfits (Nat.not_le.2 (Nat.lt_succ_of_le hfull))

/-! ### A character that no leaf takes -/

/-- What a candidate claims, from a draft without a leaf. -/
structure Claimed (text : SourceText) (d d' : Draft) : Prop where
  arranged : Arranged text d'.tree (path d'.opens) (d'.leaf.bind Leaf.pending)
  sound : ∀ leaf, d'.leaf = some leaf → leaf.Sound text d'.tree
  grows : d'.opens.length + d'.leaf.toList.length = d.opens.length + 1
  fresh : d'.leaf = none → d'.tree.children (home d'.opens) = []
  /-- Where nothing has been attached, there is no minus to be taken. -/
  unsigned : d.tree.children (home d.opens) = [] → d'.leaf.bind Leaf.pending = none

theorem claimed_bracket (h : Arranged text d.tree (path d.opens) none) (hleaf : d.leaf = none) :
    Claimed text d (d.claim text c .bracket) := by
  rcases path_eq d.opens with ⟨rest, hpath⟩
  have hknown : home d.opens < d.tree.size :=
    h.numbered.known _ (hpath ▸ List.mem_cons_self)
  have hinner : IsInner (⟨.bracket, none, some (text.position d.offset d.offset), some #[]⟩ :
      Node SyntaxKind Literal) := ⟨fun hkind => (by cases hkind), rfl⟩
  have hnone : d.tree.get? d.tree.size = none := Array.getElem?_eq_none (Nat.le_refl _)
  have hopens : path (d.claim text c .bracket).opens = d.tree.size :: path d.opens := rfl
  refine ⟨?_, ?_, ?_, fun _ => ?_, fun _ => ?_⟩
  · rw [hopens, hpath]
    simp only [claim, hleaf, Option.bind_none]
    exact (hpath ▸ h).append rfl (hinner.faithful text) (List.Sublist.refl _) (fun _ => hinner) rfl
      (fun o ho => (by cases ho))
  · intro leaf hsome
    simp only [claim, hleaf] at hsome
    cases hsome
  · simp [claim, hleaf]
  · change (d.tree.append (home d.opens) _).children d.tree.size = []
    rw [Tree.children_append hknown (by rfl), if_neg (Nat.ne_of_lt hknown), Tree.children_eq_nil hnone]
  · simp only [claim, hleaf, Option.bind_none]

theorem claimed_operator {op : Operator} (h : Arranged text d.tree (path d.opens) none)
    (hc : text.char? d.offset = some c) (hop : Operator.ofChar? c = some op) :
    Claimed text d (d.claim text c .operator) := by
  rcases path_eq d.opens with ⟨rest, hpath⟩
  have hfaithful : Faithful text (operatorNode text op d.offset) := by
    refine ⟨fun op' hop' => ?_, fun hkind => (by cases hkind)⟩
    obtain rfl : op = op' := Literal.operator.inj (Option.some.inj hop')
    exact ⟨d.offset, rfl, symbol_of_ofChar? hop ▸ hc⟩
  refine ⟨?_, ?_, rfl, fun hnone => (by cases hnone), fun _ => rfl⟩
  · simp only [claim, hop, Option.map_some]
    change Arranged text (d.tree.append (home d.opens) (operatorNode text op d.offset))
      (path d.opens) none
    have hsize : d.tree.size ∉ path d.opens := fun hmem =>
      Nat.lt_irrefl _ (h.numbered.known _ hmem)
    rw [hpath] at h hsize ⊢
    exact h.append rfl hfaithful (List.sublist_cons_self _ _) (fun hmem => absurd hmem hsize) rfl
      (fun o ho => (by cases ho))
  · intro leaf hsome
    obtain rfl := Option.some.inj hsome
    exact trivial

theorem claimed_number (h : Arranged text d.tree (path d.opens) none)
    (hc : text.char? d.offset = some c) (hnumeric : Lexeme.isNumeric c = true) :
    Claimed text d (d.claim text c .number) := by
  cases hsign : Lexeme.sign? d.tree (home d.opens) with
  | none =>
      have hminus : (text.char? d.offset == some '-') = false := by
        rw [hc, beq_eq_false_iff_ne]
        rintro heq
        obtain rfl := Option.some.inj heq
        cases hnumeric
      simp only [claim, hsign]
      refine ⟨h, ?_, rfl, fun hnone => (by cases hnone), fun _ => rfl⟩
      intro leaf hsome
      obtain rfl := Option.some.inj hsome
      exact ⟨Numeral.spells_first hnumeric _ _, hminus.symm⟩
  | some minus =>
      rcases path_eq d.opens with ⟨rest, hpath⟩
      rw [hpath] at h
      rcases h.takeSign hsign with ⟨o, hposition, hwritten, harranged⟩
      have hstart : ((d.tree.position? minus).map fun p => p.start.offset).getD d.offset = o := by
        rw [hposition]
        rfl
      simp only [claim, hsign, hstart]
      refine ⟨?_, ?_, rfl, fun hnone => (by cases hnone), fun hnil => ?_⟩
      · rw [hpath]
        exact harranged
      · intro leaf hsome
        obtain rfl := Option.some.inj hsome
        exact ⟨Numeral.spells_first hnumeric _ _, by simp [hwritten]⟩
      · rw [sign?_of_children hnil (fun id => (List.cons_ne_nil id []).symm)] at hsign
        cases hsign

theorem claimed_name (h : Arranged text d.tree (path d.opens) none) :
    Claimed text d (d.claim text c .name) := by
  refine ⟨h, ?_, rfl, fun hnone => (by cases hnone), fun _ => rfl⟩
  intro leaf hsome
  obtain rfl := Option.some.inj hsome
  exact trivial

theorem claimed_of_candidates {feature : Lexeme} {rest : List Lexeme}
    (h : Arranged text d.tree (path d.opens) none) (hleaf : d.leaf = none)
    (hc : text.char? d.offset = some c) (hne : c ≠ ')')
    (hcandidates : Lexeme.candidates c = feature :: rest) :
    Claimed text d (d.claim text c feature) := by
  unfold Lexeme.candidates at hcandidates
  rw [if_neg hne] at hcandidates
  split at hcandidates
  · rcases List.cons.inj hcandidates with ⟨rfl, -⟩
    exact claimed_bracket h hleaf
  · split at hcandidates
    · next hoperator =>
        rcases List.cons.inj hcandidates with ⟨rfl, -⟩
        rcases Option.isSome_iff_exists.1 hoperator with ⟨op, hop⟩
        exact claimed_operator h hc hop
    · split at hcandidates
      · next hnumeric =>
          rcases List.cons.inj hcandidates with ⟨rfl, -⟩
          exact claimed_number h hc hnumeric
      · split at hcandidates
        · rcases List.cons.inj hcandidates with ⟨rfl, -⟩
          exact claimed_name h
        · cases hcandidates

theorem Steady.arranged_of_leaf (h : Steady text maxDepth d) (hleaf : d.leaf = none) :
    Arranged text d.tree (path d.opens) none := by
  have harranged := h.arranged
  rwa [hleaf] at harranged

/-- A candidate that has room. -/
theorem Claimed.steady (hclaimed : Claimed text d d')
    (hroom : d.opens.length < maxDepth) (offset : Nat) :
    Steady text maxDepth { d' with offset := offset } := by
  refine ⟨hclaimed.arranged, hclaimed.sound, ?_, fun hfull => hclaimed.fresh ?_⟩
  · rw [hclaimed.grows]
    exact hroom
  · have hgrows := hclaimed.grows
    change maxDepth ≤ d'.opens.length at hfull
    cases hleaf : d'.leaf with
    | none => rfl
    | some leaf =>
        rw [hleaf] at hgrows
        exact absurd hroom (by simp at hgrows; omega)

/-- The character closes the innermost bracket. -/
theorem Steady.close {o : Opening} {rest : List Opening} (h : Steady text maxDepth d)
    (hleaf : d.leaf = none) (hopens : d.opens = o :: rest) (offset : Nat) :
    Steady text maxDepth
      { d with opens := rest, leaf := some (.closed o.node o.start), offset := offset } := by
  have harranged := h.arranged_of_leaf hleaf
  have hfits := h.fits
  rw [hopens] at harranged hfits
  have hpath : path (o :: rest) = o.node :: path rest := rfl
  rw [hpath] at harranged
  refine ⟨?_, ?_, ?_, fun hfull => ?_⟩
  · exact { harranged with
      numbered := harranged.numbered.weaken (List.sublist_cons_self _ _)
      inner := fun p hp => harranged.inner p (List.mem_cons_of_mem _ hp) }
  · intro leaf hsome
    obtain rfl := Option.some.inj hsome
    exact harranged.inner o.node List.mem_cons_self
  · exact Nat.le_trans (Nat.le_add_right _ _) hfits
  · exact absurd (Nat.lt_of_lt_of_le (Nat.lt_succ_self rest.length)
      (Nat.le_trans (Nat.le_add_right _ _) hfits)) (Nat.not_lt.2 hfull)

theorem Steady.begin (h : Steady text maxDepth d) (hleaf : d.leaf = none)
    (hc : text.char? d.offset = some c) (hbegin : d.begin text maxDepth c = .ok d') :
    Steady text maxDepth d' := by
  unfold Draft.begin at hbegin
  split at hbegin
  · split at hbegin
    · cases hbegin
    · next o rest hopens =>
        obtain rfl := Except.ok.inj hbegin
        exact h.close hleaf hopens _
  · next hne =>
      split at hbegin
      · obtain rfl := Except.ok.inj hbegin
        exact ⟨h.arranged, h.sound, h.fits, h.full⟩
      · next feature rest hcandidates =>
          split at hbegin
          · cases hbegin
          · next hroom =>
              obtain rfl := Except.ok.inj hbegin
              have hclaimed := claimed_of_candidates (h.arranged_of_leaf hleaf) hleaf hc hne hcandidates
              exact hclaimed.steady (Nat.not_le.1 hroom) _

theorem Steady.next (h : Steady text maxDepth d) (hc : text.char? d.offset = some c)
    (hnext : d.next text maxDepth c = .ok d') : Steady text maxDepth d' := by
  unfold Draft.next at hnext
  split at hnext
  · next longer hextend =>
      rcases Option.bind_eq_some_iff.1 hextend with ⟨leaf, hleaf, hlonger⟩
      obtain rfl := Except.ok.inj hnext
      exact h.extend hleaf hlonger
  · rcases h.settled with ⟨settled, hsettled, hsteady⟩
    rw [hsettled] at hnext
    have hkept := settled_eq_ok hsettled
    exact hsteady.begin hkept.1 (hkept.2.1 ▸ hc) hnext

/-! ### What a run leaves behind -/

/-- The tree that a run ends with, whether it succeeds or fails. -/
def lastTree : EStateM.Result Reading.Error TextMachine Unit → SyntaxTree
  | .ok _ m => m.tree
  | .error _ m => m.tree

variable {m : TextMachine}

/-- A character that ends the reading leaves an arranged arena behind. -/
theorem Rests.failed_begin {e : Reading.Error} (hrests : Rests maxDepth m d) (h : Steady text maxDepth d)
    (hleaf : d.leaf = none) (hc : text.char? d.offset = some c)
    (hbegin : d.begin text maxDepth c = .error e) :
    FlatArena text (lastTree (m.run Lexeme.grammar text .expression)) := by
  have harranged := h.arranged_of_leaf hleaf
  unfold Draft.begin at hbegin
  split at hbegin
  · next hclosing =>
      subst hclosing
      split at hbegin
      · next hopens =>
          rcases hrests.run_stray hleaf hopens hc with ⟨m', hrun, htree⟩
          rw [hrun, lastTree, htree]
          exact harranged.flatArena (root_mem_path _)
      · cases hbegin
  · next hne =>
      split at hbegin
      · cases hbegin
      · next feature rest hcandidates =>
          split at hbegin
          · next hfull =>
              rcases hrests.run_overflow hleaf hc hne hcandidates hfull with ⟨m', hrun, htree⟩
              have hclaimed := claimed_of_candidates harranged hleaf hc hne hcandidates
              -- No frame fits here, so there was nothing that a number could take.
              have hleft := hclaimed.arranged
              rw [hclaimed.unsigned (h.full hfull)] at hleft
              rw [hrun, lastTree, htree]
              exact hleft.flatArena (root_mem_path _)
          · cases hbegin

theorem Rests.failed_next {e : Reading.Error} (hrests : Rests maxDepth m d) (h : Steady text maxDepth d)
    (hc : text.char? d.offset = some c) (hnext : d.next text maxDepth c = .error e) :
    FlatArena text (lastTree (m.run Lexeme.grammar text .expression)) := by
  unfold Draft.next at hnext
  split at hnext
  · cases hnext
  · next hextend =>
      rcases h.settled with ⟨settled, hsettled, hsteady⟩
      rw [hsettled] at hnext
      have hkept := settled_eq_ok hsettled
      cases hleaf : d.leaf with
      | none =>
          have hsame : d.settled text = .ok d := by rw [Draft.settled, hleaf]
          obtain rfl := Except.ok.inj (hsame.symm.trans hsettled)
          exact hrests.failed_begin h hleaf hc hnext
      | some leaf =>
          rw [hleaf, Option.bind_some] at hextend
          have hfollows := hrests.run_settle hleaf hc hextend
          rw [hsettled] at hfollows
          rcases hfollows with ⟨m', hrun, hrests'⟩
          rw [hrun]
          exact hrests'.failed_begin hsteady hkept.1 (hkept.2.1 ▸ hc) hnext

theorem Rests.finished (hrests : Rests maxDepth m d) (h : Steady text maxDepth d)
    (hend : text.char? d.offset = none) :
    FlatArena text (lastTree (m.run Lexeme.grammar text .expression)) := by
  rcases h.settled with ⟨d', hsettled, hsteady⟩
  rcases hrests.releaseAll_settled hsettled with ⟨m', hrests', hrelease⟩
  have hleaf := (settled_eq_ok hsettled).1
  have harena := (hsteady.arranged_of_leaf hleaf).flatArena (root_mem_path d'.opens)
  rw [Machine.run_of_end (hrests.offset ▸ hend), hrelease]
  cases hopens : d'.opens with
  | nil =>
      rw [hrests'.releaseAll_bare hleaf hopens, lastTree, hrests'.tree]
      exact harena
  | cons o rest =>
      rcases hrests'.releaseAll_unclosed hleaf hopens with ⟨m'', hunclosed, htree⟩
      rw [hunclosed, lastTree, htree]
      exact harena

theorem Rests.flatArena {rest : List Char} (hrests : Rests maxDepth m d)
    (h : Steady text maxDepth d) (hrest : text.chars.toList.drop d.offset = rest) :
    FlatArena text (lastTree (m.run Lexeme.grammar text .expression)) := by
  -- By induction on the characters that are left, which start at the offset of the draft.
  induction rest generalizing m d with
  | nil => exact hrests.finished h (char?_eq_head? hrest)
  | cons c rest ih =>
      have hc := char?_eq_head? hrest
      cases hnext : d.next text maxDepth c with
      | error e => exact hrests.failed_next h hc hnext
      | ok d' =>
          have hfollows := hrests.run_next hc
          rw [hnext] at hfollows
          rcases hfollows with ⟨m', hrun, hrests'⟩
          rw [hrun]
          refine ih hrests' (h.next hc hnext) ?_
          rw [next_offset hnext, ← List.tail_drop, hrest]
          rfl

end Draft

/-! ## The reader's tree -/

/-- The tree that the reader holds after it has read a text, whether it succeeded or failed. -/
def readTree (text : SourceText) (limits : Limits) : SyntaxTree :=
  let reader := (TextReader.new text limits).updateRoot fun n =>
    { n with position := some (text.position 0 text.length) }
  reader.read.2.tree

theorem readTree_of_read {limits : Limits} {t : SyntaxTree} (h : read text limits = .ok t) :
    readTree text limits = t := by
  unfold read at h
  dsimp only at h
  split at h
  · next reader hread =>
      obtain rfl := Except.ok.inj h
      rw [readTree, hread]
  · cases h

theorem readTree_flatArena (text : SourceText) (limits : Limits) :
    FlatArena text (readTree text limits) := by
  have hrests : Draft.Rests limits.maxDepth
      ((TextReader.new text limits).updateRoot fun n =>
        { n with position := some (text.position 0 text.length) }).machine (Draft.blank text) :=
    ⟨rfl, rfl, rfl, rfl, rfl, fun _ ho => by cases ho⟩
  have harena := hrests.flatArena (Draft.steady_blank text limits.maxDepth)
    (show text.chars.toList.drop 0 = text.chars.toList from rfl)
  unfold readTree Reader.read
  simp only [TextReader.new, Reader.new, Reader.updateRoot] at harena ⊢
  generalize Machine.run _ _ _ _ = r at harena
  cases r with
  | ok _ m => exact harena
  | error e m => exact harena

end Calculator
end FeatureTree
