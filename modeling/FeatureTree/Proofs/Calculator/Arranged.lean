import FeatureTree.Proofs.Calculator.Tokens
import FeatureTree.Proofs.Tree.Numbering

/-!
# Arranged — the arena of a flat tree under construction

Reading attaches each node when its token is read, with one exception: a number that takes a minus for
its sign takes the minus out of the child list of their parent, and the number is attached only when
its last digit has been read.  The minus stays in the arena without a parent.

`Arranged text t path pending` says what this makes of the arena.  New nodes go below the first node of
`path`; `pending` is where the minus stands that a number under construction has taken.  Each step of
the reader has one lemma.
-/

namespace FeatureTree
namespace Calculator

variable {text : SourceText} {t t' : SyntaxTree} {id parent : NodeId} {o : Nat}
variable {path path' rest : List NodeId} {pending pending' : Option Nat}
variable {n node : Node SyntaxKind Literal}

/-! ## Nodes and the text -/

/-- The node of an operator that stands at an offset. -/
def operatorNode (text : SourceText) (op : Operator) (offset : Nat) : Node SyntaxKind Literal :=
  ⟨.operator, some (.operator op), some (text.position offset (offset + 1)), none⟩

/-- The span of the node starts at the given point. -/
def startsAt (n : Node SyntaxKind Literal) (point : Point) : Prop :=
  ∃ p, n.position = some p ∧ p.start = point

/-- The node is a number whose span starts at a minus, which is the sign of the number. -/
def isSigned (text : SourceText) (n : Node SyntaxKind Literal) : Bool :=
  n.kind == .number && n.position.any fun p => text.char? p.start.offset == some '-'

/-- The node of this id is a number with a sign. -/
def signedAt (text : SourceText) (t : SyntaxTree) (id : NodeId) : Bool :=
  (t.get? id).any (isSigned text)

/-- The node is the root or a bracket, and may have children. -/
structure IsInner (n : Node SyntaxKind Literal) : Prop where
  kind : n.kind ≠ .number
  value : n.value = none

/-- The node says what the text says: an operator stands where its span lies, and a number is negative
if its span starts at a minus. -/
structure Faithful (text : SourceText) (n : Node SyntaxKind Literal) : Prop where
  operator : ∀ op, n.value = some (.operator op) →
    ∃ o, n = operatorNode text op o ∧ text.char? o = some op.symbol
  number : n.kind = .number →
    ∃ x, n.value = some (.number x) ∧ x.negative = isSigned text n

theorem IsInner.faithful (h : IsInner n) (text : SourceText) : Faithful text n where
  operator op hop := by
    rw [h.value] at hop
    cases hop
  number hkind := absurd hkind h.kind

theorem IsInner.isSigned (h : IsInner n) (text : SourceText) : isSigned text n = false := by
  simp [Calculator.isSigned, h.kind]

theorem isInner_adopt {child : NodeId} : IsInner (n.adopt child) ↔ IsInner n := by
  obtain ⟨kind, value, position, _ | ids⟩ := n
  · exact ⟨fun h => ⟨h.kind, h.value⟩, fun h => ⟨h.kind, h.value⟩⟩
  · exact ⟨fun h => ⟨h.kind, h.value⟩, fun h => ⟨h.kind, h.value⟩⟩

theorem isInner_dropLast : IsInner n.dropLast ↔ IsInner n := by
  obtain ⟨kind, value, position, _ | ids⟩ := n
  · exact ⟨fun h => ⟨h.kind, h.value⟩, fun h => ⟨h.kind, h.value⟩⟩
  · exact ⟨fun h => ⟨h.kind, h.value⟩, fun h => ⟨h.kind, h.value⟩⟩

/-! ## What all steps keep -/

/-- Nodes stay as they are; the root and the brackets may change their children and their span. -/
def Keeps (t t' : SyntaxTree) : Prop :=
  ∀ id n, t.get? id = some n → t'.get? id = some n ∨ IsInner n ∧ ∃ n', t'.get? id = some n' ∧ IsInner n'

theorem Keeps.get? (h : Keeps t t') (hget : t.get? id = some n) (hinner : ¬ IsInner n) :
    t'.get? id = some n :=
  (h id n hget).resolve_right fun hn => hinner hn.1

theorem Keeps.isInner (h : Keeps t t') (hget : t.get? id = some n) (hinner : IsInner n) :
    ∀ n', t'.get? id = some n' → IsInner n' := by
  intro n' hget'
  rcases h id n hget with hsame | ⟨-, n₁, hnew, hinner'⟩
  · obtain rfl := Option.some.inj (hsame.symm.trans hget')
    exact hinner
  · obtain rfl := Option.some.inj (hnew.symm.trans hget')
    exact hinner'

theorem Keeps.faithful (h : Keeps t t') (hget : t.get? id = some n) (hn : Faithful text n) :
    ∀ n', t'.get? id = some n' → Faithful text n' := by
  intro n' hget'
  rcases h id n hget with hsame | ⟨-, n₁, hnew, hinner'⟩
  · obtain rfl := Option.some.inj (hsame.symm.trans hget')
    exact hn
  · obtain rfl := Option.some.inj (hnew.symm.trans hget')
    exact hinner'.faithful text

theorem Keeps.signedAt_eq (h : Keeps t t') (hid : id < t.size) :
    signedAt text t' id = signedAt text t id := by
  obtain ⟨n, hget⟩ : ∃ n, t.get? id = some n := ⟨_, Array.getElem?_eq_getElem hid⟩
  rcases h id n hget with hsame | ⟨hinner, n', hget', hinner'⟩
  · rw [signedAt, signedAt, hsame, hget]
  · rw [signedAt, signedAt, hget, hget', Option.any_some, Option.any_some, hinner.isSigned,
      hinner'.isSigned]

/-- Only an inner node is changed. -/
theorem keeps_update {f : Node SyntaxKind Literal → Node SyntaxKind Literal}
    (hf : ∀ n, IsInner n → IsInner (f n)) (hinner : ∀ n, t.get? parent = some n → IsInner n) :
    Keeps t (t.update parent f) := by
  intro id n hget
  rw [Tree.get?_update]
  by_cases hid : parent = id
  · subst hid
    have hn := hinner n hget
    exact .inr ⟨hn, f n, by rw [if_pos rfl, hget, Option.map_some], hf n hn⟩
  · rw [if_neg hid]
    exact .inl hget

theorem keeps_append (hparent : parent < t.size) (hinner : ∀ n, t.get? parent = some n → IsInner n) :
    Keeps t (t.append parent node) := by
  intro id n hget
  have hlt := Tree.lt_size_of_get? hget
  by_cases hid : id = parent
  · subst hid
    have hn := hinner n hget
    refine .inr ⟨hn, n.adopt t.size, ?_, isInner_adopt.2 hn⟩
    rw [Tree.get?_append_parent hparent, hget, Option.map_some]
  · rw [Tree.get?_append_of_ne hid (Nat.ne_of_lt hlt)]
    exact .inl hget

/-! ## The arena -/

/-- A minus that stands at an offset, and the number whose sign it is: the number's span starts there. -/
structure SignOf (text : SourceText) (t : SyntaxTree) (minus number : NodeId) (o : Nat) : Prop where
  minus : t.get? minus = some (operatorNode text .sub o)
  written : text.char? o = some '-'
  number : ∃ n, t.get? number = some n ∧ n.kind = .number ∧ startsAt n (text.point o)

/-- The arena of a flat tree under construction. -/
structure Arranged (text : SourceText) (t : SyntaxTree) (path : List NodeId)
    (pending : Option Nat) : Prop where
  numbered : t.Numbered path
  inner : ∀ o ∈ path, ∀ n, t.get? o = some n → IsInner n
  faithful : ∀ id n, t.get? id = some n → Faithful text n
  /-- A node without a parent is the root, or a minus that a number has taken. -/
  detached : ∀ id < t.size, id = Tree.root ∨ id ∈ t.links ∨
    ∃ o, t.get? id = some (operatorNode text .sub o) ∧ text.char? o = some '-' ∧
      (pending = some o ∨ ∃ number ∈ t.links, SignOf text t id number o)
  counted : t.size =
    1 + t.links.length + t.links.countP (signedAt text t) + pending.toList.length

theorem not_isInner_operatorNode {op : Operator} : ¬ IsInner (operatorNode text op o) :=
  fun h => nomatch h.value

theorem SignOf.keep {minus number : NodeId} (h : SignOf text t minus number o) (hkeeps : Keeps t t') :
    SignOf text t' minus number o where
  minus := hkeeps.get? h.minus not_isInner_operatorNode
  written := h.written
  number := by
    rcases h.number with ⟨n, hget, hkind, hstart⟩
    exact ⟨n, hkeeps.get? hget fun hinner => hinner.kind hkind, hkind, hstart⟩

namespace Arranged

theorem countP_eq (h : Arranged text t path pending) (hkeeps : Keeps t t') :
    t.links.countP (signedAt text t') = t.links.countP (signedAt text t) :=
  List.countP_congr fun id hid => by rw [hkeeps.signedAt_eq (h.numbered.lt_size hid)]

/-- The tree that holds the root only. -/
theorem blank : Arranged text (Tree.singleton (Label.over
    ⟨.calculator, none, some (text.position 0 text.length)⟩ [])) [Tree.root] none := by
  have hlinks : (Tree.singleton (Label.over (⟨.calculator, none,
      some (text.position 0 text.length)⟩ : Label SyntaxKind Literal) [])).links = [] := by
    simp [Tree.links, Tree.singleton]
  have hinner : ∀ id n, (Tree.singleton (Label.over (⟨.calculator, none,
      some (text.position 0 text.length)⟩ : Label SyntaxKind Literal) [])).get? id = some n →
        IsInner n := by
    intro id n hget
    obtain rfl : id = 0 := Nat.lt_one_iff.1 (Tree.lt_size_of_get? hget)
    obtain rfl := Option.some.inj hget
    exact ⟨fun hkind => (by cases hkind), rfl⟩
  refine ⟨Tree.Numbered.singleton, fun o _ n => hinner o n, ?_, ?_, ?_⟩
  · exact fun id n hget => (hinner id n hget).faithful text
  · exact fun id hid => .inl (Nat.lt_one_iff.1 hid)
  · rw [hlinks]
    rfl

/-- One more node, which is one more number with a sign if it has one. -/
theorem counted_append (h : Arranged text t path pending) (hparent : parent < t.size)
    (hleaf : node.childList = []) (hkeeps : Keeps t (t.append parent node))
    (hcount : pending.toList.length = pending'.toList.length + (isSigned text node).toNat) :
    (t.append parent node).size = 1 + (t.append parent node).links.length +
      (t.append parent node).links.countP (signedAt text (t.append parent node)) +
        pending'.toList.length := by
  have hlinks := Tree.links_append hparent hleaf
  have hsigned : signedAt text (t.append parent node) t.size = isSigned text node := by
    rw [signedAt, Tree.get?_append_new hparent, Option.any_some]
  have hsize := h.counted
  rw [Tree.size_append, hlinks.length_eq, hlinks.countP_eq, List.countP_cons, h.countP_eq hkeeps,
    hsigned, List.length_cons]
  cases hs : isSigned text node with
  | true =>
      rw [hs, Bool.toNat_true] at hcount
      rw [if_pos rfl]
      omega
  | false =>
      rw [hs, Bool.toNat_false] at hcount
      rw [if_neg Bool.false_ne_true]
      omega

/-! ### What each step leaves as it was -/

theorem inner_of_keeps (h : Arranged text t path pending) (hkeeps : Keeps t t') :
    ∀ o ∈ path, ∀ n, t'.get? o = some n → IsInner n := by
  intro o ho n hget
  obtain ⟨n₀, hget₀⟩ : ∃ n₀, t.get? o = some n₀ :=
    ⟨_, Array.getElem?_eq_getElem (h.numbered.known o ho)⟩
  exact hkeeps.isInner hget₀ (h.inner o ho n₀ hget₀) n hget

theorem faithful_of_keeps (h : Arranged text t path pending) (hkeeps : Keeps t t')
    (hid : id < t.size) : ∀ n, t'.get? id = some n → Faithful text n := by
  intro n hget
  obtain ⟨n₀, hget₀⟩ : ∃ n₀, t.get? id = some n₀ := ⟨_, Array.getElem?_eq_getElem hid⟩
  exact hkeeps.faithful hget₀ (h.faithful id n₀ hget₀) n hget

/-- Nodes without a parent stay accounted for, if only the minus of the number under construction leaves
its child list, and such a minus waits until a number takes it. -/
theorem detached_of_keeps (h : Arranged text t path pending) (hkeeps : Keeps t t')
    (hlisted : ∀ id ∈ t.links, id ∈ t'.links ∨ ∃ o, pending' = some o ∧
      t.get? id = some (operatorNode text .sub o) ∧ text.char? o = some '-')
    (htaken : ∀ o, pending = some o → pending' = some o ∨ ∃ number ∈ t'.links, ∃ n,
      t'.get? number = some n ∧ n.kind = .number ∧ startsAt n (text.point o)) :
    ∀ id < t.size, id = Tree.root ∨ id ∈ t'.links ∨
      ∃ o, t'.get? id = some (operatorNode text .sub o) ∧ text.char? o = some '-' ∧
        (pending' = some o ∨ ∃ number ∈ t'.links, SignOf text t' id number o) := by
  intro id hid
  have hminus : ∀ o, t.get? id = some (operatorNode text .sub o) →
      t'.get? id = some (operatorNode text .sub o) := fun o hget =>
    hkeeps.get? hget not_isInner_operatorNode
  rcases h.detached id hid with hroot | hlink | ⟨o, hget, hwritten, hsign⟩
  · exact .inl hroot
  · rcases hlisted id hlink with hstays | ⟨o, hpending, hget, hwritten⟩
    · exact .inr (.inl hstays)
    · exact .inr (.inr ⟨o, hminus o hget, hwritten, .inl hpending⟩)
  · refine .inr (.inr ⟨o, hminus o hget, hwritten, ?_⟩)
    rcases hsign with hpending | ⟨number, hnumber, hsign⟩
    · rcases htaken o hpending with hwaits | ⟨number, hnumber, hnew⟩
      · exact .inl hwaits
      · exact .inr ⟨number, hnumber, hminus o hget, hwritten, hnew⟩
    · rcases hlisted number hnumber with hstays | ⟨o', -, hother, -⟩
      · exact .inr ⟨number, hstays, hsign.keep hkeeps⟩
      · -- A number is no minus.
        rcases hsign.number with ⟨n, hget', hkind, -⟩
        obtain rfl := Option.some.inj (hother.symm.trans hget')
        cases hkind

/-! ### The steps -/

/-- A node without children is added. -/
theorem append (h : Arranged text t (parent :: rest) pending) (hleaf : node.childList = [])
    (hnode : Faithful text node) (hpath : path'.Sublist (t.size :: parent :: rest))
    (hopen : t.size ∈ path' → IsInner node)
    (hcount : pending.toList.length = pending'.toList.length + (isSigned text node).toNat)
    (htaken : ∀ o, pending = some o →
      pending' = some o ∨ node.kind = .number ∧ startsAt node (text.point o)) :
    Arranged text (t.append parent node) path' pending' := by
  have hparent : parent < t.size := h.numbered.known parent List.mem_cons_self
  have hkeeps : Keeps t (t.append parent node) :=
    keeps_append hparent (h.inner parent List.mem_cons_self)
  have hlinks := Tree.links_append hparent hleaf
  have hlisted : t.size ∈ (t.append parent node).links :=
    hlinks.mem_iff.2 List.mem_cons_self
  have hnew : (t.append parent node).get? t.size = some node := Tree.get?_append_new hparent
  exact {
    numbered := (h.numbered.append hleaf).weaken hpath
    inner := by
      intro o ho n hget
      rcases List.mem_cons.1 (hpath.mem ho) with rfl | hmem
      · obtain rfl := Option.some.inj (hnew.symm.trans hget)
        exact hopen ho
      · exact h.inner_of_keeps hkeeps o hmem n hget
    faithful := by
      intro id n hget
      have hlt := Tree.lt_size_of_get? hget
      rw [Tree.size_append] at hlt
      rcases Nat.lt_succ_iff_lt_or_eq.1 hlt with hid | rfl
      · exact h.faithful_of_keeps hkeeps hid n hget
      · obtain rfl := Option.some.inj (hnew.symm.trans hget)
        exact hnode
    detached := by
      intro id hid
      rw [Tree.size_append] at hid
      rcases Nat.lt_succ_iff_lt_or_eq.1 hid with hlt | rfl
      · refine h.detached_of_keeps hkeeps (fun id hmem => ?_) (fun o hpending => ?_) id hlt
        · exact .inl (hlinks.mem_iff.2 (List.mem_cons_of_mem _ hmem))
        · exact (htaken o hpending).imp_right fun hnumber => ⟨t.size, hlisted, node, hnew, hnumber⟩
      · exact .inr (.inl hlisted)
    counted := h.counted_append hparent hleaf hkeeps hcount }

/-- No node is added, and only the minus of the number under construction leaves its child list. -/
theorem keep (h : Arranged text t path pending) (hkeeps : Keeps t t') (hsize : t'.size = t.size)
    (hnumbered : t'.Numbered path) (gone : List NodeId) (hlinks : t.links.Perm (gone ++ t'.links))
    (hgone : ∀ id ∈ gone, ∃ o, pending' = some o ∧
      t.get? id = some (operatorNode text .sub o) ∧ text.char? o = some '-')
    (hpending : ∀ o, pending = some o → pending' = some o)
    (hcount : pending'.toList.length = pending.toList.length + gone.length) :
    Arranged text t' path pending' where
  numbered := hnumbered
  inner := h.inner_of_keeps hkeeps
  faithful := by
    intro id n hget
    have hlt := Tree.lt_size_of_get? hget
    rw [hsize] at hlt
    exact h.faithful_of_keeps hkeeps hlt n hget
  detached := by
    intro id hid
    rw [hsize] at hid
    refine h.detached_of_keeps hkeeps (fun id hmem => ?_) (fun o hwaits => ?_) id hid
    · exact (List.mem_append.1 (hlinks.mem_iff.1 hmem)).symm.imp_right (hgone id)
    · exact .inl (hpending o hwaits)
  counted := by
    have hunsigned : ∀ id ∈ gone, ¬ signedAt text t id = true := by
      intro id hid
      rcases hgone id hid with ⟨o, -, hget, -⟩
      rw [signedAt, hget]
      exact Bool.false_ne_true
    have hsame : t'.links.countP (signedAt text t') = t'.links.countP (signedAt text t) := by
      refine List.countP_congr fun id hid => ?_
      rw [hkeeps.signedAt_eq (hsize ▸ hnumbered.lt_size hid)]
    have hcounted := h.counted
    rw [hlinks.length_eq, hlinks.countP_eq, List.length_append, List.countP_append,
      List.countP_eq_zero.2 hunsigned] at hcounted
    rw [hsize, hsame]
    omega

/-- The span of a bracket, or of the root, changes nothing. -/
theorem setPosition (h : Arranged text t path pending) {position : Position}
    (hinner : ∀ n, t.get? id = some n → IsInner n) :
    Arranged text (t.setPosition id position) path pending := by
  have hkeeps : Keeps t (t.setPosition id position) :=
    keeps_update (fun n hn => ⟨hn.kind, hn.value⟩) hinner
  have hchildren : ∀ n : Node SyntaxKind Literal,
      ({ n with position := some position } : Node SyntaxKind Literal).childList = n.childList :=
    fun _ => rfl
  have hlinks : (t.setPosition id position).links = t.links := Tree.links_update hchildren t id
  have hsize : (t.setPosition id position).size = t.size := Tree.size_update t id _
  have hnumbered := h.numbered.congr hsize (Tree.children_update hchildren t id) hlinks
  refine h.keep hkeeps hsize hnumbered [] ?_ (List.forall_mem_nil _) (fun _ hsame => hsame) rfl
  rw [hlinks]
  exact List.Perm.refl _

/-- A number takes the minus that is the only child of its parent. -/
theorem takeSign (h : Arranged text t (parent :: rest) none) {minus : NodeId}
    (hsign : Lexeme.sign? t parent = some minus) :
    ∃ o, t.position? minus = some (text.position o (o + 1)) ∧ text.char? o = some '-' ∧
      Arranged text (t.popChild parent) (parent :: rest) (some o) := by
  obtain ⟨honly, hvalue⟩ : t.children parent = [minus] ∧
      (t.get? minus).bind Node.value = some (.operator .sub) := by
    unfold Lexeme.sign? at hsign
    split at hsign
    · next only honly =>
        split at hsign
        · next hvalue =>
            obtain rfl := Option.some.inj hsign
            exact ⟨(Tree.onlyChild?_eq_some_iff t parent only).1 honly, hvalue⟩
        · cases hsign
    · cases hsign
  rcases Option.bind_eq_some_iff.1 hvalue with ⟨n, hget, hn⟩
  rcases (h.faithful minus n hget).operator .sub hn with ⟨o, rfl, hwritten⟩
  have hlast : t.lastChild? parent = some minus := by
    rw [Tree.lastChild?_eq_getLast?, honly]
    rfl
  have hleaf : t.children minus = [] := Tree.children_eq hget
  refine ⟨o, by rw [Tree.position?, hget]; rfl, hwritten, ?_⟩
  refine h.keep ?_ (Tree.size_update t parent _) (h.numbered.popChild hlast hleaf)
    [minus] (Tree.links_popChild hlast) ?_ (fun _ hnone => by cases hnone) rfl
  · exact keeps_update (fun n hn => isInner_dropLast.2 hn) (h.inner parent List.mem_cons_self)
  · intro id hid
    obtain rfl := List.mem_singleton.1 hid
    exact ⟨o, rfl, hget, hwritten⟩

end Arranged

/-! ## A finished arena -/

/-- The arena of a flat tree when no number is under construction. -/
structure FlatArena (text : SourceText) (t : SyntaxTree) : Prop where
  /-- No node is listed twice. -/
  once : t.links.Nodup
  acyclic : ∀ id, ¬ t.Below id id
  /-- The walk from the root meets what can be reached, and ids rise along it. -/
  walked : ∀ id, id ∈ Tree.root :: t.descendants Tree.root ↔ t.Reaches Tree.root id
  rising : (Tree.root :: t.descendants Tree.root).Pairwise (· < ·)
  /-- Everything else is a minus, which is the sign of a number. -/
  detached : ∀ id < t.size, ¬ t.Reaches Tree.root id →
    ∃ number o, t.Reaches Tree.root number ∧ SignOf text t id number o
  /-- Each number with a sign leaves one node behind. -/
  counted : t.size = (Tree.root :: t.descendants Tree.root).length +
    (t.descendants Tree.root).countP (signedAt text t)
  /-- The numbers with a sign are the negative ones. -/
  negative : ∀ id n, t.get? id = some n → n.kind = .number →
    ∃ x, n.value = some (.number x) ∧ x.negative = isSigned text n

theorem Arranged.flatArena (h : Arranged text t path none) (hroot : Tree.root ∈ path) :
    FlatArena text t := by
  have hlt := h.numbered.known Tree.root hroot
  have hperm := h.numbered.descendants_perm hroot
  have hwalked : ∀ id, id ∈ Tree.root :: t.descendants Tree.root ↔ t.Reaches Tree.root id :=
    fun id => h.numbered.isForest.mem_descendants hlt
  have hlisted : ∀ id ∈ t.links, t.Reaches Tree.root id := fun id hid =>
    (hwalked id).1 (List.mem_cons_of_mem _ (hperm.mem_iff.2 hid))
  refine ⟨h.numbered.nodup, h.numbered.isForest.acyclic, hwalked,
    h.numbered.pairwise_descendants hlt, ?_, ?_, fun id n hget => (h.faithful id n hget).number⟩
  · intro id hid hunreached
    rcases h.detached id hid with rfl | hmem | ⟨o, -, -, hpending | ⟨number, hnumber, hsign⟩⟩
    · exact absurd .refl hunreached
    · exact absurd (hlisted id hmem) hunreached
    · cases hpending
    · exact ⟨number, o, hlisted number hnumber, hsign⟩
  · have hcounted := h.counted
    rw [← hperm.length_eq, ← hperm.countP_eq] at hcounted
    rw [hcounted, List.length_cons, Option.toList_none, List.length_nil]
    omega

end Calculator
end FeatureTree
