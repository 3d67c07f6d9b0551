import FeatureTree.Proofs.Tree.Picture
import FeatureTree.Tree.Spans

/-!
# Nesting — spans one after the other, and inside of spans

`Runs lo spans hi` says that spans lie one after the other between two offsets, and that none ends
before it starts.  In such a row a segment may be replaced by the span around it, or be left out.

A term is nested when at each node the spans of the children run inside the node's own span.
`Tree.positionsConsistent_of_every` and `Tree.every_of_positionsConsistent` say that this is what the
check on the arena finds.
-/

namespace FeatureTree

/-! ## Rows of spans -/

/-- Spans that lie one after the other between two offsets; none ends before it starts. -/
def Runs (lo : Nat) : List Position → Nat → Prop
  | [], hi => lo ≤ hi
  | p :: rest, hi =>
      lo ≤ p.start.offset ∧ p.start.offset ≤ p.stop.offset ∧ Runs p.stop.offset rest hi

namespace Runs

variable {lo lo' hi hi' mid : Nat} {l l' : List Position} {p q : Position}

theorem le (h : Runs lo l hi) : lo ≤ hi := by
  induction l generalizing lo with
  | nil => exact h
  | cons p rest ih => exact Nat.le_trans h.1 (Nat.le_trans h.2.1 (ih h.2.2))

theorem widen_lo (h : Runs lo l hi) (hlo : lo' ≤ lo) : Runs lo' l hi := by
  cases l with
  | nil => exact Nat.le_trans hlo h
  | cons p rest => exact ⟨Nat.le_trans hlo h.1, h.2⟩

theorem widen_hi (h : Runs lo l hi) (hhi : hi ≤ hi') : Runs lo l hi' := by
  induction l generalizing lo with
  | nil => exact Nat.le_trans h hhi
  | cons p rest ih => exact ⟨h.1, h.2.1, ih h.2.2⟩

theorem append (h : Runs lo l mid) (h' : Runs mid l' hi) : Runs lo (l ++ l') hi := by
  induction l generalizing lo with
  | nil => exact h'.widen_lo h
  | cons p rest ih => exact ⟨h.1, h.2.1, ih h.2.2⟩

/-- A row can be cut anywhere. -/
theorem split (h : Runs lo (l ++ l') hi) : ∃ mid, Runs lo l mid ∧ Runs mid l' hi := by
  induction l generalizing lo with
  | nil => exact ⟨lo, Nat.le_refl lo, h⟩
  | cons p rest ih =>
      rcases ih h.2.2 with ⟨mid, hfirst, hrest⟩
      exact ⟨mid, ⟨h.1, h.2.1, hfirst⟩, hrest⟩

/-- Something else may stand in the place of a segment, if it fits there. -/
theorem replace {before behind l l' : List Position} (h : Runs lo (before ++ l ++ behind) hi)
    (hl : ∀ lo hi, Runs lo l hi → Runs lo l' hi) : Runs lo (before ++ l' ++ behind) hi := by
  rcases h.split with ⟨mid, hfirst, hbehind⟩
  rcases hfirst.split with ⟨first, hbefore, hsegment⟩
  exact (hbefore.append (hl _ _ hsegment)).append hbehind

theorem mem (h : Runs lo l hi) (hp : p ∈ l) :
    lo ≤ p.start.offset ∧ p.start.offset ≤ p.stop.offset ∧ p.stop.offset ≤ hi := by
  induction l generalizing lo with
  | nil => cases hp
  | cons q rest ih =>
      rcases List.mem_cons.1 hp with rfl | hrest
      · exact ⟨h.1, h.2.1, h.2.2.le⟩
      · rcases ih h.2.2 hrest with ⟨hstart, hupright, hstop⟩
        exact ⟨Nat.le_trans h.1 (Nat.le_trans h.2.1 hstart), hupright, hstop⟩

/-- A row runs from the start of its first span to the end of its last one. -/
theorem around (h : Runs lo l hi) (hfirst : l.head? = some p) (hlast : l.getLast? = some q) :
    Runs p.start.offset l q.stop.offset := by
  induction l generalizing lo p with
  | nil => cases hfirst
  | cons first rest ih =>
      obtain rfl : first = p := Option.some.inj hfirst
      refine ⟨Nat.le_refl _, h.2.1, ?_⟩
      rcases rest with _ | ⟨second, rest⟩
      · obtain rfl : first = q := Option.some.inj hlast
        exact Nat.le_refl _
      · have hrest := ih h.2.2 rfl (by rw [← hlast]; rfl)
        exact hrest.widen_lo h.2.2.1

/-- The span from the first to the last span of a row fits in its place. -/
theorem merge (h : Runs lo l hi) (hfirst : l.head? = some p) (hlast : l.getLast? = some q) :
    Runs lo [⟨p.start, q.stop⟩] hi :=
  ⟨(h.mem (List.mem_of_mem_head? hfirst)).1, (h.around hfirst hlast).le,
    (h.mem (List.mem_of_getLast? hlast)).2.2⟩

theorem inOrder (h : Runs lo l hi) : inOrder l = true := by
  induction l generalizing lo with
  | nil => rfl
  | cons p rest ih =>
      rcases rest with _ | ⟨q, rest⟩
      · rfl
      · rw [FeatureTree.inOrder, Bool.and_eq_true, decide_eq_true_eq]
        exact ⟨h.2.2.1, ih h.2.2⟩

/-- Spans in order form a row between offsets that lie around all of them. -/
theorem of_inOrder (h : FeatureTree.inOrder l = true) (hle : lo ≤ hi)
    (hfirst : ∀ p ∈ l.head?, lo ≤ p.start.offset)
    (hl : ∀ p ∈ l, p.start.offset ≤ p.stop.offset ∧ p.stop.offset ≤ hi) : Runs lo l hi := by
  induction l generalizing lo with
  | nil => exact hle
  | cons p rest ih =>
      rcases hl p List.mem_cons_self with ⟨hupright, hstop⟩
      refine ⟨hfirst p rfl, hupright, ?_⟩
      rcases rest with _ | ⟨q, rest⟩
      · exact hstop
      · rw [FeatureTree.inOrder, Bool.and_eq_true, decide_eq_true_eq] at h
        refine ih h.2 hstop ?_ fun r hr => hl r (List.mem_cons_of_mem _ hr)
        rintro r ⟨rfl⟩
        exact h.1

end Runs

/-! ## Terms -/

namespace Term

variable {α : Type} {P Q : α → List (Term α) → Prop} {T : Term α}

/-- Something holds at every node of a term, of its label and its children. -/
inductive Every (P : α → List (Term α) → Prop) : Term α → Prop where
  | leaf {a : α} (here : P a []) : Every P (.leaf a)
  | branch {a : α} {ts : List (Term α)} (here : P a ts) (below : ∀ T ∈ ts, Every P T) :
      Every P (.branch a ts)

theorem Every.here (h : T.Every P) : P T.label T.children := by
  cases h with
  | leaf here => exact here
  | branch here _ => exact here

theorem Every.children (h : T.Every P) : ∀ S ∈ T.children, S.Every P := by
  cases h with
  | leaf _ => exact fun S hS => nomatch hS
  | branch _ below => exact below

theorem Every.imp (h : T.Every P) (hPQ : ∀ a ts, P a ts → Q a ts) : T.Every Q := by
  induction h with
  | leaf here => exact .leaf (hPQ _ _ here)
  | branch here _ ih => exact .branch (hPQ _ _ here) ih

end Term

variable {K V : Type}

/-- Spans of the terms that have one. -/
def spans (ts : List (Term (Label K V))) : List Position := ts.filterMap fun T => T.label.position

@[simp] theorem spans_nil : spans ([] : List (Term (Label K V))) = [] := rfl

@[simp] theorem spans_append (ts ts' : List (Term (Label K V))) :
    spans (ts ++ ts') = spans ts ++ spans ts' := List.filterMap_append

theorem spans_singleton (T : Term (Label K V)) : spans [T] = T.label.position.toList := by
  rw [spans, List.filterMap_cons, List.filterMap_nil]
  cases T.label.position <;> rfl

theorem spans_cons (T : Term (Label K V)) (ts : List (Term (Label K V))) :
    spans (T :: ts) = T.label.position.toList ++ spans ts := by
  rw [← spans_singleton, ← spans_append]
  rfl

theorem head?_spans {ts : List (Term (Label K V))} {p : Position}
    (h : (ts.head?.bind fun T => T.label.position) = some p) : (spans ts).head? = some p := by
  rcases ts with _ | ⟨T, ts⟩
  · cases h
  · have hp : T.label.position = some p := h
    rw [spans_cons, hp]
    rfl

theorem getLast?_spans {ts : List (Term (Label K V))} {p : Position}
    (h : (ts.getLast?.bind fun T => T.label.position) = some p) : (spans ts).getLast? = some p := by
  rcases Option.bind_eq_some_iff.1 h with ⟨T, hT, hp⟩
  rcases List.getLast?_eq_some_iff.1 hT with ⟨before, rfl⟩
  rw [spans_append, spans_singleton, hp]
  exact List.getLast?_concat

/-- A span whose children run inside of it; without a span the children only run. -/
def SpansNested (a : Label K V) (ts : List (Term (Label K V))) : Prop :=
  match a.position with
  | some p => Runs p.start.offset (spans ts) p.stop.offset
  | none => ∃ hi, Runs 0 (spans ts) hi

theorem SpansNested.upright {a : Label K V} {ts : List (Term (Label K V))} {p : Position}
    (h : SpansNested a ts) (hp : a.position = some p) : p.start.offset ≤ p.stop.offset := by
  rw [SpansNested, hp] at h
  exact h.le

/-- The children run somewhere. -/
theorem SpansNested.exists_runs {a : Label K V} {ts : List (Term (Label K V))}
    (h : SpansNested a ts) : ∃ hi, Runs 0 (spans ts) hi := by
  unfold SpansNested at h
  split at h
  · exact ⟨_, h.widen_lo (Nat.zero_le _)⟩
  · exact h

/-- Children that fit in the place of others, below the same span. -/
theorem SpansNested.replace {K' V' : Type} {a : Label K V} {ts : List (Term (Label K V))}
    {a' : Label K' V'} {ts' : List (Term (Label K' V'))} (h : SpansNested a ts)
    (hposition : a'.position = a.position)
    (hts : ∀ lo hi, Runs lo (spans ts) hi → Runs lo (spans ts') hi) : SpansNested a' ts' := by
  unfold SpansNested at h ⊢
  rw [hposition]
  split
  · next p hp =>
      rw [hp] at h
      exact hts _ _ h
  · next hp =>
      rw [hp] at h
      rcases h with ⟨hi, h⟩
      exact ⟨hi, hts _ _ h⟩

/-- A node whose children run inside its span; under the condition `full` it has a span. -/
structure Placed (full : Prop) (a : Label K V) (ts : List (Term (Label K V))) : Prop where
  nested : SpansNested a ts
  positioned : full → a.position.isSome

/-- A leaf is in place if its span is one that may lie in a row. -/
theorem Placed.leaf {full : Prop} {a : Label K V} {lo hi : Nat} (h : Runs lo a.position.toList hi)
    (hpositioned : full → a.position.isSome) : Placed full a [] := by
  refine ⟨?_, hpositioned⟩
  unfold SpansNested
  split
  · next p hp =>
      rw [hp] at h
      exact h.2.1
  · exact ⟨0, Nat.le_refl 0⟩

/-- Everything below a node lies inside the span of the node, if all nodes have spans. -/
theorem Term.Every.inside {T : Term (Label K V)} (h : T.Every (Placed True)) {p : Position}
    (hp : T.label.position = some p) : ∀ a ∈ T.labels, ∃ q, a.position = some q ∧
      p.start.offset ≤ q.start.offset ∧ q.start.offset ≤ q.stop.offset ∧
        q.stop.offset ≤ p.stop.offset := by
  have hown : p.start.offset ≤ p.stop.offset := h.here.nested.upright hp
  induction T using Term.induction generalizing p with
  | leaf b =>
      intro a ha
      obtain rfl : a = b := List.mem_singleton.1 ha
      exact ⟨p, hp, Nat.le_refl _, hown, Nat.le_refl _⟩
  | branch b ts ih =>
      intro a ha
      rcases Term.mem_labels_branch.1 ha with rfl | ⟨X, hX, haX⟩
      · exact ⟨p, hp, Nat.le_refl _, hown, Nat.le_refl _⟩
      · have hnested : SpansNested b ts := h.here.nested
        change b.position = some p at hp
        rw [SpansNested, hp] at hnested
        rcases Option.isSome_iff_exists.1 ((h.children X hX).here.positioned trivial) with ⟨r, hr⟩
        have hmem : r ∈ spans ts := List.mem_filterMap.2 ⟨X, hX, hr⟩
        rcases hnested.mem hmem with ⟨hstart, hupright, hstop⟩
        rcases ih X hX (h.children X hX) hr hupright a haX with ⟨q, hq, hfirst, hbetween, hlast⟩
        exact ⟨q, hq, Nat.le_trans hstart hfirst, hbetween, Nat.le_trans hlast hstop⟩

/-! ## Arenas -/

namespace Tree

variable {t : Tree K V} {A : NodeId → Prop} {T S : Term (NodeId × Label K V)} {id : NodeId}
variable {P : Label K V → List (Term (Label K V)) → Prop}

theorem Shows.children (h : t.Shows A S) :
    t.children S.id = S.children.map Term.id ∧ ∀ X ∈ S.children, t.Shows A X := by
  cases S with
  | leaf a =>
      refine ⟨?_, fun X hX => nomatch hX⟩
      have hget : t.get? a.1 = some a.2.leaf := h.2
      simp [Tree.children, childArray, Term.id, Term.label, hget, Label.leaf, Node.childArray,
        Term.children]
  | branch a ts =>
      rcases shows_branch.1 h with ⟨-, hget, hterms⟩
      exact ⟨children_of_get? hget, hterms⟩

/-- Spans of the children of a node that is shown. -/
theorem Shows.childPositions (h : t.Shows A S) :
    t.childPositions S.id = spans (S.children.map (Term.map Prod.snd)) := by
  rcases h.children with ⟨hids, hterms⟩
  rw [Tree.childPositions, hids, spans, List.filterMap_map, List.filterMap_map]
  refine List.filterMap_congr fun X hX => ?_
  rw [Function.comp_apply, Function.comp_apply, (hterms X hX).position?, Term.label_map]

/-- Spans of the first and the last child of a node that is shown. -/
theorem Shows.endPositions (h : t.Shows A S) :
    (t.firstChild? S.id).bind t.position? =
        ((S.children.map (Term.map Prod.snd)).head?.bind fun T => T.label.position) ∧
      (t.lastChild? S.id).bind t.position? =
        ((S.children.map (Term.map Prod.snd)).getLast?.bind fun T => T.label.position) := by
  rcases h.children with ⟨hids, hterms⟩
  have hposition : ∀ X ∈ S.children, t.position? X.id = (X.map Prod.snd).label.position :=
    fun X hX => (hterms X hX).position?.trans (by rw [Term.label_map])
  rw [firstChild?_eq_head?, lastChild?_eq_getLast?, hids, List.head?_map, List.head?_map,
    List.getLast?_map, List.getLast?_map]
  constructor
  · cases hX : S.children.head? with
    | none => rfl
    | some X => exact hposition X (List.mem_of_mem_head? hX)
  · cases hX : S.children.getLast? with
    | none => rfl
    | some X => exact hposition X (List.mem_of_getLast? hX)

theorem Shows.spansNested (h : t.Shows A S)
    (hS : SpansNested S.label.2 (S.children.map (Term.map Prod.snd))) :
    t.spansNested S.id = true := by
  rw [Tree.spansNested, h.childPositions, h.position?]
  cases hp : S.label.2.position with
  | none =>
      rw [SpansNested, hp] at hS
      rcases hS with ⟨hi, hS⟩
      rw [hS.inOrder]
      rfl
  | some p =>
      rw [SpansNested, hp] at hS
      rw [hS.inOrder, Bool.true_and, List.all_eq_true]
      intro q hq
      rcases hS.mem hq with ⟨hstart, -, hstop⟩
      simp only [Position.encloses, hstart, hstop, decide_true, Bool.and_self]

/-- What the check finds at a node, if no span ends before it starts. -/
theorem Shows.of_spansNested (h : t.Shows A S) (hS : t.spansNested S.id = true)
    (hown : ∀ p, S.label.2.position = some p → p.start.offset ≤ p.stop.offset)
    (hbelow : ∀ X ∈ S.children, ∀ p, X.label.2.position = some p → p.start.offset ≤ p.stop.offset) :
    SpansNested S.label.2 (S.children.map (Term.map Prod.snd)) := by
  have hupright : ∀ p ∈ spans (S.children.map (Term.map Prod.snd)),
      p.start.offset ≤ p.stop.offset := by
    intro p hp
    rw [spans, List.filterMap_map, List.mem_filterMap] at hp
    rcases hp with ⟨X, hX, hposition⟩
    rw [Function.comp_apply, Term.label_map] at hposition
    exact hbelow X hX p hposition
  rw [Tree.spansNested, h.childPositions, h.position?, Bool.and_eq_true] at hS
  rcases hS with ⟨horder, hinside⟩
  unfold SpansNested
  split
  · next p hp =>
      rw [hp] at hinside
      have hencloses : ∀ q ∈ spans (S.children.map (Term.map Prod.snd)),
          p.start.offset ≤ q.start.offset ∧ q.stop.offset ≤ p.stop.offset := by
        intro q hq
        simpa [Position.encloses] using List.all_eq_true.1 hinside q hq
      exact .of_inOrder horder (hown p hp)
        (fun q hq => (hencloses q (List.mem_of_mem_head? hq)).1)
        fun q hq => ⟨hupright q hq, (hencloses q hq).2⟩
  · -- Some offset lies behind all spans.
    obtain ⟨hi, hhi⟩ : ∃ hi, ∀ q ∈ spans (S.children.map (Term.map Prod.snd)), q.stop.offset ≤ hi := by
      generalize spans (S.children.map (Term.map Prod.snd)) = l
      induction l with
      | nil => exact ⟨0, fun q hq => nomatch hq⟩
      | cons p rest ih =>
          rcases ih with ⟨hi, hhi⟩
          refine ⟨max p.stop.offset hi, fun q hq => ?_⟩
          rcases List.mem_cons.1 hq with rfl | hq
          · exact Nat.le_max_left _ _
          · exact Nat.le_trans (hhi q hq) (Nat.le_max_right _ _)
    exact ⟨hi, .of_inOrder horder (Nat.zero_le _) (fun q _ => Nat.zero_le _)
      fun q hq => ⟨hupright q hq, hhi q hq⟩⟩

/-! ### All nodes of a picture -/

/-- What holds of each part that is shown holds at every node. -/
theorem Shows.every (h : t.Shows A T)
    (hP : ∀ S, t.Shows A S → (∀ a ∈ S.labels, a ∈ T.labels) →
      P S.label.2 (S.children.map (Term.map Prod.snd))) : (T.map Prod.snd).Every P := by
  induction T using Term.induction with
  | leaf a => exact .leaf (hP (.leaf a) h fun _ => id)
  | branch a ts ih =>
      rcases shows_branch.1 h with ⟨-, -, hterms⟩
      rw [Term.map, Term.mapList_eq_map]
      refine .branch (hP (.branch a ts) h fun _ => id) fun Y hY => ?_
      rcases List.mem_map.1 hY with ⟨X, hX, rfl⟩
      exact ih X hX (hterms X hX) fun S hS hlabels =>
        hP S hS fun b hb => Term.mem_labels_of_mem hX (hlabels b hb)

/-- What holds at every node holds of the part that each node shows. -/
theorem Shows.of_every (h : t.Shows A T) (hP : (T.map Prod.snd).Every P) :
    ∀ a ∈ T.labels, ∃ S, t.Shows A S ∧ S.label = a ∧
      P S.label.2 (S.children.map (Term.map Prod.snd)) := by
  induction T using Term.induction with
  | leaf b =>
      intro a ha
      obtain rfl : a = b := List.mem_singleton.1 ha
      exact ⟨.leaf a, h, rfl, hP.here⟩
  | branch b ts ih =>
      intro a ha
      rw [Term.map, Term.mapList_eq_map] at hP
      rcases Term.mem_labels_branch.1 ha with rfl | ⟨X, hX, haX⟩
      · exact ⟨.branch a ts, h, rfl, hP.here⟩
      · exact ih X hX ((shows_branch.1 h).2.2 X hX) (hP.children _ (List.mem_map_of_mem hX)) a haX

/-! ### The nodes below a node -/

theorem take_shows (h : t.Shows A T) (rest : List NodeId) (steps : Nat) :
    (Walk.mk t (T.id :: rest)).take (T.labels.length + steps) =
      T.labels.map Prod.fst ++ (Walk.mk t rest).take steps := by
  induction T using Term.induction generalizing rest steps with
  | leaf a =>
      have hchildren : t.children a.1 = [] := (Shows.children h).1
      change (Walk.mk t (a.1 :: rest)).take (1 + steps) = _
      rw [Nat.add_comm, Walk.take]
      simp [Walk.next?, hchildren, Term.labels]
  | branch a ts ih =>
      rcases Shows.children h with ⟨hids, hterms⟩
      have hchildren : t.children a.1 = ts.map Term.id := hids
      -- The children come first, each with everything below it, and then the rest.
      have hall : ∀ rest,
          (Walk.mk t (ts.map Term.id ++ rest)).take ((Term.labelsList ts).length + steps) =
            (Term.labelsList ts).map Prod.fst ++ (Walk.mk t rest).take steps := by
        intro rest
        clear h hids hchildren
        induction ts with
        | nil => rw [Term.labelsList, List.length_nil, Nat.zero_add]; rfl
        | cons X ts ihts =>
            rw [Term.labelsList, List.length_append, Nat.add_assoc, List.map_append,
              List.append_assoc, List.map_cons, List.cons_append,
              ih X List.mem_cons_self (hterms X List.mem_cons_self),
              ihts (fun Y hY => ih Y (List.mem_cons_of_mem _ hY))
                fun Y hY => hterms Y (List.mem_cons_of_mem _ hY)]
      change (Walk.mk t (a.1 :: rest)).take ((Term.labelsList ts).length + 1 + steps) = _
      have hsteps : (Term.labelsList ts).length + 1 + steps =
          (Term.labelsList ts).length + steps + 1 := by omega
      rw [hsteps, Walk.take]
      simp only [Walk.next?, hchildren, hall rest]
      rfl

/-- A node and everything below it are the nodes of the term that it unfolds to. -/
theorem descendants_of_idTerm? (h : t.idTerm? id = some T) :
    id :: t.descendants id = T.labels.map Prod.fst := by
  rcases shows_of_expand? h with ⟨hshows, rfl⟩
  have hspread := spread_of_expand? h
  rcases hshows.children with ⟨hids, hterms⟩
  have htake := take_shows hshows [] 0
  rw [Nat.add_zero, ← hspread] at htake
  simp only [Walk.take, Walk.next?, List.append_nil] at htake
  exact htake

/-- No span of a node or below it ends before it starts. -/
def Upright (t : Tree K V) (id : NodeId) : Prop :=
  ∀ x ∈ id :: t.descendants id, ∀ p, t.position? x = some p → p.start.offset ≤ p.stop.offset

/-- A node and everything below it have spans, and these lie in front of an offset. -/
def Within (t : Tree K V) (id : NodeId) (length : Nat) : Prop :=
  ∀ x ∈ id :: t.descendants id, ∃ p, t.position? x = some p ∧
    p.start.offset ≤ p.stop.offset ∧ p.stop.offset ≤ length

theorem Within.upright {length : Nat} (h : t.Within id length) : t.Upright id := by
  intro x hx p hp
  rcases h x hx with ⟨q, hq, hupright, -⟩
  rw [hp] at hq
  exact Option.some.inj hq ▸ hupright

/-- Positions that are checked to be consistent nest at every node. -/
theorem every_of_positionsConsistent (hT : t.idTerm? id = some T) (hupright : t.Upright id)
    (hconsistent : t.positionsConsistent id = true) : (T.map Prod.snd).Every SpansNested := by
  have hnodes := descendants_of_idTerm? hT
  have hmem : ∀ a ∈ T.labels, a.1 ∈ id :: t.descendants id :=
    fun a ha => hnodes ▸ List.mem_map_of_mem ha
  refine (shows_of_expand? hT).1.every fun S hS hlabels => ?_
  have hspan : ∀ X, t.Shows (fun _ => True) X → X.label ∈ T.labels →
      ∀ p, X.label.2.position = some p → p.start.offset ≤ p.stop.offset :=
    fun X hX hXT p hp => hupright X.id (hmem _ hXT) p (hX.position?.trans hp)
  refine hS.of_spansNested ?_ (hspan S hS (hlabels _ S.label_mem_labels)) fun X hX => ?_
  · exact List.all_eq_true.1 hconsistent S.id (hmem _ (hlabels _ S.label_mem_labels))
  · refine hspan X (hS.children.2 X hX) (hlabels _ ?_)
    cases S with
    | leaf a => cases hX
    | branch a ts =>
        exact Term.mem_labels_of_mem hX X.label_mem_labels

/-- Positions that nest at every node are found to be consistent. -/
theorem positionsConsistent_of_every (hT : t.idTerm? id = some T)
    (h : (T.map Prod.snd).Every SpansNested) : t.positionsConsistent id = true := by
  rw [positionsConsistent, descendants_of_idTerm? hT, List.all_eq_true]
  intro x hx
  rcases List.mem_map.1 hx with ⟨a, ha, rfl⟩
  rcases (shows_of_expand? hT).1.of_every h a ha with ⟨S, hS, rfl, hnested⟩
  exact hS.spansNested hnested

/-- Nodes that have spans in place lie inside the span of the node above all of them. -/
theorem within_of_every {p : Position} (hT : t.idTerm? id = some T)
    (h : (T.map Prod.snd).Every (Placed True)) (hp : T.label.2.position = some p) :
    t.Within id p.stop.offset := by
  intro x hx
  rw [descendants_of_idTerm? hT] at hx
  rcases List.mem_map.1 hx with ⟨a, ha, rfl⟩
  rcases (shows_of_expand? hT).1.of_every h a ha with ⟨S, hS, rfl, -⟩
  have hroot : (T.map Prod.snd).label.position = some p := by
    rw [Term.label_map]
    exact hp
  have hlabel : S.label.2 ∈ (T.map Prod.snd).labels := by
    rw [Term.labels_map]
    exact List.mem_map_of_mem ha
  rcases h.inside hroot _ hlabel with ⟨q, hq, -, hupright, hstop⟩
  exact ⟨q, hS.position?.trans hq, hupright, hstop⟩

end Tree

end FeatureTree
