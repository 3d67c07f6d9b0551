import FeatureTree.Proofs.Feature.Chronicle

/-!
# Bags — who uses which bag

The calls that belong to one dispatch call form a group: the dispatch call itself, and all calls of the
features that it proposed.  A `Use` is a call with the bag that it found and the bag that it left.

`HandedOn` says how engines treat bags: a group starts with a new bag, and hands it on from call to call.
`Holding` tells in addition who may call next, and with which bag: whoever claims or finishes in between,
no two groups hold the same bag.  `HandedOn.isolated` draws the conclusions for single entries.
-/

namespace FeatureTree

variable {Key : Type} {Entry : Key → Type}

/-! ## Uses -/

/-- The number of the dispatch call to which the call belongs. -/
def Act.group : Act → Nat
  | proposed group _ => group
  | asked tag _ => tag.group
  | finished tag _ => tag.group

/-- One call with the bag that it found and the bag that it left. -/
structure Use (Key : Type) (Entry : Key → Type) where
  act : Act
  found : Bag Key Entry
  left : Bag Key Entry

def Use.group (use : Use Key Entry) : Nat := use.act.group

theorem Use.group_of_tag {use : Use Key Entry} {tag : Tag} (h : use.act.tag? = some tag) :
    use.group = tag.group := by
  rcases use with ⟨act, found, left⟩
  cases act with
  | proposed => cases h
  | asked => cases h; rfl
  | finished => cases h; rfl

theorem Use.group_of_proposed {use : Use Key Entry} {group count : Nat}
    (h : use.act = .proposed group count) : use.group = group := by
  rw [Use.group, h]
  rfl

/-- The feature is a candidate of one of the dispatch calls. -/
def Proposed (tag : Tag) (uses : List (Use Key Entry)) : Prop :=
  ∃ opening ∈ uses, ∃ count, opening.act = .proposed tag.group count ∧ tag.place < count

/-- The bag of a group as its latest call left it; none before the dispatch call.  Uses are listed with
the latest in front. -/
def bagOf (group : Nat) (uses : List (Use Key Entry)) : Option (Bag Key Entry) :=
  (uses.find? fun use => use.group == group).map Use.left

section Latest

variable {group : Nat} {use : Use Key Entry} {uses : List (Use Key Entry)} {bag : Bag Key Entry}
variable {tag : Tag}

theorem Proposed.cons (h : Proposed tag uses) (use : Use Key Entry) : Proposed tag (use :: uses) := by
  rcases h with ⟨opening, hmem, hopening⟩
  exact ⟨opening, List.mem_cons_of_mem _ hmem, hopening⟩

theorem bagOf_cons_self (h : use.group = group) : bagOf group (use :: uses) = some use.left := by
  rw [bagOf, List.find?_cons_of_pos (by simpa using h)]
  rfl

theorem bagOf_cons_of_ne (h : use.group ≠ group) : bagOf group (use :: uses) = bagOf group uses := by
  rw [bagOf, List.find?_cons_of_neg (by simpa using h), bagOf]

/-- The latest call of the group stands before all its earlier ones. -/
theorem bagOf_eq_some (h : bagOf group uses = some bag) :
    ∃ between before rest, uses = between ++ before :: rest ∧ before.group = group ∧
      (∀ other ∈ between, other.group ≠ group) ∧ bag = before.left := by
  rcases Option.map_eq_some_iff.1 h with ⟨before, hfind, rfl⟩
  rcases List.find?_eq_some_iff_append.1 hfind with ⟨hgroup, between, rest, rfl, hbetween⟩
  exact ⟨between, before, rest, rfl, by simpa using hgroup,
    fun other hother => by simpa using hbetween other hother, rfl⟩

end Latest

/-! ## Bags are handed on -/

/-- So many dispatch calls were made, each with a new bag, and all other calls were made with the bag
that their group left. -/
inductive HandedOn : Nat → List (Use Key Entry) → Prop where
  | start : HandedOn 0 []
  | proposed {number use uses count} (h : HandedOn number uses) (hact : use.act = .proposed number count)
      (hempty : use.found = Bag.empty number) : HandedOn (number + 1) (use :: uses)
  | called {number use uses tag} (h : HandedOn number uses) (htag : use.act.tag? = some tag)
      (hproposed : Proposed tag uses) (hbag : bagOf tag.group uses = some use.found) :
      HandedOn number (use :: uses)

/-- Features that may be called, and the bag of their group. -/
structure Holder (Key : Type) (Entry : Key → Type) where
  group : Nat
  tags : List Tag
  bag : Bag Key Entry

/-- The bags of these groups are as the latest calls left them, and only these features are called
next; each belongs to its group. -/
structure Holding (number : Nat) (holders : List (Holder Key Entry)) (uses : List (Use Key Entry)) :
    Prop where
  handedOn : HandedOn number uses
  nodup : (holders.map Holder.group).Nodup
  bag : ∀ holder ∈ holders, bagOf holder.group uses = some holder.bag
  tags : ∀ holder ∈ holders, ∀ tag ∈ holder.tags, tag.group = holder.group ∧ Proposed tag uses

namespace HandedOn

variable {number : Nat} {use : Use Key Entry} {uses : List (Use Key Entry)}

/-- Each call belongs to a dispatch call that was made. -/
theorem group_lt (h : HandedOn number uses) : ∀ use ∈ uses, use.group < number := by
  induction h with
  | start => simp
  | proposed _ hact _ ih =>
      intro use hmem
      rcases List.mem_cons.1 hmem with rfl | hmem
      · rw [Use.group_of_proposed hact]
        exact Nat.lt_succ_self _
      · exact Nat.lt_succ_of_lt (ih use hmem)
  | called _ htag hproposed _ ih =>
      intro use hmem
      rcases List.mem_cons.1 hmem with rfl | hmem
      · rcases hproposed with ⟨opening, hopening, count, hact, -⟩
        have hgroup : opening.group = use.group :=
          (Use.group_of_proposed hact).trans (Use.group_of_tag htag).symm
        exact hgroup ▸ ih opening hopening
      · exact ih use hmem

/-- What holds of a record held of it before the latest calls. -/
theorem suffix (h : HandedOn number uses) {earlier : List (Use Key Entry)} (hsuffix : earlier <:+ uses) :
    ∃ before, HandedOn before earlier := by
  induction h with
  | start => exact ⟨0, (List.suffix_nil.1 hsuffix) ▸ .start⟩
  | proposed h hact hempty ih =>
      rcases List.suffix_cons_iff.1 hsuffix with rfl | hsuffix
      · exact ⟨_, .proposed h hact hempty⟩
      · exact ih hsuffix
  | called h htag hproposed hbag ih =>
      rcases List.suffix_cons_iff.1 hsuffix with rfl | hsuffix
      · exact ⟨_, .called h htag hproposed hbag⟩
      · exact ih hsuffix

/-- A dispatch call opens a group. -/
theorem opens (h : HandedOn number (use :: uses)) {group count : Nat}
    (hact : use.act = .proposed group count) :
    use.found = Bag.empty group ∧ HandedOn group uses := by
  cases h with
  | proposed h hact' hempty =>
      cases hact'.symm.trans hact
      exact ⟨hempty, h⟩
  | called _ htag _ _ =>
      rw [hact] at htag
      cases htag

/-- A feature belongs to a dispatch call, and is given its bag. -/
theorem joins (h : HandedOn number (use :: uses)) {tag : Tag} (htag : use.act.tag? = some tag) :
    Proposed tag uses ∧ bagOf tag.group uses = some use.found := by
  cases h with
  | proposed _ hact _ =>
      rw [hact] at htag
      cases htag
  | called _ htag' hproposed hbag =>
      obtain rfl : _ = tag := Option.some.inj (htag'.symm.trans htag)
      exact ⟨hproposed, hbag⟩

/-- A call whose group has been called before is given the bag that was left. -/
theorem bagOf_eq_found (h : HandedOn number (use :: uses)) {before : Use Key Entry}
    (hmem : before ∈ uses) (hgroup : before.group = use.group) :
    bagOf use.group uses = some use.found := by
  cases h with
  | proposed h hact _ =>
      have hlt := h.group_lt before hmem
      rw [hgroup, Use.group_of_proposed hact] at hlt
      exact absurd hlt (Nat.lt_irrefl _)
  | called _ htag _ hbag =>
      rw [Use.group_of_tag htag]
      exact hbag

end HandedOn

/-! ## Holders -/

namespace Holding

variable {number : Nat} {holder : Holder Key Entry} {holders : List (Holder Key Entry)}
variable {use : Use Key Entry} {uses : List (Use Key Entry)} {bag : Bag Key Entry}

theorem start : Holding 0 [] ([] : List (Use Key Entry)) :=
  ⟨.start, List.nodup_nil, by simp, by simp⟩

/-- The first group is not called any more. -/
theorem drop (h : Holding number (holder :: holders) uses) : Holding number holders uses where
  handedOn := h.handedOn
  nodup := (List.nodup_cons.1 h.nodup).2
  bag other hmem := h.bag other (List.mem_cons_of_mem _ hmem)
  tags other hmem := h.tags other (List.mem_cons_of_mem _ hmem)

/-- Some features of the first group are not called any more. -/
theorem restrict (h : Holding number (holder :: holders) uses) {tags : List Tag}
    (hsub : ∀ tag ∈ tags, tag ∈ holder.tags) :
    Holding number (⟨holder.group, tags, holder.bag⟩ :: holders) uses where
  handedOn := h.handedOn
  nodup := h.nodup
  bag other hmem := by
    rcases List.mem_cons.1 hmem with rfl | hmem
    · exact h.bag holder List.mem_cons_self
    · exact h.bag other (List.mem_cons_of_mem _ hmem)
  tags other hmem tag htag := by
    rcases List.mem_cons.1 hmem with rfl | hmem
    · exact h.tags holder List.mem_cons_self tag (hsub tag htag)
    · exact h.tags other (List.mem_cons_of_mem _ hmem) tag htag

/-- A dispatch rule is called with a new bag, and its candidates may be called next. -/
theorem propose (h : Holding number holders uses) {count : Nat} {tags : List Tag}
    (hact : use.act = .proposed number count) (hempty : use.found = Bag.empty number)
    (hleft : use.left = bag) (htags : ∀ tag ∈ tags, tag.group = number ∧ tag.place < count) :
    Holding (number + 1) (⟨number, tags, bag⟩ :: holders) (use :: uses) := by
  have hgroup := Use.group_of_proposed hact
  -- All holders belong to dispatch calls that were made before, so the number is new.
  have hfresh : ∀ other ∈ holders, number ≠ other.group := by
    rintro other hmem rfl
    rcases bagOf_eq_some (h.bag other hmem) with ⟨between, before, rest, huses, hbefore, -⟩
    have hlt := h.handedOn.group_lt before (by simp [huses])
    exact absurd (hbefore ▸ hlt) (Nat.lt_irrefl _)
  refine ⟨.proposed h.handedOn hact hempty, ?_, ?_, ?_⟩
  · refine List.nodup_cons.2 ⟨?_, h.nodup⟩
    intro hmem
    rcases List.mem_map.1 hmem with ⟨other, hother, heq⟩
    exact hfresh other hother heq.symm
  · intro other hmem
    rcases List.mem_cons.1 hmem with rfl | hmem
    · rw [bagOf_cons_self hgroup, hleft]
    · rw [bagOf_cons_of_ne (hgroup ▸ hfresh other hmem)]
      exact h.bag other hmem
  · intro other hmem tag htag
    rcases List.mem_cons.1 hmem with rfl | hmem
    · have htag := htags tag htag
      exact ⟨htag.1, use, List.mem_cons_self, count, by rw [htag.1, hact], htag.2⟩
    · have htag := h.tags other hmem tag htag
      exact ⟨htag.1, htag.2.cons _⟩

/-- A feature of the first group is called; the group keeps the bag that the call leaves, and the bags of
the other groups stay as they are. -/
theorem call (h : Holding number (holder :: holders) uses) {tag : Tag}
    (htag : use.act.tag? = some tag) (hmem : tag ∈ holder.tags) (hfound : use.found = holder.bag)
    (hleft : use.left = bag) :
    Holding number (⟨holder.group, holder.tags, bag⟩ :: holders) (use :: uses) := by
  have hcalled := h.tags holder List.mem_cons_self tag hmem
  have hgroup : use.group = holder.group := (Use.group_of_tag htag).trans hcalled.1
  have hbag : bagOf tag.group uses = some use.found := by
    rw [hcalled.1, hfound]
    exact h.bag holder List.mem_cons_self
  -- No two holders share a group, so the others keep the bags that they have.
  have hother : ∀ other ∈ holders, use.group ≠ other.group := by
    intro other hother heq
    exact (List.nodup_cons.1 h.nodup).1 (List.mem_map.2 ⟨other, hother, heq.symm.trans hgroup⟩)
  refine ⟨.called h.handedOn htag hcalled.2 hbag, h.nodup, ?_, ?_⟩
  · intro other hmem
    rcases List.mem_cons.1 hmem with rfl | hmem
    · rw [bagOf_cons_self hgroup, hleft]
    · rw [bagOf_cons_of_ne (hother other hmem)]
      exact h.bag other (List.mem_cons_of_mem _ hmem)
  · intro other hmem tag htag
    rcases List.mem_cons.1 hmem with rfl | hmem
    · have htag := h.tags holder List.mem_cons_self tag htag
      exact ⟨htag.1, htag.2.cons _⟩
    · have htag := h.tags other (List.mem_cons_of_mem _ hmem) tag htag
      exact ⟨htag.1, htag.2.cons _⟩

end Holding

/-! ## Isolation -/

section Entries

variable [DecidableEq Key] {group : Nat} {key : Key} {entry : Entry key} {use : Use Key Entry}
variable {uses : List (Use Key Entry)}

/-- A call of the group stored the entry, and no call of the group has changed it since. -/
def Stored (group : Nat) (key : Key) (entry : Entry key) (uses : List (Use Key Entry)) : Prop :=
  ∃ between before rest, uses = between ++ before :: rest ∧ before.group = group ∧
    before.found.get? key ≠ some entry ∧ before.left.get? key = some entry ∧
      ∀ other ∈ between, other.group = group →
        other.found.get? key = some entry ∧ other.left.get? key = some entry

/-- One more call, which keeps the entry if it belongs to the group. -/
theorem Stored.cons (h : Stored group key entry uses)
    (hkept : use.group = group → use.found.get? key = some entry ∧ use.left.get? key = some entry) :
    Stored group key entry (use :: uses) := by
  rcases h with ⟨between, before, rest, rfl, hbefore, hnew, hleft, hsince⟩
  refine ⟨use :: between, before, rest, rfl, hbefore, hnew, hleft, ?_⟩
  intro other hmem hother
  rcases List.mem_cons.1 hmem with rfl | hmem
  · exact hkept hother
  · exact hsince other hmem hother

/-- The latest call stores the entry. -/
theorem Stored.here (hgroup : use.group = group) (hnew : use.found.get? key ≠ some entry)
    (hleft : use.left.get? key = some entry) : Stored group key entry (use :: uses) :=
  ⟨[], use, uses, rfl, hgroup, hnew, hleft, by simp⟩

end Entries

/-- What the record of an engine says about bags, for each call and the calls before it. -/
structure Isolated [DecidableEq Key] (uses : List (Use Key Entry)) : Prop where
  /-- A dispatch rule is given a new bag: it is empty, and its number is above those of all groups so
  far. -/
  fresh : ∀ use earlier group count, use :: earlier <:+ uses → use.act = .proposed group count →
    use.found = Bag.empty group ∧ ∀ before ∈ earlier, before.group < group
  /-- A feature is a candidate of an earlier dispatch call, and is given the bag that the latest call of
  its group left, be it the dispatch call or a call of a feature. -/
  shared : ∀ use earlier tag, use :: earlier <:+ uses → use.act.tag? = some tag →
    Proposed tag earlier ∧ ∃ between before rest, earlier = between ++ before :: rest ∧
      before.group = tag.group ∧ (∀ other ∈ between, other.group ≠ tag.group) ∧
        use.found = before.left
  /-- The number of the bag is that of the group, so that calls of different groups are given different
  bags, unless an earlier call of the group has changed the number; storing an entry does not, see
  `Bag.number_insert`. -/
  numbered : ∀ use earlier, use :: earlier <:+ uses →
    (∀ before ∈ earlier, before.group = use.group → before.left.number = before.found.number) →
      use.found.number = use.group
  /-- What a call leaves under a key, later calls of its group find there, until one of them changes
  it. -/
  visible : ∀ use between before rest key, use :: (between ++ before :: rest) <:+ uses →
    use.group = before.group →
    (∀ other ∈ between, other.group = before.group → other.left.get? key = other.found.get? key) →
      use.found.get? key = before.left.get? key
  /-- What a call finds under a key, an earlier call of its group stored there, and no call of the group
  has changed it since. -/
  stored : ∀ use earlier key entry, use :: earlier <:+ uses → use.found.get? key = some entry →
    Stored use.group key entry earlier

namespace HandedOn

variable {number : Nat} {uses : List (Use Key Entry)} {group : Nat} {bag : Bag Key Entry}

/-- The bag of a group has the number of the group, unless a call changed the number. -/
theorem number_eq (h : HandedOn number uses) (hbag : bagOf group uses = some bag)
    (hkept : ∀ use ∈ uses, use.group = group → use.left.number = use.found.number) :
    bag.number = group := by
  -- The group's own calls keep the number, and the others do not touch the bag.
  induction h generalizing bag with
  | start => cases hbag
  | @proposed number use uses count _ hact hempty ih =>
      by_cases hgroup : use.group = group
      · rw [bagOf_cons_self hgroup] at hbag
        cases hbag
        rw [hkept use List.mem_cons_self hgroup, hempty, ← hgroup, Use.group_of_proposed hact]
        rfl
      · rw [bagOf_cons_of_ne hgroup] at hbag
        exact ih hbag fun other hmem => hkept other (List.mem_cons_of_mem _ hmem)
  | @called number use uses tag _ htag _ hfound ih =>
      have hkept' : ∀ other ∈ uses, other.group = group → other.left.number = other.found.number :=
        fun other hmem => hkept other (List.mem_cons_of_mem _ hmem)
      by_cases hgroup : use.group = group
      · rw [bagOf_cons_self hgroup] at hbag
        cases hbag
        rw [← Use.group_of_tag htag, hgroup] at hfound
        exact (hkept use List.mem_cons_self hgroup).trans (ih hfound hkept')
      · rw [bagOf_cons_of_ne hgroup] at hbag
        exact ih hbag hkept'

variable [DecidableEq Key] {key : Key} {entry : Entry key}

/-- An entry stays in the bag of the group, whatever the other groups do. -/
theorem get?_stays {before : Use Key Entry} {between rest : List (Use Key Entry)}
    (h : HandedOn number (between ++ before :: rest))
    (hkept : ∀ other ∈ between, other.group = before.group →
      other.left.get? key = other.found.get? key) :
    ∃ bag, bagOf before.group (between ++ before :: rest) = some bag ∧
      bag.get? key = before.left.get? key := by
  -- By induction on the calls in between: those of the group hand the entry on, and the others do not
  -- touch the bag.
  induction between generalizing number with
  | nil => exact ⟨before.left, bagOf_cons_self rfl, rfl⟩
  | cons other between ih =>
      rw [List.cons_append] at h ⊢
      rcases h.suffix (List.suffix_cons _ _) with ⟨_, hearlier⟩
      rcases ih hearlier fun other hmem => hkept other (List.mem_cons_of_mem _ hmem) with
        ⟨bag, hbag, hget⟩
      by_cases hgroup : other.group = before.group
      · have hfound := h.bagOf_eq_found (List.mem_append_right _ List.mem_cons_self) hgroup.symm
        rw [hgroup, hbag] at hfound
        obtain rfl : bag = other.found := Option.some.inj hfound
        exact ⟨other.left, bagOf_cons_self hgroup, (hkept other List.mem_cons_self hgroup).trans hget⟩
      · exact ⟨bag, (bagOf_cons_of_ne hgroup).trans hbag, hget⟩

/-- An entry in the bag of a group was stored by a call of the group. -/
theorem exists_stored (h : HandedOn number uses) (hbag : bagOf group uses = some bag)
    (hentry : bag.get? key = some entry) : Stored group key entry uses := by
  induction h generalizing bag with
  | start => cases hbag
  | @proposed number use uses count _ hact hempty ih =>
      by_cases hgroup : use.group = group
      · rw [bagOf_cons_self hgroup] at hbag
        cases hbag
        refine .here hgroup ?_ hentry
        rw [hempty]
        exact nofun
      · rw [bagOf_cons_of_ne hgroup] at hbag
        exact (ih hbag hentry).cons fun hsame => absurd hsame hgroup
  | @called number use uses tag _ htag _ hfound ih =>
      by_cases hgroup : use.group = group
      · rw [bagOf_cons_self hgroup] at hbag
        cases hbag
        rw [← Use.group_of_tag htag, hgroup] at hfound
        -- Either the call found the entry, or it is the one that stored it.
        by_cases hhad : use.found.get? key = some entry
        · exact (ih hfound hhad).cons fun _ => ⟨hhad, hentry⟩
        · exact .here hgroup hhad hentry
      · rw [bagOf_cons_of_ne hgroup] at hbag
        exact (ih hbag hentry).cons fun hsame => absurd hsame hgroup

/-- Bags that are handed on within their groups are isolated. -/
theorem isolated (h : HandedOn number uses) : Isolated uses where
  fresh use earlier group count hsuffix hact := by
    rcases h.suffix hsuffix with ⟨_, hcall⟩
    rcases hcall.opens hact with ⟨hfound, hearlier⟩
    exact ⟨hfound, hearlier.group_lt⟩
  shared use earlier tag hsuffix htag := by
    rcases h.suffix hsuffix with ⟨_, hcall⟩
    rcases hcall.joins htag with ⟨hproposed, hbag⟩
    exact ⟨hproposed, bagOf_eq_some hbag⟩
  numbered use earlier hsuffix hkept := by
    rcases h.suffix hsuffix with ⟨_, hcall⟩
    cases hcall with
    | proposed _ hact hempty =>
        rw [hempty, Use.group_of_proposed hact]
        rfl
    | called hearlier htag _ hbag =>
        rw [← Use.group_of_tag htag] at hbag
        exact hearlier.number_eq hbag hkept
  visible use between before rest key hsuffix hgroup hkept := by
    rcases h.suffix hsuffix with ⟨_, hcall⟩
    rcases hcall.suffix (List.suffix_cons _ _) with ⟨_, hearlier⟩
    rcases hearlier.get?_stays hkept with ⟨bag, hbag, hget⟩
    have hfound := hcall.bagOf_eq_found (List.mem_append_right _ List.mem_cons_self) hgroup.symm
    rw [hgroup, hbag] at hfound
    exact Option.some.inj hfound ▸ hget
  stored use earlier key entry hsuffix hentry := by
    rcases h.suffix hsuffix with ⟨_, hcall⟩
    cases hcall with
    | proposed _ _ hempty =>
        rw [hempty] at hentry
        cases hentry
    | called hearlier htag _ hbag =>
        rw [← Use.group_of_tag htag] at hbag
        exact hearlier.exists_stored hbag hentry

end HandedOn

end FeatureTree
