import FeatureTree.Proofs.Reading.Logged

/-!
# Recursion — reading by recursive descent

The same reading without a machine: `Recursion.offer` offers the current character to candidates and
runs the one that claims it, `Recursion.resume` runs a feature from an offset on, and the stack is the
nesting of their calls.  How many features may still become active is an argument that each nested call
lowers by one.

`read_recursion` says that the machine makes the same calls in the same order and ends with the same
tree or the same error, for every grammar, text and limit.
-/

namespace FeatureTree
namespace Reading

variable {D F K V Key W : Type} {Entry : Key → Type}

/-- What a reading builds and shares, without any control. -/
structure Desk (K V W : Type) where
  tree : Tree K V
  world : W
  /-- Number of bags given out so far. -/
  bags : Nat

namespace Recursion

/-- A part of a reading, which keeps what it built when it fails. -/
abbrev Talk (K V W α : Type) : Type := EStateM Error (Desk K V W) α

theorem run_get (s : Desk K V W) : (get : Talk K V W _) s = .ok s s := rfl

/-- How nested candidates are offered a character: those of a dispatch rule, under a node, at an offset.
The answer is the offset at which reading goes on, which lies behind. -/
abbrev Region (D K V W : Type) : Type :=
  D → NodeId → (offset : Nat) → Char → Talk K V W { next : Nat // offset < next }

section Definitions

variable (g : Grammar D F K V Entry W) (text : SourceText)

def propose (rule : D) (ancestor : NodeId) (offset : Nat) :
    Talk K V W (List F × Bag Key Entry) := fun s =>
  let (features, bag, world) :=
    g.dispatch rule ⟨text, ancestor, offset⟩ ⟨s.tree, Bag.empty s.bags, s.world⟩
  .ok (features, bag) { s with world, bags := s.bags + 1 }

def ask (feature : F) (ancestor : NodeId) (bag : Bag Key Entry) (offset : Nat) (c : Char) :
    Talk K V W (Frame F Entry × Step (Redirect D)) := fun s =>
  match g.handle feature ⟨text, ancestor, offset⟩ c ⟨s.tree, bag, s.world⟩ with
  | .ok (feature, step) t =>
      .ok (⟨feature, ancestor, t.bag⟩, step) { s with tree := t.tree, world := t.world }
  | .error e t => .error e { s with tree := t.tree, world := t.world }

def finish (frame : Frame F Entry) (offset : Nat) : Talk K V W Unit := fun s =>
  match g.exit frame.feature ⟨text, frame.ancestor, offset⟩ ⟨s.tree, frame.bag, s.world⟩ with
  | .ok _ t => .ok () { s with tree := t.tree, world := t.world }
  | .error e t => .error e { s with tree := t.tree, world := t.world }

/-- Offers the character to the candidates that a redirection leads to. -/
def detour (region : Region D K V W) (target : Redirect D) (ancestor : NodeId) (offset : Nat)
    (c : Char) : Talk K V W { next : Nat // offset < next } := do
  let node := target.ancestor.getD ancestor
  if (← get).tree.contains node then region target.dispatch node offset c
  else throw (.violation (.invalidRedirect (.ancestor node)))

/-- Runs an active feature from an offset on, up to the offset that it leaves to others. -/
def resume (region : Region D K V W) (frame : Frame F Entry) (offset : Nat) :
    Talk K V W { next : Nat // offset ≤ next } :=
  match _ : text.char? offset with
  | none => do
      finish g text frame offset
      return ⟨offset, Nat.le_refl offset⟩
  | some c => do
      let (frame, step) ← ask g text frame.feature frame.ancestor frame.bag offset c
      match step with
      | .proceed => do
          let next ← resume region frame (offset + 1)
          return ⟨next.1, Nat.le_of_succ_le next.2⟩
      | .decline => do
          finish g text frame offset
          return ⟨offset, Nat.le_refl offset⟩
      | .redirect target => do
          let behind ← detour region target frame.ancestor offset c
          let next ← resume region frame behind.1
          return ⟨next.1, Nat.le_trans (Nat.le_of_lt behind.2) next.2⟩
termination_by text.length - offset
decreasing_by
  all_goals have hlt := (Array.getElem?_eq_some_iff.1 ‹text.char? offset = some _›).1
  · exact Nat.sub_succ_lt_self _ _ hlt
  · exact Nat.sub_lt_sub_left hlt behind.2

/-- Offers a character to candidates in order, and runs the first that claims it.  Without a way to go
deeper, a claim is one too many. -/
def offerEach (limit : Nat) (deeper : Option (Region D K V W)) (ancestor : NodeId) (offset : Nat)
    (c : Char) : List F → Bag Key Entry → Talk K V W { next : Nat // offset < next }
  | [], _ => return ⟨offset + 1, Nat.lt_succ_self offset⟩
  | feature :: rest, bag => do
      let (frame, step) ← ask g text feature ancestor bag offset c
      match step, deeper with
      | .decline, _ => offerEach limit deeper ancestor offset c rest frame.bag
      | _, none => throw (.violation (.depthExceeded limit))
      | .proceed, some region => do
          let next ← resume g text region frame (offset + 1)
          return ⟨next.1, next.2⟩
      | .redirect target, some region => do
          let behind ← detour region target ancestor offset c
          let next ← resume g text region frame behind.1
          return ⟨next.1, Nat.lt_of_lt_of_le behind.2 next.2⟩

/-- Offers a character to the candidates of a dispatch rule, with room for that many features. -/
def offer (limit : Nat) : Nat → Region D K V W
  | 0 => fun rule ancestor offset c => do
      let (features, bag) ← propose g text rule ancestor offset
      offerEach g text limit none ancestor offset c features bag
  | room + 1 => fun rule ancestor offset c => do
      let (features, bag) ← propose g text rule ancestor offset
      offerEach g text limit (some (offer limit room)) ancestor offset c features bag

/-- Reads from an offset to the end of the text, with the start rule at each offset where nothing is
active. -/
def readFrom (limit : Nat) (start : D) (offset : Nat) : Talk K V W Unit :=
  match _ : text.char? offset with
  | none => return ()
  | some c => do
      let next ← offer g text limit limit start Tree.root offset c
      readFrom limit start next.1
termination_by text.length - offset
decreasing_by
  have hlt := (Array.getElem?_eq_some_iff.1 ‹text.char? offset = some _›).1
  exact Nat.sub_lt_sub_left hlt next.2

/-- Reads the whole text, with what was built and shared at the end or up to the failure. -/
def read (start : D) (root : Node K V) (world : W) (limits : Limits) :
    Except Error Unit × Desk K V W :=
  match readFrom g text limits.maxDepth start 0 ⟨Tree.singleton root, world, 0⟩ with
  | .ok _ s => (.ok (), s)
  | .error e s => (.error e, s)

end Definitions

section Equations

variable {g : Grammar D F K V Entry W} {text : SourceText} {region : Region D K V W}
variable {frame : Frame F Entry} {offset : Nat} {c : Char} {limit : Nat} {start : D}

theorem resume_of_end (hend : text.char? offset = none) :
    resume g text region frame offset = (do
      finish g text frame offset
      return ⟨offset, Nat.le_refl offset⟩) := by
  rw [resume]
  split
  · rfl
  · next hc => simp [hend] at hc

theorem resume_of_char (hc : text.char? offset = some c) :
    resume g text region frame offset = (do
      let (frame, step) ← ask g text frame.feature frame.ancestor frame.bag offset c
      match step with
      | .proceed => do
          let next ← resume g text region frame (offset + 1)
          return ⟨next.1, Nat.le_of_succ_le next.2⟩
      | .decline => do
          finish g text frame offset
          return ⟨offset, Nat.le_refl offset⟩
      | .redirect target => do
          let behind ← detour region target frame.ancestor offset c
          let next ← resume g text region frame behind.1
          return ⟨next.1, Nat.le_trans (Nat.le_of_lt behind.2) next.2⟩) := by
  rw [resume]
  split
  · next hend => simp [hc] at hend
  · next other hother =>
      obtain rfl : c = other := Option.some.inj (hc.symm.trans hother)
      rfl

theorem readFrom_of_end (hend : text.char? offset = none) :
    readFrom g text limit start offset = return () := by
  rw [readFrom]
  split
  · rfl
  · next hc => simp [hend] at hc

theorem readFrom_of_char (hc : text.char? offset = some c) :
    readFrom g text limit start offset = (do
      let next ← offer g text limit limit start Tree.root offset c
      readFrom g text limit start next.1) := by
  rw [readFrom]
  split
  · next hend => simp [hc] at hend
  · next other hother =>
      obtain rfl : c = other := Option.some.inj (hc.symm.trans hother)
      rfl

end Equations

/-! ## The machine does the same -/

open Machine

section Simulation

variable {g : Grammar D F K V Entry W} {text : SourceText} {start : D} {limit : Nat}
variable {m : Machine F K V Entry W} {s : Desk K V W} {offset : Nat} {c : Char}

/-- What the machine has built, without its control. -/
def deskOf (m : Machine F K V Entry W) : Desk K V W := ⟨m.tree, m.world, m.bags⟩

/-- The machine stands at an offset, above the given frames, and nothing waits. -/
structure Stands (limit : Nat) (m : Machine F K V Entry W) (s : Desk K V W)
    (frames : List (FrameId × Frame F Entry)) (offset : Nat) : Prop where
  desk : deskOf m = s
  frames_eq : m.stack.frames = frames
  maxDepth : m.stack.maxDepth = limit
  offset_eq : m.offset = offset
  idle : m.waiting = none

/-- A run does the same as a part of the reading: it goes on from where the part ends, above the given
frames, or it fails with the same error. -/
def Matches (g : Grammar D F K V Entry W) (text : SourceText) (start : D) (limit : Nat)
    (frames : List (FrameId × Frame F Entry))
    (result : EStateM.Result Error (Machine F K V Entry W) Unit) {p : Nat → Prop} :
    EStateM.Result Error (Desk K V W) { next : Nat // p next } → Prop
  | .ok next s => ∃ m, Stands limit m s frames next.1 ∧ result = m.run g text start
  | .error e s => ∃ m, deskOf m = s ∧ result = .error e m

variable {frames rest : List (FrameId × Frame F Entry)} {id : FrameId} {frame : Frame F Entry}
variable {result : EStateM.Result Error (Machine F K V Entry W) Unit}

/-- Parts of the reading, one after the other. -/
theorem Matches.bind {p q : Nat → Prop} {x : Talk K V W { next : Nat // p next }}
    {k : { next : Nat // p next } → Talk K V W { next : Nat // q next }}
    (hx : Matches g text start limit frames result (x s))
    (hk : ∀ next m s', Stands limit m s' frames next.1 →
      Matches g text start limit rest (m.run g text start) (k next s')) :
    Matches g text start limit rest result ((x >>= k) s) := by
  simp only [Bind.bind, EStateM.bind]
  rcases hresult : x s with ⟨next, s'⟩ | ⟨e, s'⟩
  · rw [hresult] at hx
    rcases hx with ⟨m, hstands, rfl⟩
    exact hk next m s' hstands
  · rw [hresult] at hx
    exact hx

theorem Stands.matches (h : Stands limit m s frames offset) {p : Nat → Prop} (hp : p offset) :
    Matches g text start limit frames (m.run g text start)
      ((pure ⟨offset, hp⟩ : Talk K V W { next : Nat // p next }) s) :=
  ⟨m, h, rfl⟩

/-! ### Calls -/

theorem Stands.ask (h : Stands limit m s frames offset) (g : Grammar D F K V Entry W)
    (text : SourceText) (feature : F) (ancestor : NodeId) (bag : Bag Key Entry) (c : Char) :
    (∃ answer m' s', Machine.ask g text feature ancestor bag c m = .ok answer m' ∧
      Recursion.ask g text feature ancestor bag offset c s = .ok answer s' ∧
        Stands limit m' s' frames offset) ∨
    ∃ e m', Machine.ask g text feature ancestor bag c m = .error e m' ∧
      Recursion.ask g text feature ancestor bag offset c s = .error e (deskOf m') := by
  obtain ⟨tree, world, stack, waiting, offset, bags⟩ := m
  obtain ⟨rfl, rfl, rfl, rfl, rfl⟩ := h
  simp only [Machine.ask, Recursion.ask, deskOf]
  rcases g.handle feature ⟨text, ancestor, offset⟩ c ⟨tree, bag, world⟩ with
    ⟨⟨feature, step⟩, t⟩ | ⟨e, t⟩
  · exact .inl ⟨_, _, _, rfl, rfl, ⟨rfl, rfl, rfl, rfl, rfl⟩⟩
  · exact .inr ⟨_, _, rfl, rfl⟩

/-- The innermost feature leaves and finishes. -/
theorem Stands.finish (h : Stands limit m s ((id, frame) :: rest) offset)
    (g : Grammar D F K V Entry W) (text : SourceText) :
    (∃ m' s', releaseTop g text m = .ok () m' ∧ Recursion.finish g text frame offset s = .ok () s' ∧
      Stands limit m' s' rest offset) ∨
    ∃ e m', releaseTop g text m = .error e m' ∧
      Recursion.finish g text frame offset s = .error e (deskOf m') := by
  obtain ⟨tree, world, ⟨frames, pushed, maxDepth⟩, waiting, offset, bags⟩ := m
  obtain ⟨rfl, hframes, rfl, rfl, rfl⟩ := h
  obtain rfl : frames = (id, frame) :: rest := hframes
  simp only [releaseTop, Stack.pop?, Recursion.finish, deskOf]
  rcases g.exit frame.feature ⟨text, frame.ancestor, offset⟩ ⟨tree, frame.bag, world⟩ with
    ⟨_, t⟩ | ⟨e, t⟩
  · exact .inl ⟨_, _, rfl, rfl, ⟨rfl, rfl, rfl, rfl, rfl⟩⟩
  · exact .inr ⟨_, _, rfl, rfl⟩

/-- The state in which the candidates of a dispatch rule wait. -/
def proposed (g : Grammar D F K V Entry W) (text : SourceText) (rule : D) (node : NodeId)
    (m : Machine F K V Entry W) : Machine F K V Entry W :=
  { (m.propose g text rule node).2 with waiting := some (m.propose g text rule node).1 }

/-- Calls that offer a character do what the machine does with candidates that wait, when there is room
for that many more features. -/
def Serves (g : Grammar D F K V Entry W) (text : SourceText) (start : D) (limit room : Nat)
    (region : Region D K V W) : Prop :=
  ∀ frames rule node offset c m s, frames.length + room = limit → text.char? offset = some c →
    Stands limit m s frames offset →
      Matches g text start limit frames ((proposed g text rule node m).run g text start)
        (region rule node offset c s)

theorem Serves.detour {room : Nat} {region : Region D K V W}
    (hregion : Serves g text start limit room region) (h : Stands limit m s frames offset)
    (hroom : frames.length + room = limit) (hc : text.char? offset = some c) (target : Redirect D)
    (ancestor : NodeId) :
    Matches g text start limit frames (goOn g text start (redirect g text target ancestor m))
      (detour region target ancestor offset c s) := by
  have htree : m.tree = s.tree := congrArg Desk.tree h.desk
  simp only [redirect, Recursion.detour, Bind.bind, EStateM.bind, run_get, htree]
  by_cases hknown : s.tree.contains (target.ancestor.getD ancestor) = true
  · rw [if_pos hknown, if_pos hknown]
    exact hregion frames _ _ offset c m s hroom hc h
  · rw [if_neg hknown, if_neg hknown]
    exact ⟨m, h.desk, rfl⟩

/-! ### Features -/

/-- The machine with the innermost feature changed. -/
theorem Stands.setTop (h : Stands limit m s ((id, frame) :: rest) offset) (next : Frame F Entry) :
    Stands limit { m with stack := m.stack.setTop next } s ((id, next) :: rest) offset := by
  obtain ⟨tree, world, ⟨frames, pushed, maxDepth⟩, waiting, offset, bags⟩ := m
  obtain ⟨rfl, hframes, rfl, rfl, rfl⟩ := h
  obtain rfl : frames = (id, frame) :: rest := hframes
  exact ⟨rfl, rfl, rfl, rfl, rfl⟩

theorem Stands.skip (h : Stands limit m s frames offset) :
    Stands limit { m with offset := m.offset + 1 } s frames (offset + 1) :=
  ⟨h.desk, h.frames_eq, h.maxDepth, congrArg (· + 1) h.offset_eq, h.idle⟩

theorem resume_matches {room : Nat} {region : Region D K V W}
    (hregion : Serves g text start limit room region) (hroom : rest.length + 1 + room = limit) :
    Stands limit m s ((id, frame) :: rest) offset →
      Matches g text start limit rest (m.run g text start) (resume g text region frame offset s) := by
  -- By induction on the characters that are left.
  induction hleft : text.length - offset using Nat.strongRecOn generalizing m s frame offset with
  | ind left ih =>
      intro h
      rcases hc : text.char? offset with _ | c
      · -- At the end of the text the feature leaves, and the frames below it follow.
        have hrun : ∀ {m : Machine F K V Entry W} {s : Desk K V W} {frames},
            Stands limit m s frames offset → m.run g text start = releaseEach g text frames m := by
          intro m s frames h
          rw [run_of_end (h.offset_eq ▸ hc), releaseAll, h.frames_eq]
        rw [resume_of_end hc, hrun h, releaseEach]
        simp only [bind, EStateM.bind]
        rcases h.finish g text with ⟨m', s', hrelease, hfinish, hstands⟩ | ⟨e, m', hrelease, hfinish⟩
        · rw [hrelease, hfinish]
          exact ⟨m', hstands, (hrun hstands).symm⟩
        · rw [hrelease, hfinish]
          exact ⟨m', rfl, rfl⟩
      · have hlt : offset < text.length := (Array.getElem?_eq_some_iff.1 hc).1
        have htop : m.stack.top? = some frame := Stack.top?_of_cons h.frames_eq
        rw [resume_of_char hc, run_of_char (h.offset_eq ▸ hc),
          advance_eq_stepTop h.idle h.frames_eq]
        simp only [stepTop, htop]
        simp only [bind, EStateM.bind]
        rcases h.ask g text frame.feature frame.ancestor frame.bag c with
          ⟨⟨next, step⟩, m₁, s₁, hask, hcall, h₁⟩ | ⟨e, m', hask, hcall⟩
        · rw [hask, hcall]
          have h₂ := h₁.setTop next
          cases step with
          | proceed =>
              refine Matches.bind (ih _ (by omega) rfl h₂.skip) ?_
              intro last m s hstands
              exact hstands.matches _
          | decline =>
              simp only [follow, EStateM.bind]
              rcases h₂.finish g text with
                ⟨m', s', hrelease, hfinish, hstands⟩ | ⟨e, m', hrelease, hfinish⟩
              · rw [hrelease, hfinish]
                exact hstands.matches _
              · rw [hrelease, hfinish]
                exact ⟨m', rfl, rfl⟩
          | redirect target =>
              refine Matches.bind (hregion.detour h₂ (by simpa using hroom) hc target next.ancestor) ?_
              intro behind m s hstands
              refine Matches.bind (ih _ (by have := behind.2; omega) rfl hstands) ?_
              intro last m s hstands
              exact hstands.matches _
        · rw [hask, hcall]
          exact ⟨m', rfl, rfl⟩

/-! ### Candidates -/

/-- A candidate that claims becomes the innermost feature. -/
theorem Stands.push (h : Stands limit m s frames offset) (hroom : frames.length < limit)
    (frame : Frame F Entry) : ∃ m', Machine.push frame m = .ok () m' ∧
      Stands limit m' s ((m.stack.pushed, frame) :: frames) offset := by
  obtain ⟨tree, world, ⟨entries, pushed, maxDepth⟩, waiting, offset, bags⟩ := m
  obtain ⟨rfl, hframes, rfl, rfl, rfl⟩ := h
  obtain rfl : entries = frames := hframes
  have hpush : ¬ maxDepth ≤ entries.length := Nat.not_le_of_lt hroom
  simp only [Machine.push, Stack.push, Stack.depth, hpush, if_false]
  exact ⟨_, rfl, ⟨rfl, rfl, rfl, rfl, rfl⟩⟩

theorem Stands.push_full (h : Stands limit m s frames offset) (hfull : frames.length = limit)
    (frame : Frame F Entry) :
    Machine.push frame m = .error (.violation (.depthExceeded limit)) m := by
  simp [Machine.push, Stack.push, Stack.depth, h.frames_eq, h.maxDepth, hfull]

/-- What is needed to run a feature that becomes active: room for it, and calls that serve the room
that is left. -/
def Deepens (g : Grammar D F K V Entry W) (text : SourceText) (start : D) (limit depth : Nat) :
    Option (Region D K V W) → Prop
  | none => depth = limit
  | some region => ∃ room, depth + 1 + room = limit ∧ Serves g text start limit room region

section Offers

variable {feature : F} {features : List F} {ancestor : NodeId} {bag : Bag Key Entry}
variable {step : Step (Redirect D)} {m₁ m₂ : Machine F K V Entry W} {e : Error}

theorem offer_of_decline
    (hask : Machine.ask g text feature ancestor bag c m = .ok (frame, .decline) m₁) :
    Machine.offer g text c ancestor (feature :: features) bag m =
      Machine.offer g text c ancestor features frame.bag m₁ := by
  simp only [Machine.offer, Bind.bind, EStateM.bind, hask]
  rfl

theorem offer_of_claim (hask : Machine.ask g text feature ancestor bag c m = .ok (frame, step) m₁)
    (hclaims : step.claims = true) (hpush : Machine.push frame m₁ = .ok () m₂) :
    Machine.offer g text c ancestor (feature :: features) bag m = follow g text step ancestor m₂ := by
  simp only [Machine.offer, Bind.bind, EStateM.bind, hask, hclaims, if_true, hpush]

theorem offer_of_overflow (hask : Machine.ask g text feature ancestor bag c m = .ok (frame, step) m₁)
    (hclaims : step.claims = true) (hpush : Machine.push frame m₁ = .error e m₂) :
    Machine.offer g text c ancestor (feature :: features) bag m = .error e m₂ := by
  simp only [Machine.offer, Bind.bind, EStateM.bind, hask, hclaims, if_true, hpush]

theorem offer_of_error (hask : Machine.ask g text feature ancestor bag c m = .error e m₁) :
    Machine.offer g text c ancestor (feature :: features) bag m = .error e m₁ := by
  simp only [Machine.offer, Bind.bind, EStateM.bind, hask]

end Offers

theorem offerEach_matches (deeper : Option (Region D K V W)) {ancestor : NodeId} {features : List F}
    {bag : Bag Key Entry} (hdeeper : Deepens g text start limit frames.length deeper)
    (hc : text.char? offset = some c) :
    Stands limit m s frames offset →
      Matches g text start limit frames
        (goOn g text start (Machine.offer g text c ancestor features bag m))
        (offerEach g text limit deeper ancestor offset c features bag s) := by
  -- By induction on the candidates; when all decline, the character is skipped.
  induction features generalizing m s bag with
  | nil => exact fun h => h.skip.matches _
  | cons feature features ih =>
      intro h
      simp only [offerEach, bind, EStateM.bind]
      rcases h.ask g text feature ancestor bag c with
        ⟨⟨frame, step⟩, m₁, s₁, hask, hcall, h₁⟩ | ⟨e, m', hask, hcall⟩
      · rw [hcall]
        cases step with
        | decline =>
            rw [offer_of_decline hask]
            exact ih h₁
        | proceed =>
            rcases deeper with _ | region
            · rw [offer_of_overflow hask rfl (h₁.push_full hdeeper frame)]
              exact ⟨m₁, h₁.desk, rfl⟩
            · rcases hdeeper with ⟨room, hroom, hserves⟩
              rcases h₁.push (by omega) frame with ⟨m₂, hpush, h₂⟩
              rw [offer_of_claim hask rfl hpush]
              refine Matches.bind (resume_matches hserves hroom h₂.skip) ?_
              intro last m s hstands
              exact hstands.matches _
        | redirect target =>
            rcases deeper with _ | region
            · rw [offer_of_overflow hask rfl (h₁.push_full hdeeper frame)]
              exact ⟨m₁, h₁.desk, rfl⟩
            · rcases hdeeper with ⟨room, hroom, hserves⟩
              rcases h₁.push (by omega) frame with ⟨m₂, hpush, h₂⟩
              rw [offer_of_claim hask rfl hpush]
              refine Matches.bind (hserves.detour h₂ (by simpa using hroom) hc target ancestor) ?_
              intro behind m s hstands
              refine Matches.bind (resume_matches hserves hroom hstands) ?_
              intro last m s hstands
              exact hstands.matches _
      · rw [hcall, offer_of_error hask]
        exact ⟨m', rfl, rfl⟩

/-- The dispatch rule is called. -/
theorem Stands.propose (h : Stands limit m s frames offset) (g : Grammar D F K V Entry W)
    (text : SourceText) (rule : D) (node : NodeId) : ∃ s',
      Recursion.propose g text rule node offset s =
        .ok ((m.propose g text rule node).1.features, (m.propose g text rule node).1.bag) s' ∧
      Stands limit { (m.propose g text rule node).2 with waiting := none } s' frames offset := by
  obtain ⟨tree, world, stack, waiting, offset, bags⟩ := m
  obtain ⟨rfl, rfl, rfl, rfl, rfl⟩ := h
  exact ⟨_, rfl, ⟨rfl, rfl, rfl, rfl, rfl⟩⟩

/-- Candidates are proposed and asked at once. -/
theorem offerGroup_matches {room : Nat} (hroom : frames.length + room = limit)
    (hc : text.char? offset = some c) (rule : D) (node : NodeId)
    (h : Stands limit m s frames offset) :
    Matches g text start limit frames
      (goOn g text start
        (offerGroup g text c (m.propose g text rule node).1 (m.propose g text rule node).2))
      (offer g text limit room rule node offset c s) := by
  -- By induction on the room: below an active feature there is room for one less.
  induction room generalizing m s frames offset c rule node with
  | zero =>
      rcases h.propose g text rule node with ⟨s', hpropose, h'⟩
      simp only [offer, bind, EStateM.bind, hpropose]
      exact offerEach_matches none (by simpa [Deepens] using hroom) hc h'
  | succ room ih =>
      rcases h.propose g text rule node with ⟨s', hpropose, h'⟩
      have hserves : Serves g text start limit room (offer g text limit room) := by
        intro frames rule node offset c m s hroom hc h
        have hround : (proposed g text rule node m).run g text start =
            goOn g text start (offerGroup g text c (m.propose g text rule node).1
              (m.propose g text rule node).2) := run_of_char (h.offset_eq ▸ hc)
        rw [hround]
        exact ih hroom hc rule node h
      simp only [offer, bind, EStateM.bind, hpropose]
      exact offerEach_matches (some _) ⟨room, by omega, hserves⟩ hc h'

/-! ### The whole text -/

variable (g text start) in
/-- The run of a machine on which nothing is active is the rest of the reading. -/
theorem run_eq_readFrom :
    Stands limit m s [] offset →
      match readFrom g text limit start offset s with
      | .ok _ s' => ∃ m', m.run g text start = .ok () m' ∧ deskOf m' = s'
      | .error e s' => ∃ m', m.run g text start = .error e m' ∧ deskOf m' = s' := by
  -- By induction on the characters that are left.
  induction hleft : text.length - offset using Nat.strongRecOn generalizing m s offset with
  | ind left ih =>
      intro h
      rcases hc : text.char? offset with _ | c
      · rw [readFrom_of_end hc, run_of_end (h.offset_eq ▸ hc), releaseAll, h.frames_eq]
        exact ⟨m, rfl, h.desk⟩
      · have hlt : offset < text.length := (Array.getElem?_eq_some_iff.1 hc).1
        have hempty : m.stack.isEmpty = true := Stack.isEmpty_of_nil h.frames_eq
        have hround : m.run g text start =
            goOn g text start (offerGroup g text c (m.propose g text start Tree.root).1
              (m.propose g text start Tree.root).2) := by
          rw [run_of_char (h.offset_eq ▸ hc)]
          simp only [advance, h.idle, hempty, if_true]
        have hoffer : Matches g text start limit [] _
            (offer g text limit limit start Tree.root offset c s) :=
          offerGroup_matches (by simp) hc start Tree.root h
        rw [readFrom_of_char hc, hround]
        simp only [bind, EStateM.bind]
        rcases hresult : offer g text limit limit start Tree.root offset c s with
          ⟨behind, s'⟩ | ⟨e, s'⟩
        · rw [hresult] at hoffer
          rcases hoffer with ⟨m', hstands, hrun⟩
          rw [hrun]
          exact ih _ (by have := behind.2; omega) rfl hstands
        · rw [hresult] at hoffer
          rcases hoffer with ⟨m', hdesk, hrun⟩
          exact ⟨m', hrun, hdesk⟩

end Simulation

/-- The reader answers the same and builds the same. -/
theorem read_eq (g : Grammar D F K V Entry W) (start : D) (text : SourceText) (root : Node K V)
    (world : W) (limits : Limits) :
    let reading := (Reader.new g start text root world limits).read
    (reading.1, deskOf reading.2.machine) = Recursion.read g text start root world limits := by
  have hstands : Stands limits.maxDepth (Machine.initial root world limits : Machine F K V Entry W)
      ⟨Tree.singleton root, world, 0⟩ [] 0 := ⟨rfl, rfl, rfl, rfl, rfl⟩
  have hrun := run_eq_readFrom g text start hstands
  simp only [Reader.read, Reader.new, Recursion.read]
  rcases hresult : readFrom g text limits.maxDepth start 0 ⟨Tree.singleton root, world, 0⟩ with
    ⟨_, s⟩ | ⟨e, s⟩
  · rw [hresult] at hrun
    rcases hrun with ⟨m, hrun, hdesk⟩
    rw [hrun]
    exact Prod.ext rfl hdesk
  · rw [hresult] at hrun
    rcases hrun with ⟨m, hrun, hdesk⟩
    rw [hrun]
    exact Prod.ext rfl hdesk

end Recursion

/-- The machine reads by recursive descent.  For every grammar, text and limit the reader ends with the
same answer, the same tree and the same world as `Recursion.read`.  With a record of the calls in the
world, the record is the same too: each call, what it was given and what it answered, in the same order;
and nothing but the record depends on its being kept. -/
theorem read_recursion (g : Grammar D F K V Entry W) (start : D) (text : SourceText) (root : Node K V)
    (world : W) (limits : Limits) :
    let reading := (Reader.new g start text root world limits).read
    let recorded := (Reader.new g.logged start text root (world, []) limits).read
    (reading.1, Recursion.deskOf reading.2.machine) =
        Recursion.read g text start root world limits ∧
      (recorded.1, Recursion.deskOf recorded.2.machine) =
        Recursion.read g.logged text start root (world, []) limits ∧
      recorded.1 = reading.1 ∧ recorded.2.tree = reading.2.tree ∧
      recorded.2.machine.world.1 = reading.2.machine.world := by
  intro reading recorded
  refine ⟨Recursion.read_eq g start text root world limits,
    Recursion.read_eq g.logged start text root (world, []) limits, ?_⟩
  have himage : (Reader.new g start text root world limits).read =
      (recorded.1, recorded.2.image g.unlogged limits.maxDepth) :=
    Reader.read_image g.unlogged (r := Reader.new g.logged start text root (world, []) limits) rfl
      fun _ => Machine.fits_initial root (world, []) limits
  simp only [reading, himage]
  exact ⟨trivial, rfl, rfl⟩

end Reading
end FeatureTree
