import FeatureTree.Proofs.Reading.Logged
import FeatureTree.Proofs.Rebuilding.Logged

/-!
# Discipline — how features leave, in both engines

An engine that keeps a record of its calls may be called any number of times.  `Reader.Keeps` and
`Rebuilder.Keeps` are what holds before each of these calls, and `Obeys` is what the call then does.
`exit_discipline` says both of both engines, and that the record changes nothing.
-/

namespace FeatureTree

/-! ## Reading -/

namespace Reading

section Endings

variable {D F K V Key W : Type} {Entry : Key → Type} {limit : Nat}
variable {m : Machine.Logged D F K V Entry W}

theorem Machine.Kept.disciplined_done (h : m.Kept limit) (hframes : m.stack.frames = []) :
    Disciplined limit .done m.tags m.acts := by
  have htags : m.tags = [] := by rw [Machine.tags, hframes]; rfl
  have hchronicle := h.chronicle
  rw [htags] at hchronicle ⊢
  exact hchronicle.disciplined_done

theorem Machine.Halted.disciplined {e : Error} (h : m.Halted limit e) :
    Disciplined limit .failed m.drop.tags m.drop.acts := by
  rcases h with ⟨ending, hhalts, -⟩
  exact hhalts.disciplined

end Endings

namespace Reader

variable {D F K V Key W : Type} {Entry : Key → Type}

/-- The reader after some calls. -/
def after (r : Reader D F K V Entry W) : Nat → Reader D F K V Entry W
  | 0 => r
  | calls + 1 => (r.after calls).read.2

/-- A reader that keeps a record. -/
abbrev Logged (D F K V : Type) {Key : Type} (Entry : Key → Type) (W : Type) : Type :=
  Reader D (Tagged F) K V Entry (Record D F K V Entry W)

/-- What one more call does. -/
inductive Obeys (limit : Nat) (r : Logged D F K V Entry W) : Prop where
  /-- After a success nothing is called, and nothing changes. -/
  | done (status : r.status = .done) (same : r.read = (.ok (), r))
  /-- After a failure the call is refused, and nothing changes. -/
  | failed (status : r.status = .failed) (same : r.read = (.error (.violation .poisoned), r))
  | succeeds (status : r.status = .ready) (m : Machine.Logged D F K V Entry W)
      (read : r.read = (.ok (), { r with machine := m, status := .done }))
  /-- The call stops at the first error, and then only drops the frames. -/
  | halts (status : r.status = .ready) (e : Error) (m : Machine.Logged D F K V Entry W)
      (halted : m.Halted limit e)
      (read : r.read = (.error e, { r with machine := m.drop, status := .failed }))

/-- What holds before each call. -/
structure Keeps (g : Grammar D F K V Entry W) (limit : Nat) (r : Logged D F K V Entry W) : Prop where
  grammar : r.grammar = g.logged
  ready : r.status = .ready → Machine.Told limit r.machine ∧ Machine.Fits limit r.machine
  record : Disciplined limit r.status r.machine.tags r.machine.acts

variable {g : Grammar D F K V Entry W} {limit : Nat} {r : Logged D F K V Entry W}

theorem keeps_new (g : Grammar D F K V Entry W) (start : D) (text : SourceText) (root : Node K V)
    (world : W) (limits : Limits) :
    Keeps g limits.maxDepth (Reader.new g.logged start text root (world, []) limits) where
  grammar := rfl
  ready _ := ⟨Machine.told_initial root world limits, Machine.fits_initial root _ limits⟩
  record := (Machine.told_initial root world limits).chronicle.disciplined_ready

theorem Keeps.read (h : Keeps g limit r) : r.Obeys limit ∧ Keeps g limit r.read.2 := by
  obtain ⟨grammar, start, text, machine, status⟩ := r
  obtain ⟨rfl, hready, hrecord⟩ := h
  cases status with
  | done => exact ⟨.done rfl rfl, rfl, hready, hrecord⟩
  | failed => exact ⟨.failed rfl rfl, rfl, hready, hrecord⟩
  | ready =>
      have hrun := (hready rfl).1.run g text start (hready rfl).2
      rcases hresult : machine.run g.logged text start with ⟨⟨⟩, m⟩ | ⟨e, m⟩
      · rw [hresult] at hrun
        rcases hrun with ⟨hkept, hframes⟩
        have hread : (⟨g.logged, start, text, machine, .ready⟩ : Logged D F K V Entry W).read =
            (.ok (), ⟨g.logged, start, text, m, .done⟩) := by simp only [Reader.read, hresult]
        refine ⟨.succeeds rfl m hread, ?_⟩
        rw [hread]
        exact ⟨rfl, (by rintro ⟨⟩), hkept.disciplined_done hframes⟩
      · rw [hresult] at hrun
        have hread : (⟨g.logged, start, text, machine, .ready⟩ : Logged D F K V Entry W).read =
            (.error e, ⟨g.logged, start, text, m.drop, .failed⟩) := by simp only [Reader.read, hresult]
        refine ⟨.halts rfl e m hrun hread, ?_⟩
        rw [hread]
        exact ⟨rfl, (by rintro ⟨⟩), Machine.Halted.disciplined hrun⟩

theorem Keeps.after (h : Keeps g limit r) (calls : Nat) : Keeps g limit (r.after calls) := by
  induction calls with
  | zero => exact h
  | succ calls ih => exact ih.read.2

/-- Without the record the reader does the same. -/
theorem Keeps.unlogged (h : Keeps g limit r) (calls : Nat) :
    (r.image g.unlogged limit).after calls = (r.after calls).image g.unlogged limit := by
  induction calls with
  | zero => rfl
  | succ calls ih =>
      have hkeeps := h.after calls
      rw [Reader.after, ih, read_image g.unlogged hkeeps.grammar fun hready => (hkeeps.ready hready).2]
      rfl

end Reader
end Reading

/-! ## Rebuilding -/

namespace Rebuilding

section Endings

variable {D F I J K V Key W : Type} {Entry : Key → Type} {limit : Nat}
variable {m : Machine.Logged D F I J K V Entry W}

theorem Machine.Kept.disciplined_done (h : m.Kept limit) (hframes : m.stack.frames = []) :
    Disciplined limit .done m.tags m.acts := by
  have htags : m.tags = [] := by rw [Machine.tags, hframes]; rfl
  have hchronicle := h.chronicle
  rw [htags] at hchronicle ⊢
  exact hchronicle.disciplined_done

theorem Machine.Halted.disciplined {source : Tree I J} {e : Error} (h : m.Halted source limit e) :
    Disciplined limit .failed m.drop.tags m.drop.acts := by
  rcases h with ⟨ending, hhalts, -⟩
  exact hhalts.disciplined

end Endings

namespace Rebuilder

variable {D F I J K V Key W : Type} {Entry : Key → Type}

/-- The rebuilder after some calls. -/
def after (r : Rebuilder D F I J K V Entry W) : Nat → Rebuilder D F I J K V Entry W
  | 0 => r
  | calls + 1 => (r.after calls).rebuild.2

/-- A rebuilder that keeps a record. -/
abbrev Logged (D F I J K V : Type) {Key : Type} (Entry : Key → Type) (W : Type) : Type :=
  Rebuilder D (Tagged F) I J K V Entry (Record D F I J K V Entry W)

/-- What one more call does. -/
inductive Obeys (limit : Nat) (r : Logged D F I J K V Entry W) : Prop where
  /-- After a success nothing is called, and nothing changes. -/
  | done (status : r.status = .done) (same : r.rebuild = (.success (), r))
  /-- After a failure the call is refused, and nothing changes. -/
  | failed (status : r.status = .failed) (same : r.rebuild = (.failure (.violation .poisoned), r))
  | succeeds (status : r.status = .ready) (m : Machine.Logged D F I J K V Entry W)
      (rebuild : r.rebuild = (.success (), { r with machine := m, status := .done }))
  /-- The call stops at the first error, and then only drops the frames. -/
  | halts (status : r.status = .ready) (e : Error) (m : Machine.Logged D F I J K V Entry W)
      (halted : m.Halted r.source limit e)
      (rebuild : r.rebuild = (.failure e, { r with machine := m.drop, status := .failed }))
  /-- The rounds are used up, and the next call goes on. -/
  | suspends (status : r.status = .ready) (m : Machine.Logged D F I J K V Entry W)
      (rebuild : r.rebuild = (.unfinished, { r with machine := m }))

/-- What holds before each call. -/
structure Keeps (g : Grammar D F I J K V Entry W) (limit : Nat) (r : Logged D F I J K V Entry W) :
    Prop where
  grammar : r.grammar = g.logged
  ready : r.status = .ready →
    Machine.Told limit r.machine ∧ Machine.Sound r.machine ∧ Machine.Fits limit r.machine
  record : Disciplined limit r.status r.machine.tags r.machine.acts

variable {g : Grammar D F I J K V Entry W} {limit : Nat} {r : Logged D F I J K V Entry W}

theorem keeps_new (g : Grammar D F I J K V Entry W) (start : D) (source : Tree I J) (rounds : Nat)
    (root : Node K V) (world : W) (limits : Limits) :
    Keeps g limits.maxDepth (Rebuilder.new g.logged start source rounds root (world, []) limits) where
  grammar := rfl
  ready _ := ⟨Machine.told_initial root world limits,
    Machine.Reachable.sound (.initial root _ limits : Machine.Reachable g.logged source start _),
    Machine.fits_initial root _ limits⟩
  record := (Machine.told_initial root world limits).chronicle.disciplined_ready

theorem Keeps.rebuild (h : Keeps g limit r) : r.Obeys limit ∧ Keeps g limit r.rebuild.2 := by
  obtain ⟨grammar, start, source, rounds, machine, status⟩ := r
  obtain ⟨rfl, hready, hrecord⟩ := h
  cases status with
  | done => exact ⟨.done rfl rfl, rfl, hready, hrecord⟩
  | failed => exact ⟨.failed rfl rfl, rfl, hready, hrecord⟩
  | ready =>
      obtain ⟨htold, hsound, hfits⟩ := hready rfl
      have hrun := htold.run g source start rounds
      rcases hresult : machine.run g.logged source start rounds with ⟨⟨⟩ | e | _, m⟩
      · rw [hresult] at hrun
        rcases hrun with ⟨htold, hframes⟩
        have hrebuild : (⟨g.logged, start, source, rounds, machine, .ready⟩ :
            Logged D F I J K V Entry W).rebuild =
              (.success (), ⟨g.logged, start, source, rounds, m, .done⟩) := by
          simp only [Rebuilder.rebuild, hresult]
        refine ⟨.succeeds rfl m hrebuild, ?_⟩
        rw [hrebuild]
        exact ⟨rfl, (by rintro ⟨⟩), htold.toKept.disciplined_done hframes⟩
      · rw [hresult] at hrun
        have hrebuild : (⟨g.logged, start, source, rounds, machine, .ready⟩ :
            Logged D F I J K V Entry W).rebuild =
              (.failure e, ⟨g.logged, start, source, rounds, m.drop, .failed⟩) := by
          simp only [Rebuilder.rebuild, hresult]
        refine ⟨.halts rfl e m hrun hrebuild, ?_⟩
        rw [hrebuild]
        exact ⟨rfl, (by rintro ⟨⟩), Machine.Halted.disciplined hrun⟩
      · -- The rounds are used up, and the state is as between two rounds.
        rw [hresult] at hrun
        have htold : Machine.Told limit m := hrun
        have hrebuild : (⟨g.logged, start, source, rounds, machine, .ready⟩ :
            Logged D F I J K V Entry W).rebuild =
              (.unfinished, ⟨g.logged, start, source, rounds, m, .ready⟩) := by
          simp only [Rebuilder.rebuild, hresult]
        refine ⟨.suspends rfl m hrebuild, ?_⟩
        rw [hrebuild]
        exact ⟨rfl, fun _ => ⟨htold, hfits.run hsound hresult⟩, htold.chronicle.disciplined_ready⟩

theorem Keeps.after (h : Keeps g limit r) (calls : Nat) : Keeps g limit (r.after calls) := by
  induction calls with
  | zero => exact h
  | succ calls ih => exact ih.rebuild.2

/-- Without the record the rebuilder does the same. -/
theorem Keeps.unlogged (h : Keeps g limit r) (calls : Nat) :
    (r.image g.unlogged limit).after calls = (r.after calls).image g.unlogged limit := by
  induction calls with
  | zero => rfl
  | succ calls ih =>
      have hkeeps := h.after calls
      rw [Rebuilder.after, ih,
        rebuild_image g.unlogged hkeeps.grammar fun hready => (hkeeps.ready hready).2]
      rfl

end Rebuilder
end Rebuilding

/-! ## Both engines -/

/-- The exits of both engines.  However often a reader or a rebuilder was called, for every grammar,
input and limit: the calls of its features are in order, so that the innermost feature finishes first,
each at most once and as the last that happens to it, and a candidate that declined is left alone; after
a success each feature that claimed an element has finished once, and no frame is left; after a failure no frame
is left, and nothing is called any more.  One more call then answers the same after a success, and is
refused after a failure, and both leave the engine as it is.  Without the record the engines do the
same. -/
theorem exit_discipline {D F K V Key W : Type} {Entry : Key → Type}
    (g : Reading.Grammar D F K V Entry W) (start : D) (text : SourceText) (root : Node K V) (world : W)
    {D' F' I J K' V' Key' W' : Type} {Entry' : Key' → Type}
    (g' : Rebuilding.Grammar D' F' I J K' V' Entry' W') (start' : D') (source : Tree I J) (rounds : Nat)
    (root' : Node K' V') (world' : W') (limits : Limits) (calls : Nat) :
    let reader := (Reading.Reader.new g.logged start text root (world, []) limits).after calls
    let rebuilder :=
      (Rebuilding.Rebuilder.new g'.logged start' source rounds root' (world', []) limits).after calls
    (Disciplined limits.maxDepth reader.status reader.machine.tags reader.machine.acts ∧
        reader.Obeys limits.maxDepth ∧
        (Reading.Reader.new g start text root world limits).after calls =
          reader.image g.unlogged limits.maxDepth) ∧
      Disciplined limits.maxDepth rebuilder.status rebuilder.machine.tags rebuilder.machine.acts ∧
        rebuilder.Obeys limits.maxDepth ∧
        (Rebuilding.Rebuilder.new g' start' source rounds root' world' limits).after calls =
          rebuilder.image g'.unlogged limits.maxDepth := by
  have hreader := Reading.Reader.keeps_new g start text root world limits
  have hrebuilder := Rebuilding.Rebuilder.keeps_new g' start' source rounds root' world' limits
  exact ⟨⟨(hreader.after calls).record, (hreader.after calls).read.1, hreader.unlogged calls⟩,
    (hrebuilder.after calls).record, (hrebuilder.after calls).rebuild.1, hrebuilder.unlogged calls⟩

end FeatureTree
