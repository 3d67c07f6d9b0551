import FeatureTree.Feature.Scene
import FeatureTree.Feature.Stack

/-!
# Images — results of one run seen in another

`EndsIn` says how one run ends, and composes along its parts.

Two runs are compared through a map of their states.  `Agrees` says that the second result is the image
of the first one; only a first run that was stopped, with an error of the given kind, promises nothing.
Runs in sequence agree when each part does.
-/

namespace FeatureTree

/-! ## Results -/

section Results

variable {ε σ τ α β γ δ : Type}

/-- What holds when a run ends: `Q` of its value and its state if it succeeds, and `R` of its error and
its state if it fails. -/
def EndsIn (R : ε → σ → Prop) (Q : α → σ → Prop) : EStateM.Result ε σ α → Prop
  | .ok a s => Q a s
  | .error e s => R e s

section EndsIn

variable {R : ε → σ → Prop} {Q : α → σ → Prop} {Q' : β → σ → Prop}

theorem EndsIn.imp {P : α → σ → Prop} {r : EStateM.Result ε σ α} (h : EndsIn R P r)
    (himp : ∀ a s, P a s → Q a s) : EndsIn R Q r := by
  cases r with
  | ok a s => exact himp a s h
  | error e s => exact h

/-- A sequence ends as its second part does, from any state in which the first part may end. -/
theorem EndsIn.bind {x : EStateM ε σ α} {k : α → EStateM ε σ β} {s : σ} (hx : EndsIn R Q (x s))
    (hk : ∀ a s', Q a s' → EndsIn R Q' (k a s')) : EndsIn R Q' ((x >>= k) s) := by
  simp only [Bind.bind, EStateM.bind]
  cases hresult : x s with
  | ok a s' =>
      rw [hresult] at hx
      exact hk a s' hx
  | error e s' =>
      rw [hresult] at hx
      exact hx

end EndsIn

/-- The result with its state and its value mapped. -/
def mapResult (f : σ → τ) (v : α → β) : EStateM.Result ε σ α → EStateM.Result ε τ β
  | .ok a s => .ok (v a) (f s)
  | .error e s => .error e (f s)

/-- The second result is the image of the first one, unless the first run was stopped. -/
def Agrees (stopped : ε → Prop) (f : σ → τ) (v : α → β) (r : EStateM.Result ε σ α)
    (r' : EStateM.Result ε τ β) : Prop :=
  r' = mapResult f v r ∨ ∃ e s, stopped e ∧ r = .error e s

variable {stopped : ε → Prop} {f : σ → τ} {v : α → β} {w : γ → δ}

/-- Runs in sequence agree when their first parts agree, and their second parts from there on. -/
theorem Agrees.bind {x : EStateM ε σ α} {x' : EStateM ε τ β} {k : α → EStateM ε σ γ}
    {k' : β → EStateM ε τ δ} {s : σ} (hx : Agrees stopped f v (x s) (x' (f s)))
    (hk : ∀ a s', x s = .ok a s' → Agrees stopped f w (k a s') (k' (v a) (f s'))) :
    Agrees stopped f w ((x >>= k) s) ((x' >>= k') (f s)) := by
  simp only [Bind.bind, EStateM.bind]
  rcases hx with hx | ⟨e, s', he, hs⟩
  · rw [hx]
    rcases hresult : x s with ⟨a, s'⟩ | ⟨e, s'⟩
    · exact hk a s' hresult
    · exact .inl rfl
  · rw [hs]
    exact .inr ⟨e, s', he, rfl⟩

end Results

/-! ## Scenes and stacks -/

/-- The scene with its world mapped. -/
def Scene.mapWorld {K V Key W W' : Type} {Entry : Key → Type} (f : W → W')
    (s : Scene K V Entry W) : Scene K V Entry W' where
  tree := s.tree
  bag := s.bag
  world := f s.world

namespace Stack

variable {F F' : Type}

/-- The stack with its frames mapped, under another limit. -/
def image (f : F → F') (limit : Nat) (s : Stack F) : Stack F' where
  frames := s.frames.map fun entry => (entry.1, f entry.2)
  pushed := s.pushed
  maxDepth := limit

variable (f : F → F') (limit : Nat) (s : Stack F)

@[simp] theorem depth_image : (s.image f limit).depth = s.depth := List.length_map _

@[simp] theorem isEmpty_image : (s.image f limit).isEmpty = s.isEmpty := by
  simp [image, isEmpty]

@[simp] theorem top?_image : (s.image f limit).top? = s.top?.map f := by
  rcases hframes : s.frames with _ | ⟨entry, rest⟩ <;> simp [image, top?, hframes]

theorem pop?_image :
    (s.image f limit).pop? = s.pop?.map fun found => (f found.1, found.2.image f limit) := by
  rcases hframes : s.frames with _ | ⟨⟨id, frame⟩, rest⟩ <;> simp [image, pop?, hframes]

theorem setTop_image (frame : F) :
    (s.image f limit).setTop (f frame) = (s.setTop frame).image f limit := by
  rcases hframes : s.frames with _ | ⟨⟨id, top⟩, rest⟩ <;> simp [image, setTop, hframes]

end Stack

end FeatureTree
