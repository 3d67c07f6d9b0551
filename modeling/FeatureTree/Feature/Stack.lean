import FeatureTree.Feature.Limits
import FeatureTree.Feature.Violation

/-!
# Stack — active features, the innermost first

Every push gets a number of its own, counted from zero and never given again, also after the frame has
gone.  Frames leave from the top only; `Stack.release` tells a frame that is still live below the
top from one that has left and from one that never was.
-/

namespace FeatureTree

/-- Number of a frame. -/
abbrev FrameId := Nat

/-- Active frames, the innermost first, the number of frames pushed so far, and the limit. -/
structure Stack (F : Type) where
  frames : List (FrameId × F)
  pushed : Nat
  maxDepth : Nat
  deriving Repr

namespace Stack

variable {F : Type}

def empty (limits : Limits) : Stack F := ⟨[], 0, limits.maxDepth⟩

def depth (s : Stack F) : Nat := s.frames.length

def isEmpty (s : Stack F) : Bool := s.frames.isEmpty

def top? (s : Stack F) : Option F := s.frames.head?.map Prod.snd

def topId? (s : Stack F) : Option FrameId := s.frames.head?.map Prod.fst

def isLive (s : Stack F) (id : FrameId) : Bool := s.frames.any fun frame => frame.1 == id

/-- Makes a frame the innermost one; its number is how many were pushed before.  It fails, and uses
up no number, when as many frames are active as the limit allows. -/
def push (s : Stack F) (frame : F) : Except Violation (Stack F) :=
  if s.maxDepth ≤ s.depth then .error (.depthExceeded s.maxDepth)
  else .ok { s with frames := (s.pushed, frame) :: s.frames, pushed := s.pushed + 1 }

/-- The innermost frame and the stack without it. -/
def pop? (s : Stack F) : Option (F × Stack F) :=
  match s.frames with
  | [] => none
  | (_, frame) :: rest => some (frame, { s with frames := rest })

/-- Takes a frame off the stack, which must be the innermost one. -/
def release (s : Stack F) (id : FrameId) : Except Violation (F × Stack F) :=
  match s.frames with
  | (top, frame) :: rest =>
      if top = id then .ok (frame, { s with frames := rest })
      else if s.isLive id then .error (.notTop id top)
      else if id < s.pushed then .error (.alreadyReleased id)
      else .error (.unknownFrame id)
  | [] =>
      if id < s.pushed then .error (.alreadyReleased id) else .error (.unknownFrame id)

/-- Stores another frame under the number of the innermost one. -/
def setTop (s : Stack F) (frame : F) : Stack F :=
  match s.frames with
  | [] => s
  | (id, _) :: rest => { s with frames := (id, frame) :: rest }

def unwind (s : Stack F) : Stack F := { s with frames := [] }

/-- Frames with their numbers, from the outermost to the innermost. -/
def toList (s : Stack F) : List (FrameId × F) := s.frames.reverse

/-! ## Stacks whose frames are known -/

section Frames

variable {s : Stack F} {id : FrameId} {top : F} {rest : List (FrameId × F)}

theorem isEmpty_of_nil (h : s.frames = []) : s.isEmpty = true := by
  rw [isEmpty, h]
  rfl

theorem isEmpty_of_cons (h : s.frames = (id, top) :: rest) : s.isEmpty = false := by
  rw [isEmpty, h]
  rfl

theorem top?_of_nil (h : s.frames = []) : s.top? = none := by
  rw [top?, h]
  rfl

theorem top?_of_cons (h : s.frames = (id, top) :: rest) : s.top? = some top := by
  rw [top?, h]
  rfl

theorem pop?_of_nil (h : s.frames = []) : s.pop? = none := by
  rw [pop?, h]

theorem pop?_of_cons (h : s.frames = (id, top) :: rest) :
    s.pop? = some (top, { s with frames := rest }) := by
  rw [pop?, h]

/-- The frame is another one, and its number stays. -/
theorem setTop_of_cons (h : s.frames = (id, top) :: rest) (frame : F) :
    s.setTop frame = { s with frames := (id, frame) :: rest } := by
  rw [setTop, h]

end Frames

theorem depth_setTop (s : Stack F) (frame : F) : (s.setTop frame).depth = s.depth := by
  unfold setTop
  split
  · rfl
  · next hframes =>
      rw [depth, depth, hframes]
      rfl

theorem maxDepth_setTop (s : Stack F) (frame : F) : (s.setTop frame).maxDepth = s.maxDepth := by
  unfold setTop
  split
  · rfl
  · rfl

/-! ## Releasing the top -/

theorem pop?_eq_release_top {s : Stack F} {id : FrameId} (h : s.topId? = some id) :
    s.release id = (match s.pop? with | some r => .ok r | none => .error (.unknownFrame id)) := by
  cases hs : s.frames with
  | nil => simp [topId?, hs] at h
  | cons frame rest =>
    have htop : frame.1 = id := by simpa [topId?, hs] using h
    simp [release, pop?, hs, htop]

theorem depth_push {s t : Stack F} {frame : F} (h : s.push frame = .ok t) :
    t.depth = s.depth + 1 ∧ s.depth < s.maxDepth ∧ t.maxDepth = s.maxDepth := by
  unfold push at h
  split at h
  · cases h
  · cases h
    refine ⟨rfl, by omega, rfl⟩

theorem depth_pop? {s t : Stack F} {frame : F} (h : s.pop? = some (frame, t)) :
    s.depth = t.depth + 1 ∧ t.maxDepth = s.maxDepth := by
  cases hs : s.frames with
  | nil => simp [pop?, hs] at h
  | cons top rest =>
    simp only [pop?, hs, Option.some.injEq, Prod.mk.injEq] at h
    obtain ⟨-, rfl⟩ := h
    exact ⟨by simp [depth, hs], rfl⟩

end Stack

end FeatureTree
