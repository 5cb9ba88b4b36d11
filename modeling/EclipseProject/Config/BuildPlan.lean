/-!
# Build plans

The steps of a build in their order, each with its targets. No two steps have one name.
-/

namespace EclipseProject

abbrev BuildStep := String × List String

structure BuildPlan where
  steps : List BuildStep
  nodup_names : (steps.map Prod.fst).Nodup
  deriving DecidableEq, Repr

namespace BuildPlan

/-- Gives the step of that name other targets, or adds it at the end. -/
def put (name : String) (targets : List String) : List BuildStep → List BuildStep
  | [] => [(name, targets)]
  | s :: ss => if s.1 = name then (name, targets) :: ss else s :: put name targets ss

theorem names_put (name : String) (targets : List String) (ss : List BuildStep) :
    (put name targets ss).map Prod.fst =
      if name ∈ ss.map Prod.fst then ss.map Prod.fst else ss.map Prod.fst ++ [name] := by
  induction ss with
  | nil => rfl
  | cons s ss ih =>
    by_cases h : s.1 = name
    · simp [put, h]
    · have h' : ¬ name = s.1 := fun e => h e.symm
      simp only [put, h, ite_false, List.map_cons, ih, List.mem_cons, h', false_or]
      split <;> rfl

theorem nodup_put (name : String) (targets : List String) {ss : List BuildStep}
    (h : (ss.map Prod.fst).Nodup) : ((put name targets ss).map Prod.fst).Nodup := by
  rw [names_put]
  split
  · exact h
  · next hn =>
    exact List.nodup_append.2 ⟨h, by simp, fun a ha b hb e => hn (List.mem_singleton.1 hb ▸ e ▸ ha)⟩

def empty : BuildPlan := ⟨[], .nil⟩

def insert (p : BuildPlan) (s : BuildStep) : BuildPlan := ⟨put s.1 s.2 p.steps, nodup_put s.1 s.2 p.nodup_names⟩

/-- Of several steps with one name the last gives the targets and the first the place. -/
def ofList (ss : List BuildStep) : BuildPlan := ss.foldl insert empty

end BuildPlan

end EclipseProject
