import Reshape.Pipeline.Basic

/-!
# What pipelines are made of

Besides paths a run of a pipeline is up to the calls, the sources and the shapes in it, at any
depth: its ingredients. A `Rewiring` puts other calls and other sources in their place. It leaves
alone which shapes run on nonvalues and which fields end in a merge (`map_isAlways_rewire`,
`hasAlways_rewire`, `merge_rewire`), and the rewiring that puts everything in its own place changes
nothing (`rewire_id`).
-/

namespace Reshape

variable {ω : Type}

inductive Ingredient (ω : Type) where
  | call (call : Call ω)
  | source (source : Source ω) (fixed : Bool)
  | shape (shape : Shape (Step ω))

mutual

def Step.ingredients : Step ω → List (Ingredient ω)
  | .path _ => []
  | .shape s => shapeIngredients s
  | .op o _ => opIngredients o

def shapeIngredients : Shape (Step ω) → List (Ingredient ω)
  | ⟨fields, iterate, flip, noDefaults, always, only⟩ =>
    .shape ⟨fields, iterate, flip, noDefaults, always, only⟩ :: fieldsIngredients fields

def fieldsIngredients : List (Field (Step ω)) → List (Ingredient ω)
  | [] => []
  | ⟨_, steps, _⟩ :: rest => stepsIngredients steps ++ fieldsIngredients rest

def opIngredients : Op ω (Step ω) → List (Ingredient ω)
  | .transform call | .filter call => [.call call]
  | .value source fixed => [.source source fixed]
  | .alt ps | .concat ps => pipelinesIngredients ps
  | .apply _ steps => stepsIngredients steps
  | .lookup array key => stepsIngredients array ++ stepsIngredients key

def pipelinesIngredients : List (List (Step ω)) → List (Ingredient ω)
  | [] => []
  | p :: rest => stepsIngredients p ++ pipelinesIngredients rest

def stepsIngredients : List (Step ω) → List (Ingredient ω)
  | [] => []
  | s :: rest => s.ingredients ++ stepsIngredients rest

end

def Pipeline.ingredients (p : Pipeline ω) : List (Ingredient ω) :=
  stepsIngredients p

/-! ### Rewiring -/

/-- What to put in the place of each call and of each source. For a source it may matter whether it
is fixed, and whether it belongs to what a lookup reads. -/
structure Rewiring (ω : Type) where
  call : Call ω → Call ω := id
  source (reading fixed : Bool) (source : Source ω) : Source ω := source

section
variable (r : Rewiring ω)

mutual

def Step.rewire (reading : Bool) : Step ω → Step ω
  | .path p => .path p
  | .shape s => .shape (rewireShape reading s)
  | .op o flags => .op (rewireOp reading o) flags

def rewireShape (reading : Bool) : Shape (Step ω) → Shape (Step ω)
  | ⟨fields, iterate, flip, noDefaults, always, only⟩ =>
    ⟨rewireFields reading fields, iterate, flip, noDefaults, always, only⟩

def rewireFields (reading : Bool) : List (Field (Step ω)) → List (Field (Step ω))
  | [] => []
  | ⟨key, steps, only⟩ :: rest =>
    ⟨key, rewireSteps reading steps, only⟩ :: rewireFields reading rest

def rewireOp (reading : Bool) : Op ω (Step ω) → Op ω (Step ω)
  | .transform call => .transform (r.call call)
  | .filter call => .filter (r.call call)
  | .value source fixed => .value (r.source reading fixed source) fixed
  | .alt ps => .alt (rewirePipelines reading ps)
  | .apply name steps => .apply name (rewireSteps reading steps)
  | .lookup array key => .lookup (rewireSteps true array) (rewireSteps true key)
  | .concat ps => .concat (rewirePipelines reading ps)

def rewirePipelines (reading : Bool) : List (List (Step ω)) → List (List (Step ω))
  | [] => []
  | p :: rest => rewireSteps reading p :: rewirePipelines reading rest

def rewireSteps (reading : Bool) : List (Step ω) → List (Step ω)
  | [] => []
  | s :: rest => s.rewire reading :: rewireSteps reading rest

end

end

def Pipeline.rewire (r : Rewiring ω) (p : Pipeline ω) : Pipeline ω :=
  rewireSteps r false p

variable (r : Rewiring ω) (reading : Bool)

theorem rewireSteps_eq_map (p : List (Step ω)) :
    rewireSteps r reading p = p.map (Step.rewire r reading) := by
  induction p with
  | nil => rfl
  | cons s rest ih => rw [rewireSteps, ih, List.map_cons]

theorem mergePreference_rewire (s : Step ω) :
    (s.rewire r reading).mergePreference = s.mergePreference := by
  cases s <;> simp [Step.rewire, Step.mergePreference]

theorem merge_rewire (key : String) (steps : List (Step ω)) (only : Option Direction) :
    (Field.mk key (rewireSteps r reading steps) only).merge = (Field.mk key steps only).merge := by
  simp only [Field.merge, rewireSteps_eq_map, List.getLast?_map]
  cases steps.getLast? with
  | none => rfl
  | some s => exact mergePreference_rewire r reading s

/-! ### Shapes that run on nonvalues -/

/-- Is this a shape that runs on nonvalues? -/
def Ingredient.isAlways : Ingredient ω → Bool
  | shape sh => sh.always
  | _ => false

mutual

theorem Step.map_isAlways_rewire : ∀ (reading : Bool) (s : Step ω),
    (s.rewire r reading).ingredients.map Ingredient.isAlways =
      s.ingredients.map Ingredient.isAlways
  | _, .path _ => rfl
  | reading, .shape s => map_isAlways_rewireShape reading s
  | reading, .op o _ => map_isAlways_rewireOp reading o

theorem map_isAlways_rewireShape : ∀ (reading : Bool) (s : Shape (Step ω)),
    (shapeIngredients (rewireShape r reading s)).map Ingredient.isAlways =
      (shapeIngredients s).map Ingredient.isAlways
  | reading, ⟨fields, _, _, _, always, _⟩ =>
    congrArg (always :: ·) (map_isAlways_rewireFields reading fields)

theorem map_isAlways_rewireFields : ∀ (reading : Bool) (fs : List (Field (Step ω))),
    (fieldsIngredients (rewireFields r reading fs)).map Ingredient.isAlways =
      (fieldsIngredients fs).map Ingredient.isAlways
  | _, [] => rfl
  | reading, ⟨_, steps, _⟩ :: rest => by
    rw [rewireFields, fieldsIngredients, fieldsIngredients, List.map_append, List.map_append,
      map_isAlways_rewireSteps reading steps, map_isAlways_rewireFields reading rest]

theorem map_isAlways_rewireOp : ∀ (reading : Bool) (o : Op ω (Step ω)),
    (opIngredients (rewireOp r reading o)).map Ingredient.isAlways =
      (opIngredients o).map Ingredient.isAlways
  | _, .transform _ | _, .filter _ | _, .value _ _ => rfl
  | reading, .alt ps | reading, .concat ps => map_isAlways_rewirePipelines reading ps
  | reading, .apply _ steps => map_isAlways_rewireSteps reading steps
  | _, .lookup array key => by
    rw [rewireOp, opIngredients, opIngredients, List.map_append, List.map_append,
      map_isAlways_rewireSteps true array, map_isAlways_rewireSteps true key]

theorem map_isAlways_rewirePipelines : ∀ (reading : Bool) (ps : List (List (Step ω))),
    (pipelinesIngredients (rewirePipelines r reading ps)).map Ingredient.isAlways =
      (pipelinesIngredients ps).map Ingredient.isAlways
  | _, [] => rfl
  | reading, p :: rest => by
    rw [rewirePipelines, pipelinesIngredients, pipelinesIngredients, List.map_append,
      List.map_append, map_isAlways_rewireSteps reading p,
      map_isAlways_rewirePipelines reading rest]

theorem map_isAlways_rewireSteps : ∀ (reading : Bool) (p : List (Step ω)),
    (stepsIngredients (rewireSteps r reading p)).map Ingredient.isAlways =
      (stepsIngredients p).map Ingredient.isAlways
  | _, [] => rfl
  | reading, s :: rest => by
    rw [rewireSteps, stepsIngredients, stepsIngredients, List.map_append, List.map_append,
      Step.map_isAlways_rewire reading s, map_isAlways_rewireSteps reading rest]

end

/-- A rewired pipeline has shapes that run on nonvalues in the same places. -/
theorem map_isAlways_rewire (p : Pipeline ω) :
    (p.rewire r).ingredients.map Ingredient.isAlways = p.ingredients.map Ingredient.isAlways :=
  map_isAlways_rewireSteps r false p

mutual

theorem Step.hasAlways_rewire : ∀ s : Step ω, (s.rewire r reading).hasAlways = s.hasAlways
  | .path _ => rfl
  | .shape s => by
    rw [Step.rewire, Step.hasAlways, Step.hasAlways, shapeHasAlways_rewire]
  | .op o _ => by
    rw [Step.rewire, Step.hasAlways, Step.hasAlways, opHasAlways_rewire]

theorem shapeHasAlways_rewire : ∀ s : Shape (Step ω),
    shapeHasAlways (rewireShape r reading s) = shapeHasAlways s
  | ⟨fields, _, _, _, _, _⟩ => by
    rw [rewireShape, shapeHasAlways, shapeHasAlways, fieldsHaveAlways_rewire]

theorem fieldsHaveAlways_rewire : ∀ fs : List (Field (Step ω)),
    fieldsHaveAlways (rewireFields r reading fs) = fieldsHaveAlways fs
  | [] => rfl
  | ⟨_, steps, _⟩ :: rest => by
    rw [rewireFields, fieldsHaveAlways, fieldsHaveAlways, stepsHaveAlways_rewire,
      fieldsHaveAlways_rewire]

theorem opHasAlways_rewire : ∀ o : Op ω (Step ω),
    opHasAlways (rewireOp r reading o) = opHasAlways o
  | .transform _ | .filter _ | .value _ _ | .lookup _ _ => rfl
  | .alt ps | .concat ps => pipelinesHaveAlways_rewire ps
  | .apply _ steps => stepsHaveAlways_rewire steps

theorem pipelinesHaveAlways_rewire : ∀ ps : List (List (Step ω)),
    pipelinesHaveAlways (rewirePipelines r reading ps) = pipelinesHaveAlways ps
  | [] => rfl
  | p :: rest => by
    rw [rewirePipelines, pipelinesHaveAlways, pipelinesHaveAlways, stepsHaveAlways_rewire,
      pipelinesHaveAlways_rewire]

theorem stepsHaveAlways_rewire : ∀ p : List (Step ω),
    stepsHaveAlways (rewireSteps r reading p) = stepsHaveAlways p
  | [] => rfl
  | s :: rest => by
    rw [rewireSteps, stepsHaveAlways, stepsHaveAlways, Step.hasAlways_rewire,
      stepsHaveAlways_rewire]

end

theorem hasAlways_rewire (p : Pipeline ω) : (p.rewire r).hasAlways = p.hasAlways :=
  stepsHaveAlways_rewire r false p

/-! ### Rewiring to the same -/

mutual

theorem Step.rewire_id : ∀ (reading : Bool) (s : Step ω), s.rewire {} reading = s
  | _, .path _ => rfl
  | reading, .shape s => by rw [Step.rewire, rewireShape_id reading]
  | reading, .op o _ => by rw [Step.rewire, rewireOp_id reading]

theorem rewireShape_id : ∀ (reading : Bool) (s : Shape (Step ω)), rewireShape {} reading s = s
  | reading, ⟨fields, _, _, _, _, _⟩ => by rw [rewireShape, rewireFields_id reading]

theorem rewireFields_id : ∀ (reading : Bool) (fs : List (Field (Step ω))),
    rewireFields {} reading fs = fs
  | _, [] => rfl
  | reading, ⟨_, steps, _⟩ :: rest => by
    rw [rewireFields, rewireSteps_id reading, rewireFields_id reading]

theorem rewireOp_id : ∀ (reading : Bool) (o : Op ω (Step ω)), rewireOp {} reading o = o
  | _, .transform _ | _, .filter _ | _, .value _ _ => rfl
  | reading, .alt ps | reading, .concat ps => by rw [rewireOp, rewirePipelines_id reading]
  | reading, .apply _ steps => by rw [rewireOp, rewireSteps_id reading]
  | _, .lookup array key => by rw [rewireOp, rewireSteps_id true array, rewireSteps_id true key]

theorem rewirePipelines_id : ∀ (reading : Bool) (ps : List (List (Step ω))),
    rewirePipelines {} reading ps = ps
  | _, [] => rfl
  | reading, p :: rest => by
    rw [rewirePipelines, rewireSteps_id reading, rewirePipelines_id reading]

theorem rewireSteps_id : ∀ (reading : Bool) (p : List (Step ω)), rewireSteps {} reading p = p
  | _, [] => rfl
  | reading, s :: rest => by
    rw [rewireSteps, Step.rewire_id reading, rewireSteps_id reading]

end

theorem rewire_id (p : Pipeline ω) : p.rewire {} = p :=
  rewireSteps_id false p

end Reshape
