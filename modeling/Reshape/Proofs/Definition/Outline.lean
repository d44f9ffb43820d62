import Reshape.Definition.Compile
import Reshape.Proofs.Shape.Compiled

/-!
# Definitions of plain shapes

The definitions that have an outline: their keys and their sources are paths of names, and no key
has a meaning of its own. Each of them is compiled, and to its outline (`steps_outline`,
`keyedFields_outline`).
-/

namespace Reshape.Definition

variable {ω : Type}

/-! ### Paths of names -/

/-- The name of a step that is a plain name. -/
def name? : PathStep → Option String
  | .move (.field name) false => some name
  | _ => none

/-- The names of a path that is made of plain names. -/
def names? (path : String) : Option (List String) :=
  (Path.tokenize path).mapM name?

private theorem mapM_name {steps : List PathStep} {names : List String}
    (h : steps.mapM name? = some names) : steps = (names.map .field).map (.move · false) := by
  induction steps generalizing names with
  | nil => cases h; rfl
  | cons step rest ih =>
    simp only [List.mapM_cons, Option.bind_eq_bind, Option.bind_eq_some_iff] at h
    obtain ⟨name, hname, more, hmore, hnames⟩ := h
    cases hnames
    obtain rfl : step = .move (.field name) false := by
      revert hname
      simp only [name?]
      split <;> simp_all
    rw [ih hmore]
    rfl

theorem tokenize_names {path : String} {names : List String} (h : names? path = some names) :
    Path.tokenize path = (names.map .field).map (.move · false) :=
  mapM_name h

/-- A key that is a path of names is set by building these names. -/
theorem keySteps_names {key : String} {names : List String} (h : names? key = some names)
    (hne : names ≠ []) : keySteps key = (names.map .field).map (.move · true) := by
  have hdot : Text.trim key.toList ≠ ['.'] := by
    intro hdot
    have hnil : Path.tokenize key = [] := by simp [Path.tokenize, Path.read, hdot, Path.body]
    rw [tokenize_names h] at hnil
    exact hne (by simpa using hnil)
  rw [keySteps, if_neg hdot, tokenize_names h]
  simp [PathStep.invert]

/-! ### Definitions with an outline -/

mutual

/-- The outline of a path of names, or of a shape that is plain all the way down. -/
def outline? : Json → Option Outline
  | .str path => (names? path).map .leaf
  | .obj es => (outlineFields? es).map .node
  | _ => none

/-- The outlines under the keys. Keys that start with a dollar sign but have no meaning are ignored,
as they are in compiling. -/
def outlineFields? : List (String × Json) → Option (List (List String × Outline))
  | [] => some []
  | (key, j) :: rest =>
    if isKnownKey key then none
    else if isDollarKey key then outlineFields? rest
    else do
      let names ← names? key
      let o ← outline? j
      let fields ← outlineFields? rest
      some ((names, o) :: fields)

end

theorem get?_known {es : Entries Json} {fields : List (List String × Outline)}
    (h : outlineFields? es = some fields) {key : String} (hkey : isKnownKey key = true) :
    es.get? key = none := by
  induction es generalizing fields with
  | nil => rfl
  | cons b rest ih =>
    obtain ⟨k, j⟩ := b
    rw [outlineFields?] at h
    by_cases hk : isKnownKey k = true
    · simp [hk] at h
    · have hne : k ≠ key := fun e => hk (e ▸ hkey)
      rw [Entries.get?, if_neg hne]
      rw [if_neg hk] at h
      by_cases hd : isDollarKey k = true
      · exact ih (by rwa [if_pos hd] at h)
      · rw [if_neg hd] at h
        simp only [Option.bind_eq_bind, Option.bind_eq_some_iff] at h
        obtain ⟨_, _, _, _, _, hrest, _⟩ := h
        exact ih hrest

/-! ### Compiling them -/

section
variable (voc : Vocabulary ω) (named : String → Except Fault (Pipeline ω))

/-- An object without a marker is compiled to a shape. -/
theorem steps_shape {es : Entries Json} (h : marker? es = none) :
    steps voc named (.obj es) =
      (fun fs => [.shape {
        fields := spreadFields es ++ fs
        iterate := flag es "$iterate"
        flip := flag es "$flip"
        noDefaults := flag es "$noDefaults"
        always := flag es "$alwaysApply"
        only := restriction voc es }]) <$> keyedFields voc named es := by
  rw [steps, h]
  cases keyedFields voc named es <;> rfl

/-- An object without a key of meaning, `$iterate` apart, is compiled to a shape without flags. -/
theorem steps_obj_eq {es : Entries Json}
    (hes : ∀ key, isKnownKey key = true → key ≠ "$iterate" → es.get? key = none) :
    steps voc named (.obj es) =
      (fun fs => [.shape { fields := fs, iterate := flag es "$iterate" }]) <$>
        keyedFields voc named es := by
  have hmarker : marker? es = none := by
    refine List.find?_eq_none.2 fun m _ => ?_
    have hkey := hes m.key (by cases m <;> decide) (by cases m <;> decide)
    simp [Entries.contains, hkey]
  have hflip := hes "$flip" (by decide) (by decide)
  have hdefaults := hes "$noDefaults" (by decide) (by decide)
  have halways := hes "$alwaysApply" (by decide) (by decide)
  have hdirection := hes "$direction" (by decide) (by decide)
  have hmodify := hes "$modify" (by decide) (by decide)
  rw [steps_shape voc named hmarker]
  simp only [spreadFields, flag, restriction, hflip, hdefaults, halways, hdirection, hmodify]
  rfl

theorem steps_obj {es : Entries Json}
    (hes : ∀ key, isKnownKey key = true → key ≠ "$iterate" → es.get? key = none)
    {fs : List (Field (Step ω))} (hfs : keyedFields voc named es = .ok fs) :
    steps voc named (.obj es) =
      .ok [.shape { fields := fs, iterate := flag es "$iterate" }] := by
  rw [steps_obj_eq voc named hes, hfs]
  rfl

theorem keyedFields_erase {key : String} (hkey : isDollarKey key = true) (es : Entries Json) :
    keyedFields voc named (es.erase key) = keyedFields voc named es := by
  induction es with
  | nil => rfl
  | cons b rest ih =>
    obtain ⟨k, j⟩ := b
    by_cases hk : k = key
    · subst hk
      rw [Entries.erase, if_pos rfl, ih, keyedFields, if_pos hkey]
    · rw [Entries.erase, if_neg hk, keyedFields, keyedFields, ih]

mutual

/-- A definition with an outline is compiled to it. -/
theorem steps_outline : ∀ {j : Json} {o : Outline}, outline? j = some o → o.Proper →
    ∃ p, steps voc named j = .ok p ∧ Compiled o p
  | .str path, o, h, _ => by
    obtain ⟨names, hnames, rfl⟩ := Option.map_eq_some_iff.1 h
    refine ⟨_, rfl, ?_⟩
    rw [tokenize_names hnames]
    exact .leaf names
  | .obj es, o, h, hproper => by
    obtain ⟨fields, hfields, rfl⟩ := Option.map_eq_some_iff.1 h
    obtain ⟨fs, hfs, hcompiled⟩ := keyedFields_outline hfields hproper.2
    have hknown (key : String) (hkey : isKnownKey key = true) : Entries.get? es key = none :=
      get?_known hfields hkey
    have hiterate : flag es "$iterate" = false := by
      simp [flag, hknown "$iterate" (by decide)]
    exact ⟨_, steps_obj voc named (fun key hkey _ => hknown key hkey) hfs,
      hiterate ▸ .node hcompiled⟩

theorem keyedFields_outline : ∀ {es : List (String × Json)}
    {fields : List (List String × Outline)}, outlineFields? es = some fields →
      Outline.ProperFields fields →
    ∃ fs, keyedFields voc named es = .ok fs ∧ CompiledFields fields fs
  | [], fields, h, _ => by
    cases h
    exact ⟨[], rfl, .nil⟩
  | (key, j) :: rest, fields, h, hproper => by
    rw [outlineFields?] at h
    rw [keyedFields]
    by_cases hknown : isKnownKey key = true
    · simp [hknown] at h
    rw [if_neg hknown] at h
    by_cases hdollar : isDollarKey key = true
    · rw [if_pos hdollar] at h ⊢
      exact keyedFields_outline h hproper
    rw [if_neg hdollar] at h ⊢
    simp only [Option.bind_eq_bind, Option.bind_eq_some_iff] at h
    obtain ⟨names, hnames, o, ho, more, hmore, hfields⟩ := h
    cases hfields
    obtain ⟨hkey, hfirst, hothers⟩ := hproper
    obtain ⟨p, hp, hcompiled⟩ := steps_outline ho hfirst
    obtain ⟨fs, hfs, hrest⟩ := keyedFields_outline hmore hothers
    refine ⟨Field.setting key p names :: fs, ?_, .cons key hcompiled hrest⟩
    rw [hp, hfs, keySteps_names hnames hkey]
    rfl

end

end

end Reshape.Definition
