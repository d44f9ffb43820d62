import Mathlib.Data.List.Permutation
import Reshape.Definition.Document
import Reshape.Proofs.Shape.Settings

/-!
# Keys that are reported as ignored

A reader of definitions reports every dollar key without a meaning, wherever it stands in the
document. Compiling looks at a part of a document in one of three ways (`Use`), and it does ignore
these keys in definitions, and in what it does not look into: without them every definition compiles
to the same steps or fails with the same fault (`compile_prune`). What it keeps as data, it keeps as
it is, so the report is true of a whole document if no such key is part of its data
(`compile_without_ignored`), and else it can be wrong (`compile_without_ignored_constant`).
-/

namespace Reshape

/-- What compiling makes of a part of a document. -/
inductive Definition.Use where
  /-- It is a definition. -/
  | compiled
  /-- It becomes part of a value, or of the text of a fault. -/
  | kept
  /-- It matters at most whether it is `true` or a text. -/
  | unread
deriving DecidableEq

namespace Marker

open Definition (Use)

def operandUse : Marker → Use
  | transform | filter | value | fixed => .kept
  | alt | concat => .compiled
  | apply | lookup => .unread

/-- Are the keys without a dollar sign properties? -/
def hasProps : Marker → Bool
  | transform | filter => true
  | _ => false

end Marker

namespace Definition

/-! ### Deleting the keys -/

namespace Use

/-- The use of a member of an object with this marker. -/
def ofMember : Option Marker → String → Use
  | none, key => if isDollarKey key then unread else compiled
  | some m, key =>
    if key = m.key then m.operandUse
    else if m.hasProps && !isDollarKey key then kept else unread

/-- The use of the members of an object. -/
def members (u : Use) (es : Entries Json) : String → Use :=
  if u = compiled then ofMember (marker? es) else fun _ => u

end Use

mutual

/-- Deletes all ignored keys, except in data. -/
def prune : Use → Json → Json
  | .kept, j => j
  | u, .arr items => .arr (pruneItems u items)
  | u, .obj es => .obj (pruneEntries (u.members es) es)
  | _, j => j

def pruneItems (u : Use) : List Json → List Json
  | [] => []
  | j :: rest => prune u j :: pruneItems u rest

def pruneEntries (use : String → Use) : List (String × Json) → List (String × Json)
  | [] => []
  | (key, j) :: rest =>
    if isIgnoredKey key then pruneEntries use rest
    else (key, prune (use key) j) :: pruneEntries use rest

end

section
variable {use : String → Use} {es : Entries Json} {key : String}

theorem isIgnoredKey_of_isKnownKey (h : isKnownKey key = true) : isIgnoredKey key = false := by
  simp [isIgnoredKey, h]

theorem isIgnoredKey_key (m : Marker) : isIgnoredKey m.key = false := by
  cases m <;> rfl

@[simp] theorem prune_kept (j : Json) : prune .kept j = j := by
  rw [prune]

theorem prune_arr {u : Use} (h : u ≠ .kept) (items : List Json) :
    prune u (.arr items) = .arr (pruneItems u items) := by
  rw [prune]
  exact h

theorem prune_obj {u : Use} (h : u ≠ .kept) (es : Entries Json) :
    prune u (.obj es) = .obj (pruneEntries (u.members es) es) := by
  rw [prune]
  exact h

theorem isTrue_prune (u : Use) (j : Json) : (prune u j).isTrue = j.isTrue := by
  cases u <;> cases j <;> rfl

theorem str?_prune (u : Use) (j : Json) : (prune u j).str? = j.str? := by
  cases u <;> cases j <;> rfl

theorem get?_pruneEntries (h : isIgnoredKey key = false) :
    Entries.get? (pruneEntries use es) key = (es.get? key).map (prune (use key)) := by
  induction es with
  | nil => rfl
  | cons b rest ih =>
    obtain ⟨k, j⟩ := b
    rw [pruneEntries]
    by_cases hk : k = key
    · subst hk
      simp [h, Entries.get?]
    · split
      · simp [Entries.get?, hk, ih]
      · simp [Entries.get?, hk, ih]

/-! ### Compiling without them -/

theorem marker?_pruneEntries : marker? (pruneEntries use es) = marker? es := by
  refine congrArg (List.find? · Marker.all) (funext fun m => ?_)
  rw [Entries.contains, Entries.contains, get?_pruneEntries (isIgnoredKey_key m),
    Option.isSome_map]

theorem flag_pruneEntries (h : key ∈ controlKeys) :
    flag (pruneEntries use es) key = flag es key := by
  have hknown : isKnownKey key = true := by simp [isKnownKey, h]
  rw [flag, flag, get?_pruneEntries (isIgnoredKey_of_isKnownKey hknown), Option.any_map]
  exact congrArg (Option.any · _) (funext fun j => isTrue_prune _ j)

theorem str?_pruneEntries (h : isIgnoredKey key = false) :
    (Entries.get? (pruneEntries use es) key).bind Json.str? = (es.get? key).bind Json.str? := by
  rw [get?_pruneEntries h, Option.bind_map]
  exact congrArg (Option.bind _) (funext fun j => str?_prune _ j)

theorem operand_pruneEntries (m : Marker) :
    (Entries.get? (pruneEntries (Use.ofMember (some m)) es) m.key).getD .null =
      prune m.operandUse ((es.get? m.key).getD .null) := by
  have huse : Use.ofMember (some m) m.key = m.operandUse := if_pos rfl
  rw [get?_pruneEntries (isIgnoredKey_key m), huse]
  cases es.get? m.key <;> cases m.operandUse <;> rfl

/-- Properties are kept. -/
theorem props_pruneEntries (h : ∀ key, isDollarKey key = false → use key = .kept) :
    props (pruneEntries use es) = props es := by
  have hprops : (pruneEntries use es).filter (fun b => !isDollarKey b.1) =
      es.filter fun b => !isDollarKey b.1 := by
    induction es with
    | nil => rfl
    | cons b rest ih =>
      obtain ⟨k, j⟩ := b
      rw [pruneEntries]
      cases hk : isDollarKey k with
      | true => split <;> simp [hk, ih]
      | false => simp [isIgnoredKey, hk, h k hk, ih]
  rw [props, props, hprops]

end

section
variable {ω : Type} {voc : Vocabulary ω} {named : String → Except Fault (Pipeline ω)}
  {use : String → Use} {es : Entries Json}

theorem restriction_pruneEntries : restriction voc (pruneEntries use es) = restriction voc es :=
  congrArg (Option.bind · voc.direction?) (str?_pruneEntries rfl)

theorem spreadFields_pruneEntries :
    (spreadFields (pruneEntries use es) : List (Field (Step ω))) = spreadFields es := by
  rw [spreadFields, spreadFields, get?_pruneEntries rfl]
  generalize use "$modify" = u
  rcases es.get? "$modify" with _ | j
  · rfl
  · cases u <;> cases j <;> rfl

theorem pipelinesAt_cons_of_ne {k key : String} (h : k ≠ key) (j : Json) (rest : Entries Json) :
    pipelinesAt voc named key ((k, j) :: rest) = pipelinesAt voc named key rest := by
  cases j <;> rw [pipelinesAt, if_neg h] <;> rintro _ ⟨⟩

theorem call_pruneEntries {m : Marker} (hm : m.hasProps = true) (operand : Json) :
    call voc m operand (pruneEntries (Use.ofMember (some m)) es) = call voc m operand es := by
  have hkeys (key : String) (hkey : isDollarKey key = false) :
      Use.ofMember (some m) key = .kept := by
    have hne : key ≠ m.key := by
      rintro rfl
      cases m <;> cases hkey
    simp [Use.ofMember, hne, hm, hkey]
  simp only [call, props_pruneEntries hkeys]

theorem lookup_pruneEntries (u : Use) (operand : Json) :
    (lookup (prune u operand) (pruneEntries use es) : Except Fault (Op ω (Step ω))) =
      lookup operand es := by
  rw [lookup, lookup, str?_prune, str?_pruneEntries rfl]

mutual

theorem steps_prune : ∀ j : Json, steps voc named (prune .compiled j) = steps voc named j
  | .null | .bool _ | .int _ | .float _ | .str _ => rfl
  | .arr items => by
    rw [prune_arr (by decide), steps, steps, joined_prune items]
  | .obj es => by
    have hflag (key : String) (h : key ∈ controlKeys) (use : String → Use) :
        flag (pruneEntries use es) key = flag es key := flag_pruneEntries h
    have hiterate := hflag "$iterate" (by decide)
    rw [prune_obj (by decide), steps, steps, Use.members, if_pos rfl, marker?_pruneEntries]
    cases marker? es with
    | none =>
      simp only [spreadFields_pruneEntries, keyedFields_prune es, restriction_pruneEntries,
        hiterate, hflag "$flip" (by decide), hflag "$noDefaults" (by decide),
        hflag "$alwaysApply" (by decide)]
    | some m =>
      simp only [restriction_pruneEntries, hiterate, operand_pruneEntries]
      cases m with
      | transform =>
        simp only [Marker.operandUse, prune_kept, call_pruneEntries (m := .transform) rfl]
      | filter => simp only [Marker.operandUse, prune_kept, call_pruneEntries (m := .filter) rfl]
      | value | fixed => simp only [Marker.operandUse, prune_kept]
      | alt => simp only [pipelinesAt_prune (m := .alt) rfl es]
      | concat => simp only [pipelinesAt_prune (m := .concat) rfl es]
      | apply =>
        simp only [Marker.operandUse]
        cases (Entries.get? es Marker.apply.key).getD .null <;> rfl
      | lookup => simp only [lookup_pruneEntries]

theorem joined_prune : ∀ items : List Json,
    joined voc named (pruneItems .compiled items) = joined voc named items
  | [] => rfl
  | j :: rest => by rw [pruneItems, joined, joined, steps_prune j, joined_prune rest]

theorem pipelines_prune : ∀ items : List Json,
    pipelines voc named (pruneItems .compiled items) = pipelines voc named items
  | [] => rfl
  | j :: rest => by rw [pruneItems, pipelines, pipelines, steps_prune j, pipelines_prune rest]

theorem pipelinesAt_prune {m : Marker} (hm : m.operandUse = .compiled) :
    ∀ es : List (String × Json),
      pipelinesAt voc named m.key (pruneEntries (Use.ofMember (some m)) es) =
        pipelinesAt voc named m.key es
  | [] => rfl
  | (key, j) :: rest => by
    by_cases hkey : key = m.key
    · subst hkey
      have huse : Use.ofMember (some m) m.key = .compiled := by simp [Use.ofMember, hm]
      rw [pruneEntries, if_neg (by simp [isIgnoredKey_key]), huse]
      cases j with
      | arr items =>
        rw [prune_arr (by decide), pipelinesAt, pipelinesAt, if_pos rfl, if_pos rfl,
          pipelines_prune items]
      | _ => simp [prune, pipelinesAt]
    · rw [pipelinesAt_cons_of_ne hkey, pruneEntries]
      split
      · exact pipelinesAt_prune hm rest
      · rw [pipelinesAt_cons_of_ne hkey]
        exact pipelinesAt_prune hm rest

theorem keyedFields_prune : ∀ es : List (String × Json),
    keyedFields voc named (pruneEntries (Use.ofMember none) es) = keyedFields voc named es
  | [] => rfl
  | (key, j) :: rest => by
    rw [pruneEntries, keyedFields]
    cases hkey : isDollarKey key with
    | true =>
      split
      · rw [keyedFields_prune rest, if_pos rfl]
      · rw [keyedFields, if_pos hkey, if_pos rfl]
        exact keyedFields_prune rest
    | false =>
      have huse : Use.ofMember none key = .compiled := by simp [Use.ofMember, hkey]
      rw [if_neg (by simp [isIgnoredKey, hkey]), keyedFields, huse, steps_prune j,
        keyedFields_prune rest]
      simp [hkey]

end

end

/-- Without the ignored keys, those in data apart, a definition compiles to the same steps or fails
with the same fault. -/
theorem compile_prune {ω : Type} (voc : Vocabulary ω) (j : Json) :
    compile voc (prune .compiled j) = compile voc j :=
  steps_prune j

/-! ### Reports -/

mutual

/-- Nothing is deleted where nothing is reported. -/
theorem prune_eq_self (u : Use) {place : String} :
    ∀ {j : Json}, warnings place j = [] → prune u j = j
  | .null, _ | .bool _, _ | .int _, _ | .float _, _ | .str _, _ => by cases u <;> rfl
  | .arr items, h => by
    by_cases hu : u = .kept
    · rw [hu, prune_kept]
    · rw [prune_arr hu, pruneItems_eq_self u h]
  | .obj es, h => by
    by_cases hu : u = .kept
    · rw [hu, prune_kept]
    · rw [prune_obj hu, pruneEntries_eq_self _ h]

theorem pruneItems_eq_self (u : Use) {place : String} {index : Nat} :
    ∀ {items : List Json}, itemWarnings place index items = [] → pruneItems u items = items
  | [], _ => rfl
  | j :: rest, h => by
    obtain ⟨hj, hrest⟩ := List.append_eq_nil_iff.1 h
    rw [pruneItems, prune_eq_self u hj, pruneItems_eq_self u hrest]

theorem pruneEntries_eq_self (use : String → Use) {place : String} :
    ∀ {es : List (String × Json)}, entryWarnings place es = [] → pruneEntries use es = es
  | [], _ => rfl
  | (key, j) :: rest, h => by
    rw [entryWarnings] at h
    obtain ⟨hfirst, hrest⟩ := List.append_eq_nil_iff.1 h
    obtain ⟨hkey, hj⟩ := List.append_eq_nil_iff.1 hfirst
    have hkey : isIgnoredKey key = false := by simpa using hkey
    rw [pruneEntries, if_neg (by simp [hkey]), prune_eq_self _ hj, pruneEntries_eq_self use hrest]

end

mutual

/-- Deleting all ignored keys makes up for those that have been deleted before. -/
theorem prune_unread (u : Use) : ∀ j : Json, prune .unread (prune u j) = prune .unread j
  | .null | .bool _ | .int _ | .float _ | .str _ => by cases u <;> rfl
  | .arr items => by
    have hunread : Use.unread ≠ .kept := by decide
    by_cases hu : u = .kept
    · rw [hu, prune_kept]
    · rw [prune_arr hu, prune_arr hunread, prune_arr hunread, pruneItems_unread]
  | .obj es => by
    have hunread : Use.unread ≠ .kept := by decide
    by_cases hu : u = .kept
    · rw [hu, prune_kept]
    · rw [prune_obj hu, prune_obj hunread, prune_obj hunread]
      exact congrArg Json.obj (pruneEntries_unread _ es)

theorem pruneItems_unread (u : Use) : ∀ items : List Json,
    pruneItems .unread (pruneItems u items) = pruneItems .unread items
  | [] => rfl
  | j :: rest => by
    rw [pruneItems, pruneItems, pruneItems, prune_unread u j, pruneItems_unread u rest]

theorem pruneEntries_unread (use : String → Use) : ∀ es : List (String × Json),
    pruneEntries (fun _ => .unread) (pruneEntries use es) = pruneEntries (fun _ => .unread) es
  | [] => rfl
  | (key, j) :: rest => by
    rw [pruneEntries, pruneEntries]
    cases hkey : isIgnoredKey key with
    | true => simpa using pruneEntries_unread use rest
    | false =>
      simp only [Bool.false_eq_true, if_false, pruneEntries, hkey]
      rw [prune_unread (use key) j, pruneEntries_unread use rest]

end

mutual

/-- Nothing is left to report. -/
theorem warnings_prune (place : String) : ∀ j : Json, warnings place (prune .unread j) = []
  | .null | .bool _ | .int _ | .float _ | .str _ => rfl
  | .arr items => by
    rw [prune_arr (by decide)]
    exact itemWarnings_prune place 0 items
  | .obj es => by
    rw [prune_obj (by decide)]
    exact entryWarnings_prune place es

theorem itemWarnings_prune (place : String) (index : Nat) : ∀ items : List Json,
    itemWarnings place index (pruneItems .unread items) = []
  | [] => rfl
  | j :: rest => by
    rw [pruneItems, itemWarnings, warnings_prune _ j, itemWarnings_prune place _ rest]
    rfl

theorem entryWarnings_prune (place : String) : ∀ es : List (String × Json),
    entryWarnings place (pruneEntries (fun _ => .unread) es) = []
  | [] => rfl
  | (key, j) :: rest => by
    rw [pruneEntries]
    cases hkey : isIgnoredKey key with
    | true => simpa using entryWarnings_prune place rest
    | false =>
      simp only [Bool.false_eq_true, if_false, entryWarnings, hkey]
      rw [warnings_prune _ j, entryWarnings_prune place rest]
      rfl

end

/-- A document that has been read comes with all its warnings. -/
theorem Reader.warnings_of_finish {r : Reader} {raw : Json} {doc : Document}
    (h : r.finish raw = .ok doc) : doc.warnings = warnings "" doc.definition := by
  have hreport (definition : Json)
      (h : (if r.strict && !(warnings "" definition).isEmpty
          then .error (.unknownKeys (warnings "" definition))
          else .ok ⟨definition, warnings "" definition⟩ : Except Unreadable Document) = .ok doc) :
      doc.warnings = warnings "" doc.definition := by
    split at h
    · cases h
    · cases h
      rfl
  rw [finish] at h
  split at h
  · cases hsubstitute : substitute r.vars raw with
    | error e =>
      rw [hsubstitute] at h
      cases h
    | ok definition =>
      rw [hsubstitute] at h
      exact hreport definition h
  · exact hreport raw h

theorem Reader.warnings_of_readAs {r : Reader} {format : Format} {source : String} {doc : Document}
    (h : r.readAs format source = .ok doc) : doc.warnings = warnings "" doc.definition := by
  simp only [readAs] at h
  split at h
  · exact warnings_of_finish h
  · cases h

/-- A document, without the keys that its warnings report as ignored, compiles to the same steps or
fails with the same fault, if none of these keys is part of its data. Those that are not part of its
data can always be deleted. -/
theorem compile_without_ignored {r : Reader} {format : Format} {source : String} {doc : Document}
    (hread : r.readAs format source = .ok doc) {ω : Type} (voc : Vocabulary ω) :
    (doc.warnings = [] ↔ prune .unread doc.definition = doc.definition) ∧
      compile voc (prune .compiled doc.definition) = compile voc doc.definition ∧
      (warnings "" (prune .compiled doc.definition) = [] →
        compile voc (prune .unread doc.definition) = compile voc doc.definition) := by
  rw [Reader.warnings_of_readAs hread]
  refine ⟨⟨prune_eq_self .unread, fun hsame => ?_⟩, compile_prune voc _, fun hdata => ?_⟩
  · rw [← hsame]
    exact warnings_prune "" _
  · have hpruned : prune .unread doc.definition = prune .compiled doc.definition := by
      rw [← prune_unread .compiled, prune_eq_self .unread hdata]
    rw [hpruned, compile_prune]

/-- A key that is reported at the top of a shape. -/
theorem compile_without_ignored_shape :
    ∃ doc : Document,
      ({} : Reader).readAs .json "\x7b\"$later\":[],\"a\":\"x\"\x7d" = .ok doc ∧
      doc.warnings = ["unknown key '$later' at '' is ignored"] ∧
      prune .unread doc.definition = .obj [("a", .str "x")] ∧
      warnings "" (prune .compiled doc.definition) = [] ∧
      compile ({} : Vocabulary Unit) (prune .unread doc.definition) =
        compile {} doc.definition := by
  have hread : ({} : Reader).readAs .json "\x7b\"$later\":[],\"a\":\"x\"\x7d" =
      .ok ⟨.obj [("$later", .arr []), ("a", .str "x")],
        ["unknown key '$later' at '' is ignored"]⟩ := by
    cbv
  exact ⟨_, hread, rfl, rfl, rfl, (compile_without_ignored hread {}).2.2 rfl⟩

/-- A key in the value of a constant is reported, but part of the constant. -/
theorem compile_without_ignored_constant :
    ∃ doc : Document,
      ({} : Reader).readAs .json "\x7b\"$value\":\x7b\"$k\":[]\x7d\x7d" = .ok doc ∧
      doc.warnings = ["unknown key '$k' at '/$value' is ignored"] ∧
      compile ({} : Vocabulary Unit) (prune .unread doc.definition) ≠
        compile {} doc.definition := by
  have hread : ({} : Reader).readAs .json "\x7b\"$value\":\x7b\"$k\":[]\x7d\x7d" =
      .ok ⟨.obj [("$value", .obj [("$k", .arr [])])],
        ["unknown key '$k' at '/$value' is ignored"]⟩ := by
    cbv
  refine ⟨_, hread, rfl, fun hsame => ?_⟩
  have hpruned : compile ({} : Vocabulary Unit)
      (prune .unread (.obj [("$value", .obj [("$k", .arr [])])])) =
      .ok [.constant (.map [])] := rfl
  have hkept : compile ({} : Vocabulary Unit) (.obj [("$value", .obj [("$k", .arr [])])]) =
      .ok [.constant (.map [("$k", .seq [])])] := rfl
  rw [hpruned, hkept] at hsame
  cases hsame

end Definition

end Reshape
