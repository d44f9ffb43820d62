import Reshape.Definition.Document
import Reshape.Proofs.Json.Leaves

/-!
# Variables and reports

Substituting variables looks at the leaves of a document only. The first leaf that refers to a
variable that there is not makes it fail, and otherwise every reference is replaced where it stands
(`substitute_eq`); what it is replaced by is looked at no more. The reports are about the document
that this makes: one for each member of an object that is ignored, in document order
(`warnings_eq`). A strict reader accepts the documents without any (`finish_reports`).
-/

namespace Reshape

namespace Definition

/-! ### References -/

/-- The text that refers to a variable. -/
def referenceTo (name : String) : String :=
  "$\x7b" ++ name ++ "\x7d"

theorem reference?_referenceTo (name : String) : reference? (referenceTo name) = some name := by
  have htext : (referenceTo name).toList = '$' :: '\x7b' :: (name.toList ++ ['\x7d']) := by
    simp [referenceTo]
  rw [reference?, htext]
  simp

theorem reference?_eq_some_iff {s name : String} :
    reference? s = some name ↔ s = referenceTo name := by
  constructor
  · intro h
    rw [reference?] at h
    split at h
    · rename_i rest hs
      split at h
      · rename_i hlast
        obtain ⟨inner, rfl⟩ := List.getLast?_eq_some_iff.1 (beq_iff_eq.1 hlast)
        cases h
        rw [← String.toList_inj, hs]
        simp [referenceTo]
      · cases h
    · cases h
  · rintro rfl
    exact reference?_referenceTo name

/-- What may become of a leaf: a reference becomes what its variable stands for, and anything else
stays as it is. -/
inductive Expands (vars : Entries Json) : Json → Json → Prop
  | reference {name : String} {j : Json} (h : vars.get? name = some j) :
      Expands vars (.str (referenceTo name)) j
  | other {leaf : Json} (h : ∀ name, leaf ≠ .str (referenceTo name)) : Expands vars leaf leaf

/-- The first reference among the leaves to a variable that there is not. -/
def FirstUndefined (vars : Entries Json) (leaves : List Json) (name : String) : Prop :=
  ∃ before after, leaves = before ++ .str (referenceTo name) :: after ∧ vars.get? name = none ∧
    ∀ other, .str (referenceTo other) ∈ before → (vars.get? other).isSome

/-- The name by which a leaf refers to a variable that there is not. -/
def undefined? (vars : Entries Json) : Json → Option String
  | .str s => (reference? s).filter fun name => (vars.get? name).isNone
  | _ => none

/-- The leaf, or what the variable stands for that it refers to. -/
def expand (vars : Entries Json) : Json → Json
  | .str s => ((reference? s).bind vars.get?).getD (.str s)
  | leaf => leaf

section
variable {vars : Entries Json} {leaf : Json} {leaves : List Json}

theorem undefined?_eq_some_iff {name : String} :
    undefined? vars leaf = some name ↔
      leaf = .str (referenceTo name) ∧ vars.get? name = none := by
  cases leaf with
  | str s => simp [undefined?, Option.filter_eq_some_iff, reference?_eq_some_iff]
  | _ => simp [undefined?]

theorem undefined?_eq_none_iff :
    undefined? vars leaf = none ↔
      ∀ name, leaf = .str (referenceTo name) → (vars.get? name).isSome := by
  rw [Option.eq_none_iff_forall_ne_some]
  refine forall_congr' fun name => ?_
  rw [Ne, undefined?_eq_some_iff, not_and, Option.isSome_iff_ne_none]

theorem findSome?_undefined_eq_some_iff {name : String} :
    leaves.findSome? (undefined? vars) = some name ↔ FirstUndefined vars leaves name := by
  rw [List.findSome?_eq_some_iff, FirstUndefined]
  simp only [undefined?_eq_some_iff, undefined?_eq_none_iff]
  constructor
  · rintro ⟨before, _, after, rfl, ⟨rfl, hname⟩, hbefore⟩
    exact ⟨before, after, rfl, hname, fun other hother => hbefore _ hother other rfl⟩
  · rintro ⟨before, after, rfl, hname, hbefore⟩
    exact ⟨before, _, after, rfl, ⟨rfl, hname⟩, fun _ h other hother => hbefore other (hother ▸ h)⟩

theorem findSome?_undefined_eq_none_iff :
    leaves.findSome? (undefined? vars) = none ↔
      ∀ name, .str (referenceTo name) ∈ leaves → (vars.get? name).isSome := by
  simp only [List.findSome?_eq_none_iff, undefined?_eq_none_iff]
  exact ⟨fun h name hname => h _ hname name rfl, fun h _ hleaf name hname => h name (hname ▸ hleaf)⟩

theorem expand_reference {name : String} {j : Json} (h : vars.get? name = some j) :
    expand vars (.str (referenceTo name)) = j := by
  simp [expand, reference?_referenceTo, h]

theorem expand_other (h : ∀ name, leaf ≠ .str (referenceTo name)) : expand vars leaf = leaf := by
  cases leaf with
  | str s =>
    have hnone : reference? s = none :=
      Option.eq_none_iff_forall_ne_some.2 fun name hname =>
        h name (congrArg Json.str (reference?_eq_some_iff.1 hname))
    simp [expand, hnone]
  | _ => rfl

theorem expands_iff {j : Json} :
    Expands vars leaf j ↔ undefined? vars leaf = none ∧ expand vars leaf = j := by
  constructor
  · rintro (h | h)
    · exact ⟨by simp [undefined?, reference?_referenceTo, h], expand_reference h⟩
    · exact ⟨undefined?_eq_none_iff.2 fun name hname => absurd hname (h name), expand_other h⟩
  · rintro ⟨hdefined, rfl⟩
    by_cases h : ∃ name, leaf = .str (referenceTo name)
    · obtain ⟨name, rfl⟩ := h
      obtain ⟨j, hj⟩ := Option.isSome_iff_exists.1 (undefined?_eq_none_iff.1 hdefined name rfl)
      rw [expand_reference hj]
      exact .reference hj
    · have hother := not_exists.1 h
      rw [expand_other hother]
      exact .other hother

end

/-! ### Substituting -/

/-- A result that is there unless a variable is undefined. -/
def resolved {α : Type} (undefined : Option String) (a : α) : Except Unreadable α :=
  undefined.elim (.ok a) fun name => .error (.undefinedVariable name)

theorem resolved_eq_ok_iff {α : Type} {o : Option String} {a b : α} :
    resolved o a = .ok b ↔ o = none ∧ a = b := by
  cases o <;> simp [resolved]

theorem resolved_eq_error_iff {α : Type} {o : Option String} {a : α} {u : Unreadable} :
    resolved o a = .error u ↔ ∃ name, u = .undefinedVariable name ∧ o = some name := by
  cases o <;> simp [resolved, eq_comm]

/-- Of two results the first undefined variable counts. -/
theorem resolved_both {α β γ : Type} (f : α → β → γ) (o o' : Option String) (a : α) (b : β) :
    (do
      let a ← resolved o a
      let b ← resolved o' b
      Except.ok (f a b)) = resolved (o.or o') (f a b) := by
  cases o <;> cases o' <;> rfl

theorem resolved_map {α β : Type} (o : Option String) (f : α → β) (a : α) :
    f <$> resolved o a = resolved o (f a) := by
  cases o <;> rfl

section
variable (vars : Entries Json)

mutual

/-- Substituting fails at the first reference that is undefined, and expands all leaves if there is
none. -/
theorem substitute_eq : ∀ j : Json,
    substitute vars j =
      resolved (j.leaves.findSome? (undefined? vars)) (j.mapLeaves (expand vars))
  | .arr items => by
    rw [substitute, substituteItems_eq items, resolved_map]
    rfl
  | .obj entries => by
    rw [substitute, substituteEntries_eq entries, resolved_map]
    rfl
  | .str s => by
    rw [substitute]
    cases hname : reference? s with
    | none => simp [Json.leaves, Json.mapLeaves, undefined?, expand, resolved, hname]
    | some name =>
      cases hj : vars.get? name <;>
        simp [Json.leaves, Json.mapLeaves, undefined?, expand, resolved, hname, hj,
          Option.filter_some]
  | .null | .bool _ | .int _ | .float _ => rfl

theorem substituteItems_eq : ∀ items : List Json,
    substituteItems vars items =
      resolved ((Json.itemLeaves items).findSome? (undefined? vars))
        (Json.mapItems (expand vars) items)
  | [] => rfl
  | j :: rest => by
    rw [substituteItems, substitute_eq j, substituteItems_eq rest, Json.itemLeaves,
      List.findSome?_append, Json.mapItems]
    exact resolved_both List.cons ..

theorem substituteEntries_eq : ∀ entries : List (String × Json),
    substituteEntries vars entries =
      resolved ((Json.entryLeaves entries).findSome? (undefined? vars))
        (Json.mapEntries (expand vars) entries)
  | [] => rfl
  | (k, j) :: rest => by
    rw [substituteEntries, substitute_eq j, substituteEntries_eq rest, Json.entryLeaves,
      List.findSome?_append, Json.mapEntries]
    exact resolved_both (fun first more => (k, first) :: more) ..

end

theorem substitute_eq_error_iff {raw : Json} {u : Unreadable} :
    substitute vars raw = .error u ↔
      ∃ name, u = .undefinedVariable name ∧ FirstUndefined vars raw.leaves name := by
  simp only [substitute_eq, resolved_eq_error_iff, findSome?_undefined_eq_some_iff]

theorem substitute_eq_ok_iff {raw definition : Json} :
    substitute vars raw = .ok definition ↔
      ∃ f, (∀ leaf ∈ raw.leaves, Expands vars leaf (f leaf)) ∧ raw.mapLeaves f = definition := by
  simp only [substitute_eq, resolved_eq_ok_iff, List.findSome?_eq_none_iff, expands_iff]
  constructor
  · rintro ⟨hdefined, rfl⟩
    exact ⟨expand vars, fun leaf hleaf => ⟨hdefined leaf hleaf, rfl⟩, rfl⟩
  · rintro ⟨f, hf, rfl⟩
    exact ⟨fun leaf hleaf => (hf leaf hleaf).1,
      Json.mapLeaves_eq_iff.2 fun leaf hleaf => (hf leaf hleaf).2⟩

theorem substitute_fails_iff {raw : Json} :
    (∃ u, substitute vars raw = .error u) ↔
      ∃ name, .str (referenceTo name) ∈ raw.leaves ∧ vars.get? name = none := by
  have hfirst : (∃ name, FirstUndefined vars raw.leaves name) ↔
      raw.leaves.findSome? (undefined? vars) ≠ none := by
    simp only [← findSome?_undefined_eq_some_iff, Option.ne_none_iff_exists']
  have hnone : raw.leaves.findSome? (undefined? vars) ≠ none ↔
      ∃ name, .str (referenceTo name) ∈ raw.leaves ∧ vars.get? name = none := by
    rw [Ne, findSome?_undefined_eq_none_iff]
    simp
  rw [← hnone, ← hfirst]
  simp only [substitute_eq_error_iff]
  exact ⟨fun ⟨_, name, _, h⟩ => ⟨name, h⟩, fun ⟨name, h⟩ => ⟨_, name, rfl, h⟩⟩

end

/-! ### Reports -/

end Definition

namespace Json

mutual

/-- The members of all objects in a document, in document order: the keys and indices that lead to
the object, and the key of the member. -/
def members : Json → List (List String × String)
  | .obj entries => entryMembers entries
  | .arr items => itemMembers 0 items
  | _ => []

def itemMembers (index : Nat) : List Json → List (List String × String)
  | [] => []
  | j :: rest =>
    (members j).map (fun m => (toString index :: m.1, m.2)) ++ itemMembers (index + 1) rest

def entryMembers : List (String × Json) → List (List String × String)
  | [] => []
  | (k, j) :: rest =>
    ([], k) :: (members j).map (fun m => (k :: m.1, m.2)) ++ entryMembers rest

end

end Json

namespace Definition

/-- The text of a path, each part behind a slash. -/
def pathText : List String → String
  | [] => ""
  | part :: rest => "/" ++ part ++ pathText rest

/-- The report about a member that is ignored. -/
def report (place : String) (m : List String × String) : String :=
  warning m.2 (place ++ pathText m.1)

theorem report_below (place part : String) (ms : List (List String × String)) :
    ((ms.map fun m => (part :: m.1, m.2)).filter (isIgnoredKey ·.2)).map (report place) =
      (ms.filter (isIgnoredKey ·.2)).map (report (place ++ "/" ++ part)) := by
  rw [List.filter_map, List.map_map]
  refine List.map_congr_left fun m _ => ?_
  simp [report, pathText, String.append_assoc]

mutual

theorem warnings_eq (place : String) : ∀ j : Json,
    warnings place j = (j.members.filter (isIgnoredKey ·.2)).map (report place)
  | .arr items => itemWarnings_eq place 0 items
  | .obj entries => entryWarnings_eq place entries
  | .null | .bool _ | .int _ | .float _ | .str _ => rfl

theorem itemWarnings_eq (place : String) (index : Nat) : ∀ items : List Json,
    itemWarnings place index items =
      ((Json.itemMembers index items).filter (isIgnoredKey ·.2)).map (report place)
  | [] => rfl
  | j :: rest => by
    rw [itemWarnings, warnings_eq _ j, itemWarnings_eq place _ rest, Json.itemMembers,
      List.filter_append, List.map_append, report_below]

theorem entryWarnings_eq (place : String) : ∀ entries : List (String × Json),
    entryWarnings place entries =
      ((Json.entryMembers entries).filter (isIgnoredKey ·.2)).map (report place)
  | [] => rfl
  | (k, j) :: rest => by
    rw [entryWarnings, warnings_eq _ j, entryWarnings_eq place rest, Json.entryMembers,
      List.cons_append, List.filter_cons, List.filter_append]
    split <;> simp [report_below, report, pathText]

end

/-- The ignored members of a document are reported one by one. -/
theorem warnings_root (j : Json) :
    warnings "" j =
      (j.members.filter (isIgnoredKey ·.2)).map fun m => warning m.2 (pathText m.1) := by
  rw [warnings_eq]
  refine List.map_congr_left fun m _ => ?_
  rw [report, String.empty_append]

theorem Reader.finish_lenient (vars : Entries Json) (raw : Json) :
    ({ vars } : Reader).finish raw =
      (substitute vars raw).map fun definition => ⟨definition, warnings "" definition⟩ := by
  rw [finish, if_pos rfl]
  cases substitute vars raw <;> rfl

/-- A strict reader reads the documents without warnings. -/
theorem Reader.finish_strict (vars : Entries Json) (raw : Json) (doc : Document) :
    ({ strict := true, vars } : Reader).finish raw = .ok doc ↔
      ({ vars } : Reader).finish raw = .ok doc ∧ warnings "" doc.definition = [] := by
  rw [finish_lenient, finish, if_pos rfl]
  cases substitute vars raw with
  | error u => simp [Except.map, bind, Except.bind]
  | ok definition =>
    by_cases hquiet : warnings "" definition = []
    · have hdoc : (⟨definition, []⟩ : Document) = doc → warnings "" doc.definition = [] := by
        rintro rfl
        exact hquiet
      simpa [Except.map, bind, Except.bind, hquiet] using hdoc
    · have hdoc : (⟨definition, warnings "" definition⟩ : Document) = doc →
          warnings "" doc.definition ≠ [] := by
        rintro rfl
        exact hquiet
      simpa [Except.map, bind, Except.bind, hquiet] using hdoc

/-- Substituting fails exactly if some string refers to a variable that there is not, and names the
first of these; otherwise it expands the leaves of the document and changes nothing else. A reader
that is not strict then reports each member of an object whose key is ignored, once and in document
order, and a strict one reads the same documents, those with reports excepted. -/
theorem finish_reports (vars : Entries Json) (raw : Json) :
    ((∃ u, substitute vars raw = .error u) ↔
      ∃ name, .str (referenceTo name) ∈ raw.leaves ∧ vars.get? name = none) ∧
    (∀ u, substitute vars raw = .error u ↔
      ∃ name, u = .undefinedVariable name ∧ FirstUndefined vars raw.leaves name) ∧
    (∀ definition, substitute vars raw = .ok definition ↔
      ∃ f, (∀ leaf ∈ raw.leaves, Expands vars leaf (f leaf)) ∧ raw.mapLeaves f = definition) ∧
    (({ vars } : Reader).finish raw = (substitute vars raw).map fun definition =>
      ⟨definition, (definition.members.filter (isIgnoredKey ·.2)).map fun m =>
        warning m.2 (pathText m.1)⟩) ∧
    ∀ doc, ({ strict := true, vars } : Reader).finish raw = .ok doc ↔
      ({ vars } : Reader).finish raw = .ok doc ∧
        ∀ m ∈ doc.definition.members, isIgnoredKey m.2 = false := by
  refine ⟨substitute_fails_iff vars, fun u => substitute_eq_error_iff vars,
    fun definition => substitute_eq_ok_iff vars, ?lenient, fun doc => ?strict⟩
  case lenient => simp only [Reader.finish_lenient, warnings_root]
  case strict => simp [Reader.finish_strict, warnings_root]

/-- What a variable stands for is not searched for references, but for keys. -/
example :
    ({ vars := [("v", .obj [("$later", .str (referenceTo "w"))])] } : Reader).finish
        (.obj [("k", .arr [.null, .str (referenceTo "v")])]) =
      .ok ⟨.obj [("k", .arr [.null, .obj [("$later", .str (referenceTo "w"))]])],
        [warning "$later" (pathText ["k", "1"])]⟩ :=
  rfl

end Definition

end Reshape
