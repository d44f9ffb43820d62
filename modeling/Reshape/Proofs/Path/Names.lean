import Mathlib.Data.List.DropRight
import Reshape.Path.Notation

/-!
# Names in path notation

A text without path syntax is the path of a single name, which is the text without the blanks around
it (`Spells.tokenize`): the scan meets nothing but characters of the name (`scan_name`), and the
token they make has no special meaning (`Spells.steps_token`). Two such texts with a dot between
them are the path of two names (`Spells.tokenize_dotted`).
-/

namespace Reshape

/-! ### Trimming -/

namespace Text

variable {cs : List Char}

/-- Without blanks in front there are none after trimming the end. -/
theorem trimStart_trimEnd (h : trimStart cs = cs) : trimStart (trimEnd cs) = trimEnd cs := by
  rw [trimStart, List.dropWhile_eq_self_iff] at h ⊢
  intro hl
  have hfront : trimEnd cs <+: cs := List.rdropWhile_prefix isBlank cs
  rw [hfront.getElem hl]
  exact h (Nat.lt_of_lt_of_le hl hfront.length_le)

theorem trimStart_trim (cs : List Char) : trimStart (trim cs) = trim cs :=
  trimStart_trimEnd (List.dropWhile_idempotent isBlank cs)

theorem trimEnd_trim (cs : List Char) : trimEnd (trim cs) = trim cs :=
  List.rdropWhile_idempotent isBlank _

theorem trim_trim (cs : List Char) : trim (trim cs) = trim cs :=
  (congrArg trimEnd (trimStart_trim cs)).trans (trimEnd_trim cs)

/-- Trimming keeps every character that is no blank. -/
theorem mem_trim {c : Char} (hc : isBlank c = false) (h : c ∈ cs) : c ∈ trim cs := by
  rw [← List.takeWhile_append_dropWhile (p := isBlank) (l := cs), List.mem_append] at h
  have hstart : c ∈ trimStart cs := by
    refine h.resolve_left fun hblank => ?_
    simp [List.mem_takeWhile_imp hblank] at hc
  rw [← List.rdropWhile_append_rtakeWhile (p := isBlank) (l := trimStart cs), List.mem_append]
    at hstart
  refine hstart.resolve_right fun hblank => ?_
  simp [List.mem_rtakeWhile_imp hblank] at hc

theorem trim_trimStart (cs : List Char) : trim (trimStart cs) = trim cs :=
  congrArg trimEnd (List.dropWhile_idempotent isBlank cs)

/-- Blanks at the end are trimmed away. -/
theorem trimEnd_append {back : List Char} (h : ∀ c ∈ back, isBlank c = true) (cs : List Char) :
    trimEnd (cs ++ back) = trimEnd cs := by
  have hback : back.reverse.dropWhile isBlank = [] := by
    rw [List.dropWhile_eq_nil_iff]
    exact fun c hc => h c (List.mem_reverse.1 hc)
  rw [trimEnd, List.reverse_append, List.dropWhile_append, hback]
  rfl

theorem trim_trimEnd (cs : List Char) : trim (trimEnd cs) = trim cs := by
  have hback : ∀ c ∈ cs.rtakeWhile isBlank, isBlank c = true := fun c => List.mem_rtakeWhile_imp
  have hsplit : cs = trimEnd cs ++ cs.rtakeWhile isBlank :=
    (List.rdropWhile_append_rtakeWhile (p := isBlank) (l := cs)).symm
  conv_rhs => rw [hsplit, trim, trimStart, List.dropWhile_append]
  rw [trim, trimStart]
  split
  · rename_i hempty
    rw [List.isEmpty_iff.1 hempty, List.dropWhile_eq_nil_iff.2 hback]
  · exact (trimEnd_append hback _).symm

/-- What is no blank keeps the blanks on its inner sides. -/
theorem trimStart_append_cons {c : Char} (hc : isBlank c = false) (front back : List Char) :
    trimStart (front ++ c :: back) = trimStart front ++ c :: back := by
  rw [trimStart, List.dropWhile_append]
  split
  · rename_i hempty
    simp [trimStart, List.isEmpty_iff.1 hempty, hc]
  · rfl

theorem trimEnd_append_cons {c : Char} (hc : isBlank c = false) (front back : List Char) :
    trimEnd (front ++ c :: back) = front ++ c :: trimEnd back := by
  have hreverse := trimStart_append_cons hc back.reverse front.reverse
  rw [trimStart] at hreverse
  simp [trimEnd, hreverse, trimStart]

theorem trim_append_cons {c : Char} (hc : isBlank c = false) (front back : List Char) :
    trim (front ++ c :: back) = trimStart front ++ c :: trimEnd back := by
  rw [trim, trimStart_append_cons hc, trimEnd_append_cons hc]

end Text

/-! ### Reading names -/

namespace Path

/-- The text spells the name: there are blanks at most around it, and no path syntax. -/
structure Spells (text name : String) : Prop where
  trim : Text.trim text.toList = name.toList
  ne_empty : name ≠ ""
  plain : ∀ c ∈ name.toList, isPathSyntax c = false

/-- Path syntax is no blank. -/
theorem isBlank_of_isPathSyntax {c : Char} (h : isPathSyntax c = true) :
    Text.isBlank c = false := by
  simp only [isPathSyntax, Bool.or_eq_true, decide_eq_true_eq] at h
  rcases h with ((((((rfl | rfl) | rfl) | rfl) | rfl) | rfl) | rfl) | rfl <;> rfl

/-- A text without path syntax does not begin with any. -/
theorem ne_cons_of_plain {cs : List Char} (h : ∀ c ∈ cs, isPathSyntax c = false) {c : Char}
    (hc : isPathSyntax c = true) (rest : List Char) : cs ≠ c :: rest := by
  rintro rfl
  have hplain := h c List.mem_cons_self
  simp [hc] at hplain

/-- Characters that are no path syntax are taken into the token. -/
theorem scan_name {cs : List Char} (h : ∀ c ∈ cs, isPathSyntax c = false) (t : Token)
    (rest : List Char) :
    scan .token t (cs ++ rest) = scan .token { t with text := t.text ++ cs } rest := by
  induction cs generalizing t with
  | nil => simp
  | cons c cs ih =>
    obtain ⟨hc, hcs⟩ := List.forall_mem_cons.1 h
    simp only [isPathSyntax, Bool.or_eq_false_iff, decide_eq_false_iff_not] at hc
    simp only [List.cons_append, scan, hc, if_false, decide_false, Bool.false_and,
      Bool.false_eq_true, ih hcs, Token.push, List.append_assoc, List.nil_append]

theorem scan_plain {cs : List Char} (h : ∀ c ∈ cs, isPathSyntax c = false) (t : Token) :
    scan .token t cs = Token.steps { t with text := t.text ++ cs } := by
  have hscan := scan_name h t []
  rw [List.append_nil] at hscan
  exact hscan

/-- A dot ends the token. -/
theorem scan_dot (t : Token) (rest : List Char) :
    scan .token t ('.' :: rest) = t.steps ++ scan .token {} rest := by
  simp [scan]

theorem body_cons {c : Char} (hc : c ≠ '.') (inverted : Bool) (rest : List Char) :
    body inverted (c :: rest) = scan .token {} (c :: rest) := by
  simp [body, hc]

/-- A path is scanned as it stands if neither a mark for all of it nor a dot comes first. -/
theorem read_of_trim {path rest : List Char} {c : Char} (h : Text.trim path = c :: rest)
    (hdot : c ≠ '.') (hmark : c ≠ '>') : read path = scan .token {} (c :: rest) := by
  rw [read, h]
  split
  · rename_i heq
    exact absurd (List.cons.inj heq).1 hmark
  · exact body_cons hdot false rest

/-- A path is scanned as it stands if it does not begin with path syntax. -/
theorem read_of_plain {path rest : List Char} {c : Char} (h : Text.trim path = c :: rest)
    (hc : isPathSyntax c = false) : read path = scan .token {} (c :: rest) := by
  refine read_of_trim h ?_ ?_
  all_goals
    rintro rfl
    cases hc

namespace Spells

variable {text name : String}

theorem ne_nil (h : Spells text name) : name.toList ≠ [] :=
  fun hnil => h.ne_empty (String.toList_eq_nil_iff.1 hnil)

/-- The blanks around the name are no path syntax either. -/
theorem plain_text (h : Spells text name) : ∀ c ∈ text.toList, isPathSyntax c = false := by
  intro c hmem
  cases hc : isPathSyntax c with
  | false => rfl
  | true =>
    have hname := Text.mem_trim (isBlank_of_isPathSyntax hc) hmem
    rw [h.trim] at hname
    exact hc.symm.trans (h.plain c hname)

theorem steps_token (h : Spells text name) {cs : List Char} (hcs : Text.trim cs = name.toList) :
    Token.steps { text := cs } = [.move (.field name) false] := by
  simp [Token.steps, hcs, h.ne_nil, ne_cons_of_plain h.plain (c := '^') rfl,
    ne_cons_of_plain h.plain (c := '|') rfl]

theorem tokenize (h : Spells text name) : Path.tokenize text = [.move (.field name) false] := by
  obtain ⟨c, rest, hname⟩ := List.exists_cons_of_ne_nil h.ne_nil
  have htrim : Text.trim name.toList = name.toList := by rw [← h.trim, Text.trim_trim]
  rw [Path.tokenize, read_of_plain (h.trim.trans hname) (h.plain c (by simp [hname])), ← hname,
    scan_plain h.plain]
  exact h.steps_token htrim

/-- Two names with a dot between them. -/
theorem tokenize_dotted (h : Spells text name) {text' name' : String} (h' : Spells text' name') :
    Path.tokenize (text ++ "." ++ text') =
      [.move (.field name) false, .move (.field name') false] := by
  obtain ⟨c, front, hfront⟩ : ∃ c front, Text.trimStart text.toList = c :: front := by
    refine List.exists_cons_of_ne_nil fun hnil => h.ne_nil ?_
    rw [← h.trim, Text.trim, hnil]
    rfl
  have hplain : ∀ a ∈ c :: front, isPathSyntax a = false := fun a ha =>
    h.plain_text a ((List.dropWhile_sublist _).subset (hfront ▸ ha))
  have hplain' : ∀ a ∈ Text.trimEnd text'.toList, isPathSyntax a = false := fun a ha =>
    h'.plain_text a ((List.rdropWhile_prefix Text.isBlank _).subset ha)
  have htrim : Text.trim (text ++ "." ++ text').toList =
      c :: (front ++ '.' :: Text.trimEnd text'.toList) := by
    have hchars : (text ++ "." ++ text').toList = text.toList ++ '.' :: text'.toList := by simp
    rw [hchars, Text.trim_append_cons rfl, hfront, List.cons_append]
  have hfirst : Token.steps { text := c :: front } = [.move (.field name) false] :=
    h.steps_token (by rw [← hfront, Text.trim_trimStart, h.trim])
  have hsecond : Token.steps { text := Text.trimEnd text'.toList } =
      [.move (.field name') false] := h'.steps_token (by rw [Text.trim_trimEnd, h'.trim])
  rw [Path.tokenize, read_of_plain htrim (hplain c List.mem_cons_self), ← List.cons_append,
    scan_name hplain, scan_dot, scan_plain hplain']
  exact congrArg₂ (· ++ ·) hfirst hsecond

end Spells

end Path

end Reshape
