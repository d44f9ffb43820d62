import Reshape.Proofs.Path.Names

/-!
# Written forms

A path is read back from the written forms of its steps with dots between them, and so is every step
on its own (`tokenize_display`). A backslash keeps a character of a name from being path syntax, and
the token that it stands in from being anything but a name (`scan_escaped`), so a name can be
written with a backslash in front of all its characters too. Only a blank at the end is not reached
in this way: the path is trimmed before it is read (`tokenize_escapeAll`).
-/

namespace Reshape

/-! ### Texts without blanks around them -/

namespace Text

/-- There is no blank at either end. -/
structure Tight (cs : List Char) : Prop where
  first : ∀ c ∈ cs.head?, isBlank c = false
  last : ∀ c ∈ cs.getLast?, isBlank c = false

theorem trimStart_eq_self_iff {cs : List Char} :
    trimStart cs = cs ↔ ∀ c ∈ cs.head?, isBlank c = false := by
  cases cs with
  | nil => simp [trimStart]
  | cons c rest => simp [trimStart, List.dropWhile_eq_self_iff]

theorem trimEnd_eq_self_iff {cs : List Char} :
    trimEnd cs = cs ↔ ∀ c ∈ cs.getLast?, isBlank c = false := by
  have hreverse := @trimStart_eq_self_iff cs.reverse
  rw [List.head?_reverse] at hreverse
  rw [← hreverse, trimEnd, trimStart, List.reverse_eq_iff]

theorem trim_eq_self_iff {cs : List Char} : trim cs = cs ↔ Tight cs := by
  constructor
  · intro h
    have hstart := trimStart_trim cs
    have hend := trimEnd_trim cs
    rw [h] at hstart hend
    exact ⟨trimStart_eq_self_iff.1 hstart, trimEnd_eq_self_iff.1 hend⟩
  · intro h
    rw [trim, trimStart_eq_self_iff.2 h.first, trimEnd_eq_self_iff.2 h.last]

theorem Tight.of_forall {cs : List Char} (h : ∀ c ∈ cs, isBlank c = false) : Tight cs :=
  ⟨fun c hc => h c (List.mem_of_mem_head? hc), fun c hc => h c (List.mem_of_mem_getLast? hc)⟩

theorem Tight.cons {c : Char} {cs : List Char} (hc : isBlank c = false) (h : Tight cs) :
    Tight (c :: cs) := by
  refine ⟨by rintro _ ⟨⟩; exact hc, ?_⟩
  cases cs with
  | nil =>
    rintro _ ⟨⟩
    exact hc
  | cons => exact h.last

/-- Tight texts with a character between them. -/
theorem Tight.append_cons {front back : List Char} (hfront : Tight front) (hback : Tight back)
    (hf : front ≠ []) (hb : back ≠ []) (c : Char) : Tight (front ++ c :: back) := by
  refine ⟨?_, ?_⟩
  · rw [List.head?_append_of_ne_nil _ hf]
    exact hfront.first
  · rw [List.append_cons, List.getLast?_append_of_ne_nil _ hb]
    exact hback.last

theorem isBlank_of_isDigit {c : Char} (h : c.isDigit = true) : isBlank c = false := by
  simp only [Char.isDigit, Bool.and_eq_true, decide_eq_true_eq] at h
  have hlow : 48 ≤ c.toNat := h.1
  have hhigh : c.toNat ≤ 57 := h.2
  simp only [isBlank, Bool.or_eq_false_iff, Bool.and_eq_false_iff, decide_eq_false_iff_not,
    beq_eq_false_iff_ne]
  omega

theorem isBlank_of_mem_ofInt {n : Int} {c : Char} (h : c ∈ ofInt n) : isBlank c = false := by
  rcases mem_ofInt h with rfl | hdigit
  · rfl
  · exact isBlank_of_isDigit hdigit

end Text

namespace Path

theorem tight_syntax {cs : List Char} (h : cs.all isPathSyntax = true) : Text.Tight cs :=
  .of_forall fun c hc => isBlank_of_isPathSyntax (List.all_eq_true.1 h c hc)

/-! ### Escapes -/

/-- The characters of a name, with a backslash in front of those that `p` picks. -/
def escaped (p : Char → Bool) (name : List Char) : List Char :=
  name.flatMap fun c => if p c then ['\\', c] else [c]

theorem escaped_cons (p : Char → Bool) (c : Char) (name : List Char) :
    escaped p (c :: name) = (if p c then ['\\', c] else [c]) ++ escaped p name := rfl

/-- Where all path syntax is escaped, the characters end up in the token, literally if there is an
escape among them. -/
theorem scan_escaped {p : Char → Bool} (hp : ∀ c, isPathSyntax c = true → p c = true) (t : Token)
    (name rest : List Char) :
    scan .token t (escaped p name ++ rest) =
      scan .token { t with text := t.text ++ name, literal := t.literal || name.any p } rest := by
  induction name generalizing t with
  | nil => simp [escaped]
  | cons c name ih =>
    rw [escaped_cons, List.append_assoc]
    cases hc : p c with
    | true =>
      have hescape : scan .token t ('\\' :: c :: (escaped p name ++ rest)) =
          scan .token (t.pushLiteral [c]) (escaped p name ++ rest) := by simp [scan]
      simp only [if_true, List.cons_append, List.nil_append, hescape, ih, Token.pushLiteral,
        List.append_assoc, List.any_cons, hc, Bool.true_or, Bool.or_true]
    | false =>
      have hplain : ∀ a ∈ [c], isPathSyntax a = false := by
        intro a ha
        obtain rfl := List.mem_singleton.1 ha
        exact Bool.eq_false_iff.2 fun hsyntax => Bool.false_ne_true (hc.symm.trans (hp a hsyntax))
      have hname := scan_name hplain t (escaped p name ++ rest)
      simp only [Bool.false_eq_true, if_false, hname, ih, List.append_assoc, List.any_cons, hc,
        Bool.false_or]
      rfl

theorem getLast?_escaped (p : Char → Bool) (name : List Char) :
    (escaped p name).getLast? = name.getLast? := by
  rcases List.eq_nil_or_concat name with rfl | ⟨init, c, rfl⟩
  · rfl
  · have hlast : ((if p c then ['\\', c] else [c]) : List Char).getLast? = some c := by
      split <;> rfl
    simp [escaped, List.flatMap_append, List.getLast?_append, hlast]

theorem tight_escaped (p : Char → Bool) {name : List Char} (h : Text.Tight name) :
    Text.Tight (escaped p name) := by
  refine ⟨?_, by rw [getLast?_escaped]; exact h.last⟩
  cases name with
  | nil => exact h.first
  | cons c name =>
    rw [escaped_cons]
    split
    · rintro a ⟨⟩
      rfl
    · exact h.first

/-- A token with a name: escaped, or free of path syntax. -/
theorem Token.steps_name {t : Token} (hne : t.text ≠ [])
    (h : t.literal = true ∨
      Text.trim t.text = t.text ∧ ∀ c ∈ t.text, isPathSyntax c = false) :
    t.steps = [.move (.field (String.ofList t.text)) t.inverted] := by
  rcases h with hliteral | ⟨htrim, hplain⟩
  · simp [steps, hliteral, hne]
  · simp [steps, htrim, hne, ne_cons_of_plain hplain (c := '^') rfl,
      ne_cons_of_plain hplain (c := '|') rfl]

/-! ### Bracket groups -/

theorem scan_bracket {inner : List Char} (h : ']' ∉ inner) (pre : List Char) (t : Token)
    (rest : List Char) :
    scan (.bracket pre) t (inner ++ ']' :: rest) =
      scan (.bracket (pre ++ inner)) t (']' :: rest) := by
  induction inner generalizing pre with
  | nil => rw [List.append_nil, List.nil_append]
  | cons c inner ih =>
    obtain ⟨hc, hinner⟩ := List.ne_and_not_mem_of_not_mem_cons h
    rw [List.cons_append, scan, if_neg hc.symm, ih hinner, List.append_assoc]
    rfl

/-- A bracket group with a meaning ends the token in front of it. -/
theorem scan_group {inner : List Char} {m : Move} (h : ']' ∉ inner) (hm : bracket? inner = some m)
    (t : Token) (rest : List Char) :
    scan .token t ('[' :: (inner ++ ']' :: rest)) =
      t.steps ++ .move m t.inverted :: scan .token t.afterBracket rest := by
  have hopen : scan .token t ('[' :: (inner ++ ']' :: rest)) =
      scan (.bracket []) t (inner ++ ']' :: rest) := by simp [scan]
  rw [hopen, scan_bracket h, List.nil_append, scan, if_pos rfl, hm]

theorem bracket?_ofInt (slot : Int64) : bracket? (Text.ofInt slot.toInt) = some (.index slot) := by
  have htrim : Text.trim (Text.ofInt slot.toInt) = Text.ofInt slot.toInt :=
    Text.trim_eq_self_iff.2 (.of_forall fun _ => Text.isBlank_of_mem_ofInt)
  have hne : Text.ofInt slot.toInt ≠ [] := by
    intro hnil
    have hread := Text.intOf?_ofInt slot.toInt
    rw [hnil] at hread
    cases hread
  have hslot : isSlot slot.toInt = true := by
    rw [isSlot, Bool.and_eq_true, decide_eq_true_eq, decide_eq_true_eq]
    exact ⟨slot.minValue_le_toInt, slot.toInt_le⟩
  simp [bracket?, htrim, hne, Text.intOf?_ofInt, hslot]

/-! ### Steps -/

/-- Read from the token `t` on, the text makes the step `s`, and the token that it leaves open makes
no other. -/
def Reads (t : Token) (text : List Char) (s : PathStep) : Prop :=
  ∃ made t', made ++ t'.steps = [s] ∧
    ∀ rest, scan .token t (text ++ rest) = made ++ scan .token t' rest

namespace Reads

variable {t : Token} {text : List Char} {s : PathStep}

theorem last (h : Reads t text s) : scan .token t text = [s] := by
  obtain ⟨made, t', hmade, hscan⟩ := h
  have hend := hscan []
  rw [List.append_nil] at hend
  exact hend.trans hmade

theorem dot (h : Reads t text s) (rest : List Char) :
    scan .token t (text ++ '.' :: rest) = s :: scan .token {} rest := by
  obtain ⟨made, t', hmade, hscan⟩ := h
  rw [hscan, scan_dot, ← List.append_assoc, hmade]
  rfl

end Reads

section
variable {inverted : Bool}

theorem reads_field {name : String} (hne : name ≠ "")
    (htrim : Text.trim name.toList = name.toList) :
    Reads { inverted } (escapeName name.toList) (.move (.field name) inverted) := by
  refine ⟨[], { text := name.toList, inverted, literal := name.toList.any isPathSyntax }, ?_,
    fun rest => scan_escaped (fun c hc => hc) _ _ _⟩
  rw [List.nil_append, Token.steps_name]
  · simp
  · simpa using hne
  · cases hsyntax : name.toList.any isPathSyntax with
    | true => exact .inl rfl
    | false => exact .inr ⟨htrim, by simpa using hsyntax⟩

theorem reads_group {inner : List Char} {m : Move} (h : ']' ∉ inner)
    (hm : bracket? inner = some m) :
    Reads { inverted } ('[' :: inner ++ [']']) (.move m inverted) :=
  ⟨[.move m inverted], { inverted }, rfl, fun rest => by
    have htext : '[' :: inner ++ [']'] ++ rest = '[' :: (inner ++ ']' :: rest) := by simp
    rw [htext]
    exact scan_group h hm { inverted } rest⟩

end

end Path

/-- The steps that a path can hold anywhere: a name is not empty and has no blanks around it, and a
merge is a path of its own. -/
def PathStep.Printable : PathStep → Prop
  | move (.field name) _ => name ≠ "" ∧ Text.trim name.toList = name.toList
  | move (.merge _) _ => False
  | _ => True

namespace PathStep

variable {s : PathStep}

theorem plain_cases (h : s.isInverted = false) :
    (∃ m, s = move m false) ∨ s = barrier .forward := by
  rcases s with ⟨m, _ | _⟩ | _ | _
  · exact .inl ⟨m, rfl⟩
  · cases h
  · exact .inr rfl
  · cases h

/-- An inverted step is a plain one with a mark in front. -/
theorem exists_plain (hs : s.Printable) (h : s.isInverted = true) :
    ∃ p : PathStep, p.Printable ∧ p.isInverted = false ∧ s = p.invert ∧ s.text = '>' :: p.text := by
  rcases s with ⟨m, _ | _⟩ | _ | _
  · cases h
  · exact ⟨move m false, by cases m <;> exact hs, rfl, rfl, rfl⟩
  · cases h
  · exact ⟨barrier .forward, hs, rfl, rfl, rfl⟩

/-- A plain step is read as it is, and behind an inversion mark as the inverted one. -/
theorem reads_plain (hs : s.Printable) (hplain : s.isInverted = false) (inverted : Bool) :
    Path.Reads { inverted } s.text (if inverted then s.invert else s) := by
  obtain ⟨m, rfl⟩ | rfl := plain_cases hplain
  · have hstep : (if inverted then (move m false).invert else .move m false) =
        .move m inverted := by cases inverted <;> rfl
    rw [hstep]
    cases m with
    | field name => exact Path.reads_field hs.1 hs.2
    | index slot =>
      refine Path.reads_group (fun hmem => ?_) (Path.bracket?_ofInt slot)
      rcases Text.mem_ofInt hmem with h | h <;> cases h
    | each => exact Path.reads_group (List.not_mem_nil : ']' ∉ []) rfl
    | parent => exact ⟨[], { text := ['^'], inverted }, rfl, fun rest => rfl⟩
    | root => exact ⟨[], { text := ['^', '^'], inverted }, rfl, fun rest => rfl⟩
    | merge => exact hs.elim
  · exact ⟨[], { text := ['|'], inverted }, by cases inverted <;> rfl, fun rest => rfl⟩

theorem reads (hs : s.Printable) : Path.Reads {} s.text s := by
  cases hinverted : s.isInverted with
  | false => exact reads_plain hs hinverted false
  | true =>
    obtain ⟨p, hp, hplain, rfl, htext⟩ := exists_plain hs hinverted
    obtain ⟨made, t, hmade, hscan⟩ := reads_plain hp hplain true
    rw [htext]
    exact ⟨made, t, hmade, hscan⟩

/-- The written form of a plain step begins with neither a dot nor an inversion mark. -/
theorem text_plain (hs : s.Printable) (hplain : s.isInverted = false) :
    ∃ c rest, s.text = c :: rest ∧ c ≠ '.' ∧ c ≠ '>' := by
  obtain ⟨m, rfl⟩ | rfl := plain_cases hplain
  · cases m with
    | field name =>
      obtain ⟨c, rest, hname⟩ := List.exists_cons_of_ne_nil (mt String.toList_eq_nil_iff.1 hs.1)
      have htext : (move (.field name) false).text =
          (if isPathSyntax c then ['\\', c] else [c]) ++ Path.escaped isPathSyntax rest := by
        rw [← Path.escaped_cons, ← hname]
        rfl
      rw [htext]
      cases hc : isPathSyntax c with
      | true => exact ⟨_, _, rfl, by decide, by decide⟩
      | false =>
        refine ⟨_, _, rfl, ?_, ?_⟩
        all_goals
          rintro rfl
          cases hc
    | index | each | parent | root => exact ⟨_, _, rfl, by decide, by decide⟩
    | merge => exact hs.elim
  · exact ⟨_, _, rfl, by decide, by decide⟩

theorem tight_plain (hs : s.Printable) (hplain : s.isInverted = false) : Text.Tight s.text := by
  obtain ⟨m, rfl⟩ | rfl := plain_cases hplain
  · cases m with
    | field name => exact Path.tight_escaped isPathSyntax (Text.trim_eq_self_iff.1 hs.2)
    | index slot =>
      refine .cons rfl (.of_forall fun c hc => ?_)
      rcases List.mem_append.1 hc with hdigit | hclose
      · exact Text.isBlank_of_mem_ofInt hdigit
      · obtain rfl := List.mem_singleton.1 hclose
        rfl
    | each | parent | root => exact Path.tight_syntax rfl
    | merge => exact hs.elim
  · exact Path.tight_syntax rfl

theorem tight_text (hs : s.Printable) : Text.Tight s.text := by
  cases hinverted : s.isInverted with
  | false => exact tight_plain hs hinverted
  | true =>
    obtain ⟨p, hp, hplain, rfl, htext⟩ := exists_plain hs hinverted
    rw [htext]
    exact .cons rfl (tight_plain hp hplain)

theorem text_ne_nil (hs : s.Printable) : s.text ≠ [] := by
  cases hinverted : s.isInverted with
  | false =>
    obtain ⟨c, rest, htext, -⟩ := text_plain hs hinverted
    simp [htext]
  | true =>
    obtain ⟨p, -, -, -, htext⟩ := exists_plain hs hinverted
    simp [htext]

end PathStep

/-! ### Paths -/

namespace Path

/-- The written form of a path. -/
def joined (steps : List PathStep) : List Char :=
  ['.'].intercalate (steps.map PathStep.text)

theorem joined_cons (s : PathStep) {rest : List PathStep} (h : rest ≠ []) :
    joined (s :: rest) = s.text ++ '.' :: joined rest := by
  have hrest : rest.map PathStep.text ≠ [] := by simpa using h
  rw [joined, List.map_cons, List.intercalate_cons_of_ne_nil hrest, List.append_assoc]
  rfl

variable {steps : List PathStep}

theorem tight_joined (h : ∀ s ∈ steps, s.Printable) (hne : steps ≠ []) :
    Text.Tight (joined steps) ∧ joined steps ≠ [] := by
  induction steps with
  | nil => exact absurd rfl hne
  | cons s rest ih =>
    obtain ⟨hs, hrest⟩ := List.forall_mem_cons.1 h
    by_cases hlast : rest = []
    · subst hlast
      simpa [joined] using ⟨PathStep.tight_text hs, PathStep.text_ne_nil hs⟩
    · obtain ⟨htight, hjoined⟩ := ih hrest hlast
      rw [joined_cons s hlast]
      exact ⟨(PathStep.tight_text hs).append_cons htight (PathStep.text_ne_nil hs) hjoined '.',
        by simp⟩

theorem scan_joined (h : ∀ s ∈ steps, s.Printable) (hne : steps ≠ []) :
    scan .token {} (joined steps) = steps := by
  induction steps with
  | nil => exact absurd rfl hne
  | cons s rest ih =>
    obtain ⟨hs, hrest⟩ := List.forall_mem_cons.1 h
    by_cases hlast : rest = []
    · subst hlast
      simpa [joined] using (PathStep.reads hs).last
    · rw [joined_cons s hlast, (PathStep.reads hs).dot, ih hrest hlast]

theorem read_behind_mark {c : Char} {rest : List Char} (h : Text.Tight (c :: rest))
    (hdot : c ≠ '.') :
    read ('>' :: c :: rest) = (scan .token {} (c :: rest)).map PathStep.invert := by
  rw [read, Text.trim_eq_self_iff.2 (.cons rfl h)]
  simp only [Text.trimStart_eq_self_iff.2 h.first, body_cons hdot]

theorem toList_displays (steps : List PathStep) :
    (".".intercalate (steps.map PathStep.display)).toList = joined steps := by
  have htexts : (steps.map PathStep.display).map String.toList = steps.map PathStep.text := by
    rw [List.map_map]
    exact List.map_congr_left fun s _ => String.toList_ofList
  rw [String.toList_intercalate, htexts]
  rfl

theorem read_joined (h : ∀ s ∈ steps, s.Printable) (hne : steps ≠ [])
    (hfirst : ∀ s ∈ steps.head?, s.isInverted = false) : read (joined steps) = steps := by
  obtain ⟨s, rest, rfl⟩ := List.exists_cons_of_ne_nil hne
  obtain ⟨c, text, htext, hdot, hmark⟩ :=
    PathStep.text_plain (h s List.mem_cons_self) (hfirst s rfl)
  obtain ⟨more, hmore⟩ : ∃ more, joined (s :: rest) = c :: more := by
    by_cases hlast : rest = []
    · subst hlast
      exact ⟨text, by simpa [joined] using htext⟩
    · rw [joined_cons s hlast, htext]
      exact ⟨_, rfl⟩
  have htight := (tight_joined h hne).1
  rw [hmore] at htight ⊢
  rw [read_of_trim (Text.trim_eq_self_iff.2 htight) hdot hmark, ← hmore, scan_joined h hne]

theorem read_text {s : PathStep} (hs : s.Printable) : read s.text = [s] := by
  cases hinverted : s.isInverted with
  | false =>
    have hprintable : ∀ a ∈ [s], a.Printable := by simpa using hs
    have hjoined := read_joined hprintable (by simp) (by simpa using hinverted)
    simpa [joined] using hjoined
  | true =>
    obtain ⟨p, hp, hplain, rfl, htext⟩ := PathStep.exists_plain hs hinverted
    obtain ⟨c, rest, hp', hdot, -⟩ := PathStep.text_plain hp hplain
    have htight := PathStep.tight_plain hp hplain
    have hscan := (PathStep.reads_plain hp hplain false).last
    rw [hp'] at htight hscan
    rw [htext, hp', read_behind_mark htight hdot, hscan]
    rfl

/-- A path is read back from the written forms of its steps with dots between them; a mark in front
of the path would invert every step, so the first one has none. Each step on its own is read back
with its mark, and so are the merges that have a written form: the one that keeps the current value
has none unless it is inverted. -/
theorem tokenize_display :
    (∀ steps : List PathStep, steps ≠ [] → (∀ s ∈ steps, s.Printable) →
        (∀ s ∈ steps.head?, s.isInverted = false) →
        tokenize (".".intercalate (steps.map PathStep.display)) = steps) ∧
      ∀ s : PathStep, s.Printable ∨ (∃ inverted, s = .move (.merge .target) inverted) ∨
          s = .move (.merge .current) true →
        tokenize s.display = [s] := by
  have hsingle (s : PathStep) : tokenize s.display = read s.text := by
    rw [tokenize, PathStep.display, String.toList_ofList]
  refine ⟨fun steps hne h hfirst => ?_, fun s hs => ?_⟩
  · rw [tokenize, toList_displays, read_joined h hne hfirst]
  · rw [hsingle]
    obtain hs | ⟨inverted, rfl⟩ | rfl := hs
    · exact read_text hs
    · cases inverted <;> rfl
    · rfl

theorem tokenize_display_marks :
    let steps : List PathStep := [.move (.field "a.b[0]") false, .move (.field "> ^") true,
      .move (.index (-1)) false, .barrier .reverse, .move .root true]
    ".".intercalate (steps.map PathStep.display) = "a\\.b\\[0\\].>\\> \\^.[-1].>|.>^^" ∧
      tokenize "a\\.b\\[0\\].>\\> \\^.[-1].>|.>^^" = steps ∧
      tokenize ">\\^" = [.move (.field "^") true] ∧
      tokenize ">." = [.move (.merge .current) true] := by
  intro steps
  have hprintable : ∀ s ∈ steps, s.Printable := by
    simp only [steps, List.forall_mem_cons]
    exact ⟨⟨by decide, by decide⟩, ⟨by decide, by decide⟩, trivial, trivial, trivial, by simp⟩
  have htext : ".".intercalate (steps.map PathStep.display) =
      "a\\.b\\[0\\].>\\> \\^.[-1].>|.>^^" := by decide
  have hpath := tokenize_display.1 steps (by simp [steps]) hprintable (by simp [steps]; rfl)
  rw [htext] at hpath
  exact ⟨htext, hpath, tokenize_display.2 (.move (.field "^") true) (.inl ⟨by decide, by decide⟩),
    tokenize_display.2 _ (.inr (.inr rfl))⟩

/-! ### Names with every character escaped -/

/-- A name with a backslash in front of each character. -/
def escapeAll (name : String) : String :=
  String.ofList (name.toList.flatMap fun c => ['\\', c])

theorem toList_escapeAll (name : String) :
    (escapeAll name).toList = escaped (fun _ => true) name.toList :=
  String.toList_ofList

theorem scan_escapeAll (name rest : List Char) :
    scan .token {} (escaped (fun _ => true) name ++ rest) =
      scan .token { text := name, literal := !name.isEmpty } rest := by
  rw [scan_escaped fun _ _ => rfl]
  cases name <;> rfl

theorem trim_escapeAll (init : List Char) (c : Char) :
    Text.trim (escaped (fun _ => true) (init ++ [c])) =
      escaped (fun _ => true) init ++ '\\' :: Text.trimEnd [c] := by
  have hlast : escaped (fun _ => true) (init ++ [c]) =
      escaped (fun _ => true) init ++ '\\' :: [c] := by simp [escaped]
  have hfirst : Text.trimStart (escaped (fun _ => true) init) = escaped (fun _ => true) init := by
    rw [Text.trimStart_eq_self_iff]
    cases init with
    | nil => simp [escaped]
    | cons a init =>
      rintro _ ⟨⟩
      rfl
  rw [hlast, Text.trim_append_cons rfl, hfirst]

theorem read_escapeAll (init : List Char) (c : Char) :
    read (escaped (fun _ => true) (init ++ [c])) =
      if Text.isBlank c then Token.steps { text := init, literal := !init.isEmpty }
      else [.move (.field (String.ofList (init ++ [c]))) false] := by
  have htrim := trim_escapeAll init c
  obtain ⟨more, hmore⟩ : ∃ more,
      escaped (fun _ => true) init ++ '\\' :: Text.trimEnd [c] = '\\' :: more := by
    cases init with
    | nil => exact ⟨_, rfl⟩
    | cons => exact ⟨_, rfl⟩
  rw [read_of_trim (htrim.trans hmore) (by decide) (by decide), ← hmore]
  cases hc : Text.isBlank c with
  | true =>
    have hend : Text.trimEnd [c] = [] := by simp [Text.trimEnd, hc]
    rw [hend, scan_escapeAll]
    rfl
  | false =>
    have hend : Text.trimEnd [c] = [c] := by simp [Text.trimEnd, hc]
    have hlast : escaped (fun _ => true) init ++ '\\' :: [c] =
        escaped (fun _ => true) (init ++ [c]) ++ [] := by simp [escaped]
    rw [hend, hlast, scan_escapeAll]
    exact Token.steps_name (by simp) (.inl (by simp))

/-- With a backslash in front of every character, a name is the path of its field exactly if it does
not end in a blank. A blank at the end is trimmed off the path with only its backslash left, which
then escapes nothing. -/
theorem tokenize_escapeAll {name : String} (hne : name ≠ "") :
    tokenize (escapeAll name) = [.move (.field name) false] ↔
      ∀ c ∈ name.toList.getLast?, Text.isBlank c = false := by
  obtain hnil | ⟨init, c, hname⟩ := List.eq_nil_or_concat name.toList
  · exact absurd (String.toList_eq_nil_iff.1 hnil) hne
  obtain rfl : name = String.ofList (init ++ [c]) := by
    rw [← List.concat_eq_append, ← hname, String.ofList_toList]
  have hlast : (init ++ [c]).getLast? = some c := by simp
  simp only [tokenize, toList_escapeAll, String.toList_ofList, read_escapeAll, hlast,
    Option.mem_some_iff, forall_eq']
  cases hc : Text.isBlank c with
  | true =>
    simp only [if_true, Bool.true_eq_false, iff_false]
    intro hsteps
    cases init with
    | nil => exact List.cons_ne_nil _ _ hsteps.symm
    | cons a init =>
      rw [Token.steps_name (by simp) (.inl rfl)] at hsteps
      simp only [List.cons.injEq, PathStep.move.injEq, Move.field.injEq, String.ofList_inj]
        at hsteps
      simp at hsteps
  | false => simp

theorem tokenize_escapeAll_syntax :
    escapeAll " ^a[" = "\\ \\^\\a\\[" ∧
      tokenize "\\ \\^\\a\\[" = [.move (.field " ^a[") false] := by
  have htext : escapeAll " ^a[" = "\\ \\^\\a\\[" := by decide
  refine ⟨htext, ?_⟩
  rw [← htext, tokenize_escapeAll (by decide)]
  intro c hlast
  obtain rfl : '[' = c := Option.some.inj hlast
  rfl

/-- A blank alone is escaped to no step at all, and one at the end is lost. -/
theorem tokenize_escapeAll_blank :
    tokenize (escapeAll " ") = [] ∧ tokenize (escapeAll "a ") = [.move (.field "a") false] ∧
      tokenize (escapeAll " ") ≠ [.move (.field " ") false] := by
  have hnone : tokenize (escapeAll " ") = [] := rfl
  refine ⟨hnone, rfl, ?_⟩
  rw [hnone]
  exact (List.cons_ne_nil _ _).symm

end Path

end Reshape
