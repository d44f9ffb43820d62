import Reshape.Proofs.Path.Names

/-!
# Blanks beside separators

Blanks beside a dot that separates two tokens do not change what a path is read as, unless the token
that they touch is literal: it holds an escape, or a bracket group without a meaning, and is then
taken as it stands, with its blanks (`tokenize_blanks`). A `Cursor` tells where a scan stands and
whether its token is literal; both are up to the characters alone (`scan_follow`). Blanks before a
dot end up behind the text of the token that ends there, and blanks behind it in front of the text
of the next one, whatever that is made of (`scan_indent`).
-/

namespace Reshape

/-! ### Blanks at the ends of a text -/

namespace Text

variable {blanks : List Char} (hblanks : ∀ c ∈ blanks, isBlank c = true)
include hblanks

theorem trimStart_append_blanks (cs : List Char) :
    trimStart (cs ++ blanks) = if trimStart cs = [] then [] else trimStart cs ++ blanks := by
  have hstart : trimStart blanks = [] := List.dropWhile_eq_nil_iff.2 hblanks
  rw [trimStart, List.dropWhile_append]
  simp only [List.isEmpty_iff]
  exact if_congr Iff.rfl hstart rfl

theorem trimEnd_blanks_append (cs : List Char) :
    trimEnd (blanks ++ cs) = if trimEnd cs = [] then [] else blanks ++ trimEnd cs := by
  have hreverse : ∀ c ∈ blanks.reverse, isBlank c = true := by simpa using hblanks
  have hstart := trimStart_append_blanks hreverse cs.reverse
  rw [trimEnd, List.reverse_append, ← trimStart, hstart, apply_ite List.reverse]
  simp [trimEnd, trimStart]

theorem trim_append_blanks (cs : List Char) : trim (cs ++ blanks) = trim cs := by
  rw [← trim_trimEnd, trimEnd_append hblanks, trim_trimEnd]

theorem trim_blanks_append (cs : List Char) : trim (blanks ++ cs) = trim cs := by
  rw [← trim_trimStart, trimStart, List.dropWhile_append_of_pos hblanks, ← trimStart,
    trim_trimStart]

end Text

namespace Path

/-- Where a scan stands, and whether characters of the token there were taken literally. -/
structure Cursor where
  place : Place := .token
  literal : Bool := false

namespace Cursor

/-- The cursor behind a character. -/
def next (u : Cursor) (c : Char) : Cursor :=
  match u.place with
  | .token =>
    if c = '\\' then { u with place := .escape }
    else if c = '.' then {}
    else if c = '[' then { u with place := .bracket [] }
    else u
  | .escape => { literal := true }
  | .bracket inner =>
    if c = ']' then { literal := (bracket? inner).isNone }
    else { u with place := .bracket (inner ++ [c]) }

/-- The cursor behind a text. -/
def follow (u : Cursor) (cs : List Char) : Cursor :=
  cs.foldl next u

/-- Does the token end with this character? A dot ends it, and so does a bracket group with a
meaning. -/
def endsAt (u : Cursor) (c : Char) : Bool :=
  match u.place with
  | .token => c = '.'
  | .escape => false
  | .bracket inner => c = ']' && (bracket? inner).isSome

/-- Is the token literal at its end? A bracket group that is not closed is part of it. -/
def endsLiteral (u : Cursor) : List Char → Bool
  | [] =>
    match u.place with
    | .bracket _ => true
    | _ => u.literal
  | c :: rest => if u.endsAt c then u.literal else (u.next c).endsLiteral rest

end Cursor

/-! ### Tokens with blanks around their text -/

/-- Only a literal token shows the blanks around its text. -/
theorem Token.steps_retext_iff {t : Token} {cs : List Char}
    (htrim : Text.trim cs = Text.trim t.text) :
    Token.steps { t with text := cs } = t.steps ↔ t.literal = false ∨ cs = t.text := by
  obtain ⟨text, inverted, literal⟩ := t
  cases literal with
  | false => simp [steps, show Text.trim cs = Text.trim text from htrim]
  | true =>
    cases cs with
    | nil => cases text <;> simp [steps]
    | cons c cs => cases text <;> simp [steps, String.ofList_inj]

/-- A token whose text has more characters in front. -/
def Token.indent (blanks : List Char) (t : Token) : Token :=
  { t with text := blanks ++ t.text }

theorem Token.isFresh_indent {blanks : List Char} (h : ∀ c ∈ blanks, Text.isBlank c = true)
    (t : Token) : (t.indent blanks).isFresh = t.isFresh := by
  have hblanks : Text.allBlank blanks = true := List.all_eq_true.2 h
  simp only [Text.allBlank] at hblanks
  simp [isFresh, indent, Text.allBlank, hblanks]

/-! ### Scanning on -/

/-- Until the token ends, blanks in front of its text stay there. -/
theorem scan_within {place : Place} {t : Token} {c : Char}
    (h : Cursor.endsAt ⟨place, t.literal⟩ c = false) :
    ∃ t' : Token, t'.literal = (Cursor.next ⟨place, t.literal⟩ c).literal ∧
      ∀ blanks, (∀ a ∈ blanks, Text.isBlank a = true) → ∀ rest,
        scan place (t.indent blanks) (c :: rest) =
          scan (Cursor.next ⟨place, t.literal⟩ c).place (t'.indent blanks) rest := by
  cases place with
  | token =>
    have hdot : c ≠ '.' := by simpa [Cursor.endsAt] using h
    by_cases hescape : c = '\\'
    · exact ⟨t, by simp [Cursor.next, hescape],
        fun blanks _ rest => by simp [scan, Cursor.next, hescape]⟩
    by_cases hopen : c = '['
    · exact ⟨t, by simp [Cursor.next, hopen],
        fun blanks _ rest => by simp [scan, Cursor.next, hopen]⟩
    by_cases hmark : c = '>' ∧ t.isFresh = true
    · refine ⟨{ t with inverted := true }, by simp [Cursor.next, hmark.1],
        fun blanks hblanks rest => ?_⟩
      -- a token of blanks is as fresh as an empty one, so a mark stays a mark
      have hscan : scan .token (t.indent blanks) (c :: rest) =
          scan .token { t.indent blanks with inverted := true } rest := by
        simp [scan, hmark, Token.isFresh_indent hblanks]
      rw [hscan, hmark.1]
      rfl
    · refine ⟨t.push c, by simp [Cursor.next, hescape, hdot, hopen, Token.push],
        fun blanks hblanks rest => ?_⟩
      have hscan : scan .token (t.indent blanks) (c :: rest) =
          scan .token ((t.indent blanks).push c) rest := by
        simp [scan, hescape, hdot, hopen, hmark, Token.isFresh_indent hblanks]
      rw [hscan]
      simp [Cursor.next, hescape, hdot, hopen, Token.push, Token.indent]
  | escape =>
    refine ⟨t.pushLiteral [c], rfl, fun blanks _ rest => ?_⟩
    simp [scan, Cursor.next, Token.pushLiteral, Token.indent]
  | bracket inner =>
    by_cases hclose : c = ']'
    · have hgroup : bracket? inner = none := by simpa [Cursor.endsAt, hclose] using h
      refine ⟨t.pushLiteral ('[' :: inner ++ [']']),
        by simp [Cursor.next, hclose, hgroup, Token.pushLiteral], fun blanks _ rest => ?_⟩
      simp [scan, Cursor.next, hclose, hgroup, Token.pushLiteral, Token.indent]
    · exact ⟨t, by simp [Cursor.next, hclose],
        fun blanks _ rest => by simp [scan, Cursor.next, hclose]⟩

/-- What comes behind the end of a token does not depend on its text. -/
theorem scan_end {place : Place} {t : Token} {c : Char}
    (h : Cursor.endsAt ⟨place, t.literal⟩ c = true) :
    ∃ (made : List PathStep) (t' : Token),
      t'.literal = (Cursor.next ⟨place, t.literal⟩ c).literal ∧
      ∀ blanks rest, scan place (t.indent blanks) (c :: rest) =
        (t.indent blanks).steps ++
          (made ++ scan (Cursor.next ⟨place, t.literal⟩ c).place t' rest) := by
  cases place with
  | token =>
    obtain rfl : c = '.' := by simpa [Cursor.endsAt] using h
    exact ⟨[], {}, rfl, fun blanks rest => scan_dot _ rest⟩
  | escape => cases h
  | bracket inner =>
    simp only [Cursor.endsAt, Bool.and_eq_true, decide_eq_true_eq] at h
    obtain ⟨m, hm⟩ := Option.isSome_iff_exists.1 h.2
    refine ⟨[.move m t.inverted], t.afterBracket, ?_, fun blanks rest => ?_⟩
    · simp [Cursor.next, h.1, hm, Token.afterBracket]
    · simp only [scan, Cursor.next, h.1, if_true, hm]
      rfl

/-- One character makes steps and leaves a token, whatever follows. -/
theorem scan_next (place : Place) (t : Token) (c : Char) :
    ∃ made t', t'.literal = (Cursor.next ⟨place, t.literal⟩ c).literal ∧
      ∀ rest, scan place t (c :: rest) =
        made ++ scan (Cursor.next ⟨place, t.literal⟩ c).place t' rest := by
  cases hend : Cursor.endsAt ⟨place, t.literal⟩ c with
  | true =>
    obtain ⟨made, t', hliteral, hscan⟩ := scan_end hend
    refine ⟨t.steps ++ made, t', hliteral, fun rest => ?_⟩
    rw [List.append_assoc]
    exact hscan [] rest
  | false =>
    obtain ⟨t', hliteral, hscan⟩ := scan_within hend
    exact ⟨[], t', hliteral, hscan [] (by simp)⟩

theorem scan_follow (place : Place) (t : Token) (cs : List Char) :
    ∃ made t', t'.literal = (Cursor.follow ⟨place, t.literal⟩ cs).literal ∧
      ∀ rest, scan place t (cs ++ rest) =
        made ++ scan (Cursor.follow ⟨place, t.literal⟩ cs).place t' rest := by
  induction cs generalizing place t with
  | nil => exact ⟨[], t, rfl, fun rest => rfl⟩
  | cons c cs ih =>
    obtain ⟨made, t', hliteral, hscan⟩ := scan_next place t c
    obtain ⟨more, t'', hliteral', hscan'⟩ := ih (Cursor.next ⟨place, t.literal⟩ c).place t'
    rw [hliteral] at hliteral' hscan'
    refine ⟨made ++ more, t'', hliteral', fun rest => ?_⟩
    rw [List.cons_append, hscan, hscan', List.append_assoc]
    rfl

theorem scan_indent (place : Place) (t : Token) (cs : List Char) :
    ∃ (t' : Token) (more : List PathStep), t'.literal = Cursor.endsLiteral ⟨place, t.literal⟩ cs ∧
      ∀ blanks, (∀ a ∈ blanks, Text.isBlank a = true) →
        scan place (t.indent blanks) cs = (t'.indent blanks).steps ++ more := by
  induction cs generalizing place t with
  | nil =>
    cases place with
    | bracket inner =>
      refine ⟨t.pushLiteral ('[' :: inner), [], rfl, fun blanks _ => ?_⟩
      simp [scan, Token.pushLiteral, Token.indent]
    | token | escape => exact ⟨t, [], rfl, fun blanks _ => (List.append_nil _).symm⟩
  | cons c rest ih =>
    cases hend : Cursor.endsAt ⟨place, t.literal⟩ c with
    | true =>
      obtain ⟨made, t', -, hscan⟩ := scan_end hend
      exact ⟨t, _, by simp [Cursor.endsLiteral, hend], fun blanks _ => hscan blanks rest⟩
    | false =>
      obtain ⟨t', hliteral, hscan⟩ := scan_within hend
      obtain ⟨t'', more, hliteral', hscan'⟩ := ih (Cursor.next ⟨place, t.literal⟩ c).place t'
      rw [hliteral] at hliteral'
      refine ⟨t'', more, by simpa [Cursor.endsLiteral, hend] using hliteral',
        fun blanks hblanks => ?_⟩
      rw [hscan blanks hblanks rest, hscan' blanks hblanks]

/-! ### Paths -/

/-- Is all of a path inverted, and what of it is read then? -/
def opened (path : List Char) : Bool × List Char :=
  match Text.trimStart path with
  | '>' :: rest => (true, Text.trimStart rest)
  | cs => (false, cs)

/-- What is read of a path: all but the blanks around it and the `>` in front of it. -/
def bodyOf (path : String) : List Char :=
  (opened (Text.trim path.toList)).2

theorem read_eq (path : List Char) :
    read path = (if (opened (Text.trim path)).1 then List.map PathStep.invert else id)
      (body (opened (Text.trim path)).1 (opened (Text.trim path)).2) := by
  rw [read, opened, Text.trimStart_trim]
  cases Text.trim path with
  | nil => rfl
  | cons c rest =>
    by_cases hmark : c = '>'
    · subst hmark
      rfl
    · simp [hmark]

/-- What stands in front of a dot is opened alone. -/
theorem opened_trim_dot (front back : List Char) :
    opened (Text.trim (front ++ '.' :: back)) =
      ((opened front).1, (opened front).2 ++ '.' :: Text.trimEnd back) := by
  have hstart : Text.trimStart (Text.trimStart front) = Text.trimStart front :=
    List.dropWhile_idempotent Text.isBlank front
  rw [Text.trim_append_cons rfl, opened, Text.trimStart_append_cons rfl, hstart, opened]
  cases Text.trimStart front with
  | nil => rfl
  | cons c rest =>
    by_cases hmark : c = '>'
    · subst hmark
      simp [Text.trimStart_append_cons (c := '.') rfl]
    · simp [hmark]

theorem Cursor.next_blank {c : Char} (hc : Text.isBlank c = true) : Cursor.next {} c = {} := by
  have hsyntax {a : Char} (ha : Text.isBlank a = false) : c ≠ a := by
    rintro rfl
    exact Bool.false_ne_true (ha.symm.trans hc)
  simp [next, hsyntax (a := '\\') rfl, hsyntax (a := '.') rfl, hsyntax (a := '[') rfl]

theorem Cursor.follow_trimStart (cs : List Char) :
    Cursor.follow {} (Text.trimStart cs) = Cursor.follow {} cs := by
  induction cs with
  | nil => rfl
  | cons c rest ih =>
    by_cases hc : Text.isBlank c = true
    · have hstart : Text.trimStart (c :: rest) = Text.trimStart rest :=
        List.dropWhile_cons_of_pos hc
      rw [hstart, ih, follow, follow, List.foldl_cons, next_blank hc]
    · have hstart : Text.trimStart (c :: rest) = c :: rest := List.dropWhile_cons_of_neg hc
      rw [hstart]

/-- Blanks and a mark in front of a path leave the cursor where it is. -/
theorem Cursor.follow_opened (front : List Char) :
    Cursor.follow {} (opened front).2 = Cursor.follow {} front := by
  rw [← follow_trimStart front, opened]
  cases Text.trimStart front with
  | nil => rfl
  | cons c rest =>
    by_cases hmark : c = '>'
    · subst hmark
      exact follow_trimStart rest
    · simp [hmark]

theorem body_dot {front back : List Char} (hne : front ≠ [] ∨ back ≠ [])
    (hdots : front ++ '.' :: back ≠ ['.', '.', '.']) (inverted : Bool) :
    body inverted (front ++ '.' :: back) = scan .token {} (front ++ '.' :: back) := by
  have hdot : front ++ '.' :: back ≠ ['.'] := by
    cases front with
    | nil => simpa using hne
    | cons => simp
  simp [body, hdot, hdots]

/-- Two paths that are opened alike are read alike exactly if their bodies are. -/
theorem read_eq_read_iff {p q : List Char}
    (h : (opened (Text.trim p)).1 = (opened (Text.trim q)).1) :
    read p = read q ↔
      body (opened (Text.trim p)).1 (opened (Text.trim p)).2 =
        body (opened (Text.trim q)).1 (opened (Text.trim q)).2 := by
  have hinvert : Function.Injective (List.map PathStep.invert) :=
    List.map_injective_iff.2 (Function.LeftInverse.injective PathStep.invert_invert)
  rw [read_eq p, read_eq q, h]
  split
  · exact hinvert.eq_iff
  · exact Iff.rfl

section Blanks

variable {blanks : List Char} (hblanks : ∀ c ∈ blanks, Text.isBlank c = true)
include hblanks

theorem opened_append_blanks (front : List Char) :
    opened (front ++ blanks) =
      ((opened front).1, if (opened front).2 = [] then [] else (opened front).2 ++ blanks) := by
  rw [opened, Text.trimStart_append_blanks hblanks, opened]
  cases Text.trimStart front with
  | nil => rfl
  | cons c rest =>
    by_cases hmark : c = '>'
    · subst hmark
      simp [Text.trimStart_append_blanks hblanks]
    · simp [hmark]

theorem plain_of_blanks : ∀ c ∈ blanks, isPathSyntax c = false := fun c hc =>
  Bool.eq_false_iff.2 fun hsyntax =>
    Bool.false_ne_true ((isBlank_of_isPathSyntax hsyntax).symm.trans (hblanks c hc))

theorem ne_dots_of_blanks (hne : blanks ≠ []) {cs : List Char} (hsub : blanks ⊆ cs) :
    cs ≠ ['.', '.', '.'] := by
  rintro rfl
  obtain ⟨c, hc⟩ := List.exists_mem_of_ne_nil _ hne
  have hdot : c = '.' := by simpa using hsub hc
  subst hdot
  exact absurd (hblanks _ hc) (by decide)

/-- Blanks before a separator belong to the token that it ends. -/
theorem read_blanks_before {front back : List Char}
    (hplace : (Cursor.follow {} front).place = .token)
    (hbody : (opened (Text.trim (front ++ '.' :: back))).2 ≠ ['.', '.', '.']) :
    read (front ++ blanks ++ '.' :: back) = read (front ++ '.' :: back) ↔
      blanks = [] ∨ (Cursor.follow {} front).literal = false := by
  rw [read_eq_read_iff (by simp only [opened_trim_dot, opened_append_blanks hblanks])]
  simp only [opened_trim_dot, opened_append_blanks hblanks] at hbody ⊢
  rw [← Cursor.follow_opened] at hplace ⊢
  generalize (opened front).1 = inverted, (opened front).2 = g at hplace hbody ⊢
  -- with nothing in front of the dot the blanks are trimmed off with those around the path
  by_cases hg : g = []
  · subst hg
    exact iff_of_true rfl (.inr rfl)
  by_cases hnone : blanks = []
  · simp [hnone, hg]
  obtain ⟨made, t, hliteral, hscan⟩ := scan_follow .token {} g
  rw [hplace] at hscan
  have hdots : g ++ blanks ++ '.' :: Text.trimEnd back ≠ ['.', '.', '.'] :=
    ne_dots_of_blanks hblanks hnone fun c hc => by simp [hc]
  rw [if_neg hg, body_dot (by simp [hg]) hdots, body_dot (.inl hg) hbody, List.append_assoc,
    hscan, hscan, scan_name (plain_of_blanks hblanks), scan_dot, scan_dot,
    List.append_cancel_left_eq, List.append_cancel_right_eq,
    Token.steps_retext_iff (Text.trim_append_blanks hblanks _)]
  simp [hnone, hliteral, or_comm]

/-- Blanks behind a separator belong to the token that begins there. -/
theorem read_blanks_behind {front back : List Char}
    (hplace : (Cursor.follow {} front).place = .token)
    (hbody : (opened (Text.trim (front ++ '.' :: back))).2 ≠ ['.', '.', '.']) :
    read (front ++ '.' :: (blanks ++ back)) = read (front ++ '.' :: back) ↔
      blanks = [] ∨ Cursor.endsLiteral {} (Text.trimEnd back) = false := by
  rw [read_eq_read_iff (by simp only [opened_trim_dot])]
  simp only [opened_trim_dot, Text.trimEnd_blanks_append hblanks] at hbody ⊢
  rw [← Cursor.follow_opened] at hplace
  generalize (opened front).1 = inverted, (opened front).2 = g, Text.trimEnd back = rest
    at hplace hbody ⊢
  by_cases hrest : rest = []
  · subst hrest
    exact iff_of_true rfl (.inr rfl)
  by_cases hnone : blanks = []
  · simp [hnone, hrest]
  obtain ⟨made, t, -, hscan⟩ := scan_follow .token {} g
  rw [hplace] at hscan
  obtain ⟨t', more, hliteral, hindent⟩ := scan_indent .token {} rest
  have hdots : g ++ '.' :: (blanks ++ rest) ≠ ['.', '.', '.'] :=
    ne_dots_of_blanks hblanks hnone fun c hc => by simp [hc]
  have hshort : scan .token {} rest = t'.steps ++ more := hindent [] (by simp)
  have hlong : scan .token {} (blanks ++ rest) = (t'.indent blanks).steps ++ more := by
    rw [scan_name (plain_of_blanks hblanks), ← hindent blanks hblanks]
    simp [Token.indent]
  rw [if_neg hrest, body_dot (by simp [hrest]) hdots, body_dot (.inr hrest) hbody, hscan, hscan,
    scan_dot, scan_dot, hshort, hlong, List.append_cancel_left_eq, List.append_cancel_left_eq,
    List.append_cancel_right_eq, Token.indent,
    Token.steps_retext_iff (Text.trim_blanks_append hblanks _)]
  simp [hnone, hliteral, or_comm]

end Blanks

/-- A dot behind this text separates tokens: it is not escaped and in no bracket group. -/
def Separates (front : String) : Prop :=
  (Cursor.follow {} front.toList).place = .token

/-- Is the token literal that ends with this text? -/
def endsInLiteral (front : String) : Bool :=
  (Cursor.follow {} front.toList).literal

/-- Is the token literal that begins with this text, the last of a path? -/
def beginsWithLiteral (back : String) : Bool :=
  Cursor.endsLiteral {} (Text.trimEnd back.toList)

/-- Blanks beside a separator do not change what a path is read as, unless the token on their side
of it is literal, which then has them in its name. Only the path of three dots is not made of
tokens. -/
theorem tokenize_blanks {front back blanks : String}
    (hblanks : ∀ c ∈ blanks.toList, Text.isBlank c = true) (hdot : Separates front)
    (hbody : bodyOf (front ++ "." ++ back) ≠ ['.', '.', '.']) :
    (tokenize (front ++ blanks ++ "." ++ back) = tokenize (front ++ "." ++ back) ↔
        blanks = "" ∨ endsInLiteral front = false) ∧
      (tokenize (front ++ "." ++ blanks ++ back) = tokenize (front ++ "." ++ back) ↔
        blanks = "" ∨ beginsWithLiteral back = false) := by
  have hchars : (front ++ "." ++ back).toList = front.toList ++ '.' :: back.toList := by simp
  have hbefore : (front ++ blanks ++ "." ++ back).toList =
      front.toList ++ blanks.toList ++ '.' :: back.toList := by simp
  have hbehind : (front ++ "." ++ blanks ++ back).toList =
      front.toList ++ '.' :: (blanks.toList ++ back.toList) := by simp
  rw [bodyOf, hchars] at hbody
  simp only [tokenize, hchars, hbefore, hbehind, endsInLiteral, beginsWithLiteral,
    ← String.toList_eq_nil_iff (b := blanks)]
  exact ⟨read_blanks_before hblanks hdot hbody, read_blanks_behind hblanks hdot hbody⟩

theorem tokenize_blanks_marks :
    let steps : List PathStep := [.move (.field "x.y") true, .move (.index 0) true,
      .move .parent false, .move (.index 1) false, .move (.field "z") true]
    Separates ">x\\.y[0]" ∧ endsInLiteral ">x\\.y[0]" = false ∧
      beginsWithLiteral " >^[ 1 ].z" = false ∧ tokenize ">x\\.y[0]. >^[ 1 ].z" = steps ∧
      tokenize ">x\\.y[0]\t . >^[ 1 ].z" = steps ∧ tokenize ">x\\.y[0].\t  >^[ 1 ].z" = steps := by
  intro steps
  have hblanks : ∀ c ∈ "\t ".toList, Text.isBlank c = true := List.all_eq_true.1 rfl
  have hsteps : tokenize ">x\\.y[0]. >^[ 1 ].z" = steps := rfl
  have h := @tokenize_blanks ">x\\.y[0]" " >^[ 1 ].z" "\t " hblanks rfl (by decide)
  exact ⟨rfl, rfl, rfl, hsteps, (h.1.2 (.inr rfl)).trans hsteps, (h.2.2 (.inr rfl)).trans hsteps⟩

/-- The blank between an escaped letter and a separator ends up in the name. -/
theorem tokenize_blanks_literal :
    Separates "\\a" ∧ bodyOf "\\a.b" ≠ ['.'] ∧ bodyOf "\\a.b" ≠ ['.', '.', '.'] ∧
      bodyOf "\\a .b" ≠ ['.'] ∧ bodyOf "\\a .b" ≠ ['.', '.', '.'] ∧
      tokenize "\\a.b" = [.move (.field "a") false, .move (.field "b") false] ∧
      tokenize "\\a .b" = [.move (.field "a ") false, .move (.field "b") false] ∧
      tokenize "\\a .b" ≠ tokenize "\\a.b" := by
  refine ⟨rfl, ?_⟩
  decide

end Path

end Reshape
