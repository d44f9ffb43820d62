import Reshape.Proofs.Pipeline.Flow
import Reshape.Proofs.Pipeline.Suspension

/-!
# Lookups

A forward lookup finds elements by a property, and a reverse one reads the property back
(`lookup_roundTrip`). Both read their paths in a plain forward state that shares nothing but the
nonvalues, where a path is a function of the value (`exists_yields`). So what a lookup makes of a
key is a matter of the elements and the property alone (`Lookup.pick`), and neither the direction
of the run nor its flips, its target or its context have a part in it, but for the lowest frame
that the elements are read from.
-/

namespace Reshape

variable {ω : Type}

/-! ### Paths as functions -/

/-- Tasks that are finished, with the same result. -/
def TaskRelation.finished : TaskRelation ω where
  tasks P t t' := ∃ a, P a ∧ t = .done a ∧ t' = .done a
  done h := ⟨_, h, rfl, rfl⟩
  bind := by
    rintro α β P Q _ _ f f' ⟨a, ha, rfl, rfl⟩ hf
    exact hf a ha
  joinAll := by
    intro α P ts ts' h
    have hresults : ∃ as : List α, (∀ a ∈ as, P a) ∧ ts = as.map .done ∧ ts' = as.map .done := by
      induction h with
      | nil => exact ⟨[], by simp, rfl, rfl⟩
      | cons ht _ ih =>
        obtain ⟨a, ha, rfl, rfl⟩ := ht
        obtain ⟨as, has, rfl, rfl⟩ := ih
        exact ⟨a :: as, List.forall_mem_cons.2 ⟨ha, has⟩, rfl, rfl⟩
    obtain ⟨as, has, rfl, rfl⟩ := hresults
    exact ⟨as, has, Task.joinAll_done as, Task.joinAll_done as⟩

/-- In the state `s`, the steps make `f v` of every value `v`, and at once. -/
def Pipeline.Yields (p : Pipeline ω) (s : State) (f : Value → Value) : Prop :=
  ∀ v, p.runSteps v s = .done (f v)

theorem ingredients_ofPath (steps : List PathStep) :
    Pipeline.ingredients (Step.ofPath steps : Pipeline ω) = [] := by
  induction steps with
  | nil => rfl
  | cons step rest ih => exact ih

/-- Only calls, sources and shapes can make a run anything else than a function of the value. -/
theorem exists_yields {p : Pipeline ω} (hp : p.ingredients = []) (s : State) :
    ∃ f, p.Yields s f := by
  have hruns : (Simulation.within (ω := ω) .finished Value.hereditary_true).Runs false
      p.runSteps (p.rewire {}).runSteps :=
    Simulation.parts <| Simulation.stepParts fun i hi =>
      (List.eq_nil_iff_forall_not_mem.1 hp i hi).elim
  have hread (v : Value) : ∃ u, p.runSteps v s = .done u := by
    obtain ⟨u, -, hu, -⟩ := hruns v s s trivial ⟨rfl, by simp, by simp⟩
    exact ⟨u, hu⟩
  choose f hf using hread
  exact ⟨f, hf⟩

theorem Context.bottom?_push (c : Context) (v : Value) :
    (c.push v).bottom? = some (c.bottom?.getD v) :=
  List.getLast?_cons

/-! ### Finding and recalling keys -/

namespace Lookup

section
variable (ns : Nonvalues) (property : Value → Value)

/-- An element has the key: neither the element nor its property is a nonvalue, and the property
equals the key. -/
def Has (k c : Value) : Prop :=
  ns.contains c = false ∧ ns.contains (property c) = false ∧ (property c).eqv k = true

instance (k c : Value) : Decidable (Has ns property k c) :=
  inferInstanceAs (Decidable (_ ∧ _ ∧ _))

/-- The answer to a key: the first element that has it, or absence if there is none. -/
inductive Answers (elements : List Value) (k : Value) : Value → Prop where
  | first {front back : List Value} {c : Value} : elements = front ++ c :: back →
      Has ns property k c → (∀ b ∈ front, ¬Has ns property k b) → Answers elements k c
  | missing : (∀ c ∈ elements, ¬Has ns property k c) → Answers elements k .absent

def pick (elements : List Value) (k : Value) : Value :=
  (elements.find? (Has ns property k ·)).getD .absent

variable {ns property} {elements : List Value} {k c : Value}

theorem answers_pick : Answers ns property elements k (pick ns property elements k) := by
  rw [pick]
  cases hfind : elements.find? (Has ns property k ·) with
  | none => exact .missing (by simpa using hfind)
  | some c =>
    obtain ⟨hc, front, back, hsplit, hfront⟩ := List.find?_eq_some_iff_append.1 hfind
    exact .first hsplit (by simpa using hc) (by simpa using hfront)

/-- To look through the present elements for a present property is to look through the elements. -/
theorem find?_keyed :
    (((elements.filter (!ns.contains ·)).map fun c => (property c, c)).find?
        fun kc => !ns.contains kc.1 && kc.1.eqv k) =
      (elements.find? (Has ns property k ·)).map fun c => (property c, c) := by
  rw [List.find?_map, List.find?_filter]
  congr 2
  funext c
  rw [Bool.eq_iff_iff, decide_eq_true_iff, decide_eq_true_iff]
  simp [Has]

theorem Answers.has (h : Answers ns property elements k c) (hc : c ≠ .absent) :
    Has ns property k c := by
  cases h with
  | first _ hhas _ => exact hhas
  | missing => exact absurd rfl hc

end

/-- Treats each item of a sequence, and anything else as it is. -/
def perKey (f : Value → Value) : Value → Value
  | .seq items => .seq (items.map f)
  | v => f v

theorem perKey_of_not_isSeq {v : Value} (h : v.isSeq = false) (f : Value → Value) :
    perKey f v = f v := by
  cases v with
  | seq => cases h
  | _ => rfl

end Lookup

open Lookup

/-! ### The items of a sequence -/

/-- An operation takes a value for itself: whatever it is run on, but if it iterates not a nonvalue
that it passes over, nor a sequence that it takes item by item. -/
def State.Takes (iterate : Bool) (s : State) (v : Value) : Prop :=
  iterate = true → (s.isNonvalue v && !s.always) = false ∧ v.isSeq = false

section
variable {body : Runner ω} {f : Value → Value} {s : State} (iterate : Bool)

theorem perItem_key {v : Value} (hv : v.isSeq = false) (hbody : body v s = .done (perKey f v)) :
    runOp.perItem iterate body v s = .done (f v) := by
  rw [perKey_of_not_isSeq hv] at hbody
  cases iterate with
  | false => exact hbody
  | true =>
    cases v with
    | seq => cases hv
    | _ => exact hbody

/-- What treats the items of a sequence also does so if it iterates, but for the items that it does
not take. -/
theorem perItem_seq {items : List Value}
    (hbody : body (.seq items) s = .done (perKey f (.seq items)))
    (hitem : ∀ x, body x (s.pushContext (.seq items)) = .done (perKey f x)) :
    ∃ g, runOp.perItem iterate body (.seq items) s = .done (.seq (items.map g)) ∧
      ∀ x, s.Takes iterate x → g x = f x := by
  cases iterate with
  | false => exact ⟨f, hbody, fun _ _ => rfl⟩
  | true =>
    have hitems : Task.forItems (fun item => if s.isNonvalue item && !s.always then .done item
          else body item (s.pushContext (.seq items))) items =
        .done (items.map fun x => if s.isNonvalue x && !s.always then x else perKey f x) :=
      Task.forItems_done (fun x => by rw [hitem]; split <;> rfl) items
    refine ⟨_, congrArg (Task.map Value.seq) hitems, fun x hx => ?_⟩
    obtain ⟨hruns, hx⟩ := hx rfl
    rw [hruns, perKey_of_not_isSeq hx]
    rfl

end

/-! ### There and back -/

section
variable {array key : Pipeline ω} {s : State} {found property : Value → Value}
  (hproperty : key.Yields s.reader property)
include hproperty

theorem runLookup_reverse (array : Runner ω) {t : State} (ht : t.effective = .reverse)
    (hns : t.nonvalues = s.nonvalues) (v : Value) :
    Op.runLookup array key.runSteps v t = .done (perKey property v) := by
  have hreverse : t.isReverse = true := congrArg Direction.isReverse ht
  have hreader : t.reader = s.reader := by rw [State.reader, hns, State.reader]
  simp only [Op.runLookup, hreverse, if_true, hreader]
  cases v with
  | seq items => exact congrArg (Task.map Value.seq) (Task.forItems_done hproperty items)
  | _ => exact hproperty _

/-- In reverse, the property of an element comes back. -/
theorem runOp_lookup_reverse (array : Pipeline ω) (iterate : Bool) {t : State}
    (ht : t.effective = .reverse) (hns : t.nonvalues = s.nonvalues) {c : Value}
    (hc : c.isSeq = false) :
    runOp iterate (.lookup array key) c t = .done (property c) :=
  perItem_key iterate hc (runLookup_reverse hproperty _ ht hns c)

theorem runOp_lookup_reverse_seq (array : Pipeline ω) (iterate : Bool) {t : State}
    (ht : t.effective = .reverse) (hns : t.nonvalues = s.nonvalues) (items : List Value) :
    ∃ recover, runOp iterate (.lookup array key) (.seq items) t =
        .done (.seq (items.map recover)) ∧
      ∀ c, t.Takes iterate c → recover c = property c :=
  perItem_seq iterate (runLookup_reverse hproperty _ ht hns _)
    (runLookup_reverse (t := t.pushContext (.seq items)) hproperty _ ht hns)

variable (hfound : array.Yields s.reader found)
  (hs : s.effective = .forward)
include hfound hs

theorem runLookup_forward (c : Context) (v : Value) :
    Op.runLookup array.runSteps key.runSteps v (s.withContext c) =
      .done (perKey (pick s.nonvalues property (found (c.bottom?.getD v)).toItems) v) := by
  have hforward : (s.withContext c).isReverse = false := congrArg Direction.isReverse hs
  have hkeyed (candidates : List Value) :
      Task.forItems (fun c => (key.runSteps c s.reader).map fun k => (k, c))
          candidates = .done (candidates.map fun c => (property c, c)) :=
    Task.forItems_done (fun c => by rw [hproperty, Task.map_done]) candidates
  have hreader : (s.withContext c).reader = s.reader := rfl
  have hcontext : (s.withContext c).context = c := rfl
  have hnonvalue (v : Value) : s.reader.isNonvalue v = s.nonvalues.contains v := rfl
  simp only [Op.runLookup, hforward, Bool.false_eq_true, if_false, hreader, hfound _,
    Task.bind_def, Task.done_bind, hkeyed, hcontext, hnonvalue]
  cases v with
  | seq keys =>
    refine congrArg (fun answers => Task.done (Value.seq answers))
      (List.map_congr_left fun k _ => ?_)
    rw [find?_keyed, pick]
    cases List.find? _ _ <;> rfl
  | _ =>
    refine congrArg Task.done ?_
    rw [find?_keyed, perKey_of_not_isSeq rfl, pick]
    cases List.find? _ _ <;> rfl

/-- A key is answered with the first element that has it. -/
theorem runOp_lookup_forward (iterate : Bool) {k : Value} (hk : k.isSeq = false) :
    ∃ c, runOp iterate (.lookup array key) k s = .done c ∧
      Answers s.nonvalues property (found (s.context.bottom?.getD k)).toItems k c :=
  ⟨_, perItem_key iterate hk (runLookup_forward hproperty hfound hs s.context k), answers_pick⟩

/-- The keys of a sequence are answered one by one. An iterating step looks for the elements in the
same frame: the keys are the lowest one only where there is none below them. -/
theorem runOp_lookup_forward_seq (iterate : Bool) (keys : List Value) :
    ∃ answer, runOp iterate (.lookup array key) (.seq keys) s =
        .done (.seq (keys.map answer)) ∧
      ∀ k, s.Takes iterate k → Answers s.nonvalues property
        (found (s.context.bottom?.getD (.seq keys))).toItems k (answer k) := by
  have hitem (x : Value) :=
    runLookup_forward hproperty hfound hs (s.context.push (.seq keys)) x
  simp only [Context.bottom?_push, Option.getD_some] at hitem
  obtain ⟨answer, hanswer, hpick⟩ :=
    perItem_seq iterate (runLookup_forward hproperty hfound hs s.context (.seq keys)) hitem
  refine ⟨answer, hanswer, fun k hk => ?_⟩
  rw [hpick k hk]
  exact answers_pick

end

/-- In a forward state, a lookup answers a key with the first element that has it. The elements come
from the lowest frame of the context, or from the value itself where there is none. In a reverse
state with the same nonvalues, whatever the rest of it, the lookup makes of the answer the property
that equals the key. The keys of a sequence are answered one by one, and recalled one by one, except
for those that an iterating step does not take. -/
theorem lookup_roundTrip (array key : List PathStep) (iterate : Bool) {s : State}
    (hs : s.effective = .forward) :
    ∃ found property : Value → Value,
      Pipeline.Yields (Step.ofPath array : Pipeline ω) s.reader found ∧
      Pipeline.Yields (Step.ofPath key : Pipeline ω) s.reader property ∧
      let lookup : Runner ω := runOp iterate (.lookup (Step.ofPath array) (Step.ofPath key))
      let Answers (v : Value) :=
        Lookup.Answers s.nonvalues property (found (s.context.bottom?.getD v)).toItems
      (∀ k, k.isSeq = false → ∃ c, lookup k s = .done c ∧ Answers k k c ∧
        (c ≠ .absent → c.isSeq = false →
          ∀ s' : State, s'.effective = .reverse → s'.nonvalues = s.nonvalues →
            lookup c s' = .done (property c) ∧ (property c).eqv k = true)) ∧
      ∀ keys, ∃ answer, lookup (.seq keys) s = .done (.seq (keys.map answer)) ∧
        (∀ k, s.Takes iterate k → Answers (.seq keys) k (answer k)) ∧
        ∀ s' : State, s'.effective = .reverse → s'.nonvalues = s.nonvalues →
          ∃ recover, lookup (.seq (keys.map answer)) s' =
              .done (.seq ((keys.map answer).map recover)) ∧
            ∀ k, s.Takes iterate k → answer k ≠ .absent → (answer k).isSeq = false →
              recover (answer k) = property (answer k) ∧ (property (answer k)).eqv k = true := by
  obtain ⟨found, hfound⟩ := exists_yields (ingredients_ofPath (ω := ω) array) s.reader
  obtain ⟨property, hproperty⟩ := exists_yields (ingredients_ofPath (ω := ω) key) s.reader
  refine ⟨found, property, hfound, hproperty, ?_⟩
  intro lookup Answers
  refine ⟨fun k hk => ?_, fun keys => ?_⟩
  · obtain ⟨c, hrun, hc⟩ := runOp_lookup_forward hproperty hfound hs iterate hk
    refine ⟨c, hrun, hc, fun hne hseq s' hs' hns => ?_⟩
    exact ⟨runOp_lookup_reverse hproperty (Step.ofPath array) iterate hs' hns hseq,
      (hc.has hne).2.2⟩
  · obtain ⟨answer, hrun, hanswers⟩ := runOp_lookup_forward_seq hproperty hfound hs iterate keys
    refine ⟨answer, hrun, hanswers, fun s' hs' hns => ?_⟩
    obtain ⟨recover, hback, hrecall⟩ :=
      runOp_lookup_reverse_seq hproperty (Step.ofPath array) iterate hs' hns (keys.map answer)
    refine ⟨recover, hback, fun k hk hne hseq => ?_⟩
    obtain ⟨hpresent, -, heqv⟩ := (hanswers k hk).has hne
    have htakes : s'.Takes iterate (answer k) := fun _ => by
      rw [State.isNonvalue, hns, hpresent]
      exact ⟨rfl, hseq⟩
    exact ⟨hrecall _ htakes, heqv⟩

/-- Of two elements with one id the first is found, here by a float that equals the integer. A
nonvalue among the elements and one among their ids are passed over, and the way back is taken in a
flipped state with a target and a context of its own. -/
theorem lookup_roundTrip_duplicates :
    let lookup : Runner Unit :=
      runOp false (.lookup (Step.ofPath [.move (.field "items") false])
        (Step.ofPath [.move (.field "id") false]))
    let a : Value := .map [("id", .int 7), ("n", .str "a")]
    let b : Value := .map [("id", .int 7), ("n", .str "b")]
    let items : Value := .seq [.null, .map [("id", .null)], a, b]
    let s : State := { direction := .reverse, flip := true, nonvalues := ⟨[.null]⟩,
                       context := [.str "inner", .map [("items", items)]] }
    let s' : State := { flip := true, nonvalues := ⟨[.null]⟩, target := some (.map []),
                        context := [.map []] }
    s.effective = .forward ∧ s'.effective = .reverse ∧
      lookup (.float 7.0) s = .done a ∧
      (∃ k, lookup a s' = .done k ∧ k.eqv (.float 7.0) = true) ∧
      lookup (.seq [.int 7, .null, .str "x"]) s = .done (.seq [a, .absent, .absent]) ∧
      ∃ k back, lookup (.seq [a, .absent, .absent]) s' = .done (.seq (k :: back)) ∧
        back.length = 2 ∧ k.eqv (.int 7) = true := by
  intro lookup a b items s s'
  have ha : a ≠ .absent := fun h => nomatch h
  obtain ⟨found, property, -, -, hkey, hkeys⟩ :=
    lookup_roundTrip (ω := Unit) [.move (.field "items") false] [.move (.field "id") false] false
      (s := s) rfl
  have hforward : lookup (.float 7.0) s = .done a := rfl
  obtain ⟨c, hc, -, hback⟩ := hkey (.float 7.0) rfl
  obtain rfl : c = a := Task.done.inj (hc.symm.trans hforward)
  have hforwards : lookup (.seq [.int 7, .null, .str "x"]) s =
      .done (.seq [a, .absent, .absent]) := rfl
  obtain ⟨answer, hanswer, -, hbacks⟩ := hkeys [.int 7, .null, .str "x"]
  obtain ⟨recover, hrecall, hslots⟩ := hbacks s' rfl rfl
  have hanswers : [.int 7, .null, .str "x"].map answer = [a, .absent, .absent] :=
    Value.seq.inj (Task.done.inj (hanswer.symm.trans hforwards))
  have hfirst : answer (.int 7) = a := (List.cons.inj hanswers).1
  rw [hanswers] at hrecall
  obtain ⟨hproperty, heqv⟩ := hslots (.int 7) nofun (hfirst ▸ ha) (hfirst ▸ rfl)
  rw [← hproperty, hfirst] at heqv
  exact ⟨rfl, rfl, hforward, ⟨_, hback ha rfl s' rfl rfl⟩, hforwards, _, _, hrecall, rfl, heqv⟩

/-- An element whose property equals the key is passed over if the property is a nonvalue, even
where the key is none: the nonvalue and the key round to the same double, and the property is that
double. -/
theorem lookup_passes_nonvalue_property :
    let lookup : Runner Unit :=
      runOp false (.lookup (Step.ofPath [.move (.field "items") false])
        (Step.ofPath [.move (.field "id") false]))
    let k : Value := .int 9007199254740992
    let b : Value := .map [("id", .float 9007199254740992), ("n", .str "b")]
    let c : Value := .map [("id", k), ("n", .str "c")]
    let s : State := { nonvalues := ⟨[.int 9007199254740993]⟩,
                       context := [.map [("key", k), ("items", .seq [b, c])]] }
    s.effective = .forward ∧ s.isNonvalue k = false ∧
      Pipeline.runSteps (Step.ofPath [.move (.field "items") false] : Pipeline Unit)
        (.map [("key", k), ("items", .seq [b, c])]) s.reader = .done (.seq [b, c]) ∧
      s.isNonvalue b = false ∧
      Pipeline.runSteps (Step.ofPath [.move (.field "id") false] : Pipeline Unit) b s.reader =
        .done (.float 9007199254740992) ∧
      (Value.float 9007199254740992).eqv k = true ∧
      s.isNonvalue (.float 9007199254740992) = true ∧
      lookup k s = .done c ∧ (.done c : Task Unit Value) ≠ .done b := by
  refine ⟨rfl, rfl, rfl, rfl, rfl, rfl, rfl, rfl, ?_⟩
  simp

end Reshape
