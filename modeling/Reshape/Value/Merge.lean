import Reshape.Direction
import Reshape.Value.Basic

/-!
# Merging values

Three ways to bring two values together. `shallowMerge` and `spreadInto` unite two maps one level
deep and differ in whose keys come first; `deepMerge` unites them at every level. An absent entry
never replaces a present one.
-/

namespace Reshape

/-- Settles one incoming binding: a new key is appended and an absent entry is filled; a present
entry is replaced only when the incoming side `wins`. -/
def Entries.settle (wins : Bool) (es : Entries Value) (key : String) (value : Value) :
    Entries Value :=
  if value.isAbsent then es
  else match es.get? key with
    | none => es.insert key value
    | some old => if old.isAbsent || wins then es.insert key value else es

def Entries.settleAll (wins : Bool) (es : Entries Value) (incoming : Entries Value) :
    Entries Value :=
  incoming.foldl (fun acc b => acc.settle wins b.1 b.2) es

namespace Value

/-- The union of two maps, `current`'s keys first. Where only one side is a map it is the result;
where neither is, `current` is unless it is absent. -/
def shallowMerge (current target : Value) (prefer : Preference) : Value :=
  match current, target with
  | map cur, map tgt => map (Entries.settleAll (prefer == .target) cur tgt)
  | map cur, _ => map cur
  | _, map tgt => map tgt
  | absent, tgt => tgt
  | cur, _ => cur

/-- The shallow merge of `incoming` with an accumulator whose keys keep their place. -/
def spreadInto (acc incoming : Value) (prefer : Preference) : Value :=
  match acc, incoming with
  | map acc, map inc => map (Entries.settleAll (prefer == .current) acc inc)
  | acc, inc => shallowMerge inc acc prefer

mutual

/-- The union of two maps at every level, `base`'s keys first; elsewhere `incoming` replaces `base`
unless it is absent. -/
def deepMerge (base incoming : Value) : Value :=
  match incoming with
  | absent => base
  | map inc =>
    match base with
    | map es => map (deepMergeEntries es inc)
    | _ => map inc
  | v => v

def deepMergeEntries (base incoming : List (String × Value)) : List (String × Value) :=
  match incoming with
  | [] => base
  | (key, value) :: rest =>
    let merged :=
      if value.isAbsent then base
      else match Entries.get? base key with
        | none => Entries.insert base key value
        | some old => Entries.insert base key (deepMerge old value)
    deepMergeEntries merged rest

end

end Value

end Reshape
