import Inspector.Linked.Chain
import Inspector.Ngc.Params
import Inspector.Streams.Connections
import Mathlib.Data.UInt

/-! # String parameters

The string parameters of `ngc_params.c` are the nodes of a linked list that are reallocated when a
value gets longer. What `realloc` does is given with each call. A call has no result when it uses a
node that is not allocated, or writes a value behind the memory of its node. Values stand in front
of their terminators.
-/

namespace Inspector

namespace Ngc

open Streams (Allocator)

/-- `NGC_MAX_PARAM_ID`. -/
def maxParamId : UInt32 := 65535

/-- `ngc_string_param_t`. -/
structure StringParam where
  next : Option ℕ := none
  id : UInt32 := 0
  len : ℕ := 0
  value : Name := []
  deriving DecidableEq, Repr

/-- What `realloc` does with a block: it grows in place, it moves, or nothing is done. -/
inductive Realloc
  | inPlace | moved | failed
  deriving DecidableEq, Repr

/-- The nodes and those allocated, the first one, and `ref_id`. -/
structure StringParams where
  nodes : ℕ → StringParam := fun _ => {}
  allocated : List ℕ := []
  head : Option ℕ := none
  refId : UInt32 := 4294967295

namespace StringParams

variable (alloc : Allocator) (s : StringParams)

/-- What is read of a node. -/
def node (i : ℕ) : Option StringParam := if i ∈ s.allocated then some (s.nodes i) else none

/-- A write to a node. -/
def setNode (i : ℕ) (p : StringParam) : Option StringParams :=
  if i ∈ s.allocated then some { s with nodes := Function.update s.nodes i p } else none

/-- The bound on the steps of a loop over the list. -/
def bound : ℕ := s.allocated.length + 1

/-- The loops that look for a node; the node in front of it is found as well. -/
def scan (p : StringParam → Bool) : Option (Option ℕ × Option ℕ) :=
  Linked.scan s.node StringParam.next (fun _ => p) s.bound none s.head

/-- `free`. -/
def free (i : ℕ) : Option StringParams :=
  if i ∈ s.allocated then some { s with allocated := s.allocated.erase i } else none

/-- `realloc`; a block is allocated when there is none. -/
def realloc (r : Realloc) (sp : Option ℕ) : Option ℕ × StringParams :=
  let new := alloc.malloc s.allocated
  match r, sp with
  | .failed, _ => (none, s)
  | .inPlace, some i => (some i, s)
  | .moved, some i =>
    (some new, { s with
      nodes := Function.update s.nodes new (s.nodes i)
      allocated := new :: s.allocated.erase i })
  | _, none => (some new, { s with allocated := new :: s.allocated })

/-- `sp_get_by_name`. -/
def spGetByName (name : Name) : Option (Option ℕ) :=
  (s.scan fun sp => maxParamId < sp.id ∧ sp.value = name).map Prod.snd

/-- `ngc_string_param_delete`. -/
def ngcStringParamDelete (id : UInt32) : Option StringParams :=
  match s.head with
  | none => some s
  | some h =>
    (s.node h).bind fun first =>
      if first.id = id then ({ s with head := first.next } : StringParams).free h
      else
        (s.scan fun sr => (sr.next.bind s.node).any fun sp => sp.id = id).bind fun
        | (_, none) => some s
        | (_, some sr) =>
          (s.node sr).bind fun p =>
            p.next.bind fun rm =>
              (s.node rm).bind fun q =>
                (s.setNode sr { p with next := q.next }).bind fun s => s.free rm

/-- The node that has been reallocated is linked in the place of the old one. -/
def relink (spOrg new : ℕ) : Option StringParams :=
  (s.scan fun sr => sr.next = some spOrg).bind fun
  | (_, none) => some s
  | (_, some sr) => (s.node sr).bind fun p => s.setNode sr { p with next := some new }

/-- What `sp_set` does with a node that has been allocated or has grown. -/
def place (last spOrg : Option ℕ) (sp : ℕ) (id : UInt32) (len : ℕ) : Option StringParams :=
  (s.node sp).bind fun p =>
    let p := if spOrg = none then { p with id := id, next := none } else p
    (s.setNode sp { p with len := len }).bind fun s =>
      match last, spOrg with
      | none, _ => some { s with head := some sp }
      | some last, none =>
        (s.node last).bind fun q => s.setNode last { q with next := some sp }
      | some _, some spOrg => if spOrg ≠ sp then s.relink spOrg sp else some s

/-- `strcpy`, to the memory of a node. -/
def strcpy (sp : ℕ) (value : Name) : Option StringParams :=
  (s.node sp).bind fun p =>
    if value.length ≤ p.len then s.setNode sp { p with value := value } else none

/-- The node of a value that has not been set is deleted. -/
def discard (sp : Option ℕ) : Option StringParams :=
  match sp with
  | some sp => (s.node sp).bind fun p => s.ngcStringParamDelete p.id
  | none => some s

/-- A value is longer than the memory of a node, or there is no node. -/
def grows (sp : Option ℕ) (len : ℕ) : Option Bool :=
  match sp with
  | some sp => (s.node sp).map fun p => p.len < len
  | none => some true

/-- `sp_set`. -/
def spSet (id : UInt32) (value : Name) (r : Realloc) : Option (Option ℕ × StringParams) :=
  (s.scan fun sp => sp.id = id).bind fun (last, spOrg) =>
    if value.length ≤ 255 then
      (s.grows spOrg value.length).bind fun grows =>
        if grows then
          match s.realloc alloc r spOrg with
          | (some sp, s) =>
            ((s.place last spOrg sp id value.length).bind fun s => s.strcpy sp value).map
              fun s => (some sp, s)
          | (none, s) => (s.discard spOrg).map fun s => (none, s)
        else spOrg.bind fun sp => (s.strcpy sp value).map fun s => (some sp, s)
    else (s.discard spOrg).map fun s => (none, s)

/-- `ngc_string_param_get`. -/
def ngcStringParamGet (id : UInt32) : Option (Option Name) :=
  (s.scan fun sp => sp.id = id).bind fun
  | (_, none) => some none
  | (_, some sp) => (s.node sp).map fun p => some p.value

/-- `ngc_string_param_set`. -/
def ngcStringParamSet (id : UInt16) (value : Name) (r : Realloc) : Option (Bool × StringParams) :=
  if 0 < id then (s.spSet alloc id.toUInt32 value r).map fun (sp, s) => (sp.isSome, s)
  else some (false, s)

/-- `ngc_string_param_set_name`. -/
def ngcStringParamSetName (name : Name) (r : Realloc) : Option (UInt32 × StringParams) :=
  if name = [] then some (0, s)
  else
    (s.spGetByName name).bind fun
    | some sr => (s.node sr).map fun p => (p.id, s)
    | none =>
      (({ s with refId := s.refId - 1 } : StringParams).spSet alloc (s.refId - 1) name r).bind fun
      | (some sr, s) => (s.node sr).map fun p => (p.id, s)
      | (none, s) => some (0, s)

end StringParams

/-- The calls, with what `realloc` does. -/
inductive StringOp
  | set (id : UInt16) (value : Name) (r : Realloc)
  | setName (name : Name) (r : Realloc)
  | delete (id : UInt32)

/-- What the calls return. -/
inductive StringAnswer
  | stored (ok : Bool)
  | named (id : UInt32)
  | deleted
  deriving DecidableEq, Repr

/-- A call. -/
def StringOp.exec (alloc : Allocator) (s : StringParams) :
    StringOp → Option (StringAnswer × StringParams)
  | .set id value r => (s.ngcStringParamSet alloc id value r).map fun (ok, s) => (.stored ok, s)
  | .setName name r => (s.ngcStringParamSetName alloc name r).map fun (id, s) => (.named id, s)
  | .delete id => (s.ngcStringParamDelete id).map fun s => (.deleted, s)

end Ngc

end Inspector
