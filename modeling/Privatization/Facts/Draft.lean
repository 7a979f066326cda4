import Privatization.Facts.Datum
import Privatization.Facts.Error
import Privatization.Program.Function

/-!
# Functions under construction

A draft is a function together with the labels its statements gave to instructions, alias nodes and
estimate memories. Labels are only used while a file is read; a name must be declared before it is
used.
-/

namespace Privatization.Facts

/-- A function under construction. -/
structure Draft where
  function : Function
  instLabels : OrderedMap String InstId := ∅
  nodeLabels : OrderedMap String AliasNodeId := ∅
  estimateLabels : OrderedMap String EstimateId := ∅

namespace Draft

/-- A function of which nothing but the name is known. -/
def new (name : String) : Draft := { function := { name } }

/-- The alias tree so far. -/
def tree (b : Draft) : AliasTree := b.function.aliasTree.getD ∅

/-- The draft with another alias tree. -/
def withTree (b : Draft) (t : AliasTree) : Draft :=
  { b with function := { b.function with aliasTree := some t } }

/-! ### Resolving names -/

/-- What is declared under a name, if it is declared. -/
def declared {α : Type} (sort : Declared) (name : String) : Option α → Except StatementError α
  | some a => .ok a
  | none => .error (.undeclared sort name)

/-- The value of a given name. -/
def value (b : Draft) (name : String) : Except StatementError ValueId :=
  declared .value name (b.function.findValue? name)

/-- The instruction with a given label. -/
def inst (b : Draft) (label : String) : Except StatementError InstId :=
  declared .instruction label (b.instLabels.get? label)

/-- The alias node with a given label; `top` is the root. -/
def node (b : Draft) (label : String) : Except StatementError AliasNodeId :=
  if label = "top" then .ok AliasTree.top else declared .aliasNode label (b.nodeLabels.get? label)

/-- The estimate memory with a given label. -/
def estimate (b : Draft) (label : String) : Except StatementError EstimateId :=
  declared .estimate label (b.estimateLabels.get? label)

/-- The loop of a given name. -/
def loop (b : Draft) (name : String) : Except StatementError LoopId :=
  declared .loop name (b.function.loops.find? name)

/-- A location, whose name is that of a value. -/
def location (b : Draft) : Datum → Except StatementError MemoryLocation
  | .location name size => (b.value name).map fun ptr => ⟨ptr, size⟩
  | d => .error (.notLocation d.render)

/-- The locations given to an attribute, none if it is absent. -/
def locations (b : Draft) (s : Statement) (key : String) :
    Except StatementError (List MemoryLocation) :=
  match s.attr? key with
  | some d => d.items.mapM b.location
  | none => .ok []

end Draft

/-! ### Reading parts of a statement -/

namespace Statement

/-- The name in a positional place. -/
def nameAt (s : Statement) (index : Nat) (what : String) : Except StatementError String :=
  match (s.positional[index]?).bind Datum.name? with
  | some name => .ok name
  | none => .error (.expectsName s.keyword what)

/-- A value that must be a number and not negative. -/
def natural (what : String) (d : Datum) : Except StatementError Nat :=
  match d.natural? with
  | some n => .ok n
  | none => .error (.notNatural what)

/-- A value that must be a number of 32 bits. -/
def word (what : String) (d : Datum) : Except StatementError Nat := do
  let n ← natural what d
  if n < Decimal.limit32 then .ok n else .error (.tooLarge what)

/-- The value given to an attribute that must be there. -/
def attr (s : Statement) (key : String) : Except StatementError Datum :=
  match s.attr? key with
  | some d => .ok d
  | none => .error (.missingAttr s.keyword key)

/-- The 32-bit number given to an attribute that must be there. -/
def wordAttr (s : Statement) (key : String) : Except StatementError Nat := do
  word key (← s.attr key)

/-- The source location given to an attribute as a text, if the attribute is there. -/
def sourceAttr (s : Statement) (key : String) : Except StatementError (Option SourceLocation) :=
  match s.attr? key with
  | none => .ok none
  | some (.text t) =>
    match SourceLocation.parse? t with
    | some l => .ok (some l)
    | none => .error (.malformedSource t)
  | some _ => .error (.notQuoted key)

end Statement

end Privatization.Facts
