import Privatization.Collection.FlagSet
import Privatization.Trait.Lattice

/-!
# Report categories

What a reader of the result is told about a piece of memory: a set of categories, decoded from a
trait value. Two categories are markers, which survive every reclassification.
-/

namespace Privatization

/-- A category in a report. -/
inductive Category where
  | noAccess
  | readonly
  | shared
  | private_
  | firstPrivate
  | secondToLastPrivate
  | lastPrivate
  | dynamicPrivate
  | flow
  | anti
  | output
  | addressAccess
  | explicitAccess
  deriving DecidableEq

namespace Category

/-- Every category in the order it is reported. -/
def all : List Category :=
  [noAccess, readonly, shared, private_, firstPrivate, secondToLastPrivate, lastPrivate,
    dynamicPrivate, flow, anti, output, addressAccess, explicitAccess]

/-- Position of a category in `all`. -/
def index : Category → Nat
  | noAccess => 0
  | readonly => 1
  | shared => 2
  | private_ => 3
  | firstPrivate => 4
  | secondToLastPrivate => 5
  | lastPrivate => 6
  | dynamicPrivate => 7
  | flow => 8
  | anti => 9
  | output => 10
  | addressAccess => 11
  | explicitAccess => 12

/-- The name of a category in reports. -/
def keyword : Category → String
  | noAccess => "no access"
  | readonly => "read only"
  | shared => "shared"
  | private_ => "private"
  | firstPrivate => "first private"
  | secondToLastPrivate => "second to last private"
  | lastPrivate => "last private"
  | dynamicPrivate => "dynamic private"
  | flow => "flow"
  | anti => "anti"
  | output => "output"
  | addressAccess => "address access"
  | explicitAccess => "explicit access"

end Category

instance : Enumeration Category where
  card := 13
  all := Category.all
  index := Category.index
  index_lt a := by cases a <;> decide
  index_inj a b h := by
    have hget : ∀ c : Category, Category.all[c.index]? = some c := fun c => by cases c <;> rfl
    have ha := hget a
    rw [h, hget b] at ha
    exact (Option.some.inj ha).symm
  index_surj i h := by
    have hlen : i < Category.all.length := h
    have hall : ∀ j : Fin Category.all.length, (Category.all.get j).index = j.1 := by decide
    exact ⟨Category.all.get ⟨i, hlen⟩, hall ⟨i, hlen⟩⟩
  mem_all a := by cases a <;> decide

/-- What is reported about an alias node, an estimate memory or an unknown access. -/
abbrev Categories := FlagSet Category

namespace Categories

/-- The dependence categories. -/
def dependency : Categories := {.flow, .anti, .output}

/-- The private categories. -/
def anyPrivate : Categories :=
  {.private_, .firstPrivate, .secondToLastPrivate, .lastPrivate, .dynamicPrivate}

/-- The categories that survive every reclassification. -/
def markers : Categories := {.addressAccess, .explicitAccess}

end Categories

namespace FlagSet

/-- Replaces every category by flow, anti and output. Markers are kept. -/
def toDependency (s : Categories) : Categories := (s ∩ Categories.markers) ∪ Categories.dependency

/-- Whether some dependence is reported. -/
def isDependency (s : Categories) : Bool := s.meets Categories.dependency

/-- Whether some private category is reported. -/
def isPrivate (s : Categories) : Bool := s.meets Categories.anyPrivate

/-- The names of the categories in the order they are reported. -/
def keywords (s : Categories) : List String := s.toList.map Category.keyword

end FlagSet

namespace Trait

/-- The categories of a copy component, given whether the value from before the loop is read. -/
def copyCategories (read : Bool) : CopyOut → Categories
  | .unwritten => if read then {.readonly} else {.noAccess}
  | .dead => if read then {.firstPrivate} else {.private_}
  | .secondToLast => {.secondToLastPrivate} ∪ if read then {.firstPrivate} else ∅
  | .last => {.lastPrivate} ∪ if read then {.firstPrivate} else ∅
  | .dynamic => {.dynamicPrivate} ∪ if read then {.firstPrivate} else ∅

/-- The categories a trait value is reported under. Shared memory is reported as nothing else. -/
def categories (a : Trait) : Categories :=
  (if a.addressAccess then {.addressAccess} else ∅) ∪
    match a.access with
    | .dependency => Categories.dependency
    | .independent k read shared => if shared then {.shared} else copyCategories read k

end Trait

end Privatization
