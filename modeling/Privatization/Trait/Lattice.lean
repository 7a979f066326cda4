/-!
# The trait lattice

A trait value summarizes how a loop touches one piece of memory. It is the product of three
components: which written value survives the loop, whether reads make the value from before the
loop observable and whether all iterations may share one copy, and whether the address escapes.
Values only move down while a loop is classified; `Trait.meet` combines two observations. A
dependence lies below everything and keeps only the address component.
-/

namespace Privatization

/-- Which value of a written location is copied out of the loop. -/
inductive CopyOut where
  /-- The location is not written. -/
  | unwritten
  /-- Written and dead after the loop. -/
  | dead
  /-- The value of the last iteration but one survives. -/
  | secondToLast
  /-- The value of the last iteration survives. -/
  | last
  /-- Some iteration's value survives; which one is only known at run time. -/
  | dynamic
  deriving DecidableEq

namespace CopyOut

/-- Greatest lower bound. The order is that of declaration from the top down, except that
`secondToLast` and `last` are incomparable and meet in `dynamic`. -/
def meet : CopyOut → CopyOut → CopyOut
  | unwritten, k | k, unwritten => k
  | dynamic, _ | _, dynamic => dynamic
  | dead, k | k, dead => k
  | secondToLast, secondToLast => secondToLast
  | last, last => last
  | secondToLast, last | last, secondToLast => dynamic

/-- Least upper bound. -/
def join : CopyOut → CopyOut → CopyOut
  | unwritten, _ | _, unwritten => unwritten
  | dynamic, k | k, dynamic => k
  | dead, _ | _, dead => dead
  | secondToLast, secondToLast => secondToLast
  | last, last => last
  | secondToLast, last | last, secondToLast => dead

end CopyOut

/-- How memory is accessed, apart from its address. -/
inductive Access where
  /-- Loop-carried dependence; nothing finer can be said. -/
  | dependency
  /-- No dependence is in the way. With `read` the value from before the loop may be read; with
  `shared` all iterations may use the one copy that is there before the loop. -/
  | independent (copyOut : CopyOut) (read shared : Bool)
  deriving DecidableEq

namespace Access

/-- Greatest lower bound. -/
def meet : Access → Access → Access
  | dependency, _ | _, dependency => dependency
  | independent k₁ r₁ s₁, independent k₂ r₂ s₂ => independent (k₁.meet k₂) (r₁ || r₂) (s₁ || s₂)

/-- Least upper bound. -/
def join : Access → Access → Access
  | dependency, a | a, dependency => a
  | independent k₁ r₁ s₁, independent k₂ r₂ s₂ => independent (k₁.join k₂) (r₁ && r₂) (s₁ && s₂)

end Access

/-- An element of the trait lattice. -/
structure Trait where
  access : Access
  /-- Whether the address escapes the loop body. -/
  addressAccess : Bool
  deriving DecidableEq

/-- A named point of the lattice. -/
inductive TraitPoint where
  | noAccess
  | readonly
  | shared
  | private_
  | firstPrivate
  | secondToLastPrivate
  | lastPrivate
  | dynamicPrivate
  | dependency
  | addressAccess
  deriving DecidableEq

namespace TraitPoint

/-- Every named point, in the order they are searched. -/
def all : List TraitPoint :=
  [noAccess, readonly, shared, private_, firstPrivate, secondToLastPrivate, lastPrivate,
    dynamicPrivate, dependency, addressAccess]

end TraitPoint

namespace Trait

/-- A value without dependence and without address access. -/
def independent (copyOut : CopyOut) (read shared : Bool) : Trait :=
  ⟨.independent copyOut read shared, false⟩

/-- Top of the lattice and identity of `meet`. -/
def noAccess : Trait := independent .unwritten false false
def readonly : Trait := independent .unwritten true false
def shared : Trait := independent .unwritten true true

/-- The shared component alone: memory free of loop-carried dependences, with no claim that its
value from before the loop is read. -/
def shareable : Trait := independent .unwritten false true
def privateOnly : Trait := independent .dead false false
def firstPrivate : Trait := independent .dead true false
def secondToLastPrivate : Trait := independent .secondToLast false false
def lastPrivate : Trait := independent .last false false
def dynamicPrivate : Trait := independent .dynamic false false
def dependency : Trait := ⟨.dependency, false⟩
def addressOnly : Trait := ⟨.independent .unwritten false false, true⟩

/-- Bottom of the lattice. -/
def bottom : Trait := ⟨.dependency, true⟩

/-- The value a named point stands for. -/
def ofPoint : TraitPoint → Trait
  | .noAccess => noAccess
  | .readonly => readonly
  | .shared => shared
  | .private_ => privateOnly
  | .firstPrivate => firstPrivate
  | .secondToLastPrivate => secondToLastPrivate
  | .lastPrivate => lastPrivate
  | .dynamicPrivate => dynamicPrivate
  | .dependency => dependency
  | .addressAccess => addressOnly

/-- Greatest lower bound: what either side says about the memory holds. -/
def meet (a b : Trait) : Trait :=
  ⟨a.access.meet b.access, a.addressAccess || b.addressAccess⟩

/-- Least upper bound: only what both sides agree on. -/
def join (a b : Trait) : Trait :=
  ⟨a.access.join b.access, a.addressAccess && b.addressAccess⟩

instance : Min Trait := ⟨meet⟩

instance : Max Trait := ⟨join⟩

/-- Whether the value is a dependence. -/
def isDependency (a : Trait) : Bool := a.access == .dependency

/-- The value with its address component cleared. -/
def withoutAddress (a : Trait) : Trait := ⟨a.access, false⟩

/-- Whether the value is a named point once its address component is cleared. The point
`addressAccess` asks for the address component alone. -/
def is (a : Trait) : TraitPoint → Bool
  | .addressAccess => a.addressAccess
  | p => a.withoutAddress == ofPoint p

/-- Lattice order: `a` says at least as much as `b`. -/
def isBelow (a b : Trait) : Bool := a.meet b == a

/-- The named point the value is once its address component is cleared, if any. -/
def point? (a : Trait) : Option TraitPoint :=
  (TraitPoint.all.filter (· ≠ .addressAccess)).find? a.is

/-- The word for the copy component, given whether the value from before the loop is read. -/
def copyWord (read : Bool) : CopyOut → String
  | .unwritten => if read then "read only" else "no access"
  | .dead => "private"
  | .secondToLast => "second to last private"
  | .last => "last private"
  | .dynamic => "dynamic private"

/-- The words for the parts of an access. -/
def accessWords : Access → List String
  | .dependency => ["dependency"]
  | .independent k read shared =>
    [copyWord read k]
      ++ (if read && k ≠ .unwritten then ["first private"] else [])
      ++ (if shared then ["shared"] else [])

instance : ToString Trait where
  toString a :=
    " & ".intercalate
      (accessWords a.access ++ if a.addressAccess then ["address access"] else [])

end Trait

end Privatization
