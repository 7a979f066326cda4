import Privatization.Trait.Category

/-!
# Statistics

How many pieces of memory fell into each category. The counters are words of 64 bits: a count that
grows beyond them goes on from zero. Main facts: addition of statistics is addition of the words, so
it is commutative and associative, and the order in which results are counted makes no difference.
-/

namespace Privatization

/-- One counter per reported group of categories. -/
structure Statistics where
  readonly : UInt64 := 0
  shared : UInt64 := 0
  private_ : UInt64 := 0
  firstPrivate : UInt64 := 0
  lastPrivate : UInt64 := 0
  secondToLastPrivate : UInt64 := 0
  dynamicPrivate : UInt64 := 0
  dependency : UInt64 := 0
  addressAccess : UInt64 := 0
  deriving DecidableEq

namespace Statistics

instance : Inhabited Statistics := ⟨{}⟩

/-- Adds every counter. -/
def add (a b : Statistics) : Statistics where
  readonly := a.readonly + b.readonly
  shared := a.shared + b.shared
  private_ := a.private_ + b.private_
  firstPrivate := a.firstPrivate + b.firstPrivate
  lastPrivate := a.lastPrivate + b.lastPrivate
  secondToLastPrivate := a.secondToLastPrivate + b.secondToLastPrivate
  dynamicPrivate := a.dynamicPrivate + b.dynamicPrivate
  dependency := a.dependency + b.dependency
  addressAccess := a.addressAccess + b.addressAccess

instance : Add Statistics := ⟨add⟩

theorem add_comm (a b : Statistics) : a + b = b + a := by
  change add a b = add b a
  simp only [add, UInt64.add_comm]

theorem add_assoc (a b c : Statistics) : a + b + c = a + (b + c) := by
  change add (add a b) c = add a (add b c)
  simp only [add, UInt64.add_assoc]

theorem add_empty (a : Statistics) : a + {} = a := by
  change add a {} = a
  simp only [add, UInt64.add_zero]

/-- `count` pieces of memory reported under the categories `s`. -/
def tally (s : Categories) (count : UInt64) : Statistics :=
  let on (b : Bool) : UInt64 := if b then count else 0
  { readonly := on (s.has .readonly)
    shared := on (s.has .shared)
    private_ := on (s.has .private_)
    firstPrivate := on (s.has .firstPrivate)
    lastPrivate := on (s.has .lastPrivate)
    secondToLastPrivate := on (s.has .secondToLastPrivate)
    dynamicPrivate := on (s.has .dynamicPrivate)
    dependency := on s.isDependency
    addressAccess := on (s.has .addressAccess) }

/-- All pieces counted; an escaping address is not a piece of its own. -/
def total (a : Statistics) : UInt64 :=
  a.readonly + a.shared + a.private_ + a.firstPrivate + a.lastPrivate + a.secondToLastPrivate
    + a.dynamicPrivate + a.dependency

/-- The counters with their names, in the order they are reported. -/
def entries (a : Statistics) : List (String × UInt64) :=
  [("read only", a.readonly), ("shared", a.shared), ("private", a.private_),
    ("first private", a.firstPrivate), ("last private", a.lastPrivate),
    ("second to last private", a.secondToLastPrivate), ("dynamic private", a.dynamicPrivate),
    ("dependency", a.dependency), ("address access", a.addressAccess)]

end Statistics

end Privatization
