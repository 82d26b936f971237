/-!
# Items of a rule stream

A rule base is written as a flat list of signed integers of a fixed width. The five lowest
values of the width are sentinels: the beginning and the end of the stream, the connectives AND
and OR, and THEN. Every other value is a tag or a reference to a membership function.

`Width.maxReference` is the largest magnitude of a reference that stays above the sentinels,
and so the number of membership functions that one side can name.
-/

set_option autoImplicit false

namespace FuzzyInference

/-- The width of a stream item: eight or sixteen bits, signed. -/
inductive Width where
  | byte
  | word
  deriving DecidableEq

namespace Width

/-- The number of tags that the nonnegative values of the width can name. -/
def maxTags : Width → Nat
  | byte => 128
  | word => 32768

/-- The lowest value of the width. -/
def lowest (w : Width) : Int := -(w.maxTags : Int)

/-- The number of membership functions that references of the width can name: the negated
reference to the last of them lies just above the highest sentinel. -/
def maxReference (w : Width) : Nat := w.maxTags - 5

/-- The item that a number is cast to. It keeps the low bits of the number. -/
def wrap (w : Width) (n : Int) : Int := n.bmod (2 * w.maxTags)

end Width

/-- The reserved items. -/
inductive Sentinel where
  /-- Opens the stream. -/
  | opening
  /-- Closes the stream. -/
  | closing
  | and
  | or
  /-- Separates the premise of a rule from its consequents. -/
  | implies
  deriving DecidableEq

namespace Sentinel

/-- Every sentinel, in the order of their values. -/
def all : List Sentinel := [opening, closing, and, or, implies]

/-- The distance of a sentinel from the lowest value of the width. -/
def rank : Sentinel → Nat
  | opening => 0
  | closing => 1
  | and => 2
  | or => 3
  | implies => 4

/-- The item that stands for a sentinel. -/
def code (w : Width) (s : Sentinel) : Int := w.lowest + s.rank

/-- The sentinel that an item stands for, if it is reserved. -/
def ofItem? (w : Width) (item : Int) : Option Sentinel :=
  all.find? fun s => item = s.code w

end Sentinel

/-- A classified item: a sentinel, or a tag or reference. -/
inductive Token where
  | sentinel (s : Sentinel)
  | item (value : Int)
  deriving DecidableEq

namespace Token

/-- Classifies an item. -/
def ofItem (w : Width) (item : Int) : Token :=
  match Sentinel.ofItem? w item with
  | some s => sentinel s
  | none => .item item

/-- The item that a token was read from. -/
def code (w : Width) : Token → Int
  | sentinel s => s.code w
  | item value => value

/-- Whether the token is a reserved item. -/
def isSentinel : Token → Bool
  | sentinel _ => true
  | item _ => false

end Token

end FuzzyInference
