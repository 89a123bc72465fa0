/-
Call trees.

A mapping says for each function number which function called it first: itself if it was called
from outside, zero if it never ran.  `CallTree.ofMapping` turns it into a tree under a root that
stands for the outside.  Every function with an entry gets one node, after the node of its caller; a
caller without an entry, out of range, or one that would close a circle is replaced by the root.
Slots are cleared as their nodes are made.  Levels are words of 32 bits, so below the greatest one
they begin again at zero.
-/

namespace MutationAnalysis

structure CallNode where
  /-- The function's number, zero for the root. -/
  function : Nat
  /-- How far below the root the node is. -/
  level : UInt32
  parent : Option Nat
  children : List Nat
  deriving Repr, DecidableEq

/-- Nodes by number; the root is the first. -/
structure CallTree where
  nodes : Array CallNode
  deriving Repr, DecidableEq

namespace CallTree

def root : CallTree := ⟨#[⟨0, 0, none, []⟩]⟩

/-- The number of the node of a function; the root is the node of none. -/
def find? (t : CallTree) (function : Nat) : Option Nat :=
  (t.nodes.findIdx? fun n => n.parent.isSome && n.function == function)

def level? (t : CallTree) (function : Nat) : Option UInt32 := do
  let i ← t.find? function
  let n ← t.nodes[i]?
  return n.level

/-- Adds a node under the one of the given number. -/
def addNode (t : CallTree) (function parent : Nat) : CallTree :=
  let index := t.nodes.size
  let level := ((t.nodes[parent]?).map (·.level)).getD 0 + 1
  let nodes := t.nodes.modify parent fun n => { n with children := n.children ++ [index] }
  ⟨nodes.push ⟨function, level, some parent, []⟩⟩

/-- The functions without a node from one upwards through its callers, the last caller first.
The walk ends at a function with a node, at one met before, at one called from outside, and
where a caller has no entry. -/
def climb (t : CallTree) (mapping : Array Nat) : Nat → List Nat → Nat → List Nat
  | 0, chain, _ => chain
  | fuel + 1, chain, current =>
    if (t.find? current).isSome || chain.contains current then chain
    else
      match mapping[current]? with
      | none | some 0 => chain
      | some caller =>
        if caller = current then current :: chain
        else climb t mapping fuel (current :: chain) caller

/-- A tree in the making, with the entries that are left. -/
structure Growth where
  tree : CallTree
  mapping : Array Nat

/-- Makes the node of a function whose entry is there and clears its slot. -/
def Growth.place (g : Growth) (function : Nat) : Growth :=
  let caller := g.mapping.getD function 0
  let parent := if caller = function then 0 else (g.tree.find? caller).getD 0
  ⟨g.tree.addNode function parent, g.mapping.setIfInBounds function 0⟩

/-- Makes the nodes of a function with an entry and of the callers that it needs. -/
def Growth.attach (g : Growth) (function : Nat) : Growth :=
  if g.mapping.getD function 0 = 0 then g
  else (g.tree.climb g.mapping (g.mapping.size + 1) [] function).foldl Growth.place g

/-- The tree of a mapping and what is left of it. -/
def grow (mapping : Array Nat) : Growth :=
  ((List.range mapping.size).drop 1).foldl Growth.attach ⟨root, mapping⟩

def ofMapping (mapping : Array Nat) : CallTree := (grow mapping).tree

/-- Nodes, the root included. -/
def size (t : CallTree) : Nat := t.nodes.size

/-- Whether there is nothing but the root. -/
def isEmpty (t : CallTree) : Bool := t.nodes.size == 1

/-- The functions other than the entry that are at most so far from the
outside, with their distances. -/
def testees (t : CallTree) (entry maxDistance : Nat) : List (Nat × Nat) :=
  (t.nodes.toList.drop 1).filterMap fun n =>
    if n.function ≠ entry ∧ (n.level - 1).toNat ≤ maxDistance then
      some (n.function, (n.level - 1).toNat)
    else none

end CallTree

end MutationAnalysis
