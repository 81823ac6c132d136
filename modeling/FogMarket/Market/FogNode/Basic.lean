import Mathlib.Data.Finset.Card
import FogMarket.Library.Transition
import FogMarket.Objects.Bid

namespace Market

-- The map behind the lock of the registry.
abbrev FogNode :=
  Map NodeId (Node NodeRecord)

namespace FogNode

-- The errors of a registration.
inductive Error
  | noRoot
  | severalRoots
  | missingChild (id child : NodeId)
  | wrongParent (id child : NodeId)
  | unknownParent (child parent : NodeId)
  | unlistedChild (parent child : NodeId)
deriving DecidableEq

inductive Outcome
  | ok
  | err (e : Error)
  | panic
deriving DecidableEq

def parent (nodes : FogNode) (id : NodeId) : Option NodeId :=
  (nodes.lookup id).bind (·.parent)

def children (nodes : FogNode) (id : NodeId) : List NodeId :=
  (nodes.lookup id).elim [] (·.children)

def roots (nodes : FogNode) : Finset NodeId :=
  nodes.keys.filter (nodes.parent · = none)

-- `roots.pop().unwrap()` on a vector of length one.
def root (nodes : FogNode) (h : nodes.roots.card = 1) : NodeId :=
  nodes.roots.choose (fun _ => True) <| by
    have ⟨r, hr⟩ := Finset.card_eq_one.mp h
    exact ⟨r, by simp [hr], by simp [hr]⟩

-- `child` is registered under another parent than `id`. A child without parent is not reported.
def Misplaced (nodes : FogNode) (id child : NodeId) : Bool :=
  (nodes.parent child).any (· ≠ id)

-- One iteration of the loop of `check_tree`: the children to push, or why the loop is left.
def visit (nodes : FogNode) (id : NodeId) : Except Outcome (List NodeId) :=
  match nodes.lookup id with
  | none      => .error .panic
  | some node =>
    match node.children.find? (· ∉ nodes) with
    | some child => .error (.err (.missingChild id child))
    | none =>
      match node.children.find? (nodes.Misplaced id) with
      | some child => .error (.err (.wrongParent id child))
      | none       => .ok node.children

-- The loop of `check_tree`. The head of the list is the top of the source's stack, and `fuel` bounds
-- the number of pops: there is no visited set, so that the loop does not end on a cycle.
def traverse (nodes : FogNode) : ℕ → List NodeId → Option Outcome
  | _,     []          => some .ok
  | 0,     _ :: _      => none
  | n + 1, id :: stack =>
    match nodes.visit id with
    | .error outcome => some outcome
    | .ok children   => traverse nodes n (children.reverse ++ stack)

def checkTree (fuel : ℕ) (nodes : FogNode) : Option Outcome :=
  if nodes.roots.card = 0 then
    some (.err .noRoot)
  else if h : nodes.roots.card = 1 then
    nodes.traverse fuel [nodes.root h]
  else
    some (.err .severalRoots)

def get (nodes : FogNode) (id : NodeId) : Option (Node NodeRecord) :=
  nodes.lookup id

def update (nodes : FogNode) (id : NodeId) (record : NodeRecord) : FogNode :=
  match nodes.lookup id with
  | none      => nodes
  | some node => nodes.insert id { node with data := record }

def fresh (parent : Option NodeId) (record : NodeRecord) : Node NodeRecord where
  parent   := parent
  children := []
  data     := record

-- The two writes of `append_new_child`: the child is pushed to the children of the parent, and then
-- its own entry is inserted.
def append (nodes : FogNode) (parent : NodeId) (node : Node NodeRecord) (child : NodeId)
    (record : NodeRecord) : FogNode :=
  let pushed := nodes.insert parent { node with children := node.children ++ [child] }
  pushed.insert child (fresh parent record)

-- What `append_new_child` does once `check_tree` has failed with `e`. The position is counted from
-- the end of the children, and then used from their start.
def rollback (nodes : FogNode) (parent child : NodeId) (e : Error) : Outcome × FogNode :=
  match nodes.lookup parent with
  | none      => (.err (.unknownParent child parent), nodes)
  | some node =>
    match node.children.reverse.findIdx? (· = child) with
    | none     => (.err (.unlistedChild parent child), nodes)
    | some pos =>
      if pos < node.children.length then
        (.err e, (nodes.insert parent { node with children := node.children.eraseIdx pos }).erase child)
      else
        (.panic, nodes)

def appendNewChild
    (fuel : ℕ) (nodes : FogNode) (parent child : NodeId) (ip : IpAddr) (portHttp portFaas : BitVec 16)
    (tags : List String) : Option (Outcome × FogNode) :=
  match nodes.lookup parent with
  | none      => some (.err (.unknownParent child parent), nodes)
  | some node =>
    let written := nodes.append parent node child (NodeRecord.new ip portHttp portFaas tags)
    match checkTree fuel written with
    | none          => none
    | some (.err e) => some (written.rollback parent child e)
    | some outcome  => some (outcome, written)

def appendRoot
    (fuel : ℕ) (nodes : FogNode) (root : NodeId) (ip : IpAddr) (portHttp portFaas : BitVec 16)
    (tags : List String) : Option (Outcome × FogNode) :=
  let written : FogNode := nodes.insert root (fresh none (NodeRecord.new ip portHttp portFaas tags))
  match checkTree fuel written with
  | none          => none
  | some (.err e) => some (.err e, written.erase root)
  | some outcome  => some (outcome, written)

inductive Call
  | appendRoot (root : NodeId) (ip : IpAddr) (portHttp portFaas : BitVec 16) (tags : List String)
  | appendNewChild
      (parent child : NodeId) (ip : IpAddr) (portHttp portFaas : BitVec 16) (tags : List String)
  | update (id : NodeId) (record : NodeRecord)

def serve (fuel : ℕ) (nodes : FogNode) : Call → Option (Outcome × FogNode)
  | .appendRoot root ip portHttp portFaas tags =>
    nodes.appendRoot fuel root ip portHttp portFaas tags
  | .appendNewChild parent child ip portHttp portFaas tags =>
    nodes.appendNewChild fuel parent child ip portHttp portFaas tags
  | .update id record => some (.ok, nodes.update id record)

-- A call which returns within the given number of pops.
structure Request where
  fuel : ℕ
  call : Call

def step (nodes : FogNode) (r : Request) : Option FogNode :=
  (nodes.serve r.fuel r.call).map (·.2)

end FogNode
end Market
