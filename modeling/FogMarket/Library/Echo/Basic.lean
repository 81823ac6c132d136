import Mathlib.Combinatorics.SimpleGraph.Basic
import Mathlib.Data.Finset.Basic
import Mathlib.Data.Multiset.Bind
import FogMarket.Library.Transition

-- A question is sent through a network. Whoever gets it passes it on to the neighbors, finds something
-- on its own, and answers once the neighbors have done so.
namespace Echo

structure Request (ν α : Type*) where
  node    : ν
  origin  : ν
  content : α
deriving DecidableEq

-- The part which a node contributes on its own.
inductive Own
  | idle
  | running
  | ended
deriving DecidableEq

-- What a node does for a request: `rest` has not been asked yet, and `waiting` has not answered yet.
structure Task (ν α β : Type*) where
  node    : ν
  origin  : ν
  content : α
  rest    : Finset ν
  waiting : Finset ν
  own     : Own
  found   : Multiset β
deriving DecidableEq

structure Answer (ν β : Type*) where
  node   : ν
  origin : ν
  found  : Multiset β
deriving DecidableEq

-- Requests and answers are under way for any time. `sent` and `made` record all requests, and all that
-- nodes have contributed on their own.
structure State (ν α β : Type*) where
  sent     : List (Request ν α)
  requests : Multiset (Request ν α)
  tasks    : Multiset (Task ν α β)
  answers  : Multiset (Answer ν β)
  made     : Multiset (ν × Option β)
  result   : Option (Multiset β)

-- The last four are faults.
inductive Act (ν α β : Type*)
  | receive (r : Request ν α)
  | ask (t : Task ν α β) (w : ν) (content : α)
  | skip (t : Task ν α β) (w : ν)
  | begin (t : Task ν α β)
  | finish (t : Task ν α β) (b : Option β)
  | reply (t : Task ν α β)
  | deliver (a : Answer ν β) (t : Task ν α β)
  | loseRequest (r : Request ν α)
  | loseAnswer (a : Answer ν β)
  | giveUp (t : Task ν α β) (w : ν)
  | abort (t : Task ν α β)

variable {ν α β : Type*}

-- The first node is asked as if by itself.
def Request.first (start : ν) (content : α) : Request ν α where
  node    := start
  origin  := start
  content := content

def State.start (start : ν) (content : α) : State ν α β where
  sent     := [.first start content]
  requests := {.first start content}
  tasks    := 0
  answers  := 0
  made     := 0
  result   := none

def Request.task [DecidableEq ν] (neighbors : ν → Finset ν) (r : Request ν α) : Task ν α β where
  node    := r.node
  origin  := r.origin
  content := r.content
  rest    := (neighbors r.node).erase r.origin
  waiting := ∅
  own     := .idle
  found   := 0

namespace Task

def answer (t : Task ν α β) : Answer ν β where
  node   := t.node
  origin := t.origin
  found  := t.found

def request (t : Task ν α β) (w : ν) (content : α) : Request ν α where
  node    := w
  origin  := t.node
  content := content

-- Nothing is left to be done before the answer.
def Ready (t : Task ν α β) : Prop :=
  t.rest = ∅ ∧ t.waiting = ∅ ∧ t.own = .ended

instance [DecidableEq ν] (t : Task ν α β) : Decidable t.Ready :=
  inferInstanceAs (Decidable (_ ∧ _ ∧ _))

variable [DecidableEq ν]

def ask (t : Task ν α β) (w : ν) : Task ν α β :=
  { t with
    rest    := t.rest.erase w
    waiting := insert w t.waiting }

def skip (t : Task ν α β) (w : ν) : Task ν α β :=
  { t with rest := t.rest.erase w }

def finish (t : Task ν α β) (b : Option β) : Task ν α β :=
  { t with
    own   := .ended
    found := t.found + b.elim 0 ({·}) }

def collect (t : Task ν α β) (a : Answer ν β) : Task ν α β :=
  { t with
    waiting := t.waiting.erase a.node
    found   := t.found + a.found }

def giveUp (t : Task ν α β) (w : ν) : Task ν α β :=
  { t with waiting := t.waiting.erase w }

end Task

-- The nodes with a request or an answer under way or with a task, and the nodes they have been asked by.
def State.active (s : State ν α β) : Multiset (ν × ν) :=
  s.requests.map (fun r => (r.node, r.origin)) + s.tasks.map (fun t => (t.node, t.origin)) +
    s.answers.map (fun a => (a.node, a.origin))

-- The nodes which have been asked, and have not contributed yet.
def State.pending (s : State ν α β) : Multiset ν :=
  s.requests.map Request.node + (s.tasks.filter (·.own ≠ .ended)).map Task.node

variable [DecidableEq ν] [DecidableEq α] [DecidableEq β]

namespace State

variable (s : State ν α β)

def setTask (t u : Task ν α β) : State ν α β :=
  { s with tasks := u ::ₘ s.tasks.erase t }

def step (neighbors : ν → Finset ν) (s : State ν α β) : Act ν α β → Option (State ν α β)
  | .receive r =>
    if r ∈ s.requests then
      some { s with
        requests := s.requests.erase r
        tasks    := r.task neighbors ::ₘ s.tasks }
    else
      none
  | .ask t w content =>
    if t ∈ s.tasks ∧ w ∈ t.rest then
      some { s.setTask t (t.ask w) with
        sent     := t.request w content :: s.sent
        requests := t.request w content ::ₘ s.requests }
    else
      none
  | .skip t w => if t ∈ s.tasks ∧ w ∈ t.rest then some (s.setTask t (t.skip w)) else none
  | .begin t =>
    if t ∈ s.tasks ∧ t.own = .idle then some (s.setTask t { t with own := .running }) else none
  | .finish t b =>
    if t ∈ s.tasks ∧ t.own = .running then
      some { s.setTask t (t.finish b) with made := (t.node, b) ::ₘ s.made }
    else
      none
  | .reply t =>
    if t ∈ s.tasks ∧ t.Ready then
      let s := { s with tasks := s.tasks.erase t }
      some (if t.origin = t.node then
        { s with result := some t.found }
      else
        { s with answers := t.answer ::ₘ s.answers })
    else
      none
  | .deliver a t =>
    if a ∈ s.answers ∧ t ∈ s.tasks ∧ t.node = a.origin ∧ a.node ∈ t.waiting then
      some { s.setTask t (t.collect a) with answers := s.answers.erase a }
    else
      none
  | .loseRequest r => if r ∈ s.requests then some { s with requests := s.requests.erase r } else none
  | .loseAnswer a => if a ∈ s.answers then some { s with answers := s.answers.erase a } else none
  | .giveUp t w => if t ∈ s.tasks ∧ w ∈ t.waiting then some (s.setTask t (t.giveUp w)) else none
  | .abort t => if t ∈ s.tasks ∧ t.own = .running then some { s with tasks := s.tasks.erase t } else none

end State

def Act.Fault : Act ν α β → Prop
  | loseRequest _ | loseAnswer _ | giveUp .. | abort _ => True
  | _                                                  => False

instance {ν α β : Type*} : DecidablePred (@Act.Fault ν α β)
  | .loseRequest _ | .loseAnswer _ | .giveUp .. | .abort _ => .isTrue trivial
  | .receive _ | .ask .. | .skip .. | .begin _ | .finish .. | .reply _ | .deliver .. => .isFalse id

end Echo
