/-
Acatl.Mqtt.SubscriptionTree — `mqtt_subscription_tree.h`: the trie of topic
filters, and matching a topic name against it.

The four node classes of the source are two constructors. The root, topic
and single level wildcard nodes inherit `doMatch` and `doAddFilter` from
`IntermediateSubscriptionNode` and differ in `clone` (`NodeKind`); the multi
level wildcard node has bodies of its own. `_nodes`, an `unordered_map`, is
an association list with distinct keys, and a `std::set` of sessions a
`Finset`; the node functions are generic in the session handle `σ`.

`TopicHierarchyIterator cur` is passed by value, but a copy of an iterator
shares its `impl` object (`Acatl.Mqtt.Topic`), so the heap with that object
is threaded through every call: what a recursive call does to the object,
the caller sees when it goes on with its own copy.

`match` takes an `error_code` and none of its bodies touches it.
-/
import Acatl.Mqtt.Topic
import Mathlib.Data.Finset.Basic
import Mathlib.Data.Finset.Lattice.Basic

namespace Acatl.Mqtt

variable {σ : Type}

/-! ## The nodes -/

/-- Which subclass of `IntermediateSubscriptionNode` a node is. -/
inductive NodeKind where
  | root
  | topic (name : Bytes)
  | singleLevelWildCard
  deriving DecidableEq

mutual

/-- `SubscriptionNodeBase`. -/
inductive SubscriptionNode (σ : Type) where
  | intermediate (kind : NodeKind) (sessions : Finset σ) (nodes : NodeMap σ)
  | multiLevelWildCard (sessions : Finset σ)

/-- `std::unordered_map<std::string, SubscriptionNodeBase::Ptr>`. -/
inductive NodeMap (σ : Type) where
  | nil
  | cons (key : Bytes) (node : SubscriptionNode σ) (rest : NodeMap σ)

end

namespace NodeMap

/-- `_nodes.find(key)`. -/
def find? : NodeMap σ → Bytes → Option (SubscriptionNode σ)
  | .nil, _ => none
  | .cons key node rest, k => if key = k then some node else rest.find? k

/-- The map with `node` under `key`. -/
def insert : NodeMap σ → Bytes → SubscriptionNode σ → NodeMap σ
  | .nil, k, new => .cons k new .nil
  | .cons key node rest, k, new =>
    if key = k then .cons key new rest else .cons key node (rest.insert k new)

theorem find?_insert (nodes : NodeMap σ) (k k' : Bytes) (new : SubscriptionNode σ) :
    (nodes.insert k new).find? k' = if k' = k then some new else nodes.find? k' := by
  match nodes with
  | .nil =>
    by_cases h : k' = k
    · simp [insert, find?, h]
    · simp [insert, find?, h, Ne.symm h]
  | .cons key node rest =>
    by_cases hk : key = k
    · subst hk
      by_cases h : k' = key
      · simp [insert, find?, h]
      · simp [insert, find?, h, Ne.symm h]
    · by_cases h : key = k'
      · have : k' ≠ k := fun e => hk (h.trans e)
        simp [insert, find?, h, this]
      · simp [insert, find?, hk, h, find?_insert rest k k' new]

end NodeMap

namespace SubscriptionNode

/-- `_sessions`. -/
def sessions : SubscriptionNode σ → Finset σ
  | .intermediate _ s _ => s
  | .multiLevelWildCard s => s

/-- The `NodeCreator` functions, dispatched on the level as `doAddFilter`
does. -/
def create (level : Bytes) : SubscriptionNode σ :=
  if level = hashLevel then
    .multiLevelWildCard ∅
  else if level = plusLevel then
    .intermediate .singleLevelWildCard ∅ .nil
  else
    .intermediate (.topic level) ∅ .nil

end SubscriptionNode

/-! ## match -/

/-- What `match` works on: the heap with the shared iterator object, and the
set it collects the sessions in. -/
structure MatchState (σ : Type) where
  heap : ImplHeap
  sessions : Finset σ

section Match

variable [DecidableEq σ]

/-- `sessions.insert(begin(_sessions), end(_sessions))`. -/
def MatchState.insert (st : MatchState σ) (s : Finset σ) : MatchState σ :=
  { st with sessions := st.sessions ∪ s }

mutual

/-- `SubscriptionNodeBase::match` and, for an iterator that is not at the
end, `doMatch` of the node's class. -/
def SubscriptionNode.matchTopic :
    SubscriptionNode σ → TopicHierarchyIterator → MatchState σ → Bool × MatchState σ
  -- `MultiLevelWildCardSubscriptionNode::doMatch` does what `match` does at the end
  | .multiLevelWildCard sessions, _, st => (true, st.insert sessions)
  | .intermediate _ sessions _, none, st => (true, st.insert sessions)
  | .intermediate _ _ nodes, some cur, st =>
    let level := (st.heap cur).current
    let next := TopicHierarchyIterator.increment cur st.heap
    let literal := nodes.matchAt level next.1 { st with heap := next.2 }
    let multi := nodes.matchAt hashLevel next.1 literal.2
    let single := nodes.matchAt plusLevel next.1 multi.2
    (literal.1 || multi.1 || single.1, single.2)

/-- `it = _nodes.find(key)` and, if there is such a node, `it->second->match`. -/
def NodeMap.matchAt :
    NodeMap σ → Bytes → TopicHierarchyIterator → MatchState σ → Bool × MatchState σ
  | .nil, _, _, st => (false, st)
  | .cons key node rest, k, cur, st =>
    if key = k then node.matchTopic cur st else rest.matchAt k cur st

end

end Match

/-! ## addFilter -/

/-- The result of `addFilter`: what it returns, the error code, the node and
the heap afterwards. -/
structure AddResult (σ : Type) where
  added : Bool
  ec : ErrorCode
  node : SubscriptionNode σ
  heap : ImplHeap

/-- `SubscriptionNodeBase::addFilter` and `doAddFilter`. The recursion goes
into a node that may just have been created, so it is bounded by `fuel`; one
unit for each level is enough (`addFilter_eq_addLevels`). -/
def SubscriptionNode.addFilter [DecidableEq σ] (session : σ) :
    Nat → SubscriptionNode σ → TopicHierarchyIterator → ImplHeap → ErrorCode → AddResult σ
  | _, .intermediate kind sessions nodes, none, heap, ec =>
    ⟨true, ec, .intermediate kind (insert session sessions) nodes, heap⟩
  | _, .multiLevelWildCard sessions, none, heap, ec =>
    ⟨true, ec, .multiLevelWildCard (insert session sessions), heap⟩
  | _, .multiLevelWildCard sessions, some _, heap, _ =>
    ⟨false, some .invalidTopicFilter, .multiLevelWildCard sessions, heap⟩
  | 0, .intermediate kind sessions nodes, some _, heap, ec =>
    ⟨false, ec, .intermediate kind sessions nodes, heap⟩
  | fuel + 1, .intermediate kind sessions nodes, some cur, heap, ec =>
    let level := (heap cur).current
    -- `emplace` keeps a node that is already there
    let child := (nodes.find? level).getD (.create level)
    let next := TopicHierarchyIterator.increment cur heap
    let result := addFilter session fuel child next.1 next.2 ec
    { result with node := .intermediate kind sessions (nodes.insert level result.node) }

/-! ## clone -/

mutual

/-- `clone`. The root's own session set is not copied. -/
def SubscriptionNode.clone : SubscriptionNode σ → SubscriptionNode σ
  | .intermediate .root _ nodes => .intermediate .root ∅ nodes.clone
  | .intermediate (.topic name) sessions nodes =>
    .intermediate (.topic name) sessions nodes.clone
  | .intermediate .singleLevelWildCard sessions nodes =>
    .intermediate .singleLevelWildCard sessions nodes.clone
  | .multiLevelWildCard sessions => .multiLevelWildCard sessions

/-- The loop over `_nodes` in each `clone`. -/
def NodeMap.clone : NodeMap σ → NodeMap σ
  | .nil => .nil
  | .cons key node rest => .cons key node.clone rest.clone

end

/-! ## dump -/

/-- `std::quoted`. -/
def quoted (s : Bytes) : Bytes :=
  0x22 :: s.flatMap (fun c => if c = 0x22 ∨ c = 0x5C then [0x5C, c] else [c]) ++ [0x22]

/-- The line of one node: `" -> "` and the client identifiers, each with a
comma behind it, if there are sessions. `clientIds` lists those of a set in the
order of the set. -/
def dumpLine [DecidableEq σ] (clientIds : Finset σ → List Bytes) (indent : Nat) (level : Bytes)
    (sessions : Finset σ) : Bytes :=
  List.replicate indent 0x20 ++ quoted level ++
    (if sessions = ∅ then [] else
      [0x20, 0x2D, 0x3E, 0x20] ++ (clientIds sessions).flatMap (· ++ [0x2C])) ++ [0x0A]

mutual

/-- `dump` of each class; the root has no line of its own. -/
def SubscriptionNode.dump [DecidableEq σ] (clientIds : Finset σ → List Bytes) :
    SubscriptionNode σ → Nat → Bytes
  | .intermediate .root _ nodes, indent => nodes.dump clientIds indent
  | .intermediate (.topic name) sessions nodes, indent =>
    dumpLine clientIds indent name sessions ++ nodes.dump clientIds (indent + 2)
  | .intermediate .singleLevelWildCard sessions nodes, indent =>
    dumpLine clientIds indent plusLevel sessions ++ nodes.dump clientIds (indent + 2)
  | .multiLevelWildCard sessions, indent => dumpLine clientIds indent hashLevel sessions

/-- The loop over `_nodes` in each `dump`. -/
def NodeMap.dump [DecidableEq σ] (clientIds : Finset σ → List Bytes) : NodeMap σ → Nat → Bytes
  | .nil, _ => []
  | .cons _ node rest, indent => node.dump clientIds indent ++ rest.dump clientIds indent

end

/-! ## SubscriptionTree -/

/-- `SubscriptionTree`. -/
structure SubscriptionTree (σ : Type) where
  rootNode : SubscriptionNode σ

namespace SubscriptionTree

/-- `SubscriptionTree()`. -/
def new : SubscriptionTree σ := ⟨.intermediate .root ∅ .nil⟩

/-- `clone`. -/
def clone (tree : SubscriptionTree σ) : SubscriptionTree σ := ⟨tree.rootNode.clone⟩

/-- A heap for the iterator of one call. -/
def callHeap : ImplHeap := fun _ => ⟨[], [], 0⟩

variable [DecidableEq σ]

/-- `match`: what it returns, and `sessions` afterwards. -/
def matchTopic (tree : SubscriptionTree σ) (topic : TopicName) (sessions : Finset σ) :
    Bool × Finset σ :=
  let cur := topic.begin 0 callHeap
  let result := tree.rootNode.matchTopic cur.1 ⟨cur.2, sessions⟩
  (result.1, result.2.sessions)

/-- `addFilter`: what it returns, the error code and the tree afterwards. -/
def addFilter (tree : SubscriptionTree σ) (filter : TopicFilter) (session : σ) (ec : ErrorCode) :
    Bool × ErrorCode × SubscriptionTree σ :=
  let cur := filter.begin 0 callHeap
  let result := tree.rootNode.addFilter session (filter.filter.length + 1) cur.1 cur.2 ec
  (result.added, result.ec, ⟨result.node⟩)

/-- `dump`. -/
def dump (tree : SubscriptionTree σ) (clientIds : Finset σ → List Bytes) (indent : Nat) : Bytes :=
  tree.rootNode.dump clientIds indent

/-- The sessions `match` finds for a topic, starting from an empty set. -/
def sessionsFor (tree : SubscriptionTree σ) (topic : TopicName) : Finset σ :=
  (tree.matchTopic topic ∅).2

/-- The tree after a sequence of `addFilter` calls, if all of them succeed. -/
def addFilters (tree : SubscriptionTree σ) : List (TopicFilter × σ) → Option (SubscriptionTree σ)
  | [] => some tree
  | (f, s) :: rest =>
    if (tree.addFilter f s none).1 then (tree.addFilter f s none).2.2.addFilters rest else none

end SubscriptionTree

end Acatl.Mqtt
