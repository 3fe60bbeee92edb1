/-
Acatl.Mqtt.TreeInsertion — sequences of `addFilter` calls on an empty tree.

  `insertion_contents`   every call is accepted, the tree stores what was added,
                         and it is the same tree for every list of calls that
                         add the same.

A tree is compared with another one by what is found at each path (`look`):
the order in which an `unordered_map` lists its nodes shows nowhere.
-/
import Acatl.Lib.Machine
import Acatl.Mqtt.TreeContents

namespace Acatl.Mqtt

open Acatl.Lib

variable {σ : Type}

/-- A call of `addFilter` with a valid filter. -/
structure FilterCall (σ : Type) where
  filter : TopicFilter
  valid : filter.Valid
  session : σ
  ec : ErrorCode

namespace SubscriptionNode

/-! ## §1 Classes of nodes -/

/-- The class of a node; `none` is `MultiLevelWildCardSubscriptionNode`. -/
def nodeClass : SubscriptionNode σ → Option NodeKind
  | .intermediate kind _ _ => some kind
  | .multiLevelWildCard _ => none

/-- The class of the node that is created for a level. -/
def classOf (level : Bytes) : Option NodeKind :=
  if level = hashLevel then none
  else if level = plusLevel then some .singleLevelWildCard
  else some (.topic level)

theorem nodeClass_create (l : Bytes) : (create l : SubscriptionNode σ).nodeClass = classOf l := by
  unfold create classOf
  split
  · rfl
  · split <;> rfl

/-- Every node below is of the class that its key asks for. -/
inductive Classed : SubscriptionNode σ → Prop
  | multi (s : Finset σ) : Classed (.multiLevelWildCard s)
  | intermediate {kind : NodeKind} {s : Finset σ} {nodes : NodeMap σ}
      (hkey : ∀ k c, nodes.find? k = some c → c.nodeClass = classOf k)
      (hchild : ∀ k c, nodes.find? k = some c → Classed c) : Classed (.intermediate kind s nodes)

theorem classed_create (l : Bytes) : Classed (create l : SubscriptionNode σ) := by
  unfold create
  split
  · exact .multi ∅
  · split <;> exact .intermediate (by simp [NodeMap.find?]) (by simp [NodeMap.find?])

section

variable [DecidableEq σ]

theorem nodeClass_addLevels (x : σ) (p : List Bytes) (n : SubscriptionNode σ) :
    (n.addLevels x p).nodeClass = n.nodeClass := by
  cases n <;> cases p <;> rfl

theorem Classed.addLevels (x : σ) {p : List Bytes} {n : SubscriptionNode σ} (h : n.Classed) :
    (n.addLevels x p).Classed := by
  induction p generalizing n with
  | nil =>
    cases h with
    | multi s => exact .multi _
    | intermediate hkey hchild => exact .intermediate hkey hchild
  | cons l ls ih =>
    cases h with
    | multi s => exact .multi s
    | @intermediate kind s nodes hkey hchild =>
      -- the node that the insertion goes into, found or created
      have hnode : ((nodes.find? l).getD (create l)).nodeClass = classOf l ∧
          ((nodes.find? l).getD (create l)).Classed := by
        cases hl : nodes.find? l with
        | none => exact ⟨nodeClass_create l, classed_create l⟩
        | some c => exact ⟨hkey l c hl, hchild l c hl⟩
      refine .intermediate ?_ ?_
      · intro k c hc
        rw [NodeMap.find?_insert] at hc
        split at hc
        · rename_i hk
          rw [← Option.some.inj hc, nodeClass_addLevels, hnode.1, hk]
        · exact hkey k c hc
      · intro k c hc
        rw [NodeMap.find?_insert] at hc
        split at hc
        · rw [← Option.some.inj hc]
          exact ih hnode.2
        · exact hchild k c hc

end

/-- The class of a node below the root is read off the path to it. -/
theorem Classed.nodeClass_eq {n m : SubscriptionNode σ} (hn : n.Classed) (hm : m.Classed)
    (h : n.nodeClass = m.nodeClass) {path : List Bytes} {a b : SubscriptionNode σ}
    (ha : n.nodeAt path = some a) (hb : m.nodeAt path = some b) : a.nodeClass = b.nodeClass := by
  induction path generalizing n m with
  | nil =>
    rw [nodeAt_nil] at ha hb
    rw [← Option.some.inj ha, ← Option.some.inj hb, h]
  | cons k ks ih =>
    cases hn with
    | multi s => simp at ha
    | @intermediate kind s nodes hkey hchild =>
      cases hm with
      | multi s => simp at hb
      | @intermediate kind' s' nodes' hkey' hchild' =>
        rw [nodeAt_cons] at ha hb
        obtain ⟨c, hc, ha⟩ := Option.bind_eq_some_iff.mp ha
        obtain ⟨d, hd, hb⟩ := Option.bind_eq_some_iff.mp hb
        exact ih (hchild k c hc) (hchild' k d hd) ((hkey k c hc).trans (hkey' k d hd).symm) ha hb

/-! ## §2 Trees that look alike -/

/-- What is found at the end of a path: the class of the node and its sessions. -/
def look (n : SubscriptionNode σ) (path : List Bytes) : Option (Option NodeKind × Finset σ) :=
  (n.nodeAt path).map fun m => (m.nodeClass, m.sessions)

@[simp] theorem look_nil (n : SubscriptionNode σ) : n.look [] = some (n.nodeClass, n.sessions) := by
  simp [look]

theorem look_cons (kind : NodeKind) (s : Finset σ) (nodes : NodeMap σ) (k : Bytes)
    (ks : List Bytes) :
    (intermediate kind s nodes).look (k :: ks) = (nodes.find? k).bind (look · ks) := by
  rw [look, nodeAt_cons, Option.map_bind]
  rfl

/-- Nodes that look alike have children that look alike. -/
theorem look_child {kind kind' : NodeKind} {s s' : Finset σ} {nodes nodes' : NodeMap σ}
    (h : ∀ path, (intermediate kind s nodes).look path = (intermediate kind' s' nodes').look path)
    {k : Bytes} {c : SubscriptionNode σ} (hc : nodes.find? k = some c) :
    ∃ d, nodes'.find? k = some d ∧ ∀ path, c.look path = d.look path := by
  have hpath : ∀ ks, (some c).bind (look · ks) = (nodes'.find? k).bind (look · ks) := by
    intro ks
    rw [← look_cons kind' s', ← h, look_cons, hc]
  cases hd : nodes'.find? k with
  | none => simpa [hd] using hpath []
  | some d => exact ⟨d, rfl, fun ks => by simpa [hd] using hpath ks⟩

theorem find?_none_of_look {kind kind' : NodeKind} {s s' : Finset σ} {nodes nodes' : NodeMap σ}
    (h : ∀ path, (intermediate kind s nodes).look path = (intermediate kind' s' nodes').look path)
    {k : Bytes} (hk : nodes.find? k = none) : nodes'.find? k = none := by
  cases hd : nodes'.find? k with
  | none => rfl
  | some d =>
    obtain ⟨c, hc, -⟩ := look_child (fun path => (h path).symm) hd
    rw [hk] at hc
    cases hc

variable [DecidableEq σ]

theorem matchAt_none {nodes : NodeMap σ} {k : Bytes} (h : nodes.find? k = none)
    (cur : TopicHierarchyIterator) (st : MatchState σ) : nodes.matchAt k cur st = (false, st) := by
  match nodes with
  | .nil => rfl
  | .cons key node rest =>
    rw [NodeMap.find?] at h
    rw [NodeMap.matchAt]
    split
    · rw [if_pos ‹_›] at h
      cases h
    · rw [if_neg ‹_›] at h
      exact matchAt_none h cur st

theorem matchAt_some {nodes : NodeMap σ} {k : Bytes} {c : SubscriptionNode σ}
    (h : nodes.find? k = some c) (cur : TopicHierarchyIterator) (st : MatchState σ) :
    nodes.matchAt k cur st = c.matchTopic cur st := by
  match nodes with
  | .nil => cases h
  | .cons key node rest =>
    rw [NodeMap.find?] at h
    rw [NodeMap.matchAt]
    split
    · rw [if_pos ‹_›] at h
      rw [Option.some.inj h]
    · rw [if_neg ‹_›] at h
      exact matchAt_some h cur st

/-- Trees that look alike give the same answers to `match`. -/
theorem Shaped.matchTopic_eq {n m : SubscriptionNode σ} (hn : n.Shaped)
    (h : ∀ path, n.look path = m.look path) (cur : TopicHierarchyIterator) (st : MatchState σ) :
    n.matchTopic cur st = m.matchTopic cur st := by
  induction hn generalizing m cur st with
  | multi s =>
    have hroot := h []
    cases m with
    | intermediate kind s' nodes => simp [nodeClass] at hroot
    | multiLevelWildCard s' =>
      obtain rfl : s = s' := by simpa [nodeClass] using hroot
      rfl
  | @intermediate kind s nodes hkey hchild ih =>
    have hroot := h []
    cases m with
    | multiLevelWildCard s' => simp [nodeClass] at hroot
    | intermediate kind' s' nodes' =>
      have hs : s = s' := (Prod.mk.inj (Option.some.inj (by simpa using hroot))).2
      subst hs
      have hat : ∀ k cur st, nodes.matchAt k cur st = nodes'.matchAt k cur st := by
        intro k cur st
        cases hc : nodes.find? k with
        | none => rw [matchAt_none hc, matchAt_none (find?_none_of_look h hc)]
        | some c =>
          obtain ⟨d, hd, hlook⟩ := look_child h hc
          rw [matchAt_some hc, matchAt_some hd, ih k c hc hlook]
      cases cur with
      | none => simp only [matchTopic]
      | some cur => simp only [matchTopic, hat]

end SubscriptionNode

/-! ## §3 Sequences of calls -/

/-- `addFilter`: what it returns, and the error code after it. -/
def insertion [DecidableEq σ] : Machine (SubscriptionTree σ) (FilterCall σ) (Bool × ErrorCode) :=
  fun tree call =>
    let (added, ec, written) := tree.addFilter call.filter call.session call.ec
    ((added, ec), written)

/-- What the calls subscribe. -/
def subscribed (calls : List (FilterCall σ)) : List (TopicFilter × σ) :=
  calls.map fun call => (call.filter, call.session)

/-- Each session of one list of calls, with the levels it comes with, is in
the other one. -/
def AddTheSame (calls calls' : List (FilterCall σ)) : Prop :=
  ∀ path x, (∃ call ∈ calls, call.filter.levels = path ∧ call.session = x) ↔
    ∃ call ∈ calls', call.filter.levels = path ∧ call.session = x

/-- The tree after some calls is grown by them. -/
structure Inserted (calls : List (FilterCall σ)) (tree : SubscriptionTree σ) : Prop where
  grown : Grown (subscribed calls) tree.rootNode
  classed : tree.rootNode.Classed
  root : tree.rootNode.nodeClass = some .root

theorem inserted_new : Inserted [] (SubscriptionTree.new : SubscriptionTree σ) where
  grown := grown_new
  classed := .intermediate (by simp [NodeMap.find?]) (by simp [NodeMap.find?])
  root := rfl

theorem Inserted.stored {calls : List (FilterCall σ)} {tree : SubscriptionTree σ}
    (h : Inserted calls tree) (path : List Bytes) (x : σ) :
    x ∈ tree.rootNode.sessionsAt path ↔
      ∃ call ∈ calls, call.filter.levels = path ∧ call.session = x := by
  rw [h.grown.stored]
  simp only [subscribed, List.mem_map, Prod.mk.injEq]
  constructor
  · intro hx
    obtain ⟨f, ⟨call, hcall, rfl, rfl⟩, hpath⟩ := hx
    exact ⟨call, hcall, hpath, rfl⟩
  · intro hx
    obtain ⟨call, hcall, hpath, rfl⟩ := hx
    exact ⟨call.filter, ⟨call, hcall, rfl, rfl⟩, hpath⟩

theorem Inserted.node {calls : List (FilterCall σ)} {tree : SubscriptionTree σ}
    (h : Inserted calls tree) {path : List Bytes} (hpath : path ≠ []) :
    (tree.rootNode.nodeAt path).isSome = true ↔
      ∃ call ∈ calls, path <+: call.filter.levels := by
  rw [h.grown.nodes, or_iff_right hpath]
  simp only [subscribed, List.mem_map, Prod.mk.injEq]
  constructor
  · intro hnode
    obtain ⟨f, x, ⟨call, hcall, rfl, rfl⟩, hpre⟩ := hnode
    exact ⟨call, hcall, hpre⟩
  · intro hnode
    obtain ⟨call, hcall, hpre⟩ := hnode
    exact ⟨call.filter, call.session, ⟨call, hcall, rfl, rfl⟩, hpre⟩

/-- A `"#"` node is the last one on a path. -/
theorem Inserted.hash_leaf {calls : List (FilterCall σ)} {tree : SubscriptionTree σ}
    (h : Inserted calls tree) {front back : List Bytes}
    (hnode : (tree.rootNode.nodeAt (front ++ hashLevel :: back)).isSome = true) : back = [] := by
  obtain ⟨call, -, rest, hrest⟩ := (h.node (by simp)).mp hnode
  have hlast := call.valid.hashLast front (back ++ rest) (by simp [← hrest])
  exact (List.append_eq_nil_iff.mp hlast).1

/-- **Calls that add the same make trees that look alike.** -/
theorem Inserted.look_eq {calls calls' : List (FilterCall σ)} {tree tree' : SubscriptionTree σ}
    (h : Inserted calls tree) (h' : Inserted calls' tree') (hsame : AddTheSame calls calls')
    (path : List Bytes) : tree.rootNode.look path = tree'.rootNode.look path := by
  have hsessions : tree.rootNode.sessionsAt path = tree'.rootNode.sessionsAt path := by
    ext x
    rw [h.stored, h'.stored, hsame]
  have hsome : (tree.rootNode.nodeAt path).isSome = true ↔
      (tree'.rootNode.nodeAt path).isSome = true := by
    cases path with
    | nil => simp
    | cons k ks =>
      rw [h.node (by simp), h'.node (by simp)]
      constructor
      · intro hnode
        obtain ⟨call, hcall, hpre⟩ := hnode
        obtain ⟨call', hcall', hlevels, -⟩ := (hsame _ _).mp ⟨call, hcall, rfl, rfl⟩
        exact ⟨call', hcall', hlevels ▸ hpre⟩
      · intro hnode
        obtain ⟨call', hcall', hpre⟩ := hnode
        obtain ⟨call, hcall, hlevels, -⟩ := (hsame _ _).mpr ⟨call', hcall', rfl, rfl⟩
        exact ⟨call, hcall, hlevels ▸ hpre⟩
  unfold SubscriptionNode.sessionsAt at hsessions
  unfold SubscriptionNode.look
  cases ha : tree.rootNode.nodeAt path with
  | none =>
    cases hb : tree'.rootNode.nodeAt path with
    | none => rfl
    | some b => simp [ha, hb] at hsome
  | some a =>
    cases hb : tree'.rootNode.nodeAt path with
    | none => simp [ha, hb] at hsome
    | some b =>
      have hclass := h.classed.nodeClass_eq h'.classed (h.root.trans h'.root.symm) ha hb
      simp only [ha, hb] at hsessions
      simp [hclass, hsessions]

variable [DecidableEq σ]

theorem insertion_eq {calls : List (FilterCall σ)} {tree : SubscriptionTree σ}
    (h : Inserted calls tree) (call : FilterCall σ) :
    insertion tree call =
      ((true, call.ec), ⟨tree.rootNode.addLevels call.session call.filter.levels⟩) := by
  rw [insertion, SubscriptionTree.addFilter_eq_addLevels h.grown.shaped h.grown.inner call.valid]

/-- **One call adds its session under its levels, and is accepted.** -/
theorem Inserted.step {calls : List (FilterCall σ)} {tree : SubscriptionTree σ}
    (h : Inserted calls tree) (call : FilterCall σ) :
    Inserted (calls ++ [call]) (insertion tree call).2 := by
  rw [insertion_eq h call]
  refine ⟨?_, h.classed.addLevels call.session, ?_⟩
  · have hgrown := h.grown.addLevels call.valid call.session
    rwa [subscribed, List.map_append]
  · rw [SubscriptionNode.nodeClass_addLevels, h.root]

/-- What holds of the tree after every sequence of calls. -/
theorem inserted_after (calls : List (FilterCall σ)) :
    Inserted calls (insertion.after .new calls) := by
  have halong : insertion.Along (fun _ _ => True) (.new : SubscriptionTree σ) calls :=
    Machine.along_iff_steps.mpr fun _ _ _ => trivial
  exact Machine.history_along Inserted inserted_new (fun _ call h _ => h.step call) halong

/-- Every call is accepted, and leaves the error code as it is. -/
theorem outputs_insertion (calls : List (FilterCall σ)) :
    insertion.outputs .new calls = calls.map fun call => (true, call.ec) := by
  induction calls using List.reverseRecOn with
  | nil => rfl
  | append_singleton calls call ih =>
    rw [Machine.outputs_append, ih, List.map_append, Machine.outputs_cons,
      insertion_eq (inserted_after calls)]
    rfl

/-- **What the tree stores after any sequence of calls.** Every call is
accepted and sets no error; the sessions at a path are those that were added
with these levels; there is a node for each prefix of what was added, and none
below a `"#"`. A sequence that adds the same, in whatever order and however
often, makes a tree that looks alike at every path and answers every `match`
alike. -/
theorem insertion_contents (calls : List (FilterCall σ)) :
    let tree := insertion.after .new calls
    insertion.outputs .new calls = calls.map (fun call => (true, call.ec)) ∧
    (∀ path x, x ∈ tree.rootNode.sessionsAt path ↔
      ∃ call ∈ calls, call.filter.levels = path ∧ call.session = x) ∧
    (∀ path, path ≠ [] → ((tree.rootNode.nodeAt path).isSome = true ↔
      ∃ call ∈ calls, path <+: call.filter.levels)) ∧
    (∀ front back, (tree.rootNode.nodeAt (front ++ hashLevel :: back)).isSome = true →
      back = []) ∧
    ∀ calls', AddTheSame calls calls' →
      let tree' := insertion.after .new calls'
      (∀ path, tree.rootNode.look path = tree'.rootNode.look path) ∧
      ∀ topic sessions, tree.matchTopic topic sessions = tree'.matchTopic topic sessions := by
  intro tree
  have h : Inserted calls tree := inserted_after calls
  refine ⟨outputs_insertion calls, h.stored, fun path hpath => h.node hpath,
    fun front back hnode => h.hash_leaf hnode, ?_⟩
  intro calls' hsame tree'
  have hlook := h.look_eq (inserted_after calls') hsame
  refine ⟨hlook, ?_⟩
  intro topic sessions
  simp only [SubscriptionTree.matchTopic, h.grown.shaped.matchTopic_eq hlook, tree']

end Acatl.Mqtt
